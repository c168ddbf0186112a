import Kitakami.Gps.LinkedListOps

/-!
# Message queues

`msg_q.c`: a linked list behind a mutex. Threads send and receive, a receiver
waits on the condition variable while the list is empty, and the queue can be
flushed and unblocked. A call is one step under the mutex, and so is each
wakeup of a receiver that waits; wakeups may be spurious.
-/

namespace Kitakami
namespace MsgQueue

open Runs LinkedList

/-- `msq_q_err_type`. -/
inductive MsqQErr
  | success | failureGeneral | invalidParameter | invalidHandle | unavailableResource
  | insufficientBuffer
  deriving DecidableEq

def convertLinkedListErrType : Err → MsqQErr
  | .success => .success
  | .invalidParameter => .invalidParameter
  | .invalidHandle => .invalidHandle
  | .unavailableResource => .unavailableResource
  | .insufficientBuffer => .insufficientBuffer
  | .failureGeneral => .failureGeneral

/-- What has happened to a queue. A receiver is known by its thread. -/
inductive Event (D : Type)
  | sent (m : D)
  | notSent (rv : MsqQErr)
  | received (thread : ℕ) (m : D)
  | notReceived (thread : ℕ) (rv : MsqQErr)
  | flushed (ms : List D)
  | unblocked
  deriving DecidableEq

structure MsgQ (D : Type) where
  msgList : ListState D := {}
  unblocked : Bool := false
  waiting : List ℕ := []
  log : List (Event D) := []

variable {D : Type}

/-- The data from `p` on, along the next pointers. -/
def dataFrom (s : ListState D) : ℕ → Ptr → List D
  | 0, _ => []
  | fuel+1, p =>
    match s.deref p with
    | some e => e.dataPtr::dataFrom s fuel e.next
    | none => []

/-- The messages in the queue, the oldest first. -/
def MsgQ.messages (q : MsgQ D) : List D :=
  (dataFrom q.msgList (q.msgList.allocs + 1) q.msgList.pHead).reverse

namespace MsgQ

def record (q : MsgQ D) (e : Event D) : MsgQ D := { q with log := q.log ++ [e] }

/-- `msg_q_snd`. -/
def msgQSnd (q : MsgQ D) (msgObj : Option D) (dealloc : Bool) (malloc : Ptr) :
    Option (MsgQ D) :=
  match msgObj with
  | none => some (q.record (.notSent .invalidParameter))
  | some m =>
    if q.unblocked then some (q.record (.notSent .unavailableResource))
    else do
      let r ← linkedListAdd q.msgList (some m) dealloc malloc
      let rv : MsqQErr := convertLinkedListErrType r.1
      let q := { q with msgList := r.2 }
      return q.record (if rv = .success then .sent m else .notSent rv)

/-- From the loop of `msg_q_rcv` on: wait, or take a message. -/
def await (q : MsgQ D) (thread : ℕ) : Option (MsgQ D) :=
  if linkedListEmpty q.msgList && !q.unblocked then
    some { q with waiting := thread::q.waiting }
  else do
    let r ← linkedListRemove q.msgList true
    let q := { q with msgList := r.2.2 }
    return q.record (match r.1,r.2.1 with
      | .success,some m => .received thread m
      | err,_ => .notReceived thread (convertLinkedListErrType err))

/-- `msg_q_rcv` up to its first wait. -/
def msgQRcv (q : MsgQ D) (thread : ℕ) (msgObj : Bool) : Option (MsgQ D) :=
  if !msgObj then some (q.record (.notReceived thread .invalidParameter))
  else if q.unblocked then some (q.record (.notReceived thread .unavailableResource))
  else q.await thread

/-- `pthread_cond_wait` returns in a thread that waits. -/
def wake (q : MsgQ D) (thread : ℕ) : Option (MsgQ D) :=
  if thread ∈ q.waiting then { q with waiting := q.waiting.erase thread }.await thread
  else some q

/-- `msg_q_flush`. -/
def msgQFlush (q : MsgQ D) : Option (MsgQ D) := do
  let r ← linkedListFlush q.msgList
  let ms := q.messages
  let q := { q with msgList := r.2 }
  return q.record (.flushed ms)

/-- `msg_q_unblock`; a second call changes nothing. -/
def msgQUnblock (q : MsgQ D) : MsgQ D :=
  if q.unblocked then q else { q with unblocked := true }.record .unblocked

end MsgQ

inductive Act (D : Type)
  | snd (msgObj : Option D) (dealloc : Bool) (malloc : Ptr)
  | rcv (thread : ℕ) (msgObj : Bool)
  | wake (thread : ℕ)
  | flush
  | unblock
  deriving DecidableEq

/-- One step; it has no successor where it goes wrong. -/
def step (q : MsgQ D) : Act D → Option (MsgQ D)
  | .snd msgObj dealloc malloc => q.msgQSnd msgObj dealloc malloc
  | .rcv thread msgObj => q.msgQRcv thread msgObj
  | .wake thread => q.wake thread
  | .flush => q.msgQFlush
  | .unblock => some q.msgQUnblock

/-- `malloc` returns memory that is not in use. -/
def Fresh (q : MsgQ D) : Act D → Prop
  | .snd _ _ (some a) => (q.msgList.heap a).isNone
  | _ => True

instance (q : MsgQ D) : ∀ act, Decidable (Fresh q act)
  | .snd _ _ (some a) => inferInstanceAs (Decidable ((q.msgList.heap a).isNone = true))
  | .snd _ _ none => isTrue trivial
  | .rcv _ _ => isTrue trivial
  | .wake _ => isTrue trivial
  | .flush => isTrue trivial
  | .unblock => isTrue trivial

/-! ## The abstract queue -/

/-- The queue as its users see it: the messages in it, the oldest first, whether it is unblocked,
who waits, and what has happened. -/
structure Fifo (D : Type) where
  messages : List D := []
  unblocked : Bool := false
  waiting : List ℕ := []
  log : List (Event D) := []

namespace Fifo

def record (f : Fifo D) (e : Event D) : Fifo D := { f with log := f.log ++ [e] }

/-- Take the oldest message, or wait for one unless the queue is unblocked. -/
def await (f : Fifo D) (thread : ℕ) : Fifo D :=
  match f.messages,f.unblocked with
  | m::ms,_ => { f with messages := ms }.record (.received thread m)
  | [],true => f.record (.notReceived thread .unavailableResource)
  | [],false => { f with waiting := thread::f.waiting }

/-- What each call does, and how it is answered. -/
def step (f : Fifo D) : Act D → Fifo D
  | .snd none _ _ => f.record (.notSent .invalidParameter)
  | .snd (some m) _ malloc =>
    if f.unblocked then f.record (.notSent .unavailableResource)
    else if malloc.isNone then f.record (.notSent .failureGeneral)
    else { f with messages := f.messages ++ [m] }.record (.sent m)
  | .rcv thread msgObj =>
    if !msgObj then f.record (.notReceived thread .invalidParameter)
    else if f.unblocked then f.record (.notReceived thread .unavailableResource)
    else f.await thread
  | .wake thread =>
    if thread ∈ f.waiting then { f with waiting := f.waiting.erase thread }.await thread else f
  | .flush => { f with messages := [] }.record (.flushed f.messages)
  | .unblock => if f.unblocked then f else { f with unblocked := true }.record .unblocked

end Fifo

/-- What the users see of a queue. -/
def MsgQ.view (q : MsgQ D) : Fifo D := ⟨q.messages,q.unblocked,q.waiting,q.log⟩

@[simp]
theorem MsgQ.view_unblocked (q : MsgQ D) : q.view.unblocked = q.unblocked := rfl

@[simp]
theorem MsgQ.view_waiting (q : MsgQ D) : q.view.waiting = q.waiting := rfl

theorem MsgQ.view_record (q : MsgQ D) (e : Event D) : (q.record e).view = q.view.record e := rfl

/-- The messages of the sends that succeed: those before the first unblock for which there is
memory. -/
def accepted : List (Act D) → List D
  | [] => []
  | .snd (some m) _ (some _)::acts => m::accepted acts
  | .unblock::_ => []
  | _::acts => accepted acts

/-! ## The history -/

def Event.in : Event D → List D
  | .sent m => [m]
  | _ => []

def Event.out : Event D → List D
  | .received _ m => [m]
  | .flushed ms => ms
  | _ => []

def Event.receipt : Event D → List D
  | .received _ m => [m]
  | _ => []

/-- The messages that were sent. -/
def sentOf (log : List (Event D)) : List D := log.flatMap Event.in

/-- The messages that were received or flushed. -/
def goneOf (log : List (Event D)) : List D := log.flatMap Event.out

/-- The messages that were received. -/
def receivedOf (log : List (Event D)) : List D := log.flatMap Event.receipt

/-- No message is sent after the queue was unblocked. -/
def SilentAfterUnblock (log : List (Event D)) : Prop :=
  log.Pairwise fun e e' => e = .unblocked → e'.in = []

theorem receivedOf_sublist (log : List (Event D)) : (receivedOf log).Sublist (goneOf log) := by
  induction log with
  | nil => exact List.Sublist.refl _
  | cons e log ih =>
    have he : e.receipt.Sublist e.out := by
      cases e with
      | received thread m => exact List.Sublist.refl _
      | _ => exact List.nil_sublist _
    exact he.append ih

/-! ## What a step does -/

variable {q q' : MsgQ D} {as : List Addr} {l : List (Item D)}

theorem dataFrom_eq {s : ListState D} (h : Represents s as l) (fuel : ℕ) (as₁ as₂ : List Addr)
    (l₁ l₂ : List (Item D)) (has : as = as₁ ++ as₂) (hl : l = l₁ ++ l₂)
    (hlen : as₁.length = l₁.length) (hf : as₂.length < fuel) :
    dataFrom s fuel as₂.head? = l₂.map Item.dataPtr := by
  induction fuel generalizing as₁ as₂ l₁ l₂ with
  | zero => omega
  | succ fuel ih =>
    have hlen₂ : as₂.length = l₂.length := by
      have := h.length_eq
      simp only [has,hl,List.length_append] at this
      omega
    match as₂,l₂,hlen₂ with
    | [],[],_ => rfl
    | a::as₂,i::l₂,_ =>
      subst has hl
      have hheap := h.heap_eq rfl hlen
      have hderef : s.deref (some a) = _ := hheap
      simp only [List.head?_cons,dataFrom,hderef,List.map_cons]
      rw [ih (as₁ ++ [a]) as₂ (l₁ ++ [i]) l₂ (by simp) (by simp) (by simpa using hlen)
        (by simpa using hf)]

/-- The list of the queue holds these items, the youngest in front. -/
def Holds (q : MsgQ D) (l : List (Item D)) : Prop := ∃ as, Represents q.msgList as l

theorem Holds.messages (h : Holds q l) : q.messages = (l.map Item.dataPtr).reverse := by
  obtain ⟨as,hr⟩ := h
  rw [MsgQ.messages,hr.pHead_eq,dataFrom_eq hr _ [] as [] l rfl rfl rfl
    (Nat.lt_succ_of_le hr.bounded)]

/-- The invariant of the queue. -/
structure Kept (q : MsgQ D) (l : List (Item D)) : Prop where
  holds : Holds q l
  sent : sentOf q.log = goneOf q.log ++ (l.map Item.dataPtr).reverse
  blocked : q.unblocked = false → ∀ e ∈ q.log, e ≠ .unblocked
  silent : SilentAfterUnblock q.log

theorem kept_init : Kept ({} : MsgQ D) [] :=
  ⟨⟨[],represents_empty⟩,rfl,by simp,List.Pairwise.nil⟩

/-- One more event: what comes in is behind the queue, what goes out is its front. -/
theorem Kept.record {e : Event D} {l' : List (Item D)} (h : Kept q l) (hh : Holds q' l')
    (hlog : q'.log = q.log ++ [e])
    (hmove : (l.map Item.dataPtr).reverse ++ e.in = e.out ++ (l'.map Item.dataPtr).reverse)
    (hb : q'.unblocked = false → q.unblocked = false ∧ e ≠ .unblocked)
    (hs : q.unblocked → e.in = []) : Kept q' l' := by
  refine ⟨hh,?_,?_,?_⟩
  · have hsent : sentOf q'.log = sentOf q.log ++ e.in := by simp [sentOf,hlog]
    have hgone : goneOf q'.log = goneOf q.log ++ e.out := by simp [goneOf,hlog]
    rw [hsent,hgone,h.sent,List.append_assoc,hmove,List.append_assoc]
  · intro hq' f hf
    obtain ⟨hq,he⟩ := hb hq'
    rw [hlog] at hf
    rcases List.mem_append.mp hf with hf | hf
    · exact h.blocked hq f hf
    · rwa [List.mem_singleton.mp hf]
  · rw [SilentAfterUnblock,hlog,List.pairwise_append]
    refine ⟨h.silent,List.pairwise_singleton _ _,?_⟩
    intro f hf g hg hfu
    obtain rfl := List.mem_singleton.mp hg
    cases hq : q.unblocked with
    | true => exact hs hq
    | false => exact absurd hfu (h.blocked hq f hf)

/-- An event that moves no message. -/
theorem Kept.idle {e : Event D} (h : Kept q l) (hlist : q'.msgList = q.msgList)
    (hlog : q'.log = q.log ++ [e]) (hin : e.in = []) (hout : e.out = [])
    (hb : q'.unblocked = false → q.unblocked = false ∧ e ≠ .unblocked) : Kept q' l := by
  obtain ⟨as,hr⟩ := h.holds
  exact h.record ⟨as,hlist ▸ hr⟩ hlog (by simp [hin,hout]) hb fun _ => hin

/-- What the users see of a queue with the items `l`. -/
theorem Kept.view_eq (h : Kept q l) :
    q.view = ⟨(l.map Item.dataPtr).reverse,q.unblocked,q.waiting,q.log⟩ := by
  rw [MsgQ.view,h.holds.messages]

theorem msgQSnd_kept (h : Kept q l) (msgObj : Option D) (dealloc : Bool) {malloc : Ptr}
    (hf : ∀ a, malloc = some a → (q.msgList.heap a).isNone) :
    ∃ q' l', q.msgQSnd msgObj dealloc malloc = some q' ∧ Kept q' l' ∧
      q'.view = q.view.step (.snd msgObj dealloc malloc) := by
  cases msgObj with
  | none => exact ⟨_,l,rfl,h.idle rfl rfl rfl rfl fun hq => ⟨hq,by simp⟩,rfl⟩
  | some m =>
    cases hu : q.unblocked with
    | true =>
      refine ⟨q.record (.notSent .unavailableResource),l,by simp [MsgQ.msgQSnd,hu],?_,?_⟩
      · exact h.idle rfl rfl rfl rfl fun hq => ⟨hq,by simp⟩
      · simp [MsgQ.view_record,Fifo.step,hu]
    | false =>
      cases malloc with
      | none =>
        refine ⟨q.record (.notSent .failureGeneral),l,?_,?_,?_⟩
        · simp [MsgQ.msgQSnd,hu,linkedListAdd,convertLinkedListErrType,MsgQ.record]
        · exact h.idle rfl rfl rfl rfl fun hq => ⟨hq,by simp⟩
        · rw [MsgQ.view_record]
          simp [Fifo.step,hu]
      | some a =>
        obtain ⟨as,hr⟩ := h.holds
        obtain ⟨s',hs',hr',-⟩ :=
          linkedListAdd_spec hr (Option.isNone_iff_eq_none.mp (hf a rfl)) m dealloc
        have hk : Kept (MsgQ.record { q with msgList := s' } (.sent m)) (⟨m,dealloc⟩::l) := by
          refine h.record ⟨_,hr'⟩ rfl ?_ (fun hq => ⟨hq,by simp⟩) fun hq => ?_
          · simp [Event.in,Event.out]
          · exact absurd hq (by simp [hu])
        refine ⟨_,_,?_,hk,?_⟩
        · simp [MsgQ.msgQSnd,hu,hs',convertLinkedListErrType]
        · rw [hk.view_eq,h.view_eq]
          simp [Fifo.step,Fifo.record,MsgQ.record,hu]

theorem await_kept (h : Kept q l) (thread : ℕ) :
    ∃ q' l', q.await thread = some q' ∧ Kept q' l' ∧ q'.view = q.view.await thread := by
  obtain ⟨as,hr⟩ := h.holds
  have hempty := linkedListEmpty_eq hr
  rcases List.eq_nil_or_concat l with rfl | ⟨l,i,rfl⟩
  · cases hu : q.unblocked with
    | false =>
      have hk : Kept { q with waiting := thread::q.waiting } [] :=
        ⟨h.holds,h.sent,h.blocked,h.silent⟩
      refine ⟨_,_,?_,hk,?_⟩
      · simp [MsgQ.await,hempty,hu]
      · rw [hk.view_eq,h.view_eq]
        simp [Fifo.await,hu]
    | true =>
      refine ⟨q.record (.notReceived thread .unavailableResource),[],?_,?_,?_⟩
      · simp [MsgQ.await,hempty,hu,linkedListRemove_nil hr,convertLinkedListErrType]
        rw [← hu]
      · exact h.idle rfl rfl rfl rfl fun hq => ⟨hq,nofun⟩
      · rw [MsgQ.view_record,h.view_eq]
        simp only [Fifo.await,hu,List.map_nil,List.reverse_nil]
  · rw [List.concat_eq_append] at h hr hempty
    obtain ⟨s',as',hs',hr',-⟩ := linkedListRemove_concat hr
    have hk : Kept (MsgQ.record { q with msgList := s' } (.received thread i.dataPtr)) l := by
      refine h.record ⟨as',hr'⟩ rfl ?_ (fun hq => ⟨hq,nofun⟩) fun _ => rfl
      simp [Event.in,Event.out]
    refine ⟨_,_,?_,hk,?_⟩
    · simp [MsgQ.await,hempty,hs']
    · rw [hk.view_eq,h.view_eq]
      simp [Fifo.await,Fifo.record,MsgQ.record]

theorem msgQFlush_kept (h : Kept q l) :
    ∃ q' l', q.msgQFlush = some q' ∧ Kept q' l' ∧ q'.view = q.view.step .flush := by
  obtain ⟨as,hr⟩ := h.holds
  obtain ⟨s',hs',hr',-⟩ := linkedListFlush_spec hr
  have hk : Kept (MsgQ.record { q with msgList := s' } (.flushed q.messages)) [] := by
    refine h.record ⟨[],hr'⟩ rfl ?_ (fun hq => ⟨hq,nofun⟩) fun _ => rfl
    simp [Event.in,Event.out,h.holds.messages]
  refine ⟨_,_,?_,hk,?_⟩
  · simp [MsgQ.msgQFlush,hs']
  · rw [hk.view_eq]
    rfl

theorem msgQUnblock_kept (h : Kept q l) :
    Kept q.msgQUnblock l ∧ q.msgQUnblock.view = q.view.step .unblock := by
  unfold MsgQ.msgQUnblock
  cases hu : q.unblocked with
  | true => exact ⟨h,by simp [Fifo.step,hu]⟩
  | false =>
    refine ⟨h.idle rfl rfl rfl rfl nofun,?_⟩
    simp [MsgQ.view,MsgQ.messages,MsgQ.record,Fifo.step,Fifo.record,hu]

theorem step_kept (h : Kept q l) {act : Act D} (hf : Fresh q act) :
    ∃ q' l', step q act = some q' ∧ Kept q' l' ∧ q'.view = q.view.step act := by
  cases act with
  | snd msgObj dealloc malloc =>
    refine msgQSnd_kept h msgObj dealloc ?_
    rintro a rfl
    exact hf
  | rcv thread msgObj =>
    cases msgObj with
    | false => exact ⟨_,l,rfl,h.idle rfl rfl rfl rfl fun hq => ⟨hq,nofun⟩,rfl⟩
    | true =>
      cases hu : q.unblocked with
      | true =>
        refine ⟨q.record (.notReceived thread .unavailableResource),l,?_,?_,?_⟩
        · simp [step,MsgQ.msgQRcv,hu]
        · exact h.idle rfl rfl rfl rfl fun hq => ⟨hq,nofun⟩
        · simp [MsgQ.view_record,Fifo.step,hu]
      | false => simpa [step,MsgQ.msgQRcv,Fifo.step,hu] using await_kept h thread
  | wake thread =>
    by_cases ht : thread ∈ q.waiting
    · have hq : Kept { q with waiting := q.waiting.erase thread } l :=
        ⟨h.holds,h.sent,h.blocked,h.silent⟩
      obtain ⟨q',l',hq',hk',hv⟩ := await_kept hq thread
      refine ⟨q',l',by simpa [step,MsgQ.wake,ht] using hq',hk',?_⟩
      rw [hv,Fifo.step,MsgQ.view_waiting,if_pos ht]
      rfl
    · exact ⟨q,l,by simp [step,MsgQ.wake,ht],h,by simp [Fifo.step,ht]⟩
  | flush => exact msgQFlush_kept h
  | unblock => exact ⟨_,l,rfl,msgQUnblock_kept h⟩

/-- The queue is, to its users, the abstract one. -/
theorem run_kept {acts : List (Act D)} (h : Kept q l) (hf : Along step Fresh q acts) :
    ∃ q' l', run step q acts = some q' ∧ Kept q' l' ∧ q'.view = acts.foldl Fifo.step q.view := by
  induction acts generalizing q l with
  | nil => exact ⟨q,l,rfl,h,rfl⟩
  | cons act acts ih =>
    obtain ⟨q₁,l₁,hq₁,h₁,hv₁⟩ := step_kept h hf.head
    obtain ⟨q₂,l₂,hq₂,h₂,hv₂⟩ := ih h₁ (hf.tail hq₁)
    refine ⟨q₂,l₂,run_cons_eq_some.mpr ⟨q₁,hq₁,hq₂⟩,h₂,?_⟩
    rw [hv₂,hv₁,List.foldl_cons]

theorem Fifo.await_frame (f : Fifo D) (thread : ℕ) :
    sentOf (f.await thread).log = sentOf f.log ∧ (f.await thread).unblocked = f.unblocked := by
  unfold Fifo.await
  split <;> simp_all [Fifo.record,sentOf,Event.in]

/-- Only a send adds to what was sent, and only `msg_q_unblock` unblocks the queue. -/
theorem Fifo.step_frame {f : Fifo D} {act : Act D}
    (hs : ∀ m dealloc a, act = .snd (some m) dealloc (some a) → f.unblocked)
    (hu : act = .unblock → f.unblocked) :
    sentOf (f.step act).log = sentOf f.log ∧ (f.step act).unblocked = f.unblocked := by
  cases act with
  | snd msgObj dealloc malloc =>
    cases msgObj with
    | none => simp [Fifo.step,Fifo.record,sentOf,Event.in]
    | some m =>
      cases malloc with
      | none => cases hf : f.unblocked <;> simp [Fifo.step,Fifo.record,sentOf,Event.in,hf]
      | some a => simp [Fifo.step,Fifo.record,sentOf,Event.in,hs m dealloc a rfl]
  | rcv thread msgObj =>
    cases msgObj with
    | false => simp [Fifo.step,Fifo.record,sentOf,Event.in]
    | true =>
      by_cases hf : f.unblocked
      · simp [Fifo.step,Fifo.record,sentOf,Event.in,hf]
      · simpa [Fifo.step,hf] using f.await_frame thread
  | wake thread =>
    by_cases ht : thread ∈ f.waiting
    · simpa [Fifo.step,ht] using Fifo.await_frame {f with waiting := f.waiting.erase thread} thread
    · simp [Fifo.step,ht]
  | flush => simp [Fifo.step,Fifo.record,sentOf,Event.in]
  | unblock => simp [Fifo.step,hu rfl]

/-- A queue that is unblocked takes no message. -/
theorem Fifo.sentOf_unblocked (acts : List (Act D)) (f : Fifo D) (hf : f.unblocked) :
    sentOf (acts.foldl Fifo.step f).log = sentOf f.log := by
  induction acts generalizing f with
  | nil => rfl
  | cons act acts ih =>
    obtain ⟨hs,hu⟩ : sentOf (f.step act).log = sentOf f.log ∧
        (f.step act).unblocked = f.unblocked := Fifo.step_frame (fun _ _ _ _ => hf) fun _ => hf
    rw [List.foldl_cons,ih _ (hu.trans hf),hs]

/-- What was sent are the messages of the sends that were accepted. -/
theorem Fifo.sentOf_run (acts : List (Act D)) (f : Fifo D) (hf : f.unblocked = false) :
    sentOf (acts.foldl Fifo.step f).log = sentOf f.log ++ accepted acts := by
  fun_induction accepted acts generalizing f with
  | case1 => simp
  | case2 m dealloc a acts ih =>
    have hm : sentOf (f.step (.snd (some m) dealloc (some a))).log = sentOf f.log ++ [m] := by
      simp [Fifo.step,Fifo.record,sentOf,Event.in,hf]
    rw [List.foldl_cons,ih _ (by simp [Fifo.step,Fifo.record,hf]),hm,List.append_assoc]
    rfl
  | case3 acts =>
    have hu : (f.step .unblock).unblocked := by simp [Fifo.step,Fifo.record,hf]
    rw [List.foldl_cons,Fifo.sentOf_unblocked acts _ hu]
    simp [Fifo.step,Fifo.record,sentOf,Event.in,hf]
  | case4 act acts hs hu ih =>
    obtain ⟨hlog,hb⟩ := Fifo.step_frame (f:=f)
      (fun m dealloc a h => (hs m dealloc a h).elim) fun h => (hu h).elim
    rw [List.foldl_cons,ih _ (hb.trans hf),hlog]

/-- Every sequence of list operations keeps the links consistent and does what
the operations on the sequence of items do; and in every interleaving of the
queue operations the queue is, to its users, a first-in first-out queue: the
messages of the successful sends are, in this order, those received or flushed
and those still in the queue, and no send succeeds after an unblock. -/
theorem exact_fifo {σ : Type} (e : σ) (ops : List (Op σ D)) (acts : List (Act D))
    (ho : Along LinkedList.step LinkedList.Fresh { env := e } ops)
    (ha : Along step Fresh ({} : MsgQ D) acts) :
    (∃ c as, run LinkedList.step { env := e } ops = some c ∧
      let q := ops.foldl seqStep { env := e }
      Represents c.list as q.items ∧ c.env = q.env ∧ c.rets = q.rets ∧
        c.list.dealloced = q.dealloced) ∧
    ∃ q as l, run step {} acts = some q ∧ Represents q.msgList as l ∧
      q.view = acts.foldl Fifo.step {} ∧ sentOf q.log = accepted acts ∧
      sentOf q.log = goneOf q.log ++ q.messages ∧ (receivedOf q.log).Sublist (sentOf q.log) ∧
      SilentAfterUnblock q.log := by
  obtain ⟨c,hc,⟨as,hr⟩,henv,hrets,hd⟩ := run_seq (simulates_init e) ho
  obtain ⟨q,l,hq,hk,hv⟩ := run_kept kept_init ha
  obtain ⟨bs,hbs⟩ := hk.holds
  have hsent : sentOf q.log = goneOf q.log ++ q.messages := by rw [hk.sent,hk.holds.messages]
  refine ⟨⟨c,as,hc,hr,henv,hrets,hd⟩,q,bs,l,hq,hbs,hv,?_,hsent,?_,hk.silent⟩
  · have hlog : q.log = q.view.log := rfl
    rw [hlog,hv]
    exact Fifo.sentOf_run acts {} rfl
  · rw [hsent]
    exact (receivedOf_sublist q.log).trans (List.sublist_append_left _ _)

/-- Two items, of which a search takes the older one out. -/
def sampleOps : List (Op Unit ℕ) :=
  [.add (some 1) true (some 0),.add (some 2) true (some 1),
    .search (fun e d => (decide (d = 1),e)) false true,.remove true,.flush]

/-- A receiver waits for the first of three messages; the second is flushed,
and the third is refused. -/
def sampleActs : List (Act ℕ) :=
  [.rcv 7 true,.snd (some 5) true (some 0),.wake 7,.snd (some 6) true (some 0),.flush,.unblock,
    .snd (some 8) true (some 0)]

theorem exact_fifo_handedOver :
    ∃ q as l, run step ({} : MsgQ ℕ) sampleActs = some q ∧ Represents q.msgList as l ∧
      q.view = sampleActs.foldl Fifo.step {} ∧ sentOf q.log = accepted sampleActs ∧
      sentOf q.log = goneOf q.log ++ q.messages ∧ (receivedOf q.log).Sublist (sentOf q.log) ∧
      SilentAfterUnblock q.log ∧ accepted sampleActs = [5,6] ∧
      q.log =
        [.sent 5,.received 7 5,.sent 6,.flushed [6],.unblocked,.notSent .unavailableResource] := by
  obtain ⟨q,as,l,hq,hr,hv,ha,hs,hrcv,hsilent⟩ :=
    (exact_fifo () sampleOps sampleActs (by decide) (by decide)).2
  refine ⟨q,as,l,hq,hr,hv,ha,hs,hrcv,hsilent,by decide,?_⟩
  have hlog : q.log = q.view.log := rfl
  rw [hlog,hv]
  decide

end MsgQueue
end Kitakami

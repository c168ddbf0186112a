import Kitakami.Gps.LocThreadYoung
import Kitakami.Gps.MsgTask

/-!
# What becomes of the messages of a task

The thread of a task is a thread and its queue is a queue, so both keep their
invariants. Before `destroy` the queue is not unblocked; so `run` does not fail,
the thread does not end, and the task is there. Afterwards the thread ends, and
then the task can be gone while `destroy` still writes to it.
-/

namespace Kitakami

namespace MsgQueue

variable {D : Type} {q q' : MsgQ D} {l : List (LinkedList.Item D)} {thread : ℕ}

/-- What comes of a receiver: it waits, or it has a message, or it fails since the queue is
unblocked. -/
structure Receives (thread : ℕ) (q q' : MsgQ D) : Prop where
  unblocked : q'.unblocked = q.unblocked
  outcome : q'.log = q.log ∧ q'.waiting = thread::q.waiting ∨
    q'.waiting = q.waiting ∧ ((∃ m, q'.log = q.log ++ [.received thread m]) ∨
      q.unblocked = true ∧ ∃ rv, q'.log = q.log ++ [.notReceived thread rv])

theorem await_receives (hq : Holds q l) (h : q.await thread = some q') : Receives thread q q' := by
  obtain ⟨as,hr⟩ := hq
  cases hw : LinkedList.linkedListEmpty q.msgList && !q.unblocked with
  | true =>
    simp only [MsgQ.await,hw,if_true] at h
    obtain rfl := Option.some.inj h
    exact ⟨rfl,Or.inl ⟨rfl,rfl⟩⟩
  | false =>
    simp only [MsgQ.await,hw] at h
    rcases List.eq_nil_or_concat l with rfl | ⟨l,i,rfl⟩
    · rw [LinkedList.linkedListRemove_nil hr] at h
      obtain rfl := Option.some.inj h
      refine ⟨rfl,Or.inr ⟨rfl,Or.inr ⟨?_,_,rfl⟩⟩⟩
      simpa [LinkedList.linkedListEmpty_eq hr] using hw
    · rw [List.concat_eq_append] at hr
      obtain ⟨s',as',hs',-⟩ := LinkedList.linkedListRemove_concat hr
      rw [hs'] at h
      obtain rfl := Option.some.inj h
      exact ⟨rfl,Or.inr ⟨rfl,Or.inl ⟨_,rfl⟩⟩⟩

/-- `msg_q_rcv`, up to its first wait. -/
theorem msgQRcv_receives (h : Kept q l) (thread : ℕ) : ∃ q' l', q.msgQRcv thread true = some q' ∧
    Kept q' l' ∧ Receives thread q q' := by
  cases hu : q.unblocked with
  | true =>
    refine ⟨q.record (.notReceived thread .unavailableResource),l,by simp [MsgQ.msgQRcv,hu],?_,?_⟩
    · exact h.idle rfl rfl rfl rfl fun hq => ⟨hq,by simp⟩
    · exact ⟨rfl,Or.inr ⟨rfl,Or.inr ⟨hu,_,rfl⟩⟩⟩
  | false =>
    obtain ⟨q',l',hq',h',-⟩ := await_kept h thread
    exact ⟨q',l',by simp [MsgQ.msgQRcv,hu,hq'],h',await_receives h.holds hq'⟩

/-- `msg_q_rcv` goes on after a wait. -/
theorem wake_receives (h : Kept q l) (ht : thread ∈ q.waiting) : ∃ q' l',
    q.wake thread = some q' ∧ Kept q' l' ∧
      Receives thread {q with waiting := q.waiting.erase thread} q' := by
  have hq : Kept {q with waiting := q.waiting.erase thread} l :=
    ⟨h.holds,h.sent,h.blocked,h.silent⟩
  obtain ⟨q',l',hq',h',-⟩ := await_kept hq thread
  exact ⟨q',l',by simp [MsgQ.wake,ht,hq'],h',await_receives hq.holds hq'⟩

/-- `msg_q_flush` leaves nothing in the queue. -/
theorem msgQFlush_flushed (h : Kept q l) : ∃ q', q.msgQFlush = some q' ∧ Kept q' [] ∧
    q'.unblocked = q.unblocked ∧ q'.waiting = q.waiting ∧
      q'.log = q.log ++ [.flushed q.messages] := by
  obtain ⟨q',l',hq',h',-⟩ := msgQFlush_kept h
  obtain ⟨r,-,hr⟩ := Option.bind_eq_some_iff.mp hq'
  obtain rfl := Option.some.inj hr
  have hl' : l' = [] := by
    have hsent := h'.sent
    simp only [MsgQ.record,sentOf,goneOf,List.flatMap_append,List.flatMap_cons,List.flatMap_nil,
      Event.in,Event.out,List.append_nil] at hsent
    rw [← sentOf,← goneOf,h.sent,h.holds.messages] at hsent
    simpa using hsent
  subst hl'
  exact ⟨_,hq',h',rfl,rfl,rfl⟩

/-- `msg_q_snd` wakes nobody and takes nothing. -/
theorem msgQSnd_frame {msgObj : Option D} {dealloc : Bool} {malloc : LinkedList.Ptr}
    (h : q.msgQSnd msgObj dealloc malloc = some q') : q'.unblocked = q.unblocked ∧
      q'.waiting = q.waiting ∧ receivedOf q'.log = receivedOf q.log ∧ goneOf q'.log = goneOf q.log := by
  suffices hlog : q'.unblocked = q.unblocked ∧ q'.waiting = q.waiting ∧
      ∃ e : Event D, q'.log = q.log ++ [e] ∧ e.receipt = [] ∧ e.out = [] by
    obtain ⟨hu,hw,e,hlog,hreceipt,hout⟩ := hlog
    refine ⟨hu,hw,?_,?_⟩
    · simp [receivedOf,hlog,hreceipt]
    · simp [goneOf,hlog,hout]
  unfold MsgQ.msgQSnd at h
  split at h
  · obtain rfl := Option.some.inj h
    exact ⟨rfl,rfl,_,rfl,rfl,rfl⟩
  · split at h
    · obtain rfl := Option.some.inj h
      exact ⟨rfl,rfl,_,rfl,rfl,rfl⟩
    · obtain ⟨r,-,h⟩ := Option.bind_eq_some_iff.mp h
      obtain rfl := Option.some.inj h
      refine ⟨rfl,rfl,_,rfl,?_,?_⟩ <;> split <;> rfl

end MsgQueue

namespace MsgTask

open Runs

variable {M : Type} {s s' : State M} {l : List (LinkedList.Item M)}

/-- The message that `run` has in hand. -/
def Turn.hand : Turn M → List M
  | .handling msg => [msg]
  | _ => []

def Turn.threads : Turn M → List ℕ
  | .waiting => [0]
  | _ => []

/-- Where the owner is, and what has become of the thread. -/
def Fits (s : State M) : Owner → Prop
  | .idle => s.deleted = false ∧ LocThread.Young s.thread
  | .unblocked => s.deleted = false ∧ (s.thread.client = .running ∨
      s.thread.client = .refused ∧ s.thread.spawned = .unborn)
  | .nulled => s.deleted = false ∧ s.thread.client = .running
  | .done => s.deleted = false ∧ s.thread.client.Lets ∨
      s.deleted = true ∧ s.thread.client = .refused ∧ s.thread.spawned = .unborn

/-- The invariant of a task whose queue holds the items `l`. -/
structure Kept (s : State M) (l : List (LinkedList.Item M)) : Prop where
  thread : ∃ life, LocThread.Kept s.thread life
  queue : MsgQueue.Kept s.mQ l
  owner : Fits s s.owner
  blocked : s.mQ.unblocked = true ↔ s.owner ≠ .idle
  turn : s.turn = .entering ∨ s.thread.spawned = .run
  waits : s.mQ.waiting = s.turn.threads
  hand : MsgQueue.receivedOf s.mQ.log = s.handled ++ s.turn.hand
  gone : MsgQueue.goneOf s.mQ.log = s.handled ++ s.turn.hand ++ s.flushed
  whole : s.alive = true → s.flushed = []
  rid : s.alive = false → l = []

theorem kept_start : Kept ({} : State M) [] where
  thread := ⟨_,LocThread.kept_start⟩
  queue := MsgQueue.kept_init
  owner := ⟨rfl,LocThread.young_start⟩
  blocked := by simp
  turn := Or.inl rfl
  waits := rfl
  hand := rfl
  gone := rfl
  whole := fun _ => rfl
  rid := fun _ => rfl

/-! ## The thread -/

theorem Kept.notDeleted (h : Kept s l) (hsp : s.thread.spawned ≠ .unborn) : s.deleted = false := by
  have ho := h.owner
  cases hown : s.owner with
  | done =>
    rw [hown] at ho
    rcases ho with ⟨hd,-⟩ | ⟨-,-,hunborn⟩
    · exact hd
    · exact absurd hunborn hsp
  | _ =>
    rw [hown] at ho
    exact ho.1

/-- The thread has the task as long as it may call it. -/
theorem Kept.alive_of_keeps (h : Kept s l) (hk : s.thread.spawned.keeps = true)
    (hd : s.deleted = false) : s.alive = true := by
  obtain ⟨life,ht⟩ := h.thread
  simp [State.alive,ht.runnable hk,hd]

theorem Kept.alive_of_run (h : Kept s l) (hsp : s.thread.spawned = .run) : s.alive = true :=
  h.alive_of_keeps (by simp [hsp,LocThread.Spawned.keeps]) (h.notDeleted (by simp [hsp]))

/-- Until the owner calls `destroy`, the task is there. -/
theorem Kept.alive_of_idle (h : Kept s l) (ho : s.owner = .idle) : s.alive = true := by
  have hfits := h.owner
  rw [ho] at hfits
  obtain ⟨hd,hy⟩ := hfits
  refine h.alive_of_keeps ?_ hd
  by_cases hsp : s.thread.spawned = .unborn
  · simp [hsp,LocThread.Spawned.keeps]
  · have hmem := (hy.spawned hsp).1
    simp only [List.mem_cons,List.not_mem_nil,or_false] at hmem
    rcases hmem with h' | h' | h' | h' | h' <;> simp [h',LocThread.Spawned.keeps]

/-- What a step of the thread does to the task. -/
theorem threadStep_cases {a : LocThread.Action} (h : s.threadStep a = some s') :
    a ≠ .stop ∧ a ≠ .bye ∧ ∃ thread, LocThread.step s.thread a = some thread ∧
      ((∀ again, a = .spawned again →
          s.thread.spawned ≠ .run ∧ s.thread.spawned ≠ .deleteRunnable) ∧
          s' = {s with thread := thread} ∨
        (∃ again, a = .spawned again) ∧ s.thread.spawned = .deleteRunnable ∧
          ({s with thread := thread} : State M).flush = some s') := by
  obtain ⟨thread,ht,h⟩ := Option.bind_eq_some_iff.mp h
  cases a with
  | start joinable | create ok | client =>
    obtain rfl := Option.some.inj h
    exact ⟨by simp,by simp,thread,ht,Or.inl ⟨by simp,rfl⟩⟩
  | stop | bye => cases h
  | spawned again =>
    refine ⟨by simp,by simp,thread,ht,?_⟩
    cases hsp : s.thread.spawned with
    | run =>
      simp only [hsp] at h
      cases h
    | deleteRunnable =>
      simp only [hsp] at h
      exact Or.inr ⟨⟨again,rfl⟩,rfl,h⟩
    | _ =>
      simp only [hsp] at h
      obtain rfl := Option.some.inj h
      exact Or.inl ⟨by simp,rfl⟩

/-- The owner goes on to be where it is. -/
theorem Kept.fits_thread (h : Kept s l) {a : LocThread.Action} {thread : LocThread.State}
    (hstop : a ≠ .stop) (hbye : a ≠ .bye)
    (hrun : s.owner = .idle → ∀ again, a = .spawned again → s.thread.spawned = .run → again = true)
    (hs : LocThread.step s.thread a = some thread) : Fits {s with thread := thread} s.owner := by
  obtain ⟨life,ht⟩ := h.thread
  -- a client that is through does nothing, and neither does a thread that was never created
  have hrunning (hc : s.thread.client = .running) : thread.client = .running := by
    cases a with
    | stop => exact absurd rfl hstop
    | bye => exact absurd rfl hbye
    | spawned again => exact (LocThread.spawnedStep_client hs).trans hc
    | start joinable | create ok | client =>
      simp [LocThread.step,LocThread.State.start,LocThread.State.create,LocThread.State.clientStep,
        hc] at hs
  have hunborn (hc : s.thread.client = .refused) (hsp : s.thread.spawned = .unborn) : False := by
    cases a with
    | stop => exact absurd rfl hstop
    | bye => exact absurd rfl hbye
    | spawned again => simp [LocThread.step,LocThread.State.spawnedStep,hsp] at hs
    | start joinable | create ok | client =>
      simp [LocThread.step,LocThread.State.start,LocThread.State.create,LocThread.State.clientStep,
        hc] at hs
  have ho := h.owner
  cases hown : s.owner with
  | idle =>
    rw [hown] at ho
    exact ⟨ho.1,ho.2.step ht hstop hbye (hrun hown) hs⟩
  | unblocked =>
    rw [hown] at ho
    rcases ho with ⟨hd,hc | ⟨hc,hsp⟩⟩
    · exact ⟨hd,Or.inl (hrunning hc)⟩
    · exact (hunborn hc hsp).elim
  | nulled =>
    rw [hown] at ho
    exact ⟨ho.1,hrunning ho.2⟩
  | done =>
    rw [hown] at ho
    rcases ho with ⟨hd,hlets⟩ | ⟨-,hc,hsp⟩
    · refine Or.inl ⟨hd,?_⟩
      cases a with
      | stop => exact absurd rfl hstop
      | bye => exact absurd rfl hbye
      | client => exact LocThread.clientStep_lets hlets hs
      | spawned again =>
        have hc := LocThread.spawnedStep_client hs
        rw [← hc] at hlets
        exact hlets
      | start joinable =>
        obtain ⟨d,hmem⟩ := hlets
        simp only [LocThread.step,LocThread.State.start] at hs
        split at hs
        case h_1 hc => simp [hc] at hmem
        case h_2 => cases hs
      | create ok =>
        obtain ⟨d,hmem⟩ := hlets
        simp only [LocThread.step,LocThread.State.create] at hs
        split at hs
        case h_1 hc => simp [hc] at hmem
        case h_2 => cases hs
    · exact (hunborn hc hsp).elim

/-- The destructor deletes what is in the queue. -/
theorem flush_spec (hq : MsgQueue.Kept s.mQ l) : ∃ q, s.flush =
    some {s with mQ := q, flushed := s.flushed ++ s.mQ.messages} ∧ MsgQueue.Kept q [] ∧
      q.unblocked = s.mQ.unblocked ∧ q.waiting = s.mQ.waiting ∧
      MsgQueue.receivedOf q.log = MsgQueue.receivedOf s.mQ.log ∧
      MsgQueue.goneOf q.log = MsgQueue.goneOf s.mQ.log ++ s.mQ.messages := by
  obtain ⟨q,hflush,hk,hu,hw,hlog⟩ := MsgQueue.msgQFlush_flushed hq
  refine ⟨q,by simp [State.flush,hflush],hk,hu,hw,?_,?_⟩
  · simp [MsgQueue.receivedOf,hlog,MsgQueue.Event.receipt]
  · simp [MsgQueue.goneOf,hlog,MsgQueue.Event.out]

theorem Kept.threadStep (h : Kept s l) {a : LocThread.Action} (hs : s.threadStep a = some s') :
    ∃ l', Kept s' l' := by
  obtain ⟨hstop,hbye,thread,ht,hcases⟩ := threadStep_cases hs
  obtain ⟨life,hk⟩ := h.thread
  obtain ⟨es,-,-,hk'⟩ := LocThread.step_sound hk ht
  rcases hcases with ⟨hne,rfl⟩ | ⟨⟨again,rfl⟩,hsp,hflush⟩
  · -- the thread is not in `run` and does not delete the task
    have hframe : thread.runnable = s.thread.runnable ∧
        (s.turn = .entering ∨ thread.spawned = .run) := by
      by_cases ha : ∃ again, a = .spawned again
      · obtain ⟨again,rfl⟩ := ha
        obtain ⟨hrun,hdel⟩ := hne again rfl
        refine ⟨?_,Or.inl (h.turn.resolve_right hrun)⟩
        simpa [hdel] using LocThread.spawnedStep_runnable ht
      · obtain ⟨hrun,hsp⟩ := hk.step_frame (fun again hc => ha ⟨again,hc⟩) ht
        exact ⟨hrun,h.turn.imp_right hsp⟩
    have halive : ({s with thread := thread} : State M).alive = s.alive := by
      simp [State.alive,hframe.1]
    refine ⟨l,⟨⟨_,hk'⟩,h.queue,?_,h.blocked,hframe.2,h.waits,h.hand,h.gone,?_,?_⟩⟩
    · exact h.fits_thread hstop hbye (fun _ again ha hsp => absurd hsp (hne again ha).1) ht
    · exact fun ha => h.whole (halive.symm.trans ha)
    · exact fun ha => h.rid (halive.symm.trans ha)
  · -- the thread deletes the task
    have hturn : s.turn = .entering := h.turn.resolve_right (by simp [hsp])
    have halive : s.alive = true :=
      h.alive_of_keeps (by simp [hsp,LocThread.Spawned.keeps]) (h.notDeleted (by simp [hsp]))
    have hfits := h.fits_thread hstop hbye (fun _ _ _ hc => by simp [hsp] at hc) ht
    have hgone : thread.runnable = false := by
      simpa [hsp] using LocThread.spawnedStep_runnable ht
    obtain ⟨q,hfl,hq,hu,hw,hrec,hgo⟩ := flush_spec (s:={s with thread := thread}) h.queue
    obtain rfl := Option.some.inj (hfl.symm.trans hflush)
    refine ⟨[],⟨⟨_,hk'⟩,hq,hfits,hu ▸ h.blocked,Or.inl hturn,hw.trans h.waits,hrec.trans h.hand,?_,
      ?_,fun _ => rfl⟩⟩
    · rw [hgo,h.gone,List.append_assoc]
    · intro ha
      simp [State.alive,hgone] at ha

/-! ## `run` -/

/-- `run` goes on with what comes of `msg_q_rcv`. -/
theorem Kept.received (h : Kept s l) (hsp : s.thread.spawned = .run) {q₀ q : MsgQueue.MsgQ M}
    {l' : List (LinkedList.Item M)} (hq : MsgQueue.Kept q l') (hr : MsgQueue.Receives 0 q₀ q)
    (hu : q₀.unblocked = s.mQ.unblocked) (hw : q₀.waiting = []) (hlog : q₀.log = s.mQ.log)
    (hhand : s.turn.hand = []) : ∃ s', s.received q = some s' ∧ Kept s' l' := by
  have halive := h.alive_of_run hsp
  have hunblocked := hr.unblocked.trans hu
  have hblocked : q.unblocked = true ↔ s.owner ≠ .idle := hunblocked ▸ h.blocked
  have hreceived := h.hand
  have hgone := h.gone
  rw [hhand,List.append_nil] at hreceived hgone
  have hdead (ha : s.alive = false) : l' = [] := by simp [halive] at ha
  rcases hr.outcome with ⟨hlog',hw'⟩ | ⟨hw',⟨msg,hlog'⟩ | ⟨hub,rv,hlog'⟩⟩
  · -- the queue is empty
    rw [hlog] at hlog'
    rw [hw] at hw'
    refine ⟨{s with mQ := q, turn := .waiting},by simp [State.received,hlog'],h.thread,hq,h.owner,
      hblocked,Or.inr hsp,hw',?_,?_,h.whole,hdead⟩
    · simpa [hlog',Turn.hand] using hreceived
    · simpa [hlog',Turn.hand] using hgone
  · rw [hlog] at hlog'
    refine ⟨{s with mQ := q, turn := .handling msg},by simp [State.received,hlog'],h.thread,hq,
      h.owner,hblocked,Or.inr hsp,hw'.trans hw,?_,?_,h.whole,hdead⟩
    · rw [hlog']
      simp [MsgQueue.receivedOf,MsgQueue.Event.receipt,Turn.hand] at hreceived ⊢
      exact hreceived
    · have hflushed := h.whole halive
      rw [hflushed,List.append_nil] at hgone
      rw [hlog']
      simp [MsgQueue.goneOf,MsgQueue.Event.out,Turn.hand,hflushed] at hgone ⊢
      exact hgone
  · -- the queue is unblocked, and the thread leaves the loop
    rw [hlog] at hlog'
    obtain ⟨life,ht⟩ := h.thread
    obtain ⟨thread,hstep,hrun⟩ :=
      LocThread.spawnedStep_run hsp (ht.runnable (by simp [hsp,LocThread.Spawned.keeps])) false
    obtain ⟨es,-,-,ht'⟩ := LocThread.step_sound (a:=.spawned false) ht hstep
    have hfits := h.fits_thread (a:=.spawned false) (by simp) (by simp)
      (fun ho => absurd ho (h.blocked.mp (hu ▸ hub))) hstep
    refine ⟨{s with mQ := q, thread := thread, turn := .entering},
      by simp [State.received,hlog',hstep],⟨_,ht'⟩,hq,hfits,hblocked,Or.inl rfl,hw'.trans hw,?_,?_,
      fun _ => h.whole halive,?_⟩
    · rw [hlog']
      simp [MsgQueue.receivedOf,MsgQueue.Event.receipt,Turn.hand] at hreceived ⊢
      exact hreceived
    · rw [hlog']
      simp [MsgQueue.goneOf,MsgQueue.Event.out,Turn.hand] at hgone ⊢
      exact hgone
    · intro ha
      simp [State.alive,hrun] at ha halive
      simp [ha halive.1] at halive

theorem Kept.run (h : Kept s l) (hsp : s.thread.spawned = .run) :
    ∃ s' l', s.run = some s' ∧ Kept s' l' := by
  have halive := h.alive_of_run hsp
  have hwaits := h.waits
  cases hturn : s.turn with
  | entering =>
    rw [hturn] at hwaits
    obtain ⟨q,l',hq,hk,hr⟩ := MsgQueue.msgQRcv_receives h.queue 0
    obtain ⟨s',hs',h'⟩ := h.received hsp hk hr rfl hwaits rfl (by simp [hturn,Turn.hand])
    exact ⟨s',l',by simp [State.run,hsp,hturn,halive,hq,hs'],h'⟩
  | waiting =>
    rw [hturn] at hwaits
    obtain ⟨q,l',hq,hk,hr⟩ := MsgQueue.wake_receives h.queue
      (show 0 ∈ s.mQ.waiting by simp [hwaits,Turn.threads])
    obtain ⟨s',hs',h'⟩ := h.received hsp hk hr rfl (by simp [hwaits,Turn.threads]) rfl
      (by simp [hturn,Turn.hand])
    exact ⟨s',l',by simp [State.run,hsp,hturn,halive,hq,hs'],h'⟩
  | handling msg =>
    obtain ⟨life,ht⟩ := h.thread
    obtain ⟨thread,hstep,hrun⟩ :=
      LocThread.spawnedStep_run hsp (ht.runnable (by simp [hsp,LocThread.Spawned.keeps])) true
    obtain ⟨es,-,-,ht'⟩ := LocThread.step_sound (a:=.spawned true) ht hstep
    have hfits := h.fits_thread (a:=.spawned true) (by simp) (by simp)
      (fun _ again ha _ => by injection ha with ha; exact ha.symm) hstep
    have hreceived := h.hand
    have hgone := h.gone
    rw [hturn] at hreceived hgone hwaits
    refine ⟨{s with thread := thread, turn := .entering, handled := s.handled ++ [msg]},l,
      by simp [State.run,hsp,hturn,hstep],⟨_,ht'⟩,h.queue,hfits,h.blocked,Or.inl rfl,hwaits,?_,?_,
      fun _ => h.whole halive,?_⟩
    · simpa [Turn.hand] using hreceived
    · simpa [Turn.hand] using hgone
    · intro ha
      simp [State.alive,hrun] at ha halive
      simp [ha halive.1] at halive

/-! ## The clients and the owner -/

theorem Kept.sendMsg (h : Kept s l) (msg : M) {malloc : LinkedList.Ptr}
    (hf : ∀ a, malloc = some a → (s.mQ.msgList.heap a).isNone) (hs : s.alive = true) :
    ∃ s' l', s.sendMsg msg malloc = some s' ∧ Kept s' l' := by
  obtain ⟨q,l',hq,hk,-⟩ := MsgQueue.msgQSnd_kept h.queue (some msg) true hf
  obtain ⟨hu,hw,hrec,hgo⟩ := MsgQueue.msgQSnd_frame hq
  refine ⟨{s with mQ := q},l',by simp [State.sendMsg,hs,hq],h.thread,hk,h.owner,hu ▸ h.blocked,
    h.turn,hw.trans h.waits,hrec.trans h.hand,hgo.trans h.gone,h.whole,fun ha => ?_⟩
  rw [show s.alive = false from ha] at hs
  cases hs

theorem msgQUnblock_frame (q : MsgQueue.MsgQ M) : q.msgQUnblock.unblocked = true ∧
    q.msgQUnblock.waiting = q.waiting ∧
    MsgQueue.receivedOf q.msgQUnblock.log = MsgQueue.receivedOf q.log ∧
    MsgQueue.goneOf q.msgQUnblock.log = MsgQueue.goneOf q.log := by
  unfold MsgQueue.MsgQ.msgQUnblock
  split
  · exact ⟨‹_›,rfl,rfl,rfl⟩
  · refine ⟨rfl,rfl,?_,?_⟩
    · simp [MsgQueue.MsgQ.record,MsgQueue.receivedOf,MsgQueue.Event.receipt]
    · simp [MsgQueue.MsgQ.record,MsgQueue.goneOf,MsgQueue.Event.out]

theorem Kept.destroy (h : Kept s l) (hs : s.destroy = some s') : ∃ l', Kept s' l' := by
  have ho := h.owner
  have hblocked := h.blocked
  unfold State.destroy at hs
  split at hs
  case h_1 hown =>
    -- the queue is unblocked
    rw [hown] at ho hblocked
    split at hs
    case isFalse => cases hs
    case isTrue hc =>
      split at hs
      case isFalse => cases hs
      case isTrue halive =>
        obtain rfl := Option.some.inj hs
        obtain ⟨hu,hw,hrec,hgo⟩ := msgQUnblock_frame s.mQ
        refine ⟨l,h.thread,(MsgQueue.msgQUnblock_kept h.queue).1,⟨ho.1,?_⟩,by simp [hu],h.turn,
          hw.trans h.waits,hrec.trans h.hand,hgo.trans h.gone,h.whole,h.rid⟩
        exact hc.imp_right fun hc => ⟨hc,ho.2.refused (Or.inl hc)⟩
  case h_2 hown =>
    rw [hown] at ho hblocked
    split at hs
    case isFalse => cases hs
    case isTrue halive =>
      split at hs
      · -- the pointer to the thread is set to null
        obtain rfl := Option.some.inj hs
        exact ⟨l,h.thread,h.queue,⟨ho.1,‹_›⟩,by simpa using hblocked,h.turn,h.waits,h.hand,h.gone,
          h.whole,h.rid⟩
      · -- there is no thread, and the owner deletes the task
        obtain ⟨hc,hsp⟩ := ho.2.resolve_left ‹_›
        obtain ⟨q,hfl,hq,hu,hw,hrec,hgo⟩ :=
          flush_spec (s:={s with deleted := true, owner := .done}) h.queue
        obtain rfl := Option.some.inj (hfl.symm.trans hs)
        refine ⟨[],h.thread,hq,Or.inr ⟨rfl,hc,hsp⟩,by simpa [hu] using hblocked,h.turn,
          hw.trans h.waits,hrec.trans h.hand,?_,?_,fun _ => rfl⟩
        · rw [hgo,h.gone,List.append_assoc]
        · intro ha
          simp [State.alive] at ha
  case h_3 hown =>
    -- the thread is let go
    rw [hown] at ho hblocked
    obtain ⟨thread,ht,hs⟩ := Option.map_eq_some_iff.mp hs
    obtain ⟨life,hk⟩ := h.thread
    obtain ⟨es,-,-,hk'⟩ := LocThread.step_sound (a:=.bye) hk ht
    obtain ⟨hrun,hsp⟩ := hk.step_frame (a:=.bye) (by simp) ht
    have hlets : thread.client.Lets := by
      simp only [LocThread.State.bye,ho.2] at ht
      obtain ⟨d,-,ht⟩ := Option.bind_eq_some_iff.mp ht
      obtain rfl := Option.some.inj ht
      refine ⟨.check,?_⟩
      cases d.mJoinable <;> simp
    subst hs
    have halive : ({s with thread := thread, owner := .done} : State M).alive = s.alive := by
      simp [State.alive,hrun]
    refine ⟨l,⟨_,hk'⟩,h.queue,Or.inl ⟨ho.1,hlets⟩,by simpa using hblocked,h.turn.imp_right hsp,
      h.waits,h.hand,h.gone,?_,?_⟩
    · exact fun ha => h.whole (halive.symm.trans ha)
    · exact fun ha => h.rid (halive.symm.trans ha)
  case h_4 => cases hs

theorem step_kept (h : Kept s l) {a : Action M} (hf : Fresh s a) (hs : step s a = some s') :
    ∃ l', Kept s' l' := by
  cases a with
  | thread a => exact h.threadStep hs
  | destroy => exact h.destroy hs
  | run =>
    have hsp : s.thread.spawned = .run := by
      by_contra hne
      simp [step,State.run,hne] at hs
    obtain ⟨s₁,l',hs₁,h'⟩ := h.run hsp
    obtain rfl := Option.some.inj (hs₁.symm.trans hs)
    exact ⟨l',h'⟩
  | sendMsg msg malloc =>
    have halive : s.alive = true := by
      by_contra hne
      simp [step,State.sendMsg,hne] at hs
    have hmalloc (a : LinkedList.Addr) (ha : malloc = some a) : (s.mQ.msgList.heap a).isNone := by
      subst ha
      exact hf
    obtain ⟨s₁,l',hs₁,h'⟩ := h.sendMsg msg hmalloc halive
    obtain rfl := Option.some.inj (hs₁.symm.trans hs)
    exact ⟨l',h'⟩

theorem run_kept {as : List (Action M)} (hf : Along step Fresh {} as)
    (hr : run step {} as = some s) : ∃ l, Kept s l :=
  run_invariant (I:=fun s => ∃ l, Kept s l) (fun _ _ _ h hf hs => step_kept h.choose_spec hf hs)
    ⟨_,kept_start⟩ hf hr

/-! ## Nothing goes wrong until the thread has deleted the task -/

/-- The parties are where the action begins; nobody sends once the owner has begun to destroy the
task. -/
def Due (s : State M) : Action M → Prop
  | .thread a => LocThread.Due s.thread a ∧ a ≠ .stop ∧ a ≠ .bye ∧
      ∀ again, a = .spawned again → s.thread.spawned ≠ .run
  | .run => s.thread.spawned = .run
  | .sendMsg msg malloc => s.owner = .idle ∧ Fresh s (.sendMsg msg malloc)
  | .destroy => s.owner ≠ .done ∧
      (s.owner = .idle → s.thread.client = .running ∨ s.thread.client = .refused)

/-- The owner writes to the task that the thread has deleted. -/
def Stale (s : State M) : Action M → Prop
  | .destroy => s.owner = .unblocked ∧ s.thread.runnable = false
  | _ => False

theorem Kept.threadStep_isSome (h : Kept s l) {a : LocThread.Action} (hdue : Due s (.thread a)) :
    (s.threadStep a).isSome := by
  obtain ⟨life,hk⟩ := h.thread
  obtain ⟨hd,hstop,hbye,hrun⟩ := hdue
  obtain ⟨thread,ht⟩ := Option.isSome_iff_exists.mp (hk.due hd)
  cases a with
  | stop => exact absurd rfl hstop
  | bye => exact absurd rfl hbye
  | start joinable | create ok | client => simp [State.threadStep,ht]
  | spawned again =>
    cases hsp : s.thread.spawned with
    | run => exact absurd hsp (hrun again rfl)
    | deleteRunnable =>
      obtain ⟨q,hfl,-⟩ := flush_spec (s:={s with thread := thread}) h.queue
      simp [State.threadStep,ht,hsp,hfl]
    | _ => simp [State.threadStep,ht,hsp]

theorem Kept.destroy_isSome (h : Kept s l) (hdue : Due s .destroy) :
    s.destroy.isSome ↔ ¬Stale s .destroy := by
  have ho := h.owner
  cases hown : s.owner with
  | idle =>
    have hc := hdue.2 hown
    simp [State.destroy,hown,hc,h.alive_of_idle hown,Stale]
  | nulled =>
    rw [hown] at ho
    obtain ⟨life,hk⟩ := h.thread
    have hbye : s.thread.bye.isSome := hk.due (a:=.bye) ho.2
    simp [State.destroy,hown,Stale,hbye]
  | done => exact absurd hown hdue.1
  | unblocked =>
    rw [hown] at ho
    cases hrun : s.thread.runnable with
    | false => simp [State.destroy,hown,State.alive,hrun,Stale]
    | true =>
      have hfl := flush_spec (s:={s with deleted := true, owner := .done}) h.queue
      obtain ⟨q,hfl,-⟩ := hfl
      have hs : s.destroy.isSome := by
        simp only [State.destroy,hown,State.alive,hrun,ho.1,Bool.not_false,Bool.and_true,if_true]
        split
        · rfl
        · rw [hfl]
          rfl
      simp [hs,Stale,hrun]

theorem Kept.due (h : Kept s l) {a : Action M} (hdue : Due s a) :
    (step s a).isSome ↔ ¬Stale s a := by
  cases a with
  | thread a => exact iff_of_true (h.threadStep_isSome hdue) id
  | destroy => exact h.destroy_isSome hdue
  | run =>
    obtain ⟨s₁,l',hs,-⟩ := h.run hdue
    exact iff_of_true (Option.isSome_iff_exists.mpr ⟨s₁,hs⟩) id
  | sendMsg msg malloc =>
    have hmalloc (a : LinkedList.Addr) (ha : malloc = some a) : (s.mQ.msgList.heap a).isNone := by
      subst ha
      exact hdue.2
    obtain ⟨s₁,l',hs,-⟩ := h.sendMsg msg hmalloc (h.alive_of_idle hdue.1)
    exact iff_of_true (Option.isSome_iff_exists.mpr ⟨s₁,hs⟩) id

/-! ## Who deletes the task -/

/-- `destroy` does not stop the thread before it has read its runnable. -/
def Spares (s : State M) : Action M → Prop
  | .thread a => LocThread.SparesEntry s.thread a
  | _ => True

/-- A step of the task is a step of its thread, or the thread stays. -/
theorem step_thread {a : Action M} (hs : step s a = some s') : s'.thread = s.thread ∧ Spares s a ∨
    ∃ b, LocThread.step s.thread b = some s'.thread ∧
      (Spares s a ↔ LocThread.SparesEntry s.thread b) := by
  have hflush {s₁ : State M} (hfl : s₁.flush = some s') : s'.thread = s₁.thread := by
    obtain ⟨q,-,rfl⟩ := Option.map_eq_some_iff.mp hfl
    rfl
  cases a with
  | thread a =>
    obtain ⟨-,-,thread,ht,⟨-,rfl⟩ | ⟨-,-,hfl⟩⟩ := threadStep_cases hs
    · exact Or.inr ⟨a,ht,Iff.rfl⟩
    · exact Or.inr ⟨a,(hflush hfl) ▸ ht,Iff.rfl⟩
  | sendMsg msg malloc =>
    simp only [step,State.sendMsg] at hs
    split at hs
    · obtain ⟨q,-,rfl⟩ := Option.map_eq_some_iff.mp hs
      exact Or.inl ⟨rfl,trivial⟩
    · cases hs
  | run =>
    have hreceived {q : MsgQueue.MsgQ M} (hr : s.received q = some s') :
        s'.thread = s.thread ∧ Spares s .run ∨ ∃ b, LocThread.step s.thread b = some s'.thread ∧
          (Spares s .run ↔ LocThread.SparesEntry s.thread b) := by
      unfold State.received at hr
      split at hr
      · obtain rfl := Option.some.inj hr
        exact Or.inl ⟨rfl,trivial⟩
      · obtain rfl := Option.some.inj hr
        exact Or.inl ⟨rfl,trivial⟩
      · obtain ⟨thread,ht,hr⟩ := Option.bind_eq_some_iff.mp hr
        obtain rfl := Option.some.inj hr
        exact Or.inr ⟨.spawned false,ht,Iff.rfl⟩
    simp only [step,State.run] at hs
    split at hs
    case h_1 | h_2 =>
      split at hs
      · obtain ⟨q,-,hr⟩ := Option.bind_eq_some_iff.mp hs
        exact hreceived hr
      · cases hs
    case h_3 =>
      obtain ⟨thread,ht,hs⟩ := Option.bind_eq_some_iff.mp hs
      obtain rfl := Option.some.inj hs
      exact Or.inr ⟨.spawned true,ht,Iff.rfl⟩
    case h_4 => cases hs
  | destroy =>
    simp only [step,State.destroy] at hs
    split at hs
    case h_1 =>
      split at hs <;> try cases hs
      split at hs <;> cases hs
      exact Or.inl ⟨rfl,trivial⟩
    case h_2 =>
      split at hs <;> try cases hs
      split at hs
      · obtain rfl := Option.some.inj hs
        exact Or.inl ⟨rfl,trivial⟩
      · have hthread := hflush hs
        exact Or.inl ⟨hthread,trivial⟩
    case h_3 =>
      obtain ⟨thread,ht,rfl⟩ := Option.map_eq_some_iff.mp hs
      exact Or.inr ⟨.bye,ht,Iff.rfl⟩
    case h_4 => cases hs

theorem takes_iff {as : List (Action M)} (hr : run step {} as = some s) : s.thread.Takes ↔ Along step Spares {} as := by
  have htakes : LocThread.State.Takes ({} : State M).thread :=
    LocThread.takes_of_keeps rfl (by simp)
  have hiff := run_iff_along (I:=fun s : State M => ∃ life, LocThread.Kept s.thread life)
    (P:=fun s => s.thread.Takes) (G:=Spares) (fun s a s' hk hs => ?_) ⟨_,LocThread.kept_start⟩ hr
  · exact hiff.trans (and_iff_right htakes)
  · obtain ⟨life,hk⟩ := hk
    rcases step_thread hs with ⟨hsame,hspares⟩ | ⟨b,hb,hiff⟩
    · rw [hsame]
      exact ⟨⟨life,hk⟩,(and_iff_left hspares).symm⟩
    · obtain ⟨es,-,-,hk'⟩ := LocThread.step_sound hk hb
      exact ⟨⟨_,hk'⟩,(hk.takes hb).trans (and_congr_right' hiff.symm)⟩

/-- Whatever the order of the steps of the thread, the senders and the owner: the messages sent are,
in this order, those handled, the one in hand, and those in the queue, which are deleted with the
task; none is sent after `destroy` began. Before that, the task is there. No step that is due goes
wrong, except that `destroy` writes to the task after the thread has deleted it. When both are
through, the task is deleted exactly if `destroy` left the thread the time to begin. -/
theorem msg_task {as : List (Action M)} (hf : Along step Fresh {} as)
    (hr : run step {} as = some s) :
    (MsgQueue.sentOf s.mQ.log = s.handled ++ s.turn.hand ++ (s.flushed ++ s.mQ.messages) ∧
      MsgQueue.SilentAfterUnblock s.mQ.log ∧
      (if s.alive then s.flushed = [] else s.turn.hand = [] ∧ s.mQ.messages = [])) ∧
    (s.owner = .idle → s.alive = true ∧ s.mQ.unblocked = false) ∧
    (∀ a, Due s a → ((step s a).isSome ↔ ¬Stale s a)) ∧
    (s.owner = .done → s.thread.client = .refused ∨ s.thread.spawned = .ended →
      (s.alive = false ↔ Along step Spares {} as)) := by
  obtain ⟨l,h⟩ := run_kept hf hr
  have htakes := takes_iff hr
  refine ⟨⟨?_,h.queue.silent,?_⟩,fun ho => ⟨h.alive_of_idle ho,?_⟩,fun a hdue => h.due hdue,
    fun ho hthrough => ?_⟩
  · rw [h.queue.sent,h.gone,h.queue.holds.messages,List.append_assoc]
  · cases halive : s.alive with
    | true => exact h.whole halive
    | false =>
      refine ⟨?_,by simp [h.queue.holds.messages,h.rid halive]⟩
      rcases h.turn with hturn | hsp
      · simp [hturn,Turn.hand]
      · simp [h.alive_of_run hsp] at halive
  · by_contra hu
    exact h.blocked.mp (by simpa using hu) ho
  · have hfits := h.owner
    rw [ho] at hfits
    rw [← htakes]
    rcases hfits with ⟨hd,hlets⟩ | ⟨hd,hc,hsp⟩
    · have hended : s.thread.spawned = .ended := by
        refine hthrough.resolve_left fun hc => ?_
        obtain ⟨d,hmem⟩ := hlets
        simp [hc] at hmem
      simp [State.alive,hd,LocThread.State.Takes,hended,LocThread.Spawned.keeps]
    · simp [State.alive,hd,LocThread.State.Takes,hsp,LocThread.Spawned.keeps]

/-- The first of two messages is handled; then the owner unblocks the queue, and the thread is
through with the task before the owner goes on. -/
def sampleActions : List (Action ℕ) :=
  [.thread (.start false),.thread (.create true),.thread .client] ++
    List.replicate 4 (.thread (.spawned true)) ++
    [.run,.sendMsg 5 (some 0),.run,.sendMsg 6 (some 0),.sendMsg 7 (some 1),.run,
      .thread (.spawned true),.destroy,.run] ++
    List.replicate 4 (.thread (.spawned true))

theorem msg_task_sample : ∃ s, run step {} sampleActions = some s ∧
    (MsgQueue.sentOf s.mQ.log = s.handled ++ s.turn.hand ++ (s.flushed ++ s.mQ.messages) ∧
      MsgQueue.SilentAfterUnblock s.mQ.log ∧
      (if s.alive then s.flushed = [] else s.turn.hand = [] ∧ s.mQ.messages = [])) ∧
    (s.owner = .idle → s.alive = true ∧ s.mQ.unblocked = false) ∧
    (∀ a, Due s a → ((step s a).isSome ↔ ¬Stale s a)) ∧
    (s.owner = .done → s.thread.client = .refused ∨ s.thread.spawned = .ended →
      (s.alive = false ↔ Along step Spares {} sampleActions)) ∧
    s.handled = [5] ∧ s.flushed = [6,7] ∧ (step s .destroy).isSome = false := by
  have h : (run step {} sampleActions).map
      (fun s => (s.handled,s.flushed,(step s .destroy).isSome)) = some ([5],[6,7],false) := by decide
  obtain ⟨s,hr,hends⟩ := Option.map_eq_some_iff.mp h
  simp only [Prod.mk.injEq] at hends
  obtain ⟨hsent,hidle,hdue,hdone⟩ := msg_task (by decide) hr
  exact ⟨s,hr,hsent,hidle,hdue,hdone,hends⟩

end MsgTask
end Kitakami

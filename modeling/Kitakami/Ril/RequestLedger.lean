import Kitakami.Ril.RequestRuns

/-!
# The ledger of the requests

The trace of a run is judged by a ledger with one item for each request, which
only sees what was logged. The blocks in use agree with their items; a request
whose block has been freed is answered.
-/

namespace Kitakami
namespace Ril
namespace Pending

open Chain Runs Monitor

variable {T P : Type}

/-- What the trace says of one request. -/
structure Item (P : Type) where
  socketId : ℤ
  token : ℤ
  request : ℤ
  acked : Bool
  completed : Option P
  answered : Bool

abbrev Ledger (P : Type) := ℕ → Option (Item P)

def Ledger.next (m : Ledger P) : Entry P → Ledger P
  | .added n socketId token request =>
    Function.update m n (some ⟨socketId,token,request,false,none,false⟩)
  | .acked n => Function.update m n ((m n).map fun i => { i with acked := true })
  | .acknowledged _ _ _ => m
  | .completed n response =>
    Function.update m n ((m n).map fun i => { i with completed := some response })
  | .grabPartialWakeLock _ => m
  | .answered n _ _ _ _ _ => Function.update m n ((m n).map fun i => { i with answered := true })

/-- A request is completed once, after it was added, and then answered once: on its own socket, to
its own token, with what completed it. Only a request that was acknowledged before it was completed
asks for an acknowledgement, and then the wake lock is held. -/
def Ledger.Ok (version : ℤ) (m : Ledger P) : Entry P → Prop
  | .added n _ _ _ => m n = none
  | .acked n => ∃ i, m n = some i ∧ i.completed = none
  | .acknowledged n _ _ => (m n).isSome
  | .completed n _ => ∃ i, m n = some i ∧ i.completed = none
  | .grabPartialWakeLock n => 13 ≤ version ∧ ∃ i, m n = some i ∧ i.acked = true ∧ i.answered = false
  | .answered n request socketId responseType token response => ∃ acked,
    m n = some ⟨socketId,token,request,acked,some response,false⟩ ∧
      responseType = if 13 ≤ version ∧ acked = true then 3 else 0

def RequestInfo.item (r : RequestInfo) (completed : Option P) (answered : Bool) : Item P :=
  ⟨r.socketId,r.token,r.pCI,decide (r.wasAckSent = 1),completed,answered⟩

variable {b : Build} {s s' : State T P} {lists : Hook → List Addr} {a : Addr} {t : T}
  {m : Ledger P}

/-- The ledger agrees with what the blocks hold. -/
structure Booked (s : State T P) (lists : Hook → List Addr) (m : Ledger P) : Prop where
  listed : ∀ k, ∀ a ∈ lists k, m (s.number a) = some ((s.mem a).item none false)
  dequeued : ∀ t a response, s.threads t = .dequeued a response →
    m (s.number a) = some ((s.mem a).item (some response) false)
  responded : ∀ t a, s.threads t = .responded a →
    ∃ response, m (s.number a) = some ((s.mem a).item (some response) true)
  acked : ∀ t a n, s.threads t = .acked a n → n < s.count
  freed : ∀ n < s.count, (∀ a ∈ s.allocated, s.number a ≠ n) →
    ∃ i, m n = some i ∧ i.answered = true
  fresh : ∀ n, s.count ≤ n → m n = none

theorem Booked.some_of_lt (hm : Booked s lists m) (h : Kept b s lists) {n : ℕ} (hn : n < s.count) :
    (m n).isSome := by
  by_cases hex : ∃ a ∈ s.allocated, s.number a = n
  · obtain ⟨a,ha,rfl⟩ := hex
    rcases h.live a ha with ⟨k,hk⟩ | ⟨t,⟨response,ht⟩ | ht⟩
    · simp [hm.listed k a hk]
    · simp [hm.dequeued t a response ht]
    · obtain ⟨response,hresp⟩ := hm.responded t a ht
      simp [hresp]
  · simp only [not_exists,not_and] at hex
    obtain ⟨i,hi,-⟩ := hm.freed n hn hex
    simp [hi]

theorem Kept.number_ne (h : Kept b s lists) {e : Addr} (ha : a ∈ s.allocated) (he : e ∈ s.allocated)
    (hea : e ≠ a) : s.number e ≠ s.number a := fun hn => hea (h.distinct e he a ha hn)

theorem Booked.add (hm : Booked s lists m) (h : Kept b s lists) {r : RequestInfo} {k : Hook}
    {hooks : Hook → Option Addr} {log : List (Entry P)} (ha : a ∉ s.allocated) :
    Booked { s with
      mem := Function.update s.mem a r
      allocated := insert a s.allocated
      hooks := hooks
      number := Function.update s.number a s.count
      count := s.count + 1
      log := log } (Function.update lists k (a::lists k))
      (Function.update m s.count (some (r.item none false))) := by
  have hne : ∀ e ∈ s.allocated, e ≠ a := fun e he hea => ha (hea ▸ he)
  have hold : ∀ e ∈ s.allocated, Function.update m s.count (some (r.item none false))
      (s.number e) = m (s.number e) := fun e he => Function.update_of_ne (h.numbered e he).ne _ _
  constructor
  case listed =>
    intro l e he
    by_cases hea : e = a
    · subst hea
      simp
    · have hel := (mem_pushed he).resolve_left hea
      simp only [hold e (h.listed l e hel).1,Function.update_of_ne hea]
      exact hm.listed l e hel
  case dequeued =>
    intro t e response ht
    have he := (h.owned t e (Or.inl ⟨response,ht⟩)).1
    simp only [hold e he,Function.update_of_ne (hne e he)]
    exact hm.dequeued t e response ht
  case responded =>
    intro t e ht
    have he := (h.owned t e (Or.inr ht)).1
    simp only [hold e he,Function.update_of_ne (hne e he)]
    exact hm.responded t e ht
  case acked => exact fun t e n ht => Nat.lt_succ_of_lt (hm.acked t e n ht)
  case freed =>
    intro n hn hfree
    have hna : n ≠ s.count := by
      rintro rfl
      exact hfree a (Finset.mem_insert_self _ _) (Function.update_self _ _ _)
    rw [Function.update_of_ne hna]
    refine hm.freed n (by simp at hn; omega) fun e he => ?_
    simpa only [Function.update_of_ne (hne e he)] using hfree e (Finset.mem_insert_of_mem he)
  case fresh =>
    intro n hn
    simp only at hn
    rw [Function.update_of_ne (by omega)]
    exact hm.fresh n (by omega)

theorem Booked.scribble (hm : Booked s lists m) (h : Kept b s lists) {junk : RequestInfo}
    (ha : a ∉ s.allocated) : Booked (s.setMem a junk) lists m := by
  have hne : ∀ e ∈ s.allocated, e ≠ a := fun e he hea => ha (hea ▸ he)
  constructor
  case listed =>
    intro k e he
    simp only [State.setMem,Function.update_of_ne (hne e (h.listed k e he).1)]
    exact hm.listed k e he
  case dequeued =>
    intro w e r hw
    simp only [State.setMem,Function.update_of_ne (hne e (h.owned w e (Or.inl ⟨r,hw⟩)).1)]
    exact hm.dequeued w e r hw
  case responded =>
    intro w e hw
    simp only [State.setMem,Function.update_of_ne (hne e (h.owned w e (Or.inr hw)).1)]
    exact hm.responded w e hw
  case acked => exact hm.acked
  case freed => exact hm.freed
  case fresh => exact hm.fresh

/-- The books of a state and the ledger of its log. -/
def Balanced (b : Build) (s : State T P) (m : Ledger P) : Prop :=
  ∃ lists, Kept b s lists ∧ Booked s lists m

theorem balanced_start (mem : Addr → RequestInfo) :
    Balanced b (start mem : State T P) fun _ => none := by
  refine ⟨_,kept_start mem,?_,?_,?_,?_,?_,?_⟩ <;> simp [start]

/-- The block of a thread that still has to acknowledge its request holds this request. -/
def AckSafe (s : State T P) : Prop :=
  ∀ t a n, s.threads t = .acked a n → a ∈ s.allocated ∧ s.number a = n

theorem AckSafe.congr (ha : AckSafe s) (hthreads : ∀ t a n, s'.threads t = .acked a n →
    s.threads t = .acked a n ∨ (a ∈ s'.allocated ∧ s'.number a = n))
    (hkeep : ∀ t a n, s.threads t = .acked a n → a ∈ s.allocated →
      a ∈ s'.allocated ∧ s'.number a = s.number a) : AckSafe s' := by
  intro t a n ht
  rcases hthreads t a n ht with ht | h
  · obtain ⟨hin,hn⟩ := ha t a n ht
    obtain ⟨hin',hn'⟩ := hkeep t a n ht hin
    exact ⟨hin',hn'.trans hn⟩
  · exact h

/-- The block in use of a request names the client that the ledger has. -/
theorem Booked.client (hm : Booked s lists m) (h : Kept b s lists) (ha : a ∈ s.allocated) :
    ∃ i, m (s.number a) = some i ∧ i.socketId = (s.mem a).socketId ∧ i.token = (s.mem a).token := by
  rcases h.live a ha with ⟨k,hk⟩ | ⟨t,⟨response,ht⟩ | ht⟩
  · exact ⟨_,hm.listed k a hk,rfl,rfl⟩
  · exact ⟨_,hm.dequeued t a response ht,rfl,rfl⟩
  · obtain ⟨response,hresp⟩ := hm.responded t a ht
    exact ⟨_,hresp,rfl,rfl⟩

variable [DecidableEq T]

theorem Booked.ack (hm : Booked s lists m) (h : Kept b s lists) {k : Hook} {log : List (Entry P)}
    (ht : s.threads t = .idle) (hk : a ∈ lists k) :
    Booked { s with
      mem := Function.update s.mem a { s.mem a with wasAckSent := 1 }
      threads := Function.update s.threads t (.acked a (s.number a))
      log := log } lists (Ledger.next m (.acked (s.number a))) := by
  have ha := (h.listed k a hk).1
  have hold : ∀ e ∈ s.allocated, e ≠ a →
      Ledger.next m (.acked (s.number a)) (s.number e) = m (s.number e) :=
    fun e he hea => Function.update_of_ne (h.number_ne ha he hea) _ _
  have howned : ∀ u e, (s.threads u).Owns e → e ∈ s.allocated ∧ e ≠ a := fun u e hu =>
    ⟨(h.owned u e hu).1,fun hea => (h.owned u e hu).2 k (hea ▸ hk)⟩
  constructor
  case listed =>
    intro l e he
    by_cases hea : e = a
    · subst hea
      simp [Ledger.next,hm.listed k e hk,RequestInfo.item]
    · simp only [hold e (h.listed l e he).1 hea,Function.update_of_ne hea]
      exact hm.listed l e he
  case dequeued =>
    intro u e response hu
    have hut : u ≠ t := by
      rintro rfl
      simp at hu
    simp only [Function.update_of_ne hut] at hu
    obtain ⟨he,hea⟩ := howned u e (Or.inl ⟨response,hu⟩)
    simp only [hold e he hea,Function.update_of_ne hea]
    exact hm.dequeued u e response hu
  case responded =>
    intro u e hu
    have hut : u ≠ t := by
      rintro rfl
      simp at hu
    simp only [Function.update_of_ne hut] at hu
    obtain ⟨he,hea⟩ := howned u e (Or.inr hu)
    simp only [hold e he hea,Function.update_of_ne hea]
    exact hm.responded u e hu
  case acked =>
    intro u e n hu
    by_cases hut : u = t
    · subst hut
      simp only [Function.update_self,Thread.acked.injEq] at hu
      exact hu.2 ▸ h.numbered a ha
    · simp only [Function.update_of_ne hut] at hu
      exact hm.acked u e n hu
  case freed =>
    intro n hn hfree
    rw [Ledger.next,Function.update_of_ne (hfree a ha).symm]
    exact hm.freed n hn hfree
  case fresh =>
    intro n hn
    have hna : n ≠ s.number a := by
      have := h.numbered a ha
      simp only at hn
      omega
    rw [Ledger.next,Function.update_of_ne hna]
    exact hm.fresh n hn

theorem Booked.acknowledge (hm : Booked s lists m) (log : List (Entry P)) :
    Booked { s with threads := Function.update s.threads t .idle, log := log } lists m := by
  have hback : ∀ u th, Function.update s.threads t .idle u = th → th ≠ .idle → s.threads u = th := by
    rintro u _ rfl hidle
    by_cases hut : u = t
    · subst hut
      simp at hidle
    · rw [Function.update_of_ne hut]
  exact ⟨hm.listed,fun u e response hu => hm.dequeued u e response (hback u _ hu (by simp)),
    fun u e hu => hm.responded u e (hback u _ hu (by simp)),
    fun u e n hu => hm.acked u e n (hback u _ hu (by simp)),hm.freed,hm.fresh⟩

theorem Booked.complete (hm : Booked s lists m) (h : Kept b s lists) {k : Hook} {u v : List Addr}
    {response : P} (hk : lists k = u ++ a::v) (log : List (Entry P)) :
    Booked (((s.setCell (ending (.head k) u) (s.cells (.link a))).setThread t
      (.dequeued a response)).enter log) (Function.update lists k (u ++ v))
      (Ledger.next m (.completed (s.number a) response)) := by
  have hitem : ∀ e completed answered,
      ((s.setCell (ending (.head k) u) (s.cells (.link a))).mem e).item completed answered =
        ((s.mem e).item completed answered : Item P) := by
    intro e completed answered
    rw [setCell_mem]
    rfl
  obtain ⟨halloc,hnum,hcount,hthreads⟩ := setCell_frame s (ending (.head k) u) (s.cells (.link a))
  generalize s.setCell (ending (.head k) u) (s.cells (.link a)) = s₀ at *
  have hak : a ∈ lists k := by simp [hk]
  have ha := (h.listed k a hak).1
  have hold : ∀ e ∈ s.allocated, e ≠ a →
      Ledger.next m (.completed (s.number a) response) (s.number e) = m (s.number e) :=
    fun e he hea => Function.update_of_ne (h.number_ne ha he hea) _ _
  have howned : ∀ w e, (s.threads w).Owns e → e ∈ s.allocated ∧ e ≠ a := fun w e hw =>
    ⟨(h.owned w e hw).1,fun hea => (h.owned w e hw).2 k (hea ▸ hak)⟩
  constructor <;>
    simp only [State.setThread,State.enter,hthreads,hnum,hcount,halloc,hitem]
  case listed =>
    intro l e he
    obtain ⟨he,hea⟩ := h.of_mem_removed hk he
    rw [hold e (h.listed l e he).1 hea]
    exact hm.listed l e he
  case dequeued =>
    intro w e r hw
    by_cases hwt : w = t
    · subst hwt
      simp only [Function.update_self,Thread.dequeued.injEq] at hw
      obtain ⟨rfl,rfl⟩ := hw
      simp [Ledger.next,hm.listed k a hak,RequestInfo.item]
    · rw [Function.update_of_ne hwt] at hw
      obtain ⟨he,hea⟩ := howned w e (Or.inl ⟨r,hw⟩)
      rw [hold e he hea]
      exact hm.dequeued w e r hw
  case responded =>
    intro w e hw
    have hwt : w ≠ t := by
      rintro rfl
      simp at hw
    rw [Function.update_of_ne hwt] at hw
    obtain ⟨he,hea⟩ := howned w e (Or.inr hw)
    rw [hold e he hea]
    exact hm.responded w e hw
  case acked =>
    intro w e n hw
    have hwt : w ≠ t := by
      rintro rfl
      simp at hw
    rw [Function.update_of_ne hwt] at hw
    exact hm.acked w e n hw
  case freed =>
    intro n hn hfree
    rw [Ledger.next,Function.update_of_ne (hfree a ha).symm]
    exact hm.freed n hn hfree
  case fresh =>
    intro n hn
    have hna : n ≠ s.number a := by
      have := h.numbered a ha
      omega
    rw [Ledger.next,Function.update_of_ne hna]
    exact hm.fresh n hn

theorem Booked.respond (hm : Booked s lists m) (h : Kept b s lists) {response : P}
    (ht : s.threads t = .dequeued a response) (log : List (Entry P)) :
    Booked { s with threads := Function.update s.threads t (.responded a), log := log } lists
      (Function.update m (s.number a) ((m (s.number a)).map fun i => { i with answered := true })) := by
  have hta : (s.threads t).Owns a := Or.inl ⟨response,ht⟩
  obtain ⟨ha,hout⟩ := h.owned t a hta
  have hold : ∀ e ∈ s.allocated, e ≠ a → Function.update m (s.number a)
      ((m (s.number a)).map fun i => { i with answered := true }) (s.number e) = m (s.number e) :=
    fun e he hea => Function.update_of_ne (h.number_ne ha he hea) _ _
  have hother : ∀ w e, w ≠ t → (s.threads w).Owns e → e ∈ s.allocated ∧ e ≠ a := by
    intro w e hwt hw
    refine ⟨(h.owned w e hw).1,?_⟩
    rintro rfl
    exact hwt (h.owner w t e hw hta)
  constructor
  case listed =>
    intro l e he
    rw [hold e (h.listed l e he).1 fun hea => hout l (hea ▸ he)]
    exact hm.listed l e he
  case dequeued =>
    intro w e r hw
    have hwt : w ≠ t := by
      rintro rfl
      simp at hw
    simp only [Function.update_of_ne hwt] at hw
    obtain ⟨he,hea⟩ := hother w e hwt (Or.inl ⟨r,hw⟩)
    rw [hold e he hea]
    exact hm.dequeued w e r hw
  case responded =>
    intro w e hw
    by_cases hwt : w = t
    · subst hwt
      simp only [Function.update_self,Thread.responded.injEq] at hw
      subst hw
      exact ⟨response,by simp [hm.dequeued w a response ht,RequestInfo.item]⟩
    · simp only [Function.update_of_ne hwt] at hw
      obtain ⟨he,hea⟩ := hother w e hwt (Or.inr hw)
      rw [hold e he hea]
      exact hm.responded w e hw
  case acked =>
    intro w e n hw
    have hwt : w ≠ t := by
      rintro rfl
      simp at hw
    simp only [Function.update_of_ne hwt] at hw
    exact hm.acked w e n hw
  case freed =>
    intro n hn hfree
    rw [Function.update_of_ne (hfree a ha).symm]
    exact hm.freed n hn hfree
  case fresh =>
    intro n hn
    have hna : n ≠ s.number a := by
      have := h.numbered a ha
      simp only at hn
      omega
    rw [Function.update_of_ne hna]
    exact hm.fresh n hn

theorem Booked.free (hm : Booked s lists m) (h : Kept b s lists) {junk : RequestInfo}
    (ht : s.threads t = .responded a) :
    Booked { s with
      mem := Function.update s.mem a junk
      allocated := s.allocated.erase a
      threads := Function.update s.threads t .idle } lists m := by
  have hta : (s.threads t).Owns a := Or.inr ht
  obtain ⟨ha,hout⟩ := h.owned t a hta
  have hother : ∀ w e, w ≠ t → (s.threads w).Owns e → e ≠ a := by
    rintro w e hwt hw rfl
    exact hwt (h.owner w t e hw hta)
  have hback : ∀ u th, Function.update s.threads t .idle u = th → th ≠ .idle →
      u ≠ t ∧ s.threads u = th := by
    rintro u _ rfl hidle
    by_cases hut : u = t
    · subst hut
      simp at hidle
    · exact ⟨hut,by rw [Function.update_of_ne hut]⟩
  constructor
  case listed =>
    intro l e he
    have hea : e ≠ a := fun hea => hout l (hea ▸ he)
    simp only [Function.update_of_ne hea]
    exact hm.listed l e he
  case dequeued =>
    intro w e r hw
    obtain ⟨hwt,hw⟩ := hback w _ hw (by simp)
    simp only [Function.update_of_ne (hother w e hwt (Or.inl ⟨r,hw⟩))]
    exact hm.dequeued w e r hw
  case responded =>
    intro w e hw
    obtain ⟨hwt,hw⟩ := hback w _ hw (by simp)
    simp only [Function.update_of_ne (hother w e hwt (Or.inr hw))]
    exact hm.responded w e hw
  case acked => exact fun w e n hw => hm.acked w e n (hback w _ hw (by simp)).2
  case freed =>
    intro n hn hfree
    by_cases hna : n = s.number a
    · subst hna
      obtain ⟨response,hresp⟩ := hm.responded t a ht
      exact ⟨_,hresp,rfl⟩
    · refine hm.freed n hn fun e he => ?_
      by_cases hea : e = a
      · exact hea ▸ Ne.symm hna
      · exact hfree e (Finset.mem_erase.mpr ⟨hea,he⟩)
  case fresh => exact hm.fresh

/-- One step, whichever thread takes it: what it enters into the log is accepted. -/
theorem step_sound (h : Kept b s lists) (hm : Booked s lists m) {x : Action T P}
    (hs : step b s x = some s') : ∃ lists' es, s'.log = s.log ++ es ∧
      Accepts Ledger.next (Ledger.Ok b.version) m es ∧ Kept b s' lists' ∧
        Booked s' lists' (watch Ledger.next m es) := by
  have hstay : ∃ lists' es, s.log = s.log ++ es ∧
      Accepts Ledger.next (Ledger.Ok b.version) m es ∧ Kept b s lists' ∧
        Booked s lists' (watch Ledger.next m es) := ⟨lists,[],by simp,trivial,h,hm⟩
  cases x with
  | add serial slotId request alloc =>
    obtain rfl | ⟨a,-,hfree,rfl⟩ := step_add hs
    · exact hstay
    · exact ⟨_,_,rfl,⟨hm.fresh _ le_rfl,trivial⟩,
        h.add (r:=⟨serial,request,s.hooks (b.addHook slotId),0,0,slotId,0⟩) hfree rfl ⟨rfl,rfl⟩,
        hm.add h hfree⟩
  | ack t token =>
    obtain ⟨ht,rfl | ⟨a,k,-,hk,rfl⟩⟩ := h.step_ack hs
    · exact hstay
    · refine ⟨lists,_,rfl,⟨⟨_,hm.listed k a hk,rfl⟩,trivial⟩,
        h.relabel ?_ (fun e _ => ?_) rfl rfl rfl fun u e => ?_,hm.ack h ht hk⟩
      · funext d
        cases d with
        | head k => rfl
        | link e => by_cases he : e = a <;> simp [State.cells,he]
      · by_cases he : e = a <;> simp [he]
      · by_cases hu : u = t <;> simp [hu,ht]
  | acknowledge t =>
    obtain ⟨a,n,ht,es,hes,rfl⟩ := step_acknowledge hs
    refine ⟨lists,es,rfl,?_,h.relabel rfl (fun e _ => ⟨rfl,rfl,rfl⟩) rfl rfl rfl fun u e => ?_,?_⟩
    · rcases hes with rfl | rfl
      · exact trivial
      · exact ⟨hm.some_of_lt h (hm.acked t a n ht),trivial⟩
    · by_cases hu : u = t <;> simp [hu,ht]
    · rcases hes with rfl | rfl <;> exact hm.acknowledge _
  | complete t token response =>
    obtain ⟨ht,rfl | ⟨a,k,u,v,-,hk,rfl⟩⟩ := h.step_complete hs
    · exact hstay
    · refine ⟨_,[.completed (s.number a) response],?_,⟨⟨_,hm.listed k a (by simp [hk]),rfl⟩,trivial⟩,
        h.complete hk ht _,hm.complete h hk _⟩
      cases ending (Cell.head (A:=Addr) k) u <;> rfl
  | respond t =>
    obtain ⟨a,response,ht,rfl⟩ := h.step_respond hs
    have hitem := hm.dequeued t a response ht
    refine ⟨lists,_,rfl,?_,h.relabel rfl (fun e _ => ⟨rfl,rfl,rfl⟩) rfl rfl rfl fun u e => ?_,?_⟩
    · split
      case isTrue hack =>
        exact ⟨⟨hack.1,_,hitem,by simp [RequestInfo.item,hack.2],rfl⟩,
          ⟨_,hitem,by simp [hack.1,hack.2]⟩,trivial⟩
      case isFalse hack =>
        refine ⟨⟨_,hitem,?_⟩,trivial⟩
        rw [if_neg]
        simpa using hack
    · by_cases hu : u = t <;> simp [hu,ht]
    · split <;> exact hm.respond h ht _
  | free t junk =>
    obtain ⟨a,ht,rfl⟩ := h.step_free hs
    exact ⟨lists,[],by simp,trivial,h.free ht,hm.free h ht⟩
  | scribble a junk =>
    simp only [step] at hs
    split at hs
    · cases hs
    case _ ha =>
      obtain rfl := Option.some.inj hs
      exact ⟨lists,[],by simp [State.setMem],trivial,h.scribble ha,hm.scribble h ha⟩

theorem run_balanced {mem : Addr → RequestInfo} {as : List (Action T P)}
    (hr : run (step b) (start mem) as = some s) :
    Balanced b s (watch Ledger.next (fun _ => none) s.log) ∧
      Accepts Ledger.next (Ledger.Ok b.version) (fun _ => none) s.log := by
  refine run_invariant (G:=fun _ _ => True)
    (I:=fun s => Balanced b s (watch Ledger.next (fun _ => none) s.log) ∧
      Accepts Ledger.next (Ledger.Ok b.version) (fun _ => none) s.log)
    (fun s x s' ⟨⟨lists,h,hm⟩,hok⟩ _ hs => ?_) ⟨balanced_start mem,trivial⟩ (along_true _ _) hr
  obtain ⟨lists',es,hlog,hes,h',hm'⟩ := step_sound h hm hs
  rw [hlog,watch_append,accepts_append]
  exact ⟨⟨lists',h',hm'⟩,hok,hes⟩

/-- In every state that the threads reach in any order, each block in use is in exactly one list or
in the hands of exactly one thread; every list ends; and no step that is due goes wrong. -/
theorem requests_owned (mem : Addr → RequestInfo)
    (hr : Reachable (step b) (start mem : State T P) s) :
    (∃ lists : Hook → List Addr, (∀ k, Holds s.cells (.head k) (lists k)) ∧
      ∀ a, a ∈ s.allocated ↔ Xor (∃! k, a ∈ lists k) (∃! t, (s.threads t).Owns a)) ∧
      ∀ x, Enabled s x → (step b s x).isSome := by
  obtain ⟨as,hr⟩ := hr
  obtain ⟨⟨lists,h,-⟩,-⟩ := run_balanced hr
  refine ⟨⟨lists,h.chain,fun a => ⟨fun ha => ?_,?_⟩⟩,fun x => h.enabled⟩
  · rcases h.live a ha with ⟨k,hk⟩ | ⟨t,ht⟩
    · refine Or.inl ⟨⟨k,hk,fun l hl => ?_⟩,fun ⟨t,ht,_⟩ => (h.owned t a ht).2 k hk⟩
      exact (h.listed l a hl).2.symm.trans (h.listed k a hk).2
    · refine Or.inr ⟨⟨t,ht,fun u hu => h.owner u t a hu ht⟩,fun ⟨k,hk,_⟩ => ?_⟩
      exact (h.owned t a ht).2 k hk
  · rintro (⟨⟨k,hk,-⟩,-⟩ | ⟨⟨t,ht,-⟩,-⟩)
    · exact (h.listed k a hk).1
    · exact (h.owned t a ht).1

/-- Two threads acknowledge and complete a request; the vendor library also completes it again. -/
def sampleActions : List (Action ℕ String) :=
  [.add 7 0 10 (some 100),.add 8 1 11 (some 101),.ack 0 (some 100),.complete 1 (some 100) "ok",
    .acknowledge 0,.respond 1,.complete 0 (some 100) "again",.free 1 ⟨0,0,none,0,0,1,0⟩,
    .complete 0 (some 100) "stale",.complete 0 (some 101) "second"]

def sampleBuild : Build := ⟨2,13,20⟩

def sampleMem : Addr → RequestInfo := fun _ => ⟨0,0,none,0,0,0,0⟩

theorem requests_owned_sample : ∃ s : State ℕ String,
    Reachable (step sampleBuild) (start sampleMem) s ∧
    (∃ lists : Hook → List Addr, (∀ k, Holds s.cells (.head k) (lists k)) ∧
      ∀ a, a ∈ s.allocated ↔ Xor (∃! k, a ∈ lists k) (∃! t, (s.threads t).Owns a)) ∧
      ∀ x, Enabled s x → (step sampleBuild s x).isSome := by
  have h : (run (step sampleBuild) (start sampleMem) sampleActions).isSome := by decide
  exact ⟨_,⟨sampleActions,(Option.some_get h).symm⟩,
    requests_owned sampleMem ⟨sampleActions,(Option.some_get h).symm⟩⟩

/-- Whatever tokens the library acknowledges and completes in whatever order, no request is answered
twice or to another client, and one that is not answered is still listed or being completed. -/
theorem requests_answered (mem : Addr → RequestInfo) {as : List (Action T P)}
    (hr : run (step b) (start mem) as = some s) :
    Accepts Ledger.next (Ledger.Ok b.version) (fun _ => none) s.log ∧
      ∀ n < s.count, ∃ i, watch Ledger.next (fun _ => none) s.log n = some i ∧
        (i.answered = false ↔
          ∃ a ∈ s.allocated, s.number a = n ∧ ∀ t, s.threads t ≠ .responded a) := by
  obtain ⟨⟨lists,h,hm⟩,hok⟩ := run_balanced hr
  refine ⟨hok,fun n hn => ?_⟩
  by_cases hex : ∃ a ∈ s.allocated, s.number a = n
  · obtain ⟨a,ha,rfl⟩ := hex
    rcases h.live a ha with ⟨k,hk⟩ | ⟨t,⟨response,ht⟩ | ht⟩
    · refine ⟨_,hm.listed k a hk,iff_of_true rfl ⟨a,ha,rfl,fun t ht => ?_⟩⟩
      exact (h.owned t a (Or.inr ht)).2 k hk
    · refine ⟨_,hm.dequeued t a response ht,iff_of_true rfl ⟨a,ha,rfl,fun u hu => ?_⟩⟩
      obtain rfl := h.owner u t a (Or.inr hu) (Or.inl ⟨response,ht⟩)
      simp [ht] at hu
    · obtain ⟨response,hresp⟩ := hm.responded t a ht
      refine ⟨_,hresp,iff_of_false (by simp [RequestInfo.item]) ?_⟩
      rintro ⟨e,he,hea,hnot⟩
      exact hnot t (h.distinct e he a ha hea ▸ ht)
  · simp only [not_exists,not_and] at hex
    obtain ⟨i,hi,hans⟩ := hm.freed n hn hex
    refine ⟨i,hi,iff_of_false (by simp [hans]) ?_⟩
    rintro ⟨a,ha,hna,-⟩
    exact hex a ha hna

theorem requests_answered_sample : ∃ s : State ℕ String,
    run (step sampleBuild) (start sampleMem) sampleActions = some s ∧
    Accepts Ledger.next (Ledger.Ok sampleBuild.version) (fun _ => none) s.log ∧
      ∀ n < s.count, ∃ i, watch Ledger.next (fun _ => none) s.log n = some i ∧
        (i.answered = false ↔
          ∃ a ∈ s.allocated, s.number a = n ∧ ∀ t, s.threads t ≠ .responded a) := by
  have h : (run (step sampleBuild) (start sampleMem) sampleActions).isSome := by decide
  exact ⟨_,(Option.some_get h).symm,requests_answered sampleMem (Option.some_get h).symm⟩

/-! ## Acknowledgements -/

/-- The action frees no block while an acknowledgement of its request is on the way. -/
def SparesAcks (s : State T P) : Action T P → Prop
  | .free t _ => ∀ a, s.threads t = .responded a → ∀ u n, s.threads u ≠ .acked a n
  | _ => True

/-- An acknowledgement goes to the client of the request. -/
def Ledger.AckOk (m : Ledger P) : Entry P → Prop
  | .acknowledged n socketId token => ∃ i, m n = some i ∧ i.socketId = socketId ∧ i.token = token
  | _ => True

theorem acked_update {u : T} {e : Addr} {n : ℕ} {th : Thread P}
    (h : Function.update s.threads t th u = .acked e n) (hth : ∀ e n, th ≠ .acked e n) :
    s.threads u = .acked e n := by
  by_cases hut : u = t
  · subst hut
    rw [Function.update_self] at h
    exact absurd h (hth e n)
  · rwa [Function.update_of_ne hut] at h

/-- Exactly the steps that free no block under an acknowledgement keep the acknowledgements safe. -/
theorem Kept.ackSafe_iff (h : Kept b s lists) (ha : AckSafe s) (x : Action T P) :
    (∀ s', step b s x = some s' → AckSafe s') ↔ SparesAcks s x := by
  cases x with
  | add serial slotId request alloc =>
    refine iff_of_true (fun s' hs => ?_) trivial
    obtain rfl | ⟨a,-,hfree,rfl⟩ := step_add hs
    · exact ha
    · refine ha.congr (fun t e n ht => Or.inl ht) fun t e n _ he => ⟨Finset.mem_insert_of_mem he,?_⟩
      exact Function.update_of_ne (fun hea : e = a => hfree (hea ▸ he)) _ _
  | ack t token =>
    refine iff_of_true (fun s' hs => ?_) trivial
    obtain ⟨-,rfl | ⟨a,k,-,hk,rfl⟩⟩ := h.step_ack hs
    · exact ha
    · refine ha.congr (fun u e n hu => ?_) fun u e n _ he => ⟨he,rfl⟩
      by_cases hut : u = t
      · subst hut
        simp only [Function.update_self,Thread.acked.injEq] at hu
        obtain ⟨rfl,rfl⟩ := hu
        exact Or.inr ⟨(h.listed k a hk).1,rfl⟩
      · simp only [Function.update_of_ne hut] at hu
        exact Or.inl hu
  | acknowledge t =>
    refine iff_of_true (fun s' hs => ?_) trivial
    obtain ⟨a,n,-,es,-,rfl⟩ := step_acknowledge hs
    exact ha.congr (fun u e n hu => Or.inl (acked_update hu (by simp))) fun u e n _ he => ⟨he,rfl⟩
  | complete t token response =>
    refine iff_of_true (fun s' hs => ?_) trivial
    obtain ⟨-,rfl | ⟨a,k,u,v,-,-,rfl⟩⟩ := h.step_complete hs
    · exact ha
    · obtain ⟨halloc,hnum,-,hthreads⟩ := setCell_frame s (ending (.head k) u) (s.cells (.link a))
      refine ha.congr (fun w e n hw => Or.inl ?_) fun w e n _ he => ⟨halloc ▸ he,congrFun hnum e⟩
      simp only [State.setThread,State.enter,hthreads] at hw
      exact acked_update hw (by simp)
  | respond t =>
    refine iff_of_true (fun s' hs => ?_) trivial
    obtain ⟨a,response,-,rfl⟩ := h.step_respond hs
    exact ha.congr (fun u e n hu => Or.inl (acked_update hu (by simp))) fun u e n _ he => ⟨he,rfl⟩
  | free t junk =>
    constructor
    · intro hsafe a ht u n hu
      obtain ⟨s',hs⟩ := Option.isSome_iff_exists.mp (h.enabled (x:=.free t junk) ⟨a,ht⟩)
      obtain ⟨e,hte,rfl⟩ := h.step_free hs
      obtain rfl : a = e := by simpa [ht] using hte
      have hut : u ≠ t := by
        rintro rfl
        simp [ht] at hu
      have hin := (hsafe _ hs u a n (by simpa [Function.update_of_ne hut] using hu)).1
      exact (Finset.mem_erase.mp hin).1 rfl
    · intro hspare s' hs
      obtain ⟨a,ht,rfl⟩ := h.step_free hs
      refine ha.congr (fun u e n hu => Or.inl (acked_update hu (by simp))) fun u e n hu he => ⟨?_,rfl⟩
      refine Finset.mem_erase.mpr ⟨?_,he⟩
      rintro rfl
      exact hspare e ht u n hu
  | scribble a junk =>
    refine iff_of_true (fun s' hs => ?_) trivial
    simp only [step] at hs
    split at hs
    · cases hs
    · obtain rfl := Option.some.inj hs
      exact ha

/-- Only the second half of `RIL_onRequestAck` sends an acknowledgement, with what its block holds. -/
theorem Kept.step_sends (h : Kept b s lists) {x : Action T P} (hs : step b s x = some s')
    {es : List (Entry P)} (hes : s'.log = s.log ++ es) : (∀ e ∈ es, ∀ m, Ledger.AckOk m e) ∨
      ∃ t a n, s.threads t = .acked a n ∧
        es = [.acknowledged n (s.mem a).socketId (s.mem a).token] := by
  have hcancel : ∀ es', s'.log = s.log ++ es' → es = es' := fun es' h' =>
    List.append_cancel_left (hes.symm.trans h')
  have hnil : s'.log = s.log → ∀ e ∈ es, ∀ m, Ledger.AckOk m e := by
    intro h'
    rw [hcancel [] (by simpa using h')]
    simp
  cases x with
  | add serial slotId request alloc =>
    obtain rfl | ⟨a,-,-,rfl⟩ := step_add hs
    · exact Or.inl (hnil rfl)
    · rw [hcancel _ rfl]
      exact Or.inl (by simp [Ledger.AckOk])
  | ack t token =>
    obtain ⟨-,rfl | ⟨a,k,-,-,rfl⟩⟩ := h.step_ack hs
    · exact Or.inl (hnil rfl)
    · rw [hcancel _ rfl]
      exact Or.inl (by simp [Ledger.AckOk])
  | acknowledge t =>
    obtain ⟨a,n,ht,es',hes',rfl⟩ := step_acknowledge hs
    rw [hcancel _ rfl]
    rcases hes' with rfl | rfl
    · exact Or.inl (by simp)
    · exact Or.inr ⟨t,a,n,ht,rfl⟩
  | complete t token response =>
    obtain ⟨-,rfl | ⟨a,k,u,v,-,-,rfl⟩⟩ := h.step_complete hs
    · exact Or.inl (hnil rfl)
    · have hlog : (s.setCell (ending (.head k) u) (s.cells (.link a))).log = s.log := by
        cases ending (Cell.head (A:=Addr) k) u <;> rfl
      rw [hcancel [.completed (s.number a) response] (by simp only [State.enter,State.setThread,hlog])]
      exact Or.inl (by simp [Ledger.AckOk])
  | respond t =>
    obtain ⟨a,response,-,rfl⟩ := h.step_respond hs
    rw [hcancel _ rfl]
    left
    split <;> simp [Ledger.AckOk]
  | free t junk =>
    obtain ⟨a,-,rfl⟩ := h.step_free hs
    exact Or.inl (hnil rfl)
  | scribble a junk =>
    simp only [step] at hs
    split at hs
    · cases hs
    · obtain rfl := Option.some.inj hs
      exact Or.inl (hnil rfl)

/-- `RIL_onRequestAck` reads its block after it has left the mutex. This is safe in a run exactly if
no completion frees the block in between, and then each acknowledgement goes to the right client. -/
theorem acks_safe (mem : Addr → RequestInfo) {as : List (Action T P)}
    (hr : run (step b) (start mem) as = some s) :
    (Along (step b) (fun s x => ∀ s', step b s x = some s' → AckSafe s') (start mem) as ↔
      Along (step b) SparesAcks (start mem) as) ∧
    (Along (step b) SparesAcks (start mem) as →
      Accepts Ledger.next Ledger.AckOk (fun _ => none) s.log) := by
  have hstart : AckSafe (start mem : State T P) := fun t a n h => by simp [start] at h
  have hkeeps : ∀ s x s', (∃ m, Balanced b s m) → step b s x = some s' →
      ∃ m, Balanced b (s' : State T P) m := by
    rintro s x s' ⟨m,lists,h,hm⟩ hs
    obtain ⟨lists',es,-,-,h',hm'⟩ := step_sound h hm hs
    exact ⟨_,lists',h',hm'⟩
  constructor
  · refine along_next_iff_of hkeeps ?_ ⟨_,balanced_start mem⟩ hstart
    rintro s x ⟨m,lists,h,-⟩ ha
    exact h.ackSafe_iff ha x
  · intro hg
    refine (run_invariant (G:=SparesAcks) (I:=fun s => AckSafe s ∧
      Balanced b s (watch Ledger.next (fun _ => none) s.log) ∧
        Accepts Ledger.next Ledger.AckOk (fun _ => none) s.log)
      ?_ ⟨hstart,balanced_start mem,trivial⟩ hg hr).2.2
    rintro s x s' ⟨ha,⟨lists,h,hm⟩,hok⟩ hx hs
    obtain ⟨lists',es,hlog,-,h',hm'⟩ := step_sound h hm hs
    rw [hlog,watch_append,accepts_append]
    refine ⟨(h.ackSafe_iff ha x).mpr hx s' hs,⟨lists',h',hm'⟩,hok,?_⟩
    rcases h.step_sends hs hlog with hes | ⟨t,a,n,ht,rfl⟩
    · exact accepts_of_forall hes _
    · obtain ⟨hin,rfl⟩ := ha t a n ht
      exact ⟨hm.client h hin,trivial⟩

theorem acks_safe_sample : ∃ s : State ℕ String,
    run (step sampleBuild) (start sampleMem) sampleActions = some s ∧
    (Along (step sampleBuild) (fun s x => ∀ s', step sampleBuild s x = some s' → AckSafe s')
      (start sampleMem) sampleActions ↔
      Along (step sampleBuild) SparesAcks (start sampleMem) sampleActions) ∧
    (Along (step sampleBuild) SparesAcks (start sampleMem) sampleActions →
      Accepts Ledger.next Ledger.AckOk (fun _ => none) s.log) := by
  have h : (run (step sampleBuild) (start sampleMem) sampleActions).isSome := by decide
  exact ⟨_,(Option.some_get h).symm,acks_safe sampleMem (Option.some_get h).symm⟩

end Pending
end Ril
end Kitakami

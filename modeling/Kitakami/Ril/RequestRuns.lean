import Kitakami.Ril.Requests

/-!
# Where the blocks of the requests are

The invariant of all steps of all threads: every block in use is in the list of
its socket or in the hands of one thread. Then a token is found exactly if its
block is listed, whatever stale blocks hold, and no step that is due goes wrong.
-/

namespace Kitakami
namespace Ril
namespace Pending

open Chain Runs Monitor

variable {T P : Type} {b : Build} {s s' : State T P} {lists : Hook → List Addr}
  {a : Addr} {t : T}

/-! ## Cells and fields -/

@[simp] theorem setCell_cells (s : State T P) (c : Cell Hook Addr) (q : Option Addr) :
    (s.setCell c q).cells = Function.update s.cells c q := by
  funext d
  cases c with
  | head h =>
    cases d with
    | head k => by_cases hk : k = h <;> simp [State.setCell,State.cells,hk]
    | link e => simp [State.setCell,State.cells]
  | link e =>
    cases d with
    | head k => simp [State.setCell,State.setMem,State.cells]
    | link f => by_cases hf : f = e <;> simp [State.setCell,State.setMem,State.cells,hf]

/-- Writing a pointer leaves the other fields of every block. -/
theorem setCell_mem (s : State T P) (c : Cell Hook Addr) (q : Option Addr) (e : Addr) :
    (s.setCell c q).mem e = { s.mem e with pNext := ((s.setCell c q).mem e).pNext } := by
  cases c with
  | head h => rfl
  | link d =>
    by_cases he : e = d
    · subst he
      simp [State.setCell,State.setMem]
    · simp [State.setCell,State.setMem,Function.update_of_ne he]

theorem setCell_frame (s : State T P) (c : Cell Hook Addr) (q : Option Addr) :
    (s.setCell c q).allocated = s.allocated ∧ (s.setCell c q).number = s.number ∧
      (s.setCell c q).count = s.count ∧ (s.setCell c q).threads = s.threads := by
  cases c <;> exact ⟨rfl,rfl,rfl,rfl⟩

theorem dequeueHook_eq (b : Build) (socketId : ℤ) : b.dequeueHook socketId = b.addHook socketId := by
  unfold Build.dequeueHook Build.addHook
  split_ifs <;> simp_all

/-! ## Where the blocks are -/

/-- Every block in use is in the list of its socket or in the hands of one thread. -/
structure Kept (b : Build) (s : State T P) (lists : Hook → List Addr) : Prop where
  chain : ∀ h, Holds s.cells (.head h) (lists h)
  listed : ∀ h, ∀ a ∈ lists h, a ∈ s.allocated ∧ b.addHook (s.mem a).socketId = h
  owned : ∀ t a, (s.threads t).Owns a → a ∈ s.allocated ∧ ∀ h, a ∉ lists h
  owner : ∀ t u a, (s.threads t).Owns a → (s.threads u).Owns a → t = u
  live : ∀ a ∈ s.allocated, (∃ h, a ∈ lists h) ∨ ∃ t, (s.threads t).Owns a
  zeroed : ∀ a ∈ s.allocated, (s.mem a).isLocal = 0 ∧ (s.mem a).cancelled = 0
  numbered : ∀ a ∈ s.allocated, s.number a < s.count
  distinct : ∀ a ∈ s.allocated, ∀ e ∈ s.allocated, s.number a = s.number e → a = e

@[simp] theorem owns_idle : ¬ (Thread.idle : Thread P).Owns a := by simp [Thread.Owns]

@[simp] theorem owns_acked {e : Addr} {n : ℕ} : ¬ (Thread.acked e n : Thread P).Owns a := by
  simp [Thread.Owns]

@[simp] theorem owns_dequeued {e : Addr} {response : P} :
    (Thread.dequeued e response).Owns a ↔ e = a := by
  simp [Thread.Owns]

@[simp] theorem owns_responded {e : Addr} : (Thread.responded e : Thread P).Owns a ↔ e = a := by
  simp [Thread.Owns]

theorem kept_start (mem : Addr → RequestInfo) :
    Kept b (start mem : State T P) fun _ => [] := by
  refine ⟨fun h => rfl,by simp,?_,?_,by simp [start],by simp [start],by simp [start],by simp [start]⟩
  · exact fun t a h => absurd h owns_idle
  · exact fun t u a h => absurd h owns_idle

/-- The walk of a list ends, as its blocks are in use and occur once. -/
theorem Kept.length_lt (h : Kept b s lists) (k : Hook) : (lists k).length < s.allocated.card + 1 := by
  have hsub : (lists k).toFinset ⊆ s.allocated := fun a ha =>
    (h.listed k a (List.mem_toFinset.mp ha)).1
  have hcard := Finset.card_le_card hsub
  rw [List.toFinset_card_of_nodup (h.chain k).nodup] at hcard
  omega

/-- A token that is not in a list is refused, whatever its block holds. -/
theorem Kept.refuses (h : Kept b s lists) (ha : ∀ k, a ∉ lists k) (isAck : Bool) :
    s.checkAndDequeueRequestInfoIfAck b (some a) isAck = some (s,false) := by
  have hl := h.chain (b.dequeueHook (s.mem a).socketId)
  rw [← List.append_nil (lists _)] at hl
  have hwalk := hl.locate (p:=(a == ·)) (fun d hd => ?_) (by simp) (h.length_lt _)
  · simp only [State.checkAndDequeueRequestInfoIfAck,hwalk,List.head?_nil,Option.map_none]
  · have hne : a ≠ d := by
      rintro rfl
      exact ha _ hd
    simpa using hne

/-- A token that is in a list is found there. -/
theorem Kept.finds (h : Kept b s lists) {k : Hook} {u v : List Addr} (hk : lists k = u ++ a::v)
    (isAck : Bool) : s.checkAndDequeueRequestInfoIfAck b (some a) isAck =
      some (if isAck then s.setMem a { s.mem a with wasAckSent := 1 }
        else s.setCell (ending (.head k) u) (s.cells (.link a)),true) := by
  have hmem : a ∈ lists k := by simp [hk]
  have hhook : b.dequeueHook (s.mem a).socketId = k :=
    (dequeueHook_eq b _).trans (h.listed k a hmem).2
  have hl : Holds s.cells (.head k) (u ++ a::v) := hk ▸ h.chain k
  have hlen : u.length < s.allocated.card + 1 := by
    have := h.length_lt k
    simp [hk] at this
    omega
  have hwalk := hl.locate (p:=(a == ·)) (fun d hd => ?_) (by simp) hlen
  · simp only [State.checkAndDequeueRequestInfoIfAck,hhook,hwalk,List.head?_cons,Option.map_some]
    cases isAck with
    | false => rfl
    | true =>
      by_cases hw : (s.mem a).wasAckSent = 1
      · have hsame : s.setMem a { s.mem a with wasAckSent := 1 } = s := by
          have hr : { s.mem a with wasAckSent := 1 } = s.mem a := by rw [← hw]
          rw [State.setMem,hr,Function.update_eq_self]
        simp [hw,hsame]
      · simp [hw]
  · have hdisj := (List.nodup_append.mp hl.nodup).2.2 d hd a List.mem_cons_self
    simpa using fun he : a = d => hdisj he.symm

/-! ## One step keeps the blocks apart -/

theorem cells_add {r : RequestInfo} {k : Hook} (hr : r.pNext = s.hooks k) :
    ({ s with mem := Function.update s.mem a r, hooks := Function.update s.hooks k (some a) } :
      State T P).cells = push s.cells (.head k) a := by
  funext d
  cases d with
  | head l => by_cases hl : l = k <;> simp [State.cells,push,hl]
  | link e => by_cases he : e = a <;> simp [State.cells,push,he,hr]

/-- A step that moves no block and writes only the flags of one. -/
theorem Kept.relabel (h : Kept b s lists) (hcells : s'.cells = s.cells)
    (hmem : ∀ a ∈ s.allocated, (s'.mem a).socketId = (s.mem a).socketId ∧
      (s'.mem a).isLocal = (s.mem a).isLocal ∧ (s'.mem a).cancelled = (s.mem a).cancelled)
    (halloc : s'.allocated = s.allocated) (hnum : s'.number = s.number) (hcount : s'.count = s.count)
    (hown : ∀ u a, (s'.threads u).Owns a ↔ (s.threads u).Owns a) : Kept b s' lists where
  chain k := hcells ▸ h.chain k
  listed k a ha := by
    have hin := h.listed k a ha
    rw [halloc,(hmem a hin.1).1]
    exact hin
  owned u a hu := by
    rw [halloc]
    exact h.owned u a ((hown u a).mp hu)
  owner u w a hu hw := h.owner u w a ((hown u a).mp hu) ((hown w a).mp hw)
  live a ha := by
    simp only [hown]
    exact h.live a (halloc ▸ ha)
  zeroed a ha := by
    rw [halloc] at ha
    rw [(hmem a ha).2.1,(hmem a ha).2.2]
    exact h.zeroed a ha
  numbered a ha := by
    rw [hnum,hcount]
    exact h.numbered a (halloc ▸ ha)
  distinct a ha e he := by
    rw [hnum]
    exact h.distinct a (halloc ▸ ha) e (halloc ▸ he)

theorem mem_pushed {k l : Hook} {e : Addr} (he : e ∈ Function.update lists k (a::lists k) l) :
    e = a ∨ e ∈ lists l := by
  by_cases hlk : l = k
  · subst hlk
    rw [Function.update_self] at he
    exact List.mem_cons.mp he
  · rw [Function.update_of_ne hlk] at he
    exact Or.inr he

/-- What is left in the lists after `a` has been taken out of one. -/
theorem Kept.of_mem_removed (h : Kept b s lists) {k l : Hook} {u v : List Addr} {e : Addr}
    (hk : lists k = u ++ a::v) (he : e ∈ Function.update lists k (u ++ v) l) :
    e ∈ lists l ∧ e ≠ a := by
  have hn : (u ++ a::v).Nodup := hk ▸ (h.chain k).nodup
  by_cases hlk : l = k
  · subst hlk
    rw [Function.update_self] at he
    refine ⟨by rw [hk]; exact List.mem_append.mpr ((List.mem_append.mp he).imp_right
      (List.mem_cons_of_mem a)),?_⟩
    rintro rfl
    rcases List.mem_append.mp he with he | he
    · exact (List.nodup_append.mp hn).2.2 e he e List.mem_cons_self rfl
    · exact (List.nodup_cons.mp (List.nodup_append.mp hn).2.1).1 he
  · rw [Function.update_of_ne hlk] at he
    refine ⟨he,?_⟩
    rintro rfl
    exact hlk ((h.listed l e he).2.symm.trans (h.listed k e (by simp [hk])).2)

theorem Kept.add (h : Kept b s lists) {r : RequestInfo} {es : List (Entry P)}
    (ha : a ∉ s.allocated) (hnext : r.pNext = s.hooks (b.addHook r.socketId))
    (hzero : r.isLocal = 0 ∧ r.cancelled = 0) :
    Kept b { s with
      mem := Function.update s.mem a r
      allocated := insert a s.allocated
      hooks := Function.update s.hooks (b.addHook r.socketId) (some a)
      number := Function.update s.number a s.count
      count := s.count + 1
      log := s.log ++ es }
      (Function.update lists (b.addHook r.socketId) (a::lists (b.addHook r.socketId))) := by
  have hne : ∀ e ∈ s.allocated, e ≠ a := fun e he hea => ha (hea ▸ he)
  have hfresh : ∀ k, a ∉ lists k := fun k hk => ha (h.listed k a hk).1
  constructor
  case chain =>
    intro k
    refine (cells_add (s:=s) hnext).symm ▸ ?_
    by_cases hk : k = b.addHook r.socketId
    · subst hk
      rw [Function.update_self]
      exact (h.chain _).push (hfresh _)
    · rw [Function.update_of_ne hk]
      exact (h.chain k).push_other hk (hfresh k)
  case listed =>
    intro k e he
    by_cases hea : e = a
    · subst hea
      refine ⟨Finset.mem_insert_self _ _,?_⟩
      simp only [Function.update_self]
      by_contra hk
      rw [Function.update_of_ne (Ne.symm hk)] at he
      exact hfresh k he
    · obtain ⟨hin,hhook⟩ := h.listed k e ((mem_pushed he).resolve_left hea)
      refine ⟨Finset.mem_insert_of_mem hin,?_⟩
      simp only [Function.update_of_ne hea]
      exact hhook
  case owned =>
    intro u e hu
    obtain ⟨hin,hout⟩ := h.owned u e hu
    exact ⟨Finset.mem_insert_of_mem hin,fun k hk => hout k ((mem_pushed hk).resolve_left (hne e hin))⟩
  case owner => exact h.owner
  case live =>
    intro e he
    rcases Finset.mem_insert.mp he with rfl | he
    · exact Or.inl ⟨b.addHook r.socketId,by simp⟩
    · refine (h.live e he).imp_left fun ⟨k,hk⟩ => ⟨k,?_⟩
      by_cases hkh : k = b.addHook r.socketId
      · subst hkh
        rw [Function.update_self]
        exact List.mem_cons_of_mem a hk
      · rwa [Function.update_of_ne hkh]
  case zeroed =>
    intro e he
    rcases Finset.mem_insert.mp he with rfl | he
    · simpa using hzero
    · simpa only [Function.update_of_ne (hne e he)] using h.zeroed e he
  case numbered =>
    intro e he
    rcases Finset.mem_insert.mp he with rfl | he
    · simp
    · simp only [Function.update_of_ne (hne e he)]
      exact Nat.lt_succ_of_lt (h.numbered e he)
  case distinct =>
    intro e he f hf hef
    rcases Finset.mem_insert.mp he with rfl | he' <;> rcases Finset.mem_insert.mp hf with rfl | hf'
    · rfl
    · simp only [Function.update_self,Function.update_of_ne (hne f hf')] at hef
      exact absurd hef (h.numbered f hf').ne'
    · simp only [Function.update_self,Function.update_of_ne (hne e he')] at hef
      exact absurd hef (h.numbered e he').ne
    · simp only [Function.update_of_ne (hne e he'),Function.update_of_ne (hne f hf')] at hef
      exact h.distinct e he' f hf' hef

/-- A block in nobody's list may be written. -/
theorem Kept.cells_write (h : Kept b s lists) (ha : ∀ k, a ∉ lists k) {s' : State T P}
    (hmem : ∃ r, s'.mem = Function.update s.mem a r) (hhooks : s'.hooks = s.hooks) (k : Hook) :
    Holds s'.cells (.head k) (lists k) := by
  obtain ⟨r,hr⟩ := hmem
  refine (h.chain k).congr (congrFun hhooks k) fun e he => ?_
  have hne : e ≠ a := fun hea => ha k (hea ▸ he)
  simp [State.cells,hr,Function.update_of_ne hne]

theorem Kept.scribble (h : Kept b s lists) {junk : RequestInfo} (ha : a ∉ s.allocated) :
    Kept b (s.setMem a junk) lists := by
  have hne : ∀ e ∈ s.allocated, e ≠ a := fun e he hea => ha (hea ▸ he)
  have hout : ∀ k, a ∉ lists k := fun k hk => ha (h.listed k a hk).1
  constructor
  case chain => exact h.cells_write hout ⟨junk,rfl⟩ rfl
  case listed =>
    intro k e he
    obtain ⟨hin,hhook⟩ := h.listed k e he
    refine ⟨hin,?_⟩
    simpa only [State.setMem,Function.update_of_ne (hne e hin)] using hhook
  case owned => exact h.owned
  case owner => exact h.owner
  case live => exact h.live
  case zeroed =>
    intro e he
    simpa only [State.setMem,Function.update_of_ne (hne e he)] using h.zeroed e he
  case numbered => exact h.numbered
  case distinct => exact h.distinct

/-! ## What the steps do -/

variable [DecidableEq T]

theorem step_add {serial slotId request : ℤ} {alloc : Option Addr}
    (hs : step b s (.add serial slotId request alloc) = some s') : s' = s ∨
      ∃ a, alloc = some a ∧ a ∉ s.allocated ∧ s' = { s with
        mem := Function.update s.mem a ⟨serial,request,s.hooks (b.addHook slotId),0,0,slotId,0⟩
        allocated := insert a s.allocated
        hooks := Function.update s.hooks (b.addHook slotId) (some a)
        number := Function.update s.number a s.count
        count := s.count + 1
        log := s.log ++ [.added s.count slotId serial request] } := by
  simp only [step,State.addRequestToList] at hs
  split at hs
  · exact Or.inl (Option.some.inj hs).symm
  cases alloc with
  | none => exact Or.inl (Option.some.inj hs).symm
  | some a =>
    simp only at hs
    split at hs
    · cases hs
    case _ hfree =>
      refine Or.inr ⟨a,rfl,hfree,?_⟩
      rw [← Option.some.inj hs]
      simp [State.setCell,State.setMem,State.enter,State.cells]

theorem Kept.step_ack (h : Kept b s lists) {token : Option Addr}
    (hs : step b s (.ack t token) = some s') : s.threads t = .idle ∧ (s' = s ∨
      ∃ a k, token = some a ∧ a ∈ lists k ∧ s' = { s with
        mem := Function.update s.mem a { s.mem a with wasAckSent := 1 }
        threads := Function.update s.threads t (.acked a (s.number a))
        log := s.log ++ [.acked (s.number a)] }) := by
  simp only [step,State.onRequestAck] at hs
  cases ht : s.threads t with
  | acked a n => simp [ht] at hs
  | dequeued a r => simp [ht] at hs
  | responded a => simp [ht] at hs
  | idle =>
    refine ⟨rfl,?_⟩
    cases token with
    | none =>
      simp only [ht,State.checkAndDequeueRequestInfoIfAck,Option.bind_eq_bind,Option.bind_some] at hs
      exact Or.inl (Option.some.inj hs).symm
    | some a =>
      by_cases ha : ∃ k, a ∈ lists k
      · obtain ⟨k,hk⟩ := ha
        obtain ⟨u,v,huv⟩ := List.append_of_mem hk
        simp only [ht,h.finds huv,Option.bind_eq_bind,Option.bind_some] at hs
        exact Or.inr ⟨a,k,rfl,hk,(Option.some.inj hs).symm⟩
      · rw [not_exists] at ha
        simp only [ht,h.refuses ha,Option.bind_eq_bind,Option.bind_some] at hs
        exact Or.inl (Option.some.inj hs).symm

theorem Kept.step_complete (h : Kept b s lists) {token : Option Addr} {response : P}
    (hs : step b s (.complete t token response) = some s') : s.threads t = .idle ∧ (s' = s ∨
      ∃ a k u v, token = some a ∧ lists k = u ++ a::v ∧
        s' = ((s.setCell (ending (.head k) u) (s.cells (.link a))).setThread t
          (.dequeued a response)).enter [.completed (s.number a) response]) := by
  simp only [step,State.onRequestComplete] at hs
  cases ht : s.threads t with
  | acked a n => simp [ht] at hs
  | dequeued a r => simp [ht] at hs
  | responded a => simp [ht] at hs
  | idle =>
    refine ⟨rfl,?_⟩
    cases token with
    | none =>
      simp only [ht,State.checkAndDequeueRequestInfoIfAck,Option.bind_eq_bind,Option.bind_some] at hs
      exact Or.inl (Option.some.inj hs).symm
    | some a =>
      by_cases ha : ∃ k, a ∈ lists k
      · obtain ⟨k,hk⟩ := ha
        obtain ⟨u,v,huv⟩ := List.append_of_mem hk
        simp only [ht,h.finds huv,Option.bind_eq_bind,Option.bind_some] at hs
        refine Or.inr ⟨a,k,u,v,rfl,huv,?_⟩
        rw [← (setCell_frame s (ending (.head k) u) (s.cells (.link a))).2.1]
        exact (Option.some.inj hs).symm
      · rw [not_exists] at ha
        simp only [ht,h.refuses ha,Option.bind_eq_bind,Option.bind_some] at hs
        exact Or.inl (Option.some.inj hs).symm

theorem step_acknowledge (hs : step b s (.acknowledge t) = some s') : ∃ a n,
    s.threads t = .acked a n ∧ ∃ es,
      (es = [] ∨ es = [.acknowledged n (s.mem a).socketId (s.mem a).token]) ∧
        s' = { s with threads := Function.update s.threads t .idle, log := s.log ++ es } := by
  simp only [step,State.acknowledgeRequest] at hs
  split at hs
  case _ a n ht =>
    refine ⟨a,n,ht,?_⟩
    split at hs
    · exact ⟨_,Or.inr rfl,(Option.some.inj hs).symm⟩
    · exact ⟨[],Or.inl rfl,by rw [← Option.some.inj hs]; simp [State.setThread]⟩
  · cases hs

/-- The block of a completion holds what `calloc` and the dispatcher have written. -/
theorem Kept.step_respond (h : Kept b s lists) (hs : step b s (.respond t) = some s') :
    ∃ a response, s.threads t = .dequeued a response ∧ s' = { s with
      threads := Function.update s.threads t (.responded a)
      log := s.log ++
        (if b.version ≥ 13 ∧ (s.mem a).wasAckSent = 1 then
          [.grabPartialWakeLock (s.number a),
            .answered (s.number a) (s.mem a).pCI (s.mem a).socketId 3 (s.mem a).token response]
        else [.answered (s.number a) (s.mem a).pCI (s.mem a).socketId 0 (s.mem a).token response]) } := by
  simp only [step,State.respond] at hs
  split at hs
  case _ a response ht =>
    refine ⟨a,response,ht,?_⟩
    have ha : a ∈ s.allocated := (h.owned t a (by simp [ht])).1
    obtain ⟨hlocal,hcancelled⟩ := h.zeroed a ha
    simp only [State.setThread,State.enter,hlocal,hcancelled,lt_irrefl,if_false,if_true] at hs
    by_cases hack : b.version ≥ 13 ∧ (s.mem a).wasAckSent = 1
    · simp only [hack,and_self,if_true] at hs ⊢
      exact (Option.some.inj hs).symm
    · simp only [hack,if_false] at hs ⊢
      exact (Option.some.inj hs).symm
  · cases hs

theorem Kept.step_free (h : Kept b s lists) {junk : RequestInfo}
    (hs : step b s (.free t junk) = some s') : ∃ a, s.threads t = .responded a ∧ s' = { s with
      mem := Function.update s.mem a junk
      allocated := s.allocated.erase a
      threads := Function.update s.threads t .idle } := by
  simp only [step,State.free] at hs
  split at hs
  case _ a ht =>
    have ha : a ∈ s.allocated := (h.owned t a (by simp [ht])).1
    rw [if_pos ha] at hs
    exact ⟨a,ht,(Option.some.inj hs).symm⟩
  · cases hs

theorem owns_update {u : T} {th : Thread P} : (Function.update s.threads t th u).Owns a ↔
    (u = t ∧ th.Owns a) ∨ (u ≠ t ∧ (s.threads u).Owns a) := by
  by_cases hu : u = t
  · subst hu
    simp
  · simp [hu]

theorem Kept.complete (h : Kept b s lists) {k : Hook} {u v : List Addr} {response : P}
    (hk : lists k = u ++ a::v) (ht : s.threads t = .idle) (es : List (Entry P)) :
    Kept b (((s.setCell (ending (.head k) u) (s.cells (.link a))).setThread t
      (.dequeued a response)).enter es) (Function.update lists k (u ++ v)) := by
  have hmem := setCell_mem s (ending (.head k) u) (s.cells (.link a))
  obtain ⟨halloc,hnum,hcount,hthreads⟩ := setCell_frame s (ending (.head k) u) (s.cells (.link a))
  have hcells := setCell_cells s (ending (.head k) u) (s.cells (.link a))
  generalize s.setCell (ending (.head k) u) (s.cells (.link a)) = s₀ at *
  have hl : Holds s.cells (.head k) (u ++ a::v) := hk ▸ h.chain k
  have hak : a ∈ lists k := by simp [hk]
  have hsub : ∀ l, ∀ e ∈ Function.update lists k (u ++ v) l, e ∈ lists l ∧ e ≠ a :=
    fun l e he => h.of_mem_removed hk he
  have hown : ∀ w e, ((Function.update s.threads t (.dequeued a response)) w).Owns e →
      (w = t ∧ e = a) ∨ (s.threads w).Owns e := by
    intro w e hw
    rcases owns_update.mp hw with ⟨hwt,hwa⟩ | ⟨-,hw⟩
    · exact Or.inl ⟨hwt,(owns_dequeued.mp hwa).symm⟩
    · exact Or.inr hw
  constructor
  case chain =>
    intro l
    change Holds s₀.cells _ _
    rw [hcells]
    by_cases hlk : l = k
    · subst hlk
      rw [Function.update_self]
      exact hl.unlink
    · rw [Function.update_of_ne hlk]
      refine (h.chain l).unlink_other hlk fun e he heu => hlk ?_
      have hek : e ∈ lists k := by
        rw [hk]
        exact List.mem_append_left _ heu
      exact (h.listed l e he).2.symm.trans (h.listed k e hek).2
  case listed =>
    intro l e he
    obtain ⟨hin,hhook⟩ := h.listed l e (hsub l e he).1
    refine ⟨halloc ▸ hin,?_⟩
    change b.addHook (s₀.mem e).socketId = l
    rw [hmem e]
    exact hhook
  case owned =>
    intro w e hw
    change ((Function.update s₀.threads t (.dequeued a response)) w).Owns e at hw
    rw [hthreads] at hw
    rcases hown w e hw with ⟨rfl,rfl⟩ | hw
    · exact ⟨halloc ▸ (h.listed k e hak).1,fun l hl => (hsub l e hl).2 rfl⟩
    · obtain ⟨hin,hout⟩ := h.owned w e hw
      exact ⟨halloc ▸ hin,fun l hl => hout l (hsub l e hl).1⟩
  case owner =>
    intro w x e hw hx
    change ((Function.update s₀.threads t (.dequeued a response)) w).Owns e at hw
    change ((Function.update s₀.threads t (.dequeued a response)) x).Owns e at hx
    rw [hthreads] at hw hx
    rcases hown w e hw with ⟨hwt,hwa⟩ | hw' <;> rcases hown x e hx with ⟨hxt,hxa⟩ | hx'
    · exact hwt.trans hxt.symm
    · exact absurd hak (hwa ▸ (h.owned x e hx').2 k)
    · exact absurd hak (hxa ▸ (h.owned w e hw').2 k)
    · exact h.owner w x e hw' hx'
  case live =>
    intro e he
    change e ∈ s₀.allocated at he
    rw [halloc] at he
    change (∃ l, e ∈ _) ∨ ∃ w, ((Function.update s₀.threads t (.dequeued a response)) w).Owns e
    rw [hthreads]
    by_cases hea : e = a
    · subst hea
      exact Or.inr ⟨t,by simp⟩
    · rcases h.live e he with ⟨l,hel⟩ | ⟨w,hw⟩
      · left
        refine ⟨l,?_⟩
        by_cases hlk : l = k
        · subst hlk
          rw [hk] at hel
          rw [Function.update_self]
          exact List.mem_append.mpr ((List.mem_append.mp hel).imp_right fun h =>
            (List.mem_cons.mp h).resolve_left hea)
        · rwa [Function.update_of_ne hlk]
      · right
        refine ⟨w,owns_update.mpr (Or.inr ⟨?_,hw⟩)⟩
        rintro rfl
        simp [ht] at hw
  case zeroed =>
    intro e he
    change e ∈ s₀.allocated at he
    change (s₀.mem e).isLocal = 0 ∧ (s₀.mem e).cancelled = 0
    rw [hmem e]
    exact h.zeroed e (halloc ▸ he)
  case numbered =>
    intro e he
    change s₀.number e < s₀.count
    rw [hnum,hcount]
    exact h.numbered e (halloc ▸ he)
  case distinct =>
    intro e he f hf hef
    change s₀.number e = s₀.number f at hef
    rw [hnum] at hef
    exact h.distinct e (halloc ▸ he) f (halloc ▸ hf) hef

theorem Kept.free (h : Kept b s lists) {junk : RequestInfo} (ht : s.threads t = .responded a) :
    Kept b { s with
      mem := Function.update s.mem a junk
      allocated := s.allocated.erase a
      threads := Function.update s.threads t .idle } lists := by
  have hta : (s.threads t).Owns a := by simp [ht]
  obtain ⟨hin,hout⟩ := h.owned t a hta
  have hown : ∀ w e, (Function.update s.threads t .idle w).Owns e → (s.threads w).Owns e ∧ e ≠ a := by
    intro w e hw
    rcases owns_update.mp hw with ⟨-,hidle⟩ | ⟨hwt,hw⟩
    · exact absurd hidle owns_idle
    · refine ⟨hw,?_⟩
      rintro rfl
      exact hwt (h.owner w t e hw hta)
  constructor
  case chain => exact h.cells_write hout ⟨junk,rfl⟩ rfl
  case listed =>
    intro k e he
    have hea : e ≠ a := fun hea => hout k (hea ▸ he)
    obtain ⟨hin,hhook⟩ := h.listed k e he
    refine ⟨Finset.mem_erase.mpr ⟨hea,hin⟩,?_⟩
    simpa only [Function.update_of_ne hea] using hhook
  case owned =>
    intro w e hw
    obtain ⟨hw,hea⟩ := hown w e hw
    obtain ⟨hin,hout⟩ := h.owned w e hw
    exact ⟨Finset.mem_erase.mpr ⟨hea,hin⟩,hout⟩
  case owner => exact fun w x e hw hx => h.owner w x e (hown w e hw).1 (hown x e hx).1
  case live =>
    intro e he
    obtain ⟨hea,he⟩ := Finset.mem_erase.mp he
    refine (h.live e he).imp_right fun ⟨w,hw⟩ => ⟨w,owns_update.mpr (Or.inr ⟨?_,hw⟩)⟩
    rintro rfl
    rw [ht,owns_responded] at hw
    exact hea hw.symm
  case zeroed =>
    intro e he
    obtain ⟨hea,he⟩ := Finset.mem_erase.mp he
    simpa only [Function.update_of_ne hea] using h.zeroed e he
  case numbered => exact fun e he => h.numbered e (Finset.mem_of_mem_erase he)
  case distinct =>
    exact fun e he f hf => h.distinct e (Finset.mem_of_mem_erase he) f (Finset.mem_of_mem_erase hf)

/-- No walk of a list gets lost, and no block is freed twice. -/
theorem Kept.enabled (h : Kept b s lists) {x : Action T P} (hx : Enabled s x) :
    (step b s x).isSome := by
  have hcheck : ∀ token isAck, (s.checkAndDequeueRequestInfoIfAck b token isAck).isSome := by
    intro token isAck
    cases token with
    | none => rfl
    | some a =>
      by_cases ha : ∃ k, a ∈ lists k
      · obtain ⟨k,hk⟩ := ha
        obtain ⟨u,v,huv⟩ := List.append_of_mem hk
        simp [h.finds huv]
      · rw [not_exists] at ha
        simp [h.refuses ha]
  cases x with
  | add serial slotId request alloc =>
    simp only [step,State.addRequestToList]
    split
    · rfl
    cases alloc with
    | none => rfl
    | some a => simp [if_neg (hx a rfl)]
  | ack t token =>
    obtain ⟨⟨s₁,ret⟩,hret⟩ := Option.isSome_iff_exists.mp (hcheck token true)
    have ht : s.threads t = .idle := hx
    simp only [step,State.onRequestAck,ht,hret,Option.bind_eq_bind,Option.bind_some]
    cases ret <;> cases token <;> rfl
  | acknowledge t =>
    obtain ⟨a,n,ht⟩ := hx
    simp only [step,State.acknowledgeRequest,ht]
    split <;> rfl
  | complete t token response =>
    obtain ⟨⟨s₁,ret⟩,hret⟩ := Option.isSome_iff_exists.mp (hcheck token false)
    have ht : s.threads t = .idle := hx
    simp only [step,State.onRequestComplete,ht,hret,Option.bind_eq_bind,Option.bind_some]
    cases ret <;> cases token <;> rfl
  | respond t =>
    obtain ⟨a,response,ht⟩ := hx
    simp only [step,State.respond,ht]
    split_ifs <;> rfl
  | free t junk =>
    obtain ⟨a,ht⟩ := hx
    have ha : a ∈ s.allocated := (h.owned t a (by simp [ht])).1
    simp [step,State.free,ht,ha]
  | scribble a junk =>
    have ha : a ∉ s.allocated := hx
    simp [step,ha]

end Pending
end Ril
end Kitakami

import Kitakami.Agps.Listed
import Kitakami.Base.Runs

/-!
# The state and the subscribers

For the machines of the AGPS interfaces the current state tells which
subscribers there are: none in Released, an active one in Pending and Acquired,
someone in Releasing. `Move` is what a call
can do to the state, with the traffic between the machine and the connectivity
service that goes with it.
-/

namespace Kitakami
namespace Agps

open Runs

/-- Changes of state and the traffic of each. -/
inductive Move : AgpsState → List Traffic → AgpsState → Prop
  | stay (q : AgpsState) : Move q [] q
  | request : Move .released [.sent .requestDataConn] .pending
  | release {q q' : AgpsState} (hq : q = .pending ∨ q = .acquired)
      (hq' : q' = .released ∨ q' = .releasing) : Move q [.sent .releaseDataConn] q'
  | granted : Move .pending [.event .granted] .acquired
  | denied : Move .pending [.event .denied] .released
  | forced : Move .acquired [.event .released] .released
  | closed {e : RsrcStatus} (he : e = .released ∨ e = .denied) :
      Move .releasing [.event e] .released
  | again {e : RsrcStatus} (he : e = .released ∨ e = .denied) :
      Move .releasing [.event e,.sent .requestDataConn] .pending
  /-- The last one unsubscribes while the connection is being released. -/
  | emptied : Move .releasing [] .released
  | ignored {q : AgpsState} {e : RsrcStatus}
      (h : q = .released ∨ (q = .pending ∧ e = .released) ∨
        (q = .acquired ∧ (e = .granted ∨ e = .denied)) ∨ (q = .releasing ∧ e = .granted)) :
      Move q [.event e] q

namespace AgpsStateMachine

variable {m m' : AgpsStateMachine} {s : Subscriber} {v : Env}

/-- Which subscribers the state promises. -/
structure Phase (m : AgpsStateMachine) : Prop where
  released : m.mState = .released → m.mSubscribers = []
  active : m.mState = .pending ∨ m.mState = .acquired → ∃ s ∈ m.mSubscribers, s.isInactive = false
  releasing : m.mState = .releasing → m.mSubscribers ≠ []

theorem phase_released (h : m.mSubscribers = []) : Phase { m with mState := .released } :=
  ⟨fun _ => h,by simp,by simp⟩

theorem phase_pending (h : ∃ s ∈ m.mSubscribers, s.isInactive = false) :
    Phase { m with mState := .pending } :=
  ⟨by simp,fun _ => h,by simp⟩

theorem phase_acquired (h : ∃ s ∈ m.mSubscribers, s.isInactive = false) :
    Phase { m with mState := .acquired } :=
  ⟨by simp,fun _ => h,by simp⟩

theorem phase_releasing (h : m.mSubscribers ≠ []) :
    Phase { m with mState := .releasing } :=
  ⟨by simp,by simp,fun _ => h⟩

theorem Phase.of_eq (h : Phase m) (hq : m'.mState = m.mState)
    (hl : m'.mSubscribers = m.mSubscribers) : Phase m' := by
  constructor
  · rw [hq,hl]
    exact h.released
  · rw [hq,hl]
    exact h.active
  · rw [hq,hl]
    exact h.releasing

/-- What one call does: the state promises its subscribers again, and state and
traffic make one move. -/
structure MovesBy (m : AgpsStateMachine) (t : List Traffic) (m' : AgpsStateMachine) : Prop where
  phase : Phase m'
  traffic : m'.traffic = m.traffic ++ t
  move : Move m.mState t m'.mState

theorem moves_quiet (hp : Phase m) (h : Quiet m m') : MovesBy m [] m' := by
  refine ⟨hp.of_eq h.same.mState h.same.mSubscribers,?_,?_⟩
  · rw [h.traffic_eq,List.append_nil]
  · rw [h.same.mState]
    exact .stay _

/-! ## Requests -/

theorem sendRsrcRequest_fst (hk : m.kind ≠ .ds) (action : Action) :
    (m.sendRsrcRequest v action).1 = 0 := by
  have ha : (m.sendAgpsRequest action).1 = 0 := by
    unfold sendAgpsRequest
    simp only
    split_ifs <;> rfl
  unfold sendRsrcRequest
  cases h : m.kind with
  | ds => exact absurd h hk
  | agps => exact ha

/-- A request goes out exactly when someone needs the connection, a release
when nobody does. -/
theorem sendRsrcRequest_traffic (hk : m.kind ≠ .ds) (action : Action)
    (ha : m.hasActiveSubscribers = (action == .requestDataConn)) :
    (m.sendRsrcRequest v action).2.traffic = m.traffic ++ [.sent action] := by
  have hsend : (m.sendAgpsRequest action).2.traffic = m.traffic ++ [.sent action] := by
    unfold sendAgpsRequest
    unfold hasActiveSubscribers at ha
    cases hs : m.search (.group .active) with
    | none =>
      rw [hs] at ha
      cases action with
      | requestDataConn => cases ha
      | releaseDataConn => simp [traffic,emit,Entry.traffic]
    | some s =>
      rw [hs] at ha
      cases action with
      | requestDataConn => simp [traffic,emit,Entry.traffic]
      | releaseDataConn => cases ha
  unfold sendRsrcRequest
  cases h : m.kind with
  | ds => exact absurd h hk
  | agps => exact hsend

theorem sendRsrcRequest_mSubscribers (action : Action) :
    (m.sendRsrcRequest v action).2.mSubscribers = m.mSubscribers :=
  (same_sendRsrcRequest m v action).mSubscribers

/-! ## Subscribing -/

theorem active_addSubscriber (hm : m.mSubscribers = []) :
    ∃ t ∈ (m.addSubscriber s).mSubscribers, t.isInactive = false := by
  rcases addSubscriber_cases m s with ⟨⟨e,he,-⟩,-⟩ | ⟨-,he⟩
  · rw [hm] at he
    cases he
  · rw [he]
    exact ⟨s.clone,List.mem_cons_self,Subscriber.isInactive_clone s⟩

theorem Phase.addSubscriber (h : Phase m) (hq : m.mState ≠ .released) :
    Phase (m.addSubscriber s) := by
  constructor
  · intro hr
    exact absurd (addSubscriber_mState.symm.trans hr) hq
  · intro hr
    rw [addSubscriber_mState] at hr
    obtain ⟨t,ht,hi⟩ := h.active hr
    exact ⟨t,mem_addSubscriber ht,hi⟩
  · intro hr
    rw [addSubscriber_mState] at hr
    obtain ⟨t,ht⟩ := List.exists_mem_of_ne_nil _ (h.releasing hr)
    exact List.ne_nil_of_mem (mem_addSubscriber ht)

theorem moves_addSubscriber (hp : Phase m) (hq : m.mState ≠ .released) :
    MovesBy m [] (m.addSubscriber s) := by
  refine ⟨hp.addSubscriber hq,?_,?_⟩
  · rw [addSubscriber_traffic,List.append_nil]
  · rw [addSubscriber_mState]
    exact .stay _

/-- A subscription sends a request in Released and nothing elsewhere. -/
theorem moves_subscribeRsrc (hp : Phase m) (hk : m.kind ≠ .ds) :
    MovesBy m [] (m.subscribeRsrc v s) ∨
      (m.mState = .released ∧ MovesBy m [.sent .requestDataConn] (m.subscribeRsrc v s)) := by
  unfold subscribeRsrc
  split_ifs
  · exact Or.inl (moves_quiet hp (quiet_notifyRsrcStatus m s _))
  unfold stateOnRsrcEvent
  cases hq : m.mState with
  | released =>
    right
    have hact := active_addSubscriber (s:=s) (hp.released hq)
    have hka : (m.addSubscriber s).kind ≠ .ds := by rwa [addSubscriber_kind]
    have hsend := sendRsrcRequest_traffic (v:=v) hka .requestDataConn
      (hasActiveSubscribers_iff.mpr hact)
    simp only [releasedOnRsrcEvent,sendRsrcRequest_fst hka,if_true]
    refine ⟨trivial,phase_pending (by rwa [sendRsrcRequest_mSubscribers]),?_,?_⟩
    · exact hsend.trans (by rw [addSubscriber_traffic])
    · rw [hq]
      exact .request
  | pending => exact Or.inl (moves_addSubscriber hp (by simp [hq]))
  | acquired =>
    have hn := quiet_notifyRsrcStatus m s ⟨.rcver s,.granted,false⟩
    have hp' := hp.of_eq hn.same.mState hn.same.mSubscribers
    have ht := moves_addSubscriber (s:=s) hp' (by simp [hn.same.mState,hq])
    refine Or.inl ⟨ht.phase,?_,?_⟩
    · rw [← hn.traffic_eq]
      exact ht.traffic
    · rw [← hn.same.mState]
      exact ht.move
  | releasing => exact Or.inl (moves_addSubscriber hp (by simp [hq]))

/-! ## Unsubscribing -/

theorem moves_releaseUnused (hk : m.kind ≠ .ds) (hq : m.mState = .pending ∨ m.mState = .acquired) :
    MovesBy m [] (m.releaseUnused v) ∨
      MovesBy m [.sent .releaseDataConn] (m.releaseUnused v) := by
  have hsend (ha : ¬ m.hasActiveSubscribers) :
      (m.sendRsrcRequest v .releaseDataConn).2.traffic = m.traffic ++ [.sent .releaseDataConn] :=
    sendRsrcRequest_traffic hk .releaseDataConn (Bool.eq_false_iff.mpr ha)
  unfold releaseUnused
  split_ifs with hs ha
  · have hnil : m.mSubscribers = [] := by simpa [hasSubscribers] using hs
    have hno : ¬ m.hasActiveSubscribers := by
      rw [hasActiveSubscribers_iff]
      simp [hnil]
    refine Or.inr ⟨phase_released (by rw [sendRsrcRequest_mSubscribers,hnil]),hsend hno,?_⟩
    exact .release hq (Or.inl rfl)
  · have hno : ¬ m.hasActiveSubscribers := by simpa using ha
    have hne : m.mSubscribers ≠ [] := by simpa [hasSubscribers] using hs
    refine Or.inr ⟨phase_releasing (by rwa [sendRsrcRequest_mSubscribers]),hsend hno,?_⟩
    exact .release hq (Or.inr rfl)
  · have hact : ∃ t ∈ m.mSubscribers, t.isInactive = false :=
      hasActiveSubscribers_iff.mp (by simpa using ha)
    refine Or.inl ⟨⟨?_,fun _ => hact,?_⟩,by simp,.stay _⟩
    · intro hr
      simp [hr] at hq
    · intro hr
      simp [hr] at hq

/-- An unsubscription sends at most a release. -/
theorem moves_unsubscribeRsrc (hp : Phase m) (hk : m.kind ≠ .ds) :
    MovesBy m [] (m.unsubscribeRsrc v s) ∨
      MovesBy m [.sent .releaseDataConn] (m.unsubscribeRsrc v s) := by
  unfold unsubscribeRsrc
  cases hs : m.search (.rcver s) with
  | none => exact Or.inl (moves_quiet hp (Quiet.refl m))
  | some e =>
    have he : e ∈ m.mSubscribers := List.mem_of_find?_eq_some hs
    have hfrom {t : List Traffic} {m' : AgpsStateMachine}
        (ht : MovesBy (m.unsubscribeEntry v e) t m') : MovesBy m t m' := by
      refine ⟨ht.phase,?_,?_⟩
      · rw [← unsubscribeEntry_traffic (m:=m) (v:=v) (s:=e)]
        exact ht.traffic
      · rw [← unsubscribeEntry_mState (m:=m) (v:=v) (s:=e)]
        exact ht.move
    have huse (hq : m.mState = .pending ∨ m.mState = .acquired) :
        MovesBy m [] ((m.unsubscribeEntry v e).releaseUnused v) ∨
          MovesBy m [.sent .releaseDataConn] ((m.unsubscribeEntry v e).releaseUnused v) :=
      (moves_releaseUnused (m:=m.unsubscribeEntry v e) (v:=v) (by rwa [unsubscribeEntry_kind])
        (by rwa [unsubscribeEntry_mState])).imp hfrom hfrom
    simp only [stateOnRsrcEvent]
    cases hq : m.mState with
    | released =>
      rw [hp.released hq] at he
      cases he
    | pending => exact huse (Or.inl hq)
    | acquired => exact huse (Or.inr hq)
    | releasing =>
      have htraffic : (m.unsubscribeEntry v e).traffic = m.traffic ++ [] := by
        rw [unsubscribeEntry_traffic,List.append_nil]
      have hstate : (m.unsubscribeEntry v e).mState = .releasing := by
        rw [unsubscribeEntry_mState,hq]
      simp only [releasingOnRsrcEvent]
      split_ifs with hhas
      · have hnil : (m.unsubscribeEntry v e).mSubscribers = [] := by
          simpa [hasSubscribers] using hhas
        refine Or.inl ⟨phase_released hnil,htraffic,?_⟩
        rw [hq]
        exact .emptied
      · have hne : (m.unsubscribeEntry v e).mSubscribers ≠ [] := by
          simpa [hasSubscribers] using hhas
        refine Or.inl ⟨⟨?_,?_,fun _ => hne⟩,htraffic,?_⟩
        · intro hr
          simp [hq] at hr
        · intro hr
          simp [hq] at hr
        · rw [hstate,hq]
          exact .stay _

/-- Releasing is entered with a subscriber that waits for the close to complete. -/
theorem releasing_of_unsubscribeRsrc (hq : (m.unsubscribeRsrc v s).mState = .releasing) :
    m.mState = .releasing ∨ ∃ t ∈ (m.unsubscribeRsrc v s).mSubscribers, t.isInactive = true := by
  have huse (m' : AgpsStateMachine) (hq : (m'.releaseUnused v).mState = .releasing) :
      m'.mState = .releasing ∨ ∃ t ∈ (m'.releaseUnused v).mSubscribers, t.isInactive = true := by
    unfold releaseUnused at hq ⊢
    split_ifs at hq ⊢ with hs ha
    · right
      have hno : ¬ m'.hasActiveSubscribers := by simpa using ha
      have hne : m'.mSubscribers ≠ [] := by simpa [hasSubscribers] using hs
      obtain ⟨t,ht⟩ := List.exists_mem_of_ne_nil _ hne
      refine ⟨t,?_,?_⟩
      · rwa [sendRsrcRequest_mSubscribers]
      · rw [hasActiveSubscribers_iff] at hno
        simpa using fun hf => hno ⟨t,ht,hf⟩
    · exact Or.inl hq
  unfold unsubscribeRsrc at hq ⊢
  cases hs : m.search (.rcver s) with
  | none =>
    rw [hs] at hq
    exact Or.inl hq
  | some e =>
    simp only [hs] at hq
    simp only [stateOnRsrcEvent] at hq ⊢
    cases hm : m.mState with
    | released =>
      simp only [hm,releasedOnRsrcEvent,(quiet_notifyRsrcStatus m e _).same.mState] at hq
      cases hq
    | pending =>
      simp only [hm,pendingOnRsrcEvent] at hq
      simpa [hm,pendingOnRsrcEvent] using huse _ hq
    | acquired =>
      simp only [hm,acquiredOnRsrcEvent] at hq
      simpa [hm,acquiredOnRsrcEvent] using huse _ hq
    | releasing => exact Or.inl rfl

/-! ## Events -/

theorem traffic_emit_event (m : AgpsStateMachine) (e : RsrcStatus) :
    (m.emit [.event e]).traffic = m.traffic ++ [.event e] := by
  simp [traffic,emit,Entry.traffic]

@[simp] theorem emit_mState (l : List Entry) : (m.emit l).mState = m.mState := rfl

theorem moves_ignored {e : RsrcStatus} (hp : Phase m)
    (h : Move m.mState [.event e] m.mState) : MovesBy m [.event e] (m.emit [.event e]) :=
  ⟨hp.of_eq rfl rfl,traffic_emit_event m e,h⟩

/-- A broadcast to all that deletes leaves nobody. -/
theorem moves_notifyAll {e : RsrcStatus} (he : e.known)
    (h : Move m.mState [.event e] .released) :
    MovesBy m [.event e] { (m.emit [.event e]).notifySubscribers v.freed ⟨.group .all,e,true⟩ with
      mState := .released } := by
  refine ⟨phase_released ?_,?_,h⟩
  · rw [notifyGroup_mSubscribers he]
    simp [Subscriber.forMe]
  · exact (notifySubscribers_traffic he).trans (traffic_emit_event m e)

theorem moves_close {e : RsrcStatus} (hk : m.kind ≠ .ds) (hq : m.mState = .releasing)
    (he : e = .released ∨ e = .denied) :
    ∃ rest, MovesBy m (.event e::rest)
      (let m' := (m.emit [.event e]).notifySubscribers v.freed ⟨.group .inactive,e,true⟩
      if m'.hasActiveSubscribers then
        { (m'.sendRsrcRequest v .requestDataConn).2 with mState := .pending }
      else { m' with mState := .released }) := by
  have hkn : e.known := by rcases he with rfl | rfl <;> rfl
  have ht : ((m.emit [.event e]).notifySubscribers v.freed ⟨.group .inactive,e,true⟩).traffic =
      m.traffic ++ [.event e] :=
    (notifySubscribers_traffic hkn).trans (traffic_emit_event m e)
  have hkind : ((m.emit [.event e]).notifySubscribers v.freed ⟨.group .inactive,e,true⟩).kind ≠ .ds := by
    rwa [notifySubscribers_kind hkn]
  simp only
  split_ifs with ha
  · have hsend := sendRsrcRequest_traffic (v:=v) hkind .requestDataConn ha
    refine ⟨[.sent .requestDataConn],phase_pending ?_,?_,?_⟩
    · rw [sendRsrcRequest_mSubscribers]
      exact hasActiveSubscribers_iff.mp ha
    · exact hsend.trans (by rw [ht,List.append_assoc]; rfl)
    · rw [hq]
      exact .again he
  · refine ⟨[],phase_released ?_,ht,?_⟩
    · rw [hasActiveSubscribers_iff] at ha
      rw [List.eq_nil_iff_forall_not_mem]
      intro s hs
      apply ha
      refine ⟨s,hs,?_⟩
      rw [notifyGroup_mSubscribers hkn] at hs
      simpa [Subscriber.forMe] using (List.mem_filter.mp hs).2
    · rw [hq]
      exact .closed he

/-- The three events of the connectivity service. -/
theorem moves_event (hp : Phase m) (hk : m.kind ≠ .ds) {e : RsrcStatus}
    (he : e = .granted ∨ e = .released ∨ e = .denied) :
    ∃ rest, MovesBy m (.event e::rest) (m.onRsrcEvent v e) := by
  rcases he with rfl | rfl | rfl
  · simp only [onRsrcEvent,stateOnRsrcEvent,emit_mState]
    cases hq : m.mState with
    | released => exact ⟨[],moves_ignored hp (.ignored (Or.inl hq))⟩
    | pending =>
      refine ⟨[],phase_acquired ?_,?_,?_⟩
      · rw [notifyGroup_mSubscribers rfl]
        exact hp.active (Or.inl hq)
      · exact (notifySubscribers_traffic rfl).trans (traffic_emit_event m _)
      · rw [hq]
        exact .granted
    | acquired => exact ⟨[],moves_ignored (e:=.granted) hp (.ignored (by simp [hq]))⟩
    | releasing => exact ⟨[],moves_ignored (e:=.granted) hp (.ignored (by simp [hq]))⟩
  · have hnds : ∀ q : AgpsState, ¬ (m.kind = .ds ∧ q = m.mState) := fun q h => hk h.1
    simp only [onRsrcEvent,hnds,if_false,stateOnRsrcEvent,emit_mState]
    cases hq : m.mState with
    | released => exact ⟨[],moves_ignored hp (.ignored (Or.inl hq))⟩
    | pending => exact ⟨[],moves_ignored (e:=.released) hp (.ignored (by simp [hq]))⟩
    | acquired => exact ⟨[],moves_notifyAll rfl (by rw [hq]; exact .forced)⟩
    | releasing => exact moves_close hk hq (Or.inl rfl)
  · simp only [onRsrcEvent,stateOnRsrcEvent,emit_mState]
    cases hq : m.mState with
    | released => exact ⟨[],moves_ignored hp (.ignored (Or.inl hq))⟩
    | pending => exact ⟨[],moves_notifyAll rfl (by rw [hq]; exact .denied)⟩
    | acquired => exact ⟨[],moves_ignored (e:=.denied) hp (.ignored (by simp [hq]))⟩
    | releasing => exact moves_close hk hq (Or.inr rfl)

theorem moves_onRsrcEvent (hp : Phase m) (hk : m.kind ≠ .ds) (e : RsrcStatus) :
    ∃ t, MovesBy m t (m.onRsrcEvent v e) := by
  have hev (he : e = .granted ∨ e = .released ∨ e = .denied) :
      ∃ t, MovesBy m t (m.onRsrcEvent v e) := by
    obtain ⟨rest,h⟩ := moves_event (v:=v) hp hk he
    exact ⟨_,h⟩
  cases e with
  | granted => exact hev (by simp)
  | denied => exact hev (by simp)
  | released => exact hev (by simp)
  | subscribe => exact ⟨[],moves_quiet hp (Quiet.refl m)⟩
  | unsubscribe => exact ⟨[],moves_quiet hp (Quiet.refl m)⟩
  | max => exact ⟨[],moves_quiet hp (Quiet.refl m)⟩

theorem moves_step {op : Op} (hp : Phase m) (hk : m.kind ≠ .ds) (h : step m op = some m') :
    ∃ t, MovesBy m t m' := by
  rcases step_cases h with ⟨s,v,-,-,rfl⟩ | ⟨s,v,-,-,rfl⟩ | ⟨e,v,-,rfl⟩ | ⟨-,hd,-⟩
  · rcases moves_subscribeRsrc (s:=s) (v:=v) hp hk with h | ⟨-,h⟩ <;> exact ⟨_,h⟩
  · rcases moves_unsubscribeRsrc (s:=s) (v:=v) hp hk with h | h <;> exact ⟨_,h⟩
  · exact moves_onRsrcEvent hp hk e
  · exact absurd hd hk

end AgpsStateMachine

open AgpsStateMachine

/-- A machine of one of the three interfaces, just created. -/
structure IsNew (m : AgpsStateMachine) : Prop where
  mState : m.mState = .released
  mSubscribers : m.mSubscribers = []
  log : m.log = []

theorem IsNew.listed {m : AgpsStateMachine} (h : IsNew m) (P : Kind → Prop) : Listed P m :=
  ⟨by simp [h.mSubscribers],by simp [h.mSubscribers]⟩

theorem IsNew.listed_run {m₀ m : AgpsStateMachine} {ops : List Op} {P : Kind → Prop}
    (h₀ : IsNew m₀) (hops : ∀ op ∈ ops, Brings P op) (h : run step m₀ ops = some m) :
    Listed P m := by
  refine run_invariant (G:=fun _ op => Brings P op ∧ True) ?_ (h₀.listed P)
    ((along_true m₀ ops).and_mem hops) h
  intro m op m' hm hop hs
  exact hm.step hop.1 hs

/-- The machines of the AGPS interfaces. -/
structure Consistent (m : AgpsStateMachine) : Prop where
  kind : m.kind ≠ .ds
  phase : Phase m

theorem consistent_new {m : AgpsStateMachine} (h : IsNew m) (hk : m.kind ≠ .ds) : Consistent m := by
  refine ⟨hk,⟨fun _ => h.mSubscribers,?_,?_⟩⟩
  · simp [h.mState]
  · simp [h.mState]

theorem Consistent.step {m m' : AgpsStateMachine} {op : Op} (h : Consistent m)
    (hs : step m op = some m') : Consistent m' := by
  obtain ⟨t,ht⟩ := moves_step h.phase h.kind hs
  refine ⟨?_,ht.phase⟩
  rw [step_kind hs]
  exact h.kind

/-- In every reachable state of a machine for ATL, BIT and WIFI subscribers the state and the list
of subscribers agree. No subscriber on the list is equal to one that came after it, and with
subscribers of one class no two of them are equal. -/
theorem subscribers_consistent {m₀ m : AgpsStateMachine} {ops : List Op} (h₀ : IsNew m₀)
    (hk : m₀.kind ≠ .ds) (h : run step m₀ ops = some m) :
    (m.mState = .released → m.mSubscribers = []) ∧
    (m.mState = .pending ∨ m.mState = .acquired → ∃ s ∈ m.mSubscribers, s.isInactive = false) ∧
    (m.mState = .releasing → m.mSubscribers ≠ []) ∧
    (m.mSubscribers.Pairwise fun s t => t.equals s = false) ∧
    ∀ k, (∀ op ∈ ops, Brings (· = k) op) →
      m.mSubscribers.Pairwise fun s t => s.equals t = false := by
  have hr : Reachable step m₀ m := ⟨ops,h⟩
  have hc : Consistent m := hr.invariant (consistent_new h₀ hk) fun s a t hs ht => hs.step ht
  refine ⟨hc.phase.released,hc.phase.active,hc.phase.releasing,?_,?_⟩
  · refine (h₀.listed_run (P:=fun _ => True) ?_ h).distinct
    intro op _
    cases op <;> trivial
  · intro k hops
    exact (h₀.listed_run hops h).not_equals

/-- The machine of the Wi-Fi interface, after its client has come and gone. -/
theorem subscribers_consistent_wifi :
    let m₀ : AgpsStateMachine := { mType := 4, mEnforceSingleSubscriber := true }
    let x : Subscriber := .newWifi none none .msapm
    let m := ((m₀.subscribeRsrc {} x).onRsrcEvent {} .granted).unsubscribeRsrc {} x
    (m.mState = .released → m.mSubscribers = []) ∧
    (m.mState = .pending ∨ m.mState = .acquired → ∃ s ∈ m.mSubscribers, s.isInactive = false) ∧
    (m.mState = .releasing → m.mSubscribers ≠ []) ∧
    m.mSubscribers.Pairwise fun s t => s.equals t = false :=
  have h₀ : IsNew { mType := 4, mEnforceSingleSubscriber := true } := ⟨rfl,rfl,rfl⟩
  let ops : List Op := [.subscribeRsrc (.newWifi none none .msapm) {},.onRsrcEvent .granted {},
    .unsubscribeRsrc (.newWifi none none .msapm) {}]
  have hrun : run step { mType := 4, mEnforceSingleSubscriber := true } ops = some _ := rfl
  have h := subscribers_consistent h₀ (by decide) hrun
  ⟨h.1,h.2.1,h.2.2.1,h.2.2.2.2 .wifi (by simp [Brings,ops]; rfl)⟩

end Agps
end Kitakami

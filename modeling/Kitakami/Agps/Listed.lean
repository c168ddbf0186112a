import Kitakami.Agps.Notify
import Kitakami.Base.Runs

/-!
# The list of subscribers

The list of a machine never holds an entry that equals a later one's client:
`addSubscriber` looks for an entry that equals the new subscriber first, deleting
notifications take entries out, and `setInactive` leaves an entry equal to what
it was.
-/

namespace Kitakami
namespace Agps
namespace AgpsStateMachine

variable {m m' : AgpsStateMachine} {s freed : Subscriber} {v : Env}
  {P : Kind → Prop}

/-! ## The operations on the list -/

theorem hasSubscribers_iff : m.hasSubscribers ↔ m.mSubscribers ≠ [] := by
  simp [hasSubscribers]

theorem hasActiveSubscribers_iff :
    m.hasActiveSubscribers ↔ ∃ s ∈ m.mSubscribers, s.isInactive = false := by
  simp [hasActiveSubscribers,search,List.find?_isSome,Subscriber.forMe]

/-- The subscribers are of the classes of `P`, and none that was on the list before another one
equals it. -/
structure Listed (P : Kind → Prop) (m : AgpsStateMachine) : Prop where
  kinds : ∀ s ∈ m.mSubscribers, P s.kind
  distinct : m.mSubscribers.Pairwise fun s t => t.equals s = false

/-- Among subscribers of one class, no two are equal. -/
theorem Listed.not_equals {k : Kind} (h : Listed (· = k) m) :
    m.mSubscribers.Pairwise fun s t => s.equals t = false := by
  refine h.distinct.imp_of_mem ?_
  intro s t hs ht hne
  rwa [Subscriber.equals_comm ((h.kinds s hs).trans (h.kinds t ht).symm)]

theorem Listed.of_sublist (h : Listed P m) (hs : m'.mSubscribers.Sublist m.mSubscribers) :
    Listed P m' :=
  ⟨fun s hm => h.kinds s (hs.subset hm),h.distinct.sublist hs⟩

theorem Listed.of_same (h : Listed P m) (hs : Same m m') : Listed P m' :=
  h.of_sublist (hs.mSubscribers ▸ List.Sublist.refl _)

theorem search_rcver_isSome : (m.search (.rcver s)).isSome ↔ ∃ e ∈ m.mSubscribers, e.equals s := by
  simp [search,List.find?_isSome,Subscriber.forMe]

/-- What `addSubscriber` leaves: the list as it was when an entry equals the
subscriber, else the copy in front of it. -/
theorem addSubscriber_cases (m : AgpsStateMachine) (s : Subscriber) :
    ((∃ e ∈ m.mSubscribers, e.equals s) ∧ m.addSubscriber s = m) ∨
    ((∀ e ∈ m.mSubscribers, e.equals s = false) ∧
      m.addSubscriber s = { m with mSubscribers := s.clone::m.mSubscribers }) := by
  have hiff := search_rcver_isSome (m:=m) (s:=s)
  unfold addSubscriber
  cases hf : m.search (.rcver s) with
  | none =>
    refine Or.inr ⟨?_,rfl⟩
    simpa [hf] using hiff
  | some e =>
    refine Or.inl ⟨?_,rfl⟩
    rw [← hiff,hf]
    rfl

theorem Listed.addSubscriber (h : Listed P m) (hs : P s.kind) : Listed P (m.addSubscriber s) := by
  rcases addSubscriber_cases m s with ⟨-,he⟩ | ⟨hn,he⟩
  · rwa [he]
  · rw [he]
    constructor
    · intro t ht
      rcases List.mem_cons.mp ht with rfl | ht
      · rwa [Subscriber.kind_clone]
      · exact h.kinds t ht
    · refine List.pairwise_cons.mpr ⟨fun t ht => ?_,h.distinct⟩
      rw [Subscriber.equals_clone_right]
      exact hn t ht

@[simp] theorem addSubscriber_mState : (m.addSubscriber s).mState = m.mState := by
  unfold addSubscriber
  split <;> rfl

@[simp] theorem addSubscriber_kind : (m.addSubscriber s).kind = m.kind := by
  unfold addSubscriber
  split <;> rfl

@[simp] theorem addSubscriber_log : (m.addSubscriber s).log = m.log := by
  unfold addSubscriber
  split <;> rfl

theorem addSubscriber_traffic : (m.addSubscriber s).traffic = m.traffic := by
  rw [traffic,addSubscriber_log,traffic]

theorem mem_addSubscriber {t : Subscriber} (ht : t ∈ m.mSubscribers) :
    t ∈ (m.addSubscriber s).mSubscribers := by
  unfold addSubscriber
  split
  · exact List.mem_cons_of_mem _ ht
  · exact ht

theorem mem_replace_cases {l : List Subscriber} {s s' t : Subscriber} (h : t ∈ l.replace s s') :
    t ∈ l ∨ (s ∈ l ∧ t = s') := by
  induction l with
  | nil => cases h
  | cons u l ih =>
    by_cases hu : s = u
    · subst hu
      rw [List.replace_cons_self] at h
      rcases List.mem_cons.mp h with rfl | h
      · exact Or.inr ⟨List.mem_cons_self,rfl⟩
      · exact Or.inl (List.mem_cons_of_mem s h)
    · have hb : (s == u) = false := by simpa using hu
      simp only [List.replace_cons,hb,List.mem_cons] at h
      rcases h with rfl | h
      · exact Or.inl List.mem_cons_self
      · rcases ih h with hl | ⟨hs,he⟩
        · exact Or.inl (List.mem_cons_of_mem u hl)
        · exact Or.inr ⟨List.mem_cons_of_mem u hs,he⟩

theorem mem_replace_of_ne {l : List Subscriber} {s s' t : Subscriber} (h : t ∈ l) (hne : t ≠ s) :
    t ∈ l.replace s s' := by
  induction l with
  | nil => cases h
  | cons u l ih =>
    by_cases hu : s = u
    · subst hu
      rw [List.replace_cons_self]
      exact List.mem_cons_of_mem s' ((List.mem_cons.mp h).resolve_left hne)
    · have hb : (s == u) = false := by simpa using hu
      simp only [List.replace_cons,hb]
      rcases List.mem_cons.mp h with rfl | h
      · exact List.mem_cons_self
      · exact List.mem_cons_of_mem u (ih h)

/-- Replacing an entry keeps what holds between it and the others. -/
theorem pairwise_replace {l : List Subscriber} {R : Subscriber → Subscriber → Prop}
    {s s' : Subscriber} (hl : ∀ t, R s t → R s' t) (hr : ∀ t, R t s → R t s')
    (h : l.Pairwise R) : (l.replace s s').Pairwise R := by
  induction l with
  | nil => exact List.Pairwise.nil
  | cons u l ih =>
    obtain ⟨hu,hrest⟩ := List.pairwise_cons.mp h
    by_cases hsu : s = u
    · subst hsu
      rw [List.replace_cons_self]
      exact List.pairwise_cons.mpr ⟨fun t ht => hl t (hu t ht),hrest⟩
    · have hb : (s == u) = false := by simpa using hsu
      simp only [List.replace_cons,hb]
      refine List.pairwise_cons.mpr ⟨fun t ht => ?_,ih hrest⟩
      rcases mem_replace_cases ht with ht | ⟨hs,rfl⟩
      · exact hu t ht
      · exact hr u (hu s hs)

theorem quiet_setInactive (m : AgpsStateMachine) (s : Subscriber) :
    Quiet { m with mSubscribers := m.mSubscribers.replace s s.setInactive } (m.setInactive s) := by
  unfold setInactive
  cases s with
  | ds id inactive => exact quiet_informStatus _ _ id
  | _ => exact Quiet.refl _

theorem Listed.setInactive (h : Listed P m) (s : Subscriber) : Listed P (m.setInactive s) := by
  refine Listed.of_same ⟨?_,?_⟩ (quiet_setInactive m s).same
  · intro t ht
    rcases mem_replace_cases ht with ht | ⟨hs,rfl⟩
    · exact h.kinds t ht
    · rw [Subscriber.kind_setInactive]
      exact h.kinds s hs
  · refine pairwise_replace ?_ ?_ h.distinct
    · intro t ht
      rwa [Subscriber.equals_setInactive_right]
    · intro t ht
      rwa [Subscriber.equals_setInactive_left]

theorem notifySubscribers_sublist {n : Notification} (hn : n.rsrcStatus.known) :
    (m.notifySubscribers freed n).mSubscribers.Sublist m.mSubscribers := by
  obtain ⟨told,left,heq,hsub⟩ := notifySubscribers_cases m freed hn
  rwa [heq]

@[simp] theorem notifySubscribers_mState {n : Notification} (hn : n.rsrcStatus.known) :
    (m.notifySubscribers freed n).mState = m.mState := by
  obtain ⟨told,left,heq,-⟩ := notifySubscribers_cases m freed hn
  rw [heq]
  exact (quiet_notifyAll told m _).same.mState

@[simp] theorem notifySubscribers_kind {n : Notification} (hn : n.rsrcStatus.known) :
    (m.notifySubscribers freed n).kind = m.kind := by
  obtain ⟨told,left,heq,-⟩ := notifySubscribers_cases m freed hn
  rw [heq]
  exact (quiet_notifyAll told m _).same.kind

theorem notifySubscribers_traffic {n : Notification} (hn : n.rsrcStatus.known) :
    (m.notifySubscribers freed n).traffic = m.traffic := by
  obtain ⟨told,left,heq,-⟩ := notifySubscribers_cases m freed hn
  rw [heq]
  exact (quiet_notifyAll told m _).traffic_eq

theorem Listed.notifySubscribers (h : Listed P m) {n : Notification} (hn : n.rsrcStatus.known) :
    Listed P (m.notifySubscribers freed n) :=
  h.of_sublist (notifySubscribers_sublist hn)

theorem notifySubscribers_mSubscribers {n : Notification} (hn : n.rsrcStatus.known)
    (ho : n.outside m.mSubscribers) :
    (m.notifySubscribers freed n).mSubscribers =
      if n.postNotifyDelete then m.mSubscribers.filter (!·.forMe n.receiver)
      else m.mSubscribers := by
  cases hd : n.postNotifyDelete with
  | false =>
    rw [notifySubscribers_keep hn hd]
    exact (quiet_notifyAll _ m _).same.mSubscribers
  | true =>
    rw [notifySubscribers_delete hn hd ho]
    rfl

/-- A broadcast to a group has no receiver on the list. -/
theorem notifyGroup_mSubscribers {g : Group} {e : RsrcStatus} {d : Bool} (he : e.known) :
    (m.notifySubscribers freed ⟨.group g,e,d⟩).mSubscribers =
      if d then m.mSubscribers.filter (!·.forMe (.group g)) else m.mSubscribers := by
  refine notifySubscribers_mSubscribers (n:=⟨.group g,e,d⟩) he ?_
  rintro t - ⟨⟩

/-! ## The operations on the state -/

theorem same_sendRsrcRequest (m : AgpsStateMachine) (v : Env) (action : Action) :
    Same m (m.sendRsrcRequest v action).2 := by
  have hd : Same m (m.sendDataCallRequest v action).2 := by
    unfold sendDataCallRequest
    simp only
    split_ifs <;> rfl
  have ha : Same m (m.sendAgpsRequest action).2 := by
    unfold sendAgpsRequest
    simp only
    split_ifs <;> rfl
  unfold sendRsrcRequest
  cases m.kind with
  | ds => exact hd
  | agps => exact ha

theorem Listed.unsubscribeEntry (h : Listed P m) (v : Env) (s : Subscriber) :
    Listed P (m.unsubscribeEntry v s) := by
  unfold AgpsStateMachine.unsubscribeEntry
  split_ifs
  · exact h.setInactive s
  · exact h.notifySubscribers rfl

theorem Listed.withState (h : Listed P m) (q : AgpsState) : Listed P { m with mState := q } :=
  ⟨h.kinds,h.distinct⟩

theorem Listed.releaseUnused (h : Listed P m) (v : Env) : Listed P (m.releaseUnused v) := by
  unfold AgpsStateMachine.releaseUnused
  split_ifs
  · exact (h.of_same (same_sendRsrcRequest m v _)).withState _
  · exact (h.of_same (same_sendRsrcRequest m v _)).withState _
  · exact h

theorem Listed.releasedOnRsrcEvent (h : Listed P m) (v : Env) (e : RsrcStatus)
    {data : Option Subscriber} (hd : ∀ s ∈ data, P s.kind) :
    Listed P (m.releasedOnRsrcEvent v e data) := by
  cases data with
  | none => cases e <;> exact h
  | some s =>
    cases e with
    | subscribe =>
      have ha := (h.addSubscriber (hd s rfl)).of_same (same_sendRsrcRequest _ v .requestDataConn)
      simp only [AgpsStateMachine.releasedOnRsrcEvent]
      split_ifs
      · exact ha.withState _
      · exact ha
    | unsubscribe => exact h.of_same (quiet_notifyRsrcStatus m _ _).same
    | granted => exact h
    | released => exact h
    | denied => exact h
    | max => exact h

theorem Listed.pendingOnRsrcEvent (h : Listed P m) (v : Env) (e : RsrcStatus)
    {data : Option Subscriber} (hd : ∀ s ∈ data, P s.kind) :
    Listed P (m.pendingOnRsrcEvent v e data) := by
  have hn (r : Receiver) (e : RsrcStatus) (d : Bool) (he : e.known) (q : AgpsState) :
      Listed P { m.notifySubscribers v.freed ⟨r,e,d⟩ with mState := q } :=
    (h.notifySubscribers he).withState q
  cases e with
  | subscribe =>
    cases data with
    | none => exact h
    | some s => exact h.addSubscriber (hd s rfl)
  | unsubscribe =>
    cases data with
    | none => exact h
    | some s => exact (h.unsubscribeEntry v s).releaseUnused v
  | granted => exact hn _ .granted _ rfl _
  | denied => exact hn _ .denied _ rfl _
  | released => exact h
  | max => exact h

theorem Listed.acquiredOnRsrcEvent (h : Listed P m) (v : Env) (e : RsrcStatus)
    {data : Option Subscriber} (hd : ∀ s ∈ data, P s.kind) :
    Listed P (m.acquiredOnRsrcEvent v e data) := by
  cases e with
  | subscribe =>
    cases data with
    | none => exact h
    | some s =>
      have hq := (quiet_notifyRsrcStatus m s ⟨.rcver s,.granted,false⟩).same
      exact (h.of_same hq).addSubscriber (hd s rfl)
  | unsubscribe =>
    cases data with
    | none => exact h
    | some s => exact (h.unsubscribeEntry v s).releaseUnused v
  | released =>
    exact (h.notifySubscribers (n:=⟨.group .all,.released,true⟩) rfl).withState _
  | granted => exact h
  | denied => exact h
  | max => exact h

theorem Listed.releasingOnRsrcEvent (h : Listed P m) (v : Env) (e : RsrcStatus)
    {data : Option Subscriber} (hd : ∀ s ∈ data, P s.kind) :
    Listed P (m.releasingOnRsrcEvent v e data) := by
  have hclose (e : RsrcStatus) (he : e.known) :
      Listed P (let m' := m.notifySubscribers v.freed ⟨.group .inactive,e,true⟩
        if m'.hasActiveSubscribers then
          { (m'.sendRsrcRequest v .requestDataConn).2 with mState := .pending }
        else { m' with mState := .released }) := by
    have hl : Listed P (m.notifySubscribers v.freed ⟨.group .inactive,e,true⟩) :=
      h.notifySubscribers he
    simp only
    split_ifs
    · exact (hl.of_same (same_sendRsrcRequest _ v _)).withState _
    · exact hl.withState _
  cases e with
  | subscribe =>
    cases data with
    | none => exact h
    | some s => exact h.addSubscriber (hd s rfl)
  | unsubscribe =>
    cases data with
    | none => exact h
    | some s =>
      simp only [AgpsStateMachine.releasingOnRsrcEvent]
      split_ifs
      · exact (h.unsubscribeEntry v s).withState _
      · exact h.unsubscribeEntry v s
  | denied => exact hclose .denied rfl
  | released => exact hclose .released rfl
  | granted => exact h
  | max => exact h

/-- The handlers of all states keep the list free of equal entries. -/
theorem Listed.stateOnRsrcEvent (h : Listed P m) (v : Env) (e : RsrcStatus)
    {data : Option Subscriber} (hd : ∀ s ∈ data, P s.kind) :
    Listed P (m.stateOnRsrcEvent v e data) := by
  unfold AgpsStateMachine.stateOnRsrcEvent
  split
  · exact h.releasedOnRsrcEvent v e hd
  · exact h.pendingOnRsrcEvent v e hd
  · exact h.acquiredOnRsrcEvent v e hd
  · exact h.releasingOnRsrcEvent v e hd

theorem Listed.emit (h : Listed P m) (l : List Entry) : Listed P (m.emit l) := ⟨h.kinds,h.distinct⟩

theorem Listed.kind_of_search {e : Subscriber} (h : Listed P m)
    (he : m.search (.rcver s) = some e) : P e.kind :=
  h.kinds e (List.mem_of_find?_eq_some he)

/-! ## The class of a machine -/

@[simp] theorem setInactive_kind : (m.setInactive s).kind = m.kind :=
  (quiet_setInactive m s).same.kind

@[simp] theorem setInactive_mState : (m.setInactive s).mState = m.mState :=
  (quiet_setInactive m s).same.mState

theorem setInactive_mSubscribers :
    (m.setInactive s).mSubscribers = m.mSubscribers.replace s s.setInactive :=
  (quiet_setInactive m s).same.mSubscribers

theorem setInactive_traffic : (m.setInactive s).traffic = m.traffic :=
  (quiet_setInactive m s).traffic_eq

@[simp] theorem sendRsrcRequest_kind (action : Action) :
    (m.sendRsrcRequest v action).2.kind = m.kind :=
  (same_sendRsrcRequest m v action).kind

@[simp] theorem unsubscribeEntry_kind : (m.unsubscribeEntry v s).kind = m.kind := by
  unfold unsubscribeEntry
  split_ifs
  · exact setInactive_kind
  · exact notifySubscribers_kind rfl

@[simp] theorem unsubscribeEntry_mState : (m.unsubscribeEntry v s).mState = m.mState := by
  unfold unsubscribeEntry
  split_ifs
  · exact setInactive_mState
  · exact notifySubscribers_mState rfl

theorem unsubscribeEntry_traffic : (m.unsubscribeEntry v s).traffic = m.traffic := by
  unfold unsubscribeEntry
  split_ifs
  · exact setInactive_traffic
  · exact notifySubscribers_traffic rfl

@[simp] theorem releaseUnused_kind : (m.releaseUnused v).kind = m.kind := by
  unfold releaseUnused
  split_ifs
  · exact sendRsrcRequest_kind _
  · exact sendRsrcRequest_kind _
  · rfl

theorem stateOnRsrcEvent_kind (e : RsrcStatus) (data : Option Subscriber) :
    (m.stateOnRsrcEvent v e data).kind = m.kind := by
  have hn (n : Notification) (hn : n.rsrcStatus.known) : (m.notifySubscribers v.freed n).kind = m.kind :=
    notifySubscribers_kind hn
  unfold stateOnRsrcEvent
  split
  · cases e <;> cases data <;> try rfl
    · unfold releasedOnRsrcEvent
      simp only
      split_ifs <;> simp
    · exact (quiet_notifyRsrcStatus m _ _).same.kind
  · cases e <;> cases data <;> first
      | rfl
      | exact addSubscriber_kind
      | exact releaseUnused_kind.trans unsubscribeEntry_kind
      | exact hn _ rfl
  · cases e <;> cases data <;> first
      | rfl
      | exact addSubscriber_kind.trans (quiet_notifyRsrcStatus m _ _).same.kind
      | exact releaseUnused_kind.trans unsubscribeEntry_kind
      | exact hn _ rfl
  · have hclose (n : Notification) (hk : n.rsrcStatus.known) :
        (if (m.notifySubscribers v.freed n).hasActiveSubscribers then
            { ((m.notifySubscribers v.freed n).sendRsrcRequest v .requestDataConn).2 with
              mState := .pending }
          else { m.notifySubscribers v.freed n with mState := .released } : AgpsStateMachine).kind =
        m.kind := by
      split_ifs
      · exact (sendRsrcRequest_kind _).trans (hn n hk)
      · exact hn n hk
    have hrest : ∀ s, (if !(m.unsubscribeEntry v s).hasSubscribers then
        { m.unsubscribeEntry v s with mState := .released }
        else m.unsubscribeEntry v s : AgpsStateMachine).kind = m.kind := by
      intro s
      split_ifs
      · exact unsubscribeEntry_kind
      · exact unsubscribeEntry_kind
    cases e <;> cases data <;> first
      | rfl
      | exact addSubscriber_kind
      | exact hrest _
      | exact hclose _ rfl

theorem subscribeRsrc_kind : (m.subscribeRsrc v s).kind = m.kind := by
  unfold subscribeRsrc
  split_ifs
  · exact (quiet_notifyRsrcStatus m s _).same.kind
  · exact stateOnRsrcEvent_kind _ _

theorem unsubscribeRsrc_kind : (m.unsubscribeRsrc v s).kind = m.kind := by
  unfold unsubscribeRsrc
  split
  · exact stateOnRsrcEvent_kind _ _
  · rfl

theorem onRsrcEvent_kind (e : RsrcStatus) : (m.onRsrcEvent v e).kind = m.kind := by
  cases e with
  | granted => exact stateOnRsrcEvent_kind _ _
  | denied => exact stateOnRsrcEvent_kind _ _
  | released =>
    simp only [onRsrcEvent]
    split_ifs
    · exact (stateOnRsrcEvent_kind _ _).trans (stateOnRsrcEvent_kind _ _)
    · exact stateOnRsrcEvent_kind _ _
  | subscribe => rfl
  | unsubscribe => rfl
  | max => rfl

theorem addSubscriber_mSubscribers (m : AgpsStateMachine) (s : Subscriber) :
    (m.addSubscriber s).mSubscribers =
      if (m.mSubscribers.find? (·.equals s)).isSome then m.mSubscribers
      else s.clone::m.mSubscribers := by
  unfold addSubscriber search
  simp only [Subscriber.forMe]
  cases m.mSubscribers.find? (·.equals s) <;> rfl

/-- Whatever the state, a subscription changes the list by `addSubscriber` or,
when a single subscriber is enforced, not at all. -/
theorem subscribeRsrc_mSubscribers (m : AgpsStateMachine) (v : Env) (s : Subscriber) :
    (m.subscribeRsrc v s).mSubscribers =
      if m.mEnforceSingleSubscriber && m.hasSubscribers then m.mSubscribers
      else (m.addSubscriber s).mSubscribers := by
  unfold subscribeRsrc
  split_ifs
  · exact (quiet_notifyRsrcStatus m s _).same.mSubscribers
  unfold stateOnRsrcEvent
  cases m.mState with
  | released =>
    have hs := same_sendRsrcRequest (m.addSubscriber s) v .requestDataConn
    simp only [releasedOnRsrcEvent]
    split_ifs <;> exact hs.mSubscribers
  | pending => rfl
  | acquired =>
    have hn := (quiet_notifyRsrcStatus m s ⟨.rcver s,.granted,false⟩).same
    show ((m.notifyRsrcStatus s _).2.addSubscriber s).mSubscribers = _
    rw [addSubscriber_mSubscribers,hn.mSubscribers,addSubscriber_mSubscribers]
  | releasing => rfl

/-- What one call is. -/
theorem step_cases {op : Op} (h : step m op = some m') :
    (∃ s v, op = .subscribeRsrc s v ∧ m.admits s ∧ m' = m.subscribeRsrc v s) ∨
    (∃ s v, op = .unsubscribeRsrc s v ∧ m.admits s ∧ m' = m.unsubscribeRsrc v s) ∨
    (∃ e v, op = .onRsrcEvent e v ∧ m' = m.onRsrcEvent v e) ∨
    (op = .retryCallback ∧ m.kind = .ds ∧ m' = m.retryCallback) := by
  cases op with
  | subscribeRsrc s v =>
    have hk := Option.ite_none_right_eq_some.mp h
    exact Or.inl ⟨s,v,rfl,hk.1,(Option.some.inj hk.2).symm⟩
  | unsubscribeRsrc s v =>
    have hk := Option.ite_none_right_eq_some.mp h
    exact Or.inr (Or.inl ⟨s,v,rfl,hk.1,(Option.some.inj hk.2).symm⟩)
  | onRsrcEvent e v => exact Or.inr (Or.inr (Or.inl ⟨e,v,rfl,(Option.some.inj h).symm⟩))
  | retryCallback =>
    have hk := Option.ite_none_right_eq_some.mp h
    exact Or.inr (Or.inr (Or.inr ⟨rfl,hk.1,(Option.some.inj hk.2).symm⟩))

theorem step_kind {op : Op} (h : step m op = some m') : m'.kind = m.kind := by
  rcases step_cases h with ⟨s,v,-,-,rfl⟩ | ⟨s,v,-,-,rfl⟩ | ⟨e,v,-,rfl⟩ | ⟨-,-,rfl⟩
  · exact subscribeRsrc_kind
  · exact unsubscribeRsrc_kind
  · exact onRsrcEvent_kind e
  · unfold retryCallback
    split <;> rfl

theorem Listed.onRsrcEvent (h : Listed P m) (v : Env) (e : RsrcStatus) :
    Listed P (m.onRsrcEvent v e) := by
  have he : Listed P ((m.emit [.event e]).stateOnRsrcEvent v e none) :=
    (h.emit [.event e]).stateOnRsrcEvent v e (by simp)
  cases e with
  | granted => exact he
  | denied => exact he
  | released =>
    simp only [AgpsStateMachine.onRsrcEvent]
    split_ifs
    · exact he.stateOnRsrcEvent v .denied (by simp)
    · exact he
  | subscribe => exact h
  | unsubscribe => exact h
  | max => exact h

/-- A subscriber that a call brings in is of a class of `P`. -/
def Brings (P : Kind → Prop) : Op → Prop
  | .subscribeRsrc s _ => P s.kind
  | .unsubscribeRsrc _ _ | .onRsrcEvent _ _ | .retryCallback => True

/-- No call puts a second subscriber on the list that an entry equals. -/
theorem Listed.step {op : Op} (h : Listed P m) (hk : Brings P op)
    (hs : Agps.step m op = some m') : Listed P m' := by
  rcases step_cases hs with ⟨s,v,rfl,-,rfl⟩ | ⟨s,v,-,-,rfl⟩ | ⟨e,v,-,rfl⟩ | ⟨-,-,rfl⟩
  · unfold AgpsStateMachine.subscribeRsrc
    split_ifs
    · exact h.of_same (quiet_notifyRsrcStatus m s _).same
    · refine h.stateOnRsrcEvent v _ ?_
      rintro t ⟨⟩
      exact hk
  · unfold AgpsStateMachine.unsubscribeRsrc
    split
    · rename_i e he
      refine h.stateOnRsrcEvent v _ ?_
      rintro t ⟨⟩
      exact h.kind_of_search he
    · exact h
  · exact h.onRsrcEvent v e
  · unfold AgpsStateMachine.retryCallback
    split
    · exact h.emit _
    · exact h

/-- The classes that a machine admits are those of its subscribers. -/
theorem brings_of_step {op : Op} (h : Agps.step m op = some m') :
    Brings (fun k => k = .atl ∨ (k = .ds ↔ m.kind = .ds)) op := by
  rcases step_cases h with ⟨s,v,rfl,hs,-⟩ | ⟨s,v,rfl,-,-⟩ | ⟨e,v,rfl,-⟩ | ⟨rfl,-,-⟩
  · show s.kind = .atl ∨ (s.kind = .ds ↔ m.kind = .ds)
    unfold admits at hs
    cases hk : s.kind <;> cases hm : m.kind <;> simp [hk,hm] at hs ⊢
  · trivial
  · trivial
  · trivial

end AgpsStateMachine
end Agps
end Kitakami

import Kitakami.Agps.Consistency

/-!
# Subscribing again

An unsubscribed client whose class waits for the close to complete stays on the
list, inactive. `addSubscriber` looks for an equal entry and not for an active
one, so a client that comes back before the close is complete is neither put on
the list nor does the next answer reach it.
-/

namespace Kitakami
namespace Agps

open Runs AgpsStateMachine

/-- Between the two machines, the client of `x` has been told that it has the resource or
will not get it. -/
def Heard (m m' : AgpsStateMachine) (x : Subscriber) : Prop :=
  ∃ status, (status = .granted ∨ status = .denied) ∧
    ∃ c ∈ m.tells status x, .call c ∈ m'.log.drop m.log.length

/-- After its subscription, `x` has its answer and is not on the list as
inactive, or it is on the list as active. -/
def NotSwallowed (m : AgpsStateMachine) (v : Env) (x : Subscriber) : Prop :=
  let m' := m.subscribeRsrc v x
  (Heard m m' x ∧ ¬ ∃ e ∈ m'.mSubscribers, e.equals x ∧ e.isInactive) ∨
    ∃ e ∈ m'.mSubscribers, e.equals x ∧ e.isInactive = false

variable {m m' : AgpsStateMachine} {x : Subscriber} {v : Env}

/-- A refused client is told so. -/
theorem heard_of_refused (h : m.mEnforceSingleSubscriber && m.hasSubscribers) :
    Heard m (m.subscribeRsrc v x) x := by
  have hm : m.subscribeRsrc v x = m.answered x .denied := by
    unfold subscribeRsrc
    rw [if_pos h,notifyRsrcStatus_eq rfl]
    rfl
  have htells : m.tells .denied x ≠ [] := by cases x <;> simp [tells]
  obtain ⟨c,hc⟩ := List.exists_mem_of_ne_nil _ htells
  refine ⟨.denied,Or.inr rfl,c,hc,?_⟩
  rw [hm,answered_eq,List.drop_left]
  exact List.mem_map_of_mem hc

/-- No other entry of the list has the ID of an inactive one. -/
theorem AgpsStateMachine.Listed.eq_of_inactive (hl : Listed (fun k => k = .atl ∨ (k = .ds ↔ m.kind = .ds)) m)
    {a e : Subscriber} (ha : a ∈ m.mSubscribers) (he : e ∈ m.mSubscribers) (hi : e.isInactive)
    (hid : a.id = e.id) : a = e := by
  have hclash : ∀ s ∈ m.mSubscribers, s.id = e.id → s.equals e ∧ e.equals s := by
    intro s hs hse
    have hke := hl.kinds e he
    have hks := hl.kinds s hs
    constructor
    · refine Subscriber.equals_of_id hse fun hbit => ?_
      rw [hse]
      cases e with
      | wifi ssid password senderId inactive => exact senderId.toUInt32_ne
      | ds id inactive =>
        rw [hbit] at hks
        simp_all [Subscriber.kind]
      | _ => cases hi
    · refine Subscriber.equals_of_id hse.symm fun hbit => ?_
      cases e with
      | bit id addr => cases hi
      | _ => cases hbit
  have hboth : m.mSubscribers.Pairwise fun s t =>
      (s = e → t.id ≠ e.id) ∧ (t = e → s.id ≠ e.id) := by
    refine hl.distinct.imp_of_mem ?_
    intro s t hs ht hst
    constructor
    · rintro rfl hid
      simp [(hclash t ht hid).1] at hst
    · rintro rfl hid
      simp [(hclash s hs hid).2] at hst
  have hsym : Std.Symm fun s t : Subscriber => (s = e → t.id ≠ e.id) ∧ (t = e → s.id ≠ e.id) :=
    ⟨fun _ _ h => ⟨h.2,h.1⟩⟩
  by_contra hne
  exact (hboth.forall ha he hne).2 rfl hid

theorem listed_reachable {m₀ : AgpsStateMachine} (h₀ : IsNew m₀) (h : Reachable step m₀ m) :
    Listed (fun k => k = .atl ∨ (k = .ds ↔ m.kind = .ds)) m := by
  let P := fun k => k = Kind.atl ∨ (k = .ds ↔ m₀.kind = .ds)
  have hinv : Listed P m ∧ m.kind = m₀.kind := by
    refine h.invariant (I:=fun m => Listed P m ∧ m.kind = m₀.kind) ⟨h₀.listed P,rfl⟩ ?_
    intro s a t hs ht
    refine ⟨hs.1.step ?_ ht,(step_kind ht).trans hs.2⟩
    have hb := brings_of_step ht
    rwa [hs.2] at hb
  rw [hinv.2]
  exact hinv.1

theorem notSwallowed_of_active (h : ¬ ∃ e ∈ m.mSubscribers, e.equals x ∧ e.isInactive) :
    NotSwallowed m v x := by
  unfold NotSwallowed
  simp only [subscribeRsrc_mSubscribers]
  by_cases hr : m.mEnforceSingleSubscriber && m.hasSubscribers
  · left
    simp only [hr,if_true]
    exact ⟨heard_of_refused hr,h⟩
  · right
    rw [if_neg hr,addSubscriber_mSubscribers]
    split_ifs with hf
    · obtain ⟨e,he⟩ := Option.isSome_iff_exists.mp hf
      have hmem : e ∈ m.mSubscribers := List.mem_of_find?_eq_some he
      have heq : e.equals x := by simpa using List.find?_some he
      refine ⟨e,hmem,heq,?_⟩
      simpa using fun hi => h ⟨e,hmem,heq,hi⟩
    · exact ⟨x.clone,List.mem_cons_self,Subscriber.equals_clone x,Subscriber.isInactive_clone x⟩

theorem swallowed_of_inactive (hl : Listed (fun k => k = .atl ∨ (k = .ds ↔ m.kind = .ds)) m)
    (h : ∃ e ∈ m.mSubscribers, e.equals x ∧ e.isInactive) : ¬ NotSwallowed m v x := by
  obtain ⟨e,he,heq,hi⟩ := h
  have hsame : (m.subscribeRsrc v x).mSubscribers = m.mSubscribers := by
    rw [subscribeRsrc_mSubscribers,addSubscriber_mSubscribers]
    have hf : (m.mSubscribers.find? (·.equals x)).isSome :=
      List.find?_isSome.mpr ⟨e,he,heq⟩
    simp [hf]
  unfold NotSwallowed
  simp only [hsame]
  rintro (⟨-,hno⟩ | ⟨a,ha,haq,hai⟩)
  · exact hno ⟨e,he,heq,hi⟩
  · have hid : a.id = e.id := (Subscriber.id_of_equals haq).trans (Subscriber.id_of_equals heq).symm
    obtain rfl := hl.eq_of_inactive ha he hi hid
    rw [hi] at hai
    cases hai

/-- In every reachable state of a machine, whatever classes of subscribers it has had, a
subscription is not swallowed exactly if no inactive entry on the list equals the subscriber. -/
theorem notSwallowed_iff {m₀ : AgpsStateMachine} (h₀ : IsNew m₀) (h : Reachable step m₀ m)
    (x : Subscriber) (v : Env) :
    NotSwallowed m v x ↔ ¬ ∃ e ∈ m.mSubscribers, e.equals x ∧ e.isInactive := by
  have hl := listed_reachable h₀ h
  constructor
  · intro hn hi
    exact swallowed_of_inactive hl hi hn
  · exact notSwallowed_of_active

/-- The client of an emergency data call. -/
def dsClient : Subscriber := .ds 5 false

/-- The client has had its call and has closed it; the release is under way. -/
def closingMachine : AgpsStateMachine :=
  ((({ kind := .ds } : AgpsStateMachine).subscribeRsrc {} dsClient).onRsrcEvent {}
    .granted).unsubscribeRsrc {} dsClient

theorem reachable_closingMachine : Reachable step { kind := .ds } closingMachine :=
  ⟨[.subscribeRsrc dsClient {},.onRsrcEvent .granted {},.unsubscribeRsrc dsClient {}],rfl⟩

/-- An ATL client comes while the release is under way. -/
theorem notSwallowed_otherClient :
    NotSwallowed closingMachine {} (atlWith 6) ↔
      ¬ ∃ e ∈ closingMachine.mSubscribers,
        e.equals (atlWith 6) ∧ e.isInactive :=
  notSwallowed_iff ⟨rfl,rfl,rfl⟩ reachable_closingMachine _ {}

/-- The same client asks for another call: nobody hears of it. -/
theorem swallowed_dsClient :
    Reachable step { kind := .ds } closingMachine ∧ ¬ NotSwallowed closingMachine {} dsClient := by
  refine ⟨reachable_closingMachine,?_⟩
  rintro (⟨⟨status,-,c,-,hmem⟩,-⟩ | ⟨e,he,-,hact⟩)
  · cases hmem
  · have hm : (closingMachine.subscribeRsrc {} dsClient).mSubscribers = [.ds 5 true] := rfl
    rw [hm] at he
    obtain rfl := List.mem_singleton.mp he
    cases hact

end Agps
end Kitakami

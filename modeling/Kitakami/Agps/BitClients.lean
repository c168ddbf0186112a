import Kitakami.Agps.Consistency

/-!
# BIT clients

A BIT client is known by its interface: the IPv4 address or, without one, the
sixteen bytes of its IPv6 address. The list tells them apart by `equals`, which
compares these bytes as C strings, and which an entry of another class answers by
its own ID. A machine that enforces a single subscriber refuses the second one,
and whoever is left after an entry has been deleted is compared with its memory.
-/

namespace Kitakami
namespace Agps

open Runs

/-- The interface that the addresses of a BIT client identify. -/
def Subscriber.interface : Subscriber → UInt32 × Option (Vector UInt8 16)
  | .bit id addr => (id,if id = inaddrNone then some addr else none)
  | s => (s.id,none)

namespace Subscriber

variable {s t u : Subscriber}

@[simp] theorem interface_clone (s : Subscriber) : s.clone.interface = s.interface := by
  cases s <;> rfl

/-- Two BIT clients of one interface differ at most in an IPv6 address that nobody looks at. -/
theorem eq_or_of_interface (hs : s.kind = .bit) (ht : t.kind = .bit)
    (h : s.interface = t.interface) : s = t ∨ s.id = t.id ∧ s.id ≠ inaddrNone := by
  cases s with
  | bit id addr =>
    cases t with
    | bit id' addr' =>
      simp only [interface,Prod.mk.injEq] at h
      obtain ⟨rfl,ha⟩ := h
      by_cases hn : id = inaddrNone
      · simp only [hn,if_true,Option.some.injEq] at ha
        exact Or.inl (by rw [ha])
      · exact Or.inr ⟨rfl,hn⟩
    | _ => cases ht
  | _ => cases hs

/-- Whoever equals a BIT client equals all clients of its interface. -/
theorem equals_interface_right (hs : s.kind = .bit) (ht : t.kind = .bit)
    (h : s.interface = t.interface) : u.equals s = u.equals t := by
  rcases eq_or_of_interface hs ht h with rfl | ⟨hid,hne⟩
  · rfl
  · have hsame : u.equals s ↔ u.equals t := by
      constructor
      · intro hu
        have hus := id_of_equals hu
        exact equals_of_id (hus.trans hid) fun _ => hus ▸ hne
      · intro hu
        have hut := id_of_equals hu
        exact equals_of_id (hut.trans hid.symm) fun _ => hut ▸ hid ▸ hne
    exact Bool.eq_iff_iff.mpr hsame

theorem equals_interface_left (hs : s.kind = .bit) (ht : t.kind = .bit)
    (h : s.interface = t.interface) : s.equals u = t.equals u := by
  rcases eq_or_of_interface hs ht h with rfl | ⟨hid,hne⟩
  · rfl
  · have hsame : s.equals u ↔ t.equals u := by
      constructor
      · intro hu
        exact equals_of_id (hid.symm.trans (id_of_equals hu)) fun _ => hid ▸ hne
      · intro hu
        exact equals_of_id (hid.trans (id_of_equals hu)) fun _ => hne
    exact Bool.eq_iff_iff.mpr hsame

/-- An ATL or BIT client that does not take a BIT client for itself is not taken for itself by that
one. -/
theorem equals_back (hw : s.waitForCloseComplete = false) (ht : t.kind = .bit)
    (h : s.equals t = false) : t.equals s = false := by
  cases s with
  | bit id addr => rwa [equals_comm ht]
  | atl id adapter mode =>
    have hid : id ≠ t.id := by simpa [equals,Subscriber.id] using h
    by_contra hts
    have heq : t.equals (.atl id adapter mode) := by simpa using hts
    exact hid (id_of_equals heq).symm
  | wifi ssid password senderId inactive => cases hw
  | ds id inactive => cases hw

end Subscriber

namespace AgpsStateMachine

variable {m m' m'' : AgpsStateMachine} {s t u e : Subscriber} {v : Env}

/-- An entry of the list is a BIT client with the interface of `s`. -/
def Subscribed (m : AgpsStateMachine) (s : Subscriber) : Prop :=
  ∃ e ∈ m.mSubscribers, e.kind = .bit ∧ e.interface = s.interface

/-- `s` is not confused with `t`, which is subscribed: after `s` has subscribed both are in the
list, and after it has unsubscribed `t` still is. -/
structure KeptApart (m : AgpsStateMachine) (v : Env) (s t : Subscriber) : Prop where
  subscribed : Subscribed (m.subscribeRsrc v s) s
  other : Subscribed (m.subscribeRsrc v s) t
  remains : Subscribed (m.unsubscribeRsrc v s) t

/-- Nothing stands between `s` and an entry of its own: a second subscriber is allowed, and an entry
that `s` is taken for means that `s` has one. If an entry is deleted when `s` unsubscribes, `t` does
not take what its memory is read as for itself. -/
structure Apart (m : AgpsStateMachine) (v : Env) (s t : Subscriber) : Prop where
  several : m.mEnforceSingleSubscriber = false
  own : (∃ e ∈ m.mSubscribers, e.equals s) → Subscribed m s
  freed : ∀ e, m.search (.rcver s) = some e → e.waitForCloseComplete = false →
    t.equals v.freed = false

/-! ## The list after a call -/

theorem releaseUnused_mSubscribers : (m.releaseUnused v).mSubscribers = m.mSubscribers := by
  unfold releaseUnused
  split_ifs
  · exact sendRsrcRequest_mSubscribers _
  · exact sendRsrcRequest_mSubscribers _
  · rfl

/-- The entry that an unsubscription has found decides about the list. -/
theorem unsubscribeRsrc_found (h : Consistent m) (he : m.search (.rcver s) = some e) :
    (m.unsubscribeRsrc v s).mSubscribers = (m.unsubscribeEntry v e).mSubscribers := by
  have hmem : e ∈ m.mSubscribers := List.mem_of_find?_eq_some he
  unfold unsubscribeRsrc
  simp only [he,stateOnRsrcEvent]
  cases hq : m.mState with
  | released =>
    rw [h.phase.released hq] at hmem
    cases hmem
  | pending => exact releaseUnused_mSubscribers
  | acquired => exact releaseUnused_mSubscribers
  | releasing =>
    simp only [releasingOnRsrcEvent]
    split_ifs <;> rfl

theorem unsubscribeRsrc_notFound (he : m.search (.rcver s) = none) :
    m.unsubscribeRsrc v s = m := by
  unfold unsubscribeRsrc
  rw [he]

/-- Where an entry is deleted, those that are left are compared with its memory. -/
theorem unsubscribeRsrc_deletes (h : Consistent m) (he : m.search (.rcver s) = some e)
    (hw : e.waitForCloseComplete = false) : ∃ pre post, m.mSubscribers = pre ++ e::post ∧
      (m.unsubscribeRsrc v s).mSubscribers =
        (pre.filter (!·.equals e) ++ post).filter (!·.equals v.freed) := by
  obtain ⟨hes,pre,post,hm,hpre⟩ := List.find?_eq_some_iff_append.mp he
  have hnot : e ∉ pre := by
    intro hp
    have hne := hpre e hp
    rw [hes] at hne
    cases hne
  refine ⟨pre,post,hm,?_⟩
  rw [unsubscribeRsrc_found h he,unsubscribeEntry,if_neg (by simp [hw]),
    notifySubscribers_entry _ (n:=⟨.entry e,.unsubscribe,true⟩) rfl rfl rfl hm hnot]

/-! ## At most one subscriber -/

/-- The configuration is kept and nobody is added. -/
structure Shrinks (m m' : AgpsStateMachine) : Prop where
  single : m'.mEnforceSingleSubscriber = m.mEnforceSingleSubscriber
  length : m'.mSubscribers.length ≤ m.mSubscribers.length

theorem Shrinks.trans (h : Shrinks m m') (h' : Shrinks m' m'') : Shrinks m m'' :=
  ⟨h'.single.trans h.single,h'.length.trans h.length⟩

theorem Shrinks.withState (h : Shrinks m m') (q : AgpsState) :
    Shrinks m { m' with mState := q } := ⟨h.single,h.length⟩

theorem shrinks_of_same (h : Same m m') : Shrinks m m' := by
  refine ⟨?_,?_⟩
  · rw [h]
  · rw [h.mSubscribers]

theorem shrinks_notifySubscribers {freed : Subscriber} {n : Notification}
    (hn : n.rsrcStatus.known) : Shrinks m (m.notifySubscribers freed n) := by
  obtain ⟨told,left,heq,hsub⟩ := notifySubscribers_cases m freed hn
  have hs := shrinks_of_same (quiet_notifyAll told m n.rsrcStatus).same
  rw [heq]
  exact ⟨hs.single,hsub.length_le⟩

theorem shrinks_sendRsrcRequest (action : Action) : Shrinks m (m.sendRsrcRequest v action).2 :=
  shrinks_of_same (same_sendRsrcRequest m v action)

theorem shrinks_unsubscribeEntry : Shrinks m (m.unsubscribeEntry v s) := by
  unfold unsubscribeEntry
  split_ifs
  · have hentry : Shrinks m { m with mSubscribers := m.mSubscribers.replace s s.setInactive } :=
      ⟨rfl,List.length_replace.le⟩
    exact hentry.trans (shrinks_of_same (quiet_setInactive m s).same)
  · exact shrinks_notifySubscribers rfl

theorem shrinks_releaseUnused : Shrinks m (m.releaseUnused v) := by
  unfold releaseUnused
  split_ifs
  · exact (shrinks_sendRsrcRequest _).withState _
  · exact (shrinks_sendRsrcRequest _).withState _
  · exact ⟨rfl,le_refl _⟩

theorem shrinks_stateOnRsrcEvent {e : RsrcStatus} (he : e ≠ .subscribe)
    (data : Option Subscriber) : Shrinks m (m.stateOnRsrcEvent v e data) := by
  have hrefl : Shrinks m m := ⟨rfl,le_refl _⟩
  have huse (s : Subscriber) : Shrinks m ((m.unsubscribeEntry v s).releaseUnused v) :=
    shrinks_unsubscribeEntry.trans shrinks_releaseUnused
  have hall (r : Receiver) (e : RsrcStatus) (d : Bool) (hk : e.known) (q : AgpsState) :
      Shrinks m { m.notifySubscribers v.freed ⟨r,e,d⟩ with mState := q } :=
    (shrinks_notifySubscribers hk).withState q
  have hclose (e : RsrcStatus) (hk : e.known) :
      Shrinks m (let m' := m.notifySubscribers v.freed ⟨.group .inactive,e,true⟩
        if m'.hasActiveSubscribers then
          { (m'.sendRsrcRequest v .requestDataConn).2 with mState := .pending }
        else { m' with mState := .released }) := by
    have hn : Shrinks m (m.notifySubscribers v.freed ⟨.group .inactive,e,true⟩) :=
      shrinks_notifySubscribers hk
    simp only
    split_ifs
    · exact (hn.trans (shrinks_sendRsrcRequest _)).withState _
    · exact hn.withState _
  unfold stateOnRsrcEvent
  cases hq : m.mState with
  | released =>
    cases e <;> cases data <;> first
      | exact hrefl
      | exact absurd rfl he
      | exact shrinks_of_same (quiet_notifyRsrcStatus m _ _).same
  | pending =>
    cases e <;> cases data <;> first
      | exact hrefl
      | exact absurd rfl he
      | exact huse _
      | exact hall _ _ _ rfl _
  | acquired =>
    cases e <;> cases data <;> first
      | exact hrefl
      | exact absurd rfl he
      | exact huse _
      | exact hall _ _ _ rfl _
  | releasing =>
    cases e <;> cases data <;> first
      | exact hrefl
      | exact absurd rfl he
      | exact hclose _ rfl
      | (simp only [releasingOnRsrcEvent]
         split_ifs
         · exact shrinks_unsubscribeEntry.withState _
         · exact shrinks_unsubscribeEntry)

theorem shrinks_onRsrcEvent (hk : m.kind ≠ .ds) (e : RsrcStatus) :
    Shrinks m (m.onRsrcEvent v e) := by
  have hemit : Shrinks m (m.emit [.event e]) := ⟨rfl,le_refl _⟩
  have hev (he : e ≠ .subscribe) : Shrinks m ((m.emit [.event e]).stateOnRsrcEvent v e none) :=
    hemit.trans (shrinks_stateOnRsrcEvent he none)
  cases e with
  | granted => exact hev (by simp)
  | denied => exact hev (by simp)
  | released =>
    simp only [onRsrcEvent,hk,false_and,if_false]
    exact hev (by simp)
  | _ => exact ⟨rfl,le_refl _⟩

theorem shrinks_unsubscribeRsrc : Shrinks m (m.unsubscribeRsrc v s) := by
  unfold unsubscribeRsrc
  split
  · exact shrinks_stateOnRsrcEvent (by simp) _
  · exact ⟨rfl,le_refl _⟩

theorem same_single (h : Same m m') :
    m'.mEnforceSingleSubscriber = m.mEnforceSingleSubscriber :=
  (shrinks_of_same h).single

theorem addSubscriber_single :
    (m.addSubscriber s).mEnforceSingleSubscriber = m.mEnforceSingleSubscriber := by
  unfold addSubscriber
  split <;> rfl

theorem subscribeRsrc_single :
    (m.subscribeRsrc v s).mEnforceSingleSubscriber = m.mEnforceSingleSubscriber := by
  unfold subscribeRsrc
  split_ifs
  · exact same_single (quiet_notifyRsrcStatus m s _).same
  · unfold stateOnRsrcEvent
    cases m.mState with
    | released =>
      have hr := (same_single (same_sendRsrcRequest (m.addSubscriber s) v .requestDataConn)).trans
        addSubscriber_single
      simp only [releasedOnRsrcEvent]
      split_ifs <;> exact hr
    | acquired =>
      exact addSubscriber_single.trans (same_single (quiet_notifyRsrcStatus m s _).same)
    | pending => exact addSubscriber_single
    | releasing => exact addSubscriber_single

/-- A machine that allows one subscriber only has at most one. -/
def Single (m : AgpsStateMachine) : Prop :=
  m.mEnforceSingleSubscriber → m.mSubscribers.length ≤ 1

theorem Single.step {op : Op} (hm : Single m) (h : Consistent m) (hs : step m op = some m') :
    Single m' := by
  have hshrink (h' : Shrinks m m') : Single m' := by
    intro he
    exact h'.length.trans (hm (h'.single ▸ he))
  rcases step_cases hs with ⟨s,v,-,-,rfl⟩ | ⟨s,v,-,-,rfl⟩ | ⟨e,v,-,rfl⟩ | ⟨-,hd,-⟩
  · intro he'
    rw [subscribeRsrc_single] at he'
    rw [subscribeRsrc_mSubscribers]
    split_ifs with he
    · exact hm he'
    · have hnil : m.mSubscribers = [] := by simpa [he',hasSubscribers] using he
      rcases addSubscriber_cases m s with ⟨-,ha⟩ | ⟨-,ha⟩ <;> simp [ha,hnil]
  · exact hshrink shrinks_unsubscribeRsrc
  · exact hshrink (shrinks_onRsrcEvent h.kind e)
  · exact absurd hd h.kind

/-! ## Clients apart -/

/-- An entry that `s` is taken for is not that of another BIT client, if `s` has one as well. -/
theorem Listed.not_taken {P : Kind → Prop} (h : Listed P m) (hs : s.kind = .bit)
    (hsub : Subscribed m s) (hu : u ∈ m.mSubscribers) (hk : u.kind = .bit)
    (hne : u.interface ≠ s.interface) : u.equals s = false := by
  obtain ⟨w,hw,hwk,hws⟩ := hsub
  have hdis : m.mSubscribers.Pairwise fun a b => a.kind = .bit → b.kind = .bit →
      a.equals b = false := by
    refine h.distinct.imp ?_
    intro a b hab ha hb
    rwa [Subscriber.equals_comm (ha.trans hb.symm)]
  have hsym : Std.Symm fun a b : Subscriber => a.kind = .bit → b.kind = .bit →
      a.equals b = false := by
    refine ⟨fun a b hab hb ha => ?_⟩
    rw [Subscriber.equals_comm (hb.trans ha.symm)]
    exact hab ha hb
  have huw : u ≠ w := by
    rintro rfl
    exact hne hws
  rw [← Subscriber.equals_interface_right hwk hs hws]
  exact hdis.forall hu hw huw hk hwk

theorem subscribeRsrc_several (he : m.mEnforceSingleSubscriber = false) :
    (m.subscribeRsrc v s).mSubscribers = (m.addSubscriber s).mSubscribers := by
  simp [subscribeRsrc_mSubscribers,he]

/-- What the conditions give: both have an entry, and that of `t` survives. -/
theorem keptApart_of_apart {P : Kind → Prop} (h : Consistent m) (hl : Listed P m)
    (hs : s.kind = .bit) (ht : t.kind = .bit) (hst : t.interface ≠ s.interface)
    (hsub : Subscribed m t) (ha : Apart m v s t) : KeptApart m v s t := by
  obtain ⟨u,hu,hku,hut⟩ := hsub
  have hus : u.interface ≠ s.interface := hut ▸ hst
  refine ⟨?_,⟨u,?_,hku,hut⟩,⟨u,?_,hku,hut⟩⟩
  · unfold Subscribed
    rw [subscribeRsrc_several ha.several]
    rcases addSubscriber_cases m s with ⟨he,hadd⟩ | ⟨-,hadd⟩
    · rw [hadd]
      exact ha.own he
    · rw [hadd]
      exact ⟨s.clone,List.mem_cons_self,by rw [Subscriber.kind_clone,hs],Subscriber.interface_clone s⟩
  · rw [subscribeRsrc_several ha.several]
    exact mem_addSubscriber hu
  · cases he : m.search (.rcver s) with
    | none => rwa [unsubscribeRsrc_notFound he]
    | some e =>
      have hes : e.equals s := List.find?_some (p:=fun t : Subscriber => t.forMe (.rcver s)) he
      have hmem : e ∈ m.mSubscribers := List.mem_of_find?_eq_some he
      have hue : u ≠ e := by
        rintro rfl
        rw [hl.not_taken hs (ha.own ⟨u,hu,hes⟩) hu hku hus] at hes
        cases hes
      cases hw : e.waitForCloseComplete with
      | true =>
        -- the entry stays and is inactive
        rw [unsubscribeRsrc_found h he,unsubscribeEntry,if_pos hw,setInactive_mSubscribers]
        exact mem_replace_of_ne hu hue
      | false =>
        obtain ⟨pre,post,hm,hleft⟩ := unsubscribeRsrc_deletes (v:=v) h he hw
        rw [hleft]
        have hfreed : u.equals v.freed = false := by
          rw [Subscriber.equals_interface_left hku ht hut]
          exact ha.freed e he hw
        refine List.mem_filter.mpr ⟨?_,by simp [hfreed]⟩
        rw [hm] at hu
        rcases List.mem_append.mp hu with hu | hu
        · have hdis := hl.distinct
          rw [hm] at hdis
          have hback : e.equals u = false :=
            (List.pairwise_append.mp hdis).2.2 u hu e List.mem_cons_self
          have hnot := Subscriber.equals_back hw hku hback
          exact List.mem_append_left _ (List.mem_filter.mpr ⟨hu,by simp [hnot]⟩)
        · exact List.mem_append_right _ ((List.mem_cons.mp hu).resolve_left hue)

theorem apart_of_keptApart (h : Consistent m) (hm : Single m)
    (ht : t.kind = .bit) (hst : t.interface ≠ s.interface) (hsub : Subscribed m t)
    (hkept : KeptApart m v s t) : Apart m v s t := by
  obtain ⟨u,hu,hku,hut⟩ := hsub
  have hseveral : m.mEnforceSingleSubscriber = false := by
    by_contra hsingle
    have hsingle : m.mEnforceSingleSubscriber = true := by simpa using hsingle
    have hhas : m.hasSubscribers := hasSubscribers_iff.mpr (List.ne_nil_of_mem hu)
    obtain ⟨w,hw,-,hws⟩ := hkept.subscribed
    rw [subscribeRsrc_mSubscribers,if_pos (by simp [hsingle,hhas])] at hw
    obtain ⟨x,hx⟩ : ∃ x, m.mSubscribers = [x] := by
      have hlen := hm hsingle
      have hpos := List.length_pos_of_mem hu
      exact List.length_eq_one_iff.mp (by omega)
    rw [hx,List.mem_singleton] at hw hu
    exact hst (by rw [← hut,hu,← hw,hws])
  refine ⟨hseveral,?_,?_⟩
  · intro he
    obtain ⟨w,hw,hwk,hws⟩ := hkept.subscribed
    rw [subscribeRsrc_several hseveral] at hw
    rcases addSubscriber_cases m s with ⟨-,hadd⟩ | ⟨hnone,-⟩
    · rw [hadd] at hw
      exact ⟨w,hw,hwk,hws⟩
    · obtain ⟨e,hmem,hes⟩ := he
      rw [hnone e hmem] at hes
      cases hes
  · intro e he hw
    obtain ⟨pre,post,-,hleft⟩ := unsubscribeRsrc_deletes (v:=v) h he hw
    obtain ⟨w,hmem,hwk,hwt⟩ := hkept.remains
    rw [hleft] at hmem
    rw [← Subscriber.equals_interface_left hwk ht hwt]
    simpa using (List.mem_filter.mp hmem).2

end AgpsStateMachine

open AgpsStateMachine

/-- Two BIT clients of different interfaces, one of them subscribed, are kept apart exactly if
several subscribers are allowed, the other one is not taken for an entry that is not its own, and
the memory of an entry that it deletes is not taken for the first. -/
theorem keptApart_iff {m₀ m : AgpsStateMachine} {s t : Subscriber} (h₀ : IsNew m₀)
    (hk : m₀.kind = .agps) (h : Reachable step m₀ m) (hs : s.kind = .bit) (ht : t.kind = .bit)
    (hst : t.interface ≠ s.interface) (hsub : Subscribed m t) (v : Env) :
    KeptApart m v s t ↔ Apart m v s t := by
  have hds : m₀.kind ≠ .ds := by
    rw [hk]
    decide
  have hnew : Consistent m₀ ∧ Single m₀ :=
    ⟨consistent_new h₀ hds,by simp [Single,h₀.mSubscribers]⟩
  have hinv : Consistent m ∧ Single m :=
    h.invariant (I:=fun m => Consistent m ∧ Single m) hnew fun m op m' hm hs =>
      ⟨hm.1.step hs,hm.2.step hm.1 hs⟩
  have hl : Listed (fun _ => True) m := by
    obtain ⟨ops,hops⟩ := h
    refine h₀.listed_run ?_ hops
    intro op _
    cases op <;> trivial
  exact ⟨apart_of_keptApart hinv.1 hinv.2 ht hst hsub,
    keptApart_of_apart hinv.1 hl hs ht hst hsub⟩

/-- The client with the link-local address `fe80::n`. -/
def linkLocal (n : UInt8) : Subscriber :=
  .bit inaddrNone #v[0xfe,0x80,0,0,0,0,0,0,0,0,0,0,0,0,0,n]

/-- The machine of the internet interface. -/
def internetNif : AgpsStateMachine := { mType := 3 }

/-- A client with an IPv4 address joins `fe80::1` and leaves it alone. -/
theorem keptApart_iff_ipv4 :
    let m := internetNif.subscribeRsrc {} (linkLocal 1)
    KeptApart m {} ipv4Client (linkLocal 1) ∧
      (KeptApart m {} ipv4Client (linkLocal 1) ↔ Apart m {} ipv4Client (linkLocal 1)) := by
  have hm : (internetNif.subscribeRsrc {} (linkLocal 1)).mSubscribers = [linkLocal 1] := by
    decide +kernel
  have hnew : IsNew internetNif := ⟨rfl,rfl,rfl⟩
  have hiff := keptApart_iff (s:=ipv4Client) (t:=linkLocal 1) hnew rfl
    ⟨[.subscribeRsrc (linkLocal 1) {}],rfl⟩ rfl rfl (by decide)
    ⟨linkLocal 1,by rw [hm]; exact List.mem_singleton_self _,rfl,rfl⟩ {}
  refine ⟨hiff.mpr ⟨rfl,?_,?_⟩,hiff⟩
  · rw [hm]
    rintro ⟨e,he,hes⟩
    obtain rfl := List.mem_singleton.mp he
    cases hes
  · unfold search
    rw [hm]
    intro e he
    cases he

/-- `fe80::2` is taken for `fe80::1`. -/
theorem not_keptApart_linkLocal :
    ¬ ∀ m, Reachable step internetNif m → ∀ s t : Subscriber, s.kind = .bit → t.kind = .bit →
      t.interface ≠ s.interface → Subscribed m t → ∀ v, KeptApart m v s t := by
  intro h
  have hone : (internetNif.subscribeRsrc {} (linkLocal 1)).mSubscribers = [linkLocal 1] := by
    decide +kernel
  have htwo : ((internetNif.subscribeRsrc {} (linkLocal 1)).subscribeRsrc {}
      (linkLocal 2)).mSubscribers = [linkLocal 1] := by
    decide +kernel
  have hne : (linkLocal 1).interface ≠ (linkLocal 2).interface := by decide
  have hkept := h _ ⟨[.subscribeRsrc (linkLocal 1) {}],rfl⟩ (linkLocal 2) (linkLocal 1) rfl rfl hne
    ⟨linkLocal 1,by rw [hone]; exact List.mem_singleton_self _,rfl,rfl⟩ {}
  obtain ⟨e,he,-,hes⟩ := hkept.subscribed
  rw [htwo,List.mem_singleton] at he
  rw [he] at hes
  exact hne hes

end Agps
end Kitakami

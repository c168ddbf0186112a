import Kitakami.Agps.Consistency

/-!
# The machine and the connectivity service

An `AgpsStateMachine` with ATL and BIT clients, which do not wait for the close, connected by
two FIFO channels to a connectivity service that answers the requests in order:
a request with GRANTED or DENIED, a release with RELEASED. Neither requests nor
answers carry an identifier. As long as no request goes out while an earlier
one is on its way or its answer is, the service and the machine agree on the
connection whenever the channels are empty.
-/

namespace Kitakami
namespace Agps

open Runs AgpsStateMachine

structure Link where
  m : AgpsStateMachine
  requests : List Action := []
  answers : List RsrcStatus := []
  holds : Bool := false
  deriving DecidableEq

def Traffic.action : Traffic → Option Action
  | .sent a => some a
  | .event _ => none

/-- What the machine has sent since it was `m`. -/
def newRequests (m m' : AgpsStateMachine) : List Action :=
  (m'.traffic.drop m.traffic.length).filterMap Traffic.action

/-- A client's call, a step of the service, or the arrival of an answer. -/
inductive LinkOp
  | subscribe (s : Subscriber) (v : Env)
  | unsubscribe (s : Subscriber) (v : Env)
  | serve (grant : Bool)
  | deliver
  deriving DecidableEq

/-- The machine has made a call and its new requests are under way. -/
def Link.becomes (x : Link) (m : AgpsStateMachine) : Link :=
  { x with m := m, requests := x.requests ++ newRequests x.m m }

def linkStep (x : Link) : LinkOp → Option Link
  | .subscribe s v =>
    if s.waitForCloseComplete then none else (step x.m (.subscribeRsrc s v)).map x.becomes
  | .unsubscribe s v =>
    if s.waitForCloseComplete then none else (step x.m (.unsubscribeRsrc s v)).map x.becomes
  | .serve grant =>
    match x.requests with
    | [] => none
    | .requestDataConn::rest =>
      if grant then
        some { x with requests := rest, answers := x.answers ++ [.granted], holds := true }
      else some { x with requests := rest, answers := x.answers ++ [.denied] }
    | .releaseDataConn::rest =>
      some { x with requests := rest, answers := x.answers ++ [.released], holds := false }
  | .deliver =>
    match x.answers with
    | [] => none
    | e::rest => some ({ x with answers := rest }.becomes (x.m.onRsrcEvent {} e))

/-- No subscription finds the machine in Released while an earlier request, or
the answer to one, is on its way. -/
def OneAtATime (x : Link) : LinkOp → Prop
  | .subscribe _ _ => x.m.mState = .released →
      .requestDataConn ∉ x.requests ∧ .granted ∉ x.answers ∧ .denied ∉ x.answers
  | _ => True

instance (x : Link) : ∀ op, Decidable (OneAtATime x op)
  | .subscribe _ _ => inferInstanceAs (Decidable (_ → _))
  | .unsubscribe _ _ => isTrue trivial
  | .serve _ => isTrue trivial
  | .deliver => isTrue trivial

/-- The channels and the service in each state of the machine. -/
inductive Settled : AgpsState → List Action → List RsrcStatus → Bool → Prop
  | idle (as : List RsrcStatus) : Settled .released [] as false
  | givingUp (rs : List Action) (as : List RsrcStatus) (b : Bool) :
      Settled .released (rs ++ [.releaseDataConn]) as b
  | asked {rs : List Action} {as : List RsrcStatus} {b : Bool}
      (hrs : ∀ r ∈ rs, r = .releaseDataConn) (has : ∀ e ∈ as, e = .released)
      (hb : rs = [] → b = false) : Settled .pending (rs ++ [.requestDataConn]) as b
  | granting {as : List RsrcStatus} (has : ∀ e ∈ as, e = .released) :
      Settled .pending [] (as ++ [.granted]) true
  | denying {as : List RsrcStatus} (has : ∀ e ∈ as, e = .released) :
      Settled .pending [] (as ++ [.denied]) false
  | holding : Settled .acquired [] [] true

/-- The clients are of classes that do not wait for the close. -/
def NonWaiting (k : Kind) : Prop := k = .atl ∨ k = .bit

structure Link.Inv (x : Link) : Prop where
  consistent : Consistent x.m
  listed : Listed NonWaiting x.m
  answers : ∀ e ∈ x.answers, e = .granted ∨ e = .released ∨ e = .denied
  settled : Settled x.m.mState x.requests x.answers x.holds

theorem newRequests_of_moves {m m' : AgpsStateMachine} {t : List Traffic} (h : MovesBy m t m') :
    newRequests m m' = t.filterMap Traffic.action := by
  rw [newRequests,h.traffic,List.drop_left]

theorem nonWaiting_iff {s : Subscriber} : NonWaiting s.kind ↔ s.waitForCloseComplete = false := by
  cases s <;> simp [NonWaiting,Subscriber.kind,Subscriber.waitForCloseComplete]

/-- Clients that do not wait never bring the machine into Releasing. -/
theorem not_releasing {m : AgpsStateMachine} {s : Subscriber} {v : Env}
    (hq : m.mState ≠ .releasing) (h : Listed NonWaiting (m.unsubscribeRsrc v s)) :
    (m.unsubscribeRsrc v s).mState ≠ .releasing := by
  intro hr
  obtain ⟨t,ht,hi⟩ := (releasing_of_unsubscribeRsrc hr).resolve_left hq
  have hw := nonWaiting_iff.mp (h.kinds t ht)
  simp [Subscriber.waits_of_isInactive hi] at hw

/-- A call that sends nothing leaves the machine in its state, but for Releasing. -/
theorem move_nil {q q' : AgpsState} (h : Move q [] q') (hq : q ≠ .releasing) : q' = q := by
  cases h with
  | stay => rfl
  | emptied => exact absurd rfl hq

theorem move_request {q q' : AgpsState} (h : Move q [.sent .requestDataConn] q') :
    q = .released ∧ q' = .pending := by
  cases h
  exact ⟨rfl,rfl⟩

theorem move_release {q q' : AgpsState} (h : Move q [.sent .releaseDataConn] q') :
    q' = .released ∨ q' = .releasing := by
  cases h
  assumption

theorem Settled.ne_releasing {q : AgpsState} {rs : List Action} {as : List RsrcStatus} {b : Bool}
    (h : Settled q rs as b) : q ≠ .releasing := by
  cases h <;> simp

theorem Settled.ask {rs : List Action} {as : List RsrcStatus} {b : Bool}
    (h : Settled .released rs as b) (hrs : .requestDataConn ∉ rs)
    (has : ∀ e ∈ as, e = .granted ∨ e = .released ∨ e = .denied)
    (hg : .granted ∉ as) (hd : .denied ∉ as) :
    Settled .pending (rs ++ [.requestDataConn]) as b := by
  refine .asked ?_ ?_ ?_
  · intro r hr
    cases r with
    | requestDataConn => exact absurd hr hrs
    | releaseDataConn => rfl
  · intro e he
    rcases has e he with rfl | rfl | rfl
    · exact absurd he hg
    · rfl
    · exact absurd he hd
  · intro hnil
    cases h with
    | idle => rfl
    | givingUp rs => simp at hnil

/-- The service takes the oldest request. -/
theorem Settled.serveRequest {q : AgpsState} {rs : List Action} {as : List RsrcStatus} {b : Bool}
    (h : Settled q (.requestDataConn::rs) as b) :
    Settled q rs (as ++ [.granted]) true ∧ Settled q rs (as ++ [.denied]) b := by
  generalize hl : Action.requestDataConn::rs = l at h
  cases h with
  | idle => cases hl
  | givingUp r =>
    cases r with
    | nil => cases hl
    | cons a r =>
      obtain ⟨-,rfl⟩ := List.cons.inj hl
      exact ⟨.givingUp r _ _,.givingUp r _ _⟩
  | asked hrs has hb =>
    rename_i r
    cases r with
    | nil =>
      obtain ⟨-,rfl⟩ := List.cons.inj hl
      rw [hb rfl]
      exact ⟨.granting has,.denying has⟩
    | cons a r =>
      obtain ⟨ha,-⟩ := List.cons.inj hl
      rw [hrs a List.mem_cons_self] at ha
      cases ha
  | granting => cases hl
  | denying => cases hl
  | holding => cases hl

theorem Settled.serveRelease {q : AgpsState} {rs : List Action} {as : List RsrcStatus} {b : Bool}
    (h : Settled q (.releaseDataConn::rs) as b) : Settled q rs (as ++ [.released]) false := by
  generalize hl : Action.releaseDataConn::rs = l at h
  cases h with
  | idle => cases hl
  | givingUp r =>
    cases r with
    | nil =>
      obtain ⟨-,rfl⟩ := List.cons.inj hl
      exact .idle _
    | cons a r =>
      obtain ⟨-,rfl⟩ := List.cons.inj hl
      exact .givingUp r _ _
  | asked hrs has hb =>
    rename_i r
    cases r with
    | nil => cases hl
    | cons a r =>
      obtain ⟨-,rfl⟩ := List.cons.inj hl
      refine .asked (fun c hc => hrs c (List.mem_cons_of_mem a hc)) ?_ fun _ => rfl
      intro e he
      rcases List.mem_append.mp he with he | he
      · exact has e he
      · exact List.mem_singleton.mp he
  | granting => cases hl
  | denying => cases hl
  | holding => cases hl

/-- The machine takes the oldest answer; it sends nothing, since it does not
wait in Releasing. -/
theorem Settled.deliver {q q' : AgpsState} {rs : List Action} {e : RsrcStatus}
    {as : List RsrcStatus} {b : Bool} {t : List Traffic} (h : Settled q rs (e::as) b)
    (hm : Move q (.event e::t) q') : t = [] ∧ Settled q' rs as b := by
  generalize hl : e::as = l at h
  cases h with
  | idle =>
    cases hm
    exact ⟨rfl,.idle as⟩
  | givingUp r =>
    cases hm
    exact ⟨rfl,.givingUp r as b⟩
  | asked hrs has hb =>
    obtain rfl : e = .released := has e (by simp [← hl])
    cases hm with
    | ignored _ => exact ⟨rfl,.asked hrs (fun c hc => has c (by simp [← hl,hc])) hb⟩
  | granting has =>
    rename_i ps
    cases ps with
    | nil =>
      obtain ⟨rfl,rfl⟩ := List.cons.inj hl
      cases hm with
      | granted => exact ⟨rfl,.holding⟩
      | ignored hi => simp at hi
    | cons p ps =>
      obtain ⟨rfl,rfl⟩ := List.cons.inj hl
      obtain rfl : e = .released := has e List.mem_cons_self
      cases hm with
      | ignored _ => exact ⟨rfl,.granting fun c hc => has c (List.mem_cons_of_mem _ hc)⟩
  | denying has =>
    rename_i ps
    cases ps with
    | nil =>
      obtain ⟨rfl,rfl⟩ := List.cons.inj hl
      cases hm with
      | denied => exact ⟨rfl,.idle []⟩
      | ignored hi => simp at hi
    | cons p ps =>
      obtain ⟨rfl,rfl⟩ := List.cons.inj hl
      obtain rfl : e = .released := has e List.mem_cons_self
      cases hm with
      | ignored _ => exact ⟨rfl,.denying fun c hc => has c (List.mem_cons_of_mem _ hc)⟩
  | holding => cases hl

theorem Link.Inv.subscribe {x y : Link} {s : Subscriber} {v : Env} (h : x.Inv)
    (hg : OneAtATime x (.subscribe s v)) (hs : linkStep x (.subscribe s v) = some y) : y.Inv := by
  obtain ⟨hc,hl,has,hset⟩ := h
  obtain ⟨hw,hs⟩ := Option.ite_none_left_eq_some.mp hs
  obtain ⟨m,hm,rfl⟩ := Option.map_eq_some_iff.mp hs
  have hk : NonWaiting s.kind := nonWaiting_iff.mpr (by simpa using hw)
  refine ⟨hc.step hm,hl.step (show Brings NonWaiting (.subscribeRsrc s v) from hk) hm,has,?_⟩
  obtain ⟨-,he⟩ := Option.ite_none_right_eq_some.mp hm
  obtain rfl := Option.some.inj he
  show Settled (x.m.subscribeRsrc v s).mState (x.requests ++ newRequests x.m _) x.answers x.holds
  rcases moves_subscribeRsrc (s:=s) (v:=v) hc.phase hc.kind with hmv | ⟨hq,hmv⟩
  · rw [newRequests_of_moves hmv,move_nil hmv.move hset.ne_releasing,List.filterMap_nil,
      List.append_nil]
    exact hset
  · obtain ⟨hr,hgr,hd⟩ := hg hq
    rw [newRequests_of_moves hmv,(move_request hmv.move).2]
    rw [hq] at hset
    exact hset.ask hr has hgr hd

theorem Link.Inv.unsubscribe {x y : Link} {s : Subscriber} {v : Env} (h : x.Inv)
    (hs : linkStep x (.unsubscribe s v) = some y) : y.Inv := by
  obtain ⟨hc,hl,has,hset⟩ := h
  obtain ⟨-,hs⟩ := Option.ite_none_left_eq_some.mp hs
  obtain ⟨m,hm,rfl⟩ := Option.map_eq_some_iff.mp hs
  have hb : Brings NonWaiting (.unsubscribeRsrc s v) := trivial
  have hl' : Listed NonWaiting m := hl.step hb hm
  refine ⟨hc.step hm,hl',has,?_⟩
  obtain ⟨-,he⟩ := Option.ite_none_right_eq_some.mp hm
  obtain rfl := Option.some.inj he
  show Settled (x.m.unsubscribeRsrc v s).mState (x.requests ++ newRequests x.m _) x.answers
    x.holds
  rcases moves_unsubscribeRsrc (s:=s) (v:=v) hc.phase hc.kind with hmv | hmv
  · rw [newRequests_of_moves hmv,move_nil hmv.move hset.ne_releasing,List.filterMap_nil,
      List.append_nil]
    exact hset
  · have hq := (move_release hmv.move).resolve_right (not_releasing hset.ne_releasing hl')
    rw [newRequests_of_moves hmv,hq]
    exact .givingUp _ _ _

theorem Link.Inv.serve {x y : Link} {grant : Bool} (h : x.Inv)
    (hs : linkStep x (.serve grant) = some y) : y.Inv := by
  obtain ⟨hc,hl,has,hset⟩ := h
  unfold linkStep at hs
  cases hr : x.requests with
  | nil => simp [hr] at hs
  | cons r rest =>
    rw [hr] at hset
    cases r with
    | requestDataConn =>
      simp only [hr] at hs
      split_ifs at hs
      · obtain rfl := Option.some.inj hs
        refine ⟨hc,hl,?_,hset.serveRequest.1⟩
        simpa [or_imp,forall_and] using has
      · obtain rfl := Option.some.inj hs
        refine ⟨hc,hl,?_,hset.serveRequest.2⟩
        simpa [or_imp,forall_and] using has
    | releaseDataConn =>
      simp only [hr,Option.some.injEq] at hs
      subst hs
      refine ⟨hc,hl,?_,hset.serveRelease⟩
      simpa [or_imp,forall_and] using has

theorem Link.Inv.deliver {x y : Link} (h : x.Inv) (hs : linkStep x .deliver = some y) :
    y.Inv := by
  obtain ⟨hc,hl,has,hset⟩ := h
  unfold linkStep at hs
  cases ha : x.answers with
  | nil => simp [ha] at hs
  | cons e rest =>
    simp only [ha,Option.some.injEq] at hs
    subst hs
    rw [ha] at has hset
    have hm : Agps.step x.m (.onRsrcEvent e {}) = some (x.m.onRsrcEvent {} e) := rfl
    obtain ⟨t,ht⟩ := moves_event (v:={}) hc.phase hc.kind (has e List.mem_cons_self)
    obtain ⟨rfl,hset'⟩ := hset.deliver ht.move
    have hb : Brings NonWaiting (.onRsrcEvent e {}) := trivial
    refine ⟨hc.step hm,hl.step hb hm,
      fun c hcm => has c (List.mem_cons_of_mem e hcm),?_⟩
    show Settled (x.m.onRsrcEvent {} e).mState (x.requests ++ newRequests x.m _) rest x.holds
    rw [newRequests_of_moves ht]
    show Settled (x.m.onRsrcEvent {} e).mState (x.requests ++ []) rest x.holds
    rwa [List.append_nil]

theorem Link.Inv.step {x y : Link} {op : LinkOp} (h : x.Inv) (hg : OneAtATime x op)
    (hs : linkStep x op = some y) : y.Inv := by
  cases op with
  | subscribe s v => exact h.subscribe hg hs
  | unsubscribe s v => exact h.unsubscribe hs
  | serve grant => exact h.serve hs
  | deliver => exact h.deliver hs

/-- In a run whose subscriptions are one at a time, whenever nothing is under
way the service holds the connection exactly if the machine is in Acquired. -/
theorem holds_iff_acquired {m₀ : AgpsStateMachine} {x : Link} {ops : List LinkOp}
    (h₀ : IsNew m₀) (hk : m₀.kind = .agps)
    (hg : Along linkStep OneAtATime { m := m₀ } ops)
    (hrun : run linkStep { m := m₀ } ops = some x)
    (hr : x.requests = []) (ha : x.answers = []) :
    x.holds = true ↔ x.m.mState = .acquired := by
  have hds : m₀.kind ≠ .ds := by
    rintro hd
    simp [hd] at hk
  have hnew : Link.Inv { m := m₀ } := by
    refine ⟨consistent_new h₀ hds,h₀.listed _,by simp,?_⟩
    rw [h₀.mState]
    exact .idle []
  have hinv : x.Inv := run_invariant (fun s a t hs hg ht => hs.step hg ht) hnew hg hrun
  have hset := hinv.settled
  rw [hr,ha] at hset
  generalize hl : ([] : List Action) = rs at hset
  generalize hl' : ([] : List RsrcStatus) = as at hset
  generalize x.m.mState = q at hset
  generalize x.holds = b at hset
  cases hset with
  | idle => simp
  | givingUp r => simp at hl
  | asked => simp at hl
  | granting => simp at hl'
  | denying => simp at hl'
  | holding => simp

/-- The machine of the AGNSS interface. -/
def agnssMachine : AgpsStateMachine := { mType := 3 }

/-- A BIT client comes, an ATL client joins it on the same machine, and both leave the connection
they got. -/
def sharedRun : List LinkOp :=
  [.subscribe ipv4Client {},.serve true,.subscribe (atlWith 1) {},.deliver,.unsubscribe ipv4Client {},
    .unsubscribe (atlWith 1) {},.serve false,.deliver]

theorem holds_iff_acquired_shared :
    ∃ x, run linkStep { m := agnssMachine } sharedRun = some x ∧
      Along linkStep OneAtATime { m := agnssMachine } sharedRun ∧ x.requests = [] ∧ x.answers = [] ∧
      (x.holds = true ↔ x.m.mState = .acquired) := by
  have hg : Along linkStep OneAtATime { m := agnssMachine } sharedRun := by decide +kernel
  refine ⟨{ m := _ },rfl,hg,rfl,rfl,?_⟩
  exact holds_iff_acquired (x:={ m := _ }) ⟨rfl,rfl,rfl⟩ rfl hg rfl rfl rfl

/-- The client comes back before the answer to its first request: the release
of the first cycle ends the second one for the machine, and the second grant
finds it in Released. -/
theorem holds_in_released :
    ∃ x, run linkStep { m := agnssMachine } [.subscribe ipv4Client {},.unsubscribe ipv4Client {},
        .subscribe ipv4Client {},.serve true,.serve false,.serve true,.deliver,.deliver,
        .deliver] = some x ∧
      x.requests = [] ∧ x.answers = [] ∧ ¬ (x.holds = true ↔ x.m.mState = .acquired) := by
  refine ⟨{ m := _, holds := true },rfl,rfl,rfl,?_⟩
  decide

end Agps
end Kitakami

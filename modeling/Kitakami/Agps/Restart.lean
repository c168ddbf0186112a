import Kitakami.Agps.Consistency

/-!
# A modem restart

`loc_eng_handle_engine_up` calls `dropAllSubscribers` on the state machines. The
list is then empty while the state stays what it was, and the answers to the
requests already sent are still to come. `Service` counts these; the machine is
relieved of a connection by an answer only, since it sends no release for a
connection that nobody holds a subscription to.
-/

namespace Kitakami
namespace Agps

open Runs AgpsStateMachine

/-- The answers of the connectivity service to the two requests. -/
def RsrcStatus.answers : RsrcStatus → Option Action
  | .granted | .denied => some .requestDataConn
  | .released => some .releaseDataConn
  | .subscribe | .unsubscribe | .max => none

/-- A machine, and how many of its requests the connectivity service has
answered. -/
structure Service where
  m : AgpsStateMachine
  answered : Action → ℕ := fun _ => 0

def Service.sent (x : Service) (a : Action) : ℕ := x.m.traffic.count (.sent a)

/-- A call of the engine, whose events answer nothing, or the answer to a
request that has none yet. -/
inductive ServiceOp
  | call (op : Op)
  | answer (e : RsrcStatus)

def serviceStep (x : Service) : ServiceOp → Option Service
  | .call op => (step x.m op).map fun m => { x with m := m }
  | .answer e =>
    match e.answers with
    | some a =>
      if x.answered a < x.sent a then
        some ⟨x.m.onRsrcEvent {} e,Function.update x.answered a (x.answered a + 1)⟩
      else none
    | none => none

/-- The answer that an operation brings, if any. -/
def Op.event : Op → Option RsrcStatus
  | .onRsrcEvent e _ => e.answers.map fun _ => e
  | _ => none

def Op.subscribes : Op → Bool
  | .subscribeRsrc _ _ => true
  | _ => false

/-- The events `es` are the answers to all the requests that have none. -/
def Service.AnswersAll (x : Service) (es : List RsrcStatus) : Prop :=
  ∀ a, x.answered a + es.countP (·.answers = some a) = x.sent a

/-- Every granted connection has been given back later. -/
def GivenBack (t : List Traffic) : Prop :=
  ∀ before after, t = before ++ .event .granted::after → .sent .releaseDataConn ∈ after

/-- No connection is stranded. -/
def NotStranded (m : AgpsStateMachine) : Prop := m.mState = .released ∨ GivenBack m.traffic

/-- Answers that relieve a pending machine with an empty list: the first that
it heeds is a denial, or a grant with a release behind it. -/
def RelievesPending : List RsrcStatus → Prop
  | [] => False
  | .denied::_ => True
  | .granted::es => .released ∈ es
  | _::es => RelievesPending es

/-- The answers by which a machine in the given state is relieved of its
connection when its list is empty. -/
def Relieves (es : List RsrcStatus) : AgpsState → Prop
  | .released => True
  | .releasing => True
  | .acquired => .released ∈ es
  | .pending => RelievesPending es

/-! ## What is outstanding -/

theorem GivenBack.left {t u : List Traffic} (h : GivenBack (t ++ u))
    (hu : .sent .releaseDataConn ∉ u) : GivenBack t := by
  intro before after ht
  have hmem := h before (after ++ u) (by rw [ht,List.append_assoc,List.cons_append])
  exact (List.mem_append.mp hmem).resolve_right hu

theorem not_givenBack_granted (t : List Traffic) {u : List Traffic}
    (hu : .sent .releaseDataConn ∉ u) : ¬ GivenBack (t ++ .event .granted::u) :=
  fun h => hu (h t u rfl)

/-- A pending machine waits for the answer to a request, a releasing one for
the answer to a release, and an acquired one has a connection to give back. -/
structure Awaits (q : AgpsState) (t : List Traffic) (answered : Action → ℕ) : Prop where
  le : ∀ a, answered a ≤ t.count (.sent a)
  pending : q = .pending → answered .requestDataConn < t.count (.sent .requestDataConn)
  releasing : q = .releasing → answered .releaseDataConn < t.count (.sent .releaseDataConn)
  acquired : q = .acquired → ¬ GivenBack t

/-- The counts after a move, which may have been the answer to one request. -/
theorem Awaits.move {q q' : AgpsState} {t u : List Traffic} {x y : Action → ℕ}
    (h : Awaits q t x) (hm : Move q u q') (hle : ∀ a, y a ≤ t.count (.sent a))
    (hsame : ∀ a, (∀ e rest, u = .event e::rest → e.answers ≠ some a) → y a = x a) :
    Awaits q' (t ++ u) y := by
  have hle' : ∀ a, y a ≤ (t ++ u).count (.sent a) := by
    intro a
    rw [List.count_append]
    exact Nat.le_add_right_of_le (hle a)
  cases hm with
  | stay =>
    have hxy : y = x := funext fun a => hsame a (by simp)
    rw [List.append_nil,hxy]
    exact h
  | request =>
    refine ⟨hle',?_,by simp,by simp⟩
    intro _
    have := hle .requestDataConn
    simp only [List.count_append,List.count_singleton_self]
    omega
  | release hq hq' =>
    refine ⟨hle',?_,?_,?_⟩
    · rintro rfl
      simp at hq'
    · intro _
      have := hle .releaseDataConn
      simp only [List.count_append,List.count_singleton_self]
      omega
    · rintro rfl
      simp at hq'
  | granted => exact ⟨hle',by simp,by simp,fun _ => not_givenBack_granted t (by simp)⟩
  | denied => exact ⟨hle',by simp,by simp,by simp⟩
  | forced => exact ⟨hle',by simp,by simp,by simp⟩
  | closed he => exact ⟨hle',by simp,by simp,by simp⟩
  | again he =>
    refine ⟨hle',?_,by simp,by simp⟩
    intro _
    have := hle .requestDataConn
    simp only [List.count_append,List.count_cons_self,
      List.count_cons_of_ne (a:=Traffic.sent .requestDataConn) (b:=.event _) (by simp),
      List.count_nil]
    omega
  | emptied => exact ⟨hle',by simp,by simp,by simp⟩
  | ignored hi =>
    rename_i e
    have hcount (a : Action) :
        (t ++ [Traffic.event e]).count (Traffic.sent a) = t.count (Traffic.sent a) := by
      simp [List.count_append]
    refine ⟨hle',?_,?_,?_⟩
    · rintro rfl
      have he : e = .released := by simpa using hi
      rw [hcount,hsame .requestDataConn (by simp [he,RsrcStatus.answers])]
      exact h.pending rfl
    · rintro rfl
      have he : e = .granted := by simpa using hi
      rw [hcount,hsame .releaseDataConn (by simp [he,RsrcStatus.answers])]
      exact h.releasing rfl
    · intro hq hg
      exact h.acquired hq (hg.left (by simp))

/-- What holds of a machine and the service at any time before the restart. -/
structure Service.Inv (x : Service) : Prop where
  consistent : Consistent x.m
  awaits : Awaits x.m.mState x.m.traffic x.answered

theorem answers_cases {e : RsrcStatus} {a : Action} (h : e.answers = some a) :
    e = .granted ∨ e = .released ∨ e = .denied := by
  cases e <;> simp [RsrcStatus.answers] at h ⊢

theorem Service.Inv.step {x y : Service} {op : ServiceOp} (h : x.Inv)
    (hs : serviceStep x op = some y) : y.Inv := by
  obtain ⟨hk,hp⟩ := h.consistent
  cases op with
  | call op =>
    obtain ⟨m,hm,rfl⟩ := Option.map_eq_some_iff.mp hs
    obtain ⟨t,ht⟩ := moves_step hp hk hm
    refine ⟨h.consistent.step hm,?_⟩
    rw [ht.traffic]
    exact h.awaits.move ht.move h.awaits.le fun _ _ => rfl
  | answer e =>
    unfold serviceStep at hs
    cases ha : e.answers with
    | none => simp [ha] at hs
    | some a =>
      simp only [ha] at hs
      obtain ⟨hlt,hy⟩ := Option.ite_none_right_eq_some.mp hs
      obtain rfl := Option.some.inj hy
      obtain ⟨rest,ht⟩ := moves_event (v:={}) hp hk (answers_cases ha)
      have hc : Consistent (x.m.onRsrcEvent {} e) :=
        h.consistent.step (show Agps.step x.m (.onRsrcEvent e {}) = some _ from rfl)
      refine ⟨hc,?_⟩
      show Awaits _ (x.m.onRsrcEvent {} e).traffic _
      rw [ht.traffic]
      refine h.awaits.move ht.move ?_ ?_
      · intro b
        by_cases hb : b = a
        · subst hb
          show Function.update x.answered b (x.answered b + 1) b ≤ _
          rw [Function.update_self]
          exact hlt
        · simpa [hb] using h.awaits.le b
      · intro b hb
        have hne : b ≠ a := by
          rintro rfl
          exact hb e rest rfl ha
        simp [hne]

/-! ## After the restart -/

/-- What an event does to the state when the list is empty. -/
def empties : AgpsState → RsrcStatus → AgpsState
  | .pending, .granted => .acquired
  | .pending, .denied => .released
  | .acquired, .released => .released
  | .releasing, .released => .released
  | .releasing, .denied => .released
  | q, _ => q

/-- With an empty list, an event moves the state and sends nothing. -/
theorem onRsrcEvent_empty {m : AgpsStateMachine} {v : Env} {e : RsrcStatus}
    (hk : m.kind ≠ .ds) (hm : m.mSubscribers = [])
    (he : e = .granted ∨ e = .released ∨ e = .denied) :
    m.onRsrcEvent v e =
      { m with mState := empties m.mState e, log := m.log ++ [.event e] } := by
  have hq : m.mState = .released ∨ m.mState = .pending ∨ m.mState = .acquired ∨
      m.mState = .releasing := by
    cases m.mState <;> simp
  obtain ⟨kind,type,enforce,apn,bearer,q,subs,retries,log⟩ := m
  obtain rfl : subs = [] := hm
  have hnds : ∀ q' : AgpsState, ¬ (kind = .ds ∧ q' = q) := fun q' h => hk h.1
  rcases he with rfl | rfl | rfl
  · rcases hq with h | h | h | h <;> obtain rfl : q = _ := h <;> rfl
  · simp only [onRsrcEvent,hnds,if_false]
    rcases hq with h | h | h | h <;> obtain rfl : q = _ := h <;> rfl
  · rcases hq with h | h | h | h <;> obtain rfl : q = _ := h <;> rfl

/-- What an operation other than a subscription does with an empty list. -/
theorem step_empty {m m' : AgpsStateMachine} {op : Op} (hk : m.kind ≠ .ds)
    (hm : m.mSubscribers = []) (hop : op.subscribes = false) (h : step m op = some m') :
    m' = match op.event with
      | some e => { m with mState := empties m.mState e, log := m.log ++ [.event e] }
      | none => m := by
  rcases step_cases h with ⟨s,v,rfl,-,-⟩ | ⟨s,v,rfl,-,rfl⟩ | ⟨e,v,rfl,rfl⟩ | ⟨-,hd,-⟩
  · cases hop
  · simp [unsubscribeRsrc,search,hm,Op.event]
  · cases e with
    | granted => exact onRsrcEvent_empty hk hm (by simp)
    | released => exact onRsrcEvent_empty hk hm (by simp)
    | denied => exact onRsrcEvent_empty hk hm (by simp)
    | subscribe => rfl
    | unsubscribe => rfl
    | max => rfl
  · exact absurd hd hk

theorem run_empty {m m' : AgpsStateMachine} {ops : List Op} (hk : m.kind ≠ .ds)
    (hm : m.mSubscribers = []) (hops : ∀ op ∈ ops, op.subscribes = false)
    (h : run step m ops = some m') :
    m'.mState = (ops.filterMap Op.event).foldl empties m.mState ∧
    m'.traffic = m.traffic ++ (ops.filterMap Op.event).map .event := by
  induction ops generalizing m with
  | nil =>
    obtain rfl : m = m' := by simpa using h
    simp
  | cons op ops ih =>
    obtain ⟨m₁,h₁,h₂⟩ := run_cons_eq_some.mp h
    have he := step_empty hk hm (hops op List.mem_cons_self) h₁
    have hrest := fun o ho => hops o (List.mem_cons_of_mem op ho)
    cases hev : op.event with
    | none =>
      obtain rfl : m₁ = m := by simpa [hev] using he
      simpa [List.filterMap_cons,hev] using ih hk hm hrest h₂
    | some e =>
      simp only [hev] at he
      have ht : m₁.traffic = m.traffic ++ [.event e] := by
        rw [he]
        simp [traffic,Entry.traffic]
      have hi := ih (m:=m₁) (by rwa [he]) (by rwa [he]) hrest h₂
      rw [List.filterMap_cons_some hev,List.foldl_cons,List.map_cons]
      rw [ht,List.append_assoc] at hi
      simpa [he] using hi

theorem foldl_released (es : List RsrcStatus) : es.foldl empties .released = .released := by
  induction es with
  | nil => rfl
  | cons e es ih => cases e <;> exact ih

theorem foldl_acquired (es : List RsrcStatus) :
    es.foldl empties .acquired = if .released ∈ es then .released else .acquired := by
  induction es with
  | nil => rfl
  | cons e es ih =>
    cases e with
    | released => simpa [empties] using foldl_released es
    | _ => simpa [empties] using ih

theorem foldl_releasing {es : List RsrcStatus} (h : .released ∈ es) :
    es.foldl empties .releasing = .released := by
  induction es with
  | nil => cases h
  | cons e es ih =>
    cases e with
    | released => exact foldl_released es
    | denied => exact foldl_released es
    | _ => exact ih (by simpa using h)

theorem foldl_pending {es : List RsrcStatus} (h : .granted ∈ es ∨ .denied ∈ es) :
    es.foldl empties .pending = .released ∧ RelievesPending es ∨
    es.foldl empties .pending = .acquired ∧ ¬ RelievesPending es := by
  induction es with
  | nil => simp at h
  | cons e es ih =>
    cases e with
    | denied => exact Or.inl ⟨foldl_released es,trivial⟩
    | granted =>
      have hf := foldl_acquired es
      by_cases hr : .released ∈ es
      · exact Or.inl ⟨by simpa [empties,hr] using hf,hr⟩
      · exact Or.inr ⟨by simpa [empties,hr] using hf,hr⟩
    | _ => exact ih (by simpa using h)

/-- A grant among the events that come last, with nothing sent behind it. -/
theorem not_givenBack_events {es : List RsrcStatus} (h : .granted ∈ es) (t : List Traffic) :
    ¬ GivenBack (t ++ es.map .event) := by
  obtain ⟨before,after,rfl⟩ := List.append_of_mem h
  rw [List.map_append,List.map_cons,← List.append_assoc]
  exact not_givenBack_granted _ (by simp)

theorem granted_mem_of_acquired {es : List RsrcStatus} (h : es.foldl empties .pending = .acquired) :
    .granted ∈ es := by
  induction es with
  | nil => cases h
  | cons e es ih =>
    cases e with
    | granted => exact List.mem_cons_self
    | denied =>
      have hr := foldl_released es
      simp [empties,hr] at h
    | _ => exact List.mem_cons_of_mem _ (ih h)

theorem AnswersAll.mem {x : Service} {es : List RsrcStatus} (h : x.AnswersAll es) {a : Action}
    (ha : x.answered a < x.sent a) : ∃ e ∈ es, e.answers = some a := by
  have hpos : 0 < es.countP (·.answers = some a) := by
    have := h a
    omega
  simpa using List.countP_pos_iff.mp hpos

/-- After a restart, once the answers to all the requests have come in, no
connection is stranded exactly if these answers relieve the machine. -/
theorem notStranded_iff {m₀ m' : AgpsStateMachine} {x : Service} {ops : List Op}
    (h₀ : IsNew m₀) (hk : m₀.kind ≠ .ds) (hx : Reachable serviceStep { m := m₀ } x)
    (hops : ∀ op ∈ ops, op.subscribes = false) (hes : x.AnswersAll (ops.filterMap Op.event))
    (hrun : run step x.m.dropAllSubscribers ops = some m') :
    NotStranded m' ↔ Relieves (ops.filterMap Op.event) x.m.mState := by
  have hnew : Service.Inv { m := m₀ } := by
    refine ⟨consistent_new h₀ hk,?_,?_,?_,?_⟩
    · simp
    · simp [h₀.mState]
    · simp [h₀.mState]
    · simp [h₀.mState]
  have hinv : x.Inv := hx.invariant hnew fun s a t hs ht => hs.step ht
  obtain ⟨hc,haw⟩ := hinv
  obtain ⟨hq',ht'⟩ := run_empty (m:=x.m.dropAllSubscribers) hc.kind rfl hops hrun
  have ht : x.m.dropAllSubscribers.traffic = x.m.traffic := rfl
  have hq : x.m.dropAllSubscribers.mState = x.m.mState := rfl
  rw [ht] at ht'
  rw [hq] at hq'
  unfold NotStranded
  rw [ht']
  cases hs : x.m.mState with
  | released =>
    have hr : m'.mState = .released := by rw [hq',hs,foldl_released]
    simp [hr,Relieves]
  | releasing =>
    obtain ⟨e,he,ha⟩ := AnswersAll.mem hes (haw.releasing hs)
    have hmem : .released ∈ ops.filterMap Op.event := by
      cases e <;> simp [RsrcStatus.answers] at ha
      exact he
    have hr : m'.mState = .released := by rw [hq',hs,foldl_releasing hmem]
    simp [hr,Relieves]
  | acquired =>
    have hng : ¬ GivenBack (x.m.traffic ++ (ops.filterMap Op.event).map .event) :=
      fun hg => haw.acquired hs (hg.left (by simp))
    rw [hq',hs,foldl_acquired]
    by_cases hr : .released ∈ ops.filterMap Op.event <;> simp [hr,hng,Relieves]
  | pending =>
    obtain ⟨e,he,ha⟩ := AnswersAll.mem hes (haw.pending hs)
    have hmem : .granted ∈ ops.filterMap Op.event ∨ .denied ∈ ops.filterMap Op.event := by
      cases e <;> simp [RsrcStatus.answers] at ha
      · exact Or.inl he
      · exact Or.inr he
    rw [hq',hs]
    rcases foldl_pending hmem with ⟨hf,hr⟩ | ⟨hf,hr⟩
    · simp [hf,hr,Relieves]
    · have hng := not_givenBack_events (granted_mem_of_acquired hf) x.m.traffic
      simp [hf,hr,hng,Relieves]

/-- The client of the machine of the SUPL interface. -/
def suplClient : Subscriber := atlWith 7

def suplMachine : AgpsStateMachine := { mType := agpsTypeSupl }

/-- The client has the connection when the modem restarts. -/
def grantedService : Service :=
  ⟨(suplMachine.subscribeRsrc {} suplClient).onRsrcEvent {} .granted,
    Function.update (fun _ => 0) .requestDataConn 1⟩

theorem reachable_grantedService : Reachable serviceStep { m := suplMachine } grantedService :=
  ⟨[.call (.subscribeRsrc suplClient {}),.answer .granted],rfl⟩

theorem notStranded_supl :
    NotStranded (grantedService.m.dropAllSubscribers.unsubscribeRsrc {} suplClient) ↔
    Relieves [] grantedService.m.mState :=
  notStranded_iff ⟨rfl,rfl,rfl⟩ (by decide) reachable_grantedService (by simp [Op.subscribes])
    (by intro a; cases a <;> rfl)
    (show run step grantedService.m.dropAllSubscribers [.unsubscribeRsrc suplClient {}] = some _
      from rfl)

/-- The machine stays in Acquired with nobody on its list, and no release is
ever sent. -/
theorem stranded_supl :
    Reachable serviceStep { m := suplMachine } grantedService ∧ grantedService.AnswersAll [] ∧
    run step grantedService.m.dropAllSubscribers [] = some grantedService.m.dropAllSubscribers ∧
    ¬ NotStranded grantedService.m.dropAllSubscribers := by
  refine ⟨reachable_grantedService,?_,rfl,?_⟩
  · intro a
    cases a <;> rfl
  · rintro (h | h)
    · cases h
    · have hmem := h [.sent .requestDataConn] [] rfl
      cases hmem

end Agps
end Kitakami

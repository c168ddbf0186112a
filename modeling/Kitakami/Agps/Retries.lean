import Kitakami.Agps.Listed
import Kitakami.Base.Monitor

/-!
# Retries of the emergency data call

`DSStateMachine` counts the requests for a data call that are answered with
`ENGINE_BUSY`, and falls back to a normal ATL when there are too many. The
fallback sets the counter back, and so does a denial; a request that succeeds
does not, so what one session has counted is left for the next.
-/

namespace Kitakami
namespace Agps

open Runs AgpsStateMachine Monitor

/-- A request to the servicer, with what it has returned. -/
def Entry.answer : Entry → Option (Action × ℤ)
  | .call (.callbackExt action ret) => some (action,ret)
  | _ => none

/-- What the requests to start a data call have returned. -/
def starts (log : List Entry) : List ℤ :=
  log.filterMap fun e =>
    match e with
    | .call (.callbackExt .requestDataConn ret) => some ret
    | _ => none

/-- Where a request that is answered with `ENGINE_BUSY` is followed by the fallback, the
last requests to start a data call have all been answered so, one more of them than there
are retries. -/
def FullRetries (log : List Entry) : Prop :=
  ∀ pre action id type post,
    log = pre ++ .call (.callbackExt action adapterErrEngineBusy)::.call (.requestATL id type)::post →
      List.replicate (maxStartDataCallRetries.toNat + 1) adapterErrEngineBusy <:+
        starts (pre ++ [.call (.callbackExt action adapterErrEngineBusy)])

/-- A `DSStateMachine`, just created. -/
def newDs : AgpsStateMachine := { kind := .ds }

/-! ## The request of a call -/

/-- The machine as `sendRsrcRequest` finds it, and the action it is called with. -/
abbrev Request := AgpsStateMachine × Action

namespace AgpsStateMachine

def releaseRequest (m : AgpsStateMachine) : Option Request :=
  if m.hasSubscribers && m.hasActiveSubscribers then none else some (m,.releaseDataConn)

/-- The request that the handler of an event makes. -/
def eventRequest (m : AgpsStateMachine) (v : Env) (event : RsrcStatus)
    (data : Option Subscriber) : Option Request :=
  match m.mState,event,data with
  | .released,.subscribe,some s => some (m.addSubscriber s,.requestDataConn)
  | .pending,.unsubscribe,some s => (m.unsubscribeEntry v s).releaseRequest
  | .acquired,.unsubscribe,some s => (m.unsubscribeEntry v s).releaseRequest
  | .releasing,.denied,_ | .releasing,.released,_ =>
    let m := m.notifySubscribers v.freed ⟨.group .inactive,event,true⟩
    if m.hasActiveSubscribers then some (m,.requestDataConn) else none
  | _,_,_ => none

/-- The request that a call makes of the servicer. -/
def request (m : AgpsStateMachine) : Op → Option Request
  | .subscribeRsrc s v =>
    if m.mEnforceSingleSubscriber && m.hasSubscribers then none
    else m.eventRequest v .subscribe (some s)
  | .unsubscribeRsrc s v =>
    (m.search (.rcver s)).bind fun e => m.eventRequest v .unsubscribe (some e)
  | .onRsrcEvent e v =>
    match e with
    | .granted | .denied | .released => (m.emit [.event e]).eventRequest v e none
    | .subscribe | .unsubscribe | .max => none
  | .retryCallback => none

end AgpsStateMachine

/-- What a call meets outside the machine. -/
def Op.env : Op → Option Env
  | .subscribeRsrc _ v | .unsubscribeRsrc _ v | .onRsrcEvent _ v => some v
  | .retryCallback => none

/-- The condition: a request to start a data call that is neither answered with `ENGINE_BUSY`
nor falls back finds the counter at zero, and one to stop it is not answered with
`ENGINE_BUSY`. -/
def CounterKept (m : AgpsStateMachine) (op : Op) : Prop :=
  ∀ r ∈ m.request op, ∀ v ∈ op.env,
    (r.2 = .requestDataConn → v.ret ∈ [adapterErrEngineBusy,adapterErrUnsupported,-1] ∨
      r.1.mRetries = 0) ∧
    (r.2 = .releaseDataConn → v.ret ≠ adapterErrEngineBusy)

instance (m : AgpsStateMachine) (op : Op) : Decidable (CounterKept m op) :=
  inferInstanceAs (Decidable (∀ r ∈ m.request op, ∀ v ∈ op.env, _ ∧ _))

/-! ## What a call can do -/

/-- Nothing is asked of the servicer, and the counter is as it was or set back. -/
structure Calm (m m' : AgpsStateMachine) : Prop where
  log : ∃ l, m'.log = m.log ++ l ∧ ∀ e ∈ l, e.answer = none
  retries : m'.mRetries = m.mRetries ∨ m'.mRetries = 0
  kind : m'.kind = m.kind

/-- A call does nothing else than to ask the servicer at its end, if `r` is a request. -/
inductive Performs (m : AgpsStateMachine) (v : Env) :
    Option Request → AgpsStateMachine → Prop
  | calm {m' : AgpsStateMachine} (h : Calm m m') : Performs m v none m'
  | asks {m₁ : AgpsStateMachine} (h : Calm m m₁) (action : Action) (q : AgpsState) :
    Performs m v (some (m₁,action)) { (m₁.sendRsrcRequest v action).2 with mState := q }

variable {m m₁ m' : AgpsStateMachine} {v : Env} {r : Option Request}

theorem Calm.of_eq (hl : m'.log = m.log) (hr : m'.mRetries = m.mRetries)
    (hk : m'.kind = m.kind) : Calm m m' := ⟨⟨[],by simp [hl],by simp⟩,Or.inl hr,hk⟩

theorem Calm.refl (m : AgpsStateMachine) : Calm m m := .of_eq rfl rfl rfl

theorem Calm.trans (h : Calm m m₁) (h' : Calm m₁ m') : Calm m m' := by
  obtain ⟨l,hl,hn⟩ := h.log
  obtain ⟨l',hl',hn'⟩ := h'.log
  refine ⟨⟨l ++ l',by rw [hl',hl,List.append_assoc],fun e he => ?_⟩,?_,h'.kind.trans h.kind⟩
  · exact (List.mem_append.mp he).elim (hn e) (hn' e)
  · rcases h'.retries with hr | hr
    · rw [hr]
      exact h.retries
    · exact Or.inr hr

theorem Calm.performs (h : Calm m m₁) (h' : Performs m₁ v r m') : Performs m v r m' := by
  cases h' with
  | calm hc => exact .calm (h.trans hc)
  | asks hc action q => exact .asks (h.trans hc) action q

theorem calm_emit {l : List Entry} (h : ∀ e ∈ l, e.answer = none) : Calm m (m.emit l) :=
  ⟨⟨l,rfl,h⟩,Or.inl rfl,rfl⟩

theorem answer_of_traffic {e : Entry} (h : e.traffic = none) : e.answer = none := by
  rcases e with e | c
  · rfl
  · cases c <;> first | rfl | cases h

theorem Calm.of_quiet (h : Quiet m m') (hr : m'.mRetries = m.mRetries ∨ m'.mRetries = 0) :
    Calm m m' := by
  obtain ⟨l,hl,hq⟩ := h.log
  exact ⟨⟨l,hl,fun e he => answer_of_traffic (hq e he)⟩,hr,h.same.kind⟩

/-- Of the subscribers' answers only the fallback touches the counter. -/
theorem calm_answered (m : AgpsStateMachine) (s : Subscriber) (status : RsrcStatus) :
    Calm m (m.answered s status) := by
  refine .of_quiet (quiet_answered m s status) ?_
  cases s <;> cases status <;> first | exact Or.inl rfl | exact Or.inr rfl

theorem calm_notifyAll (l : List Subscriber) (m : AgpsStateMachine) (status : RsrcStatus) :
    Calm m (m.notifyAll l status) := by
  induction l generalizing m with
  | nil => exact Calm.refl m
  | cons s l ih => exact (calm_answered m s status).trans (ih _)

theorem calm_notifyRsrcStatus (m : AgpsStateMachine) (s : Subscriber) {n : Notification}
    (hn : n.rsrcStatus.known) : Calm m (m.notifyRsrcStatus s n).2 := by
  rw [notifyRsrcStatus_eq hn]
  split
  · exact calm_answered m s _
  · exact Calm.refl m

theorem calm_notifySubscribers (m : AgpsStateMachine) {freed : Subscriber} {n : Notification}
    (hn : n.rsrcStatus.known) : Calm m (m.notifySubscribers freed n) := by
  obtain ⟨told,left,heq,-⟩ := notifySubscribers_cases m freed hn
  have h := calm_notifyAll told m n.rsrcStatus
  rw [heq]
  exact ⟨h.log,h.retries,h.kind⟩

theorem calm_addSubscriber (m : AgpsStateMachine) (s : Subscriber) :
    Calm m (m.addSubscriber s) := by
  unfold addSubscriber
  split <;> exact .of_eq rfl rfl rfl

theorem calm_unsubscribeEntry (m : AgpsStateMachine) (v : Env) (s : Subscriber) :
    Calm m (m.unsubscribeEntry v s) := by
  unfold unsubscribeEntry
  split
  · cases s with
    | ds id inactive => exact ⟨⟨_,rfl,by simp [Entry.answer]⟩,Or.inl rfl,rfl⟩
    | _ => exact .of_eq rfl rfl rfl
  · exact calm_notifySubscribers m rfl

theorem calm_setState (h : Calm m m') (q : AgpsState) : Calm m { m' with mState := q } :=
  ⟨h.log,h.retries,h.kind⟩

theorem performs_releaseUnused (m : AgpsStateMachine) (v : Env) :
    Performs m v m.releaseRequest (m.releaseUnused v) := by
  unfold releaseUnused releaseRequest
  cases m.hasSubscribers with
  | false => exact .asks (Calm.refl m) _ _
  | true =>
    cases m.hasActiveSubscribers with
    | false => exact .asks (Calm.refl m) _ _
    | true => exact .calm (Calm.refl m)

theorem performs_released (h : m.mState = .released) (v : Env) (e : RsrcStatus)
    (data : Option Subscriber) :
    Performs m v (m.eventRequest v e data) (m.releasedOnRsrcEvent v e data) := by
  unfold eventRequest
  rw [h]
  cases data with
  | none => cases e <;> exact .calm (Calm.refl m)
  | some s =>
    cases e with
    | subscribe =>
      have hask := fun q => Performs.asks (v:=v) (calm_addSubscriber m s) .requestDataConn q
      simp only [releasedOnRsrcEvent]
      split
      · exact hask .pending
      · exact hask _
    | unsubscribe => exact .calm (calm_notifyRsrcStatus m s rfl)
    | granted | denied | released | max => exact .calm (Calm.refl m)

theorem performs_pending (h : m.mState = .pending) (v : Env) (e : RsrcStatus)
    (data : Option Subscriber) :
    Performs m v (m.eventRequest v e data) (m.pendingOnRsrcEvent v e data) := by
  unfold eventRequest
  rw [h]
  cases e with
  | subscribe =>
    cases data with
    | none => exact .calm (Calm.refl m)
    | some s => exact .calm (calm_addSubscriber m s)
  | unsubscribe =>
    cases data with
    | none => exact .calm (Calm.refl m)
    | some s => exact (calm_unsubscribeEntry m v s).performs (performs_releaseUnused _ v)
  | granted => exact .calm (calm_setState (calm_notifySubscribers m rfl) .acquired)
  | denied => exact .calm (calm_setState (calm_notifySubscribers m rfl) .released)
  | released | max => exact .calm (Calm.refl m)

theorem performs_acquired (h : m.mState = .acquired) (v : Env) (e : RsrcStatus)
    (data : Option Subscriber) :
    Performs m v (m.eventRequest v e data) (m.acquiredOnRsrcEvent v e data) := by
  unfold eventRequest
  rw [h]
  cases e with
  | subscribe =>
    cases data with
    | none => exact .calm (Calm.refl m)
    | some s => exact .calm ((calm_notifyRsrcStatus m s rfl).trans (calm_addSubscriber _ s))
  | unsubscribe =>
    cases data with
    | none => exact .calm (Calm.refl m)
    | some s => exact (calm_unsubscribeEntry m v s).performs (performs_releaseUnused _ v)
  | released => exact .calm (calm_setState (calm_notifySubscribers m rfl) .released)
  | granted | denied | max => exact .calm (Calm.refl m)

/-- What Releasing does when the data call is gone. -/
theorem performs_closed (m : AgpsStateMachine) (v : Env) {e : RsrcStatus} (he : e.known) :
    let m₁ := m.notifySubscribers v.freed ⟨.group .inactive,e,true⟩
    Performs m v (if m₁.hasActiveSubscribers then some (m₁,.requestDataConn) else none)
      (if m₁.hasActiveSubscribers then
        { (m₁.sendRsrcRequest v .requestDataConn).2 with mState := .pending }
      else { m₁ with mState := .released }) := by
  have h : Calm m (m.notifySubscribers v.freed ⟨.group .inactive,e,true⟩) :=
    calm_notifySubscribers m he
  dsimp only
  split
  · exact .asks h _ _
  · exact .calm (calm_setState h _)

theorem performs_releasing (h : m.mState = .releasing) (v : Env) (e : RsrcStatus)
    (data : Option Subscriber) :
    Performs m v (m.eventRequest v e data) (m.releasingOnRsrcEvent v e data) := by
  unfold eventRequest
  rw [h]
  cases e with
  | subscribe =>
    cases data with
    | none => exact .calm (Calm.refl m)
    | some s => exact .calm (calm_addSubscriber m s)
  | unsubscribe =>
    cases data with
    | none => exact .calm (Calm.refl m)
    | some s =>
      have hc := calm_unsubscribeEntry m v s
      simp only [releasingOnRsrcEvent]
      split
      · exact .calm (calm_setState hc _)
      · exact .calm hc
  | denied => exact performs_closed m v rfl
  | released => exact performs_closed m v rfl
  | granted | max => exact .calm (Calm.refl m)

theorem performs_stateOnRsrcEvent (m : AgpsStateMachine) (v : Env) (e : RsrcStatus)
    (data : Option Subscriber) :
    Performs m v (m.eventRequest v e data) (m.stateOnRsrcEvent v e data) := by
  unfold stateOnRsrcEvent
  cases h : m.mState with
  | released => exact performs_released h v e data
  | pending => exact performs_pending h v e data
  | acquired => exact performs_acquired h v e data
  | releasing => exact performs_releasing h v e data

/-- A machine that stays in its state on `RSRC_RELEASED` has asked for nothing, and has no
request to make on the `RSRC_DENIED` that follows. -/
theorem calm_of_stays (m : AgpsStateMachine) (v : Env)
    (h : (m.stateOnRsrcEvent v .released none).mState = m.mState) :
    m.eventRequest v .released none = none ∧
      Calm m ((m.stateOnRsrcEvent v .released none).stateOnRsrcEvent v .denied none) := by
  unfold stateOnRsrcEvent at h ⊢
  cases hq : m.mState with
  | released =>
    simp only [releasedOnRsrcEvent,hq]
    exact ⟨by simp only [eventRequest,hq],Calm.refl m⟩
  | pending =>
    simp only [pendingOnRsrcEvent,hq]
    exact ⟨by simp only [eventRequest,hq],calm_setState (calm_notifySubscribers m rfl) _⟩
  | acquired =>
    rw [hq] at h
    cases h
  | releasing =>
    simp only [hq,releasingOnRsrcEvent] at h
    split at h
    · cases h
    · cases h

theorem performs_onRsrcEvent (m : AgpsStateMachine) (v : Env) (e : RsrcStatus) :
    Performs m v (m.request (.onRsrcEvent e v)) (m.onRsrcEvent v e) := by
  have hemit : Calm m (m.emit [.event e]) := calm_emit (by simp [Entry.answer])
  cases e with
  | granted | denied => exact hemit.performs (performs_stateOnRsrcEvent _ v _ none)
  | released =>
    simp only [onRsrcEvent,request]
    split
    · case _ hsame =>
      obtain ⟨hnone,hc⟩ := calm_of_stays (m.emit [.event .released]) v hsame.2
      rw [hnone]
      exact .calm (hemit.trans hc)
    · exact hemit.performs (performs_stateOnRsrcEvent _ v .released none)
  | subscribe | unsubscribe | max => exact .calm (Calm.refl m)

theorem performs_subscribeRsrc (m : AgpsStateMachine) (v : Env) (s : Subscriber) :
    Performs m v (m.request (.subscribeRsrc s v)) (m.subscribeRsrc v s) := by
  unfold subscribeRsrc
  simp only [request]
  split
  · exact .calm (calm_notifyRsrcStatus m s rfl)
  · exact performs_stateOnRsrcEvent m v .subscribe (some s)

theorem performs_unsubscribeRsrc (m : AgpsStateMachine) (v : Env) (s : Subscriber) :
    Performs m v (m.request (.unsubscribeRsrc s v)) (m.unsubscribeRsrc v s) := by
  unfold unsubscribeRsrc
  simp only [request]
  split
  · case _ e he =>
    rw [he]
    exact performs_stateOnRsrcEvent m v .unsubscribe (some e)
  · case _ he =>
    rw [he]
    exact .calm (Calm.refl m)

theorem calm_retryCallback (m : AgpsStateMachine) : Calm m m.retryCallback := by
  unfold retryCallback
  split
  · exact calm_emit (by simp [Entry.answer])
  · exact Calm.refl m

/-- What a call does. -/
theorem performs_step {op : Op} (h : step m op = some m') :
    Calm m m' ∧ m.request op = none ∨
      ∃ v ∈ op.env, Performs m v (m.request op) m' := by
  rcases step_cases h with ⟨s,v,rfl,-,rfl⟩ | ⟨s,v,rfl,-,rfl⟩ | ⟨e,v,rfl,rfl⟩ | ⟨rfl,-,rfl⟩
  · exact Or.inr ⟨v,rfl,performs_subscribeRsrc m v s⟩
  · exact Or.inr ⟨v,rfl,performs_unsubscribeRsrc m v s⟩
  · exact Or.inr ⟨v,rfl,performs_onRsrcEvent m v e⟩
  · exact Or.inl ⟨calm_retryCallback m,rfl⟩

/-! ## What a request leaves -/

/-- How a request to the servicer ends. -/
inductive Answered (m : AgpsStateMachine) (v : Env) (action : Action) :
    AgpsStateMachine → Prop
  | fellBack {m' : AgpsStateMachine} (id : UInt32)
    (hret : v.ret = adapterErrEngineBusy → maxStartDataCallRetries < m.mRetries + 1)
    (hlog : m'.log =
      m.log ++ [.call (.callbackExt action v.ret),.call (.requestATL id agpsTypeSupl)])
    (hretries : m'.mRetries = 0) : Answered m v action m'
  | busy {m' : AgpsStateMachine} (hret : v.ret = adapterErrEngineBusy)
    (hlog : m'.log =
      m.log ++ [.call (.callbackExt action v.ret),.call (.timerStart dataCallRetryDelayMsec)])
    (hretries : m'.mRetries = m.mRetries + 1)
    (hfew : m'.mRetries ≤ maxStartDataCallRetries) : Answered m v action m'
  | other {m' : AgpsStateMachine}
    (hret : v.ret ∉ [adapterErrEngineBusy,adapterErrUnsupported,-1])
    (hlog : m'.log = m.log ++ [.call (.callbackExt action v.ret)])
    (hretries : m'.mRetries = m.mRetries) : Answered m v action m'

theorem answered_sendDataCallRequest (m : AgpsStateMachine) (v : Env) (action : Action) :
    Answered m v action (m.sendDataCallRequest v action).2 := by
  unfold sendDataCallRequest
  generalize ((m.search (.group .active)).map Subscriber.id).getD 0xffffffff = connHandle
  dsimp only
  split_ifs with hbusy hmany _ hun hok herr
  · exact .fellBack connHandle (fun _ => hmany) (by simp [informStatus,emit]) rfl
  · exact .busy hbusy (by simp [emit]) rfl (UInt8.not_lt.mp hmany)
  · exact .busy hbusy (by simp [emit]) rfl (UInt8.not_lt.mp hmany)
  · exact .fellBack connHandle (fun h => absurd h hbusy) (by simp [informStatus,emit]) rfl
  · exact .other (by rw [hok]; decide) rfl rfl
  · exact .fellBack connHandle (fun h => absurd h hbusy) (by simp [informStatus,emit]) rfl
  · exact .other (by simp [hbusy,hun,herr]) rfl rfl

/-! ## The streak of busy answers -/

/-- How many starts of a data call in a row have been answered with `ENGINE_BUSY`, and whether
the last entry is such an answer. -/
structure Streak where
  busy : ℕ
  last : Bool

namespace Streak

def next (k : Streak) : Entry → Streak
  | .call (.callbackExt .requestDataConn ret) =>
    if ret = adapterErrEngineBusy then ⟨k.busy + 1,true⟩ else ⟨0,false⟩
  | .call (.callbackExt .releaseDataConn ret) => ⟨k.busy,decide (ret = adapterErrEngineBusy)⟩
  | _ => ⟨k.busy,false⟩

def ok (k : Streak) : Entry → Prop
  | .call (.requestATL _ _) => k.last = true → maxStartDataCallRetries.toNat < k.busy
  | _ => True

theorem next_of_answer {k : Streak} {e : Entry} (h : e.answer = none) :
    k.next e = ⟨k.busy,false⟩ := by
  rcases e with e | c
  · rfl
  · cases c <;> first | rfl | cases h

theorem last_next_busy (k : Streak) (action : Action) :
    (k.next (.call (.callbackExt action adapterErrEngineBusy))).last = true := by
  cases action <;> rfl

theorem ok_of_last {k : Streak} (h : k.last = false) (e : Entry) : k.ok e := by
  unfold ok
  split
  · simp [h]
  · trivial

end Streak

/-- The counter is at most the streak. -/
structure Counted (m : AgpsStateMachine) (k : Streak) : Prop where
  kind : m.kind = .ds
  retries : m.mRetries.toNat ≤ k.busy
  few : m.mRetries ≤ maxStartDataCallRetries
  last : k.last = false

/-- The new entries are accepted, and the counter is right after them. -/
def Keeps (k : Streak) (m m' : AgpsStateMachine) : Prop :=
  ∃ es, m'.log = m.log ++ es ∧ Accepts Streak.next Streak.ok k es ∧
    Counted m' (watch Streak.next k es)

variable {k : Streak}

theorem accepts_calm {l : List Entry} (h : ∀ e ∈ l, e.answer = none) (hk : k.last = false) :
    Accepts Streak.next Streak.ok k l ∧ watch Streak.next k l = k := by
  induction l with
  | nil => exact ⟨trivial,rfl⟩
  | cons e l ih =>
    have hnext : k.next e = k := by
      rw [Streak.next_of_answer (h e List.mem_cons_self),← hk]
    obtain ⟨ha,hw⟩ := ih fun e he => h e (List.mem_cons_of_mem _ he)
    rw [accepts_cons,watch_cons,hnext]
    exact ⟨⟨Streak.ok_of_last hk e,ha⟩,hw⟩

theorem Calm.keeps (h : Calm m m') (hc : Counted m k) : Keeps k m m' := by
  obtain ⟨l,hl,hn⟩ := h.log
  obtain ⟨ha,hw⟩ := accepts_calm hn hc.last
  refine ⟨l,hl,ha,?_⟩
  rw [hw]
  rcases h.retries with hr | hr
  · exact ⟨h.kind.trans hc.kind,by rw [hr]; exact hc.retries,by rw [hr]; exact hc.few,hc.last⟩
  · exact ⟨h.kind.trans hc.kind,by rw [hr]; exact Nat.zero_le _,by rw [hr]; decide,hc.last⟩

theorem Keeps.trans (h : Keeps k m m₁)
    (h' : ∀ k, Counted m₁ k → Keeps k m₁ m') : Keeps k m m' := by
  obtain ⟨es,hl,ha,hc⟩ := h
  obtain ⟨es',hl',ha',hc'⟩ := h' _ hc
  refine ⟨es ++ es',by rw [hl',hl,List.append_assoc],(accepts_append k es es').mpr ⟨ha,ha'⟩,?_⟩
  rw [watch_append]
  exact hc'

/-- With `maxStartDataCallRetries` counted, one more makes the streak long enough. -/
theorem Counted.full (hc : Counted m k) (h : maxStartDataCallRetries < m.mRetries + 1) :
    maxStartDataCallRetries.toNat < k.busy + 1 := by
  have hlt := UInt8.lt_iff_toNat_lt.mp h
  have hr := hc.retries
  rw [UInt8.toNat_add,UInt8.toNat_one] at hlt
  omega

theorem Answered.keeps {action : Action} (h : Answered m v action m') (hkind : m'.kind = m.kind)
    (hc : Counted m k)
    (hstart : action = .requestDataConn →
      v.ret ∈ [adapterErrEngineBusy,adapterErrUnsupported,-1] ∨ m.mRetries = 0)
    (hstop : action = .releaseDataConn → v.ret ≠ adapterErrEngineBusy) : Keeps k m m' := by
  have hk := hkind.trans hc.kind
  cases h with
  | fellBack id hret hlog hretries =>
    refine ⟨_,hlog,?_,hk,by rw [hretries]; exact Nat.zero_le _,by rw [hretries]; decide,rfl⟩
    refine ⟨trivial,?_,trivial⟩
    cases action with
    | requestDataConn =>
      by_cases hb : v.ret = adapterErrEngineBusy
      · have hfull := hc.full (hret hb)
        simpa [Streak.ok,Streak.next,hb] using hfull
      · simp [Streak.ok,Streak.next,hb]
    | releaseDataConn => simp [Streak.ok,Streak.next,hstop rfl]
  | busy hret hlog hretries hfew =>
    refine ⟨_,hlog,⟨trivial,trivial,trivial⟩,hk,?_,hfew,rfl⟩
    cases action with
    | requestDataConn =>
      have hr := hc.retries
      have hle : (m.mRetries + 1).toNat ≤ m.mRetries.toNat + 1 := by
        rw [UInt8.toNat_add]
        exact Nat.mod_le _ _
      simpa [Streak.next,hret,hretries] using hle.trans (Nat.succ_le_succ hr)
    | releaseDataConn => exact absurd hret (hstop rfl)
  | other hret hlog hretries =>
    have hb : v.ret ≠ adapterErrEngineBusy := fun h => hret (by simp [h])
    refine ⟨_,hlog,⟨trivial,trivial⟩,hk,?_,by rw [hretries]; exact hc.few,?_⟩
    · cases action with
      | requestDataConn =>
        have hzero := (hstart rfl).resolve_left hret
        rw [hretries,hzero]
        exact Nat.zero_le _
      | releaseDataConn =>
        rw [hretries]
        exact hc.retries
    · cases action with
      | requestDataConn => simp [Streak.next,hb]
      | releaseDataConn => simp [Streak.next,hb]

/-- What one call preserves. -/
theorem keeps_step {op : Op} (hc : Counted m k) (hg : CounterKept m op)
    (h : step m op = some m') : Keeps k m m' := by
  rcases performs_step h with ⟨hcalm,-⟩ | ⟨v,hv,hp⟩
  · exact hcalm.keeps hc
  · unfold CounterKept at hg
    cases hp' : m.request op with
    | none =>
      rw [hp'] at hp
      cases hp with
      | calm hcalm => exact hcalm.keeps hc
    | some r =>
      obtain ⟨m₁,action⟩ := r
      obtain ⟨hstart,hstop⟩ := hg _ hp' v hv
      rw [hp'] at hp
      cases hp with
      | asks hcalm _ q =>
        refine (hcalm.keeps hc).trans fun k hc₁ => ?_
        have hans := answered_sendDataCallRequest m₁ v action
        have hsend : m₁.sendRsrcRequest v action = m₁.sendDataCallRequest v action := by
          unfold sendRsrcRequest
          rw [hc₁.kind]
        rw [hsend]
        obtain ⟨es,hl,ha,hw⟩ := hans.keeps (by rw [← hsend,sendRsrcRequest_kind]) hc₁ hstart hstop
        exact ⟨es,hl,ha,hw.kind,hw.retries,hw.few,hw.last⟩

/-! ## The fallback -/

theorem starts_append (l l' : List Entry) : starts (l ++ l') = starts l ++ starts l' :=
  List.filterMap_append

/-- Only the start of a data call adds to `starts`, and only it changes the streak. -/
theorem start_or_rest (k : Streak) (e : Entry) :
    (∃ ret, e = .call (.callbackExt .requestDataConn ret)) ∨
      (starts [e] = [] ∧ (k.next e).busy = k.busy) := by
  rcases e with e | c
  · exact Or.inr ⟨rfl,rfl⟩
  · cases c with
    | callbackExt action ret =>
      cases action with
      | requestDataConn => exact Or.inl ⟨ret,rfl⟩
      | releaseDataConn => exact Or.inr ⟨rfl,rfl⟩
    | _ => exact Or.inr ⟨rfl,rfl⟩

/-- The streak counts what has been answered at the end of the log. -/
theorem replicate_suffix_starts (log : List Entry) :
    List.replicate (watch Streak.next ⟨0,false⟩ log).busy adapterErrEngineBusy <:+
      starts log := by
  induction log using List.reverseRecOn with
  | nil => exact List.suffix_refl _
  | append_singleton log e ih =>
    rw [watch_append,starts_append,watch_cons,watch_nil]
    generalize watch Streak.next ⟨0,false⟩ log = k at ih
    rcases start_or_rest k e with ⟨ret,rfl⟩ | ⟨hnone,hk⟩
    · change _ <:+ starts log ++ [ret]
      by_cases hb : ret = adapterErrEngineBusy
      · obtain ⟨l,hl⟩ := ih
        refine ⟨l,?_⟩
        rw [← hl,hb,List.append_assoc,← List.replicate_succ']
        rfl
      · simp [Streak.next,hb]
    · rwa [hk,hnone,List.append_nil]

/-- A fallback on `ENGINE_BUSY` comes after the full number of retries, in every run whose
calls keep the counter. -/
theorem fullRetries_of_counterKept {ops : List Op} (hg : Along step CounterKept newDs ops)
    (hr : run step newDs ops = some m) : FullRetries m.log := by
  have hacc : Accepts Streak.next Streak.ok ⟨0,false⟩ m.log := by
    refine accepts_run (I:=Counted) AgpsStateMachine.log (fun m op m' hc hg h => ?_)
      ⟨rfl,Nat.zero_le _,by decide,rfl⟩ (accepts_nil _) hg hr
    obtain ⟨es,hl,ha,hc'⟩ := keeps_step hc hg h
    exact ⟨es,hl,ha,by rw [hl,watch_append]; exact hc'⟩
  intro pre action id type post hlog
  rw [hlog,List.append_cons] at hacc
  have hok := hacc.mid
  rw [watch_append,watch_cons,watch_nil] at hok
  have hfull := hok (Streak.last_next_busy _ action)
  refine List.IsSuffix.trans ?_ (replicate_suffix_starts _)
  rw [watch_append,watch_cons,watch_nil]
  exact List.suffix_replicate_iff.mpr ⟨by simpa using hfull,by simp⟩

def busySubscription : Op := .subscribeRsrc (.ds 5 false) { ret := adapterErrEngineBusy }

/-- A request and its retries, all answered with `ENGINE_BUSY`. -/
def busyRetries (n : ℕ) : List Op :=
  busySubscription::(List.replicate n [.retryCallback,busySubscription]).flatten

theorem fullRetries_of_counterKept_busy :
    ∃ m, run step newDs (busyRetries 4) = some m ∧ m.mRetries = 0 ∧ FullRetries m.log :=
  have hkept : Along step CounterKept newDs (busyRetries 4) := by decide
  ⟨_,rfl,by decide,fullRetries_of_counterKept hkept rfl⟩

/-- The first session counts a busy answer, and is then granted its data call. The second one
falls back at its fourth busy answer. -/
def twoSessions : List Op :=
  [busySubscription,.retryCallback,.subscribeRsrc (.ds 5 false) {},.onRsrcEvent .granted {},
    .unsubscribeRsrc (.ds 5 false) {},.onRsrcEvent .released {}] ++ busyRetries 3

theorem not_fullRetries_twoSessions :
    ∃ m, run step newDs twoSessions = some m ∧ ¬ FullRetries m.log := by
  refine ⟨_,rfl,fun h => ?_⟩
  have hfull := h _ .requestDataConn 5 agpsTypeSupl [] (List.take_append_drop 19 _).symm
  exact absurd hfull (by decide)

end Agps
end Kitakami

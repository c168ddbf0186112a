import Kitakami.Agps.Subscriber

/-!
# AgpsStateMachine

`AgpsStateMachine` and `DSStateMachine` of `loc_eng_agps.cpp`: a list of
subscribers that share one data connection, and four states whose handlers
subscribe, unsubscribe and notify them. Everything the machine does to the
outside, and every event it takes in, is appended to `log`. The interfaces
AGNSS and INTERNET have ATL and BIT clients side by side.
-/

namespace Kitakami
namespace Agps

/-- The four `AgpsState` objects. -/
inductive AgpsState
  | released | pending | acquired | releasing
  deriving DecidableEq

/-- `AGpsStatusValue`, as far as the machine asks for it. -/
inductive Action
  | requestDataConn | releaseDataConn
  deriving DecidableEq

def agpsTypeInvalid : ℤ := -1
def agpsTypeSupl : ℤ := 1
def agpsApnBearerInvalid : ℤ := -1
def requestSuccess : UInt8 := 0xF0
def releaseSuccess : UInt8 := 0xF1
def ifFailure : UInt8 := 0xF2
def adapterErrSuccess : ℤ := 0
def adapterErrUnsupported : ℤ := 2
def adapterErrEngineBusy : ℤ := 6
def maxStartDataCallRetries : UInt8 := 4
def dataCallRetryDelayMsec : ℕ := 500

/-- `AGpsExtStatus` as `sendRsrcRequest` fills it in. With a subscriber at hand
`ipv4_addr` is left as it is. -/
structure NifRequest where
  type : ℤ
  status : Action
  ipv4Addr : Option UInt32
  ssFamilyInet6 : Bool
  ssid : Str
  password : Str
  deriving DecidableEq

/-- The calls that leave the state machine. -/
inductive Call
  | dataConn (senderId : SenderId) (status : UInt8)
  | atlOpenStatus (handle : UInt32) (isSuccess : Bool) (apn : Option Str)
      (bearer agpsType : ℤ)
  | atlCloseStatus (handle : UInt32)
  | closeDataCall
  | requestATL (connHandle : UInt32) (agpsType : ℤ)
  | requestSuplES (connHandle : UInt32)
  | callbackAGps (nifRequest : NifRequest)
  | callbackExt (action : Action) (ret : ℤ)
  | timerStart (msec : ℕ)
  deriving DecidableEq

/-- What the history of a machine records. -/
inductive Entry
  | event (e : RsrcStatus)
  | call (c : Call)
  deriving DecidableEq

/-- `AgpsStateMachine` and the class derived from it. -/
inductive MachineKind
  | agps | ds
  deriving DecidableEq

/-- With `MachineKind.ds` the object is a `DSStateMachine`, and `mRetries` is its member. -/
structure AgpsStateMachine where
  kind : MachineKind := .agps
  mType : ℤ := agpsTypeInvalid
  mEnforceSingleSubscriber : Bool := false
  mAPN : Option Str := none
  mBearer : ℤ := agpsApnBearerInvalid
  mState : AgpsState := .released
  mSubscribers : List Subscriber := []
  mRetries : UInt8 := 0
  log : List Entry := []
  deriving DecidableEq

/-- What a call meets outside the machine: what the servicer of a `DSStateMachine` returns, whether
`loc_timer_start` then returns a handle, and what the memory of a subscriber is read as after it is
deleted. -/
structure Env where
  ret : ℤ := adapterErrSuccess
  timerStarts : Bool := true
  freed : Subscriber := .bit 0 (Vector.replicate 16 0)
  deriving DecidableEq

namespace AgpsStateMachine

def emit (m : AgpsStateMachine) (l : List Entry) : AgpsStateMachine :=
  { m with log := m.log ++ l }

/-! ## Notifications -/

/-- `DSStateMachine::informStatus`. -/
def informStatus (m : AgpsStateMachine) (status : RsrcStatus) (id : UInt32) : AgpsStateMachine :=
  match status with
  | .unsubscribe => m.emit [.call (.atlCloseStatus id)]
  | .released => m.emit [.call .closeDataCall]
  | .denied => { m with mRetries := 0 }.emit [.call (.requestATL id agpsTypeSupl)]
  | .granted =>
    m.emit [.call (.atlOpenStatus id true none agpsApnBearerInvalid agpsTypeInvalid)]
  | .subscribe | .max => m

/-- The switch in `notifyRsrcStatus` of each class; `none` is its default. -/
def answer (m : AgpsStateMachine) (s : Subscriber) (status : RsrcStatus) :
    Option AgpsStateMachine :=
  match s with
  | .bit _ _ =>
    match status with
    | .unsubscribe | .released =>
      some (m.emit [.call (.dataConn SenderId.gpsoneDaemon releaseSuccess)])
    | .denied => some (m.emit [.call (.dataConn SenderId.gpsoneDaemon ifFailure)])
    | .granted => some (m.emit [.call (.dataConn SenderId.gpsoneDaemon requestSuccess)])
    | .subscribe | .max => none
  | .atl id _ mode =>
    let type := if mode then agpsTypeInvalid else m.mType
    match status with
    | .unsubscribe | .released => some (m.emit [.call (.atlCloseStatus id)])
    | .denied => some (m.emit [.call (.atlOpenStatus id false m.mAPN m.mBearer type)])
    | .granted => some (m.emit [.call (.atlOpenStatus id true m.mAPN m.mBearer type)])
    | .subscribe | .max => none
  | .wifi _ _ senderId _ =>
    match status with
    | .unsubscribe => some m
    | .released => some (m.emit [.call (.dataConn senderId releaseSuccess)])
    | .denied => some (m.emit [.call (.dataConn senderId ifFailure)])
    | .granted => some (m.emit [.call (.dataConn senderId requestSuccess)])
    | .subscribe | .max => none
  | .ds id _ =>
    match status with
    | .unsubscribe | .released | .denied | .granted => some (m.informStatus status id)
    | .subscribe | .max => none

/-- `notifyRsrcStatus`: its result, and the machine with what it has done. -/
def notifyRsrcStatus (m : AgpsStateMachine) (s : Subscriber) (n : Notification) :
    Bool × AgpsStateMachine :=
  if s.forMe n.receiver then
    match m.answer s n.rsrcStatus with
    | some m' => (true,m')
    | none => (false,m)
  else (false,m)

/-- One `linked_list_search` with `notifySubscriber`: it stops at the first
subscriber for which the callback returns true and removes that one. -/
def notifyRound (n : Notification) : AgpsStateMachine → List Subscriber →
    AgpsStateMachine × Option (Subscriber × List Subscriber)
  | m, [] => (m,none)
  | m, s::rest =>
    let r := m.notifyRsrcStatus s n
    if r.1 && n.postNotifyDelete then (r.2,some (s,rest))
    else
      let q := notifyRound n r.2 rest
      (q.1,q.2.map fun found => (found.1,s::found.2))

/-- The loop of `notifySubscribers`; each round but the last removes a
subscriber and deletes it, so the length of the list bounds the rounds. -/
def notifyLoop (freed : Subscriber) : ℕ → Notification → AgpsStateMachine → AgpsStateMachine
  | 0, _, m => m
  | fuel+1, n, m =>
    match notifyRound n m m.mSubscribers with
    | (m',some (s,l)) =>
      notifyLoop freed fuel (n.afterDelete s freed) { m' with mSubscribers := l }
    | (m',none) => m'

def notifySubscribers (m : AgpsStateMachine) (freed : Subscriber) (n : Notification) :
    AgpsStateMachine :=
  if n.postNotifyDelete then notifyLoop freed (m.mSubscribers.length+1) n m
  else (notifyRound n m m.mSubscribers).1

/-! ## The list of subscribers -/

/-- `linked_list_search` with `hasSubscriber`. -/
def search (m : AgpsStateMachine) (r : Receiver) : Option Subscriber :=
  m.mSubscribers.find? (·.forMe r)

def hasSubscribers (m : AgpsStateMachine) : Bool := !m.mSubscribers.isEmpty

def hasActiveSubscribers (m : AgpsStateMachine) : Bool := (m.search (.group .active)).isSome

def addSubscriber (m : AgpsStateMachine) (s : Subscriber) : AgpsStateMachine :=
  match m.search (.rcver s) with
  | none => { m with mSubscribers := s.clone :: m.mSubscribers }
  | some _ => m

/-- `setInactive` on the entry that `search` has found. -/
def setInactive (m : AgpsStateMachine) (s : Subscriber) : AgpsStateMachine :=
  let m := { m with mSubscribers := m.mSubscribers.replace s s.setInactive }
  match s with
  | .ds id _ => m.informStatus .unsubscribe id
  | _ => m

/-- `linked_list_flush` on the list. -/
def dropAllSubscribers (m : AgpsStateMachine) : AgpsStateMachine := { m with mSubscribers := [] }

/-! ## Requests -/

/-- `AgpsStateMachine::sendRsrcRequest`. -/
def sendAgpsRequest (m : AgpsStateMachine) (action : Action) : ℤ × AgpsStateMachine :=
  let s := m.search (.group .active)
  if s.isNone = (action == .releaseDataConn) then
    let nifRequest : NifRequest :=
      match s with
      | none => ⟨m.mType,action,some inaddrNone,false,[],[]⟩
      | some s => ⟨m.mType,action,none,true,s.wifiInfo.1,s.wifiInfo.2⟩
    (0,m.emit [.call (.callbackAGps nifRequest)])
  else (0,m)

/-- `DSStateMachine::sendRsrcRequest`. -/
def sendDataCallRequest (m : AgpsStateMachine) (v : Env) (action : Action) :
    ℤ × AgpsStateMachine :=
  let connHandle := ((m.search (.group .active)).map Subscriber.id).getD 0xffffffff
  let m := m.emit [.call (.callbackExt action v.ret)]
  if v.ret = adapterErrEngineBusy then
    let m := { m with mRetries := m.mRetries + 1 }
    if m.mRetries > maxStartDataCallRetries then (v.ret,m.informStatus .denied connHandle)
    else
      let m := m.emit [.call (.timerStart dataCallRetryDelayMsec)]
      -- the handle of the timer is taken for a failure
      (if v.timerStarts then -1 else v.ret,m)
  else if v.ret = adapterErrUnsupported then (v.ret,m.informStatus .denied connHandle)
  else if v.ret = adapterErrSuccess then (v.ret,m)
  else if v.ret = -1 then (v.ret,m.informStatus .denied connHandle)
  else (v.ret,m)

/-- The virtual `sendRsrcRequest`. -/
def sendRsrcRequest (m : AgpsStateMachine) (v : Env) (action : Action) :
    ℤ × AgpsStateMachine :=
  match m.kind with
  | .ds => m.sendDataCallRequest v action
  | .agps => m.sendAgpsRequest action

/-! ## The handlers of the states -/

/-- What Pending, Acquired and Releasing do first on `RSRC_UNSUBSCRIBE`; `s` is the entry of the
list that `unsubscribeRsrc` has found. -/
def unsubscribeEntry (m : AgpsStateMachine) (v : Env) (s : Subscriber) : AgpsStateMachine :=
  if s.waitForCloseComplete then m.setInactive s
  else m.notifySubscribers v.freed ⟨.entry s,.unsubscribe,true⟩

/-- What Pending and Acquired do then. -/
def releaseUnused (m : AgpsStateMachine) (v : Env) : AgpsStateMachine :=
  if !m.hasSubscribers then
    { (m.sendRsrcRequest v .releaseDataConn).2 with mState := .released }
  else if !m.hasActiveSubscribers then
    { (m.sendRsrcRequest v .releaseDataConn).2 with mState := .releasing }
  else m

/-- `AgpsReleasedState::onRsrcEvent`; `data` goes with the first two events. -/
def releasedOnRsrcEvent (m : AgpsStateMachine) (v : Env) (event : RsrcStatus)
    (data : Option Subscriber) : AgpsStateMachine :=
  match event,data with
  | .subscribe,some s =>
    let r := (m.addSubscriber s).sendRsrcRequest v .requestDataConn
    if r.1 = 0 then { r.2 with mState := .pending } else r.2
  | .unsubscribe,some s => (m.notifyRsrcStatus s ⟨.rcver s,event,false⟩).2
  | _,_ => m

/-- `AgpsPendingState::onRsrcEvent`. -/
def pendingOnRsrcEvent (m : AgpsStateMachine) (v : Env) (event : RsrcStatus)
    (data : Option Subscriber) : AgpsStateMachine :=
  match event,data with
  | .subscribe,some s => m.addSubscriber s
  | .unsubscribe,some s => (m.unsubscribeEntry v s).releaseUnused v
  | .granted,_ =>
    { m.notifySubscribers v.freed ⟨.group .active,event,false⟩ with mState := .acquired }
  | .denied,_ => { m.notifySubscribers v.freed ⟨.group .all,event,true⟩ with mState := .released }
  | _,_ => m

/-- `AgpsAcquiredState::onRsrcEvent`. -/
def acquiredOnRsrcEvent (m : AgpsStateMachine) (v : Env) (event : RsrcStatus)
    (data : Option Subscriber) : AgpsStateMachine :=
  match event,data with
  | .subscribe,some s => (m.notifyRsrcStatus s ⟨.rcver s,.granted,false⟩).2.addSubscriber s
  | .unsubscribe,some s => (m.unsubscribeEntry v s).releaseUnused v
  | .released,_ => { m.notifySubscribers v.freed ⟨.group .all,event,true⟩ with mState := .released }
  | _,_ => m

/-- `AgpsReleasingState::onRsrcEvent`. -/
def releasingOnRsrcEvent (m : AgpsStateMachine) (v : Env) (event : RsrcStatus)
    (data : Option Subscriber) : AgpsStateMachine :=
  match event,data with
  | .subscribe,some s => m.addSubscriber s
  | .unsubscribe,some s =>
    let m := m.unsubscribeEntry v s
    if !m.hasSubscribers then { m with mState := .released } else m
  | .denied,_ | .released,_ =>
    let m := m.notifySubscribers v.freed ⟨.group .inactive,event,true⟩
    if m.hasActiveSubscribers then
      { (m.sendRsrcRequest v .requestDataConn).2 with mState := .pending }
    else { m with mState := .released }
  | _,_ => m

/-- `mStatePtr = mStatePtr->onRsrcEvent(event,data)`. -/
def stateOnRsrcEvent (m : AgpsStateMachine) (v : Env) (event : RsrcStatus)
    (data : Option Subscriber) : AgpsStateMachine :=
  match m.mState with
  | .released => m.releasedOnRsrcEvent v event data
  | .pending => m.pendingOnRsrcEvent v event data
  | .acquired => m.acquiredOnRsrcEvent v event data
  | .releasing => m.releasingOnRsrcEvent v event data

/-! ## The interface -/

def subscribeRsrc (m : AgpsStateMachine) (v : Env) (s : Subscriber) : AgpsStateMachine :=
  if m.mEnforceSingleSubscriber && m.hasSubscribers then
    (m.notifyRsrcStatus s ⟨.group .all,.denied,true⟩).2
  else m.stateOnRsrcEvent v .subscribe (some s)

def unsubscribeRsrc (m : AgpsStateMachine) (v : Env) (s : Subscriber) : AgpsStateMachine :=
  match m.search (.rcver s) with
  | some e => m.stateOnRsrcEvent v .unsubscribe (some e)
  | none => m

/-- The virtual `onRsrcEvent`. A `DSStateMachine` that stays in its state on
`RSRC_RELEASED` takes the event for `RSRC_DENIED` as well. -/
def onRsrcEvent (m : AgpsStateMachine) (v : Env) (event : RsrcStatus) : AgpsStateMachine :=
  match event with
  | .granted | .denied => (m.emit [.event event]).stateOnRsrcEvent v event none
  | .released =>
    let m' := (m.emit [.event event]).stateOnRsrcEvent v event none
    if m.kind = .ds ∧ m'.mState = m.mState then m'.stateOnRsrcEvent v .denied none else m'
  | .subscribe | .unsubscribe | .max => m

/-- `DSStateMachine::retryCallback`. -/
def retryCallback (m : AgpsStateMachine) : AgpsStateMachine :=
  match m.search (.group .active) with
  | some s => m.emit [.call (.requestSuplES s.id)]
  | none => m

end AgpsStateMachine

/-- The engine subscribes DS clients to its `DSStateMachine` only, and BIT and Wi-Fi clients never
to that one. -/
def AgpsStateMachine.admits (m : AgpsStateMachine) (s : Subscriber) : Bool :=
  match s.kind with
  | .atl => true
  | .bit | .wifi => m.kind = .agps
  | .ds => m.kind = .ds

/-- The calls that the engine makes on a state machine, each with what it meets outside. -/
inductive Op
  | subscribeRsrc (s : Subscriber) (v : Env)
  | unsubscribeRsrc (s : Subscriber) (v : Env)
  | onRsrcEvent (e : RsrcStatus) (v : Env)
  | retryCallback
  deriving DecidableEq

/-- One call. Only a `DSStateMachine` starts the retry timer. -/
def step (m : AgpsStateMachine) : Op → Option AgpsStateMachine
  | .subscribeRsrc s v => if m.admits s then some (m.subscribeRsrc v s) else none
  | .unsubscribeRsrc s v => if m.admits s then some (m.unsubscribeRsrc v s) else none
  | .onRsrcEvent e v => some (m.onRsrcEvent v e)
  | .retryCallback => if m.kind = .ds then some m.retryCallback else none

end Agps
end Kitakami

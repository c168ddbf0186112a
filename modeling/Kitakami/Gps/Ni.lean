import Kitakami.Base.Runs

/-!
# Network-initiated requests

The sessions of `loc_eng_ni.cpp` and the threads that answer for them. The
engine calls the handler, the framework calls respond, a modem restart calls
reset, and every accepted request spawns an `ni_thread_proc`. A thread reads
the delay under the lock, waits, runs its locked section, and after the unlock
runs a tail. Each of these is one action, and the actions interleave freely.

A raw request is the pointer the engine passes through. It is represented by
the notification id and the delay its handler issued, which is what ties an
answer to the request it belongs to.
-/

namespace Kitakami
namespace Ni

open Runs

/-- `GpsUserResponseType`, an `int` of the framework's interface. -/
abbrev GpsUserResponseType := ℤ

def gpsNiResponseAccept : GpsUserResponseType := 1
def gpsNiResponseNoresp : GpsUserResponseType := 3
def gpsNiResponseIgnore : GpsUserResponseType := 4
def gpsNiTypeEmergencySupl : ℤ := 4
def gpsNiPrivacyOverride : ℤ := 4
def locNiNoResponseTime : ℤ := 20

/-- The fields of `GpsNiNotification` that the handler reads. -/
structure GpsNiNotification where
  niType : ℤ
  notifyFlags : ℤ
  timeout : ℤ
  deriving DecidableEq

/-- A non-NULL `rawRequest` pointer, named by what its handler issued for it. -/
structure RawRequest where
  notificationId : ℤ
  delay : ℤ
  deriving DecidableEq

/-- The message that carries the answer of a raw request to the adapter. -/
structure LocEngInformNiResponse where
  mResponse : GpsUserResponseType
  mPayload : RawRequest
  deriving DecidableEq

/-- `loc_eng_ni_session_s_type`, less the handles of its thread and lock. -/
structure NiSession where
  respTimeLeft : ℤ := 0
  respRecvd : Bool := false
  rawRequest : Option RawRequest := none
  reqID : ℤ := 0
  resp : GpsUserResponseType := 0
  deriving DecidableEq

/-- The two session records of `loc_eng_ni_data_s_type`. -/
inductive Slot
  | session | sessionEs
  deriving DecidableEq

/-- Where an `ni_thread_proc` stands. -/
inductive Phase
  | starting
  | waiting (timeLeft : ℤ)
  | unlocked (msg : Option LocEngInformNiResponse)
  | done
  deriving DecidableEq

/-- Between the unlock and the end of the thread's tail. -/
def Phase.inTail : Phase → Bool
  | .unlocked _ => true
  | _ => false

/-- A spawned thread with the request that spawned it. -/
structure NiThread where
  slot : Slot
  own : RawRequest
  phase : Phase
  deriving DecidableEq

inductive MuteSession
  | none | wait | inSession
  deriving DecidableEq

/-- The module's state. The last four fields record what crossed its boundary:
ids shown to the framework, messages sent, answers given, own timeouts. -/
structure NiState where
  niNotifyCb : Bool := false
  ses : Slot → NiSession := fun _ => {}
  reqIDCounter : ℤ := 0
  muteSessionState : MuteSession := .none
  threads : List NiThread := []
  notified : List ℤ := []
  sent : List LocEngInformNiResponse := []
  responses : List (ℤ × GpsUserResponseType) := []
  timeouts : List RawRequest := []

/-- `loc_eng_data` is zeroed before the interface is initialised. -/
def NiState.zero : NiState := {}

def NiState.setSes (s : NiState) (k : Slot) (p : NiSession) : NiState :=
  { s with ses := Function.update s.ses k p }

def NiState.setThread (s : NiState) (i : ℕ) (t : NiThread) : NiState :=
  { s with threads := s.threads.set i t }

/-- `loc_eng_ni_init` with usable callbacks; a second call changes nothing. -/
def locEngNiInit (s : NiState) : NiState :=
  if s.niNotifyCb then s
  else
    { s with
      niNotifyCb := true
      ses := fun k => { s.ses k with
        respTimeLeft := 0, respRecvd := false, rawRequest := none, reqID := 0 } }

/-- The session the handler stores a request in, if none is in progress. -/
def pSession (s : NiState) (notif : GpsNiNotification) : Option Slot :=
  if notif.niType = gpsNiTypeEmergencySupl then
    if (s.ses .sessionEs).rawRequest.isSome then none else some .sessionEs
  else if (s.ses .session).rawRequest.isSome || (s.ses .sessionEs).rawRequest.isSome then none
  else some .session

def respTime (notif : GpsNiNotification) : ℤ :=
  5 + if notif.timeout ≠ 0 then notif.timeout else locNiNoResponseTime

/-- The request's fields of a session; a NULL pointer leaves the session free. -/
def NiSession.save (p : NiSession) (raw : RawRequest) (passThrough : Bool) : NiSession :=
  { p with
    rawRequest := if passThrough then some raw else none
    reqID := raw.notificationId
    respTimeLeft := raw.delay }

/-- The handler's work once it has a session: issue an id, store the request,
spawn the thread and notify the framework. -/
def acceptRequest (s : NiState) (k : Slot) (notif : GpsNiNotification)
    (passThrough created : Bool) : NiState :=
  let raw : RawRequest := ⟨s.reqIDCounter + 1,respTime notif⟩
  { s with
    ses := Function.update s.ses k ((s.ses k).save raw passThrough)
    reqIDCounter := s.reqIDCounter + 1
    muteSessionState :=
      if notif.notifyFlags = gpsNiPrivacyOverride then .wait else s.muteSessionState
    threads := if created then s.threads ++ [⟨k,raw,.starting⟩] else s.threads
    notified := s.notified ++ [s.reqIDCounter + 1] }

/-- `loc_eng_ni_request_handler`. `passThrough` tells whether the pointer is
non-NULL and `created` whether `pthread_create` succeeded. -/
def locEngNiRequestHandler (s : NiState) (notif : GpsNiNotification)
    (passThrough created : Bool) : NiState :=
  if !s.niNotifyCb then s
  else
    match pSession s notif with
    | none => s
    | some k => acceptRequest s k notif passThrough created

/-- Store an answer in a session and wake its thread. -/
def NiSession.answer (p : NiSession) (r : GpsUserResponseType) : NiSession :=
  { p with resp := r, respRecvd := true }

/-- The session that `loc_eng_ni_respond` finds for a notification id. -/
def respondSession (s : NiState) (notifId : ℤ) : Option Slot :=
  if notifId = (s.ses .sessionEs).reqID ∧ (s.ses .sessionEs).rawRequest.isSome then some .sessionEs
  else if notifId = (s.ses .session).reqID ∧ (s.ses .session).rawRequest.isSome then some .session
  else none

/-- An accepted emergency request makes the ordinary one be ignored. -/
def ignoreOrdinary (s : NiState) (k : Slot) (userResponse : GpsUserResponseType) : NiState :=
  if k = .sessionEs ∧ userResponse = gpsNiResponseAccept ∧ (s.ses .session).rawRequest.isSome then
    s.setSes .session ((s.ses .session).answer gpsNiResponseIgnore)
  else s

/-- Record an answer to an id the framework has been shown, accepted or not. -/
def NiState.record (s : NiState) (notifId : ℤ) (userResponse : GpsUserResponseType) : NiState :=
  { s with
    responses :=
      if notifId ∈ s.notified then s.responses ++ [(notifId,userResponse)] else s.responses }

/-- `loc_eng_ni_respond`. -/
def locEngNiRespond (s : NiState) (notifId : ℤ) (userResponse : GpsUserResponseType) : NiState :=
  let t := s.record notifId userResponse
  if !s.niNotifyCb then t
  else
    match respondSession s notifId with
    | none => t
    | some k =>
      let t := ignoreOrdinary t k userResponse
      t.setSes k ((t.ses k).answer userResponse)

/-- One session of `loc_eng_ni_reset_on_engine_restart`. -/
def NiSession.reset (p : NiSession) : NiSession :=
  if p.rawRequest.isSome then { p with rawRequest := none, respRecvd := true } else p

def locEngNiResetOnEngineRestart (s : NiState) : NiState :=
  if !s.niNotifyCb then s else { s with ses := fun k => (s.ses k).reset }

/-- The message `ni_thread_proc` builds from what it finds in its session. -/
def NiSession.message (p : NiSession) : Option LocEngInformNiResponse :=
  match p.rawRequest with
  | some raw => if p.resp ≠ gpsNiResponseIgnore then some ⟨p.resp,raw⟩ else none
  | none => none

/-- The lock-protected section of `ni_thread_proc`, from the end of the wait
loop to the unlock. -/
def lockedSection (s : NiState) (i : ℕ) (t : NiThread) : NiState :=
  let p := s.ses t.slot
  (s.setSes t.slot { p with respRecvd := false, rawRequest := none }).setThread i
    { t with phase := .unlocked p.message }

inductive NiAction
  | init
  | request (notif : GpsNiNotification) (passThrough created : Bool)
  | respond (notifId : ℤ) (userResponse : GpsUserResponseType)
  | restart
  | threadStart (i : ℕ)
  | threadWake (i : ℕ)
  | threadTimeout (i : ℕ)
  | threadTail (i : ℕ)
  deriving DecidableEq

/-- Thread `i` takes the lock and reads the delay; with `respRecvd` already set
it never waits. -/
def threadStart (s : NiState) (i : ℕ) (t : NiThread) : NiState :=
  if (s.ses t.slot).respRecvd then lockedSection s i t
  else s.setThread i { t with phase := .waiting (s.ses t.slot).respTimeLeft }

/-- `pthread_cond_timedwait` returns `ETIMEDOUT` after the delay read at the start. -/
def threadTimeout (s : NiState) (i : ℕ) (t : NiThread) (timeLeft : ℤ) : NiState :=
  let p := s.ses t.slot
  lockedSection
    { s.setSes t.slot { p with resp := gpsNiResponseNoresp } with
      timeouts := s.timeouts ++ [⟨t.own.notificationId,timeLeft⟩] } i t

/-- The statements of `ni_thread_proc` after the unlock. -/
def threadTail (s : NiState) (i : ℕ) (t : NiThread) (msg : Option LocEngInformNiResponse) :
    NiState :=
  let p := s.ses t.slot
  { (s.setSes t.slot { p with respTimeLeft := 0, reqID := 0 }).setThread i
      { t with phase := .done } with
    sent := s.sent ++ msg.toList }

/-- One action of the module; a thread action is enabled in its own phase only. -/
def step (s : NiState) : NiAction → Option NiState
  | .init => some (locEngNiInit s)
  | .request notif passThrough created =>
    some (locEngNiRequestHandler s notif passThrough created)
  | .respond notifId userResponse => some (locEngNiRespond s notifId userResponse)
  | .restart => some (locEngNiResetOnEngineRestart s)
  | .threadStart i =>
    match s.threads[i]? with
    | some t => if t.phase = .starting then some (threadStart s i t) else none
    | none => none
  | .threadWake i =>
    match s.threads[i]? with
    | some t =>
      match t.phase with
      | .waiting _ => if (s.ses t.slot).respRecvd then some (lockedSection s i t) else none
      | _ => none
    | none => none
  | .threadTimeout i =>
    match s.threads[i]? with
    | some t =>
      match t.phase with
      | .waiting timeLeft => some (threadTimeout s i t timeLeft)
      | _ => none
    | none => none
  | .threadTail i =>
    match s.threads[i]? with
    | some t =>
      match t.phase with
      | .unlocked msg => some (threadTail s i t msg)
      | _ => none
    | none => none

end Ni
end Kitakami

import Kitakami.Gps.Ni

/-!
# The location engine

The messages that the thread of the location engine processes one by one: the
client's position mode, start and stop, the reports of the modem, the requests
to delete aiding data, the restart of the modem, and what happens in the module
of network-initiated requests, which owns the mute state. The state keeps a
trace of the calls to the modem and to the client's callbacks.
-/

namespace Kitakami
namespace LocEng

open Ni

/-- `GpsStatusValue`, a `uint16_t` of the platform's interface. -/
abbrev GpsStatusValue := UInt16

def gpsStatusNone : GpsStatusValue := 0
def gpsStatusSessionBegin : GpsStatusValue := 1
def gpsStatusSessionEnd : GpsStatusValue := 2
def gpsStatusEngineOn : GpsStatusValue := 3
def gpsStatusEngineOff : GpsStatusValue := 4

/-- `GpsAidingData`, a mask of what to delete. -/
abbrev GpsAidingData := BitVec 16

/-- `LocPositionMode`, less its reserved values. -/
inductive LocPositionMode
  | invalid | standalone | msBased | msAssisted
  deriving DecidableEq

/-- `LocPosMode`, less the credentials and the provider, which stay empty. -/
structure LocPosMode where
  mode : LocPositionMode
  recurrence : UInt32 := 0
  minInterval : UInt32 := 0
  preferredAccuracy : UInt32 := 0
  preferredTime : UInt32 := 0
  deriving DecidableEq

def gpsPositionRecurrenceSingle : UInt32 := 1
def gpsPositionModeMsBased : UInt32 := 1
def gpsPositionModeMsAssisted : UInt32 := 2
def minPossibleFixInterval : UInt32 := 1000

/-- The arguments of `loc_set_position_mode`. -/
structure ClientMode where
  mode : UInt32
  recurrence : UInt32
  minInterval : UInt32
  preferredAccuracy : UInt32
  preferredTime : UInt32
  deriving DecidableEq

inductive LocApiAdapterErr
  | success | generalFailure | unsupported | invalidHandle | invalidParameter | engineBusy
  | phoneOffline | timeout | serviceNotPresent | internal | failure | unknown
  deriving DecidableEq

inductive LocSessStatus
  | success | intermediate | failure
  deriving DecidableEq

def locPosTechMaskSatellite : UInt32 := 0x01
def locPosTechMaskSensors : UInt32 := 0x08
def locPosTechMaskHybrid : UInt32 := 0x80

/-- What is read of a location. `accuracyOver` compares its accuracy, a `float`, with a threshold. -/
structure UlpLocation where
  hasAccuracy : Bool
  accuracyOver : UInt32 → Bool

/-- The callbacks that are not NULL, and the settings of `gps_conf`. -/
structure LocConf where
  locationCb : Bool
  svStatusCb : Bool
  gpsMeasurementCb : Bool
  statusCb : Bool
  intermediateFix : UInt8
  accuracyThres : UInt32
  capabilities : UInt32
  deriving DecidableEq

/-- A client with all callbacks, on a modem that can do everything. -/
def fullConf : LocConf := ⟨true,true,true,true,0,0,0xffffffff⟩

/-- What crosses the boundary of the engine: its calls of the modem and of the client's callbacks,
and the requests and reports that a history has to tell apart. -/
inductive LocEvent
  | setPositionMode (mode : LocPosMode)
  | startFix (mode : LocPosMode)
  | stopFix
  | setInSession (inSession : Bool)
  | deleteAidingData (f : GpsAidingData)
  | locationCb
  | svStatusCb
  | gpsMeasurementCb
  | statusCb (status : GpsStatusValue)
  | delAidDataRequest (f : GpsAidingData)
  | statusReport (status : GpsStatusValue)
  | muteOneSession
  deriving DecidableEq

/-- `loc_eng_data_s_type` with its adapter. The mute state is in `ni`, beside the rest that the
handler of network-initiated requests uses. -/
structure State where
  conf : LocConf
  mFixCriteria : LocPosMode := { mode := .invalid }
  mNavigating : Bool := false
  engineStatus : GpsStatusValue := gpsStatusNone
  fixSessionStatus : GpsStatusValue := gpsStatusNone
  aidingDataForDeletion : GpsAidingData := 0
  ni : NiState := NiState.zero
  trace : List LocEvent := []

namespace State

def emit (s : State) (e : LocEvent) : State := { s with trace := s.trace ++ [e] }

/-! ## The adapter -/

def setPositionMode (s : State) (posMode : LocPosMode) : State :=
  { s with mFixCriteria := posMode }.emit (.setPositionMode posMode)

def startFix (s : State) : State := s.emit (.startFix s.mFixCriteria)

def setInSession (s : State) (inSession : Bool) : State :=
  { s with
    mNavigating := inSession
    mFixCriteria :=
      if inSession then s.mFixCriteria else { s.mFixCriteria with mode := .invalid } }.emit
    (.setInSession inSession)

end State

/-! ## The handlers -/

/-- `loc_set_position_mode` and `loc_eng_set_position_mode`, which run in the client's thread. -/
def locSetPositionMode (capabilities : UInt32) (c : ClientMode) : LocPosMode :=
  let locMode : LocPositionMode :=
    if c.mode = gpsPositionModeMsBased then .msBased
    else if c.mode = gpsPositionModeMsAssisted then .msAssisted
    else .standalone
  { mode := if capabilities &&& 2 = 0 ∧ capabilities &&& 4 = 0 then .standalone else locMode
    recurrence := c.recurrence
    minInterval :=
      if c.minInterval < minPossibleFixInterval then minPossibleFixInterval else c.minInterval
    preferredAccuracy := c.preferredAccuracy
    preferredTime := c.preferredTime }

/-- The results of `startFix` after which the session counts as started. -/
def startsSession (err : LocApiAdapterErr) : Bool :=
  err = .success || err = .phoneOffline || err = .internal

/-- `loc_eng_start_handler`; `err` is what the modem answers. -/
def locEngStartHandler (s : State) (err : LocApiAdapterErr) : State :=
  if s.mNavigating then s
  else if startsSession err then s.startFix.setInSession true
  else s.startFix

def locEngStopHandler (s : State) : State :=
  if s.mNavigating then (s.emit .stopFix).setInSession false else s

/-- Whether `LocEngReportPosition::proc` reports a location to the client. -/
def reports (c : LocConf) (loc : UlpLocation) (status : LocSessStatus) (techMask : UInt32) : Bool :=
  c.locationCb &&
    (status = .failure ||
      (status = .success &&
        (locPosTechMaskSatellite ||| locPosTechMaskSensors ||| locPosTechMaskHybrid) &&& techMask ≠ 0) ||
      (c.intermediateFix = 1 &&
        !(loc.hasAccuracy && c.accuracyThres ≠ 0 && loc.accuracyOver c.accuracyThres)))

/-- `LocEngReportPosition::proc`, less the NMEA sentences. A report ends a single-shot session. -/
def locEngReportPosition (s : State) (loc : UlpLocation) (status : LocSessStatus)
    (techMask : UInt32) : State :=
  if s.ni.muteSessionState = .inSession then s
  else if reports s.conf loc status techMask then
    let t := s.emit .locationCb
    if s.mFixCriteria.recurrence = gpsPositionRecurrenceSingle then
      if status = .intermediate then (t.emit .stopFix).setInSession false else t.setInSession false
    else t
  else s

/-- `LocEngReportSv::proc`, less the NMEA sentences. -/
def locEngReportSv (s : State) : State :=
  if s.ni.muteSessionState ≠ .inSession ∧ s.conf.svStatusCb then s.emit .svStatusCb else s

/-- `LocEngReportGpsMeasurement::proc`. -/
def locEngReportGpsMeasurement (s : State) : State :=
  if s.ni.muteSessionState ≠ .inSession ∧ s.conf.gpsMeasurementCb then s.emit .gpsMeasurementCb else s

def begins (status : GpsStatusValue) : Bool :=
  status = gpsStatusSessionBegin || status = gpsStatusEngineOn

def ends (status : GpsStatusValue) : Bool :=
  status = gpsStatusSessionEnd || status = gpsStatusEngineOff

/-- The mute state after a status report. -/
def muteAfter (mute : MuteSession) (status : GpsStatusValue) : MuteSession :=
  let mute := if begins status ∧ mute = .wait then .inSession else mute
  if mute = .inSession ∧ ends status then .none else mute

def locInformGpsStatus (s : State) (status : GpsStatusValue) : State :=
  if s.conf.statusCb then s.emit (.statusCb status) else s

/-- The part of `loc_eng_report_status` that tells the client. -/
def informClient (s : State) (status : GpsStatusValue) : State :=
  if status ≠ gpsStatusNone ∧ ¬ (status = gpsStatusSessionEnd ∧ s.mNavigating) ∧
      ¬ (status = gpsStatusSessionBegin ∧ ¬ s.mNavigating) ∧
      s.ni.muteSessionState ≠ .inSession then locInformGpsStatus s status
  else s

/-- `loc_eng_report_status`. -/
def locEngReportStatus (s : State) (status : GpsStatusValue) : State :=
  let s := s.emit (.statusReport status)
  let s := { s with ni := { s.ni with muteSessionState := muteAfter s.ni.muteSessionState status } }
  let s := informClient s status
  { s with
    engineStatus :=
      if status = gpsStatusEngineOn ∨ status = gpsStatusEngineOff then status else s.engineStatus
    fixSessionStatus :=
      if status = gpsStatusSessionBegin ∨ status = gpsStatusSessionEnd then status
      else s.fixSessionStatus }

def updateAidingDataForDeletion (s : State) : State :=
  if s.engineStatus ≠ gpsStatusEngineOn ∧ s.aidingDataForDeletion ≠ 0 then
    { s with aidingDataForDeletion := 0 }.emit (.deleteAidingData s.aidingDataForDeletion)
  else s

/-- `LocEngDelAidData::proc`. -/
def locEngDelAidData (s : State) (f : GpsAidingData) : State :=
  updateAidingDataForDeletion
    { s with aidingDataForDeletion := f, trace := s.trace ++ [.delAidDataRequest f] }

def locEngHandleEngineDown (s : State) : State :=
  locEngReportStatus { s with ni := locEngNiResetOnEngineRestart s.ni } gpsStatusEngineOff

/-- `loc_eng_handle_engine_up`. What it sends to the thread again and what it does with the AGPS
state machines does not concern this state. -/
def locEngHandleEngineUp (s : State) (err : LocApiAdapterErr) : State :=
  if s.mNavigating then locEngStartHandler (s.setInSession false) err else s

/-- Whether `loc_eng_ni_request_handler` calls `loc_eng_mute_one_session`. -/
def mutesOneSession (n : NiState) : NiAction → Bool
  | .request notif _ _ =>
    n.niNotifyCb && (pSession n notif).isSome && notif.notifyFlags = gpsNiPrivacyOverride
  | _ => false

/-- The messages, with the modem's answers to the calls they make. `ni` is any action of the module
of network-initiated requests. -/
inductive LocMsg
  | positionMode (c : ClientMode)
  | startFix (err : LocApiAdapterErr)
  | stopFix
  | reportPosition (loc : UlpLocation) (status : LocSessStatus) (techMask : UInt32)
  | reportSv
  | reportGpsMeasurement
  | reportStatus (status : GpsStatusValue)
  | delAidData (f : GpsAidingData)
  | engineDown
  | engineUp (err : LocApiAdapterErr)
  | ni (a : NiAction)

/-- `proc` of each message. -/
def proc (s : State) : LocMsg → Option State
  | .positionMode c => some (s.setPositionMode (locSetPositionMode s.conf.capabilities c))
  | .startFix err => some (locEngStartHandler s err)
  | .stopFix => some (locEngStopHandler s)
  | .reportPosition loc status techMask => some (locEngReportPosition s loc status techMask)
  | .reportSv => some (locEngReportSv s)
  | .reportGpsMeasurement => some (locEngReportGpsMeasurement s)
  | .reportStatus status => some (updateAidingDataForDeletion (locEngReportStatus s status))
  | .delAidData f => some (locEngDelAidData s f)
  | .engineDown => some (locEngHandleEngineDown s)
  | .engineUp err => some (locEngHandleEngineUp s err)
  | .ni a => (Ni.step s.ni a).map fun n =>
    { s with
      ni := n
      trace := if mutesOneSession s.ni a then s.trace ++ [.muteOneSession] else s.trace }

/-! ## What the handlers do -/

variable {s t : State}

theorem informClient_eq (s : State) (status : GpsStatusValue) :
    ∃ es : List LocEvent, (es = [] ∨ es = [.statusCb status]) ∧
      informClient s status = { s with trace := s.trace ++ es } := by
  unfold informClient locInformGpsStatus
  split
  · split
    · exact ⟨[.statusCb status],Or.inr rfl,rfl⟩
    · exact ⟨[],Or.inl rfl,by rw [List.append_nil]⟩
  · exact ⟨[],Or.inl rfl,by rw [List.append_nil]⟩

/-- A status report, and whether the client is told. -/
theorem locEngReportStatus_eq (s : State) (status : GpsStatusValue) :
    ∃ es : List LocEvent, (es = [] ∨ es = [.statusCb status]) ∧
      locEngReportStatus s status = { s with
        ni := { s.ni with muteSessionState := muteAfter s.ni.muteSessionState status }
        engineStatus :=
          if status = gpsStatusEngineOn ∨ status = gpsStatusEngineOff then status else s.engineStatus
        fixSessionStatus :=
          if status = gpsStatusSessionBegin ∨ status = gpsStatusSessionEnd then status
          else s.fixSessionStatus
        trace := s.trace ++ .statusReport status :: es } := by
  obtain ⟨es,hes,he⟩ := informClient_eq { s.emit (.statusReport status) with
    ni := { s.ni with muteSessionState := muteAfter s.ni.muteSessionState status } } status
  refine ⟨es,hes,?_⟩
  unfold locEngReportStatus
  dsimp only [State.emit] at he ⊢
  rw [he,List.append_assoc,List.singleton_append]

theorem engineStatus_reportStatus (s : State) (status : GpsStatusValue) :
    (locEngReportStatus s status).engineStatus =
      if status = gpsStatusEngineOn ∨ status = gpsStatusEngineOff then status else s.engineStatus := by
  obtain ⟨es,-,he⟩ := locEngReportStatus_eq s status
  rw [he]

/-- What is waiting is deleted, if it may be. -/
theorem updateAidingDataForDeletion_eq (s : State) :
    ∃ es : List LocEvent, (es = [] ∨ es = [.deleteAidingData s.aidingDataForDeletion]) ∧
      updateAidingDataForDeletion s = { s with
        aidingDataForDeletion :=
          if s.engineStatus ≠ gpsStatusEngineOn then 0 else s.aidingDataForDeletion
        trace := s.trace ++ es } := by
  unfold updateAidingDataForDeletion
  split
  case _ h => exact ⟨_,Or.inr rfl,by rw [if_pos h.1]; rfl⟩
  case _ h =>
    refine ⟨[],Or.inl rfl,?_⟩
    split
    case _ hoff =>
      have hnone : s.aidingDataForDeletion = 0 := by
        by_contra hne
        exact h ⟨hoff,hne⟩
      rw [List.append_nil,← hnone]
    case _ => rw [List.append_nil]

/-- A relation that holds across what the handlers of a session are made of: calls to the modem,
the start and the end of the session, and reports to the client where it is not muted. -/
structure Follows (R : State → State → Prop) : Prop where
  refl : ∀ s, R s s
  trans : ∀ {s t u}, R s t → R t u → R s u
  startFix : ∀ s, R s s.startFix
  stopFix : ∀ s, R s (s.emit .stopFix)
  setInSession : ∀ s inSession, R s (s.setInSession inSession)
  report : ∀ s, s.ni.muteSessionState ≠ .inSession →
    ∀ e ∈ [LocEvent.locationCb,.svStatusCb,.gpsMeasurementCb], R s (s.emit e)

namespace Follows

variable {R : State → State → Prop} (h : Follows R)

include h

theorem startHandler (s : State) (err : LocApiAdapterErr) : R s (locEngStartHandler s err) := by
  unfold locEngStartHandler
  split
  · exact h.refl s
  split
  · exact h.trans (h.startFix s) (h.setInSession _ true)
  · exact h.startFix s

theorem stopHandler (s : State) : R s (locEngStopHandler s) := by
  unfold locEngStopHandler
  split
  · exact h.trans (h.stopFix s) (h.setInSession _ false)
  · exact h.refl s

theorem reportPosition (s : State) (loc : UlpLocation) (status : LocSessStatus)
    (techMask : UInt32) : R s (locEngReportPosition s loc status techMask) := by
  unfold locEngReportPosition
  dsimp only
  split
  · exact h.refl s
  case _ hmute =>
    have hcb : R s (s.emit .locationCb) := h.report s hmute _ (by simp)
    split
    · split
      · split
        · exact h.trans (h.trans hcb (h.stopFix _)) (h.setInSession _ false)
        · exact h.trans hcb (h.setInSession _ false)
      · exact hcb
    · exact h.refl s

theorem reportSv (s : State) : R s (locEngReportSv s) := by
  unfold locEngReportSv
  split
  case _ hmute => exact h.report s hmute.1 _ (by simp)
  case _ => exact h.refl s

theorem reportGpsMeasurement (s : State) : R s (locEngReportGpsMeasurement s) := by
  unfold locEngReportGpsMeasurement
  split
  case _ hmute => exact h.report s hmute.1 _ (by simp)
  case _ => exact h.refl s

theorem handleEngineUp (s : State) (err : LocApiAdapterErr) : R s (locEngHandleEngineUp s err) := by
  unfold locEngHandleEngineUp
  split
  · exact h.trans (h.setInSession s false) (h.startHandler _ err)
  · exact h.refl s

end Follows

end LocEng
end Kitakami

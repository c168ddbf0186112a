import Kitakami.Base.Monitor
import Kitakami.Gps.LocEng

/-!
# Muted sessions

A request that overrides the user's privacy mutes one session: nothing is to be
reported from its begin to its end. The mute state is one variable, so a second
request that is accepted during a muted session sets it back to waiting, and
reporting is open again.
-/

namespace Kitakami
namespace LocEng

open Ni Runs Monitor

/-- What a trace says on muting: whether a session to come is to be muted, and whether the present
one is. -/
structure MuteHistory where
  called : Bool := false
  muted : Bool := false
  deriving DecidableEq

namespace MuteHistory

def next (h : MuteHistory) : LocEvent → MuteHistory
  | .muteOneSession => { h with called := true }
  | .statusReport status =>
    if begins status then ⟨false,h.called || h.muted⟩
    else if ends status then { h with muted := false }
    else h
  | _ => h

/-- Nothing is reported during a muted session. -/
def ok (h : MuteHistory) : LocEvent → Prop
  | .locationCb | .svStatusCb | .gpsMeasurementCb => h.muted = false
  | _ => True

end MuteHistory

def muteHistory (s : State) : MuteHistory := watch MuteHistory.next {} s.trace

/-- No position, satellite or measurement report of a trace reaches the client in a muted session. -/
def StaysMuted (trace : List LocEvent) : Prop := Accepts MuteHistory.next MuteHistory.ok {} trace

/-- No request to mute is accepted during a muted session. -/
def MutesOnce (s : State) : LocMsg → Prop
  | .ni a => mutesOneSession s.ni a = true → s.ni.muteSessionState ≠ .inSession
  | _ => True

/-- The mute state is what the trace says. -/
def MuteInv (s : State) (h : MuteHistory) : Prop :=
  h = ⟨s.ni.muteSessionState = .wait,s.ni.muteSessionState = .inSession⟩

variable {s t : State}

theorem not_ends_of_begins {status : GpsStatusValue} (h : begins status = true) :
    ends status = false := by
  simp only [begins,Bool.or_eq_true,decide_eq_true_eq] at h
  rcases h with rfl | rfl <;> rfl

/-! ## The mute state of the handlers -/

theorem mute_respond (n : NiState) (notifId : ℤ) (userResponse : GpsUserResponseType) :
    (locEngNiRespond n notifId userResponse).muteSessionState = n.muteSessionState := by
  unfold locEngNiRespond
  dsimp only
  split
  · rfl
  split
  · rfl
  · unfold ignoreOrdinary
    split <;> rfl

theorem mute_restart (n : NiState) :
    (locEngNiResetOnEngineRestart n).muteSessionState = n.muteSessionState := by
  unfold locEngNiResetOnEngineRestart
  split <;> rfl

theorem mute_request (n : NiState) (notif : GpsNiNotification) (passThrough created : Bool) :
    (locEngNiRequestHandler n notif passThrough created).muteSessionState =
      if mutesOneSession n (.request notif passThrough created) then .wait
      else n.muteSessionState := by
  unfold locEngNiRequestHandler mutesOneSession
  cases hcb : n.niNotifyCb with
  | false => simp
  | true =>
    cases hp : pSession n notif with
    | none => simp [hp]
    | some k => simp [hp,acceptRequest]

/-- Of what happens in the module of network-initiated requests, only a request that overrides the
user's privacy changes the mute state. -/
theorem mute_step {n n' : NiState} {a : NiAction} (h : Ni.step n a = some n') :
    n'.muteSessionState = if mutesOneSession n a then .wait else n.muteSessionState := by
  cases a with
  | init =>
    obtain rfl := Option.some.inj h
    unfold locEngNiInit
    split <;> rfl
  | request notif passThrough created =>
    obtain rfl := Option.some.inj h
    exact mute_request n notif passThrough created
  | respond notifId userResponse =>
    obtain rfl := Option.some.inj h
    exact mute_respond n notifId userResponse
  | restart =>
    obtain rfl := Option.some.inj h
    exact mute_restart n
  | threadStart i =>
    simp only [Ni.step] at h
    split at h
    · split at h
      · obtain rfl := Option.some.inj h
        unfold threadStart
        split <;> rfl
      · cases h
    · cases h
  | threadWake i =>
    simp only [Ni.step] at h
    repeat' split at h
    all_goals cases h
    rfl
  | threadTimeout i =>
    simp only [Ni.step] at h
    repeat' split at h
    all_goals cases h
    rfl
  | threadTail i =>
    simp only [Ni.step] at h
    repeat' split at h
    all_goals cases h
    rfl

/-! ## The steps -/

theorem muteAfter_eq (mute : MuteSession) (status : GpsStatusValue) :
    MuteHistory.next ⟨mute = .wait,mute = .inSession⟩ (.statusReport status) =
      ⟨muteAfter mute status = .wait,muteAfter mute status = .inSession⟩ := by
  cases hb : begins status
  · cases he : ends status <;> cases mute <;> simp [MuteHistory.next,muteAfter,hb,he]
  · have he := not_ends_of_begins hb
    cases mute <;> simp [MuteHistory.next,muteAfter,hb,he]

/-- A step has extended the trace by events that are accepted. -/
def MuteStep (s t : State) : Prop :=
  ∃ es, t.trace = s.trace ++ es ∧
    Accepts MuteHistory.next MuteHistory.ok (muteHistory s) es ∧ MuteInv t (muteHistory t)

theorem MuteStep.of_watch (es : List LocEvent) (htrace : t.trace = s.trace ++ es)
    (hg : Accepts MuteHistory.next MuteHistory.ok (muteHistory s) es)
    (hi : MuteInv t (watch MuteHistory.next (muteHistory s) es)) : MuteStep s t :=
  ⟨es,htrace,hg,by rw [muteHistory,htrace,watch_append]; exact hi⟩

theorem MuteStep.inv (h : MuteStep s t) : MuteInv t (muteHistory t) := h.choose_spec.2.2

theorem MuteStep.trans {u : State} (h : MuteStep s t) (h' : MuteStep t u) : MuteStep s u := by
  obtain ⟨es,htrace,hes,-⟩ := h
  obtain ⟨fs,htrace',hfs,hi⟩ := h'
  refine ⟨es ++ fs,by rw [htrace',htrace,List.append_assoc],?_,hi⟩
  rw [muteHistory,htrace,watch_append] at hfs
  exact (accepts_append _ es fs).mpr ⟨hes,hfs⟩

theorem MuteStep.refl (hi : MuteInv s (muteHistory s)) : MuteStep s s :=
  .of_watch [] (List.append_nil _).symm trivial hi

/-- An event that is neither a report to the client nor concerns muting. -/
theorem MuteStep.emit (hi : MuteInv s (muteHistory s)) {e : LocEvent}
    (hnext : ∀ h : MuteHistory, h.next e = h) (hok : ∀ h : MuteHistory, h.ok e) :
    MuteStep s (s.emit e) := by
  refine .of_watch [e] rfl ⟨hok _,trivial⟩ ?_
  rw [watch_cons,hnext]
  exact hi

/-- A report to the client, out of a muted session. -/
theorem MuteStep.report (hi : MuteInv s (muteHistory s)) {e : LocEvent}
    (hnext : ∀ h : MuteHistory, h.next e = h) (hok : ∀ h : MuteHistory, h.muted = false → h.ok e)
    (hmute : s.ni.muteSessionState ≠ .inSession) : MuteStep s (s.emit e) := by
  refine .of_watch [e] rfl ⟨hok _ ?_,trivial⟩ ?_
  · rw [hi]
    exact decide_eq_false hmute
  · rw [watch_cons,hnext]
    exact hi

/-- The handlers of a session report nothing while it is muted. -/
theorem muteStep_follows : Follows fun s t => MuteInv s (muteHistory s) → MuteStep s t where
  refl _ hi := .refl hi
  trans h h' hi := (h hi).trans (h' (h hi).inv)
  startFix _ hi := .emit hi (fun _ => rfl) fun _ => trivial
  stopFix _ hi := .emit hi (fun _ => rfl) fun _ => trivial
  setInSession _ inSession hi := .of_watch [.setInSession inSession] rfl ⟨trivial,trivial⟩ hi
  report s hmute e he hi := by
    simp only [List.mem_cons,List.not_mem_nil,or_false] at he
    rcases he with rfl | rfl | rfl <;> exact .report hi (fun _ => rfl) (fun _ h => h) hmute

theorem muteStep_reportStatus (hi : MuteInv s (muteHistory s)) (status : GpsStatusValue) :
    MuteStep s (locEngReportStatus s status) := by
  obtain ⟨es,hes,he⟩ := locEngReportStatus_eq s status
  rw [he]
  have hnext : watch MuteHistory.next (muteHistory s) (.statusReport status :: es) =
      (muteHistory s).next (.statusReport status) := by
    rcases hes with rfl | rfl <;> rfl
  refine .of_watch (.statusReport status :: es) rfl ?_ ?_
  · rcases hes with rfl | rfl <;> simp [MuteHistory.ok]
  · rw [hnext,hi]
    exact muteAfter_eq s.ni.muteSessionState status

theorem muteStep_updateAidingDataForDeletion (hi : MuteInv s (muteHistory s)) :
    MuteStep s (updateAidingDataForDeletion s) := by
  obtain ⟨es,hes,he⟩ := updateAidingDataForDeletion_eq s
  rw [he]
  refine .of_watch es rfl ?_ ?_
  · rcases hes with rfl | rfl <;> simp [MuteHistory.ok]
  · rcases hes with rfl | rfl <;> exact hi

theorem muteStep_ni (hi : MuteInv s (muteHistory s)) {a : NiAction} {n : NiState}
    (ha : mutesOneSession s.ni a = true → s.ni.muteSessionState ≠ .inSession)
    (hn : Ni.step s.ni a = some n) :
    MuteStep s { s with
      ni := n
      trace := if mutesOneSession s.ni a then s.trace ++ [.muteOneSession] else s.trace } := by
  have hmute := mute_step hn
  split
  case _ hcalled =>
    rw [if_pos hcalled] at hmute
    refine .of_watch [.muteOneSession] rfl ⟨trivial,trivial⟩ ?_
    have hno := ha hcalled
    rw [hi]
    simp [MuteInv,MuteHistory.next,hmute,hno]
  case _ hcalled =>
    rw [if_neg hcalled] at hmute
    refine .of_watch [] (List.append_nil _).symm trivial ?_
    rw [watch_nil,hi]
    simp [MuteInv,hmute]

theorem muteStep_proc (hi : MuteInv s (muteHistory s)) {msg : LocMsg} (hg : MutesOnce s msg)
    (h : proc s msg = some t) : MuteStep s t := by
  cases msg with
  | ni a =>
    obtain ⟨n,hn,rfl⟩ := Option.map_eq_some_iff.mp h
    exact muteStep_ni hi hg hn
  | positionMode c =>
    obtain rfl := Option.some.inj h
    exact .of_watch [_] rfl ⟨trivial,trivial⟩ hi
  | startFix err =>
    obtain rfl := Option.some.inj h
    exact muteStep_follows.startHandler s err hi
  | stopFix =>
    obtain rfl := Option.some.inj h
    exact muteStep_follows.stopHandler s hi
  | reportPosition loc status techMask =>
    obtain rfl := Option.some.inj h
    exact muteStep_follows.reportPosition s loc status techMask hi
  | reportSv =>
    obtain rfl := Option.some.inj h
    exact muteStep_follows.reportSv s hi
  | reportGpsMeasurement =>
    obtain rfl := Option.some.inj h
    exact muteStep_follows.reportGpsMeasurement s hi
  | reportStatus status =>
    obtain rfl := Option.some.inj h
    have hr := muteStep_reportStatus hi status
    exact hr.trans (muteStep_updateAidingDataForDeletion hr.inv)
  | delAidData f =>
    obtain rfl := Option.some.inj h
    have hd : MuteStep s { s with
        aidingDataForDeletion := f, trace := s.trace ++ [.delAidDataRequest f] } :=
      .of_watch [.delAidDataRequest f] rfl ⟨trivial,trivial⟩ hi
    exact hd.trans (muteStep_updateAidingDataForDeletion hd.inv)
  | engineDown =>
    obtain rfl := Option.some.inj h
    have hmute := mute_restart s.ni
    have hr : MuteStep s { s with ni := locEngNiResetOnEngineRestart s.ni } := by
      refine .of_watch [] (List.append_nil _).symm trivial ?_
      rw [watch_nil,hi]
      simp [MuteInv,hmute]
    exact hr.trans (muteStep_reportStatus hr.inv _)
  | engineUp err =>
    obtain rfl := Option.some.inj h
    exact muteStep_follows.handleEngineUp s err hi

/-- A session that overrides the user's privacy stays muted to its end in every run in which no
further request to mute is accepted during a muted session. -/
theorem staysMuted {conf : LocConf} {msgs : List LocMsg}
    (hr : run proc { conf := conf } msgs = some s)
    (hg : Along proc MutesOnce { conf := conf } msgs) : StaysMuted s.trace :=
  accepts_run State.trace (I:=MuteInv) (s:={ conf := conf }) (fun _ _ _ hi hg ht => muteStep_proc hi hg ht) rfl
    trivial hg hr

/-- Such a request opens reporting again at once. -/
theorem reports_of_mutesOneSession {a : NiAction} {n : NiState} (hn : Ni.step s.ni a = some n)
    (ha : mutesOneSession s.ni a = true) (hsv : s.conf.svStatusCb = true)
    (hmuted : (muteHistory s).muted = true) :
    ∃ t, run proc s [.ni a,.reportSv] = some t ∧ ¬ StaysMuted t.trace := by
  have hmute := mute_step hn
  rw [if_pos ha] at hmute
  have hni : proc s (.ni a) = some { s with ni := n, trace := s.trace ++ [.muteOneSession] } := by
    simp [proc,hn,ha]
  have hreport : locEngReportSv { s with ni := n, trace := s.trace ++ [.muteOneSession] } =
      State.emit { s with ni := n, trace := s.trace ++ [.muteOneSession] } .svStatusCb :=
    if_pos ⟨by simp [hmute],hsv⟩
  refine ⟨_,run_cons_eq_some.mpr ⟨_,hni,rfl⟩,fun h => ?_⟩
  rw [hreport] at h
  have hok := h.mid
  rw [watch_append] at hok
  exact absurd hmuted (Bool.eq_false_iff.mp hok)

instance decidableMutesOnce (s : State) : ∀ msg, Decidable (MutesOnce s msg)
  | .ni a => inferInstanceAs (Decidable (mutesOneSession s.ni a = true →
      s.ni.muteSessionState ≠ .inSession))
  | .positionMode _ | .startFix _ | .engineUp _ | .stopFix | .reportPosition .. | .reportSv
  | .reportGpsMeasurement | .reportStatus _ | .delAidData _ | .engineDown => isTrue trivial

def overridingRequest (niType : ℤ) : LocMsg := .ni (.request ⟨niType,gpsNiPrivacyOverride,0⟩ true true)

/-- A muted session during which a second request is refused, and a report after it. -/
def mutedSession : List LocMsg :=
  [.ni .init,overridingRequest 1,.reportStatus gpsStatusSessionBegin,.reportSv,overridingRequest 1,
    .reportSv,.reportStatus gpsStatusSessionEnd,.reportSv]

theorem staysMuted_mutedSession :
    ∃ s, run proc { conf := fullConf } mutedSession = some s ∧ StaysMuted s.trace ∧
      s.trace.count .svStatusCb = 1 := by
  have hrun : (run proc { conf := fullConf } mutedSession).map (fun s =>
      s.trace.count .svStatusCb) = some 1 := by decide +kernel
  have hg : Along proc MutesOnce { conf := fullConf } mutedSession := by decide +kernel
  obtain ⟨s,hs,hcount⟩ := Option.map_eq_some_iff.mp hrun
  exact ⟨s,hs,staysMuted hs hg,hcount⟩

/-- An emergency request comes during the muted session. -/
def secondOverride : List LocMsg :=
  [.ni .init,overridingRequest 1,.reportStatus gpsStatusSessionBegin,
    overridingRequest gpsNiTypeEmergencySupl,.reportSv]

theorem not_staysMuted_secondOverride :
    ∃ s, run proc { conf := fullConf } secondOverride = some s ∧ ¬ StaysMuted s.trace := by
  have hrun : (run proc { conf := fullConf } secondOverride).map State.trace =
      some ([.muteOneSession,.statusReport gpsStatusSessionBegin,.muteOneSession] ++
        .svStatusCb :: []) := by decide +kernel
  obtain ⟨s,hs,htrace⟩ := Option.map_eq_some_iff.mp hrun
  refine ⟨s,hs,fun h => ?_⟩
  rw [htrace] at h
  have hmuted : (watch MuteHistory.next {} [.muteOneSession,.statusReport gpsStatusSessionBegin,
    .muteOneSession]).muted = false := h.mid
  exact absurd hmuted (by decide)

end LocEng
end Kitakami

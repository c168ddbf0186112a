import Kitakami.Base.Monitor
import Kitakami.Gps.LocEng

/-!
# The mode of a fix

The end of a session makes the position mode of the adapter invalid, and the
handler of a modem restart ends the session in order to start it again. A fix is
started in the mode that the client has set last exactly if no session has ended
since, so never by a restart of the modem.
-/

namespace Kitakami
namespace LocEng

open Ni Runs Monitor

/-- What a trace says on the client's mode: the last one that was set, and whether no session has
ended since. -/
structure ModeHistory where
  last : Option LocPosMode := none
  kept : Bool := false
  deriving DecidableEq

namespace ModeHistory

def next (h : ModeHistory) : LocEvent → ModeHistory
  | .setPositionMode mode => ⟨some mode,true⟩
  | .setInSession false => { h with kept := false }
  | _ => h

/-- A fix is started in the mode that was set last, and in a valid one. -/
def ok (h : ModeHistory) : LocEvent → Prop
  | .startFix mode => mode.mode ≠ .invalid ∧ ∃ p, h.last = some p ∧ mode.mode = p.mode
  | _ => True

end ModeHistory

def modeHistory (s : State) : ModeHistory := watch ModeHistory.next {} s.trace

/-- Every fix of a trace is started in the mode that was set last. -/
def StartsInMode (trace : List LocEvent) : Prop := Accepts ModeHistory.next ModeHistory.ok {} trace

/-- The client's mode is still there when a fix is started. -/
def ModeKept (s : State) : LocMsg → Prop
  | .startFix _ => s.mNavigating = false → (modeHistory s).kept = true
  | .engineUp _ => s.mNavigating = false
  | _ => True

/-- The adapter has the mode that was set last, or none if a session has ended since. -/
def ModeInv (s : State) (h : ModeHistory) : Prop :=
  if h.kept then h.last = some s.mFixCriteria ∧ s.mFixCriteria.mode ≠ .invalid
  else s.mFixCriteria.mode = .invalid

/-- The events that do not concern the mode. -/
def LocEvent.idle : LocEvent → Bool
  | .setPositionMode _ | .startFix _ | .setInSession _ => false
  | _ => true

theorem watch_idle {es : List LocEvent} (h : ModeHistory) (hes : ∀ e ∈ es, e.idle = true) :
    watch ModeHistory.next h es = h := by
  induction es with
  | nil => rfl
  | cons e es ih =>
    have he : h.next e = h := by
      have hidle := hes e List.mem_cons_self
      cases e <;> first | rfl | cases hidle
    rw [watch_cons,he]
    exact ih fun e he => hes e (List.mem_cons_of_mem _ he)

theorem accepts_idle {es : List LocEvent} (h : ModeHistory) (hes : ∀ e ∈ es, e.idle = true) :
    Accepts ModeHistory.next ModeHistory.ok h es := by
  induction es generalizing h with
  | nil => trivial
  | cons e es ih =>
    have hidle := hes e List.mem_cons_self
    refine ⟨?_,ih _ fun e he => hes e (List.mem_cons_of_mem _ he)⟩
    cases e <;> trivial

theorem locSetPositionMode_valid (capabilities : UInt32) (c : ClientMode) :
    (locSetPositionMode capabilities c).mode ≠ .invalid := by
  unfold locSetPositionMode
  dsimp only
  split
  · decide
  · split
    · decide
    · split <;> decide

/-- A step has extended the trace by events that are accepted exactly if `g` holds. -/
def ModeStep (s t : State) (g : Prop) : Prop :=
  ∃ es, t.trace = s.trace ++ es ∧
    (Accepts ModeHistory.next ModeHistory.ok (modeHistory s) es ↔ g) ∧ ModeInv t (modeHistory t)

variable {s t : State}

theorem ModeStep.of_watch {g : Prop} (es : List LocEvent) (htrace : t.trace = s.trace ++ es)
    (hg : Accepts ModeHistory.next ModeHistory.ok (modeHistory s) es ↔ g)
    (hi : ModeInv t (watch ModeHistory.next (modeHistory s) es)) : ModeStep s t g :=
  ⟨es,htrace,hg,by rw [modeHistory,htrace,watch_append]; exact hi⟩

theorem ModeStep.of_idle (hi : ModeInv s (modeHistory s)) (es : List LocEvent)
    (htrace : t.trace = s.trace ++ es) (hes : ∀ e ∈ es, e.idle = true)
    (hmode : t.mFixCriteria = s.mFixCriteria) : ModeStep s t True := by
  refine .of_watch es htrace (iff_true_intro (accepts_idle _ hes)) ?_
  rw [watch_idle _ hes]
  unfold ModeInv at hi ⊢
  rwa [hmode]

/-- A session ends. -/
theorem ModeStep.of_end (es : List LocEvent) (hes : ∀ e ∈ es, e.idle = true)
    (htrace : t.trace = s.trace ++ es ++ [.setInSession false])
    (hmode : t.mFixCriteria.mode = .invalid) : ModeStep s t True := by
  refine .of_watch (es ++ [.setInSession false]) (by rw [htrace,List.append_assoc]) ?_ ?_
  · simp [accepts_idle _ hes,ModeHistory.ok]
  · rw [watch_append,watch_idle _ hes]
    exact hmode

theorem modeStep_startHandler (hi : ModeInv s (modeHistory s)) (err : LocApiAdapterErr) :
    ModeStep s (locEngStartHandler s err) (s.mNavigating = false → (modeHistory s).kept = true) := by
  have hok : (modeHistory s).ok (.startFix s.mFixCriteria) ↔ (modeHistory s).kept = true := by
    unfold ModeInv at hi
    split at hi
    case _ hkept => exact iff_of_true ⟨hi.2,_,hi.1,rfl⟩ hkept
    case _ hkept => exact iff_of_false (fun h => h.1 hi) hkept
  unfold locEngStartHandler
  split
  case _ hnav =>
    refine .of_watch [] (List.append_nil _).symm (iff_of_true trivial fun hoff => ?_) hi
    rw [hnav] at hoff
    cases hoff
  case _ hnav =>
    have hg : (modeHistory s).kept = true ↔
        (s.mNavigating = false → (modeHistory s).kept = true) :=
      ⟨fun h _ => h,fun h => h (Bool.eq_false_iff.mpr hnav)⟩
    rw [← hg,← hok]
    split
    · refine .of_watch [.startFix s.mFixCriteria,.setInSession true] ?_ ?_ hi
      · simp [State.startFix,State.setInSession,State.emit]
      · exact and_iff_left ⟨trivial,trivial⟩
    · exact .of_watch [.startFix s.mFixCriteria] rfl (and_iff_left trivial) hi

theorem modeStep_reportPosition (hi : ModeInv s (modeHistory s)) (loc : UlpLocation)
    (status : LocSessStatus) (techMask : UInt32) :
    ModeStep s (locEngReportPosition s loc status techMask) True := by
  unfold locEngReportPosition
  dsimp only
  split
  · exact .of_idle hi [] (List.append_nil _).symm (by simp) rfl
  split
  · split
    · split
      · exact .of_end [.locationCb,.stopFix] (by simp [LocEvent.idle])
          (by simp [State.setInSession,State.emit]) rfl
      · exact .of_end [.locationCb] (by simp [LocEvent.idle]) rfl rfl
    · exact .of_idle hi [.locationCb] rfl (by simp [LocEvent.idle]) rfl
  · exact .of_idle hi [] (List.append_nil _).symm (by simp) rfl

theorem ModeStep.trans {u : State} {g : Prop} (h : ModeStep s t True) (h' : ModeStep t u g) :
    ModeStep s u g := by
  obtain ⟨es,htrace,hes,-⟩ := h
  obtain ⟨fs,htrace',hfs,hi⟩ := h'
  refine ⟨es ++ fs,by rw [htrace',htrace,List.append_assoc],?_,hi⟩
  rw [modeHistory,htrace,watch_append] at hfs
  rw [accepts_append,hes,true_and]
  exact hfs

/-- The handler of a modem restart ends the session before it starts it again. -/
theorem modeStep_handleEngineUp (hi : ModeInv s (modeHistory s)) (err : LocApiAdapterErr) :
    ModeStep s (locEngHandleEngineUp s err) (s.mNavigating = false) := by
  unfold locEngHandleEngineUp
  split
  case _ hnav =>
    have hend : ModeStep s (s.setInSession false) True := .of_end [] (by simp) (by
      simp [State.setInSession,State.emit]) rfl
    have hkept : (modeHistory (s.setInSession false)).kept = false := by
      simp [modeHistory,State.setInSession,State.emit,ModeHistory.next]
    have hg : (s.mNavigating = false) ↔
        ((s.setInSession false).mNavigating = false → (modeHistory (s.setInSession false)).kept = true) := by
      rw [hnav,hkept]
      exact iff_of_false (by simp) fun h => absurd (h rfl) (by simp)
    rw [hg]
    exact hend.trans (modeStep_startHandler hend.choose_spec.2.2 err)
  case _ hnav =>
    exact .of_watch [] (List.append_nil _).symm (iff_of_true trivial (Bool.eq_false_iff.mpr hnav)) hi

theorem modeStep_reportStatus (hi : ModeInv s (modeHistory s)) (status : GpsStatusValue) :
    ModeStep s (locEngReportStatus s status) True := by
  obtain ⟨es,hes,he⟩ := locEngReportStatus_eq s status
  rw [he]
  exact .of_idle hi _ rfl (by rcases hes with rfl | rfl <;> simp [LocEvent.idle]) rfl

theorem modeStep_updateAidingDataForDeletion (hi : ModeInv s (modeHistory s)) :
    ModeStep s (updateAidingDataForDeletion s) True := by
  obtain ⟨es,hes,he⟩ := updateAidingDataForDeletion_eq s
  rw [he]
  exact .of_idle hi _ rfl (by rcases hes with rfl | rfl <;> simp [LocEvent.idle]) rfl

theorem modeStep_proc (hi : ModeInv s (modeHistory s)) (msg : LocMsg) (h : proc s msg = some t) :
    ModeStep s t (ModeKept s msg) := by
  have hidle : ∀ t es, t.trace = s.trace ++ es → (∀ e ∈ es, e.idle = true) →
      t.mFixCriteria = s.mFixCriteria → ModeStep s t True := fun t es => .of_idle hi es
  cases msg with
  | ni a =>
    obtain ⟨n,-,rfl⟩ := Option.map_eq_some_iff.mp h
    dsimp only [ModeKept]
    refine hidle _ (if mutesOneSession s.ni a then [.muteOneSession] else []) ?_ ?_ rfl
    · split <;> simp
    · split <;> simp [LocEvent.idle]
  | positionMode c =>
    obtain rfl := Option.some.inj h
    exact .of_watch [_] rfl (iff_of_true ⟨trivial,trivial⟩ trivial)
      ⟨rfl,locSetPositionMode_valid s.conf.capabilities c⟩
  | startFix err =>
    obtain rfl := Option.some.inj h
    exact modeStep_startHandler hi err
  | stopFix =>
    obtain rfl := Option.some.inj h
    unfold locEngStopHandler
    split
    · exact .of_end [.stopFix] (by simp [LocEvent.idle]) rfl rfl
    · exact hidle s [] (List.append_nil _).symm (by simp) rfl
  | reportPosition loc status techMask =>
    obtain rfl := Option.some.inj h
    exact modeStep_reportPosition hi loc status techMask
  | reportSv =>
    obtain rfl := Option.some.inj h
    unfold locEngReportSv
    split
    · exact hidle _ [.svStatusCb] rfl (by simp [LocEvent.idle]) rfl
    · exact hidle s [] (List.append_nil _).symm (by simp) rfl
  | reportGpsMeasurement =>
    obtain rfl := Option.some.inj h
    unfold locEngReportGpsMeasurement
    split
    · exact hidle _ [.gpsMeasurementCb] rfl (by simp [LocEvent.idle]) rfl
    · exact hidle s [] (List.append_nil _).symm (by simp) rfl
  | reportStatus status =>
    obtain rfl := Option.some.inj h
    have hr := modeStep_reportStatus hi status
    exact hr.trans (modeStep_updateAidingDataForDeletion hr.choose_spec.2.2)
  | delAidData f =>
    obtain rfl := Option.some.inj h
    have hd : ModeStep s { s with
        aidingDataForDeletion := f, trace := s.trace ++ [.delAidDataRequest f] } True :=
      hidle _ [.delAidDataRequest f] rfl (by simp [LocEvent.idle]) rfl
    exact hd.trans (modeStep_updateAidingDataForDeletion hd.choose_spec.2.2)
  | engineDown =>
    obtain rfl := Option.some.inj h
    have hr : ModeStep s { s with ni := locEngNiResetOnEngineRestart s.ni } True :=
      hidle _ [] (List.append_nil _).symm (by simp) rfl
    exact hr.trans (modeStep_reportStatus hr.choose_spec.2.2 _)
  | engineUp err =>
    obtain rfl := Option.some.inj h
    exact modeStep_handleEngineUp hi err

/-- In a run every fix is started in the client's mode exactly if no fix is started after the
session of that mode has ended, and no restart of the modem falls into a session. -/
theorem startsInMode_iff {conf : LocConf} {msgs : List LocMsg}
    (hr : run proc { conf := conf } msgs = some s) :
    StartsInMode s.trace ↔ Along proc ModeKept { conf := conf } msgs :=
  accepts_run_iff State.trace (I:=ModeInv) (fun _ msg _ hi ht => modeStep_proc hi msg ht) rfl trivial
    hr

instance decidableModeKept (s : State) : ∀ msg, Decidable (ModeKept s msg)
  | .startFix _ => inferInstanceAs (Decidable (s.mNavigating = false → (modeHistory s).kept = true))
  | .engineUp _ => inferInstanceAs (Decidable (s.mNavigating = false))
  | .positionMode _ | .stopFix | .reportPosition .. | .reportSv | .reportGpsMeasurement
  | .reportStatus _ | .delAidData _ | .engineDown | .ni _ => isTrue trivial

def trackingMode : ClientMode := ⟨gpsPositionModeMsBased,0,1000,0,0⟩
def singleMode : ClientMode := ⟨gpsPositionModeMsAssisted,gpsPositionRecurrenceSingle,1000,0,0⟩

/-- A tracking session that the client stops, and a single-shot one that a position ends. -/
def twoFixes : List LocMsg :=
  [.positionMode trackingMode,.startFix .success,.stopFix,.positionMode singleMode,
    .startFix .phoneOffline,.reportPosition ⟨false,fun _ => false⟩ .success locPosTechMaskSatellite]

theorem startsInMode_twoFixes :
    ∃ s, run proc { conf := fullConf } twoFixes = some s ∧ StartsInMode s.trace ∧
      s.mNavigating = false ∧ .startFix (locSetPositionMode 0xffffffff singleMode) ∈ s.trace := by
  have hrun : (run proc { conf := fullConf } twoFixes).map (fun s =>
      (s.mNavigating,decide (.startFix (locSetPositionMode 0xffffffff singleMode) ∈ s.trace))) =
        some (false,true) := by decide +kernel
  have hkept : Along proc ModeKept { conf := fullConf } twoFixes := by decide +kernel
  obtain ⟨s,hs,he⟩ := Option.map_eq_some_iff.mp hrun
  obtain ⟨hnav,hmem⟩ := Prod.mk.inj he
  exact ⟨s,hs,(startsInMode_iff hs).mpr hkept,hnav,of_decide_eq_true hmem⟩

/-- The modem restarts while it navigates. -/
def restartedFix : List LocMsg :=
  [.positionMode trackingMode,.startFix .success,.engineDown,.engineUp .success]

theorem not_startsInMode_restartedFix :
    ∃ s, run proc { conf := fullConf } restartedFix = some s ∧ ¬ StartsInMode s.trace := by
  have hrun : (run proc { conf := fullConf } restartedFix).map (fun s =>
      s.trace.contains (.startFix { locSetPositionMode 0xffffffff trackingMode with mode := .invalid })) =
        some true := by decide +kernel
  obtain ⟨s,hs,hmem⟩ := Option.map_eq_some_iff.mp hrun
  refine ⟨s,hs,fun h => ?_⟩
  obtain ⟨xs,ys,htrace⟩ := List.append_of_mem (List.contains_iff_mem.mp hmem)
  rw [StartsInMode,htrace] at h
  exact h.mid.1 rfl

end LocEng
end Kitakami

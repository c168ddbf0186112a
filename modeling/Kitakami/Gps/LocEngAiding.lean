import Kitakami.Base.Monitor
import Kitakami.Gps.LocEng

/-!
# The deletion of aiding data

Aiding data can only be deleted while the engine is off, so a request that comes
while it is on waits. There is room for one: a second request replaces what is
waiting, and a bit is lost unless the second asks for it again.
-/

namespace Kitakami
namespace LocEng

open Ni Runs Monitor

/-- Every bit of the first mask is in the second. -/
def Within (f g : GpsAidingData) : Prop := ∀ i, f.getLsbD i = true → g.getLsbD i = true

/-- What has been requested and not been deleted since. -/
def owed (f : GpsAidingData) : LocEvent → GpsAidingData
  | .delAidDataRequest g => f ||| g
  | .deleteAidingData g => f &&& ~~~g
  | _ => f

def owedAiding (s : State) : GpsAidingData := watch owed 0 s.trace

/-- Every bit that is owed is waiting, and one waits only while the engine is on. -/
structure NothingLost (s : State) : Prop where
  waiting : Within (owedAiding s) s.aidingDataForDeletion
  on : s.aidingDataForDeletion ≠ 0 → s.engineStatus = gpsStatusEngineOn

/-- A request does not drop a bit that is waiting, and the engine does not go down over one. -/
def AidingMerged (s : State) : LocMsg → Prop
  | .delAidData f => s.engineStatus = gpsStatusEngineOn → Within s.aidingDataForDeletion f
  | .engineDown => s.aidingDataForDeletion = 0
  | _ => True

variable {s t u : State} {f g h : GpsAidingData}

theorem Within.refl (f : GpsAidingData) : Within f f := fun _ hi => hi

theorem Within.trans (hfg : Within f g) (hgh : Within g h) : Within f h :=
  fun i hi => hgh i (hfg i hi)

theorem within_zero_iff : Within f 0 ↔ f = 0 := by
  constructor
  · intro h
    refine BitVec.eq_of_getLsbD_eq fun i _ => ?_
    have hi := h i
    simpa using hi
  · rintro rfl
    exact Within.refl 0

theorem zero_within (f : GpsAidingData) : Within 0 f := fun i hi => by simp at hi

theorem or_within_iff : Within (f ||| g) g ↔ Within f g := by
  simp only [Within,BitVec.getLsbD_or,Bool.or_eq_true]
  exact forall_congr' fun i => ⟨fun h hi => h (Or.inl hi),fun h => Or.rec h id⟩

theorem within_or (f g : GpsAidingData) : Within g (f ||| g) := by
  intro i hi
  rw [BitVec.getLsbD_or,hi,Bool.or_true]

theorem and_not_eq_zero_iff : f &&& ~~~g = 0 ↔ Within f g := by
  rw [← within_zero_iff]
  refine forall_congr' fun i => ?_
  have hlt : f.getLsbD i = true → i < 16 := BitVec.lt_of_getLsbD
  simp only [BitVec.getLsbD_and,BitVec.getLsbD_not,Bool.and_eq_true,decide_eq_true_eq,
    Bool.not_eq_true']
  cases hg : g.getLsbD i
  · simp only [and_true]
    exact ⟨fun h hf => absurd (h ⟨hf,hlt hf⟩) (by simp),fun h hf => absurd (h hf.1) (by simp)⟩
  · simp

/-! ## The steps -/

/-- Nothing has changed in what concerns the aiding data. -/
structure AidingSame (s t : State) : Prop where
  aiding : t.aidingDataForDeletion = s.aidingDataForDeletion
  engine : t.engineStatus = s.engineStatus
  owed : owedAiding t = owedAiding s

theorem AidingSame.refl (s : State) : AidingSame s s := ⟨rfl,rfl,rfl⟩

theorem AidingSame.trans (h : AidingSame s t) (h' : AidingSame t u) : AidingSame s u :=
  ⟨h'.aiding.trans h.aiding,h'.engine.trans h.engine,h'.owed.trans h.owed⟩

theorem aidingSame_of_trace (es : List LocEvent) (ha : t.aidingDataForDeletion = s.aidingDataForDeletion)
    (he : t.engineStatus = s.engineStatus) (htrace : t.trace = s.trace ++ es)
    (hes : ∀ e ∈ es, ∀ f, LocEng.owed f e = f) : AidingSame s t := by
  refine ⟨ha,he,?_⟩
  rw [owedAiding,htrace,watch_append]
  have hwatch : ∀ (es : List LocEvent) f, (∀ e ∈ es, ∀ f, LocEng.owed f e = f) →
      watch LocEng.owed f es = f := by
    intro es
    induction es with
    | nil => intro f _; rfl
    | cons e es ih =>
      intro f hes
      rw [watch_cons,hes e List.mem_cons_self]
      exact ih f fun e he => hes e (List.mem_cons_of_mem _ he)
  exact hwatch es _ hes

theorem AidingSame.nothingLost (h : AidingSame s t) : NothingLost t ↔ NothingLost s := by
  constructor
  · rintro ⟨hw,hon⟩
    rw [h.owed,h.aiding] at hw
    rw [h.aiding,h.engine] at hon
    exact ⟨hw,hon⟩
  · rintro ⟨hw,hon⟩
    refine ⟨?_,?_⟩
    · rwa [h.owed,h.aiding]
    · rwa [h.aiding,h.engine]

theorem aidingSame_emit (s : State) {e : LocEvent} (he : ∀ f, LocEng.owed f e = f) :
    AidingSame s (s.emit e) :=
  aidingSame_of_trace [e] rfl rfl rfl (by simpa using he)

/-- No handler of a session concerns the aiding data. -/
theorem aidingSame_follows : Follows AidingSame where
  refl := .refl
  trans := .trans
  startFix s := aidingSame_emit s fun _ => rfl
  stopFix s := aidingSame_emit s fun _ => rfl
  setInSession s inSession :=
    aidingSame_of_trace [.setInSession inSession] rfl rfl rfl (by simp [LocEng.owed])
  report s _ e he := aidingSame_emit s (by
    simp only [List.mem_cons,List.not_mem_nil,or_false] at he
    rcases he with rfl | rfl | rfl <;> exact fun _ => rfl)

/-- The messages that do not concern the aiding data. -/
theorem aidingSame_proc {msg : LocMsg} (h : proc s msg = some t) (hdel : ∀ f, msg ≠ .delAidData f)
    (hstatus : ∀ status, msg ≠ .reportStatus status) (hdown : msg ≠ .engineDown) : AidingSame s t := by
  cases msg with
  | delAidData f => exact absurd rfl (hdel f)
  | reportStatus status => exact absurd rfl (hstatus status)
  | engineDown => exact absurd rfl hdown
  | positionMode c =>
    obtain rfl := Option.some.inj h
    exact aidingSame_of_trace [_] rfl rfl rfl (by simp [LocEng.owed])
  | startFix err =>
    obtain rfl := Option.some.inj h
    exact aidingSame_follows.startHandler s err
  | stopFix =>
    obtain rfl := Option.some.inj h
    exact aidingSame_follows.stopHandler s
  | reportPosition loc status techMask =>
    obtain rfl := Option.some.inj h
    exact aidingSame_follows.reportPosition s loc status techMask
  | reportSv =>
    obtain rfl := Option.some.inj h
    exact aidingSame_follows.reportSv s
  | reportGpsMeasurement =>
    obtain rfl := Option.some.inj h
    exact aidingSame_follows.reportGpsMeasurement s
  | engineUp err =>
    obtain rfl := Option.some.inj h
    exact aidingSame_follows.handleEngineUp s err
  | ni a =>
    obtain ⟨n,-,rfl⟩ := Option.map_eq_some_iff.mp h
    refine aidingSame_of_trace (if mutesOneSession s.ni a then [.muteOneSession] else []) rfl rfl
      ?_ ?_
    · dsimp only
      split <;> simp
    · split <;> simp [LocEng.owed]

theorem owedAiding_update (s : State) :
    owedAiding (updateAidingDataForDeletion s) =
      if s.engineStatus ≠ gpsStatusEngineOn then owedAiding s &&& ~~~s.aidingDataForDeletion
      else owedAiding s := by
  unfold updateAidingDataForDeletion
  split
  case _ h =>
    rw [if_pos h.1]
    simp [owedAiding,State.emit,LocEng.owed]
  case _ h =>
    split
    case _ hoff =>
      have hnone : s.aidingDataForDeletion = 0 := by
        by_contra hne
        exact h ⟨hoff,hne⟩
      have hzero : owedAiding s &&& ~~~(0 : GpsAidingData) = owedAiding s := BitVec.and_allOnes
      rw [hnone,hzero]
    case _ => rfl

theorem aidingDataForDeletion_update (s : State) :
    (updateAidingDataForDeletion s).aidingDataForDeletion =
      if s.engineStatus ≠ gpsStatusEngineOn then 0 else s.aidingDataForDeletion := by
  obtain ⟨es,-,he⟩ := updateAidingDataForDeletion_eq s
  rw [he]

theorem engineStatus_update (s : State) :
    (updateAidingDataForDeletion s).engineStatus = s.engineStatus := by
  obtain ⟨es,-,he⟩ := updateAidingDataForDeletion_eq s
  rw [he]

/-- What waits is deleted unless the engine is on. -/
theorem nothingLost_update_iff :
    NothingLost (updateAidingDataForDeletion s) ↔ Within (owedAiding s) s.aidingDataForDeletion := by
  by_cases hoff : s.engineStatus ≠ gpsStatusEngineOn
  · have howed := owedAiding_update s
    have haiding := aidingDataForDeletion_update s
    rw [if_pos hoff] at howed haiding
    rw [← and_not_eq_zero_iff,← howed,← within_zero_iff,← haiding]
    exact ⟨fun h => h.waiting,fun h => ⟨h,fun hne => absurd haiding hne⟩⟩
  · have howed := owedAiding_update s
    have haiding := aidingDataForDeletion_update s
    rw [if_neg hoff] at howed haiding
    rw [← howed,← haiding]
    exact ⟨fun h => h.waiting,fun h => ⟨h,fun _ => (engineStatus_update s).trans (not_not.mp hoff)⟩⟩

/-- What waits has been requested. -/
theorem within_owed_update (hs : Within s.aidingDataForDeletion (owedAiding s)) :
    Within (updateAidingDataForDeletion s).aidingDataForDeletion
      (owedAiding (updateAidingDataForDeletion s)) := by
  rw [aidingDataForDeletion_update,owedAiding_update]
  split
  · exact zero_within _
  · exact hs

theorem aidingSame_reportStatus (s : State) (status : GpsStatusValue) :
    (locEngReportStatus s status).aidingDataForDeletion = s.aidingDataForDeletion ∧
      owedAiding (locEngReportStatus s status) = owedAiding s := by
  obtain ⟨es,hes,he⟩ := locEngReportStatus_eq s status
  rw [he]
  refine ⟨rfl,?_⟩
  rcases hes with rfl | rfl <;> simp [owedAiding,owed]

/-- A request, before the engine sees what it can delete. -/
theorem owedAiding_request (s : State) (f : GpsAidingData) :
    owedAiding { s with aidingDataForDeletion := f, trace := s.trace ++ [.delAidDataRequest f] } =
      owedAiding s ||| f := by
  simp [owedAiding,owed]

theorem within_owed_proc {msg : LocMsg} (hs : Within s.aidingDataForDeletion (owedAiding s))
    (h : proc s msg = some t) : Within t.aidingDataForDeletion (owedAiding t) := by
  by_cases hother : (∀ f, msg ≠ .delAidData f) ∧ (∀ status, msg ≠ .reportStatus status) ∧ msg ≠ .engineDown
  · have hsame := aidingSame_proc h hother.1 hother.2.1 hother.2.2
    rwa [hsame.aiding,hsame.owed]
  · cases msg with
    | delAidData f =>
      obtain rfl := Option.some.inj h
      refine within_owed_update ?_
      rw [owedAiding_request]
      exact within_or _ f
    | reportStatus status =>
      obtain rfl := Option.some.inj h
      refine within_owed_update ?_
      rwa [(aidingSame_reportStatus s status).1,(aidingSame_reportStatus s status).2]
    | engineDown =>
      obtain rfl := Option.some.inj h
      unfold locEngHandleEngineDown
      rwa [(aidingSame_reportStatus _ _).1,(aidingSame_reportStatus _ _).2]
    | _ => exact absurd ⟨nofun,nofun,nofun⟩ hother

/-- A request loses nothing exactly if it has all the bits that wait. -/
theorem NothingLost.delAidData_iff (hi : NothingLost s)
    (hs : Within s.aidingDataForDeletion (owedAiding s)) (f : GpsAidingData) :
    NothingLost (locEngDelAidData s f) ↔ AidingMerged s (.delAidData f) := by
  rw [locEngDelAidData,nothingLost_update_iff,owedAiding_request,or_within_iff]
  constructor
  · exact fun h _ => hs.trans h
  · intro h
    by_cases hon : s.engineStatus = gpsStatusEngineOn
    · exact hi.waiting.trans (h hon)
    · have hnone : s.aidingDataForDeletion = 0 := by
        by_contra hne
        exact hon (hi.on hne)
      have howed := hi.waiting
      rw [hnone,within_zero_iff] at howed
      rw [howed]
      exact zero_within f

/-- The modem goes down without deleting anything. -/
theorem NothingLost.engineDown_iff (hi : NothingLost s) :
    NothingLost (locEngHandleEngineDown s) ↔ AidingMerged s .engineDown := by
  have hdown : (locEngHandleEngineDown s).engineStatus = gpsStatusEngineOff :=
    (engineStatus_reportStatus _ _).trans (if_pos (Or.inr rfl))
  have hsame := aidingSame_reportStatus { s with ni := locEngNiResetOnEngineRestart s.ni }
    gpsStatusEngineOff
  constructor
  · intro h
    by_contra hne
    have hon := h.on (by rw [locEngHandleEngineDown,hsame.1]; exact hne)
    rw [hdown] at hon
    exact absurd hon (by decide)
  · intro hnone
    refine ⟨?_,fun hne => absurd (hsame.1.trans hnone) hne⟩
    rw [locEngHandleEngineDown,hsame.1,hsame.2]
    exact hi.waiting

/-- A step from a state in which nothing has been lost loses nothing exactly if it replaces nothing. -/
theorem NothingLost.proc_iff (hi : NothingLost s)
    (hs : Within s.aidingDataForDeletion (owedAiding s)) (msg : LocMsg) :
    (∀ t, proc s msg = some t → NothingLost t) ↔ AidingMerged s msg := by
  have hproc : ∀ {msg t}, proc s msg = some t →
      ((∀ t, proc s msg = some t → NothingLost t) ↔ NothingLost t) := fun ht =>
    ⟨fun h => h _ ht,fun h t' ht' => Option.some.inj (ht.symm.trans ht') ▸ h⟩
  have hother : ∀ msg : LocMsg, (∀ f, msg ≠ .delAidData f) → (∀ status, msg ≠ .reportStatus status) →
      msg ≠ .engineDown → ∀ t, proc s msg = some t → NothingLost t := by
    intro msg hdel hstatus hdown t ht
    exact (aidingSame_proc ht hdel hstatus hdown).nothingLost.mpr hi
  cases msg with
  | delAidData f => exact (hproc rfl).trans (hi.delAidData_iff hs f)
  | engineDown => exact (hproc rfl).trans hi.engineDown_iff
  | reportStatus status =>
    refine (hproc rfl).trans (iff_of_true ?_ trivial)
    rw [nothingLost_update_iff,(aidingSame_reportStatus s status).1,(aidingSame_reportStatus s status).2]
    exact hi.waiting
  | _ => exact iff_of_true (hother _ nofun nofun nofun) trivial

/-- In a run no bit is ever lost exactly if no request drops a bit that is waiting and the engine
does not go down while one waits. -/
theorem nothingLost_along_iff (conf : LocConf) (msgs : List LocMsg) :
    Along proc (fun s msg => ∀ t, proc s msg = some t → NothingLost t) { conf := conf } msgs ↔
      Along proc AidingMerged { conf := conf } msgs :=
  along_next_iff_of (J:=fun s => Within s.aidingDataForDeletion (owedAiding s))
    (fun _ _ _ hs ht => within_owed_proc hs ht) (fun _ msg hs hi => hi.proc_iff hs msg)
    (Within.refl 0) ⟨Within.refl 0,fun hne => absurd rfl hne⟩

/-- Two bits are requested one after the other while the engine is on. -/
def twoRequests : List LocMsg := [.reportStatus gpsStatusEngineOn,.delAidData 1,.delAidData 2]

theorem not_nothingLost_twoRequests :
    ∃ s, run proc { conf := fullConf } twoRequests = some s ∧ ¬ NothingLost s := by
  have hrun : (run proc { conf := fullConf } twoRequests).map (fun s =>
      (owedAiding s,s.aidingDataForDeletion)) = some (3,2) := by decide +kernel
  obtain ⟨s,hs,he⟩ := Option.map_eq_some_iff.mp hrun
  obtain ⟨howed,haiding⟩ := Prod.mk.inj he
  refine ⟨s,hs,fun h => ?_⟩
  have hbit := h.waiting 0
  rw [howed,haiding] at hbit
  exact absurd (hbit (by decide)) (by decide)

end LocEng
end Kitakami

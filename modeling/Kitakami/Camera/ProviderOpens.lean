import Kitakami.Camera.ProviderRuns

/-!
# Which names can be opened

The interfaces of the provider look a name up by the version and the camera
they read in it, and find exactly the names that are on the list.
-/

namespace Kitakami
namespace Camera
namespace Provider

open Runs Monitor

variable {T C : Type} {c : CameraModule} {s : State T C} {n : ℕ} {p : Str × Str}
  {f : Str → Str → Interface} {request : Str}

/-- A name of the provider is looked up under its own version and camera. -/
theorem Named.opens (h : Named c s n) (hp : p ∈ s.mCameraDeviceNames) (hname : p.2 = cStr request) :
    ∃ v ∈ [str "1.0",str "3.2",str "3.3"],
      s.getCameraDeviceInterface f request =
        if s.mCameraStatusMap p.1 = some statusPresent then f v p.1 else .illegalArgument := by
  obtain ⟨v,hv,hmatch⟩ := h.matches hp
  refine ⟨v,hv,?_⟩
  have hmem : (p.1,cStr request) ∈ s.mCameraDeviceNames := hname ▸ hp
  rw [hname] at hmatch
  simp only [State.getCameraDeviceInterface,hmatch,if_neg (not_not.mpr hmem)]
  by_cases hst : s.mCameraStatusMap p.1 = some statusPresent
  · rw [if_neg (not_not.mpr hst),if_pos hst]
  · rw [if_pos hst,if_neg hst]

/-- Other names are told apart by whether they name a camera there is. -/
theorem Named.refuses (h : Named c s n) (hr : s.phase = .ready)
    (hno : ∀ p ∈ s.mCameraDeviceNames, p.2 ≠ cStr request) :
    (s.getCameraDeviceInterface f request = .operationNotSupported ∧
      ∃ v, Version v ∧ ∃ i < c.cameras, cStr request = deviceName v (decimal i)) ∨
    s.getCameraDeviceInterface f request = .illegalArgument ∧
      ¬ ∃ v, Version v ∧ ∃ i < c.cameras, cStr request = deviceName v (decimal i) := by
  have hids : ∀ v, Version v → ∀ i < c.cameras, cStr request = deviceName v (decimal i) →
      matchDeviceName (cStr request) = some (v,decimal i) := by
    intro v hv i _ he
    obtain ⟨⟨hne,-⟩,h10,h13,-⟩ := decimal_cameraId i
    exact matchDeviceName_eq_some.mpr ⟨he,hv,hne,h10,h13⟩
  cases hmatch : matchDeviceName (cStr request) with
  | none =>
    right
    refine ⟨by simp only [State.getCameraDeviceInterface,hmatch],?_⟩
    rintro ⟨v,hv,i,hi,he⟩
    rw [hids v hv i hi he] at hmatch
    cases hmatch
  | some vid =>
    obtain ⟨v,id⟩ := vid
    have hmem : (id,cStr request) ∉ s.mCameraDeviceNames := fun hp => hno _ hp rfl
    obtain ⟨he,hv,-⟩ := matchDeviceName_eq_some.mp hmatch
    have hany : s.mCameraIds.any (· = id) = true ↔ id ∈ s.mCameraIds := by simp
    by_cases hid : id ∈ s.mCameraIds
    · left
      obtain ⟨i,hi,rfl⟩ := (h.ids id).mp hid
      refine ⟨?_,v,hv,i,h.ready hr ▸ hi,he⟩
      simp only [State.getCameraDeviceInterface,hmatch,if_pos hmem,if_pos (hany.mpr hid)]
    · right
      refine ⟨?_,?_⟩
      · simp only [State.getCameraDeviceInterface,hmatch,if_pos hmem,if_neg (hid ∘ hany.mp)]
      · rintro ⟨w,hw,i,hi,hwe⟩
        rw [hids w hw i hi hwe,Option.some.injEq,Prod.mk.injEq] at hmatch
        exact hid ((h.ids id).mpr ⟨i,h.ready hr ▸ hi,hmatch.2.symm⟩)

/-- Only with no open of the old version in the module is a device of version 3 no device of
version 1. -/
theorem initFail_decimal {i : ℕ} (hi : i < c.cameras) :
    State.initFail c (decimal i) = !(c.ashmemAllocator &&
      (c.deviceVersion i = deviceApi1_0 || c.isOpenLegacyDefined)) := by
  have hatoi := atoi_decimal (lt_trans hi c.cameras_lt)
  have hlt := CameraModule.lt_cameras.mp hi
  have hneg : ¬ (i : ℤ) < 0 := by omega
  simp only [State.initFail,hatoi,hneg,not_le.mpr hlt,decide_false,Bool.false_or]
  by_cases hv : c.deviceVersion i = deviceApi1_0 <;>
    cases c.isOpenLegacyDefined <;> cases c.ashmemAllocator <;> simp [hv]

theorem versionName_eq_one {v : ℤ} : c.versionName v = str "1.0" ↔ v = deviceApi1_0 := by
  unfold CameraModule.versionName CameraModule.preferredVersion
  split
  case isTrue h => simp [h]
  case isFalse h =>
    refine iff_of_false ?_ h
    split <;> decide

/-- A name with version 1.0 is of a device that can be opened so. -/
theorem Named.version (h : Named c s n) (hp : p ∈ s.mCameraDeviceNames) :
    ∃ i < n, p.1 = decimal i ∧
      (p.2 = deviceName (str "1.0") p.1 ∧
          (c.deviceVersion i = deviceApi1_0 ∨ c.isOpenLegacyDefined = true) ∨
        p.2 = deviceName c.preferredVersion p.1 ∧ p.2 ≠ deviceName (str "1.0") p.1 ∧
          c.deviceVersion i ≠ deviceApi1_0) := by
  obtain ⟨i,hi,hid,hname | ⟨hl,hname⟩⟩ := (h.names p).mp hp
  · refine ⟨i,hi,hid,?_⟩
    rw [hid]
    by_cases hv : c.deviceVersion i = deviceApi1_0
    · rw [versionName_eq_one.mpr hv] at hname
      exact Or.inl ⟨hname,Or.inl hv⟩
    · refine Or.inr ⟨by rw [hname,CameraModule.versionName,if_neg hv],fun he => hv ?_,hv⟩
      obtain ⟨⟨hne,-⟩,h10,h13,-⟩ := decimal_cameraId i
      have hd : decimal i ≠ [] ∧ 10 ∉ decimal i ∧ 13 ∉ decimal i := ⟨hne,h10,h13⟩
      exact versionName_eq_one.mp (deviceName_inj
        (CameraModule.version_of_mem (c.versionName_mem _)) (CameraModule.version_of_mem (by simp))
        hd hd (hname.symm.trans he)).1
  · exact ⟨i,hi,hid,Or.inl ⟨hid ▸ hname,Or.inr hl.2.1⟩⟩

/-- A device of version 3 has the preferred version, whatever the name says. -/
theorem Named.opens_V3_x (h : Named c s n) (hp : p ∈ s.mCameraDeviceNames)
    (hname : p.2 = cStr request) (hst : s.mCameraStatusMap p.1 = some statusPresent) :
    s.getCameraDeviceInterface_V3_x c request =
      if c.isInitFailed p.1 then .internalError else .device c.preferredVersion := by
  obtain ⟨v,hv,hopens⟩ := h.opens hp hname
  have hlt : strLt v (str "3.4") = true := by
    simp only [List.mem_cons,List.not_mem_nil,or_false] at hv
    rcases hv with rfl | rfl | rfl <;> decide
  rw [State.getCameraDeviceInterface_V3_x,hopens,if_pos hst,hlt]
  rcases c.preferred_cases with h2 | h3
  · simp [h2,CameraModule.preferredVersion]
  · simp [h3,CameraModule.preferredVersion]

theorem Named.opens_V1_x (h : Named c s n) (hr : s.phase = .ready) (hp : p ∈ s.mCameraDeviceNames)
    (hname : p.2 = cStr request) (hst : s.mCameraStatusMap p.1 = some statusPresent) :
    (p.2 = deviceName (str "1.0") p.1 → s.getCameraDeviceInterface_V1_x c request =
      if c.ashmemAllocator then .device (str "1.0") else .internalError) ∧
    (p.2 ≠ deviceName (str "1.0") p.1 → p.2 = deviceName c.preferredVersion p.1 ∧
      s.getCameraDeviceInterface_V1_x c request =
        if c.ashmemAllocator && c.isOpenLegacyDefined then .device (str "1.0")
        else .internalError) := by
  obtain ⟨i,hi,hid,hversion⟩ := h.version hp
  have hfail := initFail_decimal (h.ready hr ▸ hi)
  obtain ⟨v,-,hopens⟩ := h.opens hp hname
  rw [← hid] at hfail
  rw [State.getCameraDeviceInterface_V1_x,hopens,if_pos hst,hfail]
  rcases hversion with ⟨hone,hold⟩ | ⟨hthree,hne,hnew⟩
  · refine ⟨fun _ => ?_,fun hne => absurd hone hne⟩
    have hopen : (decide (c.deviceVersion i = deviceApi1_0) || c.isOpenLegacyDefined) = true := by
      simpa using hold
    simp only [hopen,Bool.and_true]
    cases c.ashmemAllocator <;> rfl
  · refine ⟨fun hone => absurd hone hne,fun _ => ⟨hthree,?_⟩⟩
    simp only [hnew,decide_false,Bool.false_or]
    cases c.ashmemAllocator <;> cases c.isOpenLegacyDefined <;> rfl

/-- The names of present cameras are those that can be opened. Under the first interface that is
so too for names of version 3, if the module can open them as version 1; the second one always
makes a device of the preferred version. -/
theorem names_open [DecidableEq T] (hdoc : c.Documented) {as : List (Action T C)}
    (hr : run (step c) {} as = some s) (hready : s.phase = .ready) (request : Str) :
    (∀ p ∈ s.mCameraDeviceNames, p.2 = cStr request →
      (s.mCameraStatusMap p.1 ≠ some statusPresent →
        s.getCameraDeviceInterface_V1_x c request = .illegalArgument ∧
        s.getCameraDeviceInterface_V3_x c request = .illegalArgument) ∧
      (s.mCameraStatusMap p.1 = some statusPresent →
        s.getCameraDeviceInterface_V3_x c request =
          (if c.isInitFailed p.1 then .internalError else .device c.preferredVersion) ∧
        (p.2 = deviceName (str "1.0") p.1 → s.getCameraDeviceInterface_V1_x c request =
          if c.ashmemAllocator then .device (str "1.0") else .internalError) ∧
        (p.2 ≠ deviceName (str "1.0") p.1 → p.2 = deviceName c.preferredVersion p.1 ∧
          s.getCameraDeviceInterface_V1_x c request =
            if c.ashmemAllocator && c.isOpenLegacyDefined then .device (str "1.0")
            else .internalError))) ∧
    ((∀ p ∈ s.mCameraDeviceNames, p.2 ≠ cStr request) →
      s.getCameraDeviceInterface_V1_x c request = s.getCameraDeviceInterface_V3_x c request ∧
      ((∃ v, Version v ∧ ∃ i < c.cameras, cStr request = deviceName v (decimal i)) →
        s.getCameraDeviceInterface_V3_x c request = .operationNotSupported) ∧
      ((¬ ∃ v, Version v ∧ ∃ i < c.cameras, cStr request = deviceName v (decimal i)) →
        s.getCameraDeviceInterface_V3_x c request = .illegalArgument)) := by
  obtain ⟨-,⟨n,hn⟩,-⟩ := run_served hdoc hr
  constructor
  · intro p hp hname
    refine ⟨fun hst => ?_,fun hst => ⟨hn.opens_V3_x hp hname hst,hn.opens_V1_x hready hp hname hst⟩⟩
    have habsent : ∀ make, s.getCameraDeviceInterface make request = .illegalArgument := by
      intro make
      obtain ⟨v,-,hopens⟩ := hn.opens (f:=make) hp hname
      rw [hopens,if_neg hst]
    exact ⟨habsent _,habsent _⟩
  · intro hno
    have hrefuses := fun make => hn.refuses (f:=make) hready hno
    by_cases hcamera : ∃ v, Version v ∧ ∃ i < c.cameras, cStr request = deviceName v (decimal i)
    · have hnot : ∀ make, s.getCameraDeviceInterface make request = .operationNotSupported :=
        fun make => (hrefuses make).elim And.left fun h => absurd hcamera h.2
      exact ⟨(hnot _).trans (hnot _).symm,fun _ => hnot _,fun h => absurd hcamera h⟩
    · have hillegal : ∀ make, s.getCameraDeviceInterface make request = .illegalArgument :=
        fun make => (hrefuses make).elim (fun h => absurd h.2 hcamera) And.left
      exact ⟨(hillegal _).trans (hillegal _).symm,fun h => absurd h hcamera,fun _ => hillegal _⟩

theorem names_open_sample : ∃ s : State ℕ String,
    run (step sampleModule) {} sampleActions = some s ∧
    (∀ p ∈ s.mCameraDeviceNames, p.2 = cStr (str "device@3.3/legacy/0") →
      (s.mCameraStatusMap p.1 ≠ some statusPresent →
        s.getCameraDeviceInterface_V1_x sampleModule (str "device@3.3/legacy/0") =
          .illegalArgument ∧
        s.getCameraDeviceInterface_V3_x sampleModule (str "device@3.3/legacy/0") =
          .illegalArgument) ∧
      (s.mCameraStatusMap p.1 = some statusPresent →
        s.getCameraDeviceInterface_V3_x sampleModule (str "device@3.3/legacy/0") =
          (if sampleModule.isInitFailed p.1 then .internalError
            else .device sampleModule.preferredVersion) ∧
        (p.2 = deviceName (str "1.0") p.1 →
          s.getCameraDeviceInterface_V1_x sampleModule (str "device@3.3/legacy/0") =
            if sampleModule.ashmemAllocator then .device (str "1.0") else .internalError) ∧
        (p.2 ≠ deviceName (str "1.0") p.1 → p.2 = deviceName sampleModule.preferredVersion p.1 ∧
          s.getCameraDeviceInterface_V1_x sampleModule (str "device@3.3/legacy/0") =
            if sampleModule.ashmemAllocator && sampleModule.isOpenLegacyDefined then
              .device (str "1.0")
            else .internalError))) := by
  have hrun : (run (step sampleModule) ({} : State ℕ String) sampleActions).map (·.phase) =
      some .ready := by
    decide +kernel
  obtain ⟨s,hs,hready⟩ := Option.map_eq_some_iff.mp hrun
  exact ⟨s,hs,(names_open documented_sample hs hready (str "device@3.3/legacy/0")).1⟩

end Provider
end Camera
end Kitakami

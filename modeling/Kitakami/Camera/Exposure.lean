import Kitakami.Camera.Parameters

/-!
# Exposure in two vocabularies

To the framework the sensitivity and the shutter speed are each `auto` or a
value. The vendor keeps both values and an AE mode that says which of them are
in force. The get fixup shows the vendor's state in the framework's words and
the set fixup takes it back; each is the other's inverse on the exposure.
-/

namespace Kitakami
namespace Camera

open Parameters

/-! ## AE modes -/

inductive AeMode
  | auto
  | isoPrio
  | shutterPrio
  | manual

namespace AeMode

def name : AeMode → Str
  | auto => str "auto"
  | isoPrio => str "iso-prio"
  | shutterPrio => str "shutter-prio"
  | manual => str "manual"

/-- The sensitivity of the client is in force. -/
def setsIso : AeMode → Bool
  | isoPrio | manual => true
  | auto | shutterPrio => false

/-- The shutter speed of the client is in force. -/
def setsShutterSpeed : AeMode → Bool
  | shutterPrio | manual => true
  | auto | isoPrio => false

/-- The mode in which the given values are in force. -/
def of : Bool → Bool → AeMode
  | false, false => auto
  | true, false => isoPrio
  | false, true => shutterPrio
  | true, true => manual

@[simp] theorem setsIso_of (i s : Bool) : (of i s).setsIso = i := by cases i <;> cases s <;> rfl

@[simp] theorem setsShutterSpeed_of (i s : Bool) : (of i s).setsShutterSpeed = s := by
  cases i <;> cases s <;> rfl

/-- The sensitivity the framework sees. -/
def clientIso (m : AeMode) (iso : Str) : Str :=
  if m.setsIso then str "ISO" ++ iso else str "auto"

/-- The shutter speed the framework sees. -/
def clientShutterSpeed (m : AeMode) (shutterSpeed : Str) : Str :=
  if m.setsShutterSpeed then shutterSpeed else str "auto"

end AeMode

variable {p : Parameters} {m : AeMode} {iso shutterSpeed modes v : Str}

theorem value_of_get {k : Key} (h : p.get k = some v) : p.value k = v := by
  rw [value,h,Option.getD_some]

theorem plain_iso : Plain (str "ISO" ++ iso) ↔ Plain iso := by
  have hi : Plain (str "ISO") := by decide
  refine ⟨fun h => ⟨?_,?_,?_⟩,fun h => ⟨?_,?_,?_⟩⟩
  · exact fun hm => h.noNul (List.mem_append_right _ hm)
  · exact fun hm => h.noEquals (List.mem_append_right _ hm)
  · exact fun hm => h.noSemicolon (List.mem_append_right _ hm)
  · exact fun hm => (List.mem_append.mp hm).elim hi.noNul h.noNul
  · exact fun hm => (List.mem_append.mp hm).elim hi.noEquals h.noEquals
  · exact fun hm => (List.mem_append.mp hm).elim hi.noSemicolon h.noSemicolon

/-! ## Showing the exposure -/

/-- What the get fixup shows of an AE mode and its two values. -/
theorem get_showExposure (hiso : p.get keySonyIsoMode = some iso)
    (hmodes : (p.get keySonyAeModeValues).isSome) (hm : p.get keySonyAeMode = some m.name)
    (hi : m.setsIso → Plain iso)
    (hs : m.setsShutterSpeed →
      p.get keySonyShutterSpeed = some shutterSpeed ∧ Plain shutterSpeed) :
    p.showExposure.get keyIsoMode = some (m.clientIso iso) ∧
      p.showExposure.get keyShutterSpeed = some (m.clientShutterSpeed shutterSpeed) := by
  have hne : keyIsoMode ≠ keyShutterSpeed := by decide
  have hauto : Plain (str "auto") := by decide
  have hv := value_of_get hm
  unfold showExposure
  simp only [hiso,hmodes,hv,if_true]
  cases m with
  | auto =>
    rw [if_neg (by decide),if_neg (by decide),if_neg (by decide)]
    exact ⟨by rw [get_set_of_ne hne,get_set_self hauto]; rfl,by rw [get_set_self hauto]; rfl⟩
  | isoPrio =>
    rw [if_pos (by decide)]
    exact ⟨by rw [get_set_of_ne hne,get_set_self (plain_iso.mpr (hi rfl))]; rfl,
      by rw [get_set_self hauto]; rfl⟩
  | shutterPrio =>
    obtain ⟨hg,hp⟩ := hs rfl
    rw [if_neg (by decide),if_pos (by decide),hg]
    exact ⟨by rw [get_set_of_ne hne,get_set_self hauto]; rfl,by rw [get_set_self hp]; rfl⟩
  | manual =>
    obtain ⟨hg,hp⟩ := hs rfl
    rw [if_neg (by decide),if_neg (by decide),if_pos (by decide),hg]
    exact ⟨by rw [get_set_self (plain_iso.mpr (hi rfl))]; rfl,
      by rw [get_set_of_ne hne.symm,get_set_self hp]; rfl⟩

/-- Without a sensitivity or a list of AE modes of the vendor's nothing is shown. -/
theorem showExposure_of_absent
    (h : p.get keySonyIsoMode = none ∨ p.get keySonyAeModeValues = none) : p.showExposure = p := by
  unfold showExposure
  split
  · rfl
  · case _ hsome =>
    have hn : p.get keySonyAeModeValues = none := h.resolve_left (by rw [hsome]; exact nofun)
    simp [hn]

/-- The steps of the get fixup before the exposure. -/
theorem written_beforeExposure (p : Parameters) :
    Written [keySupportedSceneModes,keySupportedIsoModes,keySceneMode,keyVideoHdrValues,keyVideoHdr]
      p p.addHdrSceneMode.listIsoModes.showHdrSceneMode.showVideoHdr :=
  ((written_addHdrSceneMode p).mono (by decide)).trans <|
    ((written_listIsoModes _).mono (by decide)).trans <|
    ((written_showHdrSceneMode _).mono (by decide)).trans <|
    (written_showVideoHdr _).mono (by decide)

/-- The exposure after the get fixup. -/
theorem get_fixupGet (hiso : p.get keySonyIsoMode = some iso)
    (hmodes : (p.get keySonyAeModeValues).isSome) (hm : p.get keySonyAeMode = some m.name)
    (hi : m.setsIso → Plain iso)
    (hs : m.setsShutterSpeed →
      p.get keySonyShutterSpeed = some shutterSpeed ∧ Plain shutterSpeed) :
    p.fixupGet.get keyIsoMode = some (m.clientIso iso) ∧
      p.fixupGet.get keyShutterSpeed = some (m.clientShutterSpeed shutterSpeed) := by
  have hw := written_beforeExposure p
  refine get_showExposure ?_ ?_ ?_ hi fun h => ⟨?_,(hs h).2⟩
  · rw [hw.get (by decide),hiso]
  · rwa [hw.get (by decide)]
  · rw [hw.get (by decide),hm]
  · rw [hw.get (by decide),(hs h).1]

theorem get_fixupGet_of_absent
    (h : p.get keySonyIsoMode = none ∨ p.get keySonyAeModeValues = none) {k : Key}
    (hk : k ∈ [keyIsoMode,keyShutterSpeed]) : p.fixupGet.get k = p.get k := by
  have hw := written_beforeExposure p
  unfold fixupGet
  rw [showExposure_of_absent (by rwa [hw.get (by decide),hw.get (by decide)]),hw.get]
  simp only [List.mem_cons,List.not_mem_nil,or_false] at hk
  obtain rfl | rfl := hk
  · decide
  · decide

/-! ## Taking the exposure -/

/-- A list of AE modes with the modes that the set fixup looks for. -/
def Lists (modes : Str) : Prop := ∀ m : AeMode, contains (some modes) m.name

theorem Lists.auto (h : Lists modes) : contains (some modes) (str "auto") := h .auto

theorem Lists.isoPrio (h : Lists modes) : contains (some modes) (str "iso-prio") := h .isoPrio

/-- The framework gives a value, not `auto`. -/
def isSet (v : Str) : Bool := v ≠ str "auto"

theorem isSet_eq_false : isSet v = false ↔ v = str "auto" := by simp [isSet]

theorem isSet_eq_true : isSet v = true ↔ v ≠ str "auto" := by simp [isSet]

/-- The AE mode after the shutter speed has been taken. -/
theorem get_takeShutterSpeed (hs : p.get keyShutterSpeed = some shutterSpeed)
    (hp : Plain shutterSpeed) (hmodes : p.get keySonyAeModeValues = some modes)
    (hl : Lists modes) :
    p.takeShutterSpeed.get keySonyAeMode = some (AeMode.of false (isSet shutterSpeed)).name ∧
      p.takeShutterSpeed.get keySonyShutterSpeed =
        if isSet shutterSpeed then some shutterSpeed else p.get keySonyShutterSpeed := by
  have hne : keySonyShutterSpeed ≠ keySonyAeMode := by decide
  unfold takeShutterSpeed
  simp only [hs]
  cases ha : isSet shutterSpeed with
  | false =>
    rw [if_neg (by simpa using isSet_eq_false.mp ha),hmodes,if_pos hl.auto,get_set_of_ne hne,
      get_set_self (by decide)]
    exact ⟨rfl,rfl⟩
  | true =>
    rw [if_pos (isSet_eq_true.mp ha),get_set_self (by decide),get_set_of_ne hne,get_set_self hp]
    exact ⟨rfl,rfl⟩

theorem get_takeAeMode {i s : Bool} (hm : p.get keySonyAeMode = some (AeMode.of false s).name)
    (hmodes : p.get keySonyAeModeValues = some modes) (hl : Lists modes) :
    (p.takeAeMode !i).get keySonyAeMode = some (AeMode.of i s).name := by
  have hv := value_of_get hm
  unfold takeAeMode
  simp only [hmodes,hv]
  cases i with
  | false =>
    cases s with
    | false =>
      rw [if_pos (by decide),hl.auto,if_pos (by decide),get_set_self (by decide)]
      rfl
    | true =>
      rw [if_pos (by decide),hl.auto,if_neg (by decide),hm]
  | true =>
    rw [if_neg (by decide),if_pos hl.isoPrio]
    cases s with
    | false =>
      rw [if_neg (by decide),get_set_self (by decide)]
      rfl
    | true =>
      rw [if_pos (by decide),get_set_self (by decide)]
      rfl

/-- How the framework writes a sensitivity: `auto`, or `ISO` and a value. -/
def isoWord : Option Str → Str
  | none => str "auto"
  | some iso => str "ISO" ++ iso

theorem isoWord_some (iso : Str) : isoWord (some iso) = 73::83::79::iso := rfl

theorem isoWord_ne_auto (iso : Str) : isoWord (some iso) ≠ str "auto" := by
  have ha : str "auto" = [97,117,116,111] := by decide
  simp [isoWord_some,ha]

theorem get_takeIsoMode {o : Option Str} {s : Bool} (hi : p.get keyIsoMode = some (isoWord o))
    (ho : ∀ iso ∈ o, Plain iso) (hm : p.get keySonyAeMode = some (AeMode.of false s).name)
    (hmodes : p.get keySonyAeModeValues = some modes) (hl : Lists modes) :
    p.takeIsoMode.get keySonyAeMode = some (AeMode.of o.isSome s).name ∧
      p.takeIsoMode.get keySonyIsoMode = o.or (p.get keySonyIsoMode) := by
  have hne : keySonyIsoMode ∉ [keySonyAeMode] := by decide
  unfold takeIsoMode
  simp only [hi]
  cases o with
  | none =>
    exact ⟨get_takeAeMode (i:=false) hm hmodes hl,(written_takeAeMode _ _).get hne⟩
  | some iso =>
    have hword : decide (isoWord (some iso) = str "auto") = false :=
      decide_eq_false (isoWord_ne_auto iso)
    have hlen : 3 ≤ (isoWord (some iso)).length := by simp [isoWord_some]
    have hdrop : (isoWord (some iso)).drop 3 = iso := by rw [isoWord_some]; rfl
    rw [hword,if_pos (by simpa using hlen),hdrop]
    refine ⟨get_takeAeMode (i:=true) (s:=s) ?_ ?_ hl,?_⟩
    · rw [get_set_of_ne (by decide),hm]
    · rw [get_set_of_ne (by decide),hmodes]
    · rw [(written_takeAeMode _ _).get hne,get_set_self (ho iso rfl)]
      rfl

theorem AeMode.clientIso_eq (m : AeMode) (iso : Str) :
    m.clientIso iso = isoWord (if m.setsIso then some iso else none) := by cases m <;> rfl

theorem AeMode.isSet_clientShutterSpeed (m : AeMode) (h : shutterSpeed ≠ str "auto") :
    isSet (m.clientShutterSpeed shutterSpeed) = m.setsShutterSpeed := by
  cases m with
  | auto | isoPrio => rfl
  | shutterPrio | manual => exact isSet_eq_true.mpr h

/-- The steps of the set fixup after the exposure. -/
theorem written_afterExposure (p : Parameters) :
    Written [keySonyImageStabiliser,keySceneMode,keySonyVideoHdr,keySonyVideoStabiliser]
      p p.takeSceneMode.takeVideoHdr.takeRecordingHint :=
  ((written_takeSceneMode p).mono (by decide)).trans <|
    ((written_takeVideoHdr _).mono (by decide)).trans <|
    (written_takeRecordingHint _).mono (by decide)

/-- The exposure after the set fixup. -/
theorem get_fixupSet {o : Option Str} (hi : p.get keyIsoMode = some (isoWord o))
    (ho : ∀ iso ∈ o, Plain iso) (hs : p.get keyShutterSpeed = some shutterSpeed)
    (hp : Plain shutterSpeed) (hmodes : p.get keySonyAeModeValues = some modes)
    (hl : Lists modes) :
    p.fixupSet.get keySonyAeMode = some (AeMode.of o.isSome (isSet shutterSpeed)).name ∧
      p.fixupSet.get keySonyIsoMode = o.or (p.get keySonyIsoMode) ∧
      p.fixupSet.get keySonyShutterSpeed =
        if isSet shutterSpeed then some shutterSpeed else p.get keySonyShutterSpeed := by
  have h₀ : Written [keyPreviewFpsRange] p (p.set keyPreviewFpsRange (some (str "1000,60000"))) :=
    .single _ (by decide)
  rw [← h₀.get (k:=keyIsoMode) (by decide)] at hi
  rw [← h₀.get (k:=keyShutterSpeed) (by decide)] at hs
  rw [← h₀.get (k:=keySonyAeModeValues) (by decide)] at hmodes
  rw [← h₀.get (k:=keySonyIsoMode) (by decide),← h₀.get (k:=keySonyShutterSpeed) (by decide)]
  unfold fixupSet
  generalize p.set keyPreviewFpsRange (some (str "1000,60000")) = p₀ at *
  obtain ⟨hm₁,hs₁⟩ := get_takeShutterSpeed hs hp hmodes hl
  have h₁ := written_takeShutterSpeed p₀
  rw [← h₁.get (k:=keyIsoMode) (by decide)] at hi
  rw [← h₁.get (k:=keySonyAeModeValues) (by decide)] at hmodes
  obtain ⟨hm₂,hi₂⟩ := get_takeIsoMode hi ho hm₁ hmodes hl
  have h₂ := written_takeIsoMode p₀.takeShutterSpeed
  have h₃ := written_afterExposure p₀.takeShutterSpeed.takeIsoMode
  refine ⟨?_,?_,?_⟩
  · rw [h₃.get (by decide),hm₂]
  · rw [h₃.get (by decide),hi₂,h₁.get (by decide)]
  · rw [h₃.get (by decide),h₂.get (by decide),hs₁]

/-! ## The HDR scene mode -/

/-- The set fixup keeps the HDR scene mode in the image stabiliser. -/
theorem get_takeSceneMode (h : p.get keySceneMode = some v) :
    p.takeSceneMode.get keySonyImageStabiliser =
        some (if v = str "hdr" then valueSonyStillHdr else valueSonyOn) ∧
      p.takeSceneMode.get keySceneMode = some (if v = str "hdr" then str "auto" else v) := by
  unfold takeSceneMode
  simp only [h]
  by_cases hv : v = str "hdr"
  · rw [if_pos hv,if_pos hv,if_pos hv,get_set_of_ne (by decide),get_set_self (by decide),
      get_set_self (by decide)]
    exact ⟨rfl,rfl⟩
  · rw [if_neg hv,if_neg hv,if_neg hv,get_set_self (by decide),get_set_of_ne (by decide)]
    exact ⟨rfl,h⟩

theorem get_fixupSet_sceneMode (h : p.get keySceneMode = some v)
    (hr : p.get keyRecordingHint ≠ some (str "true")) :
    p.fixupSet.get keySonyImageStabiliser =
        some (if v = str "hdr" then valueSonyStillHdr else valueSonyOn) ∧
      p.fixupSet.get keySceneMode = some (if v = str "hdr" then str "auto" else v) := by
  have hb : Written [keyPreviewFpsRange,keySonyShutterSpeed,keySonyAeMode,keySonyIsoMode] p
      (p.set keyPreviewFpsRange (some (str "1000,60000"))).takeShutterSpeed.takeIsoMode :=
    (Written.single _ (by decide)).trans <|
      ((written_takeShutterSpeed _).mono (by decide)).trans <|
      (written_takeIsoMode _).mono (by decide)
  unfold fixupSet
  generalize (p.set keyPreviewFpsRange _).takeShutterSpeed.takeIsoMode = p₁ at *
  rw [← hb.get (k:=keySceneMode) (by decide)] at h
  obtain ⟨hi,hs⟩ := get_takeSceneMode h
  have hv := written_takeVideoHdr p₁.takeSceneMode
  have hkept : p₁.takeSceneMode.takeVideoHdr.takeRecordingHint = p₁.takeSceneMode.takeVideoHdr := by
    have ht : p₁.takeSceneMode.takeVideoHdr.get keyRecordingHint = p.get keyRecordingHint := by
      rw [hv.get (by decide),(written_takeSceneMode _).get (by decide),hb.get (by decide)]
    unfold takeRecordingHint
    refine if_neg fun he => ?_
    cases hg : p.get keyRecordingHint with
    | none =>
      rw [value,ht,hg] at he
      exact absurd he (by decide)
    | some hint =>
      rw [value,ht,hg] at he
      exact hr (by rw [hg]; exact congrArg some he)
  rw [hkept,hv.get (by decide),hv.get (by decide)]
  exact ⟨hi,hs⟩

/-- The get fixup takes the scene mode from the image stabiliser. -/
theorem get_fixupGet_sceneMode (p : Parameters) :
    p.fixupGet.get keySceneMode =
      if p.value keySonyImageStabiliser = valueSonyStillHdr then some (str "hdr")
      else p.get keySceneMode := by
  have hb : Written [keySupportedSceneModes,keySupportedIsoModes] p
      p.addHdrSceneMode.listIsoModes :=
    ((written_addHdrSceneMode p).mono (by decide)).trans
      ((written_listIsoModes _).mono (by decide))
  unfold fixupGet
  rw [(written_showExposure _).get (by decide),(written_showVideoHdr _).get (by decide)]
  unfold showHdrSceneMode value
  rw [hb.get (k:=keySonyImageStabiliser) (by decide)]
  split
  · rw [get_set_self (by decide)]
  · rw [hb.get (by decide)]

/-! ## The two directions -/

/-- The value of a key of a parameter string. -/
def param (settings : Str) (k : Key) : Option Str := (ofString settings).mMap[k.1]?

theorem param_eq_get {s : Str} (h : 0 ∉ s) (k : Key) : param s k = (ofString s).get k :=
  ((noNul_ofString h).get k).symm

/-- Behind both fixups the values are still free of NULs. -/
theorem param_fixupSet_fixupGet {s : Str} (h : 0 ∉ s) (k : Key) :
    param (fixupSetParameters (fixupGetParameters s)) k = (ofString s).fixupGet.fixupSet.get k := by
  have hn := (written_fixupSet _).noNul ((written_fixupGet _).noNul (noNul_ofString h))
  rw [fixupSetParameters,fixupGetParameters,param,ofString_flatten,ofString_flatten,hn.get]

theorem param_fixupGet_fixupSet {s : Str} (h : 0 ∉ s) (k : Key) :
    param (fixupGetParameters (fixupSetParameters s)) k = (ofString s).fixupSet.fixupGet.get k := by
  have hn := (written_fixupGet _).noNul ((written_fixupSet _).noNul (noNul_ofString h))
  rw [fixupSetParameters,fixupGetParameters,param,ofString_flatten,ofString_flatten,hn.get]

/-- Getting the parameters and setting them again leaves the vendor's exposure as it was. -/
theorem exposure_get_set (s : Str) (hnul : 0 ∉ s) (m : AeMode) (iso modes shutterSpeed : Str)
    (hiso : param s keySonyIsoMode = some iso) (hi : equalsSign ∉ iso)
    (hmodes : param s keySonyAeModeValues = some modes) (hl : Lists modes)
    (hm : param s keySonyAeMode = some m.name)
    (hshutter : param s keySonyShutterSpeed = some shutterSpeed)
    (ha : shutterSpeed ≠ str "auto") (hs : equalsSign ∉ shutterSpeed) :
    ∀ k ∈ [keySonyAeMode,keySonyIsoMode,keySonyShutterSpeed],
      param (fixupSetParameters (fixupGetParameters s)) k = param s k := by
  intro k hk
  rw [param_fixupSet_fixupGet hnul,param_eq_get hnul]
  rw [param_eq_get hnul] at hiso hmodes hm hshutter
  generalize ofString s = p at *
  have hpi := plain_of_get hiso hi
  have hps := plain_of_get hshutter hs
  obtain ⟨hgi,hgs⟩ := get_fixupGet hiso (by rw [hmodes]; rfl) hm (fun _ => hpi)
    fun _ => ⟨hshutter,hps⟩
  have hw := written_fixupGet p
  rw [m.clientIso_eq] at hgi
  obtain ⟨hm',hi',hs'⟩ := get_fixupSet hgi (by intro x hx; split at hx <;> simp_all) hgs
    (by unfold AeMode.clientShutterSpeed; split; exacts [hps,by decide])
    (by rw [hw.get (by decide),hmodes]) hl
  rw [m.isSet_clientShutterSpeed ha] at hm' hs'
  have hmode : AeMode.of (if m.setsIso then some iso else none).isSome m.setsShutterSpeed = m := by
    cases m <;> rfl
  rw [hmode] at hm'
  simp only [List.mem_cons,List.not_mem_nil,or_false] at hk
  obtain rfl | rfl | rfl := hk
  · rw [hm',hm]
  · rw [hi',hw.get (by decide),hiso]
    cases m.setsIso <;> rfl
  · rw [hs',hw.get (by decide),hshutter]
    cases m <;> rfl

/-- A camera in the manual mode. -/
def manualSettings : Str :=
  str "sony-ae-mode=manual;sony-ae-mode-values=auto,iso-prio,shutter-prio,manual;sony-iso=100" ++
    str ";sony-shutter-speed=30;zoom=0"

def aeModeValues : Str := str "auto,iso-prio,shutter-prio,manual"

theorem aeModeValues_lists : Lists aeModeValues := fun m => by cases m <;> decide

theorem exposure_get_set_manual :
    param (fixupSetParameters (fixupGetParameters manualSettings)) keySonyAeMode =
        some (str "manual") ∧
      param (fixupSetParameters (fixupGetParameters manualSettings)) keySonyIsoMode =
        some (str "100") ∧
      param (fixupSetParameters (fixupGetParameters manualSettings)) keySonyShutterSpeed =
        some (str "30") := by
  have h := exposure_get_set manualSettings (by decide) .manual (str "100") aeModeValues (str "30")
    (by decide +kernel) (by decide) (by decide +kernel) aeModeValues_lists (by decide +kernel)
    (by decide +kernel) (by decide) (by decide)
  refine ⟨?_,?_,?_⟩
  · rw [h keySonyAeMode (by decide)]
    decide +kernel
  · rw [h keySonyIsoMode (by decide)]
    decide +kernel
  · rw [h keySonyShutterSpeed (by decide)]
    decide +kernel

/-- What the framework has set it gets back: sensitivity, shutter speed, and the HDR scene mode. -/
theorem exposure_set_get (q : Str) (hnul : 0 ∉ q) (o : Option Str) (shutterSpeed : Str)
    (hmodes : ∀ modes, param q keySonyAeModeValues = some modes → Lists modes)
    (hhint : param q keyRecordingHint ≠ some (str "true"))
    (hshutter : param q keyShutterSpeed = some shutterSpeed) (hs : equalsSign ∉ shutterSpeed)
    (hiso : param q keyIsoMode = some (isoWord o)) (ho : ∀ iso ∈ o, equalsSign ∉ iso) :
    (∀ k ∈ [keyIsoMode,keyShutterSpeed],
      param (fixupGetParameters (fixupSetParameters q)) k = param q k) ∧
    ∀ sceneMode, param q keySceneMode = some sceneMode →
      (param (fixupGetParameters (fixupSetParameters q)) keySceneMode = some (str "hdr") ↔
        sceneMode = str "hdr") := by
  simp only [param_fixupGet_fixupSet hnul,param_eq_get hnul] at *
  generalize ofString q = p at *
  have hw := written_fixupSet p
  refine ⟨?_,fun sceneMode hscene => ?_⟩
  · have hpo : ∀ iso ∈ o, Plain iso := by
      intro iso hm
      obtain rfl : o = some iso := hm
      refine plain_iso.mp (plain_of_get hiso fun he => ?_)
      exact (List.mem_append.mp he).elim (by decide) (ho iso rfl)
    have hps := plain_of_get hshutter hs
    have hkeep : ∀ k ∈ [keyIsoMode,keyShutterSpeed], p.fixupSet.get k = p.get k := by
      intro k hk
      simp only [List.mem_cons,List.not_mem_nil,or_false] at hk
      obtain rfl | rfl := hk
      · exact hw.get (by decide)
      · exact hw.get (by decide)
    intro k hk
    cases hv : p.get keySonyAeModeValues with
    | none =>
      rw [get_fixupGet_of_absent (Or.inr (by rw [hw.get (by decide),hv])) hk,hkeep k hk]
    | some modes =>
      obtain ⟨hm,hi,hss⟩ := get_fixupSet hiso hpo hshutter hps hv (hmodes modes hv)
      cases hold : p.fixupSet.get keySonyIsoMode with
      | none => rw [get_fixupGet_of_absent (Or.inl hold) hk,hkeep k hk]
      | some iso =>
        rw [hold] at hi
        have hin : o.isSome → o = some iso := by
          intro hsome
          cases o with
          | none => exact absurd hsome (by simp)
          | some x => exact hi.symm
        obtain ⟨hci,hcs⟩ := get_fixupGet hold
          (by rw [hw.get (by decide),hv]; rfl) hm
          (fun h => hpo iso (hin (by simpa using h)))
          (fun h => ⟨by rw [hss,if_pos (by simpa using h)],hps⟩)
        simp only [List.mem_cons,List.not_mem_nil,or_false] at hk
        obtain rfl | rfl := hk
        · rw [hci,hiso,AeMode.clientIso,AeMode.setsIso_of]
          cases o with
          | none => rfl
          | some x =>
            obtain rfl : x = iso := Option.some.inj (hin rfl)
            rfl
        · rw [hcs,hshutter,AeMode.clientShutterSpeed,AeMode.setsShutterSpeed_of]
          cases ha : isSet shutterSpeed with
          | false => rw [isSet_eq_false.mp ha]; rfl
          | true => rfl
  · obtain ⟨hi,hm⟩ := get_fixupSet_sceneMode hscene hhint
    rw [get_fixupGet_sceneMode,value_of_get hi,hm]
    by_cases hv : sceneMode = str "hdr"
    · simp only [hv,if_true]
    · simp only [hv,if_false,iff_false]
      rw [if_neg (by decide)]
      simpa using hv

/-- A client that asks for a sensitivity, leaves the shutter speed to the camera, and wants HDR. -/
def hdrSettings : Str :=
  str "iso=ISO200;scene-mode=hdr;shutter-speed=auto;sony-ae-mode=manual" ++
    str ";sony-ae-mode-values=auto,iso-prio,shutter-prio,manual"

theorem exposure_set_get_hdr :
    param (fixupGetParameters (fixupSetParameters hdrSettings)) keyIsoMode =
        some (str "ISO200") ∧
      param (fixupGetParameters (fixupSetParameters hdrSettings)) keySceneMode =
        some (str "hdr") := by
  obtain ⟨hk,hs⟩ := exposure_set_get hdrSettings (by decide) (some (str "200")) (str "auto")
    (by
      intro modes h
      have hv : param hdrSettings keySonyAeModeValues = some aeModeValues := by decide +kernel
      rw [hv] at h
      cases h
      exact aeModeValues_lists)
    (by decide +kernel) (by decide +kernel) (by decide) (by decide +kernel)
    (fun iso h => by cases Option.mem_some_iff.mp h; decide)
  refine ⟨?_,(hs (str "hdr") (by decide +kernel)).mpr rfl⟩
  rw [hk keyIsoMode (by decide)]
  decide +kernel

end Camera
end Kitakami

import Kitakami.Base.KeyValues
import Kitakami.Base.Strings
import Mathlib.Data.List.TakeWhile

/-!
# Camera parameter strings

`Parameters` is the map behind a flattened parameter string. Its keys are free
of `=` and its values of `;`, so that flattening loses nothing. The two fixups
translate between the vendor's keys and the ones of the framework, each as a
sequence of steps over the map.
-/

namespace Kitakami
namespace Camera

open KeyValues

def equalsSign : UInt8 := 61
def semicolon : UInt8 := 59
def comma : UInt8 := 44

/-- `s.c_str()`: what stands before the first NUL. -/
def cStr (s : Str) : Str := s.takeWhile (· ≠ 0)

/-- A key of the map: a string without `=`. -/
abbrev Key := {k : Str // equalsSign ∉ k}

def keyPreviewFpsRange : Key := ⟨str "preview-fps-range",by decide⟩
def keySceneMode : Key := ⟨str "scene-mode",by decide⟩
def keySupportedSceneModes : Key := ⟨str "scene-mode-values",by decide⟩
def keyRecordingHint : Key := ⟨str "recording-hint",by decide⟩
def keyIsoMode : Key := ⟨str "iso",by decide⟩
def keySupportedIsoModes : Key := ⟨str "iso-values",by decide⟩
def keyShutterSpeed : Key := ⟨str "shutter-speed",by decide⟩
def keyVideoHdr : Key := ⟨str "video-hdr",by decide⟩
def keyVideoHdrValues : Key := ⟨str "video-hdr-values",by decide⟩

def keySonyImageStabiliserValues : Key := ⟨str "sony-is-values",by decide⟩
def keySonyImageStabiliser : Key := ⟨str "sony-is",by decide⟩
def keySonyVideoStabiliser : Key := ⟨str "sony-vs",by decide⟩
def keySonyVideoStabiliserValues : Key := ⟨str "sony-vs-values",by decide⟩
def keySonyVideoHdr : Key := ⟨str "sony-video-hdr",by decide⟩
def keySonyVideoHdrValues : Key := ⟨str "sony-video-hdr-values",by decide⟩
def keySonyIsoAvailModes : Key := ⟨str "sony-iso-values",by decide⟩
def keySonyIsoMode : Key := ⟨str "sony-iso",by decide⟩
def keySonyAeModeValues : Key := ⟨str "sony-ae-mode-values",by decide⟩
def keySonyAeMode : Key := ⟨str "sony-ae-mode",by decide⟩
def keySonyShutterSpeed : Key := ⟨str "sony-shutter-speed",by decide⟩

def valueSonyOn : Str := str "on"
def valueSonyOff : Str := str "off"
def valueSonyStillHdr : Str := str "on-still-hdr"
def valueSonyIntelligentActive : Str := str "on-intelligent-active"

/-! ## The map -/

structure Parameters where
  mMap : KeyValues.Map UInt8
  clean : Clean equalsSign semicolon mMap

namespace Parameters

/-- `Parameters(flattened)`. -/
def ofString (flattened : Str) : Parameters :=
  ⟨KeyValues.parse equalsSign semicolon flattened,parse_clean flattened⟩

def get (p : Parameters) (key : Key) : Option Str := p.mMap[key.1]?.map cStr

def value (p : Parameters) (key : Key) : Str := (p.get key).getD []

/-- `strpbrk(value, "=;") != nullptr`. -/
def hasSign (value : Str) : Bool := value.any fun c => c = equalsSign || c = semicolon

theorem hasSign_eq_false {v : Str} : hasSign v = false ↔ equalsSign ∉ v ∧ semicolon ∉ v := by
  simp only [hasSign,List.any_eq_false,Bool.or_eq_true,decide_eq_true_eq,not_or]
  exact ⟨fun h => ⟨fun hm => (h _ hm).1 rfl,fun hm => (h _ hm).2 rfl⟩,
    fun h x hx => ⟨fun he => h.1 (he ▸ hx),fun he => h.2 (he ▸ hx)⟩⟩

/-- `set`; the value is read up to its NUL, and none is the null pointer. -/
def set (p : Parameters) (key : Key) : Option Str → Parameters
  | none => p
  | some value =>
    if h : hasSign (cStr value) = false then
      ⟨p.mMap.insert key.1 (cStr value),p.clean.insert key.2 (hasSign_eq_false.mp h).2⟩
    else p

/-- Calls of `set`, one after the other. -/
def setAll (p : Parameters) (calls : List (Key × Option Str)) : Parameters :=
  calls.foldl (fun p c => p.set c.1 c.2) p

def flatten (p : Parameters) : Str := KeyValues.flatten equalsSign semicolon p.mMap

theorem ext {p p' : Parameters} (h : p.mMap = p'.mMap) : p = p' := by
  cases p
  cases p'
  cases h
  rfl

/-- Flattening loses nothing. -/
theorem ofString_flatten (p : Parameters) : ofString p.flatten = p := ext (parse_flatten p.clean)

/-- A value that `set` stores as it is. -/
structure Plain (v : Str) : Prop where
  noNul : 0 ∉ v
  noEquals : equalsSign ∉ v
  noSemicolon : semicolon ∉ v

instance (v : Str) : Decidable (Plain v) :=
  decidable_of_iff (0 ∉ v ∧ equalsSign ∉ v ∧ semicolon ∉ v)
    ⟨fun h => ⟨h.1,h.2.1,h.2.2⟩,fun h => ⟨h.1,h.2,h.3⟩⟩

variable {p p' p'' : Parameters} {k k' : Key} {v : Str}

theorem noNul_cStr (s : Str) : 0 ∉ cStr s := fun h => by simpa using List.mem_takeWhile_imp h

theorem cStr_of_noNul {s : Str} (h : 0 ∉ s) : cStr s = s :=
  List.takeWhile_eq_self_iff.mpr fun c hc => by
    simpa using fun he : c = 0 => h (he ▸ hc)

theorem get_set_self (h : Plain v) : (p.set k (some v)).get k = some v := by
  have hs : hasSign (cStr v) = false := by
    rw [cStr_of_noNul h.noNul,hasSign_eq_false]
    exact ⟨h.noEquals,h.noSemicolon⟩
  rw [set,dif_pos hs,get]
  simp only [getElem?_insert,if_true,Option.map_some,cStr_of_noNul h.noNul]

theorem get_set_of_ne (h : k' ≠ k) (v : Option Str) : (p.set k v).get k' = p.get k' := by
  cases v with
  | none => rfl
  | some v =>
    rw [set]
    split
    · simp only [get,getElem?_insert,if_neg fun he => h (Subtype.ext he)]
    · rfl

/-- A value without `=` that `get` returns can be stored. -/
theorem plain_of_get (h : p.get k = some v) (he : equalsSign ∉ v) : Plain v := by
  obtain ⟨w,hw,rfl⟩ := Option.map_eq_some_iff.mp h
  exact ⟨noNul_cStr w,he,fun hc => p.clean.value _ _ hw (List.takeWhile_prefix _ |>.subset hc)⟩

/-! ### Sequences of `set` -/

/-- The second map comes from the first by calls of `set` for some of the keys. -/
inductive Written (ks : List Key) (p : Parameters) : Parameters → Prop
  | refl : Written ks p p
  | set {p' : Parameters} {k : Key} (v : Option Str) : Written ks p p' → k ∈ ks →
      Written ks p (p'.set k v)

theorem Written.single {ks : List Key} (v : Option Str) (h : k ∈ ks) : Written ks p (p.set k v) :=
  .set v .refl h

theorem Written.trans {ks : List Key} (h : Written ks p p') (h' : Written ks p' p'') :
    Written ks p p'' := by
  induction h' with
  | refl => exact h
  | set v _ hk ih => exact .set v ih hk

theorem Written.mono {ks ks' : List Key} (h : Written ks p p') (hk : ks ⊆ ks') : Written ks' p p' := by
  induction h with
  | refl => exact .refl
  | set v _ hm ih => exact .set v ih (hk hm)

theorem Written.get {ks : List Key} (h : Written ks p p') (hk : k ∉ ks) : p'.get k = p.get k := by
  induction h with
  | refl => rfl
  | set v _ hm ih =>
    rw [get_set_of_ne fun he => hk (by rw [he]; exact hm)]
    exact ih

/-- No value has a NUL. -/
def NoNul (p : Parameters) : Prop := ∀ k v : Str, p.mMap[k]? = some v → 0 ∉ v

theorem noNul_ofString {s : Str} (h : 0 ∉ s) : (ofString s).NoNul := by
  refine parseFrom_induction (P:=fun m => ∀ k v : Str, m[k]? = some v → 0 ∉ v)
    (S:=fun s => 0 ∉ s) ∅ ?_ ?_ _ s (by simp) h
  · intro m k v hm _ hv _ _ k' v' h'
    rw [getElem?_insert] at h'
    split at h'
    · cases h'
      exact hv
    · exact hm k' v' h'
  · intro a c b hs
    exact ⟨fun ha => hs (by simp [ha]),fun hb => hs (by simp [hb])⟩

theorem NoNul.set (h : p.NoNul) (v : Option Str) : (p.set k v).NoNul := by
  cases v with
  | none => exact h
  | some v =>
    rw [Parameters.set]
    split
    · intro k' v' h'
      simp only [getElem?_insert] at h'
      split at h'
      · cases h'
        exact noNul_cStr v
      · exact h k' v' h'
    · exact h

theorem Written.noNul {ks : List Key} (h : Written ks p p') (hp : p.NoNul) : p'.NoNul := by
  induction h with
  | refl => exact hp
  | set v _ _ ih => exact ih.set v

theorem NoNul.get (h : p.NoNul) (k : Key) : p.get k = p.mMap[k.1]? := by
  rw [Parameters.get]
  cases hv : p.mMap[k.1]? with
  | none => rfl
  | some v => rw [Option.map_some,cStr_of_noNul (h _ _ hv)]

end Parameters

/-- `contains`: `strstr` of a list, which may be the null pointer. -/
def contains (list : Option Str) (item : Str) : Bool :=
  match list with
  | none => false
  | some l => decide (item <:+: l)

/-! ## `fixupGetParameters` -/

namespace Parameters

def addHdrSceneMode (p : Parameters) : Parameters :=
  if contains (p.get keySonyImageStabiliserValues) valueSonyStillHdr &&
      !contains (p.get keySupportedSceneModes) (str "hdr") then
    p.set keySupportedSceneModes (some (p.value keySupportedSceneModes ++ str ",hdr"))
  else p

def listIsoModes (p : Parameters) : Parameters :=
  match p.get keySonyIsoAvailModes with
  | none => p
  | some isoModes =>
    let list := str "ISO" ++ isoModes.flatMap fun c => if c = comma then str ",ISO" else [c]
    p.set keySupportedIsoModes (some (list ++ str ",auto"))

def showHdrSceneMode (p : Parameters) : Parameters :=
  if p.value keySonyImageStabiliser = valueSonyStillHdr then p.set keySceneMode (some (str "hdr"))
  else p

def showVideoHdr (p : Parameters) : Parameters :=
  if (p.get keySonyVideoHdr).isSome && (p.get keySonyVideoHdrValues).isSome then
    let p := p.set keyVideoHdrValues (p.get keySonyVideoHdrValues)
    p.set keyVideoHdr (p.get keySonyVideoHdr)
  else p

def showExposure (p : Parameters) : Parameters :=
  match p.get keySonyIsoMode with
  | none => p
  | some sonyIso =>
    if (p.get keySonyAeModeValues).isSome then
      let aeMode := p.value keySonyAeMode
      let iso := str "ISO" ++ sonyIso
      let shutterSpeed := p.get keySonyShutterSpeed
      if aeMode = str "iso-prio" then
        (p.set keyIsoMode (some iso)).set keyShutterSpeed (some (str "auto"))
      else if aeMode = str "shutter-prio" then
        (p.set keyIsoMode (some (str "auto"))).set keyShutterSpeed shutterSpeed
      else if aeMode = str "manual" then
        (p.set keyShutterSpeed shutterSpeed).set keyIsoMode (some iso)
      else
        (p.set keyIsoMode (some (str "auto"))).set keyShutterSpeed (some (str "auto"))
    else p

def fixupGet (p : Parameters) : Parameters :=
  p.addHdrSceneMode.listIsoModes.showHdrSceneMode.showVideoHdr.showExposure

/-! ## `fixupSetParameters` -/

def takeShutterSpeed (p : Parameters) : Parameters :=
  match p.get keyShutterSpeed with
  | none => p
  | some shutterSpeed =>
    if shutterSpeed ≠ str "auto" then
      (p.set keySonyShutterSpeed (some shutterSpeed)).set keySonyAeMode (some (str "shutter-prio"))
    else if contains (p.get keySonyAeModeValues) (str "auto") then
      p.set keySonyAeMode (some (str "auto"))
    else p

/-- The second half of the sensitivity: the AE mode that goes with it. -/
def takeAeMode (p : Parameters) (autoIso : Bool) : Parameters :=
  match p.get keySonyAeModeValues with
  | none => p
  | some aeModes =>
    let aeMode := p.value keySonyAeMode
    if autoIso then
      if contains (some aeModes) (str "auto") && aeMode ≠ str "shutter-prio" then
        p.set keySonyAeMode (some (str "auto"))
      else p
    else if contains (some aeModes) (str "iso-prio") then
      p.set keySonyAeMode
        (some (if aeMode = str "shutter-prio" then str "manual" else str "iso-prio"))
    else p

def takeIsoMode (p : Parameters) : Parameters :=
  match p.get keyIsoMode with
  | none => p
  | some isoMode =>
    let autoIso : Bool := isoMode = str "auto"
    (if !autoIso && 3 ≤ isoMode.length then p.set keySonyIsoMode (some (isoMode.drop 3))
      else p).takeAeMode autoIso

def takeSceneMode (p : Parameters) : Parameters :=
  match p.get keySceneMode with
  | none => p
  | some sceneMode =>
    if sceneMode = str "hdr" then
      (p.set keySonyImageStabiliser (some valueSonyStillHdr)).set keySceneMode (some (str "auto"))
    else p.set keySonyImageStabiliser (some valueSonyOn)

def takeVideoHdr (p : Parameters) : Parameters :=
  if (p.get keySonyVideoHdr).isSome && (p.get keyVideoHdr).isSome then
    p.set keySonyVideoHdr (p.get keyVideoHdr)
  else p

def takeRecordingHint (p : Parameters) : Parameters :=
  if p.value keyRecordingHint = str "true" then
    let p := p.set keySonyVideoStabiliser
      (some (if contains (p.get keySonyVideoStabiliserValues) valueSonyIntelligentActive then
        valueSonyIntelligentActive else valueSonyOn))
    p.set keySonyImageStabiliser (some valueSonyOff)
  else p

def fixupSet (p : Parameters) : Parameters :=
  (p.set keyPreviewFpsRange (some (str "1000,60000"))).takeShutterSpeed.takeIsoMode.takeSceneMode
    |>.takeVideoHdr.takeRecordingHint

end Parameters

/-! ## What each step writes -/

namespace Parameters

variable (p : Parameters)

theorem written_addHdrSceneMode : Written [keySupportedSceneModes] p p.addHdrSceneMode := by
  unfold addHdrSceneMode
  split
  · exact .single _ (by simp)
  · exact .refl

theorem written_listIsoModes : Written [keySupportedIsoModes] p p.listIsoModes := by
  unfold listIsoModes
  split
  · exact .refl
  · exact .single _ (by simp)

theorem written_showHdrSceneMode : Written [keySceneMode] p p.showHdrSceneMode := by
  unfold showHdrSceneMode
  split
  · exact .single _ (by simp)
  · exact .refl

theorem written_showVideoHdr : Written [keyVideoHdrValues,keyVideoHdr] p p.showVideoHdr := by
  unfold showVideoHdr
  split
  · exact .set _ (.single _ (by simp)) (by simp)
  · exact .refl

theorem written_showExposure : Written [keyIsoMode,keyShutterSpeed] p p.showExposure := by
  unfold showExposure
  split
  · exact .refl
  · simp only
    split
    · split
      · exact .set _ (.single _ (by simp)) (by simp)
      · split
        · exact .set _ (.single _ (by simp)) (by simp)
        · split
          · exact .set _ (.single _ (by simp)) (by simp)
          · exact .set _ (.single _ (by simp)) (by simp)
    · exact .refl

theorem written_takeShutterSpeed :
    Written [keySonyShutterSpeed,keySonyAeMode] p p.takeShutterSpeed := by
  unfold takeShutterSpeed
  split
  · exact .refl
  · split
    · exact .set _ (.single _ (by simp)) (by simp)
    · split
      · exact .single _ (by simp)
      · exact .refl

theorem written_takeAeMode (autoIso : Bool) : Written [keySonyAeMode] p (p.takeAeMode autoIso) := by
  unfold takeAeMode
  split
  · exact .refl
  · simp only
    split
    · split
      · exact .single _ (by simp)
      · exact .refl
    · split
      · exact .single _ (by simp)
      · exact .refl

theorem written_takeIsoMode : Written [keySonyIsoMode,keySonyAeMode] p p.takeIsoMode := by
  unfold takeIsoMode
  split
  · exact .refl
  · simp only
    refine Written.trans ?_ ((written_takeAeMode _ _).mono (by decide))
    split
    · exact .single _ (by simp)
    · exact .refl

theorem written_takeSceneMode :
    Written [keySonyImageStabiliser,keySceneMode] p p.takeSceneMode := by
  unfold takeSceneMode
  split
  · exact .refl
  · split
    · exact .set _ (.single _ (by simp)) (by simp)
    · exact .single _ (by simp)

theorem written_takeVideoHdr : Written [keySonyVideoHdr] p p.takeVideoHdr := by
  unfold takeVideoHdr
  split
  · exact .single _ (by simp)
  · exact .refl

theorem written_takeRecordingHint :
    Written [keySonyVideoStabiliser,keySonyImageStabiliser] p p.takeRecordingHint := by
  unfold takeRecordingHint
  split
  · exact .set _ (.single _ (by simp)) (by simp)
  · exact .refl

/-- The keys of the framework that `fixupGetParameters` writes. -/
def shownKeys : List Key :=
  [keySupportedSceneModes,keySupportedIsoModes,keySceneMode,keyVideoHdrValues,keyVideoHdr,
    keyIsoMode,keyShutterSpeed]

theorem written_fixupGet : Written shownKeys p p.fixupGet :=
  ((written_addHdrSceneMode p).mono (by decide)).trans <|
    ((written_listIsoModes _).mono (by decide)).trans <|
    ((written_showHdrSceneMode _).mono (by decide)).trans <|
    ((written_showVideoHdr _).mono (by decide)).trans <|
    (written_showExposure _).mono (by decide)

/-- The keys that `fixupSetParameters` writes. -/
def takenKeys : List Key :=
  [keyPreviewFpsRange,keySonyShutterSpeed,keySonyAeMode,keySonyIsoMode,keySonyImageStabiliser,
    keySceneMode,keySonyVideoHdr,keySonyVideoStabiliser]

theorem written_fixupSet : Written takenKeys p p.fixupSet :=
  (Written.single (some (str "1000,60000")) (by decide)).trans <|
    ((written_takeShutterSpeed _).mono (by decide)).trans <|
    ((written_takeIsoMode _).mono (by decide)).trans <|
    ((written_takeSceneMode _).mono (by decide)).trans <|
    ((written_takeVideoHdr _).mono (by decide)).trans <|
    (written_takeRecordingHint _).mono (by decide)

end Parameters

def fixupGetParameters (settings : Str) : Str := (Parameters.ofString settings).fixupGet.flatten

def fixupSetParameters (settings : Str) : Str := (Parameters.ofString settings).fixupSet.flatten

end Camera
end Kitakami

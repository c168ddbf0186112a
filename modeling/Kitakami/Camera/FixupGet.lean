import Kitakami.Camera.Parameters

/-!
# What `fixupGetParameters` leaves

`fixupGetParameters` adds `hdr` to the scene modes and then calls `set` with
values that come from the vendor's keys. It writes none of these keys and each
of the others once, so that a second pass stores what is there already.
-/

namespace Kitakami
namespace Camera

open KeyValues

namespace Parameters

variable {p q : Parameters} {k : Key} {c : Key × Option Str} {calls : List (Key × Option Str)}

/-! ## Calls of `set` -/

/-- The map holds what the call would store, if it would store anything. -/
def Holds (p : Parameters) (c : Key × Option Str) : Prop :=
  ∀ v ∈ c.2, hasSign (cStr v) = false → p.mMap[c.1.1]? = some (cStr v)

theorem mMap_set_of_ne (v : Option Str) {key : Str} (h : key ≠ k.1) :
    (p.set k v).mMap[key]? = p.mMap[key]? := by
  cases v with
  | none => rfl
  | some v =>
    rw [set]
    split
    · simp only [getElem?_insert,if_neg h]
    · rfl

theorem holds_set (p : Parameters) (k : Key) (v : Option Str) : (p.set k v).Holds (k,v) := by
  rintro v rfl hv
  rw [set,dif_pos hv]
  simp only [getElem?_insert,if_true]

theorem Holds.set_of_ne (h : p.Holds c) (v : Option Str) (hne : c.1 ≠ k) : (p.set k v).Holds c := by
  intro w hw hs
  rw [mMap_set_of_ne v fun he => hne (Subtype.ext he)]
  exact h w hw hs

/-- Such a call changes nothing. -/
theorem Holds.set_eq (h : p.Holds c) : p.set c.1 c.2 = p := by
  obtain ⟨k,_ | v⟩ := c
  · rfl
  rw [set]
  split
  · case _ hv =>
    refine ext (Std.ExtTreeMap.ext_getElem? fun key => ?_)
    rw [getElem?_insert]
    split
    · case _ hk => rw [hk,h v rfl hv]
    · rfl
  · rfl

theorem setAll_append (p : Parameters) (calls calls' : List (Key × Option Str)) :
    p.setAll (calls ++ calls') = (p.setAll calls).setAll calls' := List.foldl_append

theorem Holds.setAll (h : p.Holds c) (hne : ∀ d ∈ calls, c.1 ≠ d.1) : (p.setAll calls).Holds c := by
  induction calls generalizing p with
  | nil => exact h
  | cons d calls ih =>
    exact ih (h.set_of_ne d.2 (hne d List.mem_cons_self)) fun d hd =>
      hne d (List.mem_cons_of_mem _ hd)

/-- After calls for different keys, the map holds what they store. -/
theorem holds_setAll (p : Parameters) (hd : (calls.map Prod.fst).Nodup) :
    ∀ c ∈ calls, (p.setAll calls).Holds c := by
  induction calls generalizing p with
  | nil => simp
  | cons d calls ih =>
    rw [List.map_cons,List.nodup_cons] at hd
    intro c hc
    rcases List.mem_cons.mp hc with rfl | hc
    · exact (holds_set p c.1 c.2).setAll fun d hd' he =>
        hd.1 (he ▸ List.mem_map_of_mem hd')
    · exact ih (p.set d.1 d.2) hd.2 c hc

theorem setAll_eq_self (h : ∀ c ∈ calls, p.Holds c) : p.setAll calls = p := by
  induction calls with
  | nil => rfl
  | cons d calls ih =>
    show (p.set d.1 d.2).setAll calls = p
    rw [(h d List.mem_cons_self).set_eq]
    exact ih fun c hc => h c (List.mem_cons_of_mem _ hc)

theorem mMap_setAll {key : Str} (h : ∀ c ∈ calls, key ≠ c.1.1) :
    (p.setAll calls).mMap[key]? = p.mMap[key]? := by
  induction calls generalizing p with
  | nil => rfl
  | cons d calls ih =>
    exact (ih fun c hc => h c (List.mem_cons_of_mem _ hc)).trans
      (mMap_set_of_ne d.2 (h d List.mem_cons_self))

theorem Written.mMap {ks : List Key} (h : Written ks p q) {key : Str} (hk : ∀ k ∈ ks, key ≠ k.1) :
    q.mMap[key]? = p.mMap[key]? := by
  induction h with
  | refl => rfl
  | set v _ hm ih => exact (mMap_set_of_ne v (hk _ hm)).trans ih

/-! ## The steps as calls -/

def isoModesCalls (p : Parameters) : List (Key × Option Str) :=
  match p.get keySonyIsoAvailModes with
  | none => []
  | some isoModes =>
    [(keySupportedIsoModes,
      some (str "ISO" ++ (isoModes.flatMap fun c => if c = comma then str ",ISO" else [c]) ++
        str ",auto"))]

def sceneModeCalls (p : Parameters) : List (Key × Option Str) :=
  if p.value keySonyImageStabiliser = valueSonyStillHdr then [(keySceneMode,some (str "hdr"))]
  else []

def videoHdrCalls (p : Parameters) : List (Key × Option Str) :=
  if (p.get keySonyVideoHdr).isSome && (p.get keySonyVideoHdrValues).isSome then
    [(keyVideoHdrValues,p.get keySonyVideoHdrValues),(keyVideoHdr,p.get keySonyVideoHdr)]
  else []

def exposureCalls (p : Parameters) : List (Key × Option Str) :=
  match p.get keySonyIsoMode with
  | none => []
  | some sonyIso =>
    if (p.get keySonyAeModeValues).isSome then
      let aeMode := p.value keySonyAeMode
      let iso := str "ISO" ++ sonyIso
      let shutterSpeed := p.get keySonyShutterSpeed
      if aeMode = str "iso-prio" then
        [(keyIsoMode,some iso),(keyShutterSpeed,some (str "auto"))]
      else if aeMode = str "shutter-prio" then
        [(keyIsoMode,some (str "auto")),(keyShutterSpeed,shutterSpeed)]
      else if aeMode = str "manual" then
        [(keyShutterSpeed,shutterSpeed),(keyIsoMode,some iso)]
      else
        [(keyIsoMode,some (str "auto")),(keyShutterSpeed,some (str "auto"))]
    else []

/-- The calls behind the first step. -/
def shownCalls (p : Parameters) : List (Key × Option Str) :=
  p.isoModesCalls ++ (p.sceneModeCalls ++ (p.videoHdrCalls ++ p.exposureCalls))

theorem listIsoModes_eq (p : Parameters) : p.listIsoModes = p.setAll p.isoModesCalls := by
  unfold listIsoModes isoModesCalls
  cases p.get keySonyIsoAvailModes <;> rfl

theorem showHdrSceneMode_eq (p : Parameters) : p.showHdrSceneMode = p.setAll p.sceneModeCalls := by
  unfold showHdrSceneMode sceneModeCalls
  split <;> rfl

theorem showVideoHdr_eq (p : Parameters) : p.showVideoHdr = p.setAll p.videoHdrCalls := by
  unfold showVideoHdr videoHdrCalls
  split
  · show (p.set _ _).set _ ((p.set _ _).get keySonyVideoHdr) = (p.set _ _).set _ _
    rw [get_set_of_ne (by decide)]
  · rfl

theorem showExposure_eq (p : Parameters) : p.showExposure = p.setAll p.exposureCalls := by
  unfold showExposure exposureCalls
  cases p.get keySonyIsoMode with
  | none => rfl
  | some sonyIso =>
    dsimp only
    split
    · split
      · rfl
      · split
        · rfl
        · split <;> rfl
    · rfl

/-! ## The keys they read -/

/-- The two maps agree on the vendor's keys. -/
def SonySame (p q : Parameters) : Prop := ∀ k : Key, str "sony-" <+: k.1 → q.get k = p.get k

theorem not_sony_shownKeys : ∀ k ∈ shownKeys, ¬ str "sony-" <+: k.1 := by decide

theorem sonySame_of_written {ks : List Key} (h : Written ks p q) (hks : ks ⊆ shownKeys) :
    SonySame p q :=
  fun k hk => h.get fun hm => not_sony_shownKeys k (hks hm) hk

theorem SonySame.trans {r : Parameters} (h : SonySame p q) (h' : SonySame q r) : SonySame p r :=
  fun k hk => (h' k hk).trans (h k hk)

theorem SonySame.isoModesCalls (h : SonySame p q) : q.isoModesCalls = p.isoModesCalls := by
  unfold Parameters.isoModesCalls
  rw [h keySonyIsoAvailModes (by decide)]

theorem SonySame.sceneModeCalls (h : SonySame p q) : q.sceneModeCalls = p.sceneModeCalls := by
  unfold Parameters.sceneModeCalls value
  rw [h keySonyImageStabiliser (by decide)]

theorem SonySame.videoHdrCalls (h : SonySame p q) : q.videoHdrCalls = p.videoHdrCalls := by
  unfold Parameters.videoHdrCalls
  rw [h keySonyVideoHdr (by decide),h keySonyVideoHdrValues (by decide)]

theorem SonySame.exposureCalls (h : SonySame p q) : q.exposureCalls = p.exposureCalls := by
  unfold Parameters.exposureCalls value
  rw [h keySonyIsoMode (by decide),h keySonyAeModeValues (by decide),h keySonyAeMode (by decide),
    h keySonyShutterSpeed (by decide)]

theorem SonySame.shownCalls (h : SonySame p q) : q.shownCalls = p.shownCalls := by
  rw [Parameters.shownCalls,h.isoModesCalls,h.sceneModeCalls,h.videoHdrCalls,h.exposureCalls]
  rfl

/-- `fixupGetParameters` as one step and calls whose values are the vendor's. -/
theorem fixupGet_eq (p : Parameters) : p.fixupGet = p.addHdrSceneMode.setAll p.shownCalls := by
  have h₁ := sonySame_of_written (written_addHdrSceneMode p) (by decide)
  have h₂ := h₁.trans (sonySame_of_written (written_listIsoModes _) (by decide))
  have h₃ := h₂.trans (sonySame_of_written (written_showHdrSceneMode _) (by decide))
  have h₄ := h₃.trans (sonySame_of_written (written_showVideoHdr _) (by decide))
  rw [fixupGet,showExposure_eq,h₄.exposureCalls,showVideoHdr_eq,h₃.videoHdrCalls,
    showHdrSceneMode_eq,h₂.sceneModeCalls,listIsoModes_eq,h₁.isoModesCalls,shownCalls,
    setAll_append,setAll_append,setAll_append]

/-! ## The keys they write -/

theorem keys_isoModesCalls (p : Parameters) :
    (p.isoModesCalls.map Prod.fst).Sublist [keySupportedIsoModes] := by
  unfold isoModesCalls
  split
  · exact List.nil_sublist _
  · exact List.Sublist.refl _

theorem keys_sceneModeCalls (p : Parameters) :
    (p.sceneModeCalls.map Prod.fst).Sublist [keySceneMode] := by
  unfold sceneModeCalls
  split
  · exact List.Sublist.refl _
  · exact List.nil_sublist _

theorem keys_videoHdrCalls (p : Parameters) :
    (p.videoHdrCalls.map Prod.fst).Sublist [keyVideoHdrValues,keyVideoHdr] := by
  unfold videoHdrCalls
  split
  · exact List.Sublist.refl _
  · exact List.nil_sublist _

theorem keys_exposureCalls (p : Parameters) :
    (p.exposureCalls.map Prod.fst).Sublist [keyIsoMode,keyShutterSpeed] ∨
      (p.exposureCalls.map Prod.fst).Sublist [keyShutterSpeed,keyIsoMode] := by
  unfold exposureCalls
  split
  · exact .inl (List.nil_sublist _)
  · split
    · dsimp only
      split
      · exact .inl (List.Sublist.refl _)
      · split
        · exact .inl (List.Sublist.refl _)
        · split
          · exact .inr (List.Sublist.refl _)
          · exact .inl (List.Sublist.refl _)
    · exact .inl (List.nil_sublist _)

/-- The orders in which the keys can be written. -/
def shownOrders : List (List Key) :=
  [[keySupportedIsoModes,keySceneMode,keyVideoHdrValues,keyVideoHdr,keyIsoMode,keyShutterSpeed],
    [keySupportedIsoModes,keySceneMode,keyVideoHdrValues,keyVideoHdr,keyShutterSpeed,keyIsoMode]]

theorem keys_shownCalls (p : Parameters) :
    ∃ l ∈ shownOrders, (p.shownCalls.map Prod.fst).Sublist l := by
  have hfront : ∀ {l : List Key}, (p.exposureCalls.map Prod.fst).Sublist l →
      (p.shownCalls.map Prod.fst).Sublist
        ([keySupportedIsoModes] ++ ([keySceneMode] ++ ([keyVideoHdrValues,keyVideoHdr] ++ l))) := by
    intro l hl
    simp only [shownCalls,List.map_append]
    exact (keys_isoModesCalls p).append <| (keys_sceneModeCalls p).append <|
      (keys_videoHdrCalls p).append hl
  rcases keys_exposureCalls p with h | h
  · exact ⟨_,by simp [shownOrders],hfront h⟩
  · exact ⟨_,by simp [shownOrders],hfront h⟩

/-- No key is written twice, and the scene modes are not written. -/
theorem shownOrders_spec : ∀ l ∈ shownOrders, l.Nodup ∧ keySupportedSceneModes ∉ l := by decide

/-! ## A second pass -/

/-- Where the scene modes are as the first step leaves them, the step changes nothing more. -/
theorem addHdrSceneMode_eq_self (hsony : SonySame p q)
    (hmodes : q.mMap[keySupportedSceneModes.1]? = p.addHdrSceneMode.mMap[keySupportedSceneModes.1]?) :
    q.addHdrSceneMode = q := by
  have hget : q.get keySupportedSceneModes = p.addHdrSceneMode.get keySupportedSceneModes :=
    congrArg (Option.map cStr) hmodes
  have hvalues := hsony keySonyImageStabiliserValues (by decide)
  by_cases hc : contains (p.get keySonyImageStabiliserValues) valueSonyStillHdr &&
      !contains (p.get keySupportedSceneModes) (str "hdr")
  · generalize hvd : p.value keySupportedSceneModes ++ str ",hdr" = v
    have hp : p.addHdrSceneMode = p.set keySupportedSceneModes (some v) := by
      rw [addHdrSceneMode,if_pos hc,hvd]
    rw [hp] at hget
    by_cases hv : hasSign (cStr v) = false
    · -- the list has been stored, and it names the mode
      have hnul : 0 ∉ v := by
        have hvalue : 0 ∉ p.value keySupportedSceneModes := by
          rw [value,get]
          cases p.mMap[keySupportedSceneModes.1]? with
          | none => simp
          | some w => exact noNul_cStr w
        rw [← hvd,List.mem_append]
        exact not_or.mpr ⟨hvalue,by decide⟩
      rw [cStr_of_noNul hnul,hasSign_eq_false] at hv
      have hhdr : str "hdr" <:+: v :=
        hvd ▸ (show str "hdr" <:+ str ",hdr" by decide).isInfix.trans
          (List.suffix_append _ _).isInfix
      rw [get_set_self ⟨hnul,hv.1,hv.2⟩] at hget
      have hlists : contains (q.get keySupportedSceneModes) (str "hdr") = true := by
        rw [hget]
        exact decide_eq_true hhdr
      rw [addHdrSceneMode,hlists,Bool.not_true,Bool.and_false,if_neg Bool.false_ne_true]
    · -- the list cannot be stored, now as then
      have hsame : q.get keySupportedSceneModes = p.get keySupportedSceneModes := by
        rw [hget,set,dif_neg hv]
      rw [addHdrSceneMode,hvalues,hsame,if_pos hc,value,hsame]
      rw [value] at hvd
      rw [hvd,set,dif_neg hv]
  · have hp : p.addHdrSceneMode = p := if_neg hc
    rw [hp] at hget
    rw [addHdrSceneMode,hvalues,hget,if_neg hc]

theorem fixupGet_fixupGet (p : Parameters) : p.fixupGet.fixupGet = p.fixupGet := by
  obtain ⟨l,hl,hkeys⟩ := keys_shownCalls p
  obtain ⟨hnodup,hmodes⟩ := shownOrders_spec l hl
  have hsony := sonySame_of_written (written_fixupGet p) (List.Subset.refl _)
  have hfirst : p.fixupGet.addHdrSceneMode = p.fixupGet := by
    refine addHdrSceneMode_eq_self hsony ?_
    rw [fixupGet_eq]
    refine mMap_setAll fun c hc he => hmodes ?_
    rw [show keySupportedSceneModes = c.1 from Subtype.ext he]
    exact hkeys.subset (List.mem_map_of_mem hc)
  have hheld : ∀ c ∈ p.shownCalls, p.fixupGet.Holds c := by
    rw [fixupGet_eq p]
    exact holds_setAll _ (hkeys.nodup hnodup)
  rw [fixupGet_eq p.fixupGet,hfirst,hsony.shownCalls]
  exact setAll_eq_self hheld

end Parameters

/-- `fixupGetParameters` is idempotent, and the vendor's keys keep their values. -/
theorem fixupGetParameters_stable (s : Str) :
    fixupGetParameters (fixupGetParameters s) = fixupGetParameters s ∧
      ∀ key : Str, str "sony-" <+: key →
        (Parameters.ofString (fixupGetParameters s)).mMap[key]? =
          (Parameters.ofString s).mMap[key]? := by
  constructor
  · rw [fixupGetParameters,fixupGetParameters,Parameters.ofString_flatten,Parameters.fixupGet_fixupGet]
  · intro key hkey
    rw [fixupGetParameters,Parameters.ofString_flatten]
    refine (Parameters.written_fixupGet _).mMap fun k hk he => ?_
    exact Parameters.not_sony_shownKeys k hk (he ▸ hkey)

end Camera
end Kitakami

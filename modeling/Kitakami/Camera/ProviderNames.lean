import Mathlib.Data.List.TakeWhile
import Kitakami.Camera.Provider

/-!
# The names a provider offers

A name is read back as the version and the camera it was made from, so the
names of two cameras differ. While the constructor goes on, the provider offers
exactly the cameras it has passed.
-/

namespace Kitakami
namespace Camera
namespace Provider

open Runs Monitor

/-! ## Reading a name -/

theorem behind_eq_some {t s r : Str} : behind t s = some r ↔ s = t ++ r := by
  induction t generalizing s with
  | nil => simp [behind,eq_comm]
  | cons c t ih =>
    cases s with
    | nil => simp [behind]
    | cons d s =>
      rw [behind,List.cons_append,List.cons.injEq]
      split
      case isTrue h => simp [h,ih]
      case isFalse h => simp [Ne.symm h]

/-- A number in decimal. -/
def Number (s : Str) : Prop := s ≠ [] ∧ ∀ c ∈ s, isDigit c = true

/-- What is read are the digits up to the first other byte. -/
theorem digits_eq_some {s d r : Str} : digits s = some (d,r) ↔
    s = d ++ r ∧ Number d ∧ ∀ c ∈ r.head?, isDigit c = false := by
  unfold digits
  constructor
  · intro h
    split at h
    · cases h
    · rename_i hne
      simp only [Option.some.injEq,Prod.mk.injEq] at h
      obtain ⟨rfl,rfl⟩ := h
      refine ⟨List.takeWhile_append_dropWhile.symm,⟨hne,fun c hc => List.mem_takeWhile_imp hc⟩,?_⟩
      intro c hc
      have hhead := List.head?_dropWhile_not isDigit s
      rw [Option.mem_def.mp hc] at hhead
      exact hhead
  · rintro ⟨rfl,⟨hne,hd⟩,hr⟩
    have htake : (d ++ r).takeWhile isDigit = d ∧ (d ++ r).dropWhile isDigit = r := by
      rw [List.takeWhile_append_of_pos hd,List.dropWhile_append_of_pos hd]
      cases r with
      | nil => simp
      | cons c r =>
        have hc := hr c rfl
        simp [hc]
    rw [htake.1,htake.2,if_neg hne]

theorem line_eq_some {s r : Str} : line s = some r ↔ s = r ∧ r ≠ [] ∧ 10 ∉ r ∧ 13 ∉ r := by
  unfold line
  split
  case isTrue h =>
    refine iff_of_false (by simp) ?_
    rintro ⟨rfl,h₁,h₂,h₃⟩
    exact h.elim h₁ (·.elim h₂ h₃)
  case isFalse h =>
    simp only [not_or] at h
    rw [Option.some.injEq]
    exact ⟨fun hs => ⟨hs,hs ▸ h⟩,And.left⟩

/-- The version of a name, as the expression takes it. -/
def Version (v : Str) : Prop := ∃ major minor, Number major ∧ Number minor ∧ v = major ++ str "." ++ minor

/-- A name of a device. -/
def deviceName (version cameraId : Str) : Str := str "device@" ++ version ++ str "/legacy/" ++ cameraId

theorem head_dot (s : Str) : ∀ c ∈ (str "." ++ s).head?, isDigit c = false := by
  intro c hc
  obtain rfl : 46 = c := Option.some.inj hc
  rfl

theorem head_slash (s : Str) : ∀ c ∈ (str "/legacy/" ++ s).head?, isDigit c = false := by
  intro c hc
  obtain rfl : 47 = c := Option.some.inj hc
  rfl

/-- The names that match are those of the expression, and they are cut at the slashes. -/
theorem matchDeviceName_eq_some {s version cameraId : Str} :
    matchDeviceName s = some (version,cameraId) ↔ s = deviceName version cameraId ∧
      Version version ∧ cameraId ≠ [] ∧ 10 ∉ cameraId ∧ 13 ∉ cameraId := by
  constructor
  · intro h
    simp only [matchDeviceName,Option.bind_eq_bind,Option.bind_eq_some_iff,Option.some.injEq,
      Prod.mk.injEq,Prod.exists] at h
    obtain ⟨s₁,h₁,major,s₂,h₂,s₃,h₃,minor,s₄,h₄,s₅,h₅,id,h₆,hv,rfl⟩ := h
    obtain rfl := behind_eq_some.mp h₁
    obtain ⟨rfl,hmajor,-⟩ := digits_eq_some.mp h₂
    obtain rfl := behind_eq_some.mp h₃
    obtain ⟨rfl,hminor,-⟩ := digits_eq_some.mp h₄
    obtain rfl := behind_eq_some.mp h₅
    obtain ⟨rfl,hid⟩ := line_eq_some.mp h₆
    subst hv
    exact ⟨by simp only [deviceName,List.append_assoc],⟨major,minor,hmajor,hminor,rfl⟩,hid⟩
  · rintro ⟨rfl,⟨major,minor,hmajor,hminor,rfl⟩,hid⟩
    have h₁ : behind (str "device@") (deviceName (major ++ str "." ++ minor) cameraId) =
        some (major ++ (str "." ++ (minor ++ (str "/legacy/" ++ cameraId)))) :=
      behind_eq_some.mpr (by simp only [deviceName,List.append_assoc])
    simp only [matchDeviceName,Option.bind_eq_bind,h₁,Option.bind_some,
      digits_eq_some.mpr ⟨rfl,hmajor,head_dot _⟩,behind_eq_some.mpr rfl,
      digits_eq_some.mpr ⟨rfl,hminor,head_slash _⟩,line_eq_some.mpr ⟨rfl,hid⟩]

/-- A name has one version and one camera. -/
theorem deviceName_inj {v w a b : Str} (hv : Version v) (hw : Version w)
    (ha : a ≠ [] ∧ 10 ∉ a ∧ 13 ∉ a) (hb : b ≠ [] ∧ 10 ∉ b ∧ 13 ∉ b)
    (h : deviceName v a = deviceName w b) : v = w ∧ a = b := by
  have h₁ := matchDeviceName_eq_some.mpr ⟨rfl,hv,ha⟩
  rw [h,matchDeviceName_eq_some.mpr ⟨rfl,hw,hb⟩,Option.some.injEq,Prod.mk.injEq] at h₁
  exact ⟨h₁.1.symm,h₁.2.symm⟩

/-! ## Making a name -/

theorem cameraIdStr_natCast {i : ℕ} (hi : i < 2^31) : cameraIdStr i = decimal i := by
  have hlen : (decimal i).length ≤ 10 := length_decimal_le (by decide) (by omega)
  have hprint : printInt 0 i = decimal i := by simp [printInt]
  rw [cameraIdStr,hprint,snprintf,kMaxCameraIdLen,List.take_of_length_le (by omega)]

/-- The text of a camera's number is a name of a camera. -/
theorem decimal_cameraId (i : ℕ) :
    Number (decimal i) ∧ 10 ∉ decimal i ∧ 13 ∉ decimal i ∧ 0 ∉ decimal i := by
  refine ⟨⟨decimal_ne_nil i,fun c hc => isDigit_of_mem hc⟩,?_,?_,zero_notMem_decimal i⟩ <;>
    exact fun h => absurd (isDigit_of_mem h) (by decide)

theorem decimal_injective {i j : ℕ} (h : decimal i = decimal j) : i = j := by
  rw [← digitsValue_decimal i,h,digitsValue_decimal]

namespace CameraModule

variable {m : CameraModule} {i : ℕ}

theorem cameras_lt : m.cameras < 2^31 := by
  have h := m.numberOfCameras.toInt_lt
  rw [cameras]
  omega

theorem lt_cameras : i < m.cameras ↔ (i : ℤ) < m.numberOfCameras.toInt := by
  rw [cameras]
  omega

/-- The versions that have names. -/
def Supported (version : ℤ) : Prop :=
  version = deviceApi1_0 ∨ version = deviceApi3_2 ∨ version = deviceApi3_3 ∨ version = deviceApi3_4

theorem supported_of_check {version : ℤ} (hdoc : m.Documented)
    (hinfo : m.cameraInfo i = some version) (hcheck : m.checkCameraVersion version = true) :
    Supported (m.deviceVersion i) := by
  rw [hdoc i version hinfo]
  split
  case isTrue h =>
    simp only [checkCameraVersion,if_pos h,Bool.or_eq_true,decide_eq_true_eq] at hcheck
    rcases hcheck with ((h | h) | h) | h <;> simp [Supported,h]
  case isFalse => exact Or.inl rfl

theorem preferred_cases : m.mPreferredHal3MinorVersion = 2 ∨ m.mPreferredHal3MinorVersion = 3 := by
  unfold mPreferredHal3MinorVersion
  split
  case isTrue h => exact h
  case isFalse => exact Or.inr rfl

/-- The version in a name of version 3. -/
def preferredVersion (m : CameraModule) : Str :=
  if m.mPreferredHal3MinorVersion = 2 then str "3.2" else str "3.3"

/-- The version in the name of a device. -/
def versionName (m : CameraModule) (deviceVersion : ℤ) : Str :=
  if deviceVersion = deviceApi1_0 then str "1.0" else m.preferredVersion

theorem version_of_mem {v : Str} (h : v ∈ [str "1.0",str "3.2",str "3.3"]) : Version v := by
  have hn : ∀ d : UInt8, isDigit d = true → Number [d] := fun d hd => ⟨by simp,by simpa using hd⟩
  simp only [List.mem_cons,List.not_mem_nil,or_false] at h
  rcases h with rfl | rfl | rfl
  · exact ⟨[49],[48],hn _ rfl,hn _ rfl,rfl⟩
  · exact ⟨[51],[50],hn _ rfl,hn _ rfl,rfl⟩
  · exact ⟨[51],[51],hn _ rfl,hn _ rfl,rfl⟩

theorem versionName_mem (v : ℤ) : m.versionName v ∈ [str "1.0",str "3.2",str "3.3"] := by
  unfold versionName preferredVersion
  split
  · simp
  · split <;> simp

/-- No name of a supported device is cut. -/
theorem getHidlDeviceName_eq {version : ℤ} (hs : Supported version) {cameraId : Str}
    (hlen : cameraId.length ≤ 15) :
    m.getHidlDeviceName cameraId version = deviceName (m.versionName version) cameraId := by
  have htext : ∀ v ∈ [str "1.0",str "3.2",str "3.3"],
      (deviceName v cameraId).take 127 = deviceName v cameraId := by
    intro v hv
    have hv3 : v.length = 3 := by
      simp only [List.mem_cons,List.not_mem_nil,or_false] at hv
      rcases hv with rfl | rfl | rfl <;> rfl
    have h₁ : (str "device@").length = 7 := rfl
    have h₂ : (str "/legacy/").length = 8 := rfl
    apply List.take_of_length_le
    simp only [deviceName,List.length_append]
    omega
  have hn : ¬ (version ≠ deviceApi1_0 ∧ version ≠ deviceApi3_2 ∧ version ≠ deviceApi3_3 ∧
      version ≠ deviceApi3_4) := by
    rintro ⟨h₁,h₂,h₃,h₄⟩
    exact hs.elim h₁ (·.elim h₂ (·.elim h₃ h₄))
  have hdot : ∀ a b : Str, str "device@" ++ a ++ str "." ++ b ++ str "/legacy/" ++ cameraId =
      deviceName (a ++ str "." ++ b) cameraId := fun a b => by
    simp only [deviceName,List.append_assoc]
  rw [← htext _ (m.versionName_mem version),getHidlDeviceName,if_neg hn]
  simp only [snprintf,kMaxCameraDeviceNameLen,hdot]
  congr 2
  unfold versionName preferredVersion
  split
  case isTrue => rfl
  case isFalse =>
    rcases m.preferred_cases with h | h <;> rw [h] <;> rfl

end CameraModule

/-! ## Sorted vectors -/

section SortedVector

variable {α : Type} [DecidableEq α] {lt : α → α → Bool} {x y : α} {l : List α}

theorem mem_sortedAdd : y ∈ sortedAdd lt x l ↔ y = x ∨ y ∈ l := by
  induction l with
  | nil => simp [sortedAdd]
  | cons z l ih =>
    unfold sortedAdd
    split
    case isTrue h =>
      subst h
      simp
    case isFalse =>
      split
      · simp
      · simp only [List.mem_cons,ih]
        tauto

/-- A new element is put between the others. -/
theorem perm_sortedAdd (h : x ∉ l) : (sortedAdd lt x l).Perm (x::l) := by
  induction l with
  | nil => exact List.Perm.refl _
  | cons z l ih =>
    obtain ⟨hxz,hl⟩ := not_or.mp (mt List.mem_cons.mpr h)
    rw [sortedAdd,if_neg hxz]
    split
    · exact List.Perm.refl _
    · exact ((ih hl).cons z).trans (List.Perm.swap x z l)

theorem nodup_sortedAdd (h : x ∉ l) (hl : l.Nodup) : (sortedAdd lt x l).Nodup :=
  (perm_sortedAdd h).nodup_iff.mpr (List.nodup_cons.mpr ⟨h,hl⟩)

end SortedVector

/-! ## What a provider offers -/

/-- The pairs of camera `i`. -/
def Offered (m : CameraModule) (i : ℕ) (p : Str × Str) : Prop :=
  p.1 = decimal i ∧ (p.2 = deviceName (m.versionName (m.deviceVersion i)) (decimal i) ∨
    (m.deviceVersion i ≥ deviceApi3_2 ∧ m.isOpenLegacyDefined ∧ m.openLegacy i) ∧
      p.2 = deviceName (str "1.0") (decimal i))

/-- The provider offers its first `n` cameras. -/
structure Named {T C : Type} (m : CameraModule) (s : State T C) (n : ℕ) : Prop where
  phase : ∀ i, s.phase = .initializing i → i = n
  ready : s.phase = .ready → n = m.cameras
  le : n ≤ m.cameras
  supported : ∀ i < n, CameraModule.Supported (m.deviceVersion i)
  ids : ∀ id, id ∈ s.mCameraIds ↔ ∃ i < n, id = decimal i
  names : ∀ p, p ∈ s.mCameraDeviceNames ↔ ∃ i < n, Offered m i p
  nodup : s.mCameraDeviceNames.Nodup
  statuses : ∀ i < n, (s.mCameraStatusMap (decimal i)).isSome

section

variable {T C : Type} {m : CameraModule} {s s' : State T C} {i n : ℕ} {p q : Str × Str}

theorem Offered.eq_name (h : Offered m i p) :
    ∃ v ∈ [str "1.0",str "3.2",str "3.3"], p.2 = deviceName v p.1 := by
  obtain ⟨hid,hname | ⟨-,hname⟩⟩ := h <;> rw [hid,hname]
  · exact ⟨_,m.versionName_mem _,rfl⟩
  · exact ⟨_,by simp,rfl⟩

theorem Offered.matches (h : Offered m i p) :
    ∃ v ∈ [str "1.0",str "3.2",str "3.3"], matchDeviceName p.2 = some (v,p.1) := by
  obtain ⟨v,hv,hname⟩ := h.eq_name
  refine ⟨v,hv,matchDeviceName_eq_some.mpr ⟨hname,CameraModule.version_of_mem hv,?_⟩⟩
  obtain ⟨⟨hne,-⟩,h10,h13,-⟩ := decimal_cameraId i
  rw [h.1]
  exact ⟨hne,h10,h13⟩

theorem Named.matches (h : Named m s n) (hp : p ∈ s.mCameraDeviceNames) :
    ∃ v ∈ [str "1.0",str "3.2",str "3.3"], matchDeviceName p.2 = some (v,p.1) := by
  obtain ⟨i,-,ho⟩ := (h.names p).mp hp
  exact ho.matches

/-- No two pairs have one name. -/
theorem Named.distinct (h : Named m s n) (hp : p ∈ s.mCameraDeviceNames)
    (hq : q ∈ s.mCameraDeviceNames) (hpq : p.2 = q.2) : p = q := by
  obtain ⟨v,-,hv⟩ := h.matches hp
  obtain ⟨w,-,hw⟩ := h.matches hq
  rw [hpq,hw,Option.some.injEq,Prod.mk.injEq] at hv
  exact Prod.ext hv.2.symm hpq

/-- What the provider offers does not depend on the statuses or the clients. -/
theorem Named.congr (h : Named m s n) (hphase : s'.phase = s.phase)
    (hids : s'.mCameraIds = s.mCameraIds) (hnames : s'.mCameraDeviceNames = s.mCameraDeviceNames)
    (hstatus : ∀ id, (s.mCameraStatusMap id).isSome → (s'.mCameraStatusMap id).isSome) :
    Named m s' n where
  phase := by rw [hphase]; exact h.phase
  ready := by rw [hphase]; exact h.ready
  le := h.le
  supported := h.supported
  ids := by rw [hids]; exact h.ids
  names := by rw [hnames]; exact h.names
  nodup := by rw [hnames]; exact h.nodup
  statuses := fun i hi => hstatus _ (h.statuses i hi)

/-- The pair with the name of the device's own version. -/
def ownPair (m : CameraModule) (i : ℕ) : Str × Str :=
  (decimal i,deviceName (m.versionName (m.deviceVersion i)) (decimal i))

def legacyPair (i : ℕ) : Str × Str := (decimal i,deviceName (str "1.0") (decimal i))

/-- Whether the loop tries `openLegacy` and it works. -/
def opensLegacy (m : CameraModule) (i : ℕ) : Bool :=
  m.deviceVersion i ≥ deviceApi3_2 && m.isOpenLegacyDefined && m.openLegacy i

theorem offered_iff : Offered m i p ↔ p = ownPair m i ∨ opensLegacy m i = true ∧ p = legacyPair i := by
  simp only [Offered,ownPair,legacyPair,opensLegacy,Prod.ext_iff,Bool.and_eq_true,
    decide_eq_true_eq,and_assoc]
  tauto

theorem ownPair_ne_legacyPair (h : opensLegacy m i = true) : legacyPair i ≠ ownPair m i := by
  intro he
  obtain ⟨⟨hne,-⟩,h10,h13,-⟩ := decimal_cameraId i
  have hid : decimal i ≠ [] ∧ 10 ∉ decimal i ∧ 13 ∉ decimal i := ⟨hne,h10,h13⟩
  have hv := (deviceName_inj (CameraModule.version_of_mem (by simp))
    (CameraModule.version_of_mem (m.versionName_mem _)) hid hid (Prod.ext_iff.mp he).2).1
  simp only [opensLegacy,Bool.and_eq_true,decide_eq_true_eq] at h
  have hversion : m.deviceVersion i ≠ deviceApi1_0 := by
    intro hv1
    rw [hv1] at h
    exact absurd h.1.1 (by decide)
  rw [CameraModule.versionName,if_neg hversion,CameraModule.preferredVersion] at hv
  split at hv <;> exact absurd hv (by decide)

/-- The camera `n` is offered under its names. -/
theorem Named.added (h : Named m s n) (hn : n < m.cameras)
    (hs : CameraModule.Supported (m.deviceVersion n)) (hphase : s'.phase = .initializing (n+1))
    (hids : s'.mCameraIds = sortedAdd strLt (decimal n) s.mCameraIds)
    (hnames : s'.mCameraDeviceNames =
      if opensLegacy m n then
        sortedAdd pairLt (legacyPair n) (sortedAdd pairLt (ownPair m n) s.mCameraDeviceNames)
      else sortedAdd pairLt (ownPair m n) s.mCameraDeviceNames)
    (hstatus : s'.mCameraStatusMap =
      Function.update s.mCameraStatusMap (decimal n) (some statusPresent)) : Named m s' (n+1) := by
  have hfresh : ∀ p ∈ s.mCameraDeviceNames, p.1 ≠ decimal n := by
    intro p hp he
    obtain ⟨i,hi,ho⟩ := (h.names p).mp hp
    have := decimal_injective (ho.1.symm.trans he)
    omega
  have hown : ownPair m n ∉ s.mCameraDeviceNames := fun hp => hfresh _ hp rfl
  have hor : ∀ P : ℕ → Prop, (∃ i < n+1, P i) ↔ P n ∨ ∃ i < n, P i := fun P => by
    simp only [Nat.lt_succ_iff_lt_or_eq,or_and_right,exists_or,exists_eq_left]
    exact or_comm
  refine { phase := fun i hi => ?_, ready := fun hr => ?_, le := hn, supported := fun i hi => ?_,
           ids := fun id => ?_, names := fun p => ?_, nodup := ?_, statuses := fun i hi => ?_ }
  · rw [hphase,Phase.initializing.injEq] at hi
    exact hi.symm
  · rw [hphase] at hr
    cases hr
  · rcases Nat.lt_succ_iff_lt_or_eq.mp hi with hi | rfl
    · exact h.supported i hi
    · exact hs
  · rw [hids,mem_sortedAdd,h.ids,hor]
  · rw [hnames,hor,offered_iff,← h.names]
    split
    case isTrue hl =>
      simp only [mem_sortedAdd,hl,true_and]
      tauto
    case isFalse hl => simp only [mem_sortedAdd,hl,Bool.false_eq_true,false_and,or_false]
  · rw [hnames]
    split
    case isTrue hl =>
      refine nodup_sortedAdd ?_ (nodup_sortedAdd hown h.nodup)
      rw [mem_sortedAdd,not_or]
      exact ⟨ownPair_ne_legacyPair hl,fun hp => hfresh _ hp rfl⟩
    case isFalse => exact nodup_sortedAdd hown h.nodup
  · rw [hstatus]
    by_cases he : decimal i = decimal n
    · rw [he,Function.update_self]
      rfl
    · rw [Function.update_of_ne he]
      refine h.statuses i (lt_of_le_of_ne (Nat.lt_succ_iff.mp hi) ?_)
      rintro rfl
      exact he rfl

/-- One round of the constructor. -/
theorem Named.initializeLoop (hdoc : m.Documented) (h : Named m s n)
    (hs : s.initializeLoop m = some s') :
    (∃ n', Named m s' n') ∧ (∃ i, s.phase = .initializing i) ∧ s'.mCallbacks = s.mCallbacks ∧
      s'.listings = s.listings ∧ s'.log = s.log := by
  cases hphase : s.phase with
  | ready => simp [State.initializeLoop,hphase] at hs
  | initFailed => simp [State.initializeLoop,hphase] at hs
  | initializing i =>
    obtain rfl := h.phase i hphase
    simp only [State.initializeLoop,hphase,Option.some.injEq] at hs
    subst hs
    have hfailed : Named m {s with phase := .initFailed} i :=
      { h with phase := fun j hj => by cases hj
               ready := fun hr => by cases hr }
    split
    case isTrue hi =>
      have hn := CameraModule.lt_cameras.mpr hi
      have hid : cameraIdStr i = decimal i :=
        cameraIdStr_natCast (lt_trans hn CameraModule.cameras_lt)
      have hlen : (decimal i).length ≤ 15 :=
        (length_decimal_le (k:=10) (by decide) (by have := m.cameras_lt; omega)).trans (by decide)
      unfold State.addCamera
      cases hinfo : m.cameraInfo i with
      | none => exact ⟨⟨i,hfailed⟩,⟨i,rfl⟩,rfl,rfl,rfl⟩
      | some version =>
        by_cases hcheck : m.checkCameraVersion version = true
        · have hsup := CameraModule.supported_of_check hdoc hinfo hcheck
          have hname := CameraModule.getHidlDeviceName_eq (m:=m) hsup hlen
          have hlegacy := CameraModule.getHidlDeviceName_eq (m:=m) (Or.inl rfl) hlen
          simp only [hcheck,if_true,hid,hname,hlegacy]
          split
          case isTrue hl =>
            exact ⟨⟨i+1,h.added hn hsup rfl rfl (if_pos (c:=opensLegacy m i = true) hl).symm rfl⟩,
              ⟨i,rfl⟩,rfl,rfl,rfl⟩
          case isFalse hl =>
            exact ⟨⟨i+1,h.added hn hsup rfl rfl (if_neg (c:=opensLegacy m i = true) hl).symm rfl⟩,
              ⟨i,rfl⟩,rfl,rfl,rfl⟩
        · simp only [hcheck,if_false,Bool.false_eq_true]
          exact ⟨⟨i,hfailed⟩,⟨i,rfl⟩,trivial,trivial,trivial⟩
    case isFalse hi =>
      refine ⟨⟨i,?_⟩,⟨i,rfl⟩,rfl,rfl,rfl⟩
      have hle := mt CameraModule.lt_cameras.mp hi
      exact { h with phase := fun j hj => by cases hj
                     ready := fun _ => le_antisymm h.le (not_lt.mp hle) }

end
end Provider
end Camera
end Kitakami

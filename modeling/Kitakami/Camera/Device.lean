import Mathlib.Data.Finset.Basic
import Mathlib.Tactic

/-!
# Camera devices and their sessions

The `CameraDevice` objects, the session tables they share, and the devices that
the HAL has given out and not got back. `open` and `close` are split where they
take and leave `sSessionLock` or `mMemoryMapLock`: between two such sections
other objects can run. An operation on an address without an object has no
successor.
-/

namespace Kitakami
namespace Camera

/-- The address of a `CameraDevice`. -/
abbrev Obj := ℕ

/-- A `camera_device_t` of the HAL. -/
abbrev Handle := ℕ

/-- The address of a `CameraHeapMemory`. -/
abbrev Mem := ℕ

abbrev MemoryId := UInt32

def kMaxMemorySlots : ℕ := 4

abbrev Slot := Fin kMaxMemorySlots

structure CameraDevice where
  mCameraIdInt : ℤ
  mDevice : Option Handle := none
  mDisconnected : Bool := false
  mDeviceCallback : Bool := false
  mMemoryMap : MemoryId → Option Mem := fun _ => none
  mExtension : Bool := false
  mMemorySlot : Option Slot := none
  mForeignMemory : Mem → Option MemoryId := fun _ => none

/-- The callbacks an open device of the HAL has been given. A primary session's
memory callback is the one of its slot, if it has a slot. -/
inductive Callbacks
  | unset
  | primary (slot : Option Slot)
  | extension
  deriving DecidableEq

/-- An open device of the HAL; `user` is the object that opened it. -/
structure HalDevice where
  user : Obj
  callbacks : Callbacks := .unset

structure State where
  objects : Obj → Option CameraDevice := fun _ => none
  sPrimarySessions : ℤ → Option Obj := fun _ => none
  sExtensionSessions : Finset Obj := ∅
  sSonyClientSessions : Finset Obj := ∅
  sMemorySlots : Slot → Option Obj := fun _ => none
  hal : Handle → Option HalDevice := fun _ => none

/-- What a call of `open` finds in the camera modules, and the handle it may get. -/
structure OpenEnv where
  infoOk : Bool := true
  higherVersion : Bool := false
  hasOpenLegacy : Bool := true
  halOk : Bool := true
  hasSetCallbacks : Bool := true
  handle : Handle

/-- `rc == OK`. -/
def OpenEnv.succeeds (env : OpenEnv) (extension : Bool) : Bool :=
  if extension || env.higherVersion then env.hasOpenLegacy && env.halOk else env.halOk

namespace State

def setObject (s : State) (p : Obj) (d : CameraDevice) : State :=
  { s with objects := Function.update s.objects p (some d) }

/-! ## `open` -/

def openFlag (s : State) (p : Obj) : Option State :=
  (s.objects p).map fun d =>
    s.setObject p { d with mExtension := (s.sPrimarySessions d.mCameraIdInt).isSome }

/-- The HAL has given out a handle; it is not registered yet. -/
def opened (s : State) (p : Obj) (d : CameraDevice) (h : Handle) : State :=
  { s.setObject p { d with mDevice := some h } with
    hal := Function.update s.hal h (some { user := p }) }

/-- The HAL's `open` and whether it succeeded. A handle it gives out is not in use. -/
def openHal (s : State) (p : Obj) (env : OpenEnv) : Option (State × Bool) :=
  (s.objects p).bind fun d =>
    if env.succeeds d.mExtension then
      if (s.hal env.handle).isSome then none else some (s.opened p d env.handle,true)
    else some (s.setObject p { d with mDevice := none },false)

/-- The first free slot. -/
def claimMemorySlot (s : State) : Option Slot :=
  (List.finRange kMaxMemorySlots).find? fun i => (s.sMemorySlots i).isNone

def setCallbacks (s : State) (device : Option Handle) (env : OpenEnv) (callbacks : Callbacks) :
    State :=
  if env.hasSetCallbacks then
    { s with hal := fun h =>
        if device = some h then (s.hal h).map fun x => { x with callbacks := callbacks }
        else s.hal h }
  else s

def registerExtension (s : State) (p : Obj) (d : CameraDevice) : State :=
  { s.setObject p { d with mDeviceCallback := true } with
    sExtensionSessions := insert p s.sExtensionSessions
    sSonyClientSessions :=
      match s.sPrimarySessions d.mCameraIdInt with
      | some primary => insert primary s.sSonyClientSessions
      | none => s.sSonyClientSessions }

def registerPrimary (s : State) (p : Obj) (d : CameraDevice) : State :=
  { s.setObject p { d with mDeviceCallback := true, mMemorySlot := s.claimMemorySlot } with
    sPrimarySessions := Function.update s.sPrimarySessions d.mCameraIdInt (some p)
    sMemorySlots :=
      match s.claimMemorySlot with
      | some i => Function.update s.sMemorySlots i (some p)
      | none => s.sMemorySlots }

def openRegister (s : State) (p : Obj) (env : OpenEnv) : Option State :=
  (s.objects p).map fun d =>
    if d.mExtension then (s.registerExtension p d).setCallbacks d.mDevice env .extension
    else (s.registerPrimary p d).setCallbacks d.mDevice env (.primary s.claimMemorySlot)

def openCamera (s : State) (p : Obj) (env : OpenEnv) : Option State :=
  if env.infoOk then
    (s.openFlag p).bind fun s =>
      (s.openHal p env).bind fun r => if r.2 then r.1.openRegister p env else some r.1
  else (s.objects p).map fun _ => s

/-! ## `close` -/

def closeHal (s : State) (p : Obj) : Option State :=
  (s.objects p).map fun d =>
    { s.setObject p { d with mDevice := none } with
      hal := fun h => if d.mDevice = some h then none else s.hal h }

def closeUnregister (s : State) (p : Obj) : Option State :=
  (s.objects p).map fun d =>
    { s.setObject p { d with mMemorySlot := none } with
      sPrimarySessions := fun c =>
        if c = d.mCameraIdInt ∧ s.sPrimarySessions c = some p then none else s.sPrimarySessions c
      sExtensionSessions := s.sExtensionSessions.erase p
      sSonyClientSessions := s.sSonyClientSessions.erase p
      sMemorySlots :=
        match d.mMemorySlot with
        | some i => Function.update s.sMemorySlots i none
        | none => s.sMemorySlots }

def closeClear (s : State) (p : Obj) : Option State :=
  (s.objects p).map fun d =>
    if d.mExtension then
      s.setObject p { d with mForeignMemory := fun _ => none, mMemoryMap := fun _ => none }
    else s

def closeLocked (s : State) (p : Obj) : Option State :=
  (s.closeHal p).bind fun s => (s.closeUnregister p).bind fun s => s.closeClear p

/-! ## The other operations -/

def setConnectionStatus (s : State) (p : Obj) (connected : Bool) : Option State :=
  (s.objects p).bind fun d =>
    let s := s.setObject p { d with mDisconnected := !connected }
    if d.mDevice.isSome && !connected then s.closeLocked p else some s

/-- The destructor; the address is free afterwards. -/
def destroy (s : State) (p : Obj) : Option State :=
  (s.objects p).bind fun d =>
    (if d.mDevice.isSome then s.closeLocked p else some s).map fun s =>
      { s with objects := Function.update s.objects p none }

/-- The constructor, at a free address. -/
def create (s : State) (p : Obj) (mCameraIdInt : ℤ) : Option State :=
  match s.objects p with
  | some _ => none
  | none => some (s.setObject p { mCameraIdInt := mCameraIdInt })

/-! ## What the sections do to the object -/

variable {s s' : State} {p q : Obj} {d : CameraDevice}

@[simp] theorem setObject_self (s : State) (p : Obj) (d : CameraDevice) :
    (s.setObject p d).objects p = some d := Function.update_self _ _ _

theorem setObject_of_ne (s : State) (d : CameraDevice) (h : q ≠ p) :
    (s.setObject p d).objects q = s.objects q := Function.update_of_ne h _ _

@[simp] theorem opened_self (s : State) (p : Obj) (d : CameraDevice) (h : Handle) :
    (s.opened p d h).objects p = some { d with mDevice := some h } := Function.update_self _ _ _

section

variable (s : State) (device : Option Handle) (env : OpenEnv) (c : Callbacks)

@[simp] theorem setCallbacks_objects : (s.setCallbacks device env c).objects = s.objects := by
  unfold setCallbacks
  split <;> rfl

@[simp] theorem setCallbacks_sExtensionSessions :
    (s.setCallbacks device env c).sExtensionSessions = s.sExtensionSessions := by
  unfold setCallbacks
  split <;> rfl

@[simp] theorem setCallbacks_sMemorySlots :
    (s.setCallbacks device env c).sMemorySlots = s.sMemorySlots := by
  unfold setCallbacks
  split <;> rfl

/-- Only the callbacks of the one device change. -/
theorem setCallbacks_hal (h : Handle) : (s.setCallbacks device env c).hal h = s.hal h ∨
    device = some h ∧
      (s.setCallbacks device env c).hal h = (s.hal h).map fun x => { x with callbacks := c } := by
  unfold setCallbacks
  split
  · by_cases hd : device = some h
    · exact Or.inr ⟨hd,if_pos hd⟩
    · exact Or.inl (if_neg hd)
  · exact Or.inl rfl

/-- A device of the HAL is as before, or it is the one that has got the callbacks. -/
theorem hal_of_setCallbacks {j k : Handle} {x y : HalDevice} (hj : device = some j)
    (hx : s.hal j = some x) (hy : (s.setCallbacks device env c).hal k = some y) :
    s.hal k = some y ∨ k = j ∧ y = { x with callbacks := c } := by
  rcases s.setCallbacks_hal device env c k with hk | ⟨hk,hk'⟩
  · rw [hk] at hy
    exact Or.inl hy
  · obtain rfl : j = k := Option.some.inj (hj.symm.trans hk)
    rw [hk',hx] at hy
    exact Or.inr ⟨rfl,(Option.some.inj hy).symm⟩

end

theorem claimMemorySlot_free {i : Slot} (h : s.claimMemorySlot = some i) :
    s.sMemorySlots i = none := by
  simpa using List.find?_some h

theorem sMemorySlots_registerPrimary (i : Slot) (q : Obj) :
    (s.registerPrimary p d).sMemorySlots i = some q ↔
      if s.claimMemorySlot = some i then q = p else s.sMemorySlots i = some q := by
  simp only [registerPrimary]
  cases s.claimMemorySlot with
  | none => rfl
  | some j =>
    by_cases hij : i = j
    · simp [hij,eq_comm]
    · simp [Function.update_of_ne hij,Ne.symm hij]

/-- What `close` does to the memory slots. -/
theorem releaseMemorySlot_apply (slots : Slot → Option Obj) (mMemorySlot : Option Slot) (i : Slot) :
    (match mMemorySlot with
      | some j => Function.update slots j none
      | none => slots) i = if mMemorySlot = some i then none else slots i := by
  cases mMemorySlot with
  | none => simp
  | some j => simp [Function.update_apply,eq_comm]

theorem openHal_cases {r : State × Bool} {env : OpenEnv} (hd : s.objects p = some d)
    (h : s.openHal p env = some r) :
    (env.succeeds d.mExtension = true ∧ s.hal env.handle = none ∧
      r = (s.opened p d env.handle,true)) ∨
    env.succeeds d.mExtension = false ∧ r = (s.setObject p { d with mDevice := none },false) := by
  rw [openHal,hd,Option.bind_some] at h
  split at h
  · case _ hs =>
    split at h
    · cases h
    · case _ hn =>
      cases h
      exact Or.inl ⟨hs,by simpa using hn,rfl⟩
  · case _ hs =>
    cases h
    exact Or.inr ⟨by simpa using hs,rfl⟩

end State
end Camera
end Kitakami

import Kitakami.Base.Runs
import Kitakami.Base.Monitor
import Kitakami.Base.Printed

/-!
# The camera provider

`CameraProvider.cpp`: the names under which cameras are offered, their
statuses, and what a client is told of them. The constructor goes through the
cameras one by one; the module may report a status in between. A list of names
is taken name by name, so that statuses may change while it is taken.
-/

namespace Kitakami
namespace Camera
namespace Provider

/-! ## Names of devices -/

/-- The text behind a fixed one. -/
def behind : Str → Str → Option Str
  | [], s => some s
  | _::_, [] => none
  | c::t, d::s => if c = d then behind t s else none

/-- `[0-9]+`. -/
def digits (s : Str) : Option (Str × Str) :=
  if s.takeWhile isDigit = [] then none else some (s.takeWhile isDigit,s.dropWhile isDigit)

/-- `(.+)` up to the end. -/
def line (s : Str) : Option Str := if s = [] ∨ 10 ∈ s ∨ 13 ∈ s then none else some s

/-- The match with `device@([0-9]+\.[0-9]+)/legacy/(.+)`: the version and the camera. -/
def matchDeviceName (deviceName : Str) : Option (Str × Str) := do
  let (major,s) ← digits (← behind (str "device@") deviceName)
  let (minor,s) ← digits (← behind (str ".") s)
  let cameraId ← line (← behind (str "/legacy/") s)
  some (major ++ str "." ++ minor,cameraId)

/-- What `hidl_string::c_str` shows of a name. -/
def cStr (deviceName : Str) : Str := deviceName.takeWhile (· ≠ 0)

/-- What `snprintf` leaves in a buffer. -/
def snprintf (size : ℕ) (text : Str) : Str := text.take (size-1)

def kMaxCameraDeviceNameLen : ℕ := 128

def kMaxCameraIdLen : ℕ := 16

def cameraIdStr (id : ℤ) : Str := snprintf kMaxCameraIdLen (printInt 0 id)

/-- `CAMERA_DEVICE_API_VERSION_1_0`, `_3_2`, `_3_3` and `_3_4`. -/
def deviceApi1_0 : ℤ := 0x100
def deviceApi3_2 : ℤ := 0x302
def deviceApi3_3 : ℤ := 0x303
def deviceApi3_4 : ℤ := 0x304

/-- `CAMERA_MODULE_API_VERSION_2_0`. -/
def moduleApi2_0 : ℤ := 0x200

/-- `CAMERA_DEVICE_STATUS_PRESENT`. -/
def statusPresent : ℤ := 1

/-- The `CameraModule` wrapper and what the provider asks of the system. -/
structure CameraModule where
  moduleApiVersion : ℤ
  numberOfCameras : Int32
  /-- The `device_version` of `getCameraInfo`, if it does not fail. -/
  cameraInfo : ℕ → Option ℤ
  deviceVersion : ℤ → ℤ
  isOpenLegacyDefined : Bool
  /-- Whether `openLegacy` of version 1.0 returns 0. -/
  openLegacy : ℕ → Bool
  /-- `ro.camera.wrapper.hal3TrebleMinorVersion`, 3 if it is not set. -/
  hal3TrebleMinorVersion : ℤ
  /-- Whether the `ashmem` allocator is found. -/
  ashmemAllocator : Bool
  /-- Whether a device of version 3 fails to be set up. -/
  isInitFailed : Str → Bool

namespace CameraModule

variable (m : CameraModule)

def cameras : ℕ := m.numberOfCameras.toInt.toNat

def mPreferredHal3MinorVersion : ℤ :=
  if m.hal3TrebleMinorVersion = 2 ∨ m.hal3TrebleMinorVersion = 3 then m.hal3TrebleMinorVersion else 3

def getHidlDeviceName (cameraId : Str) (deviceVersion : ℤ) : Str :=
  if deviceVersion ≠ deviceApi1_0 ∧ deviceVersion ≠ deviceApi3_2 ∧ deviceVersion ≠ deviceApi3_3 ∧
      deviceVersion ≠ deviceApi3_4 then []
  else
    let isV1 := deviceVersion = deviceApi1_0
    let versionMajor : ℤ := if isV1 then 1 else 3
    let versionMinor : ℤ := if isV1 then 0 else m.mPreferredHal3MinorVersion
    snprintf kMaxCameraDeviceNameLen (str "device@" ++ printInt 0 versionMajor ++ str "." ++
      printInt 0 versionMinor ++ str "/legacy/" ++ cameraId)

/-- Whether `checkCameraVersion` returns `OK`. -/
def checkCameraVersion (version : ℤ) : Bool :=
  if m.moduleApiVersion ≥ moduleApi2_0 then
    version = deviceApi1_0 || version = deviceApi3_2 || version = deviceApi3_3 ||
      version = deviceApi3_4
  else true

/-- What the wrapper documents of `getDeviceVersion`. -/
def Documented : Prop := ∀ i : ℕ, ∀ version, m.cameraInfo i = some version →
  m.deviceVersion i = if m.moduleApiVersion ≥ moduleApi2_0 then version else deviceApi1_0

end CameraModule

/-- `SortedVector::add`: an equal element is replaced. -/
def sortedAdd {α : Type} [DecidableEq α] (lt : α → α → Bool) (x : α) : List α → List α
  | [] => [x]
  | y::l => if x = y then x::l else if lt x y then x::y::l else y::sortedAdd lt x l

def strLt : Str → Str → Bool
  | _, [] => false
  | [], _::_ => true
  | c::s, d::t => c < d || c = d && strLt s t

/-- The order of pairs of texts. -/
def pairLt (p q : Str × Str) : Bool := strLt p.1 q.1 || p.1 = q.1 && strLt p.2 q.2

/-! ## The provider -/

/-- Where the constructor stands: at a camera, done, or failed. -/
inductive Phase
  | initializing (i : ℕ)
  | ready
  | initFailed
  deriving DecidableEq

/-- What clients see; `T` names threads that call, `C` the callbacks of clients. -/
inductive Event (T C : Type)
  | setCallback (callback : Option C)
  | listing (t : T)
  | listed (t : T) (names : List Str)
  | cameraDeviceStatusChange (callback : C) (name : Str) (status : ℤ)
  | torchModeStatusChange (callback : C) (name : Str) (status : ℤ)

/-- A provider; `listings` are the calls of `getCameraIdList` that run, with the pairs they have
still to look at and the names they have found. -/
structure State (T C : Type) where
  phase : Phase := .initializing 0
  mCameraStatusMap : Str → Option ℤ := fun _ => none
  mCameraIds : List Str := []
  mCameraDeviceNames : List (Str × Str) := []
  mCallbacks : Option C := none
  listings : T → Option (List (Str × Str) × List Str) := fun _ => none
  log : List (Event T C) := []

namespace State

variable {T C : Type}

/-- One round of the loop in `initialize`. -/
def addCamera (m : CameraModule) (s : State T C) (i : ℕ) : State T C :=
  match m.cameraInfo i with
  | none => {s with phase := .initFailed}
  | some version =>
    if m.checkCameraVersion version then
      let cameraId := cameraIdStr i
      let deviceVersion := m.deviceVersion i
      let name := m.getHidlDeviceName cameraId deviceVersion
      let s' := {s with
        phase := .initializing (i+1),
        mCameraStatusMap := Function.update s.mCameraStatusMap cameraId (some statusPresent),
        mCameraIds := sortedAdd strLt cameraId s.mCameraIds,
        mCameraDeviceNames := sortedAdd pairLt (cameraId,name) s.mCameraDeviceNames}
      if deviceVersion ≥ deviceApi3_2 && m.isOpenLegacyDefined && m.openLegacy i then
        let legacyName := m.getHidlDeviceName cameraId deviceApi1_0
        {s' with mCameraDeviceNames := sortedAdd pairLt (cameraId,legacyName) s'.mCameraDeviceNames}
      else s'
    else {s with phase := .initFailed}

def initializeLoop (m : CameraModule) (s : State T C) : Option (State T C) :=
  match s.phase with
  | .initializing i =>
    some (if i < m.numberOfCameras.toInt then s.addCamera m i else {s with phase := .ready})
  | _ => none

/-- The names of a camera. -/
def namesOf (s : State T C) (cameraId : Str) : List Str :=
  (s.mCameraDeviceNames.filter fun p => cameraId = p.1).map Prod.snd

/-- A notification of each name of a camera. -/
def notify (s : State T C) (event : C → Str → ℤ → Event T C) (cameraId : Str)
    (status : ℤ) : State T C :=
  match s.mCallbacks with
  | none => s
  | some callback =>
    {s with log := s.log ++ (s.namesOf cameraId).map fun name => event callback name status}

def sCameraDeviceStatusChange (s : State T C) (id : Int32) (status : ℤ) : State T C :=
  let cameraId := cameraIdStr id.toInt
  let s' := {s with mCameraStatusMap := Function.update s.mCameraStatusMap cameraId (some status)}
  s'.notify .cameraDeviceStatusChange cameraId status

def sTorchModeStatusChange (s : State T C) (id : Str) (status : ℤ) : State T C :=
  s.notify .torchModeStatusChange id status

def setCallback (s : State T C) (callback : Option C) : State T C :=
  {s with mCallbacks := callback, log := s.log ++ [.setCallback callback]}

/-- `mCameraStatusMap[cameraId]` makes an entry where there is none. -/
def touch (s : State T C) (cameraId : Str) : State T C :=
  let status := (s.mCameraStatusMap cameraId).getD 0
  {s with mCameraStatusMap := Function.update s.mCameraStatusMap cameraId (some status)}

variable [DecidableEq T]

/-- A thread takes the list, or gives back what it has found. -/
def getCameraIdList (s : State T C) (t : T) : Option (State T C) :=
  match s.phase, s.listings t with
  | .ready, none =>
    some {s with
      listings := Function.update s.listings t (some (s.mCameraDeviceNames,[])),
      log := s.log ++ [.listing t]}
  | .ready, some (p::rest,names) =>
    let s' := s.touch p.1
    let names' :=
      if s'.mCameraStatusMap p.1 = some statusPresent then names ++ [p.2] else names
    some {s' with listings := Function.update s.listings t (some (rest,names'))}
  | .ready, some ([],names) =>
    some {s with listings := Function.update s.listings t none, log := s.log ++ [.listed t names]}
  | _, _ => none

end State

inductive Action (T C : Type)
  | initializeLoop
  | cameraDeviceStatusChange (id : Int32) (status : ℤ)
  | torchModeStatusChange (id : Str) (status : ℤ)
  | setCallback (callback : Option C)
  | getCameraIdList (t : T)

variable {T C : Type} [DecidableEq T]

/-- The provider is deleted when its constructor has failed. -/
def step (m : CameraModule) (s : State T C) : Action T C → Option (State T C)
  | .initializeLoop => s.initializeLoop m
  | .cameraDeviceStatusChange id status =>
    if s.phase = .initFailed then none else some (s.sCameraDeviceStatusChange id status)
  | .torchModeStatusChange id status =>
    if s.phase = .initFailed then none else some (s.sTorchModeStatusChange id status)
  | .setCallback callback => if s.phase = .ready then some (s.setCallback callback) else none
  | .getCameraIdList t => s.getCameraIdList t

/-! ## Interfaces of devices -/

/-- `Status`, and the class of the device that `OK` comes with. -/
inductive Interface
  | illegalArgument
  | internalError
  | operationNotSupported
  | device (version : Str)
  deriving DecidableEq

namespace State

variable {T C : Type} (m : CameraModule) (s : State T C)

/-- What both interfaces look up, and what they do with a camera that is present. -/
def getCameraDeviceInterface (make : Str → Str → Interface) (cameraDeviceName : Str) : Interface :=
  match matchDeviceName (cStr cameraDeviceName) with
  | none => .illegalArgument
  | some (deviceVersion,cameraId) =>
    if (cameraId,cStr cameraDeviceName) ∉ s.mCameraDeviceNames then
      if s.mCameraIds.any (· = cameraId) then .operationNotSupported else .illegalArgument
    else if s.mCameraStatusMap cameraId ≠ some statusPresent then .illegalArgument
    else make deviceVersion cameraId

/-- Whether the constructor of a device of version 1 sets `mInitFail`. -/
def initFail (cameraId : Str) : Bool :=
  let mCameraIdInt := atoi cameraId
  mCameraIdInt < 0 || mCameraIdInt ≥ m.numberOfCameras.toInt ||
    m.deviceVersion mCameraIdInt ≠ deviceApi1_0 && !m.isOpenLegacyDefined || !m.ashmemAllocator

def getCameraDeviceInterface_V1_x (cameraDeviceName : Str) : Interface :=
  s.getCameraDeviceInterface
    (fun _ cameraId => if initFail m cameraId then .internalError else .device (str "1.0"))
    cameraDeviceName

def getCameraDeviceInterface_V3_x (cameraDeviceName : Str) : Interface :=
  s.getCameraDeviceInterface (fun deviceVersion cameraId =>
    if !strLt deviceVersion (str "3.4") then
      -- only two such versions have a class
      if (deviceVersion = str "3.4" ∨ deviceVersion = str "3.5") ∧ !m.isInitFailed cameraId then
        .device deviceVersion
      else .internalError
    else if m.mPreferredHal3MinorVersion = 2 then
      if m.isInitFailed cameraId then .internalError else .device (str "3.2")
    else if m.mPreferredHal3MinorVersion = 3 then
      if m.isInitFailed cameraId then .internalError else .device (str "3.3")
    else .internalError) cameraDeviceName

end State
end Provider
end Camera
end Kitakami

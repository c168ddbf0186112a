import Kitakami.Base.Runs
import Kitakami.Camera.Device
import Kitakami.Camera.Faces

/-!
# Memory shared with extension clients

A primary session's memory is registered with the client of every extension
session that is sent a frame in it, under an identifier of that client's choice.
`mForeignMemory` and `mMemoryMap` of the extension hold the two directions. The
sections of `open`, `close`, `sGetMemory`, `foreignMemoryId` and `sPutMemory` of
all objects interleave freely.
-/

namespace Kitakami
namespace Camera

open Runs

/-- A `CameraHeapMemory` that has not been freed; `put` says that the HAL has given it back. -/
structure CameraHeapMemory where
  mDevice : Obj
  mId : MemoryId
  mBufSize : UInt32
  mNumBufs : UInt32
  /-- Where it is mapped. -/
  mHidlHeapMemData : UInt32
  put : Bool := false
  deriving DecidableEq

/-- Where an object is in `open` or `close`. It holds its `mLock` unless it is idle. -/
inductive Phase
  | idle
  | flagged (env : OpenEnv)
  | opened (env : OpenEnv)
  | closing
  | unregistered

structure World where
  state : State := {}
  phase : Obj → Phase := fun _ => .idle
  memory : Mem → Option CameraHeapMemory := fun _ => none

/-- The sections that interleave. A memory or data callback is called by an open
device `h` of the HAL; `id` is what the client's `registerMemory` returns, if it does. -/
inductive Event
  | create (p : Obj) (mCameraIdInt : ℤ)
  | openFlag (p : Obj) (env : OpenEnv)
  | openHal (p : Obj)
  | openRegister (p : Obj)
  | closeHal (p : Obj)
  | closeUnregister (p : Obj)
  | closeClear (p : Obj)
  | getMemory (h : Handle) (m : Mem) (id : MemoryId) (bufSize numBufs data : UInt32)
  | dataCallback (h : Handle) (data : Option Mem) (id : Option MemoryId)
  | putForget (m : Mem)
  | putEnd (m : Mem)

namespace CameraDevice

/-- `foreignMemoryId`: the identifier it finds, if any, and the object afterwards. -/
def foreignMemoryId (d : CameraDevice) (data : Option Mem) (registered : Option MemoryId) :
    Option MemoryId × CameraDevice :=
  match data with
  | none => (some kNoMemory,d)
  | some mem =>
    match d.mForeignMemory mem with
    | some id => (some id,d)
    | none =>
      match registered with
      | none => (none,d)
      | some id =>
        (some id,{ d with
          mForeignMemory := Function.update d.mForeignMemory mem (some id)
          mMemoryMap := Function.update d.mMemoryMap id (some mem) })

/-- What `sForgetForeignMemory` does to one extension. -/
def forgetForeignMemory (d : CameraDevice) (mem : Mem) : CameraDevice :=
  match d.mForeignMemory mem with
  | none => d
  | some id =>
    { d with
      mMemoryMap := Function.update d.mMemoryMap id none
      mForeignMemory := Function.update d.mForeignMemory mem none }

end CameraDevice

def State.sForgetForeignMemory (s : State) (mem : Mem) : State :=
  { s with objects := fun p =>
      if p ∈ s.sExtensionSessions then (s.objects p).map (·.forgetForeignMemory mem)
      else s.objects p }

namespace World

/-- The object at `p` has gone on to another section. -/
def next (w : World) (p : Obj) (phase : Phase) (s : State) : World :=
  { w with state := s, phase := Function.update w.phase p phase }

/-- The object that the memory callback of a primary session means. -/
def memoryOwner (w : World) (x : HalDevice) (slot : Option Slot) : Option Obj :=
  match slot with
  | some i => w.state.sMemorySlots i
  | none => some x.user

/-- `sGetMemory` for the object at `p`. -/
def sGetMemory (w : World) (p : Obj) (m : Mem) (id : MemoryId) (bufSize numBufs data : UInt32) :
    Option World :=
  (w.state.objects p).bind fun d =>
    if d.mDeviceCallback then
      match w.memory m with
      | some _ => none
      | none =>
        some { w with
          state := w.state.setObject p { d with
            mMemoryMap := Function.update d.mMemoryMap id (some m) }
          memory := Function.update w.memory m
            (some ⟨p,id,bufSize,numBufs,data,false⟩) }
    else some w

/-- `sExtDataCb` for the object at `p`, up to the call of the client. -/
def sExtDataCb (w : World) (p : Obj) (data : Option Mem) (id : Option MemoryId) : Option World :=
  (w.state.objects p).map fun d =>
    if d.mDeviceCallback then
      { w with state := w.state.setObject p (d.foreignMemoryId data id).2 }
    else w

/-- The memory is allocated and the HAL has not given it back. -/
def Live (w : World) (m : Mem) : Prop := ∃ mem, w.memory m = some mem ∧ mem.put = false

instance (w : World) (m : Mem) : Decidable (w.Live m) :=
  inferInstanceAs (Decidable (∃ mem ∈ w.memory m, mem.put = false))

end World

def memStep (w : World) : Event → Option World
  | .create p c => (w.state.create p c).map (w.next p .idle)
  | .openFlag p env =>
    match w.phase p with
    | .idle =>
      if env.infoOk then (w.state.openFlag p).map (w.next p (.flagged env)) else some w
    | _ => none
  | .openHal p =>
    match w.phase p with
    | .flagged env =>
      (w.state.openHal p env).map fun r => w.next p (if r.2 then .opened env else .idle) r.1
    | _ => none
  | .openRegister p =>
    match w.phase p with
    | .opened env => (w.state.openRegister p env).map (w.next p .idle)
    | _ => none
  | .closeHal p =>
    match w.phase p with
    | .idle => (w.state.closeHal p).map (w.next p .closing)
    | _ => none
  | .closeUnregister p =>
    match w.phase p with
    | .closing => (w.state.closeUnregister p).map (w.next p .unregistered)
    | _ => none
  | .closeClear p =>
    match w.phase p with
    | .unregistered => (w.state.closeClear p).map (w.next p .idle)
    | _ => none
  | .getMemory h m id bufSize numBufs data =>
    (w.state.hal h).bind fun x =>
      match x.callbacks with
      | .primary slot =>
        match w.memoryOwner x slot with
        | none => some w
        | some p => w.sGetMemory p m id bufSize numBufs data
      | _ => none
  | .dataCallback h data id =>
    (w.state.hal h).bind fun x =>
      match x.callbacks with
      | .extension => if ∀ m ∈ data, w.Live m then w.sExtDataCb x.user data id else none
      | _ => none
  | .putForget m =>
    (w.memory m).bind fun mem =>
      if mem.put then none
      else
        some { w with
          state := w.state.sForgetForeignMemory m
          memory := Function.update w.memory m (some { mem with put := true }) }
  | .putEnd m =>
    (w.memory m).bind fun mem =>
      if mem.put then
        (w.state.objects mem.mDevice).map fun d =>
          { w with
            state := w.state.setObject mem.mDevice { d with
              mMemoryMap := Function.update d.mMemoryMap mem.mId none }
            memory := Function.update w.memory m none }
      else none

/-- What the device does about a frame that is released; `released` has the address that the HAL
is given, and `freed` is a read of freed memory. -/
inductive Release
  | notOpened
  | unknownMemory
  | outOfRange
  | released (data : UInt32)
  | freed
  deriving DecidableEq

/-- `releaseRecordingFrameLocked` without a native handle; `mDevice` says that the device is open,
and `found` is the entry of `mMemoryMap`, with the memory it leads to unless that has been freed. -/
def releaseRecordingFrameLocked (mDevice : Bool) (found : Option (Option CameraHeapMemory))
    (bufferIndex : UInt32) : Release :=
  if mDevice then
    match found with
    | none => .unknownMemory
    | some none => .freed
    | some (some camMemory) =>
      if bufferIndex ≥ camMemory.mNumBufs then .outOfRange
      else .released (camMemory.mHidlHeapMemData + bufferIndex * camMemory.mBufSize)
  else .notOpened

def World.releaseRecordingFrameLocked (w : World) (p : Obj) (memId bufferIndex : UInt32) :
    Option Release :=
  (w.state.objects p).map fun d =>
    Camera.releaseRecordingFrameLocked d.mDevice.isSome ((d.mMemoryMap memId).map w.memory)
      bufferIndex

/-! ## The invariant -/

namespace World

variable {w w' : World} {p q : Obj} {d d' : CameraDevice}

/-- Every entry of the map goes back by `mForeignMemory`, and its memory has not been put. -/
def Matched (w : World) (d : CameraDevice) : Prop :=
  ∀ id m, d.mMemoryMap id = some m → d.mForeignMemory m = some id ∧ w.Live m

/-- The entries of the open extensions are valid. -/
def Valid (w : World) : Prop :=
  ∀ p d, w.state.objects p = some d → d.mDevice ≠ none → d.mExtension = true → w.Matched d

def IsOpened (w : World) (p : Obj) : Prop := ∃ env, w.phase p = .opened env

/-- The object is between its operations, and open. -/
def InSession (w : World) (p : Obj) (d : CameraDevice) : Prop :=
  w.phase p = .idle ∧ d.mDevice ≠ none

/-- What holds of the object at `p`, which is `d`. -/
structure ObjInv (w : World) (p : Obj) (d : CameraDevice) : Prop where
  hal : ∀ h x, w.state.hal h = some x → x.user = p → d.mDevice = some h ∧
    (∀ i, x.callbacks = .primary i → d.mExtension = false) ∧
    (x.callbacks = .extension → d.mExtension = true ∧ p ∈ w.state.sExtensionSessions)
  handle : ∀ h, d.mDevice = some h → ∃ x, w.state.hal h = some x ∧ x.user = p
  device : d.mDevice ≠ none → w.phase p = .idle ∨ w.IsOpened p
  opened : w.IsOpened p → d.mDevice ≠ none
  session : p ∈ w.state.sExtensionSessions →
    d.mExtension = true ∧ (w.phase p = .closing ∨ w.InSession p d) ∧ w.Matched d
  registered : d.mDevice ≠ none → d.mExtension = true →
    p ∈ w.state.sExtensionSessions ∨ w.IsOpened p ∧ ∀ id, d.mMemoryMap id = none
  slot : ∀ i, w.state.sMemorySlots i = some p → d.mMemorySlot = some i ∧ d.mExtension = false
  slotOpen : d.mMemorySlot ≠ none → w.phase p = .closing ∨ w.InSession p d

/-- Nothing mentions `p`. -/
structure Unknown (w : World) (p : Obj) : Prop where
  hal : ∀ h x, w.state.hal h = some x → x.user ≠ p
  extension : p ∉ w.state.sExtensionSessions
  slot : ∀ i, w.state.sMemorySlots i ≠ some p

structure Inv (w : World) : Prop where
  object : ∀ p d, w.state.objects p = some d → w.ObjInv p d
  absent : ∀ p, w.state.objects p = none → w.Unknown p

theorem Inv.valid (h : w.Inv) : w.Valid := by
  intro p d hd hopen he id m hm
  rcases (h.object p d hd).registered hopen he with hs | ⟨-,hn⟩
  · exact ((h.object p d hd).session hs).2.2 id m hm
  · rw [hn id] at hm
    cases hm

theorem inv_init : Inv {} := ⟨fun p d hd => (nomatch hd),fun p _ => ⟨by simp,by simp,by simp⟩⟩

/-! ### Frames -/

/-- The two worlds agree on the object at `q`. -/
structure SameAt (w w' : World) (q : Obj) : Prop where
  object : w'.state.objects q = w.state.objects q
  phase : w'.phase q = w.phase q
  extension : q ∈ w'.state.sExtensionSessions ↔ q ∈ w.state.sExtensionSessions
  slot : ∀ i, w'.state.sMemorySlots i = some q → w.state.sMemorySlots i = some q
  hal : ∀ h x, x.user = q → (w'.state.hal h = some x ↔ w.state.hal h = some x)
  live : q ∈ w.state.sExtensionSessions → ∀ m, w.Live m → w'.Live m

theorem Matched.mono (h : w.Matched d) (hl : ∀ m, w.Live m → w'.Live m) : w'.Matched d :=
  fun id m hm => ⟨(h id m hm).1,hl m (h id m hm).2⟩

theorem ObjInv.congr (h : w.ObjInv q d) (hs : w.SameAt w' q) : w'.ObjInv q d := by
  have hop : w'.IsOpened q ↔ w.IsOpened q := by simp only [IsOpened,hs.phase]
  have hin : w'.InSession q d ↔ w.InSession q d := by simp only [InSession,hs.phase]
  refine ⟨fun j x hx hu => ?_,fun j hj => ?_,?_,?_,fun he => ?_,?_,fun i hi => ?_,?_⟩
  · rw [hs.extension]
    exact h.hal j x ((hs.hal j x hu).mp hx) hu
  · obtain ⟨x,hx,hu⟩ := h.handle j hj
    exact ⟨x,(hs.hal j x hu).mpr hx,hu⟩
  · rw [hs.phase,hop]
    exact h.device
  · rw [hop]
    exact h.opened
  · rw [hs.phase,hin]
    have he := hs.extension.mp he
    obtain ⟨h₁,h₂,h₃⟩ := h.session he
    exact ⟨h₁,h₂,h₃.mono (hs.live he)⟩
  · rw [hs.extension,hop]
    exact h.registered
  · exact h.slot i (hs.slot i hi)
  · rw [hs.phase,hin]
    exact h.slotOpen

theorem Unknown.congr (h : w.Unknown q) (hs : w.SameAt w' q) : w'.Unknown q :=
  ⟨fun j x hx hu => h.hal j x ((hs.hal j x hu).mp hx) hu,fun he => h.extension (hs.extension.mp he),
    fun i hi => h.slot i (hs.slot i hi)⟩

/-- An event that concerns one object keeps the invariant if it does so for that object. -/
theorem Inv.at (h : w.Inv) (hs : ∀ q, q ≠ p → w.SameAt w' q)
    (hp : ∃ d, w'.state.objects p = some d ∧ w'.ObjInv p d) : w'.Inv := by
  obtain ⟨d,hd,hi⟩ := hp
  constructor
  · intro q e he
    by_cases hq : q = p
    · subst hq
      rw [hd] at he
      cases he
      exact hi
    · exact (h.object q e ((hs q hq).object ▸ he)).congr (hs q hq)
  · intro q hq
    have hne : q ≠ p := by
      rintro rfl
      rw [hd] at hq
      cases hq
    exact (h.absent q ((hs q hne).object ▸ hq)).congr (hs q hne)

/-! ### Objects that nothing mentions -/

/-- Between the sections of an operation that has not opened it, an object has no device. -/
theorem ObjInv.device_none (h : w.ObjInv p d) (hidle : w.phase p ≠ .idle)
    (hopened : ∀ env, w.phase p ≠ .opened env) : d.mDevice = none := by
  by_contra hne
  rcases h.device hne with he | ⟨env,he⟩
  · exact hidle he
  · exact hopened env he

/-- An object that is not open and not on its way there or back. -/
theorem ObjInv.unknown (h : w.ObjInv p d) (hd : d.mDevice = none)
    (hc : w.phase p ≠ .closing) : w.Unknown p ∧ d.mMemorySlot = none := by
  have hin : ¬ w.InSession p d := fun hs => hs.2 hd
  have hslot : d.mMemorySlot = none := by
    by_contra hs
    exact (h.slotOpen hs).elim hc hin
  refine ⟨⟨fun j x hx hu => ?_,fun he => ?_,fun i hi => ?_⟩,hslot⟩
  · have := (h.hal j x hx hu).1
    rw [hd] at this
    cases this
  · exact (h.session he).2.1.elim hc hin
  · have := (h.slot i hi).1
    rw [hslot] at this
    cases this

theorem Unknown.objInv (h : w.Unknown p) (hd : d.mDevice = none) (hm : d.mMemorySlot = none)
    (ho : ¬ w.IsOpened p) : w.ObjInv p d := by
  refine ⟨fun j x hx hu => absurd hu (h.hal j x hx),fun j hj => ?_,fun hn => absurd hd hn,
    fun hop => absurd hop ho,fun he => absurd he h.extension,fun hn => absurd hd hn,
    fun i hi => absurd hi (h.slot i),fun hn => absurd hm hn⟩
  rw [hd] at hj
  cases hj

/-! ### `open` and `close` -/

@[simp] theorem next_phase_self (w : World) (p : Obj) (ph : Phase) (s : State) :
    (w.next p ph s).phase p = ph := Function.update_self _ _ _

theorem next_phase_of_ne (w : World) (ph : Phase) (s : State) (h : q ≠ p) :
    (w.next p ph s).phase q = w.phase q := Function.update_of_ne h _ _

theorem isOpened_next {ph : Phase} {s : State} :
    (w.next p ph s).IsOpened p ↔ ∃ env, ph = .opened env := by
  simp [IsOpened]

/-- Replacing one object and its phase is no concern of the others. -/
theorem sameAt_next_setObject (ph : Phase) (hq : q ≠ p) :
    w.SameAt (w.next p ph (w.state.setObject p d)) q :=
  ⟨State.setObject_of_ne _ _ hq,next_phase_of_ne _ _ _ hq,Iff.rfl,fun _ => id,
    fun _ _ _ => Iff.rfl,fun _ _ h => h⟩

theorem Unknown.next_setObject (h : w.Unknown p) (ph : Phase) :
    (w.next p ph (w.state.setObject p d)).Unknown p := ⟨h.hal,h.extension,h.slot⟩

/-- An object that nothing mentions is replaced by one that is not open. -/
theorem Inv.replace (h : w.Inv) (hu : w.Unknown p) (ph : Phase) (hd : d.mDevice = none)
    (hm : d.mMemorySlot = none) (hph : ∀ env, ph ≠ .opened env) :
    (w.next p ph (w.state.setObject p d)).Inv := by
  refine h.at (fun q hq => sameAt_next_setObject ph hq) ⟨d,State.setObject_self _ _ _,?_⟩
  refine (hu.next_setObject ph).objInv hd hm ?_
  rintro ⟨env,he⟩
  exact hph env (by simpa using he)

theorem Inv.create {c : ℤ} (h : w.Inv) (hs : memStep w (.create p c) = some w') : w'.Inv := by
  obtain ⟨s,ht,rfl⟩ := Option.map_eq_some_iff.mp hs
  unfold State.create at ht
  split at ht
  · cases ht
  · case _ hn =>
    cases ht
    exact h.replace (h.absent p hn) .idle rfl rfl nofun

theorem Inv.openFlag {env : OpenEnv} (h : w.Inv)
    (hg : env.infoOk → ∀ d, w.state.objects p = some d → d.mDevice = none)
    (hs : memStep w (.openFlag p env) = some w') : w'.Inv := by
  simp only [memStep] at hs
  split at hs
  · case _ hph =>
    split at hs
    · case _ hinfo =>
      obtain ⟨s,ht,rfl⟩ := Option.map_eq_some_iff.mp hs
      obtain ⟨d,hd,rfl⟩ := Option.map_eq_some_iff.mp ht
      have hn := hg hinfo d hd
      obtain ⟨hu,hm⟩ := (h.object p d hd).unknown hn (by simp [hph])
      exact h.replace hu _ hn hm nofun
    · cases hs
      exact h
  · cases hs

/-- The HAL has opened the device. -/
theorem Inv.opened {env : OpenEnv} {j : Handle} (h : w.Inv) (hu : w.Unknown p)
    (hfree : w.state.hal j = none) (hm : d.mMemorySlot = none)
    (hmap : d.mExtension = true → ∀ id, d.mMemoryMap id = none) :
    (w.next p (.opened env) (w.state.opened p d j)).Inv := by
  have hal : ∀ k, (w.state.opened p d j).hal k =
      if k = j then some { user := p } else w.state.hal k := fun k => by
    simp [State.opened,Function.update_apply]
  have hop : (w.next p (.opened env) (w.state.opened p d j)).IsOpened p :=
    isOpened_next.mpr ⟨env,rfl⟩
  refine h.at (fun q hq => ⟨Function.update_of_ne hq _ _,next_phase_of_ne _ _ _ hq,Iff.rfl,
    fun _ => id,fun k x hx => ?_,fun _ _ h => h⟩) ⟨_,State.opened_self _ _ _ _,?_⟩
  · show (w.state.opened p d j).hal k = some x ↔ _
    rw [hal]
    split
    · case _ hk =>
      rw [hk,hfree]
      refine iff_of_false (fun he => hq ?_) nofun
      rw [← hx,← Option.some.inj he]
    · rfl
  · refine ⟨fun k x hk hx => ?_,fun k hk => ?_,fun _ => Or.inr hop,fun _ => nofun,
      fun he => absurd he hu.extension,fun _ he => Or.inr ⟨hop,hmap he⟩,
      fun i hi => absurd hi (hu.slot i),fun hn => absurd hm hn⟩
    · replace hk : (w.state.opened p d j).hal k = some x := hk
      rw [hal] at hk
      split at hk
      · case _ hkj =>
        cases hk
        exact ⟨congrArg some hkj.symm,nofun,nofun⟩
      · exact absurd hx (hu.hal k x hk)
    · obtain rfl : j = k := Option.some.inj hk
      exact ⟨{ user := p },(hal j).trans (if_pos rfl),rfl⟩

theorem Inv.openHal (h : w.Inv)
    (hg : ∀ env, w.phase p = .flagged env → ∀ d, w.state.objects p = some d →
      d.mExtension = true → env.succeeds true → ∀ id, d.mMemoryMap id = none)
    (hs : memStep w (.openHal p) = some w') : w'.Inv := by
  simp only [memStep] at hs
  split at hs
  · case _ env hph =>
    obtain ⟨r,hr,rfl⟩ := Option.map_eq_some_iff.mp hs
    obtain ⟨d,hd,-⟩ := Option.bind_eq_some_iff.mp hr
    have hi := h.object p d hd
    have hn := hi.device_none (by simp [hph]) (by simp [hph])
    obtain ⟨hu,hm⟩ := hi.unknown hn (by simp [hph])
    rcases State.openHal_cases hd hr with ⟨hsucc,hfree,rfl⟩ | ⟨-,rfl⟩
    · refine h.opened hu hfree hm fun he => hg env hph d hd he ?_
      rwa [he] at hsucc
    · exact h.replace hu _ rfl hm nofun
  · cases hs

/-- A session that is being opened is not in the list yet. -/
theorem Inv.notMem_of_isOpened (h : w.Inv) (hd : w.state.objects p = some d)
    (hph : w.IsOpened p) : p ∉ w.state.sExtensionSessions := by
  intro hp
  obtain ⟨e,hop⟩ := hph
  rcases ((h.object p d hd).session hp).2.1 with hc | hs
  · rw [hop] at hc
    cases hc
  · have hidle := hs.1
    rw [hop] at hidle
    cases hidle

/-- The object has been registered, in whichever role, and its device given the callbacks. -/
theorem Inv.registered {s : State} {env : OpenEnv} {c : Callbacks} (h : w.Inv)
    (hd : w.state.objects p = some d) (hph : w.IsOpened p) (hobj : s.objects p = some d')
    (hothers : ∀ q, q ≠ p → s.objects q = w.state.objects q) (hdev : d'.mDevice = d.mDevice)
    (he : d'.mExtension = d.mExtension) (hmap : d'.mMemoryMap = d.mMemoryMap)
    (hhal : s.hal = w.state.hal)
    (hext : ∀ q, q ∈ s.sExtensionSessions ↔
      q ∈ w.state.sExtensionSessions ∨ q = p ∧ d.mExtension = true)
    (hslots : ∀ i q, q ≠ p → s.sMemorySlots i = some q → w.state.sMemorySlots i = some q)
    (hslot : ∀ i, s.sMemorySlots i = some p → d'.mMemorySlot = some i ∧ d.mExtension = false)
    (hprimary : ∀ i, c = .primary i → d.mExtension = false)
    (hextension : c = .extension → d.mExtension = true) :
    (w.next p .idle (s.setCallbacks d.mDevice env c)).Inv := by
  have hi := h.object p d hd
  have hopen := hi.opened hph
  obtain ⟨j,hj⟩ := Option.ne_none_iff_exists'.mp hopen
  obtain ⟨x₀,hx₀,hu₀⟩ := hi.handle j hj
  have hin : (w.next p .idle (s.setCallbacks d.mDevice env c)).InSession p d' :=
    ⟨next_phase_self _ _ _ _,by rw [hdev]; exact hopen⟩
  have hnot : p ∉ w.state.sExtensionSessions := h.notMem_of_isOpened hd hph
  have hempty : d.mExtension = true → ∀ id, d.mMemoryMap id = none := fun hde =>
    ((hi.registered hopen hde).resolve_left hnot).2
  have hcases (k : Handle) (x : HalDevice)
      (hx : (s.setCallbacks d.mDevice env c).hal k = some x) :
      w.state.hal k = some x ∨ k = j ∧ x = { x₀ with callbacks := c } := by
    rw [← hhal] at hx₀ ⊢
    exact s.hal_of_setCallbacks d.mDevice env c hj hx₀ hx
  refine h.at (fun q hq => ⟨?_,next_phase_of_ne _ _ _ hq,?_,fun i hi => ?_,fun k x hx => ?_,
    fun _ _ h => h⟩) ⟨d',?_,?_⟩
  · show (s.setCallbacks d.mDevice env c).objects q = _
    rw [State.setCallbacks_objects,hothers q hq]
  · show q ∈ (s.setCallbacks d.mDevice env c).sExtensionSessions ↔ _
    rw [State.setCallbacks_sExtensionSessions,hext]
    simp [hq]
  · refine hslots i q hq ?_
    rw [← s.setCallbacks_sMemorySlots d.mDevice env c]
    exact hi
  · constructor
    · intro hk
      rcases hcases k x hk with hk | ⟨-,rfl⟩
      · exact hk
      · exact absurd (hx.symm.trans hu₀) hq
    · intro hk
      show (s.setCallbacks d.mDevice env c).hal k = some x
      rcases s.setCallbacks_hal d.mDevice env c k with he | ⟨hjk,-⟩
      · rw [he,hhal,hk]
      · obtain rfl : j = k := Option.some.inj (hj.symm.trans hjk)
        rw [hx₀] at hk
        cases hk
        exact absurd (hx.symm.trans hu₀) hq
  · show (s.setCallbacks d.mDevice env c).objects p = _
    rw [State.setCallbacks_objects,hobj]
  · have hmem : p ∈ (w.next p .idle (s.setCallbacks d.mDevice env c)).state.sExtensionSessions ↔
        d.mExtension = true := by
      show p ∈ (s.setCallbacks d.mDevice env c).sExtensionSessions ↔ _
      rw [State.setCallbacks_sExtensionSessions,hext]
      simp [hnot]
    refine ⟨fun k x hx hu => ?_,fun k hk => ?_,fun _ => Or.inl hin.1,fun ⟨e,hop⟩ => ?_,
      fun hp => ⟨he.trans (hmem.mp hp),Or.inr hin,fun id m hm => ?_⟩,
      fun _ hde => Or.inl (hmem.mpr (he ▸ hde)),fun i hs => ?_,fun _ => Or.inr hin⟩
    · rw [hmem,he,hdev]
      rcases hcases k x hx with hk | ⟨rfl,rfl⟩
      · obtain ⟨h₁,h₂,h₃⟩ := hi.hal k x hk hu
        exact ⟨h₁,h₂,fun hc => ⟨(h₃ hc).1,(h₃ hc).1⟩⟩
      · exact ⟨hj,hprimary,fun hc => ⟨hextension hc,hextension hc⟩⟩
    · obtain rfl : j = k := Option.some.inj (hj.symm.trans (hdev ▸ hk))
      rcases s.setCallbacks_hal d.mDevice env c j with hk | ⟨-,hk⟩
      · exact ⟨x₀,by rw [← hx₀,← hhal,← hk]; rfl,hu₀⟩
      · exact ⟨{ x₀ with callbacks := c },by rw [hhal,hx₀] at hk; exact hk,hu₀⟩
    · have := hin.1
      rw [hop] at this
      cases this
    · rw [hmap,hempty (hmem.mp hp) id] at hm
      cases hm
    · rw [he]
      refine hslot i ?_
      rw [← s.setCallbacks_sMemorySlots d.mDevice env c]
      exact hs

theorem Inv.openRegister (h : w.Inv) (hs : memStep w (.openRegister p) = some w') : w'.Inv := by
  simp only [memStep] at hs
  split at hs
  · case _ env hph =>
    obtain ⟨s,ht,rfl⟩ := Option.map_eq_some_iff.mp hs
    obtain ⟨d,hd,rfl⟩ := Option.map_eq_some_iff.mp ht
    have hop : w.IsOpened p := ⟨env,hph⟩
    have hi := h.object p d hd
    have hnone : d.mMemorySlot = none := by
      by_contra hne
      rcases hi.slotOpen hne with hc | ⟨hc,-⟩ <;> simp [hph] at hc
    have hfree : ∀ i, w.state.sMemorySlots i ≠ some p := fun i hs => by
      have := (hi.slot i hs).1
      rw [hnone] at this
      cases this
    split
    · case _ he =>
      refine h.registered hd hop (Function.update_self _ _ _)
        (fun q hq => Function.update_of_ne hq _ _) rfl rfl rfl rfl (fun q => ?_)
        (fun _ _ _ => id) (fun i hs => absurd hs (hfree i)) nofun fun _ => he
      show q ∈ insert p w.state.sExtensionSessions ↔ _
      rw [Finset.mem_insert]
      tauto
    · case _ he =>
      have he : d.mExtension = false := by simpa using he
      refine h.registered hd hop (Function.update_self _ _ _)
        (fun q hq => Function.update_of_ne hq _ _) rfl rfl rfl rfl (fun q => ?_)
        (fun i q hq hs => ?_) (fun i hs => ?_) (fun _ _ => he) nofun
      · show q ∈ w.state.sExtensionSessions ↔ _
        simp [he]
      · rw [State.sMemorySlots_registerPrimary] at hs
        split at hs
        · exact absurd hs hq
        · exact hs
      · rw [State.sMemorySlots_registerPrimary] at hs
        split at hs
        · case _ hc => exact ⟨hc,he⟩
        · exact absurd hs (hfree i)
  · cases hs

theorem Inv.closeHal (h : w.Inv) (hs : memStep w (.closeHal p) = some w') : w'.Inv := by
  simp only [memStep] at hs
  split at hs
  · case _ hph =>
    obtain ⟨s,ht,rfl⟩ := Option.map_eq_some_iff.mp hs
    obtain ⟨d,hd,rfl⟩ := Option.map_eq_some_iff.mp ht
    have hi := h.object p d hd
    refine h.at (fun q hq => ⟨State.setObject_of_ne _ _ hq,next_phase_of_ne _ _ _ hq,Iff.rfl,
      fun _ => id,fun k x hx => ?_,fun _ _ h => h⟩) ⟨_,State.setObject_self _ _ _,?_⟩
    · show (if d.mDevice = some k then none else w.state.hal k) = some x ↔ _
      split
      · case _ hk =>
        obtain ⟨y,hy,hu⟩ := hi.handle k hk
        refine iff_of_false nofun fun hwk => hq ?_
        rw [hy] at hwk
        cases hwk
        rw [← hx,hu]
      · rfl
    · refine ⟨fun k x hx hu => ?_,fun k hk => (nomatch hk),fun hn => absurd rfl hn,
        fun ⟨e,he⟩ => ?_,fun he => ?_,fun hn => absurd rfl hn,hi.slot,
        fun _ => Or.inl (next_phase_self _ _ _ _)⟩
      · replace hx : (if d.mDevice = some k then none else w.state.hal k) = some x := hx
        split at hx
        · cases hx
        · case _ hk => exact absurd (hi.hal k x hx hu).1 hk
      · rw [next_phase_self] at he
        cases he
      · obtain ⟨h₁,-,h₃⟩ := hi.session he
        exact ⟨h₁,Or.inl (next_phase_self _ _ _ _),h₃⟩
  · cases hs

theorem Inv.closeUnregister (h : w.Inv) (hs : memStep w (.closeUnregister p) = some w') :
    w'.Inv := by
  simp only [memStep] at hs
  split at hs
  · case _ hph =>
    obtain ⟨s,ht,rfl⟩ := Option.map_eq_some_iff.mp hs
    obtain ⟨d,hd,rfl⟩ := Option.map_eq_some_iff.mp ht
    have hi := h.object p d hd
    have hn := hi.device_none (by simp [hph]) (by simp [hph])
    have hslots := State.releaseMemorySlot_apply w.state.sMemorySlots d.mMemorySlot
    refine h.at (fun q hq => ⟨State.setObject_of_ne _ _ hq,next_phase_of_ne _ _ _ hq,?_,
      fun i hs => ?_,fun _ _ _ => Iff.rfl,fun _ _ h => h⟩) ⟨_,State.setObject_self _ _ _,?_⟩
    · exact Finset.mem_erase.trans (and_iff_right hq)
    · replace hs := (hslots i).symm.trans hs
      split at hs
      · cases hs
      · exact hs
    · refine Unknown.objInv ⟨fun k x hx hu => ?_,Finset.notMem_erase _ _,fun i hs => ?_⟩ hn rfl ?_
      · have := (hi.hal k x hx hu).1
        rw [hn] at this
        cases this
      · replace hs := (hslots i).symm.trans hs
        split at hs
        · cases hs
        · case _ hne => exact hne (hi.slot i hs).1
      · rintro ⟨e,he⟩
        rw [next_phase_self] at he
        cases he
  · cases hs

theorem Inv.closeClear (h : w.Inv) (hs : memStep w (.closeClear p) = some w') : w'.Inv := by
  simp only [memStep] at hs
  split at hs
  · case _ hph =>
    obtain ⟨s,ht,rfl⟩ := Option.map_eq_some_iff.mp hs
    obtain ⟨d,hd,rfl⟩ := Option.map_eq_some_iff.mp ht
    have hi := h.object p d hd
    have hn := hi.device_none (by simp [hph]) (by simp [hph])
    obtain ⟨hu,hm⟩ := hi.unknown hn (by simp [hph])
    split
    · exact h.replace hu _ hn hm nofun
    · have hsame : w.state = w.state.setObject p d := by
        rw [State.setObject,← hd,Function.update_eq_self]
      rw [hsame]
      exact h.replace hu _ hn hm nofun
  · cases hs

/-! ### Memory -/

/-- The maps of an object and the memory have changed, but nothing of a session. -/
theorem ObjInv.setMaps (h : w.ObjInv p d) (hhal : w'.state.hal = w.state.hal)
    (hext : w'.state.sExtensionSessions = w.state.sExtensionSessions)
    (hslots : w'.state.sMemorySlots = w.state.sMemorySlots) (hphase : w'.phase = w.phase)
    (hdev : d'.mDevice = d.mDevice) (he : d'.mExtension = d.mExtension)
    (hm : d'.mMemorySlot = d.mMemorySlot)
    (hmatched : p ∈ w.state.sExtensionSessions → w.Matched d → w'.Matched d')
    (hempty : p ∉ w.state.sExtensionSessions → d.mExtension = true →
      (∀ id, d.mMemoryMap id = none) → ∀ id, d'.mMemoryMap id = none) : w'.ObjInv p d' := by
  have hop : w'.IsOpened p ↔ w.IsOpened p := by simp only [IsOpened,hphase]
  have hin : w'.InSession p d' ↔ w.InSession p d := by simp only [InSession,hphase,hdev]
  refine ⟨?_,?_,?_,?_,fun hs => ?_,fun hn hde => ?_,?_,?_⟩
  · rw [hhal,hext,hdev,he]
    exact h.hal
  · rw [hhal,hdev]
    exact h.handle
  · rw [hphase,hop,hdev]
    exact h.device
  · rw [hop,hdev]
    exact h.opened
  · rw [hext] at hs
    obtain ⟨h₁,h₂,h₃⟩ := h.session hs
    rw [he,hphase,hin]
    exact ⟨h₁,h₂,hmatched hs h₃⟩
  · rw [hdev] at hn
    rw [he] at hde
    rw [hext,hop]
    by_cases hs : p ∈ w.state.sExtensionSessions
    · exact Or.inl hs
    · obtain ⟨ho,hnone⟩ := (h.registered hn hde).resolve_left hs
      exact Or.inr ⟨ho,hempty hs hde hnone⟩
  · rw [hslots,hm,he]
    exact h.slot
  · rw [hm,hphase,hin]
    exact h.slotOpen

theorem Inv.setMaps {mem : Mem → Option CameraHeapMemory} (h : w.Inv)
    (hd : w.state.objects p = some d)
    (hw : w' = { w with state := w.state.setObject p d', memory := mem })
    (hdev : d'.mDevice = d.mDevice) (he : d'.mExtension = d.mExtension)
    (hm : d'.mMemorySlot = d.mMemorySlot) (hlive : ∀ m, w.Live m → w'.Live m)
    (hmatched : p ∈ w.state.sExtensionSessions → w.Matched d → w'.Matched d')
    (hempty : p ∉ w.state.sExtensionSessions → d.mExtension = true →
      (∀ id, d.mMemoryMap id = none) → ∀ id, d'.mMemoryMap id = none) : w'.Inv := by
  subst hw
  refine h.at (fun q hq => ⟨State.setObject_of_ne _ _ hq,rfl,Iff.rfl,fun _ => id,
    fun _ _ _ => Iff.rfl,fun _ => hlive⟩) ⟨d',State.setObject_self _ _ _,?_⟩
  exact (h.object p d hd).setMaps rfl rfl rfl rfl hdev he hm hmatched hempty

/-- The object that a primary session's memory callback means is not an extension. -/
theorem Inv.memoryOwner {j : Handle} {x : HalDevice} {slot : Option Slot} (h : w.Inv)
    (hx : w.state.hal j = some x) (hc : x.callbacks = .primary slot)
    (hp : w.memoryOwner x slot = some p) (hd : w.state.objects p = some d) :
    d.mExtension = false := by
  have hi := h.object p d hd
  cases slot with
  | none =>
    obtain rfl : x.user = p := Option.some.inj hp
    exact (hi.hal j x hx rfl).2.1 none hc
  | some i => exact (hi.slot i hp).2

theorem Inv.sGetMemory {m : Mem} {id : MemoryId} {size n data : UInt32} (h : w.Inv)
    (he : ∀ d, w.state.objects p = some d → d.mExtension = false)
    (hs : w.sGetMemory p m id size n data = some w') : w'.Inv := by
  obtain ⟨d,hd,hs⟩ := Option.bind_eq_some_iff.mp hs
  have he := he d hd
  split at hs
  · split at hs
    · cases hs
    · case _ hm =>
      cases hs
      refine h.setMaps hd rfl rfl rfl rfl (fun k ⟨mem,hk,hput⟩ => ⟨mem,?_,hput⟩)
        (fun hp => ?_) fun _ hde => ?_
      · have hne : k ≠ m := by
          rintro rfl
          rw [hm] at hk
          cases hk
        exact (Function.update_of_ne hne _ _).trans hk
      · have := ((h.object p d hd).session hp).1
        rw [he] at this
        cases this
      · rw [he] at hde
        cases hde
  · cases hs
    exact h

theorem Inv.getMemory {j : Handle} {m : Mem} {id : MemoryId} {size n data : UInt32} (h : w.Inv)
    (hs : memStep w (.getMemory j m id size n data) = some w') : w'.Inv := by
  obtain ⟨x,hx,hs⟩ := Option.bind_eq_some_iff.mp hs
  cases hc : x.callbacks with
  | unset | extension =>
    rw [hc] at hs
    cases hs
  | primary slot =>
    rw [hc] at hs
    cases hp : w.memoryOwner x slot with
    | none =>
      simp only [hp] at hs
      cases hs
      exact h
    | some p =>
      simp only [hp] at hs
      exact h.sGetMemory (fun d hd => h.memoryOwner hx hc hp hd) hs

/-- Registering live memory keeps the two maps inverse to each other. -/
theorem Matched.foreignMemoryId {data : Option Mem} (id : Option MemoryId) (h : w.Matched d)
    (hl : ∀ m ∈ data, w.Live m) : w.Matched (d.foreignMemoryId data id).2 := by
  cases data with
  | none => exact h
  | some mem =>
    cases hf : d.mForeignMemory mem with
    | some i => simpa [CameraDevice.foreignMemoryId,hf] using h
    | none =>
      cases id with
      | none => simpa [CameraDevice.foreignMemoryId,hf] using h
      | some id =>
        intro k m hm
        simp only [CameraDevice.foreignMemoryId,hf] at hm ⊢
        by_cases hk : k = id
        · subst hk
          obtain rfl : mem = m := by simpa using hm
          exact ⟨Function.update_self _ _ _,hl mem rfl⟩
        · rw [Function.update_of_ne hk] at hm
          obtain ⟨h₁,h₂⟩ := h k m hm
          have hne : m ≠ mem := by
            rintro rfl
            rw [hf] at h₁
            cases h₁
          exact ⟨(Function.update_of_ne hne _ _).trans h₁,h₂⟩

/-- `foreignMemoryId` changes the two maps only. -/
theorem foreignMemoryId_keep (d : CameraDevice) (data : Option Mem) (id : Option MemoryId) :
    (d.foreignMemoryId data id).2.mDevice = d.mDevice ∧
      (d.foreignMemoryId data id).2.mExtension = d.mExtension ∧
      (d.foreignMemoryId data id).2.mMemorySlot = d.mMemorySlot := by
  unfold CameraDevice.foreignMemoryId
  split
  · exact ⟨rfl,rfl,rfl⟩
  · split
    · exact ⟨rfl,rfl,rfl⟩
    · split <;> exact ⟨rfl,rfl,rfl⟩

theorem Inv.dataCallback {j : Handle} {data : Option Mem} {id : Option MemoryId} (h : w.Inv)
    (hs : memStep w (.dataCallback j data id) = some w') : w'.Inv := by
  obtain ⟨x,hx,hs⟩ := Option.bind_eq_some_iff.mp hs
  cases hc : x.callbacks with
  | unset | primary slot =>
    rw [hc] at hs
    cases hs
  | extension =>
    rw [hc] at hs
    simp only at hs
    split at hs
    · case _ hl =>
      obtain ⟨d,hd,rfl⟩ := Option.map_eq_some_iff.mp hs
      have hp := ((h.object x.user d hd).hal j x hx rfl).2.2 hc
      split
      · obtain ⟨h₁,h₂,h₃⟩ := foreignMemoryId_keep d data id
        refine h.setMaps hd rfl h₁ h₂ h₃ (fun m hm => hm) (fun _ hm => ?_)
          (fun hn => absurd hp.2 hn)
        exact hm.foreignMemoryId id hl
      · exact h
    · cases hs

/-- Forgetting a memory removes every entry that leads to it. -/
theorem Matched.forgetForeignMemory {m : Mem} (h : w.Matched d)
    (hl : ∀ k, k ≠ m → w.Live k → w'.Live k) : w'.Matched (d.forgetForeignMemory m) := by
  intro i k hk
  unfold CameraDevice.forgetForeignMemory at hk ⊢
  cases hf : d.mForeignMemory m with
  | none =>
    simp only [hf] at hk ⊢
    obtain ⟨h₁,h₂⟩ := h i k hk
    refine ⟨h₁,hl k ?_ h₂⟩
    rintro rfl
    rw [hf] at h₁
    cases h₁
  | some id =>
    simp only [hf] at hk ⊢
    by_cases hi : i = id
    · rw [hi,Function.update_self] at hk
      cases hk
    · rw [Function.update_of_ne hi] at hk
      obtain ⟨h₁,h₂⟩ := h i k hk
      have hne : k ≠ m := by
        rintro rfl
        rw [hf] at h₁
        exact hi (Option.some.inj h₁).symm
      exact ⟨(Function.update_of_ne hne _ _).trans h₁,hl k hne h₂⟩

theorem forgetForeignMemory_keep (d : CameraDevice) (m : Mem) :
    (d.forgetForeignMemory m).mDevice = d.mDevice ∧
      (d.forgetForeignMemory m).mExtension = d.mExtension ∧
      (d.forgetForeignMemory m).mMemorySlot = d.mMemorySlot := by
  unfold CameraDevice.forgetForeignMemory
  split <;> exact ⟨rfl,rfl,rfl⟩

theorem sForgetForeignMemory_of_mem (s : State) (m : Mem) (h : q ∈ s.sExtensionSessions) :
    (s.sForgetForeignMemory m).objects q = (s.objects q).map (·.forgetForeignMemory m) := if_pos h

theorem sForgetForeignMemory_of_notMem (s : State) (m : Mem) (h : q ∉ s.sExtensionSessions) :
    (s.sForgetForeignMemory m).objects q = s.objects q := if_neg h

theorem Inv.putForget {m : Mem} (h : w.Inv) (hs : memStep w (.putForget m) = some w') :
    w'.Inv := by
  obtain ⟨mem,hmem,hs⟩ := Option.bind_eq_some_iff.mp hs
  split at hs
  · cases hs
  cases hs
  set w' : World := { w with
    state := w.state.sForgetForeignMemory m
    memory := Function.update w.memory m (some { mem with put := true }) } with hw
  have hlive : ∀ k, k ≠ m → w.Live k → w'.Live k := fun k hk ⟨x,hx,hput⟩ =>
    ⟨x,(Function.update_of_ne hk _ _).trans hx,hput⟩
  have hsame : ∀ q, q ∉ w.state.sExtensionSessions → w.SameAt w' q := fun q hq =>
    ⟨sForgetForeignMemory_of_notMem _ _ hq,rfl,Iff.rfl,fun _ => id,fun _ _ _ => Iff.rfl,
      fun hin => absurd hin hq⟩
  constructor
  · intro p d hd
    by_cases hp : p ∈ w.state.sExtensionSessions
    · replace hd : (w.state.sForgetForeignMemory m).objects p = some d := hd
      rw [sForgetForeignMemory_of_mem _ _ hp] at hd
      obtain ⟨e,he,rfl⟩ := Option.map_eq_some_iff.mp hd
      obtain ⟨h₁,h₂,h₃⟩ := forgetForeignMemory_keep e m
      exact (h.object p e he).setMaps rfl rfl rfl rfl h₁ h₂ h₃
        (fun _ hm => hm.forgetForeignMemory hlive) fun hn => absurd hp hn
    · exact (h.object p d ((hsame p hp).object ▸ hd)).congr (hsame p hp)
  · intro p hn
    have hp : p ∉ w.state.sExtensionSessions := fun hp => by
      replace hn : (w.state.sForgetForeignMemory m).objects p = none := hn
      rw [sForgetForeignMemory_of_mem _ _ hp,Option.map_eq_none_iff] at hn
      exact (h.absent p hn).extension hp
    exact (h.absent p ((hsame p hp).object ▸ hn)).congr (hsame p hp)

theorem Inv.putEnd {m : Mem} (h : w.Inv) (hs : memStep w (.putEnd m) = some w') : w'.Inv := by
  obtain ⟨mem,hmem,hs⟩ := Option.bind_eq_some_iff.mp hs
  split at hs
  · case _ hput =>
    obtain ⟨d,hd,rfl⟩ := Option.map_eq_some_iff.mp hs
    have hlive : ∀ k, w.Live k → k ≠ m := by
      rintro k ⟨x,hx,hx'⟩ rfl
      rw [hmem] at hx
      cases hx
      rw [hput] at hx'
      cases hx'
    have herase : ∀ k i, Function.update d.mMemoryMap mem.mId none i = some k →
        d.mMemoryMap i = some k := by
      intro k i hk
      by_cases hi : i = mem.mId
      · rw [hi,Function.update_self] at hk
        cases hk
      · rwa [Function.update_of_ne hi] at hk
    have hmono : ∀ k, w.Live k → (World.Live { w with
        state := w.state.setObject mem.mDevice { d with
          mMemoryMap := Function.update d.mMemoryMap mem.mId none }
        memory := Function.update w.memory m none } k) := fun k hk => by
      obtain ⟨x,hx,hx'⟩ := hk
      exact ⟨x,(Function.update_of_ne (hlive k ⟨x,hx,hx'⟩) _ _).trans hx,hx'⟩
    refine h.setMaps hd rfl rfl rfl rfl hmono (fun _ hmat i k hk => ?_) fun _ _ hnone i => ?_
    · obtain ⟨h₁,h₂⟩ := hmat i k (herase k i hk)
      exact ⟨h₁,hmono k h₂⟩
    · refine Option.eq_none_iff_forall_ne_some.mpr fun k hk => ?_
      have := herase k i hk
      rw [hnone i] at this
      cases this
  · cases hs

end World

/-- The guard: no object is opened that is still open, and none opens as an extension
with memory of an earlier session on its map. -/
def MemGuard (w : World) : Event → Prop
  | .openFlag p env => env.infoOk → ∀ d, w.state.objects p = some d → d.mDevice = none
  | .openHal p => ∀ env, w.phase p = .flagged env → ∀ d, w.state.objects p = some d →
      d.mExtension = true → env.succeeds true → ∀ id, d.mMemoryMap id = none
  | _ => True

theorem memStep_inv {w w' : World} {a : Event} (h : w.Inv) (hg : MemGuard w a)
    (hs : memStep w a = some w') : w'.Inv := by
  cases a with
  | create p c => exact h.create hs
  | openFlag p env => exact h.openFlag hg hs
  | openHal p => exact h.openHal hg hs
  | openRegister p => exact h.openRegister hs
  | closeHal p => exact h.closeHal hs
  | closeUnregister p => exact h.closeUnregister hs
  | closeClear p => exact h.closeClear hs
  | getMemory j m id size n data => exact h.getMemory hs
  | dataCallback j data id => exact h.dataCallback hs
  | putForget m => exact h.putForget hs
  | putEnd m => exact h.putEnd hs

/-- A client of an extension whose entries are valid is never led to freed memory. -/
theorem World.Valid.released {w : World} {p : Obj} {d : CameraDevice} (h : w.Valid)
    (hd : w.state.objects p = some d) (he : d.mExtension = true) (memId : MemoryId)
    (bufferIndex : UInt32) : w.releaseRecordingFrameLocked p memId bufferIndex ≠ some .freed := by
  rw [World.releaseRecordingFrameLocked,hd,Option.map_some]
  unfold Camera.releaseRecordingFrameLocked
  split
  · case _ hopen =>
    cases hm : d.mMemoryMap memId with
    | none => simp
    | some m =>
      obtain ⟨mem,hmem,-⟩ := (h p d hd (Option.isSome_iff_ne_none.mp hopen) he memId m hm).2
      simp only [Option.map_some,hmem]
      split <;> simp
  · simp

/-- In a run under the guard the entries of every open extension lead back by
`mForeignMemory`, to memory that has not been put. -/
theorem memory_valid (as : List Event) (w : World) (hg : Along memStep MemGuard {} as)
    (h : run memStep {} as = some w) :
    w.Valid ∧ ∀ p d memId bufferIndex, w.state.objects p = some d → d.mExtension = true →
      w.releaseRecordingFrameLocked p memId bufferIndex ≠ some .freed := by
  have hinv : w.Inv := run_invariant (fun _ _ _ h hg hs => memStep_inv h hg hs) World.inv_init hg h
  exact ⟨hinv.valid,fun p d memId bufferIndex hd he => hinv.valid.released hd he memId bufferIndex⟩

/-- A frame in the primary session's memory 40 is shown to the extension's client as 5. -/
def sharedFrame : List Event :=
  [.create 1 0,.openFlag 1 { handle := 7 },.openHal 1,.openRegister 1,.create 2 0,
    .openFlag 2 { handle := 8 },.openHal 2,.openRegister 2,.getMemory 7 40 3 16 2 0x8000,
    .dataCallback 8 (some 40) (some 5)]

theorem along_sharedFrame : Along memStep MemGuard {} sharedFrame := by
  refine .cons trivial rfl (.cons (fun _ d hd => ?_) rfl (.cons (fun _ _ d hd he => ?_) rfl
    (.cons trivial rfl (.cons trivial rfl (.cons (fun _ d hd => ?_) rfl
      (.cons (fun _ _ d hd _ _ id => ?_) rfl (.cons trivial rfl ⟨trivial,trivial,trivial⟩)))))))
  · cases Option.some.inj hd
    rfl
  · cases Option.some.inj hd
    cases he
  · cases Option.some.inj hd
    rfl
  · cases Option.some.inj hd
    rfl

theorem memory_valid_sharedFrame :
    ∃ w, run memStep {} sharedFrame = some w ∧
      (w.state.objects 2).bind (·.mMemoryMap 5) = some 40 ∧ w.Valid := by
  have hrun : (run memStep {} sharedFrame).map
      (fun w => (w.state.objects 2).bind (·.mMemoryMap 5)) = some (some 40) := rfl
  obtain ⟨w,hw,hm⟩ := Option.map_eq_some_iff.mp hrun
  exact ⟨w,hw,hm,(memory_valid _ w along_sharedFrame hw).1⟩

/-- The extension's next `open` comes after the primary session's end and is refused by the
HAL; closing the object then leaves its maps as they are, and it is used once more. -/
def staleExtension : List Event :=
  sharedFrame ++ [.closeHal 1,.closeUnregister 1,.closeClear 1,
    .openFlag 2 { handle := 9, halOk := false },.openHal 2,.closeHal 2,.closeUnregister 2,
    .closeClear 2,.putForget 40,.putEnd 40,.create 3 0,.openFlag 3 { handle := 7 },.openHal 3,
    .openRegister 3,.openFlag 2 { handle := 9 },.openHal 2,.openRegister 2]

theorem staleExtension_freed :
    ∃ w, run memStep {} staleExtension = some w ∧
      w.releaseRecordingFrameLocked 2 5 0 = some .freed ∧ ¬ w.Valid := by
  have hrun : (run memStep {} staleExtension).map (fun w =>
      ((w.state.objects 2).map (·.mExtension),w.releaseRecordingFrameLocked 2 5 0)) =
        some (some true,some .freed) := rfl
  obtain ⟨w,hw,he⟩ := Option.map_eq_some_iff.mp hrun
  obtain ⟨he,hfreed⟩ := Prod.mk.inj he
  obtain ⟨d,hd,he⟩ := Option.map_eq_some_iff.mp he
  exact ⟨w,hw,hfreed,fun h => h.released hd he 5 0 hfreed⟩

end Camera
end Kitakami

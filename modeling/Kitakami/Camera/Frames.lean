import Kitakami.Camera.Memory
import Mathlib.Data.List.Nodup

/-!
# Recording frames and their buffers

The facade of `sonycamera.cpp` maps the memory that a `CameraDevice` registers
with it, and turns the address of a recording frame back into the memory and the
buffer it came from. The device has its own table of the registered memory, with
which it turns them into an address again. Both are 32-bit processes.
-/

namespace Kitakami
namespace Camera

/-- `handle.size`. -/
def HeapMemory.size (mem : HeapMemory) : UInt32 := mem.mBufSize * mem.mNumBufs

namespace DeviceCallback

variable {F U : Type}

def initial (user : U) : DeviceCallback F U := ⟨none,user,[],1,List.nodup_nil⟩

/-- `mHeaps.erase`. -/
def unregisterMemory (c : DeviceCallback F U) (memId : UInt32) : DeviceCallback F U :=
  { c with
    mHeaps := c.mHeaps.filter fun e => e.1 ≠ memId
    keys := c.keys.sublist (List.filter_sublist.map Prod.fst) }

/-- `mHeaps[id] = mem`. -/
def assign (c : DeviceCallback F U) (id : UInt32) (mem : HeapMemory) : DeviceCallback F U :=
  { c with
    mHeaps := (id,mem)::(c.unregisterMemory id).mHeaps
    mNextId := c.mNextId + 1
    keys := by
      rw [List.map_cons,List.nodup_cons]
      refine ⟨fun h => ?_,(c.unregisterMemory id).keys⟩
      obtain ⟨e,he,rfl⟩ := List.mem_map.mp h
      simpa using (List.mem_filter.mp he).2 }

/-- `registerMemory`: the address at which the memory is mapped, unless the
descriptor is invalid or cannot be mapped. -/
def registerMemory (c : DeviceCallback F U) (mapped : Option UInt32)
    (bufferSize bufferCount : UInt32) : DeviceCallback F U × UInt32 :=
  match mapped with
  | none => (c,0)
  | some data => (c.assign c.mNextId ⟨bufferSize,bufferCount,data⟩,c.mNextId)

end DeviceCallback

/-- The loop of `findFrame`, over the heaps in whatever order the map has them. -/
def findFrame (heaps : List (UInt32 × HeapMemory)) (frame : UInt32) : Option (UInt32 × UInt32) :=
  heaps.findSome? fun (id,mem) =>
    if mem.mBufSize ≠ 0 ∧ mem.data ≤ frame ∧ frame < mem.data + mem.size then
      some (id,(frame - mem.data)/mem.mBufSize)
    else none

/-- The addresses of a heap. -/
def HeapMemory.Covers (mem : HeapMemory) (a : ℕ) : Prop :=
  mem.data.toNat ≤ a ∧ a < mem.data.toNat + mem.mBufSize.toNat * mem.mNumBufs.toNat

/-- The heap ends within the address space. -/
def HeapMemory.Fits (mem : HeapMemory) : Prop :=
  mem.data.toNat + mem.mBufSize.toNat * mem.mNumBufs.toNat < 2^32

instance (mem : HeapMemory) : Decidable mem.Fits := inferInstanceAs (Decidable (_ < _))

/-- The heaps are mapped at disjoint addresses, without overflow. -/
structure DeviceCallback.Mapped {F U : Type} (c : DeviceCallback F U) : Prop where
  fits : ∀ e ∈ c.mHeaps, e.2.Fits
  disjoint : ∀ e ∈ c.mHeaps, ∀ e' ∈ c.mHeaps, e.1 ≠ e'.1 → ∀ a, e.2.Covers a → ¬ e'.2.Covers a

/-! ## Finding a frame -/

variable {mem : HeapMemory} {frame index offset : UInt32}

theorem HeapMemory.Fits.size (h : mem.Fits) :
    mem.size.toNat = mem.mBufSize.toNat * mem.mNumBufs.toNat := by
  unfold Fits at h
  rw [HeapMemory.size,UInt32.toNat_mul]
  exact Nat.mod_eq_of_lt (by omega)

theorem HeapMemory.Fits.finish (h : mem.Fits) :
    (mem.data + mem.size).toNat =
      mem.data.toNat + mem.mBufSize.toNat * mem.mNumBufs.toNat := by
  rw [UInt32.toNat_add,h.size]
  exact Nat.mod_eq_of_lt h

/-- The test of `findFrame`, without overflow. -/
theorem HeapMemory.Fits.test_iff (h : mem.Fits) :
    (mem.mBufSize ≠ 0 ∧ mem.data ≤ frame ∧ frame < mem.data + mem.size) ↔
      mem.Covers frame.toNat := by
  rw [UInt32.le_iff_toNat_le,UInt32.lt_iff_toNat_lt,h.finish]
  refine and_iff_right_of_imp ?_
  rintro ⟨h₁,h₂⟩ hzero
  rw [hzero,UInt32.toNat_zero,Nat.zero_mul] at h₂
  omega

/-- A byte of a buffer lies in its heap. -/
theorem HeapMemory.Fits.address (h : mem.Fits) (hi : index < mem.mNumBufs)
    (ho : offset < mem.mBufSize) :
    (mem.data + index * mem.mBufSize + offset).toNat =
        mem.data.toNat + (index.toNat * mem.mBufSize.toNat + offset.toNat) ∧
      index.toNat * mem.mBufSize.toNat + offset.toNat <
        mem.mBufSize.toNat * mem.mNumBufs.toNat := by
  rw [UInt32.lt_iff_toNat_lt] at hi ho
  unfold Fits at h
  have hlt : index.toNat * mem.mBufSize.toNat + offset.toNat <
      mem.mBufSize.toNat * mem.mNumBufs.toNat :=
    calc index.toNat * mem.mBufSize.toNat + offset.toNat
        < index.toNat * mem.mBufSize.toNat + mem.mBufSize.toNat := by omega
      _ = mem.mBufSize.toNat * (index.toNat + 1) := by ring
      _ ≤ mem.mBufSize.toNat * mem.mNumBufs.toNat := Nat.mul_le_mul_left _ hi
  refine ⟨?_,hlt⟩
  rw [UInt32.toNat_add,UInt32.toNat_add,UInt32.toNat_mul,Nat.add_mod_mod,Nat.mod_add_mod]
  rw [Nat.mod_eq_of_lt (by omega)]
  omega

/-- Such an address is turned back into the buffer. -/
theorem HeapMemory.Fits.div_eq (h : mem.Fits) (hi : index < mem.mNumBufs)
    (ho : offset < mem.mBufSize) :
    (mem.data + index * mem.mBufSize + offset - mem.data)/mem.mBufSize = index := by
  obtain ⟨haddr,hlt⟩ := h.address hi ho
  unfold Fits at h
  have hsub : (mem.data + index * mem.mBufSize + offset - mem.data).toNat =
      index.toNat * mem.mBufSize.toNat + offset.toNat := by
    rw [UInt32.toNat_sub_of_le _ _ (UInt32.le_iff_toNat_le.mpr (by omega)),haddr]
    omega
  rw [UInt32.lt_iff_toNat_lt] at ho
  apply UInt32.toNat_inj.mp
  rw [UInt32.toNat_div,hsub,Nat.mul_comm,Nat.mul_add_div (by omega),Nat.div_eq_of_lt ho,
    Nat.add_zero]

/-- A search that can only have one outcome, and has it at some element, has that outcome. -/
theorem findSome?_eq_some {α β : Type} {l : List α} {f : α → Option β} {x : α} {y : β}
    (hx : x ∈ l) (hf : f x = some y) (hy : ∀ x' ∈ l, ∀ y', f x' = some y' → y' = y) :
    l.findSome? f = some y := by
  cases hs : l.findSome? f with
  | none =>
    rw [List.findSome?_eq_none_iff] at hs
    rw [hs x hx] at hf
    cases hf
  | some y' =>
    obtain ⟨x',hx',hf'⟩ := List.exists_of_findSome?_eq_some hs
    rw [hy x' hx' y' hf']

variable {F U : Type} {c : DeviceCallback F U} {id : UInt32} {heaps : List (UInt32 × HeapMemory)}

/-- There is one heap for each identifier. -/
theorem DeviceCallback.eq_of_id (c : DeviceCallback F U) {e e' : UInt32 × HeapMemory}
    (he : e ∈ c.mHeaps) (he' : e' ∈ c.mHeaps) (hid : e.1 = e'.1) : e = e' :=
  List.inj_on_of_nodup_map c.keys he he' hid

/-- A byte of a buffer is found in it, in whatever order the heaps are searched. -/
theorem DeviceCallback.Mapped.finds (h : c.Mapped) (hp : heaps.Perm c.mHeaps)
    (he : (id,mem) ∈ c.mHeaps) (hi : index < mem.mNumBufs) (ho : offset < mem.mBufSize) :
    findFrame heaps (mem.data + index * mem.mBufSize + offset) = some (id,index) := by
  have hfits : mem.Fits := h.fits _ he
  obtain ⟨haddr,hlt⟩ := hfits.address hi ho
  have hcovers : mem.Covers (mem.data + index * mem.mBufSize + offset).toNat := by
    rw [haddr]
    exact ⟨by omega,by omega⟩
  refine findSome?_eq_some (hp.mem_iff.mpr he) ?_ ?_
  · simp only [if_pos (hfits.test_iff.mpr hcovers),hfits.div_eq hi ho]
  · intro e' he' y' hy'
    have he' := hp.mem_iff.mp he'
    dsimp only at hy'
    split at hy'
    · case _ htest =>
      have hcovers' := (h.fits e' he').test_iff.mp htest
      have hid : e'.1 = id := by
        by_contra hne
        exact h.disjoint e' he' _ he hne _ hcovers' hcovers
      obtain rfl := c.eq_of_id he' he hid
      rw [hfits.div_eq hi ho] at hy'
      exact (Option.some.inj hy').symm
    · cases hy'

/-- An address outside all heaps is found nowhere. -/
theorem DeviceCallback.Mapped.finds_none (h : c.Mapped) (hp : heaps.Perm c.mHeaps)
    (hout : ∀ e ∈ c.mHeaps, ¬ e.2.Covers frame.toNat) : findFrame heaps frame = none := by
  refine List.findSome?_eq_none_iff.mpr fun e he => if_neg fun htest => ?_
  have he := hp.mem_iff.mp he
  exact hout e he ((h.fits e he).test_iff.mp htest)

namespace DeviceCallback

theorem mem_unregisterMemory {memId : UInt32} {e : UInt32 × HeapMemory} :
    e ∈ (c.unregisterMemory memId).mHeaps ↔ e ∈ c.mHeaps ∧ e.1 ≠ memId := by
  simp [unregisterMemory]

theorem mem_assign {e : UInt32 × HeapMemory} :
    e ∈ (c.assign id mem).mHeaps ↔ e = (id,mem) ∨ e ∈ c.mHeaps ∧ e.1 ≠ id := by
  rw [assign,List.mem_cons,mem_unregisterMemory]

end DeviceCallback

/-! ## The two tables -/

namespace Frames

/-- A session: the facade's callback, and the memory that the device has registered with it. Whom
the facade calls back does not matter. -/
structure Session where
  callback : DeviceCallback Unit Unit
  mMemoryMap : UInt32 → Option CameraHeapMemory

/-- What the device calls: `sGetMemory` and `foreignMemoryId` register memory, `sPutMemory`
and `sForgetForeignMemory` unregister it. -/
inductive Op
  | registerMemory (mem : CameraHeapMemory) (mapped : Option UInt32)
  | unregisterMemory (memId : UInt32)
  deriving DecidableEq

def Op.registers : Op → Bool
  | .registerMemory .. => true
  | .unregisterMemory _ => false

namespace Session

def initial : Session := ⟨.initial (),fun _ => none⟩

/-- A call, and what the device does to `mMemoryMap` along with it. -/
def step (s : Session) : Op → Session
  | .registerMemory mem mapped =>
    let r := s.callback.registerMemory mapped mem.mBufSize mem.mNumBufs
    ⟨r.1,Function.update s.mMemoryMap r.2 (some mem)⟩
  | .unregisterMemory memId =>
    ⟨s.callback.unregisterMemory memId,Function.update s.mMemoryMap memId none⟩

def run (ops : List Op) : Session := ops.foldl step initial

/-- No memory of the map has been freed. -/
def releaseRecordingFrameLocked (s : Session) (mDevice : Bool) (memId bufferIndex : UInt32) :
    Release :=
  Camera.releaseRecordingFrameLocked mDevice ((s.mMemoryMap memId).map some) bufferIndex

end Session

/-- The identifiers so far: `n` calls have registered memory, and 0 was never given out. -/
structure Session.Counted (s : Session) (n : ℕ) : Prop where
  pos : s.callback.mNextId ≠ 0
  le : s.callback.mNextId.toNat ≤ n + 1
  ids : ∀ e ∈ s.callback.mHeaps, e.1 ≠ 0

/-- What the facade has mapped, the device has in its table with the same buffers. -/
def Session.Agrees (s : Session) : Prop :=
  ∀ e ∈ s.callback.mHeaps, ∃ cam, s.mMemoryMap e.1 = some cam ∧
    cam.mBufSize = e.2.mBufSize ∧ cam.mNumBufs = e.2.mNumBufs

variable {s : Session} {n : ℕ}

theorem Session.Counted.step (h : s.Counted n) (op : Op)
    (hn : n + (if op.registers then 1 else 0) < 2^32 - 1) :
    (s.step op).Counted (n + if op.registers then 1 else 0) := by
  cases op with
  | registerMemory mem mapped =>
    replace hn : n + 1 < 2^32 - 1 := hn
    cases mapped with
    | none => exact ⟨h.pos,Nat.le_succ_of_le h.le,h.ids⟩
    | some data =>
      have hle := h.le
      have hnext : (s.callback.mNextId + 1).toNat = s.callback.mNextId.toNat + 1 := by
        rw [UInt32.toNat_add]
        exact Nat.mod_eq_of_lt (by simp only [UInt32.reduceToNat]; omega)
      refine ⟨fun hz => ?_,?_,fun e he => ?_⟩
      · replace hz : s.callback.mNextId + 1 = 0 := hz
        rw [hz] at hnext
        simp at hnext
      · show (s.callback.mNextId + 1).toNat ≤ n + 1 + 1
        omega
      · rcases DeviceCallback.mem_assign.mp he with rfl | ⟨he,-⟩
        · exact h.pos
        · exact h.ids e he
  | unregisterMemory memId =>
    exact ⟨h.pos,h.le,fun e he => h.ids e (DeviceCallback.mem_unregisterMemory.mp he).1⟩

/-- A registration that fails leaves an entry under 0 only, where the facade has no heap. -/
theorem Session.Agrees.step (h : s.Agrees) (hc : s.Counted n) (op : Op) : (s.step op).Agrees := by
  cases op with
  | registerMemory mem mapped =>
    cases mapped with
    | none =>
      intro e he
      obtain ⟨cam,hcam,hsame⟩ := h e he
      exact ⟨cam,(Function.update_of_ne (hc.ids e he) _ _).trans hcam,hsame⟩
    | some data =>
      intro e he
      rcases DeviceCallback.mem_assign.mp he with rfl | ⟨he,hne⟩
      · exact ⟨mem,Function.update_self _ _ _,rfl,rfl⟩
      · obtain ⟨cam,hcam,hsame⟩ := h e he
        exact ⟨cam,(Function.update_of_ne hne _ _).trans hcam,hsame⟩
  | unregisterMemory memId =>
    intro e he
    obtain ⟨he,hne⟩ := DeviceCallback.mem_unregisterMemory.mp he
    obtain ⟨cam,hcam,hsame⟩ := h e he
    exact ⟨cam,(Function.update_of_ne hne _ _).trans hcam,hsame⟩

theorem Session.run_append (ops : List Op) (op : Op) :
    run (ops ++ [op]) = (run ops).step op := by
  rw [run,List.foldl_append]
  rfl

/-- While the counter does not wrap around, the tables agree after any sequence of calls. -/
theorem Session.run_agrees (ops : List Op) (hn : ops.countP Op.registers < 2^32 - 1) :
    (run ops).Counted (ops.countP Op.registers) ∧ (run ops).Agrees := by
  induction ops using List.reverseRecOn with
  | nil =>
    exact ⟨⟨by decide,by decide,fun e he => absurd he List.not_mem_nil⟩,
      fun e he => absurd he List.not_mem_nil⟩
  | append_singleton ops op ih =>
    rw [List.countP_append,List.countP_singleton] at hn ⊢
    obtain ⟨hc,ha⟩ := ih (Nat.lt_of_le_of_lt (Nat.le_add_right _ _) hn)
    rw [run_append]
    exact ⟨hc.step op hn,ha.step hc op⟩

/-- After any sequence of registrations that leaves the heaps at disjoint addresses, without
overflow of 32 bits, a frame is released to the buffer it is in. The identifiers overflow too,
after which one of them is the 0 of a registration that has failed. -/
theorem frames_released (ops : List Op) (hm : (Session.run ops).callback.Mapped)
    (heaps : List (UInt32 × HeapMemory))
    (hp : heaps.Perm (Session.run ops).callback.mHeaps) :
    (∀ id mem index offset, (id,mem) ∈ (Session.run ops).callback.mHeaps → mem.mBufSize > 0 →
      index < mem.mNumBufs → offset < mem.mBufSize →
        findFrame heaps (mem.data + index * mem.mBufSize + offset) = some (id,index) ∧
        (ops.countP Op.registers < 2^32 - 1 →
          ∃ cam, (Session.run ops).mMemoryMap id = some cam ∧
            (Session.run ops).releaseRecordingFrameLocked true id index =
              .released (cam.mHidlHeapMemData + index * mem.mBufSize))) ∧
    ∀ frame : UInt32, (∀ e ∈ (Session.run ops).callback.mHeaps, ¬ e.2.Covers frame.toNat) →
      findFrame heaps frame = none := by
  refine ⟨fun id mem index offset he _ hi ho => ⟨hm.finds hp he hi ho,fun hn => ?_⟩,
    fun frame hout => hm.finds_none hp hout⟩
  obtain ⟨cam,hcam,hsize,hbufs⟩ := (Session.run_agrees ops hn).2 _ he
  refine ⟨cam,hcam,?_⟩
  have hin : ¬ index ≥ cam.mNumBufs := by
    rw [hbufs]
    exact UInt32.not_le.mpr hi
  simp only [Session.releaseRecordingFrameLocked,releaseRecordingFrameLocked,if_true,hcam,
    Option.map_some,if_neg hin,hsize]

/-- A memory of the device at 1. -/
def heapMemory (mBufSize mNumBufs mHidlHeapMemData : UInt32) : CameraHeapMemory :=
  ⟨1,0,mBufSize,mNumBufs,mHidlHeapMemData,false⟩

/-- Two memories side by side, and a third that has been given back. -/
def sideBySide : List Op :=
  [.registerMemory (heapMemory 16 3 0x8000) (some 0x1000),
    .registerMemory (heapMemory 64 2 0x9000) (some 0x1030),
    .registerMemory (heapMemory 8 2 0xa000) (some 0x1030),
    .registerMemory (heapMemory 8 2 0xb000) none,.unregisterMemory 2]

theorem mapped_sideBySide : (Session.run sideBySide).callback.Mapped := by
  have hheaps : (Session.run sideBySide).callback.mHeaps =
      [(3,⟨8,2,0x1030⟩),(1,⟨16,3,0x1000⟩)] := by decide
  refine ⟨by rw [hheaps]; decide,?_⟩
  rw [hheaps]
  have h₁ : ∀ a, HeapMemory.Covers ⟨8,2,0x1030⟩ a ↔ 0x1030 ≤ a ∧ a < 0x1040 := fun _ => Iff.rfl
  have h₂ : ∀ a, HeapMemory.Covers ⟨16,3,0x1000⟩ a ↔ 0x1000 ≤ a ∧ a < 0x1030 := fun _ => Iff.rfl
  simp only [List.mem_cons,List.not_mem_nil,or_false]
  rintro e (rfl | rfl) e' (rfl | rfl) hne a ha ha'
  · exact hne rfl
  · rw [h₁] at ha
    rw [h₂] at ha'
    omega
  · rw [h₂] at ha
    rw [h₁] at ha'
    omega
  · exact hne rfl

theorem frames_released_sideBySide :
    findFrame (Session.run sideBySide).callback.mHeaps 0x102f = some (1,2) :=
  ((frames_released sideBySide mapped_sideBySide _ (List.Perm.refl _)).1
    1 ⟨16,3,0x1000⟩ 2 15 (by decide) (by decide) (by decide) (by decide)).1

/-- What is released here is released in a `World` too, if its tables lead to the same memory. -/
theorem Session.released_eq {w : World} {p : Obj} {d : CameraDevice} (s : Session)
    (hd : w.state.objects p = some d)
    (hsame : ∀ id, (d.mMemoryMap id).map w.memory = (s.mMemoryMap id).map some)
    (id index : UInt32) :
    w.releaseRecordingFrameLocked p id index =
      some (s.releaseRecordingFrameLocked d.mDevice.isSome id index) := by
  rw [World.releaseRecordingFrameLocked,hd,Option.map_some,hsame,
    Session.releaseRecordingFrameLocked]

end Frames
end Camera
end Kitakami

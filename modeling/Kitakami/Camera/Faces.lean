import Kitakami.Base.Bytes

/-!
# Sony face metadata over HIDL

The provider packs the vendor's face records, of 100 bytes each, into a vector
of `CameraFace` slots of 48 bytes, with slot 0 as a header. The extension
library unpacks them in `DeviceCallback::dataCallback`. The two run in different
processes, so each has a width of `size_t` of its own.
-/

namespace Kitakami
namespace Camera

/-- A pointer into a buffer. -/
structure Ptr where
  buf : Bytes
  off : ℕ

/-- The `n` bytes at a pointer, if they can be read. -/
def Ptr.read (p : Ptr) (n : ℕ) : Option (List UInt8) :=
  if p.off + n ≤ p.buf.size then some ((List.range n).map fun i => p.buf.get (p.off+i)) else none

theorem Ptr.read_of_le {p : Ptr} {n : ℕ} (h : p.off + n ≤ p.buf.size) :
    p.read n = some ((List.range n).map fun i => p.buf.get (p.off+i)) := if_pos h

/-- `SonyFrameMetadata`; no `faces` is the null pointer. -/
structure SonyFrameMetadata where
  number_of_faces : BitVec 32
  faces : Option Ptr
  extra : BitVec 32

def kSonyMetadataMagic : BitVec 32 := 0x534f4e59#32

def kSonyFaceSize : ℕ := 100

/-- `sizeof(CameraFace)`. -/
def cameraFaceSize : ℕ := 48

/-- A value as a `size_t` of `w` bits. -/
def sizeT (w : ℕ) (x : ℤ) : ℕ := (x%2^w).toNat

theorem sizeT_natCast (w x : ℕ) : sizeT w x = x % 2^w := by
  have hc : ((x : ℤ)%2^w) = ((x%2^w : ℕ) : ℤ) := by push_cast; rfl
  rw [sizeT,hc,Int.toNat_natCast]

theorem sizeT_of_lt {w x : ℕ} (h : x < 2^w) : sizeT w x = x := by
  rw [sizeT_natCast,Nat.mod_eq_of_lt h]

/-! ## The vector of faces -/

/-- `hidl_vec<CameraFace>`. -/
structure FaceVec where
  count : ℕ
  data : Bytes
  size_eq : data.size = cameraFaceSize*count

namespace FaceVec

def empty : FaceVec := ⟨0,Bytes.zeros 0,rfl⟩

/-- `resize` of an empty vector: new slots are not initialised. -/
def resize (n : ℕ) (garbage : ℕ → UInt8) : Option FaceVec :=
  if n < 2^32 then some ⟨n,⟨cameraFaceSize*n,garbage⟩,rfl⟩ else none

def store (v : FaceVec) (o n : ℕ) (f : ℕ → UInt8) : Option FaceVec :=
  if n = 0 ∨ o + n ≤ v.data.size then some { v with data := v.data.put o n f, size_eq := v.size_eq }
  else none

/-- `memset(faces.data(), c, n)`. -/
def memset (v : FaceVec) (c : UInt8) (n : ℕ) : Option FaceVec := v.store 0 n fun _ => c

/-- `memcpy(&faces[i], p, n)`. -/
def memcpy (v : FaceVec) (i : ℕ) (p : Ptr) (n : ℕ) : Option FaceVec :=
  if p.off + n ≤ p.buf.size then v.store (cameraFaceSize*i) n fun k => p.buf.get (p.off+k) else none

/-- `faces[i].rect[k] = x`. -/
def setRect (v : FaceVec) (i k : ℕ) (x : BitVec 32) : Option FaceVec :=
  v.store (cameraFaceSize*i + 4*k) 4 (Bytes.byteOf x.toNat)

/-- `faces[i].rect[k]`. -/
def rect (v : FaceVec) (i k : ℕ) : Option (BitVec 32) :=
  (v.data.rd (cameraFaceSize*i + 4*k)).map (BitVec.ofNat 32)

/-- `&faces[i]`. -/
def ptr (v : FaceVec) (i : ℕ) : Ptr := ⟨v.data,cameraFaceSize*i⟩

variable {v v' : FaceVec} {o n : ℕ} {f : ℕ → UInt8}

theorem store_spec (h : o + n ≤ v.data.size) :
    ∃ v', v.store o n f = some v' ∧ v'.count = v.count ∧ v'.data = v.data.put o n f :=
  ⟨_,if_pos (Or.inr h),rfl,rfl⟩

/-- Assigning a word of a rectangle changes nothing else. -/
theorem setRect_spec {i k : ℕ} {x : BitVec 32} (hi : i < v.count) (hk : k < 4) :
    ∃ v', v.setRect i k x = some v' ∧ v'.count = v.count ∧ v'.rect i k = some x ∧
      (∀ l, l ≠ k → v'.rect i l = v.rect i l) := by
  have hs := v.size_eq
  unfold cameraFaceSize at hs
  obtain ⟨v',hv',hc,hd⟩ := v.store_spec (o:=cameraFaceSize*i + 4*k) (n:=4)
    (f:=Bytes.byteOf x.toNat) (by unfold cameraFaceSize; omega)
  refine ⟨v',hv',hc,?_,fun l hl => ?_⟩
  · have hr : cameraFaceSize*i + 4*k + 4 ≤ v'.data.size := by
      rw [hd,Bytes.size_put]
      unfold cameraFaceSize
      omega
    rw [rect,Bytes.rd_of_le hr,Option.map_some,hd,Bytes.word_put_byteOf,u32_of_lt x.isLt]
    exact congrArg some (BitVec.ofNat_toNat 32 x |>.trans (BitVec.setWidth_eq x))
  · have hw : v'.data.word (cameraFaceSize*i + 4*l) = v.data.word (cameraFaceSize*i + 4*l) := by
      rw [hd]
      exact (Bytes.frame_put _ _ _ _).word fun j hj => by omega
    simp only [rect,Bytes.rd,hd,Bytes.size_put] at hw ⊢
    rw [hw]

/-- Copying whole slots from slot 1 on leaves the header alone. -/
theorem memcpy_spec {p : Ptr} (hp : p.off + n ≤ p.buf.size) (hn : cameraFaceSize + n ≤ v.data.size) :
    ∃ v', v.memcpy 1 p n = some v' ∧ v'.count = v.count ∧ (∀ k < 4, v'.rect 0 k = v.rect 0 k) ∧
      (v'.ptr 1).read n = p.read n := by
  obtain ⟨v',hv',hc,hd⟩ := v.store_spec (o:=cameraFaceSize*1) (n:=n)
    (f:=fun k => p.buf.get (p.off+k)) (by omega)
  refine ⟨v',by rw [memcpy,if_pos hp,hv'],hc,fun k hk => ?_,?_⟩
  · have hw : v'.data.word (cameraFaceSize*0 + 4*k) = v.data.word (cameraFaceSize*0 + 4*k) := by
      rw [hd]
      exact (Bytes.frame_put _ _ _ _).word fun j hj => by unfold cameraFaceSize; omega
    simp only [rect,Bytes.rd,hd,Bytes.size_put] at hw ⊢
    rw [hw]
  · have hv : cameraFaceSize*1 + n ≤ v'.data.size := by
      rw [hd,Bytes.size_put]
      omega
    rw [Ptr.read_of_le (p:=v'.ptr 1) hv,Ptr.read_of_le hp]
    refine congrArg some (List.map_congr_left fun i hi => ?_)
    have hi := List.mem_range.mp hi
    simp only [ptr,hd]
    rw [Bytes.get_put_inside _ _ ⟨by omega,by omega⟩,Nat.add_sub_cancel_left]

end FaceVec

/-! ## The provider's side -/

/-- `number_of_faces > 0 && faces != nullptr`. -/
def SonyFrameMetadata.HasFaces (md : SonyFrameMetadata) : Prop :=
  0 < md.number_of_faces.toInt ∧ md.faces.isSome

instance (md : SonyFrameMetadata) : Decidable md.HasFaces := inferInstanceAs (Decidable (_ ∧ _))

/-- The bytes of the records that are sent. -/
def SonyFrameMetadata.bytes (md : SonyFrameMetadata) (w : ℕ) : ℕ :=
  if md.HasFaces then sizeT w (md.number_of_faces.toInt*kSonyFaceSize) else 0

def toSonyHidlMetadata (w : ℕ) (garbage : ℕ → UInt8) : Option SonyFrameMetadata → Option FaceVec
  | none => some FaceVec.empty
  | some md =>
    let bytes := md.bytes w
    (FaceVec.resize (sizeT w (1 + sizeT w (bytes + cameraFaceSize - 1)/cameraFaceSize)) garbage).bind
      fun v => (v.memset 0 (sizeT w (v.count*cameraFaceSize))).bind
      fun v => (v.setRect 0 0 kSonyMetadataMagic).bind
      fun v => (v.setRect 0 1 md.extra).bind
      fun v => (v.setRect 0 2 (if 0 < bytes then md.number_of_faces else 0)).bind
      fun v => if 0 < bytes then md.faces.bind fun faces => v.memcpy 1 faces bytes else some v

/-! ## The extension library's side -/

/-- The memory of a client; `data` is where its heap is mapped. -/
structure HeapMemory where
  mBufSize : UInt32
  mNumBufs : UInt32
  data : UInt32
  deriving DecidableEq

def kNoMemory : UInt32 := 4294967295

/-- `DeviceCallback` with one heap for each identifier; `F` and `U` are the types of its data
callback and of the callback's user pointer. -/
structure DeviceCallback (F U : Type) where
  mData : Option F
  mUser : U
  mHeaps : List (UInt32 × HeapMemory)
  mNextId : UInt32
  keys : (mHeaps.map Prod.fst).Nodup

/-- A call of the data callback. -/
structure DataCall (F U : Type) where
  callback : F
  msgType : ℕ
  mem : Option HeapMemory
  bufferIndex : UInt32
  metadata : Option SonyFrameMetadata
  user : U

variable {F U : Type}

def DeviceCallback.findHeapLocked (d : DeviceCallback F U) (memId index : UInt32) :
    Option HeapMemory :=
  (d.mHeaps.lookup memId).bind fun m => if index ≥ m.mNumBufs then none else some m

/-- What `dataCallback` makes of the vector: no metadata, metadata, or an error. -/
def readMetadata (w : ℕ) (faces : FaceVec) : Option (Except Unit (Option SonyFrameMetadata)) :=
  if 0 < faces.count then
    (faces.rect 0 0).bind fun magic =>
      if magic = kSonyMetadataMagic then
        (faces.rect 0 1).bind fun extra =>
        (faces.rect 0 2).bind fun n =>
          let available := sizeT w ((faces.count - 1 : ℕ)*cameraFaceSize)
          if n.toInt < 0 ∨ available < sizeT w (n.toInt*kSonyFaceSize) then some (.error ())
          else
            some (.ok (some ⟨n,if 0 < n.toInt then some (faces.ptr 1) else none,extra⟩))
      else some (.ok none)
  else some (.ok none)

/-- `dataCallback`: the call it makes, if any. -/
def DeviceCallback.dataCallback (w : ℕ) (d : DeviceCallback F U) (msgType : ℕ)
    (data bufferIndex : UInt32) (faces : FaceVec) : Option (Option (DataCall F U)) :=
  let mem := d.findHeapLocked data bufferIndex
  match d.mData with
  | none => some none
  | some callback =>
    if mem = none ∧ data ≠ kNoMemory then some none
    else
      (readMetadata w faces).map fun
        | .error _ => none
        | .ok mdp => some ⟨callback,msgType,mem,bufferIndex,mdp,d.mUser⟩

/-! ## The round trip -/

/-- The bytes of the records, if they can be read. -/
def SonyFrameMetadata.records (md : SonyFrameMetadata) : Option (List UInt8) :=
  md.faces.bind fun p => p.read (md.number_of_faces.toInt*kSonyFaceSize).toNat

/-- What the vendor may hand to the provider: a count whose records are shorter than 2^32 bytes,
and all of them readable. -/
structure SonyFrameMetadata.Sendable (md : SonyFrameMetadata) : Prop where
  count : md.number_of_faces.toInt*kSonyFaceSize < 2^32
  readable : md.HasFaces → md.records.isSome

/-- What arrives for a metadata pointer. -/
def Arrived : Option SonyFrameMetadata → Option SonyFrameMetadata → Prop
  | none, r => r = none
  | some md, r => ∃ md', r = some md' ∧ md'.extra = md.extra ∧
      if md.HasFaces then
        md'.number_of_faces = md.number_of_faces ∧ md'.records = md.records ∧ md'.records.isSome
      else md'.number_of_faces = 0 ∧ md'.faces = none

variable {w w' : ℕ} {md : SonyFrameMetadata}

/-- The records' size as a number, without wrapping. -/
theorem SonyFrameMetadata.bytes_eq (hw : 32 ≤ w) (hm : md.Sendable) :
    md.bytes w = if md.HasFaces then (md.number_of_faces.toInt*kSonyFaceSize).toNat else 0 := by
  unfold bytes
  by_cases hf : md.HasFaces
  · rw [if_pos hf,if_pos hf]
    have h : ((md.number_of_faces.toInt*kSonyFaceSize).toNat : ℤ) =
        md.number_of_faces.toInt*kSonyFaceSize :=
      Int.toNat_of_nonneg (mul_nonneg hf.1.le (by decide))
    have hlt := hm.count
    have hp : 2^32 ≤ 2^w := Nat.pow_le_pow_right (by decide) hw
    have hs := sizeT_of_lt (w:=w) (x:=(md.number_of_faces.toInt*kSonyFaceSize).toNat) (by omega)
    rwa [h] at hs
  · rw [if_neg hf,if_neg hf]

theorem SonyFrameMetadata.bytes_lt (hw : 32 ≤ w) (hm : md.Sendable) : md.bytes w + 95 < 2^32 := by
  have hc := hm.count
  rw [bytes_eq hw hm]
  unfold kSonyFaceSize at hc ⊢
  split <;> omega

theorem SonyFrameMetadata.bytes_pos (hw : 32 ≤ w) (hm : md.Sendable) :
    0 < md.bytes w ↔ md.HasFaces := by
  rw [bytes_eq hw hm]
  unfold kSonyFaceSize
  split
  · case _ h =>
    have := h.1
    simp only [h,iff_true]
    omega
  · simp_all

/-- The vector the provider sends: the header, and from slot 1 on the records. -/
theorem toSonyHidlMetadata_spec (garbage : ℕ → UInt8) (hw : 32 ≤ w) (hm : md.Sendable) :
    ∃ v, toSonyHidlMetadata w garbage (some md) = some v ∧
      v.count = 1 + (md.bytes w + 47)/48 ∧
      v.rect 0 0 = some kSonyMetadataMagic ∧ v.rect 0 1 = some md.extra ∧
      v.rect 0 2 = some (if md.HasFaces then md.number_of_faces else 0) ∧
      (md.HasFaces → (v.ptr 1).read (md.bytes w) = md.records) := by
  have hlt := SonyFrameMetadata.bytes_lt hw hm
  have hp : 2^32 ≤ 2^w := Nat.pow_le_pow_right (by decide) hw
  have hc₀ : sizeT w (1 + sizeT w (md.bytes w + cameraFaceSize - 1)/cameraFaceSize) =
      1 + (md.bytes w + 47)/48 := by
    have h₁ := sizeT_of_lt (w:=w) (x:=md.bytes w + 47) (by omega)
    have h₂ := sizeT_of_lt (w:=w) (x:=1 + (md.bytes w + 47)/48) (by omega)
    have he : (md.bytes w : ℤ) + cameraFaceSize - 1 = (md.bytes w + 47 : ℕ) := by
      unfold cameraFaceSize
      omega
    rw [he,h₁,← h₂]
    push_cast
    rfl
  obtain ⟨v₀,hv₀,hn₀⟩ : ∃ v, FaceVec.resize (1 + (md.bytes w + 47)/48) garbage = some v ∧
      v.count = 1 + (md.bytes w + 47)/48 := ⟨_,if_pos (by omega),rfl⟩
  have hs₀ := v₀.size_eq
  unfold cameraFaceSize at hs₀
  have hz : sizeT w (v₀.count*cameraFaceSize) = v₀.data.size := by
    have h := sizeT_of_lt (w:=w) (x:=v₀.count*cameraFaceSize) (by unfold cameraFaceSize; omega)
    push_cast at h
    rw [h,v₀.size_eq,mul_comm]
  obtain ⟨v₁,hv₁,hn₁,-⟩ := v₀.store_spec (o:=0) (n:=v₀.data.size) (f:=fun _ => 0) (by omega)
  obtain ⟨v₂,hv₂,hn₂,hm₂,-⟩ := v₁.setRect_spec (i:=0) (k:=0) (x:=kSonyMetadataMagic) (by omega)
    (by decide)
  obtain ⟨v₃,hv₃,hn₃,he₃,ho₃⟩ := v₂.setRect_spec (i:=0) (k:=1) (x:=md.extra) (by omega) (by decide)
  obtain ⟨v₄,hv₄,hn₄,hc₄,ho₄⟩ := v₃.setRect_spec (i:=0) (k:=2)
    (x:=if 0 < md.bytes w then md.number_of_faces else 0) (by omega) (by decide)
  have hm₄ : v₄.rect 0 0 = some kSonyMetadataMagic := by
    rw [ho₄ 0 (by decide),ho₃ 0 (by decide),hm₂]
  have he₄ : v₄.rect 0 1 = some md.extra := by rw [ho₄ 1 (by decide),he₃]
  have hs₄ := v₄.size_eq
  unfold cameraFaceSize at hs₄
  have hfill : toSonyHidlMetadata w garbage (some md) =
      if 0 < md.bytes w then md.faces.bind fun faces => v₄.memcpy 1 faces (md.bytes w)
      else some v₄ := by
    rw [toSonyHidlMetadata,hc₀,hv₀,Option.bind_some,FaceVec.memset,hz,hv₁,Option.bind_some,hv₂,
      Option.bind_some,hv₃,Option.bind_some,hv₄,Option.bind_some]
  simp only [SonyFrameMetadata.bytes_pos hw hm] at hfill hc₄
  by_cases hf : md.HasFaces
  · obtain ⟨p,hp⟩ := Option.isSome_iff_exists.mp hf.2
    have hr := hm.readable hf
    have hb := SonyFrameMetadata.bytes_eq hw hm
    rw [if_pos hf] at hb hfill
    rw [SonyFrameMetadata.records,hp,Option.bind_some,← hb] at hr ⊢
    have hread : p.off + md.bytes w ≤ p.buf.size := by
      by_contra hgt
      rw [Ptr.read,if_neg hgt] at hr
      exact Bool.noConfusion hr
    obtain ⟨v₅,hv₅,hn₅,hr₅,hp₅⟩ := v₄.memcpy_spec hread (by unfold cameraFaceSize; omega)
    exact ⟨v₅,by rw [hfill,hp,Option.bind_some,hv₅],by omega,by rw [hr₅ 0 (by decide),hm₄],
      by rw [hr₅ 1 (by decide),he₄],by rw [hr₅ 2 (by decide),hc₄],fun _ => hp₅⟩
  · rw [if_neg hf] at hfill
    exact ⟨v₄,hfill,by omega,hm₄,he₄,hc₄,fun h => absurd h hf⟩

/-- What the extension library reads back. -/
theorem readMetadata_toSonyHidlMetadata (hw : 32 ≤ w) (hw' : 32 ≤ w') (garbage : ℕ → UInt8)
    (md : Option SonyFrameMetadata) (hm : ∀ m ∈ md, m.Sendable) :
    ∃ v mdp, toSonyHidlMetadata w garbage md = some v ∧
      readMetadata w' v = some (.ok mdp) ∧ Arrived md mdp := by
  cases md with
  | none => exact ⟨FaceVec.empty,none,rfl,rfl,rfl⟩
  | some md =>
    have hm := hm md rfl
    obtain ⟨v,hv,hn,hmagic,hextra,hcount,hrecords⟩ := toSonyHidlMetadata_spec
      garbage hw hm
    have hlt := SonyFrameMetadata.bytes_lt hw hm
    have hp : 2^32 ≤ 2^w' := Nat.pow_le_pow_right (by decide) hw'
    have havail : sizeT w' ((v.count - 1 : ℕ)*cameraFaceSize) = (md.bytes w + 47)/48*48 := by
      have h := sizeT_of_lt (w:=w') (x:=(v.count - 1)*cameraFaceSize)
        (by unfold cameraFaceSize; omega)
      push_cast at h ⊢
      rw [h,hn,Nat.add_sub_cancel_left,cameraFaceSize]
    have hread : ∀ {n : BitVec 32}, v.rect 0 2 = some n → 0 ≤ n.toInt →
        sizeT w' (n.toInt*kSonyFaceSize) ≤ (md.bytes w + 47)/48*48 →
        readMetadata w' v =
          some (.ok (some ⟨n,if 0 < n.toInt then some (v.ptr 1) else none,md.extra⟩)) := by
      intro n hr hn₀ hle
      simp only [readMetadata,if_pos (show 0 < v.count by omega),hmagic,hextra,hr,Option.bind_some,
        if_true,havail]
      rw [if_neg (by omega)]
    have hb := SonyFrameMetadata.bytes_eq hw hm
    by_cases hf : md.HasFaces
    · rw [if_pos hf] at hb hcount
      have hpos : 0 ≤ md.number_of_faces.toInt*kSonyFaceSize := mul_nonneg hf.1.le (by decide)
      have hs := sizeT_of_lt (w:=w') (x:=md.bytes w) (by omega)
      rw [hb,Int.toNat_of_nonneg hpos] at hs
      refine ⟨v,_,hv,hread hcount hf.1.le (by omega),_,rfl,rfl,?_⟩
      rw [if_pos hf]
      have hrec := hrecords hf
      rw [if_pos hf.1]
      rw [hb] at hrec
      have hsome := hm.readable hf
      rw [← hrec] at hsome
      exact ⟨rfl,hrec,hsome⟩
    · rw [if_neg hf] at hcount
      refine ⟨v,_,hv,hread hcount le_rfl (Nat.zero_le _),_,rfl,rfl,?_⟩
      rw [if_neg hf]
      exact ⟨rfl,rfl⟩

/-- For every metadata pointer of the vendor's the two sides agree: `dataCallback` calls back
unless there is no callback or the memory is unknown, and with the metadata that was sent. -/
theorem dataCallback_toSonyHidlMetadata (hw : 32 ≤ w) (hw' : 32 ≤ w') (garbage : ℕ → UInt8)
    (md : Option SonyFrameMetadata) (hm : ∀ m ∈ md, m.Sendable) (d : DeviceCallback F U)
    (msgType : ℕ) (data bufferIndex : UInt32) :
    ∃ v r, toSonyHidlMetadata w garbage md = some v ∧
      d.dataCallback w' msgType data bufferIndex v = some r ∧
      (r = none ↔ d.mData = none ∨ d.findHeapLocked data bufferIndex = none ∧ data ≠ kNoMemory) ∧
      ∀ call ∈ r, some call.callback = d.mData ∧ call.msgType = msgType ∧
        call.mem = d.findHeapLocked data bufferIndex ∧ call.bufferIndex = bufferIndex ∧
        call.user = d.mUser ∧ Arrived md call.metadata := by
  obtain ⟨v,mdp,hv,hr,ha⟩ := readMetadata_toSonyHidlMetadata hw hw' garbage md hm
  cases hc : d.mData with
  | none => exact ⟨v,none,hv,by simp [DeviceCallback.dataCallback,hc],by simp,by simp⟩
  | some callback =>
    by_cases hmem : d.findHeapLocked data bufferIndex = none ∧ data ≠ kNoMemory
    · refine ⟨v,none,hv,?_,by simpa using hmem,by simp⟩
      simp only [DeviceCallback.dataCallback,hc,if_pos hmem]
    · refine ⟨v,some ⟨callback,msgType,d.findHeapLocked data bufferIndex,bufferIndex,mdp,d.mUser⟩,
        hv,?_,by simpa using hmem,?_⟩
      · simp only [DeviceCallback.dataCallback,hc,if_neg hmem,hr,Option.map_some]
      · intro call hcall
        cases Option.mem_some_iff.mp hcall
        exact ⟨rfl,rfl,rfl,rfl,rfl,ha⟩

/-- Frame metadata with one face, and a listener that has a callback but no memory. -/
def oneFace : SonyFrameMetadata := ⟨1#32,some ⟨⟨100,fun i => UInt8.ofNat i⟩,0⟩,7#32⟩

def noHeaps : DeviceCallback Unit Unit := ⟨some (),(),[],1,List.nodup_nil⟩

theorem oneFace_sendable : oneFace.Sendable := ⟨by decide,fun _ => rfl⟩

theorem dataCallback_toSonyHidlMetadata_oneFace :
    ∃ v call, toSonyHidlMetadata 64 (fun _ => 0xa5) (some oneFace) = some v ∧
      noHeaps.dataCallback 32 1024 kNoMemory 0 v = some (some call) ∧
      Arrived (some oneFace) call.metadata := by
  obtain ⟨v,r,hv,hr,hn,hc⟩ := dataCallback_toSonyHidlMetadata
    (show 32 ≤ 64 by decide) (show 32 ≤ 32 by decide) (fun _ => 0xa5) (some oneFace) (fun m h => Option.mem_some_iff.mp h ▸ oneFace_sendable)
    noHeaps 1024 kNoMemory 0
  cases r with
  | none => exact absurd (hn.mp rfl) (by simp [noHeaps])
  | some call => exact ⟨v,call,hv,hr,(hc call rfl).2.2.2.2.2⟩

/-! ## Counts that are too large -/

/-- The records of a count that is let through are as long as the vector says, not only modulo 2^32:
their size wraps no more often than the size of the slots, or it is refused. -/
def FacesFit (faces : FaceVec) : Prop :=
  ∀ n, faces.rect 0 0 = some kSonyMetadataMagic → faces.rect 0 2 = some n → 0 ≤ n.toInt →
    n.toInt.toNat*kSonyFaceSize/2^32 ≤ (faces.count - 1)*cameraFaceSize/2^32 ∨
      (faces.count - 1)*cameraFaceSize % 2^32 < n.toInt.toNat*kSonyFaceSize % 2^32

/-- A comparison of remainders against one of the numbers. -/
theorem le_iff_of_mod_le {a b m : ℕ} (h : a%m ≤ b%m) : a ≤ b ↔ a/m ≤ b/m := by
  constructor
  · exact fun hab => Nat.div_le_div_right hab
  · intro hq
    calc a = m*(a/m) + a%m := (Nat.div_add_mod a m).symm
      _ ≤ m*(b/m) + b%m := Nat.add_le_add (Nat.mul_le_mul_left m hq) h
      _ = b := Nat.div_add_mod b m

theorem FaceVec.count_pos {v : FaceVec} {i k : ℕ} {x : BitVec 32} (h : v.rect i k = some x) :
    0 < v.count := by
  obtain ⟨y,hy,-⟩ := Option.map_eq_some_iff.mp h
  have hs := v.size_eq
  by_contra hzero
  rw [Bytes.rd,if_neg] at hy
  · cases hy
  · unfold cameraFaceSize at *
    omega

/-- When `dataCallback` finds metadata in the vector, and which. -/
theorem readMetadata_eq_some {w : ℕ} {faces : FaceVec} {md : SonyFrameMetadata} :
    readMetadata w faces = some (.ok (some md)) ↔
      faces.rect 0 0 = some kSonyMetadataMagic ∧ faces.rect 0 1 = some md.extra ∧
        faces.rect 0 2 = some md.number_of_faces ∧ 0 ≤ md.number_of_faces.toInt ∧
        sizeT w (md.number_of_faces.toInt*kSonyFaceSize) ≤
          sizeT w ((faces.count - 1 : ℕ)*cameraFaceSize) ∧
        md.faces = if 0 < md.number_of_faces.toInt then some (faces.ptr 1) else none := by
  obtain ⟨n,ptr,extra⟩ := md
  constructor
  · intro h
    unfold readMetadata at h
    split at h
    case _ hpos =>
      obtain ⟨magic,hmagic,h⟩ := Option.bind_eq_some_iff.mp h
      split at h
      case _ hm =>
        obtain ⟨extra',hextra,h⟩ := Option.bind_eq_some_iff.mp h
        obtain ⟨n',hn,h⟩ := Option.bind_eq_some_iff.mp h
        dsimp only at h
        split at h
        · cases Option.some.inj h
        case _ hle =>
          rw [not_or,not_lt,not_lt] at hle
          obtain ⟨rfl,rfl,rfl⟩ : n' = n ∧ _ = ptr ∧ extra' = extra := by simpa using h
          exact ⟨hm ▸ hmagic,hextra,hn,hle.1,hle.2,rfl⟩
      case _ => cases Option.some.inj h
    case _ => cases Option.some.inj h
  · rintro ⟨hmagic,hextra,hn,hpos,hle,hptr⟩
    dsimp only at hextra hn hpos hle hptr
    rw [readMetadata,if_pos (FaceVec.count_pos hmagic),hmagic,Option.bind_some,if_pos rfl,hextra,
      Option.bind_some,hn,Option.bind_some,hptr]
    exact if_neg (not_or.mpr ⟨not_lt.mpr hpos,not_lt.mpr hle⟩)

/-- A callback that is made gets what was found. -/
theorem dataCallback_metadata (w : ℕ) (d : DeviceCallback F U) (msgType : ℕ)
    (data bufferIndex : UInt32)
    (faces : FaceVec) (md : SonyFrameMetadata) :
    (∃ call, d.dataCallback w msgType data bufferIndex faces = some (some call) ∧
      call.metadata = some md) ↔
      d.mData.isSome ∧ ¬ (d.findHeapLocked data bufferIndex = none ∧ data ≠ kNoMemory) ∧
        readMetadata w faces = some (.ok (some md)) := by
  unfold DeviceCallback.dataCallback
  cases hc : d.mData with
  | none => simp
  | some callback =>
    by_cases hmem : d.findHeapLocked data bufferIndex = none ∧ data ≠ kNoMemory
    · simp only [if_pos hmem]
      simp [hmem]
    · simp only [if_neg hmem,Option.isSome_some,true_and,and_iff_right hmem]
      constructor
      · rintro ⟨call,hcall,hmd⟩
        obtain ⟨r,hr,he⟩ := Option.map_eq_some_iff.mp hcall
        cases r with
        | error e => cases he
        | ok mdp =>
          obtain rfl := Option.some.inj he
          exact hr.trans (congrArg (fun mdp => some (Except.ok mdp)) hmd)
      · intro hr
        exact ⟨⟨callback,msgType,d.findHeapLocked data bufferIndex,bufferIndex,some md,d.mUser⟩,
          by rw [hr]; rfl,rfl⟩

/-- What `FacesFit` rules out is a count that the check lets through in spite of its size. -/
theorem facesFit_iff (faces : FaceVec) :
    FacesFit faces ↔ ∀ md, readMetadata 32 faces = some (.ok (some md)) →
      md.number_of_faces.toInt*kSonyFaceSize ≤ ((faces.count - 1)*cameraFaceSize : ℕ) := by
  have hcast : ∀ n : BitVec 32, 0 ≤ n.toInt →
      n.toInt*kSonyFaceSize = (n.toInt.toNat*kSonyFaceSize : ℕ) := by
    intro n hn
    rw [Nat.cast_mul,Int.toNat_of_nonneg hn]
  have havail : (((faces.count - 1 : ℕ) : ℤ)*cameraFaceSize) =
      ((faces.count - 1)*cameraFaceSize : ℕ) := (Nat.cast_mul _ _).symm
  constructor
  · intro h md hmd
    obtain ⟨hmagic,-,hn,hpos,hle,-⟩ := readMetadata_eq_some.mp hmd
    rw [hcast _ hpos,havail,sizeT_natCast,sizeT_natCast] at hle
    rw [hcast _ hpos]
    rcases h _ hmagic hn hpos with hq | hlt
    · exact Int.ofNat_le.mpr ((le_iff_of_mod_le hle).mpr hq)
    · exact absurd hle (not_le.mpr hlt)
  · intro h n hmagic hn hpos
    by_cases hlt : (faces.count - 1)*cameraFaceSize % 2^32 < n.toInt.toNat*kSonyFaceSize % 2^32
    · exact Or.inr hlt
    · have hle := not_lt.mp hlt
      refine Or.inl ((le_iff_of_mod_le hle).mp (Int.ofNat_le.mp ?_))
      obtain ⟨extra,hextra⟩ : ∃ extra, faces.rect 0 1 = some extra := by
        have hcount := FaceVec.count_pos hmagic
        have hs := faces.size_eq
        unfold cameraFaceSize at hs
        exact ⟨_,by rw [FaceVec.rect,Bytes.rd_of_le (by unfold cameraFaceSize; omega)]; rfl⟩
      have hmd := h ⟨n,if 0 < n.toInt then some (faces.ptr 1) else none,extra⟩
        (readMetadata_eq_some.mpr ⟨hmagic,hextra,hn,hpos,?_,rfl⟩)
      · rwa [hcast n hpos] at hmd
      · rwa [hcast n hpos,havail,sizeT_natCast,sizeT_natCast]

/-- In a 32-bit process, the metadata that a callback gets never has more records than the vector
exactly if no count wraps through the check. -/
theorem dataCallback_enough_iff (d : DeviceCallback F U) (msgType : ℕ) (data bufferIndex : UInt32)
    (faces : FaceVec) :
    (∀ call md, d.dataCallback 32 msgType data bufferIndex faces = some (some call) →
      call.metadata = some md →
        md.number_of_faces.toInt*kSonyFaceSize ≤ ((faces.count - 1)*cameraFaceSize : ℕ)) ↔
      d.mData = none ∨ (d.findHeapLocked data bufferIndex = none ∧ data ≠ kNoMemory) ∨
        FacesFit faces := by
  have hforward := dataCallback_metadata 32 d msgType data bufferIndex faces
  constructor
  · intro h
    by_cases hc : d.mData = none
    · exact Or.inl hc
    by_cases hmem : d.findHeapLocked data bufferIndex = none ∧ data ≠ kNoMemory
    · exact Or.inr (Or.inl hmem)
    refine Or.inr (Or.inr ((facesFit_iff faces).mpr fun md hmd => ?_))
    obtain ⟨call,hcall,hcm⟩ := (hforward md).mpr ⟨Option.isSome_iff_ne_none.mpr hc,hmem,hmd⟩
    exact h call md hcall hcm
  · intro h call md hcall hcm
    obtain ⟨hc,hmem,hmd⟩ := (hforward md).mp ⟨call,hcall,hcm⟩
    rcases h with hnone | hnomem | hfit
    · exact absurd hnone (Option.isSome_iff_ne_none.mp hc)
    · exact absurd hnomem hmem
    · exact (facesFit_iff faces).mp hfit md hmd

/-- Two slots, with a count whose records are 4 bytes longer than 2^32. -/
def wrappedFaces : FaceVec :=
  ⟨2,⟨96,fun i => [0x59,0x4e,0x4f,0x53,0,0,0,0,0x29,0x5c,0x8f,0x02].getD i 0⟩,rfl⟩

theorem not_enough_wrappedFaces :
    ∃ call md, noHeaps.dataCallback 32 1024 kNoMemory 0 wrappedFaces = some (some call) ∧
      call.metadata = some md ∧ md.number_of_faces = 42949673#32 ∧
      ¬ md.number_of_faces.toInt*kSonyFaceSize ≤ ((wrappedFaces.count - 1)*cameraFaceSize : ℕ) := by
  have hmd : readMetadata 32 wrappedFaces =
      some (.ok (some ⟨42949673#32,some (wrappedFaces.ptr 1),0#32⟩)) :=
    readMetadata_eq_some.mpr ⟨by decide,by decide,by decide,by decide,by decide,rfl⟩
  obtain ⟨call,hcall,hcm⟩ := (dataCallback_metadata 32 noHeaps 1024 kNoMemory 0 wrappedFaces _).mpr
    ⟨rfl,by simp [noHeaps],hmd⟩
  exact ⟨call,_,hcall,hcm,rfl,by decide⟩

end Camera
end Kitakami

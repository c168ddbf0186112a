import Mathlib.Tactic

/-!
# Byte buffers with checked access

A buffer has a size and its bytes; reading or writing outside it fails. Words
are 32-bit, little-endian. `Bytes.Frame` says which bytes an operation may have
changed.
-/

namespace Kitakami

/-- A 32-bit unsigned value. -/
def u32 (x : ℕ) : ℕ := x%4294967296

/-- Subtraction of 32-bit values. -/
def sub32 (a b : ℕ) : ℕ := u32 (a + 4294967296 - b)

theorem u32_lt (x : ℕ) : u32 x < 4294967296 := Nat.mod_lt _ (by decide)

theorem u32_of_lt {x : ℕ} (h : x < 4294967296) : u32 x = x := Nat.mod_eq_of_lt h

@[simp] theorem u32_u32 (x : ℕ) : u32 (u32 x) = u32 x := Nat.mod_mod _ _

theorem u32_add_u32 (x y : ℕ) : u32 (x + u32 y) = u32 (x + y) := Nat.add_mod_mod _ _ _

theorem u32_u32_add (x y : ℕ) : u32 (u32 x + y) = u32 (x + y) := Nat.mod_add_mod _ _ _

theorem sub32_of_le {a b : ℕ} (h : b ≤ a) (ha : a < 4294967296) : sub32 a b = a - b := by
  unfold sub32 u32
  omega

theorem sub32_of_lt {a b : ℕ} (h : a < b) (hb : b < 4294967296) :
    sub32 a b = a + 4294967296 - b := by
  unfold sub32 u32
  omega

attribute [irreducible] u32

structure Bytes where
  size : ℕ
  get : ℕ → UInt8

namespace Bytes

def zeros (n : ℕ) : Bytes := ⟨n,fun _ => 0⟩

/-- The word at an offset, in range or not. -/
def word (b : Bytes) (o : ℕ) : ℕ :=
  (b.get o).toNat + 256*(b.get (o+1)).toNat + 65536*(b.get (o+2)).toNat +
    16777216*(b.get (o+3)).toNat

def rd (b : Bytes) (o : ℕ) : Option ℕ := if o + 4 ≤ b.size then some (b.word o) else none

def rdByte (b : Bytes) (o : ℕ) : Option UInt8 := if o < b.size then some (b.get o) else none

/-- The buffer with `n` bytes from `o` on replaced. -/
def put (b : Bytes) (o n : ℕ) (f : ℕ → UInt8) : Bytes :=
  { b with get := fun i => if o ≤ i ∧ i < o + n then f (i - o) else b.get i }

def store (b : Bytes) (o n : ℕ) (f : ℕ → UInt8) : Option Bytes :=
  if n = 0 ∨ o + n ≤ b.size then some (b.put o n f) else none

/-- Byte `k` of a word. -/
def byteOf (v k : ℕ) : UInt8 := UInt8.ofNat (v/256^k)

def wr (b : Bytes) (o v : ℕ) : Option Bytes := b.store o 4 (byteOf v)

def memcpy (b : Bytes) (o : ℕ) (src : Bytes) (p n : ℕ) : Option Bytes :=
  if n = 0 ∨ p + n ≤ src.size then b.store o n fun k => src.get (p+k) else none

def memmove (b : Bytes) (o p n : ℕ) : Option Bytes := b.memcpy o b p n

def memset (b : Bytes) (o : ℕ) (v : UInt8) (n : ℕ) : Option Bytes := b.store o n fun _ => v

theorem word_lt (b : Bytes) (o : ℕ) : b.word o < 4294967296 := by
  have h₀ := (b.get o).toNat_lt
  have h₁ := (b.get (o+1)).toNat_lt
  have h₂ := (b.get (o+2)).toNat_lt
  have h₃ := (b.get (o+3)).toNat_lt
  unfold word
  omega

theorem rd_eq_some {b : Bytes} {o v : ℕ} : b.rd o = some v ↔ o + 4 ≤ b.size ∧ b.word o = v := by
  unfold rd
  split <;> simp_all

theorem rd_of_le {b : Bytes} {o : ℕ} (h : o + 4 ≤ b.size) : b.rd o = some (b.word o) := if_pos h

theorem store_eq_some {b b' : Bytes} {o n : ℕ} {f : ℕ → UInt8} :
    b.store o n f = some b' ↔ (n = 0 ∨ o + n ≤ b.size) ∧ b.put o n f = b' := by
  unfold store
  split <;> simp_all

theorem wr_eq_some {b b' : Bytes} {o v : ℕ} :
    b.wr o v = some b' ↔ o + 4 ≤ b.size ∧ b.put o 4 (byteOf v) = b' := by
  simp [wr,store_eq_some]

theorem memcpy_eq_some {b b' src : Bytes} {o p n : ℕ} :
    b.memcpy o src p n = some b' ↔ (n = 0 ∨ (p + n ≤ src.size ∧ o + n ≤ b.size)) ∧
      b.put o n (fun k => src.get (p+k)) = b' := by
  unfold memcpy
  split
  · rw [store_eq_some]
    tauto
  · simp only [reduceCtorEq,false_iff]
    tauto

theorem memset_eq_some {b b' : Bytes} {o n : ℕ} {v : UInt8} :
    b.memset o v n = some b' ↔ (n = 0 ∨ o + n ≤ b.size) ∧ b.put o n (fun _ => v) = b' :=
  store_eq_some

@[simp] theorem size_zeros (n : ℕ) : (zeros n).size = n := rfl

@[simp] theorem size_put (b : Bytes) (o n : ℕ) (f : ℕ → UInt8) : (b.put o n f).size = b.size := rfl

theorem get_put_inside (b : Bytes) {o n i : ℕ} (f : ℕ → UInt8) (h : o ≤ i ∧ i < o + n) :
    (b.put o n f).get i = f (i - o) := if_pos h

theorem get_put_outside (b : Bytes) {o n i : ℕ} (f : ℕ → UInt8) (h : ¬ (o ≤ i ∧ i < o + n)) :
    (b.put o n f).get i = b.get i := if_neg h

/-- A word that has been written is read back. -/
theorem word_put_byteOf (b : Bytes) (o v : ℕ) : (b.put o 4 (byteOf v)).word o = u32 v := by
  have hb : ∀ k < 4, (b.put o 4 (byteOf v)).get (o+k) = byteOf v k := fun k hk => by
    rw [get_put_inside _ _ ⟨by omega,by omega⟩,Nat.add_sub_cancel_left]
  have h₀ : (b.put o 4 (byteOf v)).get o = byteOf v 0 := hb 0 (by decide)
  simp only [word,h₀,hb 1 (by decide),hb 2 (by decide),hb 3 (by decide),byteOf,UInt8.toNat_ofNat',
    u32]
  omega

/-! ## Frames -/

/-- The second buffer differs from the first only inside `R`. -/
structure Frame (R : ℕ → Prop) (b b' : Bytes) : Prop where
  size : b'.size = b.size
  get : ∀ i, ¬ R i → b'.get i = b.get i

variable {R R' : ℕ → Prop} {b b' b'' : Bytes}

theorem Frame.refl (R : ℕ → Prop) (b : Bytes) : Frame R b b := ⟨rfl,fun _ _ => rfl⟩

theorem Frame.trans (h : Frame R b b') (h' : Frame R b' b'') : Frame R b b'' :=
  ⟨h'.size.trans h.size,fun i hi => (h'.get i hi).trans (h.get i hi)⟩

theorem Frame.mono (h : Frame R b b') (hR : ∀ i, R i → R' i) : Frame R' b b' :=
  ⟨h.size,fun i hi => h.get i fun hr => hi (hR i hr)⟩

/-- A word outside the frame is unchanged. -/
theorem Frame.word (h : Frame R b b') {o : ℕ} (ho : ∀ k < 4, ¬ R (o+k)) : b'.word o = b.word o := by
  have h₀ := h.get o (ho 0 (by decide))
  simp only [Bytes.word,h₀,h.get _ (ho 1 (by decide)),h.get _ (ho 2 (by decide)),
    h.get _ (ho 3 (by decide))]

theorem frame_put (b : Bytes) (o n : ℕ) (f : ℕ → UInt8) :
    Frame (fun i => o ≤ i ∧ i < o + n) b (b.put o n f) :=
  ⟨rfl,fun _ hi => get_put_outside b f hi⟩

theorem wr_frame {o v : ℕ} (h : b.wr o v = some b') :
    Frame (fun i => o ≤ i ∧ i < o + 4) b b' := by
  obtain ⟨-,rfl⟩ := wr_eq_some.mp h
  exact frame_put b o 4 _

theorem memcpy_frame {src : Bytes} {o p n : ℕ} (h : b.memcpy o src p n = some b') :
    Frame (fun i => o ≤ i ∧ i < o + n) b b' := by
  obtain ⟨-,rfl⟩ := memcpy_eq_some.mp h
  exact frame_put b o n _

end Bytes
end Kitakami

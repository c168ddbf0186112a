import Mathlib.Data.List.Basic
import Mathlib.Tactic

/-!
# Words and frames in a byte stream

A word is written with its least significant byte first. `calls` takes results
off a stream by one call after another; where every frame is read back whole,
the calls give the frames' results and go on with the rest of the stream.
-/

namespace Kitakami
namespace Framing

/-- The `w` low bytes of `n`. -/
def bytesOf : ℕ → ℕ → List UInt8
  | 0, _ => []
  | w+1, n => UInt8.ofNat n :: bytesOf w (n/256)

def wordOf : List UInt8 → ℕ
  | [] => 0
  | b :: bs => b.toNat + 256*wordOf bs

@[simp] theorem length_bytesOf (w n : ℕ) : (bytesOf w n).length = w := by
  induction w generalizing n with
  | zero => rfl
  | succ w ih => simp [bytesOf,ih]

/-- A number that has room is read back. -/
theorem wordOf_bytesOf {w n : ℕ} (h : n < 256^w) : wordOf (bytesOf w n) = n := by
  induction w generalizing n with
  | zero =>
    rw [pow_zero,Nat.lt_one_iff] at h
    rw [h]
    rfl
  | succ w ih =>
    have hq : n/256 < 256^w := Nat.div_lt_of_lt_mul (by rwa [pow_succ'] at h)
    have hb : (UInt8.ofNat n).toNat = n%256 := UInt8.toNat_ofNat'
    rw [bytesOf,wordOf,ih hq,hb]
    omega

theorem bytesOf_wordOf (l : List UInt8) : bytesOf l.length (wordOf l) = l := by
  induction l with
  | nil => rfl
  | cons b bs ih =>
    have hb := b.toNat_lt
    have hq : (b.toNat + 256*wordOf bs)/256 = wordOf bs := by omega
    have hn : UInt8.ofNat (b.toNat + 256*wordOf bs) = b := by
      apply UInt8.toNat_inj.mp
      rw [UInt8.toNat_ofNat']
      omega
    rw [List.length_cons,wordOf,bytesOf,hq,hn,ih]

section Calls

variable {σ β M : Type}

/-- The results of `n` calls, each on what the one before left. -/
def calls (call : σ → β × σ) : ℕ → σ → List β
  | 0, _ => []
  | n+1, s => (call s).1 :: calls call n (call s).2

variable {call : List UInt8 → β × List UInt8} {frame : M → List UInt8} {f : M → β}

/-- Frames that are read back whole give their results, whatever follows them. -/
theorem calls_append {ms : List M} (h : ∀ m ∈ ms, ∀ s, call (frame m ++ s) = (f m,s))
    (n : ℕ) (s : List UInt8) :
    calls call (ms.length + n) (ms.flatMap frame ++ s) = ms.map f ++ calls call n s := by
  induction ms with
  | nil => simp
  | cons m ms ih =>
    have hm := h m (by simp) (ms.flatMap frame ++ s)
    have hrest := ih fun m' hm' => h m' (by simp [hm'])
    have hn : (m :: ms).length + n = (ms.length + n) + 1 := by
      rw [List.length_cons]
      omega
    rw [hn,List.flatMap_cons,List.append_assoc,calls,hm,hrest]
    rfl

end Calls

end Framing
end Kitakami

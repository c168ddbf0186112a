import Mathlib.Data.List.GetD
import Kitakami.Base.Decimal

/-!
# Printing into a byte buffer

`snprintf` writes what fits of a text and a terminator, and returns the length
of the whole text. A text printed where a string ends is appended to it.
-/

namespace Kitakami

/-- What `%d` with a minimal width and leading zeros prints. -/
def printInt (width : ℕ) (n : ℤ) : Str :=
  let sign : Str := if n < 0 then str "-" else []
  let digits := decimal n.natAbs
  sign ++ List.replicate (width - (sign.length + digits.length)) 48 ++ digits

def hexDigit (n : ℕ) : UInt8 := if n < 10 then UInt8.ofNat (48+n) else UInt8.ofNat (55+n)

/-- What `%02X` prints of a byte. -/
def printHex (c : UInt8) : Str := [hexDigit (c.toNat/16),hexDigit (c.toNat%16)]

def intMax : ℕ := 2147483647

namespace Bytes

/-- What fits of a text, and a terminator. -/
def print (b : Bytes) (o size : ℕ) (text : Str) : Bytes :=
  if size = 0 then b
  else b.put o (min text.length (size-1) + 1) fun k => (text.take (size-1)).getD k 0

/-- The result of `snprintf`: the length of the whole text, or an error if that is no `int`. -/
def printed (text : Str) : ℤ := if text.length ≤ intMax then text.length else -1

variable {b : Bytes} {o p size : ℕ} {t u text : Str}

@[simp] theorem size_print : (b.print o size text).size = b.size := by
  unfold print
  split <;> rfl

theorem get_print_outside {i : ℕ} (h : i < o ∨ o + size ≤ i) :
    (b.print o size text).get i = b.get i := by
  unfold print
  split
  · rfl
  · exact get_put_outside _ _ (by omega)

/-- The text that was printed stands there. -/
theorem isString_print (hpos : 0 < size) (hsize : o + size ≤ b.size) (hn : 0 ∉ text) :
    IsString (b.print o size text) o (text.take (size-1)) := by
  have hlen : (text.take (size-1)).length = min text.length (size-1) := by
    rw [List.length_take,Nat.min_comm]
  have hget (i : ℕ) (hi : i ≤ min text.length (size-1)) :
      (b.print o size text).get (o+i) = (text.take (size-1)).getD i 0 := by
    rw [print,if_neg hpos.ne',get_put_inside _ _ ⟨by omega,by omega⟩,Nat.add_sub_cancel_left]
  refine ⟨?_,?_,?_,?_⟩
  · rw [size_print]
    omega
  · intro i hi
    rw [hget i (by omega),List.getD_eq_getElem _ _ hi]
  · rw [hlen,hget _ le_rfl,List.getD_eq_default _ _ hlen.le]
  · exact fun h => hn (List.mem_of_mem_take h)

/-- A string that ends where another begins. -/
theorem IsString.append (ht : ∀ i, (h : i < t.length) → b.get (p+i) = t[i]) (hn : 0 ∉ t)
    (hu : IsString b (p + t.length) u) : IsString b p (t ++ u) := by
  have hlen : (t ++ u).length = t.length + u.length := List.length_append
  refine ⟨?_,?_,?_,?_⟩
  · have hsize := hu.size
    omega
  · intro i hi
    rcases Nat.lt_or_ge i t.length with hl | hr
    · rw [List.getElem_append_left hl,ht i hl]
    · have hget := hu.get (i - t.length) (by omega)
      rw [List.getElem_append_right hr,← hget]
      congr 1
      omega
  · have hlast := hu.last
    rwa [Nat.add_assoc,← hlen] at hlast
  · simp only [List.mem_append,not_or]
    exact ⟨hn,hu.noNul⟩

/-- A text printed at the end of a string. -/
theorem IsString.print (h : IsString b p t) (hpos : 0 < size)
    (hsize : p + t.length + size ≤ b.size) (hn : 0 ∉ text) :
    IsString (b.print (p + t.length) size text) p (t ++ text.take (size-1)) := by
  apply IsString.append ?_ h.noNul (isString_print hpos hsize hn)
  intro i hi
  rw [get_print_outside (by omega),h.get i hi]

end Bytes

theorem length_printInt_le {width k : ℕ} {n : ℤ} (hk : 0 < k) (hw : width ≤ k+1)
    (h : n.natAbs < 10^k) : (printInt width n).length ≤ k+1 := by
  have hdigits : (decimal n.natAbs).length ≤ k := length_decimal_le hk h
  have hsign : (if n < 0 then str "-" else []).length ≤ 1 := by split <;> decide
  simp only [printInt,List.length_append,List.length_replicate]
  omega

/-- A number that is not negative has no sign. -/
theorem length_printInt_of_nonneg {width k : ℕ} {n : ℤ} (hk : 0 < k) (hw : width ≤ k)
    (hn : 0 ≤ n) (h : n.natAbs < 10^k) : (printInt width n).length ≤ k := by
  have hdigits : (decimal n.natAbs).length ≤ k := length_decimal_le hk h
  simp only [printInt,if_neg (Int.not_lt.mpr hn),List.nil_append,List.length_append,
    List.length_replicate,List.length_nil]
  omega

theorem zero_notMem_decimal (n : ℕ) : 0 ∉ decimal n := by
  intro h
  have hd := mem_decimal h
  revert hd
  decide

theorem zero_notMem_printInt (width : ℕ) (n : ℤ) : 0 ∉ printInt width n := by
  have hsign : (0 : UInt8) ∉ (if n < 0 then str "-" else []) := by split <;> decide
  simp only [printInt,List.mem_append,List.mem_replicate,not_or]
  exact ⟨⟨hsign,fun h => absurd h.2 (by decide)⟩,zero_notMem_decimal _⟩

/-- Digits are what prints their value in their width. -/
theorem printInt_digitsValue {s : Str} (hs : ∀ d ∈ s, isDigit d = true) (hne : s ≠ []) :
    printInt s.length (digitsValue s) = s := by
  have hlt := digitsValue_lt hs
  have hlen : (decimal (digitsValue s)).length ≤ s.length :=
    length_decimal_le (List.length_pos_iff.mpr hne) hlt
  have hnat : ((digitsValue s : ℕ) : ℤ).natAbs = digitsValue s := rfl
  have hneg : ¬ ((digitsValue s : ℕ) : ℤ) < 0 := by omega
  simp only [printInt,if_neg hneg,List.nil_append,List.length_nil,Nat.zero_add,hnat]
  refine digitsValue_inj ?_ hs ?_ ?_
  · intro d hd
    rcases List.mem_append.mp hd with hd | hd
    · rw [(List.mem_replicate.mp hd).2]
      rfl
    · exact isDigit_of_mem hd
  · simp only [List.length_append,List.length_replicate]
    omega
  · rw [digitsValue_zeros,digitsValue_decimal]

/-- What prints a number that is not negative are digits of the same value. -/
theorem printInt_natCast (width n : ℕ) : (∀ d ∈ printInt width n, isDigit d = true) ∧
    digitsValue (printInt width n) = n := by
  have hneg : ¬ ((n : ℕ) : ℤ) < 0 := by omega
  have hnat : ((n : ℕ) : ℤ).natAbs = n := rfl
  simp only [printInt,if_neg hneg,List.nil_append,hnat]
  refine ⟨fun d hd => ?_,?_⟩
  · rcases List.mem_append.mp hd with hd | hd
    · rw [(List.mem_replicate.mp hd).2]
      rfl
    · exact isDigit_of_mem hd
  · rw [digitsValue_zeros,digitsValue_decimal]

theorem hexDigit_ne_zero {n : ℕ} (h : n < 16) : hexDigit n ≠ 0 := by
  interval_cases n <;> decide

theorem zero_notMem_printHex (c : UInt8) : 0 ∉ printHex c := by
  have hc := c.toNat_lt
  have hhigh := hexDigit_ne_zero (n:=c.toNat/16) (by omega)
  have hlow := hexDigit_ne_zero (n:=c.toNat%16) (by omega)
  simp only [printHex,List.mem_cons,List.not_mem_nil,or_false,not_or]
  exact ⟨hhigh.symm,hlow.symm⟩

end Kitakami

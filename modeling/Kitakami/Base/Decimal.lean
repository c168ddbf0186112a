import Mathlib.Data.List.TakeWhile
import Kitakami.Base.Strings

/-!
# Numbers in text

A number is printed in decimal and read back: the digits are no blanks and no
sign, and the scan ends at the first byte that is no digit.
-/

namespace Kitakami

/-- `strtol` with base 10, for a `long` of 64 bits. -/
def strtol (s : Str) : ℤ :=
  let n := scanNumber s
  let value : ℤ := if n.1 then -n.2 else n.2
  max (-2^63) (min value (2^63-1))

theorem str_append (a b : String) : str (a ++ b) = str a ++ str b := by
  simp [str,String.toByteArray_append]

theorem str_ofList (cs : List Char) : str (String.ofList cs) = cs.flatMap String.utf8EncodeChar := by
  simp [str,List.utf8Encode]

/-- The digits of a number. -/
def decimal (n : ℕ) : Str := (Nat.toDigits 10 n).map fun c => UInt8.ofNat c.toNat

variable {n : ℕ}

theorem toNat_of_isDigit {c : Char} (h : c.isDigit) : 48 ≤ c.toNat ∧ c.toNat ≤ 57 := by
  simp only [Char.isDigit,Bool.and_eq_true,decide_eq_true_eq] at h
  exact ⟨UInt32.le_iff_toNat_le.mp h.1,UInt32.le_iff_toNat_le.mp h.2⟩

theorem isDigit_of_mem_toDigits {c : Char} (h : c ∈ Nat.toDigits 10 n) :
    48 ≤ c.toNat ∧ c.toNat ≤ 57 :=
  toNat_of_isDigit (Nat.isDigit_of_mem_toDigits (by decide) (by decide) h)

theorem str_toString (n : ℕ) : str (toString n) = decimal n := by
  rw [Nat.toString_eq_ofList_toDigits,str_ofList,decimal]
  have hcs : ∀ cs : List Char, (∀ c ∈ cs, 48 ≤ c.toNat ∧ c.toNat ≤ 57) →
      cs.flatMap String.utf8EncodeChar = cs.map fun c => UInt8.ofNat c.toNat := by
    intro cs h
    induction cs with
    | nil => rfl
    | cons c cs ih =>
      have hc := h c List.mem_cons_self
      have hlt : c.toNat ≤ 127 := by omega
      rw [List.flatMap_cons,List.map_cons,ih fun d hd => h d (List.mem_cons_of_mem c hd)]
      simp only [String.utf8EncodeChar,Char.toNat_val,hlt,if_true,List.singleton_append]
  exact hcs _ fun c => isDigit_of_mem_toDigits

theorem mem_decimal {d : UInt8} (h : d ∈ decimal n) : 48 ≤ d.toNat ∧ d.toNat ≤ 57 := by
  obtain ⟨c,hc,rfl⟩ := List.mem_map.mp h
  have hd := isDigit_of_mem_toDigits hc
  rw [UInt8.toNat_ofNat']
  omega

theorem isDigit_of_mem {d : UInt8} (h : d ∈ decimal n) : isDigit d = true := by
  have hd := mem_decimal h
  simp only [isDigit,Bool.and_eq_true,decide_eq_true_eq,UInt8.le_iff_toNat_le,UInt8.reduceToNat]
  exact hd

theorem decimal_ne_nil (n : ℕ) : decimal n ≠ [] := by
  simp [decimal,Nat.toDigits_ne_nil]

theorem length_decimal_le {k : ℕ} (hk : 0 < k) (h : n < 10^k) : (decimal n).length ≤ k := by
  rw [decimal,List.length_map]
  exact (Nat.length_toDigits_le_iff (by decide) hk).mpr h

/-- The value of the digits is the number. -/
theorem foldl_decimal (n : ℕ) : (decimal n).foldl (fun v d => 10*v + (d.toNat - 48)) 0 = n := by
  have hcs : ∀ (cs : List Char) (v : ℕ), (∀ c ∈ cs, 48 ≤ c.toNat ∧ c.toNat ≤ 57) →
      (cs.map fun c => UInt8.ofNat c.toNat).foldl (fun v d => 10*v + (d.toNat - 48)) v =
        Nat.ofDigitChars 10 cs v := by
    intro cs
    induction cs with
    | nil => exact fun _ _ => (Nat.ofDigitChars_nil).symm
    | cons c cs ih =>
      intro v h
      have hc := h c List.mem_cons_self
      have hmod : (UInt8.ofNat c.toNat).toNat = c.toNat := by
        rw [UInt8.toNat_ofNat']
        omega
      rw [List.map_cons,List.foldl_cons,ih _ fun d hd => h d (List.mem_cons_of_mem c hd),
        Nat.ofDigitChars_cons,hmod]
      rfl
  rw [decimal,hcs _ _ fun c => isDigit_of_mem_toDigits,Nat.ofDigitChars_ten_toDigits]

/-! ## Digits of a fixed number -/

/-- The value of a text of digits. -/
def digitsValue (s : Str) : ℕ := s.foldl (fun v d => 10*v + (d.toNat - 48)) 0

@[simp] theorem digitsValue_decimal (n : ℕ) : digitsValue (decimal n) = n := foldl_decimal n

theorem foldl_digits (s : Str) (v : ℕ) :
    s.foldl (fun v d => 10*v + (d.toNat - 48)) v = v*10^s.length + digitsValue s := by
  induction s generalizing v with
  | nil => simp [digitsValue]
  | cons d s ih =>
    simp only [digitsValue,List.foldl_cons,List.length_cons]
    rw [ih,ih (10*0 + _)]
    ring

theorem digitsValue_cons (d : UInt8) (s : Str) :
    digitsValue (d::s) = (d.toNat - 48)*10^s.length + digitsValue s := by
  rw [digitsValue,List.foldl_cons,foldl_digits]
  simp

theorem digitsValue_zeros (k : ℕ) (s : Str) :
    digitsValue (List.replicate k 48 ++ s) = digitsValue s := by
  induction k with
  | zero => rfl
  | succ k ih => simp [List.replicate_succ,digitsValue_cons,ih]

theorem digitsValue_lt {s : Str} (hs : ∀ d ∈ s, isDigit d = true) : digitsValue s < 10^s.length := by
  induction s with
  | nil => simp [digitsValue]
  | cons d s ih =>
    have hd := hs d List.mem_cons_self
    have hrest := ih fun e he => hs e (List.mem_cons_of_mem d he)
    simp only [isDigit,Bool.and_eq_true,decide_eq_true_eq,UInt8.le_iff_toNat_le,
      UInt8.reduceToNat] at hd
    rw [digitsValue_cons,List.length_cons,pow_succ]
    nlinarith [Nat.pos_of_ne_zero (pow_ne_zero s.length (by decide : (10 : ℕ) ≠ 0)),
      (by omega : d.toNat - 48 ≤ 9)]

/-- Texts of as many digits with the same value are the same. -/
theorem digitsValue_inj {s t : Str} (hs : ∀ d ∈ s, isDigit d = true)
    (ht : ∀ d ∈ t, isDigit d = true) (hlen : s.length = t.length)
    (h : digitsValue s = digitsValue t) : s = t := by
  induction s generalizing t with
  | nil => exact (List.length_eq_zero_iff.mp hlen.symm).symm
  | cons d s ih =>
    cases t with
    | nil => simp at hlen
    | cons e t =>
      have hlen' : s.length = t.length := by simpa using hlen
      have hs' : ∀ d ∈ s, isDigit d = true := fun c hc => hs c (List.mem_cons_of_mem d hc)
      have ht' : ∀ d ∈ t, isDigit d = true := fun c hc => ht c (List.mem_cons_of_mem e hc)
      have hsv := digitsValue_lt hs'
      have htv := digitsValue_lt ht'
      have hd := hs d List.mem_cons_self
      have he := ht e List.mem_cons_self
      simp only [isDigit,Bool.and_eq_true,decide_eq_true_eq,UInt8.le_iff_toNat_le,
        UInt8.reduceToNat] at hd he
      rw [digitsValue_cons,digitsValue_cons,← hlen'] at h
      rw [← hlen'] at htv
      have hhead : d.toNat - 48 = e.toNat - 48 := by
        have hpos : 0 < 10^s.length := by positivity
        have hdiv : ∀ a x : ℕ, x < 10^s.length → (a*10^s.length + x)/10^s.length = a := by
          intro a x hx
          rw [add_comm,Nat.add_mul_div_right _ _ hpos,Nat.div_eq_of_lt hx,zero_add]
        rw [← hdiv (d.toNat - 48) _ hsv,h,hdiv _ _ htv]
      have hde : d = e := UInt8.toNat_inj.mp (by omega)
      rw [hhead] at h
      rw [hde,ih hs' ht' hlen' (by omega)]

/-- A text of digits is read whole. -/
theorem scanNumber_digits {s : Str} (hs : ∀ d ∈ s, isDigit d = true) :
    s.dropWhile isSpace = s ∧ (s.head? ≠ some 45 ∧ s.head? ≠ some 43) ∧
      s.takeWhile isDigit = s ∧ scanNumber s = (false,digitsValue s) := by
  have htake : s.takeWhile isDigit = s := List.takeWhile_eq_self_iff.mpr hs
  have hdrop : s.dropWhile isSpace = s := by
    cases s with
    | nil => rfl
    | cons d s =>
      have hd := hs d List.mem_cons_self
      simp only [isDigit,Bool.and_eq_true,decide_eq_true_eq,UInt8.le_iff_toNat_le,
        UInt8.reduceToNat] at hd
      refine List.dropWhile_cons_of_neg ?_
      have h₁ : d ≠ 32 := by
        rintro rfl
        exact absurd hd.1 (by decide)
      have h₂ : ¬ d ≤ 13 := fun h => by
        have := UInt8.le_iff_toNat_le.mp h
        simp only [UInt8.reduceToNat] at this
        omega
      simp [isSpace,h₁,h₂]
  have hhead : s.head? ≠ some 45 ∧ s.head? ≠ some 43 := by
    constructor <;> intro h <;> exact absurd (hs _ (List.mem_of_mem_head? h)) (by decide)
  refine ⟨hdrop,hhead,htake,?_⟩
  simp only [scanNumber,hdrop,hhead.1,hhead.2,decide_false,Bool.false_or,Bool.false_eq_true,
    if_false,htake]
  rfl

theorem atoi_decimal (hn : n < 2^31) : atoi (decimal n) = n := by
  have hscan := (scanNumber_digits fun d (hd : d ∈ decimal n) => isDigit_of_mem hd).2.2.2
  have hcut : max (-2^63) (min (n : ℤ) (2^63-1)) = n := by omega
  rw [atoi,hscan,digitsValue_decimal]
  simp only [Bool.false_eq_true,if_false,hcut]
  exact Int32.toInt_ofInt_of_le (by omega) (by omega)

/-- After a blank the scan reads the number, up to a byte that is no digit. -/
theorem scanNumber_decimal (n : ℕ) {c : UInt8} (hc : isDigit c = false) (rest : Str) :
    scanNumber (32::(decimal n ++ c::rest)) = (false,n) := by
  obtain ⟨d,ds,hd⟩ := List.exists_cons_of_ne_nil (decimal_ne_nil n)
  have hmem : d ∈ decimal n := hd ▸ List.mem_cons_self
  have hb := mem_decimal hmem
  have hspace : isSpace d = false := by
    have h₁ : d ≠ 32 := fun h => by rw [h] at hb; exact absurd hb.1 (by decide)
    have h₂ : ¬ d ≤ 13 := fun h => by
      have := UInt8.le_iff_toNat_le.mp h
      simp only [UInt8.reduceToNat] at this
      omega
    simp [isSpace,h₁,h₂]
  have hsign : d ≠ 45 ∧ d ≠ 43 := by
    constructor <;> rintro rfl <;> exact absurd hb.1 (by decide)
  have hdrop : (32::(decimal n ++ c::rest)).dropWhile isSpace = decimal n ++ c::rest := by
    rw [List.dropWhile_cons_of_pos (by decide),hd,List.cons_append,
      List.dropWhile_cons_of_neg (by simp [hspace])]
  have htake : (decimal n ++ c::rest).takeWhile isDigit = decimal n := by
    rw [List.takeWhile_append_of_pos fun d hd => isDigit_of_mem hd,
      List.takeWhile_cons_of_neg (by simp [hc]),List.append_nil]
  have hhead : (decimal n ++ c::rest).head? = some d := by rw [hd]; rfl
  unfold scanNumber
  simp only [hdrop,hhead,Option.some.injEq,hsign,decide_false,Bool.false_or,Bool.false_eq_true,
    if_false,htake,foldl_decimal]

/-- The number is read as it was printed. -/
theorem strtol_decimal {c : UInt8} (hc : isDigit c = false) (rest : Str) (hn : n < 2^63) :
    strtol (32::(decimal n ++ c::rest)) = n := by
  simp only [strtol,scanNumber_decimal n hc rest,Bool.false_eq_true,if_false]
  omega

end Kitakami

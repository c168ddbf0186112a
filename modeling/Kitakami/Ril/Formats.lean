import Kitakami.Base.Printed

/-!
# The texts of the radio interface

A mobile network code is passed on as an integer that carries the number of its
digits in the upper four bits, `ril_mnc.h`. A short message comes as a text of
hexadecimal digits.
-/

namespace Kitakami
namespace Ril

/-! ## Network codes -/

/-- `INT_MAX`, which stands for an unknown code. -/
def mncUnknown : ℤ := 2^31 - 1

/-- `mnc::decode`. -/
def mncDecode (mnc : ℤ) : Str :=
  if mnc = mncUnknown ∨ mnc < 0 then []
  else
    let umnc := mnc.toNat
    let mncNumDigits := (umnc >>> 28) &&& 0xF
    let umnc := ((umnc <<< 4) % 2^32) >>> 4
    if umnc > 999 then []
    else match mncNumDigits with
      | 0 => decimal umnc
      | 2 => ((printInt 3 umnc).take 3).drop 1
      | 3 => (printInt 3 umnc).take 3
      | _ => []

/-- `mnc::encode` of a value and a number of digits. -/
def mncEncode (mnc numDigits : ℤ) : ℤ :=
  if mnc > 999 ∨ mnc < 0 then mncUnknown
  else if numDigits = 0 ∨ numDigits = 2 ∨ numDigits = 3 then
    ((numDigits.toNat <<< 28) ||| mnc.toNat : ℕ)
  else mncUnknown

/-- `std::stoi`, which throws if there is no number or it is no `int`. -/
def stoi (s : Str) : Option ℤ :=
  let t := s.dropWhile isSpace
  let u := if t.head? = some 45 ∨ t.head? = some 43 then t.tail else t
  let n := scanNumber s
  let value : ℤ := if n.1 then -n.2 else n.2
  if (u.takeWhile isDigit).isEmpty then none
  else if -2^31 ≤ value ∧ value < 2^31 then some value
  else none

/-- `mnc::encode` of a text; its length is passed on as an `int`. -/
def mncEncodeText (mnc : Str) : Option ℤ := (stoi mnc).map fun v => mncEncode v (Int.bmod mnc.length (2^32))

variable {s : Str}

theorem stoi_digits (hs : ∀ d ∈ s, isDigit d = true) (hne : s ≠ []) (hlt : digitsValue s < 2^31) :
    stoi s = some (digitsValue s : ℤ) := by
  obtain ⟨hdrop,⟨h₁,h₂⟩,htake,hscan⟩ := scanNumber_digits hs
  have hempty : s.isEmpty = false := by simpa using hne
  have hrange : -2^31 ≤ (digitsValue s : ℤ) ∧ (digitsValue s : ℤ) < 2^31 := by omega
  simp only [stoi,hdrop,h₁,h₂,or_self,if_false,htake,hscan,hempty,Bool.false_eq_true,if_pos hrange]

theorem stoi_nil : stoi [] = none := by decide

/-- The value and the number of digits stand side by side. -/
theorem mncEncode_eq {v k : ℕ} (hv : v ≤ 999) (hk : k = 0 ∨ k = 2 ∨ k = 3) :
    mncEncode v k = (k * 2^28 + v : ℕ) := by
  have hshift : (k <<< 28) ||| v = k * 2^28 + v := by
    rw [← Nat.shiftLeft_add_eq_or_of_lt (by omega),Nat.shiftLeft_eq]
  have hrange : ¬ ((v : ℤ) > 999 ∨ (v : ℤ) < 0) := by omega
  have hdigits : (k : ℤ) = 0 ∨ (k : ℤ) = 2 ∨ (k : ℤ) = 3 := by omega
  simp only [mncEncode,if_neg hrange,if_pos hdigits,Int.toNat_natCast,hshift]

theorem length_printInt_three {v : ℕ} (hv : v ≤ 999) : (printInt 3 v).length = 3 := by
  have hneg : ¬ ((v : ℕ) : ℤ) < 0 := by omega
  have hlen : (decimal v).length ≤ 3 := length_decimal_le (by decide) (by omega)
  have hnat : ((v : ℕ) : ℤ).natAbs = v := rfl
  simp only [printInt,if_neg hneg,List.nil_append,hnat,List.length_append,List.length_replicate,
    List.length_nil]
  omega

/-- What is printed for a value and a number of digits. -/
def mncText (k v : ℕ) : Str :=
  match k with
  | 0 => decimal v
  | 2 => (printInt 3 v).drop 1
  | 3 => printInt 3 v
  | _ => []

theorem mncDecode_eq {c : ℕ} (hc : c < 2^31 - 1) :
    mncDecode c = if c % 2^28 > 999 then [] else mncText (c / 2^28) (c % 2^28) := by
  have hknown : ¬ ((c : ℤ) = mncUnknown ∨ (c : ℤ) < 0) := by
    simp only [mncUnknown]
    omega
  have hdigits : (c >>> 28) &&& 0xF = c / 2^28 := by
    rw [Nat.shiftRight_eq_div_pow,show (0xF : ℕ) = 2^4 - 1 from rfl,Nat.and_two_pow_sub_one_eq_mod]
    omega
  have hvalue : ((c <<< 4) % 2^32) >>> 4 = c % 2^28 := by
    rw [Nat.shiftLeft_eq,Nat.shiftRight_eq_div_pow]
    omega
  simp only [mncDecode,if_neg hknown,Int.toNat_natCast,hdigits,hvalue]
  split
  · rfl
  · have hlen := length_printInt_three (v:=c % 2^28) (by omega)
    have htake : (printInt 3 (c % 2^28 : ℕ)).take 3 = printInt 3 (c % 2^28 : ℕ) :=
      List.take_of_length_le hlen.le
    rw [htake]
    rfl

theorem mncText_digits {k v : ℕ} : ∀ d ∈ mncText k v, isDigit d = true := by
  have hprint := (printInt_natCast 3 v).1
  unfold mncText
  split
  · exact fun d hd => isDigit_of_mem hd
  · exact fun d hd => hprint d (List.mem_of_mem_drop hd)
  · exact hprint
  · simp

/-- What is decoded comes from a number of digits and a value of three digits. -/
theorem mncDecode_cases {c : ℤ} (hc : c < 2^31) : mncDecode c = [] ∨
    ∃ k v : ℕ, c = (k * 2^28 + v : ℕ) ∧ v ≤ 999 ∧ mncDecode c = mncText k v := by
  by_cases hunknown : c = mncUnknown ∨ c < 0
  · exact Or.inl (by rw [mncDecode,if_pos hunknown])
  · simp only [mncUnknown] at hunknown
    obtain ⟨n,rfl⟩ := Int.eq_ofNat_of_zero_le (by omega : 0 ≤ c)
    have hlt : n < 2^31 - 1 := by omega
    by_cases hv : n % 2^28 > 999
    · exact Or.inl (by rw [mncDecode_eq hlt,if_pos hv])
    · exact Or.inr ⟨n / 2^28,n % 2^28,by congr 1; omega,by omega,by rw [mncDecode_eq hlt,if_neg hv]⟩

/-- The encoding of a short text of digits. -/
theorem mncEncodeText_digits (hs : ∀ d ∈ s, isDigit d = true) (hpos : 0 < s.length)
    (hlen : s.length ≤ 3) : digitsValue s ≤ 999 ∧ mncEncodeText s =
      some (if s.length = 1 then mncUnknown else (s.length * 2^28 + digitsValue s : ℕ)) := by
  have hpow : 10^s.length ≤ 10^3 := Nat.pow_le_pow_right (by decide) hlen
  have hlt := digitsValue_lt hs
  have hv : digitsValue s ≤ 999 := by omega
  have hmod : Int.bmod (s.length : ℤ) (2^32) = s.length := by
    rw [Int.bmod_eq_of_le] <;> omega
  refine ⟨hv,?_⟩
  rw [mncEncodeText,stoi_digits hs (List.length_pos_iff.mp hpos) (by omega),Option.map_some,hmod]
  split
  case isTrue hone =>
    have hrange : ¬ ((digitsValue s : ℤ) > 999 ∨ (digitsValue s : ℤ) < 0) := by omega
    have hdigits : ¬ ((s.length : ℤ) = 0 ∨ (s.length : ℤ) = 2 ∨ (s.length : ℤ) = 3) := by omega
    rw [mncEncode,if_neg hrange,if_neg hdigits]
  case isFalse hone => rw [mncEncode_eq hv (by omega)]

theorem mncText_length {k v : ℕ} (hv : v ≤ 999) (hne : mncText k v ≠ []) :
    k = 0 ∧ 0 < (mncText k v).length ∧ (mncText k v).length ≤ 3 ∨ k = 2 ∧ (mncText k v).length = 2 ∨
      k = 3 ∧ (mncText k v).length = 3 := by
  have hthree := length_printInt_three hv
  match k,hne with
  | 0,_ =>
    exact Or.inl ⟨rfl,List.length_pos_iff.mpr (decimal_ne_nil v),
      length_decimal_le (by decide) (by omega)⟩
  | 2,_ => exact Or.inr (Or.inl ⟨rfl,by rw [mncText,List.length_drop,hthree]⟩)
  | 3,_ => exact Or.inr (Or.inr ⟨rfl,hthree⟩)
  | 1,hne => exact absurd rfl hne
  | k + 4,hne => exact absurd rfl hne

theorem mncEncode_lt (v k : ℤ) : mncEncode v k < 2^31 := by
  unfold mncEncode
  split
  · decide
  · split
    case isTrue hrange hk =>
      have hor : (k.toNat <<< 28) ||| v.toNat = k.toNat * 2^28 + v.toNat := by
        rw [← Nat.shiftLeft_add_eq_or_of_lt (by omega),Nat.shiftLeft_eq]
      rw [hor]
      omega
    case isFalse => decide

/-- Encoding what was decoded gives a code with its own number of digits. -/
theorem encode_mncText {k v : ℕ} {c : ℤ} (hv : v ≤ 999) (hc : mncEncodeText (mncText k v) = some c) :
    k = 0 ∧ (c = mncUnknown ∨ 2^29 ≤ c) ∨
      (k = 2 ∨ k = 3) ∧ (mncText k v).length = k ∧
        c = (k * 2^28 + digitsValue (mncText k v) : ℕ) := by
  have hne : mncText k v ≠ [] := by
    intro hnil
    rw [hnil,mncEncodeText,stoi_nil] at hc
    cases hc
  rcases mncText_length hv hne with ⟨rfl,hpos,hle⟩ | hk
  · left
    obtain ⟨-,henc⟩ := mncEncodeText_digits mncText_digits hpos hle
    rw [henc,Option.some.injEq] at hc
    refine ⟨rfl,?_⟩
    split at hc
    · exact Or.inl hc.symm
    · right
      omega
  · right
    have hlen : (k = 2 ∨ k = 3) ∧ (mncText k v).length = k := by
      rcases hk with ⟨rfl,h⟩ | ⟨rfl,h⟩
      · exact ⟨Or.inl rfl,h⟩
      · exact ⟨Or.inr rfl,h⟩
    obtain ⟨-,henc⟩ := mncEncodeText_digits (s:=mncText k v) mncText_digits (by omega) (by omega)
    rw [henc,if_neg (by omega),Option.some.injEq,hlen.2] at hc
    exact ⟨hlen.1,hlen.2,hc.symm⟩

/-- A leading zero is printed and cut off again. -/
theorem mncText_digitsValue (hs : ∀ d ∈ s, isDigit d = true) (hlen : s.length = 2 ∨ s.length = 3) :
    mncText s.length (digitsValue s) = s := by
  rcases hlen with hlen | hlen
  · have hprint := printInt_digitsValue (s:=48::s)
      (fun d hd => by
        rcases List.mem_cons.mp hd with rfl | hd
        · rfl
        · exact hs d hd) (by simp)
    rw [digitsValue_cons,List.length_cons,hlen] at hprint
    simp only [UInt8.reduceToNat,Nat.sub_self,Nat.zero_mul,Nat.zero_add] at hprint
    rw [hlen,mncText,hprint,List.drop_one,List.tail_cons]
  · have hprint := printInt_digitsValue hs (List.length_pos_iff.mp (by omega))
    rw [hlen] at hprint ⊢
    exact hprint

/-- A value that fits its number of digits is printed in full. -/
theorem digitsValue_mncText {k v : ℕ} (hk : k = 2 ∧ v ≤ 99 ∨ k = 3 ∧ v ≤ 999) :
    (mncText k v).length = k ∧ digitsValue (mncText k v) = v := by
  obtain ⟨hdigits,hval⟩ := printInt_natCast 3 v
  have hthree := length_printInt_three (v:=v) (by omega)
  rcases hk with ⟨rfl,hv⟩ | ⟨rfl,hv⟩
  · rw [mncText]
    cases hp : printInt 3 (v : ℤ) with
    | nil => simp [hp] at hthree
    | cons d t =>
      rw [hp,List.length_cons] at hthree
      rw [hp,digitsValue_cons,show t.length = 2 by omega] at hval
      rw [List.drop_one,List.tail_cons]
      refine ⟨by omega,?_⟩
      omega
  · exact ⟨hthree,hval⟩

/-- What is decoded again as it was: a text of two or three digits, and a code that carries its
number of digits and a value with no more of them. -/
theorem mnc_round_trip : (∀ s : Str, (mncEncodeText s).map mncDecode = some s ↔
      (s.length = 2 ∨ s.length = 3) ∧ ∀ d ∈ s, isDigit d = true) ∧
    ∀ c : Int32, mncEncodeText (mncDecode c.toInt) = some c.toInt ↔
      ∃ k v : ℕ, c.toInt = (k * 2^28 + v : ℕ) ∧ (k = 2 ∧ v ≤ 99 ∨ k = 3 ∧ v ≤ 999) := by
  constructor
  · intro s
    constructor
    · intro h
      obtain ⟨c,hc,hs⟩ := Option.map_eq_some_iff.mp h
      have hlt : c < 2^31 := by
        obtain ⟨w,-,rfl⟩ := Option.map_eq_some_iff.mp hc
        exact mncEncode_lt _ _
      rcases mncDecode_cases hlt with hnil | ⟨k,v,hcv,hv,htext⟩
      · rw [← hs,hnil,mncEncodeText,stoi_nil] at hc
        cases hc
      · obtain rfl : s = mncText k v := hs.symm.trans htext
        rcases encode_mncText hv hc with ⟨rfl,hbig⟩ | ⟨hk,hlen,-⟩
        · simp only [mncUnknown] at hbig
          omega
        · exact ⟨by omega,mncText_digits⟩
    · rintro ⟨hlen,hs⟩
      obtain ⟨hv,henc⟩ := mncEncodeText_digits hs (by omega) (by omega)
      rw [henc,if_neg (by omega),Option.map_some,Option.some.injEq,mncDecode_eq (by omega)]
      have hdiv : (s.length * 2^28 + digitsValue s) / 2^28 = s.length := by omega
      have hmod : (s.length * 2^28 + digitsValue s) % 2^28 = digitsValue s := by omega
      rw [hdiv,hmod,if_neg (by omega),mncText_digitsValue hs hlen]
  · intro c
    have hlt : c.toInt < 2^31 := c.toInt_lt
    constructor
    · intro h
      rcases mncDecode_cases hlt with hnil | ⟨k,v,hcv,hv,htext⟩
      · rw [hnil,mncEncodeText,stoi_nil] at h
        cases h
      · rw [htext] at h
        rcases encode_mncText hv h with ⟨rfl,hc⟩ | ⟨hk,hlen,hc⟩
        · simp only [mncUnknown] at hc
          omega
        · have hval := digitsValue_lt (mncText_digits (k:=k) (v:=v))
          rw [hlen] at hval
          refine ⟨k,v,hcv,?_⟩
          rcases hk with rfl | rfl
          · left
            omega
          · exact Or.inr ⟨rfl,hv⟩
    · rintro ⟨k,v,hcv,hk⟩
      obtain ⟨hlen,hval⟩ := digitsValue_mncText hk
      have hdiv : (k * 2^28 + v) / 2^28 = k := by omega
      have hmod : (k * 2^28 + v) % 2^28 = v := by omega
      rw [hcv,mncDecode_eq (by omega),hdiv,hmod,if_neg (by omega)]
      obtain ⟨-,henc⟩ := mncEncodeText_digits (s:=mncText k v) mncText_digits (by omega) (by omega)
      rw [henc,if_neg (by omega),hlen,hval]

/-! ## Hexadecimal texts -/

def invalidHexChar : UInt8 := 16

def hexCharToInt (c : UInt8) : UInt8 :=
  if 48 ≤ c ∧ c ≤ 57 then c - 48
  else if 65 ≤ c ∧ c ≤ 70 then c - 65 + 10
  else if 97 ≤ c ∧ c ≤ 102 then c - 97 + 10
  else invalidHexChar

/-- The loop of `convertHexStringToBytes` from one pair of characters on. -/
def convertPairs : Str → Option Str
  | c₁::c₂::rest =>
    let hexChar1 := hexCharToInt c₁
    let hexChar2 := hexCharToInt c₂
    if hexChar1 = invalidHexChar ∨ hexChar2 = invalidHexChar then none
    else (convertPairs rest).map fun bytes => ((hexChar1 <<< 4) ||| hexChar2)::bytes
  | _ => some []

/-- `convertHexStringToBytes`; `calloc` says whether there is memory. -/
def convertHexStringToBytes (response : Str) (calloc : Bool) : Option Str :=
  if response.length % 2 ≠ 0 then none
  else if calloc then convertPairs response
  else none

/-- `toupper`. -/
def toUpper (c : UInt8) : UInt8 := if 97 ≤ c ∧ c ≤ 122 then c - 32 else c

def isHexDigit (c : UInt8) : Bool :=
  (48 ≤ c && c ≤ 57) || (65 ≤ c && c ≤ 70) || (97 ≤ c && c ≤ 102)

theorem hexCharToInt_spec (c : UInt8) :
    (hexCharToInt c = invalidHexChar ↔ isHexDigit c = false) ∧ (isHexDigit c = true →
      (hexCharToInt c).toNat < 16 ∧ hexDigit (hexCharToInt c).toNat = toUpper c) := by
  have hall : ∀ n < 256,
      (hexCharToInt (UInt8.ofNat n) = invalidHexChar ↔ isHexDigit (UInt8.ofNat n) = false) ∧
      (isHexDigit (UInt8.ofNat n) = true → (hexCharToInt (UInt8.ofNat n)).toNat < 16 ∧
        hexDigit (hexCharToInt (UInt8.ofNat n)).toNat = toUpper (UInt8.ofNat n)) := by
    decide +kernel
  simpa using hall c.toNat c.toNat_lt

theorem isHexDigit_of_valid {c : UInt8} (h : hexCharToInt c ≠ invalidHexChar) :
    isHexDigit c = true := by
  by_contra hc
  rw [Bool.not_eq_true] at hc
  exact h ((hexCharToInt_spec c).1.mpr hc)

theorem hexDigit_inj {m n : ℕ} (hm : m < 16) (hn : n < 16) (h : hexDigit m = hexDigit n) : m = n := by
  have hall : ∀ m < 16, ∀ n < 16, hexDigit m = hexDigit n → m = n := by decide
  exact hall m hm n hn h

/-- The two halves of a byte. -/
theorem toNat_pair {x y : UInt8} (hx : x.toNat < 16) (hy : y.toNat < 16) :
    ((x <<< 4) ||| y).toNat = 16 * x.toNat + y.toNat := by
  have hshift : (x <<< 4).toNat = x.toNat <<< 4 := by
    rw [UInt8.toNat_shiftLeft]
    rw [Nat.shiftLeft_eq,Nat.shiftLeft_eq,show (4 : UInt8).toNat % 8 = 4 from rfl]
    omega
  rw [UInt8.toNat_or,hshift,← Nat.shiftLeft_add_eq_or_of_lt (by omega),Nat.shiftLeft_eq]
  omega

/-- The byte whose digits are the two characters. -/
theorem printHex_eq_iff {c₁ c₂ : UInt8} (h₁ : isHexDigit c₁ = true) (h₂ : isHexDigit c₂ = true)
    (x : UInt8) : printHex x = [toUpper c₁,toUpper c₂] ↔
      x = (hexCharToInt c₁ <<< 4) ||| hexCharToInt c₂ := by
  obtain ⟨hlt₁,hup₁⟩ := (hexCharToInt_spec c₁).2 h₁
  obtain ⟨hlt₂,hup₂⟩ := (hexCharToInt_spec c₂).2 h₂
  have hx := x.toNat_lt
  have hpair := toNat_pair hlt₁ hlt₂
  rw [printHex,← hup₁,← hup₂]
  constructor
  · intro h
    simp only [List.cons.injEq,and_true] at h
    have hhigh := hexDigit_inj (by omega) hlt₁ h.1
    have hlow := hexDigit_inj (by omega) hlt₂ h.2
    exact UInt8.toNat_inj.mp (by omega)
  · rintro rfl
    rw [hpair,show (16 * (hexCharToInt c₁).toNat + (hexCharToInt c₂).toNat) / 16 =
      (hexCharToInt c₁).toNat by omega,show (16 * (hexCharToInt c₁).toNat +
      (hexCharToInt c₂).toNat) % 16 = (hexCharToInt c₂).toNat by omega]

theorem convertPairs_eq_some (s : Str) (heven : s.length % 2 = 0) (b : Str) :
    convertPairs s = some b ↔ s.all isHexDigit ∧ b.flatMap printHex = s.map toUpper := by
  induction s using convertPairs.induct generalizing b with
  | case1 c₁ c₂ rest hexChar1 hexChar2 hinvalid =>
    rw [convertPairs,if_pos hinvalid]
    refine iff_of_false (by simp) fun h => ?_
    simp only [List.all_cons,Bool.and_eq_true] at h
    rcases hinvalid with hi | hi
    · simpa [h.1.1] using (hexCharToInt_spec c₁).1.mp hi
    · simpa [h.1.2.1] using (hexCharToInt_spec c₂).1.mp hi
  | case2 c₁ c₂ rest hexChar1 hexChar2 hvalid ih =>
    have heven' : rest.length % 2 = 0 := by
      simp only [List.length_cons] at heven
      omega
    obtain ⟨hv₁,hv₂⟩ := not_or.mp hvalid
    have h₁ := isHexDigit_of_valid hv₁
    have h₂ := isHexDigit_of_valid hv₂
    rw [convertPairs,if_neg hvalid,Option.map_eq_some_iff]
    simp only [List.all_cons,h₁,h₂,Bool.true_and,List.map_cons]
    constructor
    · rintro ⟨bytes,hbytes,rfl⟩
      obtain ⟨hall,htext⟩ := (ih heven' bytes).mp hbytes
      refine ⟨hall,?_⟩
      rw [List.flatMap_cons,(printHex_eq_iff h₁ h₂ _).mpr rfl,htext]
      rfl
    · rintro ⟨hall,htext⟩
      cases b with
      | nil => simp at htext
      | cons x bytes =>
        have hsplit : printHex x = [toUpper c₁,toUpper c₂] ∧
            bytes.flatMap printHex = rest.map toUpper := by
          simpa [printHex,and_assoc] using htext
        exact ⟨bytes,(ih heven' bytes).mpr ⟨hall,hsplit.2⟩,
          by rw [(printHex_eq_iff h₁ h₂ x).mp hsplit.1]⟩
  | case3 t ht =>
    cases t with
    | nil => cases b <;> simp [convertPairs,printHex]
    | cons c₁ t =>
      cases t with
      | nil => simp at heven
      | cons c₂ rest => exact absurd rfl (ht c₁ c₂ rest)

theorem convertPairs_isSome (s : Str) (heven : s.length % 2 = 0) :
    (convertPairs s).isSome = s.all isHexDigit := by
  induction s using convertPairs.induct with
  | case1 c₁ c₂ rest hexChar1 hexChar2 hinvalid =>
    rw [convertPairs,if_pos hinvalid,List.all_cons,List.all_cons]
    rcases hinvalid with hi | hi
    · simp [(hexCharToInt_spec c₁).1.mp hi]
    · simp [(hexCharToInt_spec c₂).1.mp hi]
  | case2 c₁ c₂ rest hexChar1 hexChar2 hvalid ih =>
    have heven' : rest.length % 2 = 0 := by
      simp only [List.length_cons] at heven
      omega
    obtain ⟨hv₁,hv₂⟩ := not_or.mp hvalid
    have h₁ := isHexDigit_of_valid hv₁
    have h₂ := isHexDigit_of_valid hv₂
    rw [convertPairs,if_neg hvalid,Option.isSome_map,ih heven',List.all_cons,List.all_cons,h₁,h₂]
    rfl
  | case3 t ht =>
    cases t with
    | nil => rfl
    | cons c₁ t =>
      cases t with
      | nil => simp at heven
      | cons c₂ rest => exact absurd rfl (ht c₁ c₂ rest)

theorem length_flatMap_printHex (bytes : Str) : (bytes.flatMap printHex).length = 2 * bytes.length := by
  induction bytes with
  | nil => rfl
  | cons x bytes ih =>
    rw [List.flatMap_cons,List.length_append,ih,List.length_cons]
    simp only [printHex,List.length_cons,List.length_nil]
    omega

theorem convertHexStringToBytes_iff (response bytes : Str) :
    convertHexStringToBytes response true = some bytes ↔
      response.all isHexDigit ∧ bytes.flatMap printHex = response.map toUpper := by
  unfold convertHexStringToBytes
  split
  case isTrue hodd =>
    refine iff_of_false (by simp) fun h => ?_
    have hlen := congrArg List.length h.2
    rw [length_flatMap_printHex,List.length_map] at hlen
    omega
  case isFalse heven => exact convertPairs_eq_some response (by omega) bytes

theorem printHex_upper (x : UInt8) :
    (printHex x).all isHexDigit = true ∧ (printHex x).map toUpper = printHex x := by
  have hall : ∀ n < 16, isHexDigit (hexDigit n) = true ∧ toUpper (hexDigit n) = hexDigit n := by
    decide
  have hx := x.toNat_lt
  have hhigh := hall (x.toNat / 16) (by omega)
  have hlow := hall (x.toNat % 16) (by omega)
  simp [printHex,hhigh,hlow]

theorem flatMap_printHex_upper (bytes : Str) : (bytes.flatMap printHex).all isHexDigit = true ∧
    (bytes.flatMap printHex).map toUpper = bytes.flatMap printHex := by
  induction bytes with
  | nil => exact ⟨rfl,rfl⟩
  | cons x bytes ih =>
    obtain ⟨hall,hupper⟩ := printHex_upper x
    rw [List.flatMap_cons,List.all_append,List.map_append,hall,hupper,ih.1,ih.2]
    exact ⟨rfl,rfl⟩

/-- A text is converted exactly if it is an even number of digits, and the bytes are those whose
printed form it is but for the case of its letters; so every printed form is read back. -/
theorem hex_round_trip : (∀ response bytes : Str,
      convertHexStringToBytes response true = some bytes ↔
        response.all isHexDigit ∧ bytes.flatMap printHex = response.map toUpper) ∧
    (∀ response : Str, (convertHexStringToBytes response true).isSome ↔
      response.length % 2 = 0 ∧ response.all isHexDigit) ∧
    ∀ bytes : Str, convertHexStringToBytes (bytes.flatMap printHex) true = some bytes := by
  refine ⟨convertHexStringToBytes_iff,fun response => ?_,fun bytes => ?_⟩
  · unfold convertHexStringToBytes
    split
    case isTrue hodd => simp [hodd]
    case isFalse heven =>
      rw [if_pos rfl,convertPairs_isSome response (by omega)]
      simp only [show response.length % 2 = 0 by omega,true_and]
  · obtain ⟨hall,hupper⟩ := flatMap_printHex_upper bytes
    exact (convertHexStringToBytes_iff _ bytes).mpr ⟨hall,hupper.symm⟩

end Ril
end Kitakami

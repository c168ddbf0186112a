import Kitakami.Base.Bytes

/-!
# C strings in byte buffers

The string functions of C as loops over a buffer with checked access, and
`IsString`, which says what string stands at an offset. Every function succeeds
on a buffer that holds a string where it looks for one.
-/

namespace Kitakami

abbrev Str := List UInt8

/-- The bytes of a literal. -/
def str (s : String) : Str := s.toUTF8.data.toList

namespace Bytes

/-- `while (!stop(*p)) p++`. -/
def scan (b : Bytes) (stop : UInt8 → Bool) : ℕ → ℕ → Option ℕ
  | 0, _ => none
  | fuel+1, p => (b.rdByte p).bind fun c => if stop c then some p else scan b stop fuel (p+1)

def wrByte (b : Bytes) (p : ℕ) (c : UInt8) : Option Bytes := b.store p 1 fun _ => c

/-- The position `strchr` finds, if any. -/
def strchr (b : Bytes) (p : ℕ) (c : UInt8) : Option (Option ℕ) :=
  (b.scan (fun x => x = c || x = 0) (b.size+1) p).bind fun q =>
    (b.rdByte q).map fun x => if x = c then some q else none

/-- The string at `p`, up to its terminator. -/
def cString (b : Bytes) (p : ℕ) : Option (List UInt8) :=
  (b.scan (· = 0) (b.size+1) p).map fun q => (List.range (q - p)).map fun i => b.get (p+i)

/-- Whether `strcmp` of the string at `p` with a literal gives zero. -/
def strcmpZero (b : Bytes) : ℕ → List UInt8 → Option Bool
  | p, [] => (b.rdByte p).map (· == 0)
  | p, c::cs => (b.rdByte p).bind fun x => if x = c then strcmpZero b (p+1) cs else some false

/-- `strtok` from `p` on: the buffer, the token, and where the next call goes on. -/
def strtok (b : Bytes) (p : ℕ) (delim : UInt8 → Bool) : Option (Bytes × Option ℕ × ℕ) :=
  (b.scan (!delim ·) (b.size+1) p).bind fun token =>
    (b.rdByte token).bind fun c =>
      if c = 0 then some (b,none,token)
      else
        (b.scan (fun x => delim x || x = 0) (b.size+1) token).bind fun q =>
          (b.rdByte q).bind fun x =>
            if x = 0 then some (b,some token,q)
            else (b.wrByte q 0).map fun b' => (b',some token,q+1)

variable {b b' : Bytes} {l : List UInt8} {p : ℕ}

theorem rdByte_of_lt (h : p < b.size) : b.rdByte p = some (b.get p) := if_pos h

theorem wrByte_of_lt {c : UInt8} (h : p < b.size) : b.wrByte p c = some (b.put p 1 fun _ => c) :=
  if_pos (Or.inr h)

/-- The loop ends at the first byte that stops it. -/
theorem scan_eq {stop : UInt8 → Bool} {q fuel : ℕ} (hpq : p ≤ q) (hq : q < b.size)
    (hs : stop (b.get q)) (hn : ∀ i, p ≤ i → i < q → stop (b.get i) = false) (hf : q - p < fuel) :
    b.scan stop fuel p = some q := by
  induction fuel generalizing p with
  | zero => omega
  | succ fuel ih =>
    rw [scan,rdByte_of_lt (lt_of_le_of_lt hpq hq),Option.bind_some]
    by_cases he : p = q
    · subst he
      rw [if_pos hs]
    · have hlt : p < q := lt_of_le_of_ne hpq he
      rw [if_neg (by simpa using hn p le_rfl hlt)]
      exact ih hlt (fun i hi => hn i (by omega)) (by omega)

/-- The string `l` stands at `p`. -/
structure IsString (b : Bytes) (p : ℕ) (l : List UInt8) : Prop where
  size : p + l.length < b.size
  get : ∀ i, (h : i < l.length) → b.get (p+i) = l[i]
  last : b.get (p + l.length) = 0
  noNul : 0 ∉ l

theorem IsString.frame {R : ℕ → Prop} (h : IsString b p l) (hf : Frame R b b')
    (hR : ∀ i, p ≤ i → i ≤ p + l.length → ¬ R i) : IsString b' p l := by
  refine ⟨by rw [hf.size]; exact h.size,?_,?_,h.noNul⟩
  · intro i hi
    rw [hf.get (p+i) (hR _ (by omega) (by omega))]
    exact h.get i hi
  · rw [hf.get _ (hR _ (by omega) le_rfl)]
    exact h.last

theorem IsString.get_ne {i : ℕ} (h : IsString b p l) (hi : i < l.length) : b.get (p+i) ≠ 0 := by
  rw [h.get i hi]
  intro h0
  exact h.noNul (h0 ▸ List.getElem_mem hi)

/-- A string without its first bytes. -/
theorem IsString.drop {x y : List UInt8} (h : IsString b p (x ++ y)) :
    IsString b (p + x.length) y := by
  have hlen : (x ++ y).length = x.length + y.length := List.length_append
  refine ⟨?_,?_,?_,?_⟩
  · have := h.size
    omega
  · intro i hi
    rw [Nat.add_assoc,h.get (x.length+i) (by omega),List.getElem_append_right (by omega)]
    simp
  · have := h.last
    rwa [hlen,← Nat.add_assoc] at this
  · exact fun h0 => h.noNul (List.mem_append_right x h0)

/-- A terminator written into a string cuts it off there. -/
theorem IsString.cut {x y : List UInt8} {c : UInt8} (h : IsString b p (x ++ c::y)) :
    IsString (b.put (p + x.length) 1 fun _ => 0) p x := by
  have hlen : (x ++ c::y).length = x.length + (y.length+1) := by simp
  have hsize := h.size
  refine ⟨?_,?_,?_,?_⟩
  · rw [size_put]
    omega
  · intro i hi
    rw [get_put_outside _ _ (by omega),h.get i (by omega)]
    exact List.getElem_append_left hi
  · rw [get_put_inside _ _ ⟨by omega,by omega⟩]
  · exact fun h0 => h.noNul (List.mem_append_left _ h0)

/-- The string at `p` and its terminator, moved to the front of the buffer. -/
theorem IsString.memmove (h : IsString b p l) :
    ∃ b', b.memmove 0 p (l.length+1) = some b' ∧ b'.size = b.size ∧ IsString b' 0 l := by
  have hsize := h.size
  refine ⟨b.put 0 (l.length+1) fun k => b.get (p+k),?_,rfl,?_⟩
  · exact memcpy_eq_some.mpr ⟨Or.inr ⟨by omega,by omega⟩,rfl⟩
  · refine ⟨by rw [size_put]; omega,?_,?_,h.noNul⟩
    · intro i hi
      rw [Nat.zero_add,get_put_inside _ _ ⟨by omega,by omega⟩]
      exact h.get i hi
    · rw [Nat.zero_add,get_put_inside _ _ ⟨by omega,by omega⟩]
      exact h.last

theorem IsString.cString (h : IsString b p l) : b.cString p = some l := by
  have hs : b.scan (· = 0) (b.size+1) p = some (p + l.length) := by
    refine scan_eq (by omega) h.size (by simpa using h.last) ?_ (by have := h.size; omega)
    intro i hpi hi
    have hne := h.get_ne (i:=i - p) (by omega)
    rw [Nat.add_sub_cancel' hpi] at hne
    simpa using hne
  rw [Bytes.cString,hs,Option.map_some,Nat.add_sub_cancel_left]
  congr 1
  apply List.ext_getElem
  · simp
  · intro i h₁ h₂
    simpa using h.get i h₂

theorem IsString.strcmpZero (h : IsString b p l) {m : List UInt8} (hm : 0 ∉ m) :
    b.strcmpZero p m = some (decide (l = m)) := by
  induction m generalizing p l with
  | nil =>
    cases l with
    | nil =>
      have hlast : b.get p = 0 := h.last
      simp [Bytes.strcmpZero,rdByte_of_lt (b:=b) (p:=p) h.size,hlast]
    | cons a l =>
      have hne : b.get p ≠ 0 := h.get_ne (i:=0) (by simp)
      have hlt : p < b.size := lt_of_le_of_lt (Nat.le_add_right p _) h.size
      simp [Bytes.strcmpZero,rdByte_of_lt hlt,hne]
  | cons c m ih =>
    have hc : c ≠ 0 := fun h0 => hm (by simp [h0])
    have hlt : p < b.size := lt_of_le_of_lt (Nat.le_add_right p _) h.size
    rw [Bytes.strcmpZero,rdByte_of_lt hlt,Option.bind_some]
    cases l with
    | nil =>
      have hlast : b.get p = 0 := h.last
      rw [hlast,if_neg (Ne.symm hc)]
      rfl
    | cons a l =>
      have ha : b.get p = a := h.get 0 (by simp)
      have htail : IsString b (p+1) l := IsString.drop (x:=[a]) (y:=l) h
      rw [ha]
      by_cases hac : a = c
      · subst hac
        rw [if_pos rfl,ih htail fun h0 => hm (List.mem_cons_of_mem _ h0)]
        simp
      · rw [if_neg hac]
        simp [hac]

/-- Where the next byte `c` is, with the string split there. -/
theorem IsString.strchr_some {x y : List UInt8} {c : UInt8} (h : IsString b p (x ++ c::y))
    (hx : c ∉ x) : b.strchr p c = some (some (p + x.length)) := by
  have hsize := h.size
  have hlen : (x ++ c::y).length = x.length + (y.length+1) := by simp
  have hget : b.get (p + x.length) = c := by
    rw [h.get x.length (by omega)]
    simp
  have hs : b.scan (fun x => x = c || x = 0) (b.size+1) p = some (p + x.length) := by
    refine scan_eq (by omega) (by omega) (by simp [hget]) ?_ (by omega)
    intro i hpi hi
    have hne := h.get_ne (i:=i - p) (by omega)
    have hgi := h.get (i - p) (by omega)
    rw [Nat.add_sub_cancel' hpi] at hne hgi
    rw [List.getElem_append_left (by omega)] at hgi
    have hc : b.get i ≠ c := by
      rw [hgi]
      intro he
      exact hx (he ▸ List.getElem_mem _)
    simp [hc,hne]
  rw [Bytes.strchr,hs,Option.bind_some,rdByte_of_lt (by omega),Option.map_some,if_pos hget]

theorem IsString.strchr_none {c : UInt8} (h : IsString b p l) (hl : c ∉ l) (hc : c ≠ 0) :
    b.strchr p c = some none := by
  have hs : b.scan (fun x => x = c || x = 0) (b.size+1) p = some (p + l.length) := by
    refine scan_eq (by omega) h.size (by simp [h.last]) ?_ (by have := h.size; omega)
    intro i hpi hi
    have hne := h.get_ne (i:=i - p) (by omega)
    have hgi := h.get (i - p) (by omega)
    rw [Nat.add_sub_cancel' hpi] at hne hgi
    have hci : b.get i ≠ c := by
      rw [hgi]
      intro he
      exact hl (he ▸ List.getElem_mem _)
    simp [hci,hne]
  rw [Bytes.strchr,hs,Option.bind_some,rdByte_of_lt h.size,Option.map_some,h.last,if_neg (Ne.symm hc)]

/-- The first position from `p` on at which a string or its end stops a loop. -/
theorem IsString.scan (h : IsString b p l) (stop : UInt8 → Bool) (hs : stop 0) {i : ℕ}
    (hi : i ≤ l.length) :
    ∃ j, i ≤ j ∧ j ≤ l.length ∧ b.scan stop (b.size+1) (p+i) = some (p+j) ∧
      stop (b.get (p+j)) := by
  have hsize := h.size
  have hex : ∃ j, i ≤ j ∧ stop (b.get (p+j)) := ⟨l.length,hi,by rw [h.last]; exact hs⟩
  have hle : Nat.find hex ≤ l.length := Nat.find_le ⟨hi,by rw [h.last]; exact hs⟩
  obtain ⟨hij,hst⟩ := Nat.find_spec hex
  refine ⟨Nat.find hex,hij,hle,?_,hst⟩
  refine scan_eq (by omega) (by omega) hst ?_ (by omega)
  intro k hpk hk
  have hmin := Nat.find_min hex (m:=k - p) (by omega)
  rw [Nat.add_sub_cancel' (by omega : p ≤ k)] at hmin
  by_contra hc
  exact hmin ⟨by omega,by simpa using hc⟩

/-- `strtok` splits off a part of the string, writes inside this part only, and
goes on with the rest. -/
theorem IsString.strtok (h : IsString b p l) (delim : UInt8 → Bool) (hd : delim 0 = false) :
    ∃ b' t x y, l = x ++ y ∧ b.strtok p delim = some (b',t,p + x.length) ∧
      IsString b' (p + x.length) y ∧ Frame (fun k => p ≤ k ∧ k < p + x.length) b b' := by
  have hsize := h.size
  have hsplit {j : ℕ} (hj : j ≤ l.length) {b' : Bytes} {t : Option ℕ}
      (hb : Frame (fun k => p ≤ k ∧ k < p + j) b b') (he : b.strtok p delim = some (b',t,p+j)) :
      ∃ b' t x y, l = x ++ y ∧ b.strtok p delim = some (b',t,p + x.length) ∧
        IsString b' (p + x.length) y ∧ Frame (fun k => p ≤ k ∧ k < p + x.length) b b' := by
    have hlen : (l.take j).length = j := by simp [hj]
    have hdrop : IsString b (p+j) (l.drop j) := by
      have := IsString.drop (x:=l.take j) (y:=l.drop j) (by rwa [List.take_append_drop])
      rwa [hlen] at this
    refine ⟨b',t,l.take j,l.drop j,(List.take_append_drop j l).symm,?_,?_,?_⟩
    · rw [hlen,he]
    · rw [hlen]
      exact hdrop.frame hb fun k hk _ => by omega
    · rw [hlen]
      exact hb
  obtain ⟨s,-,hsl,hs,-⟩ := h.scan (!delim ·) (by simp [hd]) (Nat.zero_le l.length)
  change b.scan (!delim ·) (b.size+1) p = _ at hs
  by_cases hz : b.get (p+s) = 0
  · refine hsplit (t:=none) hsl (Frame.refl _ b) ?_
    rw [Bytes.strtok,hs,Option.bind_some,rdByte_of_lt (by omega),Option.bind_some,if_pos hz]
  · obtain ⟨q,hsq,hql,hq,-⟩ := h.scan (fun x => delim x || x = 0) (by simp) hsl
    by_cases hqz : b.get (p+q) = 0
    · refine hsplit (t:=some (p+s)) hql (Frame.refl _ b) ?_
      rw [Bytes.strtok,hs,Option.bind_some,rdByte_of_lt (by omega),Option.bind_some,if_neg hz,hq,
        Option.bind_some,rdByte_of_lt (by omega),Option.bind_some,if_pos hqz]
    · have hlt : q < l.length := by
        refine lt_of_le_of_ne hql ?_
        rintro rfl
        exact hqz h.last
      refine hsplit (j:=q+1) (t:=some (p+s)) hlt ((frame_put b (p+q) 1 fun _ => 0).mono ?_) ?_
      · intro k hk
        omega
      · rw [Bytes.strtok,hs,Option.bind_some,rdByte_of_lt (by omega),Option.bind_some,if_neg hz,hq,
          Option.bind_some,rdByte_of_lt (by omega),Option.bind_some,if_neg hqz,
          wrByte_of_lt (by omega),Option.map_some]
        rfl

end Bytes

/-! ## Numbers -/

/-- `isspace`. -/
def isSpace (c : UInt8) : Bool := c = 32 || (9 ≤ c && c ≤ 13)

def isDigit (c : UInt8) : Bool := 48 ≤ c && c ≤ 57

/-- The decimal number at the front of a string: whether it has a minus sign, and its digits. -/
def scanNumber (s : Str) : Bool × ℕ :=
  let s := s.dropWhile isSpace
  let negative : Bool := s.head? = some 45
  let digits := (if negative || s.head? = some 43 then s.tail else s).takeWhile isDigit
  (negative,digits.foldl (fun n c => 10*n + (c.toNat - 48)) 0)

/-- `strtoul` with base 10, for an `unsigned long` of 64 bits. -/
def strtoul (s : Str) : UInt64 :=
  let n := scanNumber s
  if 2^64 ≤ n.2 then UInt64.ofNat (2^64-1)
  else if n.1 then -UInt64.ofNat n.2 else UInt64.ofNat n.2

/-- `atoi`: `strtol` for a `long` of 64 bits, cut to an `int`. -/
def atoi (s : Str) : ℤ :=
  let n := scanNumber s
  let value : ℤ := if n.1 then -n.2 else n.2
  (Int32.ofInt (max (-2^63) (min value (2^63-1)))).toInt

end Kitakami

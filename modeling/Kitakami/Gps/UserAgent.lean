import Kitakami.Base.Strings
import Kitakami.Base.Escape

/-!
# Escapes of the user agent

`encodeInPlace` of `LocEngAdapter.cpp` writes a property value for the user
agent, whose fields are separated by slashes: the separators in the value are
escaped, and what has no room is cut off. What is left is the escaped form of
the longest beginning of the value that has room, so that it can be read back.
-/

namespace Kitakami
namespace UserAgent

open Bytes Escape

/-- `encodings`. -/
def encodings : List (Entry UInt8) :=
  [⟨'/'.toUInt8,str "%2F"⟩,⟨'+'.toUInt8,str "%2B"⟩,⟨'|'.toUInt8,str "%7C"⟩,⟨'%'.toUInt8,str "%25"⟩]

def numCharsInCode : ℕ := 3

/-- The loop that writes a code: the buffer and `outpos`. -/
def putCode (size : ℕ) (code : Str) (buffer : Bytes) (outpos codepos : ℕ) : Option (Bytes × ℕ) :=
  if outpos < size - 1 ∧ codepos < numCharsInCode then do
    let c ← code[codepos]?
    let buffer ← buffer.wrByte outpos c
    putCode size code buffer (outpos+1) (codepos+1)
  else some (buffer,outpos)
termination_by numCharsInCode - codepos

/-- The loop over the value. -/
def encodeLoop (value : Bytes) (size : ℕ) : ℕ → Bytes → ℕ → ℕ → Option (Bytes × ℕ)
  | 0, _, _, _ => none
  | fuel+1, buffer, inpos, outpos => do
    let c ← value.rdByte inpos
    if c ≠ 0 ∧ outpos < size - 1 then
      match lookup encodings c with
      | none =>
        let buffer ← buffer.wrByte outpos c
        encodeLoop value size fuel buffer (inpos+1) (outpos+1)
      | some e =>
        if size ≤ outpos + numCharsInCode then some (buffer,outpos)
        else
          let (buffer,outpos) ← putCode size e.code buffer outpos 0
          encodeLoop value size fuel buffer (inpos+1) outpos
    else some (buffer,outpos)

/-- `while (--outpos >= 0) value[outpos] = buffer[outpos];` -/
def copyBack (buffer : Bytes) : ℕ → Bytes → Option Bytes
  | 0, value => some value
  | outpos+1, value => do
    let c ← buffer.rdByte outpos
    let value ← value.wrByte outpos c
    copyBack buffer outpos value

/-- `encodeInPlace`; `uninit` is what the local buffer contains at first. No sum exceeds `size + 1`,
so that no `int` overflows for a `size` below `INT_MAX`. -/
def encodeInPlace (value : Bytes) (size : ℕ) (uninit : ℕ → UInt8) : Option Bytes := do
  let (buffer,outpos) ← encodeLoop value size (size+1) ⟨size,uninit⟩ 0 0
  let value ← value.wrByte outpos 0
  copyBack buffer outpos value

/-! ## The table -/

theorem readable_encodings : Readable encodings '%'.toUInt8 where
  marked := by decide
  escaped := by decide
  apart := by decide
  plain := by
    intro e he c hc
    have hall : ∀ e ∈ encodings, e.code.tail.all fun c => (lookup encodings c).isNone := by decide
    exact Option.isNone_iff_eq_none.mp (List.all_eq_true.mp (hall e he) c hc)

theorem length_code {e : Entry UInt8} (he : e ∈ encodings) : e.code.length = numCharsInCode := by
  revert e
  decide

theorem zero_notMem_code {e : Entry UInt8} (he : e ∈ encodings) : 0 ∉ e.code := by
  revert e
  decide

variable {b buffer value : Bytes} {s t u w x y p : Str} {size : ℕ} {c : UInt8}

theorem zero_notMem_encode (h : 0 ∉ s) : 0 ∉ encode encodings s := by
  rw [encode,List.mem_flatMap]
  rintro ⟨c,hc,hzero⟩
  cases hlookup : lookup encodings c with
  | none =>
    rw [encodeChar_none hlookup,List.mem_singleton] at hzero
    exact h (hzero ▸ hc)
  | some e =>
    rw [encodeChar_some hlookup] at hzero
    exact zero_notMem_code (lookup_eq_some hlookup).1 hzero

/-! ## The loops -/

/-- The buffer begins with the text `t`. -/
structure Begins (b : Bytes) (t : Str) : Prop where
  size : t.length ≤ b.size
  get : ∀ i, (h : i < t.length) → b.get i = t[i]

theorem Begins.wrByte (h : Begins b t) (hroom : t.length < b.size) (c : UInt8) :
    ∃ b', b.wrByte t.length c = some b' ∧ b'.size = b.size ∧ Begins b' (t ++ [c]) := by
  refine ⟨_,wrByte_of_lt hroom,size_put _ _ _ _,?_,?_⟩
  · rw [size_put,List.length_append,List.length_singleton]
    exact hroom
  · intro i hi
    rw [List.length_append,List.length_singleton] at hi
    rcases Nat.lt_or_ge i t.length with hlt | hge
    · rw [get_put_outside _ _ (by omega),h.get i hlt,List.getElem_append_left hlt]
    · obtain rfl : i = t.length := by omega
      rw [get_put_inside _ _ ⟨le_rfl,Nat.lt_succ_self _⟩,List.getElem_concat_length rfl]

/-- A code that has room is written whole. -/
theorem putCode_spec (h : Begins b t) (hsize : b.size = size)
    (hcode : (u ++ w).length = numCharsInCode) (hroom : t.length + w.length < size) :
    ∃ b', putCode size (u ++ w) b t.length u.length = some (b',(t ++ w).length) ∧
      b'.size = size ∧ Begins b' (t ++ w) := by
  induction w generalizing b t u with
  | nil =>
    rw [List.append_nil] at hcode
    refine ⟨b,?_,hsize,by rwa [List.append_nil]⟩
    rw [putCode,if_neg (by omega),List.append_nil]
  | cons c w ih =>
    rw [List.length_cons] at hroom
    have hlen : u.length < numCharsInCode := by
      rw [← hcode,List.length_append,List.length_cons]
      omega
    obtain ⟨b₁,hb₁,hsize₁,h₁⟩ := h.wrByte (by omega) c
    have hsplit : u ++ c::w = (u ++ [c]) ++ w := by rw [List.append_assoc,List.singleton_append]
    have hat : (u ++ c::w)[u.length]? = some c := by
      rw [List.getElem?_append_right le_rfl,Nat.sub_self,List.getElem?_cons_zero]
    obtain ⟨b',hb',hsize',h'⟩ := ih (u:=u ++ [c]) h₁ (hsize₁.trans hsize) (hsplit ▸ hcode)
      (by rw [List.length_append,List.length_singleton]; omega)
    refine ⟨b',?_,hsize',by rwa [List.append_assoc,List.singleton_append] at h'⟩
    rw [putCode,if_pos ⟨by omega,hlen⟩,hat]
    rw [List.length_append,List.length_singleton,List.length_append,List.length_singleton,
      ← hsplit,List.append_assoc,List.singleton_append] at hb'
    show (b.wrByte t.length c).bind _ = _
    rw [hb₁]
    exact hb'

theorem encodeLoop_of_read {inpos : ℕ} (h : value.rdByte inpos = some c) (fuel : ℕ) (b : Bytes)
    (outpos : ℕ) :
    encodeLoop value size (fuel+1) b inpos outpos =
      if c ≠ 0 ∧ outpos < size - 1 then
        match lookup encodings c with
        | none => (b.wrByte outpos c).bind fun b =>
          encodeLoop value size fuel b (inpos+1) (outpos+1)
        | some e =>
          if size ≤ outpos + numCharsInCode then some (b,outpos)
          else (putCode size e.code b outpos 0).bind fun r =>
            encodeLoop value size fuel r.1 (inpos+1) r.2
      else some (b,outpos) := by
  rw [encodeLoop,h]
  rfl

/-- At the terminator the loop ends. -/
theorem encodeLoop_last (hv : IsString value 0 x) (fuel : ℕ) (b : Bytes) (outpos : ℕ) :
    encodeLoop value size (fuel+1) b x.length outpos = some (b,outpos) := by
  have hlt : x.length < value.size := by simpa using hv.size
  have hlast : value.get x.length = 0 := by simpa using hv.last
  rw [encodeLoop,rdByte_of_lt hlt,hlast]
  rfl

theorem rdByte_next (hv : IsString value 0 (x ++ c::y)) :
    value.rdByte x.length = some c ∧ c ≠ 0 := by
  have hlen : x.length < (x ++ c::y).length := by
    rw [List.length_append,List.length_cons]
    omega
  have hlt : x.length < value.size := by
    have hend := hv.size
    omega
  have hc : value.get x.length = c := by
    have hget := hv.get x.length hlen
    rw [Nat.zero_add,List.getElem_append_right le_rfl] at hget
    simpa using hget
  refine ⟨by rw [rdByte_of_lt hlt,hc],?_⟩
  rintro rfl
  exact hv.noNul (by simp)

/-- A character that has room is written, as itself or as its code. -/
theorem encodeLoop_next (hv : IsString value 0 (x ++ c::y)) (fuel : ℕ)
    (h : Begins b (encode encodings x)) (hsize : b.size = size)
    (hfits : (encode encodings (x ++ [c])).length < size) :
    ∃ b', encodeLoop value size (fuel+1) b x.length (encode encodings x).length =
        encodeLoop value size fuel b' (x ++ [c]).length (encode encodings (x ++ [c])).length ∧
      b'.size = size ∧ Begins b' (encode encodings (x ++ [c])) := by
  obtain ⟨hread,hne⟩ := rdByte_next hv
  have hlen : (x ++ [c]).length = x.length + 1 := List.length_append
  rw [encode_concat] at hfits ⊢
  rw [encodeLoop_of_read hread,hlen]
  cases hlookup : lookup encodings c with
  | none =>
    rw [encodeChar_none hlookup] at hfits ⊢
    rw [List.length_append,List.length_singleton] at hfits
    obtain ⟨b',hb',hsize',h'⟩ := h.wrByte (by omega) c
    refine ⟨b',?_,hsize'.trans hsize,h'⟩
    rw [if_pos ⟨hne,by omega⟩,List.length_append,List.length_singleton]
    simp only [hb',Option.bind_some]
  | some e =>
    obtain ⟨he,-⟩ := lookup_eq_some hlookup
    have hcode := length_code he
    rw [encodeChar_some hlookup] at hfits ⊢
    rw [List.length_append] at hfits
    have hpos : 0 < numCharsInCode := by decide
    obtain ⟨b',hb',hsize',h'⟩ := putCode_spec (u:=[]) (w:=e.code) h hsize hcode hfits
    refine ⟨b',?_,hsize',h'⟩
    rw [List.nil_append,List.length_nil] at hb'
    rw [if_pos ⟨hne,by omega⟩]
    simp only [if_neg (by omega : ¬ size ≤ (encode encodings x).length + numCharsInCode),hb',
      Option.bind_some]

/-- In front of a character without room the loop ends. -/
theorem encodeLoop_full (hv : IsString value 0 (x ++ c::y)) (fuel : ℕ) (b : Bytes)
    (hfull : size ≤ (encode encodings (x ++ [c])).length) :
    encodeLoop value size (fuel+1) b x.length (encode encodings x).length =
      some (b,(encode encodings x).length) := by
  obtain ⟨hread,hne⟩ := rdByte_next hv
  rw [encode_concat,List.length_append] at hfull
  rw [encodeLoop_of_read hread]
  cases hlookup : lookup encodings c with
  | none =>
    rw [encodeChar_none hlookup,List.length_singleton] at hfull
    rw [if_neg (by omega)]
  | some e =>
    rw [encodeChar_some hlookup,length_code (lookup_eq_some hlookup).1] at hfull
    simp only [if_pos hfull,ite_self]

/-- The loop writes the escaped form of what has room. -/
theorem encodeLoop_spec {fuel : ℕ} (hv : IsString value 0 (x ++ y)) (hf : y.length < fuel)
    (h : Begins b (encode encodings x)) (hsize : b.size = size)
    (hroom : (encode encodings x).length < size)
    (hp : p = x ++ fit encodings (size - 1 - (encode encodings x).length) y) :
    ∃ b', encodeLoop value size fuel b x.length (encode encodings x).length =
        some (b',(encode encodings p).length) ∧
      b'.size = size ∧ Begins b' (encode encodings p) := by
  induction y generalizing x b fuel with
  | nil =>
    obtain ⟨fuel,rfl⟩ := Nat.exists_eq_succ_of_ne_zero (by omega : fuel ≠ 0)
    obtain rfl : p = x := by rw [hp,fit,List.append_nil]
    rw [List.append_nil] at hv
    exact ⟨b,encodeLoop_last hv fuel b _,hsize,h⟩
  | cons c y ih =>
    obtain ⟨fuel,rfl⟩ := Nat.exists_eq_succ_of_ne_zero (by omega : fuel ≠ 0)
    have hlen : (encode encodings (x ++ [c])).length =
        (encode encodings x).length + (encodeChar encodings c).length := by
      rw [encode_concat,List.length_append]
    rw [fit] at hp
    by_cases hfits : (encode encodings (x ++ [c])).length < size
    · obtain ⟨b₁,hb₁,hsize₁,h₁⟩ := encodeLoop_next hv fuel h hsize hfits
      rw [if_pos (by omega),Nat.sub_sub,← hlen] at hp
      rw [hb₁]
      refine ih (by rwa [List.append_assoc]) (Nat.lt_of_succ_lt_succ hf) h₁ hsize₁ hfits ?_
      rwa [List.append_assoc]
    · rw [if_neg (by omega),List.append_nil] at hp
      rw [hp]
      exact ⟨b,encodeLoop_full hv fuel b (Nat.not_lt.mp hfits),hsize,h⟩

/-- The copy leaves what stands behind the text. -/
theorem copyBack_spec (h : Begins buffer t) {k : ℕ} (hk : k ≤ t.length) (hroom : k ≤ b.size) :
    ∃ b', copyBack buffer k b = some b' ∧ b'.size = b.size ∧
      (∀ i, (hi : i < k) → b'.get i = t[i]) ∧ ∀ i, k ≤ i → b'.get i = b.get i := by
  induction k generalizing b with
  | zero => exact ⟨b,rfl,rfl,fun i hi => absurd hi (Nat.not_lt_zero i),fun i _ => rfl⟩
  | succ k ih =>
    have hread : buffer.rdByte k = some t[k] := by
      rw [rdByte_of_lt (Nat.lt_of_lt_of_le hk h.size),h.get k hk]
    have hwrite := wrByte_of_lt (b:=b) (p:=k) (c:=t[k]) hroom
    obtain ⟨b',hb',hsize',hin,hout⟩ := ih (b:=b.put k 1 fun _ => t[k])
      (Nat.le_of_succ_le hk) (Nat.le_of_succ_le hroom)
    refine ⟨b',?_,hsize',fun i hi => ?_,fun i hi => ?_⟩
    · rw [copyBack,hread]
      show (b.wrByte k t[k]).bind _ = _
      rw [hwrite]
      exact hb'
    · rcases Nat.lt_or_ge i k with hlt | hge
      · exact hin i hlt
      · obtain rfl : i = k := by omega
        rw [hout i le_rfl,get_put_inside _ _ ⟨le_rfl,Nat.lt_succ_self i⟩]
    · rw [hout i (by omega),get_put_outside _ _ (by omega)]

/-- The value becomes the escaped form of its longest beginning that has room. -/
theorem encodeInPlace_eq (hs : IsString value 0 s) (hlen : s.length < size)
    (hsize : size ≤ value.size) (uninit : ℕ → UInt8) :
    ∃ value', encodeInPlace value size uninit = some value' ∧
      IsString value' 0 (encode encodings (fit encodings (size - 1) s)) ∧
      value'.size = value.size ∧ ∀ i, size ≤ i → value'.get i = value.get i := by
  set p := fit encodings (size - 1) s with hp
  have hfits : (encode encodings p).length ≤ size - 1 := length_encode_fit _ _
  have hstart : Begins (⟨size,uninit⟩ : Bytes) (encode encodings []) :=
    ⟨Nat.zero_le _,fun i hi => absurd hi (Nat.not_lt_zero i)⟩
  have hpos : 0 < size := by omega
  obtain ⟨buffer,hbuffer,-,hbegins⟩ := encodeLoop_spec (x:=[]) (y:=s) (p:=p) hs
    (Nat.lt_succ_of_lt hlen) hstart rfl hpos hp
  have hwrite := wrByte_of_lt (b:=value) (p:=(encode encodings p).length) (c:=0) (by omega)
  obtain ⟨value',hvalue',hsize',hin,hout⟩ := copyBack_spec
    (b:=value.put (encode encodings p).length 1 fun _ => 0) hbegins le_rfl
    (by rw [size_put]; omega)
  rw [size_put] at hsize'
  refine ⟨value',?_,⟨?_,?_,?_,?_⟩,hsize',fun i hi => ?_⟩
  · show (encodeLoop value size (size+1) ⟨size,uninit⟩ 0 0).bind _ = _
    have hbuffer₀ : encodeLoop value size (size+1) ⟨size,uninit⟩ 0 0 =
        some (buffer,(encode encodings p).length) := hbuffer
    rw [hbuffer₀,Option.bind_some]
    show (value.wrByte (encode encodings p).length 0).bind _ = _
    rw [hwrite]
    exact hvalue'
  · omega
  · intro i hi
    rw [Nat.zero_add]
    exact hin i hi
  · rw [Nat.zero_add,hout _ le_rfl,get_put_inside _ _ ⟨le_rfl,Nat.lt_succ_self _⟩]
  · refine zero_notMem_encode fun hzero => hs.noNul ?_
    exact (fit_begins (size - 1) s).subset hzero
  · rw [hout i (by omega),get_put_outside _ _ (by omega)]

/-- The value becomes a string that is read back as the longest beginning of the value whose
escaped form has room; no code in it is split, and no separator stands in it. -/
theorem encodeInPlace_longest (hs : IsString value 0 s) (hlen : s.length < size)
    (hsize : size ≤ value.size) (uninit : ℕ → UInt8) :
    ∃ value' e, encodeInPlace value size uninit = some value' ∧
      IsString value' 0 e ∧ e.length ≤ size - 1 ∧
      (value'.size = value.size ∧ ∀ i, size ≤ i → value'.get i = value.get i) ∧
      decode encodings e <+: s ∧ encode encodings (decode encodings e) = e ∧
      (∀ q, q <+: s → (encode encodings q).length ≤ size - 1 → q <+: decode encodings e) ∧
      Whole encodings e ∧
      ∀ c ∈ e, (lookup encodings c).isSome → c = '%'.toUInt8 := by
  obtain ⟨value',hvalue',hstring,hframe⟩ := encodeInPlace_eq hs hlen hsize uninit
  have hread := readable_encodings.decode_encode (fit encodings (size - 1) s)
  have hwhole := readable_encodings.whole_encode (fit encodings (size - 1) s)
  refine ⟨value',_,hvalue',hstring,length_encode_fit _ _,hframe,?_,by rw [hread],?_,hwhole,
    fun c => readable_encodings.eq_mark hwhole⟩
  · rw [hread]
    exact fit_begins _ _
  · rw [hread]
    exact fun q hq hfits => fit_longest hq hfits

/-- The last character of `a/b%` has no room in six bytes. -/
theorem encodeInPlace_longest_cut :
    ∃ value' e, encodeInPlace ⟨6,fun i => (str "a/b%").getD i 0⟩ 6 (fun _ => 255) = some value' ∧
      IsString value' 0 e ∧ decode encodings e <+: str "a/b%" ∧ str "a/b" <+: decode encodings e := by
  have hs : IsString ⟨6,fun i => (str "a/b%").getD i 0⟩ 0 (str "a/b%") :=
    ⟨by decide,by decide,by decide,by decide⟩
  obtain ⟨value',e,hvalue',hstring,-,-,hfirst,-,hlongest,-⟩ :=
    encodeInPlace_longest hs (by decide : (str "a/b%").length < 6) le_rfl fun _ => 255
  exact ⟨value',e,hvalue',hstring,hfirst,hlongest _ (by decide) (by decide)⟩

end UserAgent
end Kitakami

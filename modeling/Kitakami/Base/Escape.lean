import Mathlib.Data.List.Infix
import Mathlib.Tactic

/-!
# Escapes

A table gives the characters that are written as a code; every code begins with
one mark, which is in the table itself, and no code is the beginning of another.
A text is read back from its escaped form, and a character of the table stands
there only where a whole code begins. `fit` is the longest beginning of a text
whose escaped form has a given length at most.
-/

namespace Kitakami
namespace Escape

variable {α : Type} [DecidableEq α]

/-- A character and its code. -/
structure Entry (α : Type) where
  ch : α
  code : List α
  deriving DecidableEq

/-- The first entry for a character. -/
def lookup (table : List (Entry α)) (c : α) : Option (Entry α) := table.find? (·.ch = c)

def encodeChar (table : List (Entry α)) (c : α) : List α :=
  match lookup table c with
  | some e => e.code
  | none => [c]

def encode (table : List (Entry α)) (l : List α) : List α := l.flatMap (encodeChar table)

/-- Every code is replaced by its character, from the front on. -/
def decode (table : List (Entry α)) : List α → List α
  | [] => []
  | c :: l =>
    match table.find? (·.code.isPrefixOf (c :: l)) with
    | some e => e.ch :: decode table (l.drop (e.code.length - 1))
    | none => c :: decode table l
termination_by l => l.length
decreasing_by
  · simp only [List.length_drop,List.length_cons]
    omega
  · exact Nat.lt_succ_self _

/-- A table from which texts are read back. -/
structure Readable (table : List (Entry α)) (mark : α) : Prop where
  marked : ∀ e ∈ table, e.code.head? = some mark
  escaped : (lookup table mark).isSome
  apart : ∀ e ∈ table, ∀ f ∈ table, e.code <+: f.code → e = f
  /-- Behind its mark a code has none of the characters of the table. -/
  plain : ∀ e ∈ table, ∀ c ∈ e.code.tail, lookup table c = none

variable {table : List (Entry α)} {mark c : α} {e : Entry α} {l x y : List α}

theorem lookup_eq_some (h : lookup table c = some e) : e ∈ table ∧ e.ch = c := by
  refine ⟨List.mem_of_find?_eq_some h,?_⟩
  have hch := List.find?_some h
  simpa using hch

theorem encodeChar_some (h : lookup table c = some e) : encodeChar table c = e.code := by
  rw [encodeChar,h]

theorem encodeChar_none (h : lookup table c = none) : encodeChar table c = [c] := by
  rw [encodeChar,h]

theorem encode_cons (c : α) (l : List α) :
    encode table (c :: l) = encodeChar table c ++ encode table l := List.flatMap_cons

theorem encode_append (l x : List α) :
    encode table (l ++ x) = encode table l ++ encode table x := List.flatMap_append

theorem encode_concat (l : List α) (c : α) :
    encode table (l ++ [c]) = encode table l ++ encodeChar table c := by
  rw [encode_append,encode_cons]
  exact congrArg _ (List.append_nil _)

/-! ## Reading back -/

theorem Readable.code_eq (h : Readable table mark) (he : e ∈ table) :
    e.code = mark :: e.code.tail :=
  List.eq_cons_of_mem_head? (h.marked e he)

/-- No code begins with another character than the mark. -/
theorem Readable.find_none (h : Readable table mark) (hc : c ≠ mark) :
    table.find? (·.code.isPrefixOf (c :: l)) = none := by
  refine List.find?_eq_none.mpr fun e he hbegins => hc ?_
  rw [List.isPrefixOf_iff_prefix,h.code_eq he,List.cons_prefix_cons] at hbegins
  exact hbegins.1.symm

/-- The code that a text begins with is the only one. -/
theorem Readable.find_some (h : Readable table mark) (he : e ∈ table) :
    table.find? (·.code.isPrefixOf (e.code ++ l)) = some e := by
  have hself : e.code.isPrefixOf (e.code ++ l) := by
    rw [List.isPrefixOf_iff_prefix]
    exact List.prefix_append _ _
  obtain ⟨f,hf⟩ : ∃ f, table.find? (·.code.isPrefixOf (e.code ++ l)) = some f :=
    Option.isSome_iff_exists.mp (List.find?_isSome.mpr ⟨e,he,hself⟩)
  have hmem := List.mem_of_find?_eq_some hf
  have hbegins : f.code <+: e.code ++ l := by
    have hfound := List.find?_some hf
    rwa [List.isPrefixOf_iff_prefix] at hfound
  have hfe : f = e := by
    rcases List.prefix_or_prefix_of_prefix hbegins (List.prefix_append e.code l) with hle | hle
    · exact h.apart f hmem e he hle
    · exact (h.apart e he f hmem hle).symm
  rw [hf,hfe]

theorem Readable.decode_code (h : Readable table mark) (he : e ∈ table) :
    decode table (e.code ++ l) = e.ch :: decode table l := by
  have hfind := h.find_some (l:=l) he
  have hlen : e.code.length - 1 = e.code.tail.length := by rw [List.length_tail]
  rw [h.code_eq he,List.cons_append] at hfind ⊢
  rw [decode,hfind]
  simp only [hlen,List.drop_left]

theorem Readable.decode_plain (h : Readable table mark) (hc : lookup table c = none) :
    decode table (c :: l) = c :: decode table l := by
  have hne : c ≠ mark := by
    rintro rfl
    simpa [hc] using h.escaped
  rw [decode,h.find_none hne]

/-- A text is read back from its escaped form. -/
theorem Readable.decode_encode (h : Readable table mark) (l : List α) :
    decode table (encode table l) = l := by
  induction l with
  | nil => rw [encode,List.flatMap_nil,decode]
  | cons c l ih =>
    rw [encode_cons]
    cases hc : lookup table c with
    | none => rw [encodeChar_none hc,List.singleton_append,h.decode_plain hc,ih]
    | some e =>
      obtain ⟨he,rfl⟩ := lookup_eq_some hc
      rw [encodeChar_some hc,h.decode_code he,ih]

/-! ## Whole codes -/

/-- The characters of the table stand only where a code begins. -/
def Whole (table : List (Entry α)) (l : List α) : Prop :=
  ∀ x c y, l = x ++ c :: y → (lookup table c).isSome → ∃ e ∈ table, e.code <+: c :: y

theorem Whole.nil : Whole table [] := by
  intro x c y h
  simp at h

/-- A piece whose first character alone may be in the table, and begins a code then. -/
theorem Whole.append_cons {t : List α} (h : Whole table l)
    (hhead : (lookup table c).isSome → ∃ e ∈ table, e.code <+: c :: (t ++ l))
    (htail : ∀ d ∈ t, lookup table d = none) : Whole table (c :: (t ++ l)) := by
  intro x d y heq hd
  cases x with
  | nil =>
    obtain ⟨rfl,rfl⟩ := List.cons.inj heq
    exact hhead hd
  | cons b x =>
    obtain ⟨-,heq⟩ := List.cons.inj heq
    rcases List.append_eq_append_iff.mp heq with ⟨m,rfl,hm⟩ | ⟨m,rfl,hm⟩
    · exact h m d y hm hd
    · cases m with
      | nil => exact h [] d y hm.symm hd
      | cons b' m =>
        obtain ⟨rfl,-⟩ := List.cons.inj hm
        rw [htail d (by simp)] at hd
        cases hd

theorem Readable.whole_encode (h : Readable table mark) (l : List α) :
    Whole table (encode table l) := by
  induction l with
  | nil => exact Whole.nil
  | cons c l ih =>
    rw [encode_cons]
    cases hc : lookup table c with
    | none =>
      rw [encodeChar_none hc]
      refine Whole.append_cons (t:=[]) ih (fun hsome => ?_) (fun d hd => (List.not_mem_nil hd).elim)
      rw [hc] at hsome
      cases hsome
    | some e =>
      obtain ⟨he,rfl⟩ := lookup_eq_some hc
      rw [encodeChar_some hc,h.code_eq he,List.cons_append]
      refine Whole.append_cons ih (fun _ => ⟨e,he,?_⟩) (h.plain e he)
      rw [← List.cons_append,← h.code_eq he]
      exact List.prefix_append _ _

/-- Of the characters of the table only the mark stands in an escaped text. -/
theorem Readable.eq_mark (h : Readable table mark) (hw : Whole table l) (hc : c ∈ l)
    (hsome : (lookup table c).isSome) : c = mark := by
  obtain ⟨x,y,rfl⟩ := List.append_of_mem hc
  obtain ⟨e,he,hbegins⟩ := hw x c y rfl hsome
  rw [h.code_eq he,List.cons_prefix_cons] at hbegins
  exact hbegins.1.symm

/-! ## What fits -/

/-- As many characters as have room for their escaped forms. -/
def fit (table : List (Entry α)) : ℕ → List α → List α
  | _, [] => []
  | n, c :: l =>
    if (encodeChar table c).length ≤ n then c :: fit table (n - (encodeChar table c).length) l
    else []

theorem fit_begins (n : ℕ) (l : List α) : fit table n l <+: l := by
  induction l generalizing n with
  | nil => exact List.prefix_rfl
  | cons c l ih =>
    rw [fit]
    split_ifs
    · exact List.cons_prefix_cons.mpr ⟨rfl,ih _⟩
    · exact List.nil_prefix

theorem length_encode_fit (n : ℕ) (l : List α) : (encode table (fit table n l)).length ≤ n := by
  induction l generalizing n with
  | nil => exact Nat.zero_le n
  | cons c l ih =>
    rw [fit]
    split_ifs with hfits
    · have hle := ih (n - (encodeChar table c).length)
      rw [encode_cons,List.length_append]
      omega
    · exact Nat.zero_le n

/-- No longer beginning of the text has room. -/
theorem fit_longest {n : ℕ} {p : List α} (hp : p <+: l) (hn : (encode table p).length ≤ n) :
    p <+: fit table n l := by
  induction l generalizing n p with
  | nil => exact hp
  | cons c l ih =>
    cases p with
    | nil => exact List.nil_prefix
    | cons d p =>
      obtain ⟨rfl,htail⟩ := List.cons_prefix_cons.mp hp
      rw [encode_cons,List.length_append] at hn
      rw [fit,if_pos (by omega)]
      exact List.cons_prefix_cons.mpr ⟨rfl,ih htail (by omega)⟩

end Escape
end Kitakami

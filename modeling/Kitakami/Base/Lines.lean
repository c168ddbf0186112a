import Mathlib.Data.List.TakeWhile
import Kitakami.Base.Strings

/-!
# Texts taken line by line

A reader takes one piece off the front of a text: `strtok_r` a token, `fgets` a
line or what fits of it. Reading on gives all pieces. `upTo` is what a loop has
read that stops at the n-th piece that counts.
-/

namespace Kitakami

/-- `strtok_r`: the next token, and what the next call goes on with. -/
def strtokR (delim : UInt8 → Bool) (s : Str) : Option (Str × Str) :=
  let s := s.dropWhile delim
  if s = [] then none else some (s.takeWhile (!delim ·),(s.dropWhile (!delim ·)).tail)

/-- `fgets` into a buffer: the bytes read, and the rest of the file. -/
def fgets (size : ℕ) (s : Str) : Option (Str × Str) :=
  if s = [] then none
  else
    let n := min (s.findIdx (· = 10) + 1) (size-1)
    some (s.take n,s.drop n)

/-- A function that takes a piece off a text, and fails at its end. -/
structure Reader where
  next : Str → Option (Str × Str)
  shorter : ∀ s line rest, next s = some (line,rest) → rest.length < s.length

namespace Reader

/-- All pieces of a text. -/
def lines (r : Reader) (s : Str) : List Str :=
  match _h : r.next s with
  | none => []
  | some (line,rest) => line :: r.lines rest
termination_by s.length
decreasing_by exact r.shorter _ _ _ _h

variable {r : Reader} {s line rest : Str}

theorem lines_of_none (h : r.next s = none) : r.lines s = [] := by
  rw [lines]
  split
  · rfl
  · simp_all

theorem lines_of_some (h : r.next s = some (line,rest)) : r.lines s = line :: r.lines rest := by
  rw [lines]
  split
  · simp_all
  · rename_i h'
    rw [h] at h'
    cases h'
    rfl

end Reader

/-! ### Tokens -/

variable {delim : UInt8 → Bool} {s : Str}

theorem strtokR_eq_some {line rest : Str} (h : strtokR delim s = some (line,rest)) :
    rest.length < s.length := by
  unfold strtokR at h
  dsimp only at h
  split at h
  · cases h
  next hne =>
    obtain ⟨rfl,rfl⟩ := Prod.mk.inj (Option.some.inj h)
    have hdrop : (s.dropWhile delim).length ≤ s.length := (List.dropWhile_sublist _).length_le
    have hrest : ((s.dropWhile delim).dropWhile (!delim ·)).length ≤ (s.dropWhile delim).length :=
      (List.dropWhile_sublist _).length_le
    have hpos : 0 < (s.dropWhile delim).length := List.length_pos_iff.mpr hne
    rw [List.length_tail]
    omega

/-- A token at the front of a text. -/
theorem strtokR_append {t u : Str} (ht : t ≠ []) (hd : ∀ c ∈ t, delim c = false)
    (hu : ∀ c ∈ u.head?, delim c = true) : strtokR delim (t ++ u) = some (t,u.tail) := by
  have hnot : ∀ c ∈ t, (!delim c) = true := fun c hc => by rw [hd c hc]; rfl
  have hstart : (t ++ u).dropWhile delim = t ++ u := by
    obtain ⟨c,t,rfl⟩ := List.exists_cons_of_ne_nil ht
    exact List.dropWhile_cons_of_neg (by simp [hd c List.mem_cons_self])
  have hend : u.takeWhile (!delim ·) = [] ∧ u.dropWhile (!delim ·) = u := by
    cases u with
    | nil => exact ⟨rfl,rfl⟩
    | cons c u =>
      have hc : delim c = true := hu c rfl
      exact ⟨List.takeWhile_cons_of_neg (by simp [hc]),List.dropWhile_cons_of_neg (by simp [hc])⟩
  simp only [strtokR,hstart]
  rw [if_neg (by simp [ht]),List.takeWhile_append_of_pos hnot,List.dropWhile_append_of_pos hnot,
    hend.1,hend.2,List.append_nil]

def tokenReader (delim : UInt8 → Bool) : Reader where
  next := strtokR delim
  shorter _ _ _ := strtokR_eq_some

/-- The nonempty parts of a text between delimiters. -/
def tokensOf (delim : UInt8 → Bool) (s : Str) : List Str := (s.splitOnP delim).filter (· ≠ [])

theorem tokensOf_dropWhile (s : Str) : tokensOf delim (s.dropWhile delim) = tokensOf delim s := by
  induction s with
  | nil => rfl
  | cons c s ih =>
    by_cases hc : delim c
    · rw [List.dropWhile_cons_of_pos hc,ih,tokensOf,tokensOf,
        List.splitOnP_cons_eq_if_modifyHead,if_pos hc]
      rfl
    · rw [List.dropWhile_cons_of_neg hc]

theorem tokensOf_append {t u : Str} (ht : t ≠ []) (hd : ∀ c ∈ t, delim c = false)
    (hu : ∀ c ∈ u.head?, delim c = true) : tokensOf delim (t ++ u) = t :: tokensOf delim u.tail := by
  cases u with
  | nil => simp [tokensOf,List.splitOnP_eq_singleton hd,ht]
  | cons c u =>
    have hc : delim c = true := hu c rfl
    rw [tokensOf,List.splitOnP_append_cons_of_forall_mem hd c hc,
      List.filter_cons_of_pos (by simpa using ht)]
    rfl

/-- The calls of `strtok_r` give the tokens. -/
theorem lines_tokenReader (s : Str) : (tokenReader delim).lines s = tokensOf delim s := by
  generalize hn : s.length = n
  induction n using Nat.strong_induction_on generalizing s with
  | _ n ih =>
    by_cases hnil : s.dropWhile delim = []
    · rw [Reader.lines_of_none (if_pos hnil),← tokensOf_dropWhile,hnil]
      rfl
    · have hsome : (tokenReader delim).next s = some _ := if_neg hnil
      have hlen := (tokenReader delim).shorter _ _ _ hsome
      obtain ⟨c,l,hcl⟩ := List.exists_cons_of_ne_nil hnil
      have hhead : delim c = false := by
        have hdrop := List.head?_dropWhile_not delim s
        rw [hcl] at hdrop
        simpa using hdrop
      rw [Reader.lines_of_some hsome,ih _ (hn ▸ hlen) _ rfl,← tokensOf_dropWhile (s:=s)]
      conv => rhs; rw [← List.takeWhile_append_dropWhile (p:=(!delim ·)) (l:=s.dropWhile delim)]
      refine (tokensOf_append ?_ ?_ ?_).symm
      · rw [hcl,List.takeWhile_cons_of_pos (by simp [hhead])]
        exact List.cons_ne_nil _ _
      · intro d hd
        simpa using List.mem_takeWhile_imp hd
      · intro d hd
        have hdrop := List.head?_dropWhile_not (!delim ·) (s.dropWhile delim)
        rw [Option.mem_def.mp hd] at hdrop
        simpa using hdrop

/-! ### Lines -/

/-- The lines of a text, each with its line end. -/
def linesOf : Str → List Str
  | [] => []
  | c :: s =>
    if c = 10 then [c] :: linesOf s
    else
      match linesOf s with
      | [] => [[c]]
      | l :: ls => (c :: l) :: ls

theorem linesOf_eq_cons (h : s ≠ []) :
    linesOf s = s.take (s.findIdx (· = 10) + 1) :: linesOf (s.drop (s.findIdx (· = 10) + 1)) := by
  induction s with
  | nil => exact absurd rfl h
  | cons c s ih =>
    rw [linesOf,List.findIdx_cons]
    by_cases hc : c = 10
    · simp [hc]
    · rw [if_neg hc]
      simp only [hc,decide_false,cond_false,List.take_succ_cons,List.drop_succ_cons]
      by_cases hs : s = []
      · simp [hs,linesOf]
      · rw [ih hs]

def fgetsReader (size : ℕ) (hsize : 2 ≤ size) : Reader where
  next := fgets size
  shorter s line rest h := by
    unfold fgets at h
    split at h
    · cases h
    next hne =>
      obtain ⟨rfl,rfl⟩ := Prod.mk.inj (Option.some.inj h)
      have hpos := List.length_pos_iff.mpr hne
      rw [List.length_drop]
      omega

/-- Lines that fit in the buffer are read whole. -/
theorem lines_fgetsReader {size : ℕ} (hsize : 2 ≤ size) (h : ∀ l ∈ linesOf s, l.length < size) :
    (fgetsReader size hsize).lines s = linesOf s := by
  generalize hn : s.length = n
  induction n using Nat.strong_induction_on generalizing s with
  | _ n ih =>
    by_cases hnil : s = []
    · rw [Reader.lines_of_none (if_pos hnil),hnil]
      rfl
    · rw [linesOf_eq_cons hnil] at h ⊢
      have hmin : min (s.findIdx (· = 10) + 1) (size-1) = s.findIdx (· = 10) + 1 ∨
          s.length ≤ min (s.findIdx (· = 10) + 1) (size-1) := by
        have hline := h _ List.mem_cons_self
        have hidx : s.findIdx (· = 10) ≤ s.length := List.findIdx_le_length
        rw [List.length_take] at hline
        omega
      have hsome : (fgetsReader size hsize).next s = some (s.take (s.findIdx (· = 10) + 1),
          s.drop (s.findIdx (· = 10) + 1)) := by
        refine (if_neg hnil).trans ?_
        rcases hmin with hmin | hmin
        · simp only [hmin]
        · have hlong : s.length ≤ s.findIdx (· = 10) + 1 := hmin.trans (Nat.min_le_left _ _)
          simp only [List.take_of_length_le hmin,List.drop_of_length_le hmin,
            List.take_of_length_le hlong,List.drop_of_length_le hlong]
      have hlen := (fgetsReader size hsize).shorter _ _ _ hsome
      rw [Reader.lines_of_some hsome,
        ih _ (hn ▸ hlen) (fun l hl => h l (List.mem_cons_of_mem _ hl)) rfl]

/-! ### A loop that counts -/

/-- What is read until `n` pieces have counted. -/
def upTo (p : Str → Bool) : ℕ → List Str → List Str
  | 0, _ => []
  | _+1, [] => []
  | n+1, l :: ls => l :: upTo p (if p l then n else n+1) ls

theorem upTo_append_drop (p : Str → Bool) (n : ℕ) (ls : List Str) :
    upTo p n ls ++ ls.drop (upTo p n ls).length = ls := by
  induction ls generalizing n with
  | nil => cases n <;> rfl
  | cons l ls ih =>
    cases n with
    | zero => rfl
    | succ n => rw [upTo,List.cons_append,List.length_cons,List.drop_succ_cons,ih]

end Kitakami

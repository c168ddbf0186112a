import Mathlib.Tactic

/-!
# Maps written as `key=value;key=value`

A map is written in the order of its keys and read back entry by entry, a later
entry replacing an earlier one of the same key. Reading back what was written
gives the map again when no key holds the sign between key and value and no
value the sign between entries.
-/

namespace Kitakami
namespace KeyValues

variable {α : Type} {eq sep : α}

/-- Write one more entry. -/
def writeEntry (eq sep : α) (out : List α) (e : List α × List α) : List α :=
  (if out.isEmpty then out else out ++ [sep]) ++ (e.1 ++ eq::e.2)

/-- The rest of the entries, each after a separator. -/
def tail (eq sep : α) (l : List (List α × List α)) : List α :=
  l.flatMap fun e => sep::(e.1 ++ eq::e.2)

theorem foldl_writeEntry {l : List (List α × List α)} {out : List α} (h : out ≠ []) :
    l.foldl (writeEntry eq sep) out = out ++ tail eq sep l := by
  induction l generalizing out with
  | nil => simp [tail]
  | cons e l ih =>
    rw [List.foldl_cons,ih (by simp [writeEntry])]
    simp [writeEntry,tail,h]

variable [DecidableEq α]

/-- The list before and after the first `c`. -/
def breakOn (c : α) : List α → Option (List α × List α)
  | [] => none
  | x::s => if x = c then some ([],s) else (breakOn c s).map fun r => (x::r.1,r.2)

theorem breakOn_append {c : α} {k : List α} (h : c ∉ k) (s : List α) :
    breakOn c (k ++ c::s) = some (k,s) := by
  induction k with
  | nil => simp [breakOn]
  | cons x k ih =>
    obtain ⟨hx,hk⟩ := not_or.mp (mt List.mem_cons.mpr h)
    rw [List.cons_append,breakOn,if_neg (Ne.symm hx),ih hk,Option.map_some]

theorem breakOn_eq_none {c : α} {s : List α} : breakOn c s = none ↔ c ∉ s := by
  induction s with
  | nil => simp [breakOn]
  | cons x s ih =>
    by_cases hx : x = c
    · simp [breakOn,hx]
    · simp [breakOn,hx,ih,Ne.symm hx]

theorem breakOn_eq_some {c : α} {s k r : List α} (h : breakOn c s = some (k,r)) :
    s = k ++ c::r ∧ c ∉ k := by
  induction s generalizing k with
  | nil => cases h
  | cons x s ih =>
    rw [breakOn] at h
    split at h
    · case _ hx =>
      cases h
      exact ⟨by rw [hx]; rfl,List.not_mem_nil⟩
    · case _ hx =>
      obtain ⟨⟨k',r'⟩,hb,he⟩ := Option.map_eq_some_iff.mp h
      cases he
      obtain ⟨rfl,hk⟩ := ih hb
      exact ⟨rfl,by simp [hk,Ne.symm hx]⟩

abbrev Map (α : Type) [Ord α] := Std.ExtTreeMap (List α) (List α) compare

variable [Ord α] [Std.TransOrd α]

/-- Read the entries of a string into a map. -/
def parseFrom (eq sep : α) : ℕ → Map α → List α → Map α
  | 0, m, _ => m
  | fuel+1, m, s =>
    match breakOn eq s with
    | none => m
    | some (key,rest) =>
      match breakOn sep rest with
      | none => m.insert key rest
      | some (value,s') => parseFrom eq sep fuel (m.insert key value) s'

def parse (eq sep : α) (s : List α) : Map α := parseFrom eq sep (s.length+1) ∅ s

def flatten (eq sep : α) (m : Map α) : List α := m.toList.foldl (writeEntry eq sep) []

/-- Keys are free of `eq`, values are free of `sep`. -/
structure Clean (eq sep : α) (m : Map α) : Prop where
  key : ∀ k v : List α, m[k]? = some v → eq ∉ k
  value : ∀ k v : List α, m[k]? = some v → sep ∉ v

/-- What is read satisfies what the values of a string satisfy. -/
theorem parseFrom_induction {P : Map α → Prop} {S : List α → Prop} (m : Map α)
    (hstep : ∀ m k v, P m → S k → S v → eq ∉ k → sep ∉ v → P (m.insert k v))
    (hsub : ∀ a c b, S (a ++ c::b) → S a ∧ S b) (fuel : ℕ) (s : List α) (hm : P m) (hs : S s) :
    P (parseFrom eq sep fuel m s) := by
  induction fuel generalizing m s with
  | zero => exact hm
  | succ fuel ih =>
    rw [parseFrom]
    split
    · exact hm
    · case _ key rest hk =>
      obtain ⟨rfl,hkey⟩ := breakOn_eq_some hk
      obtain ⟨hs₁,hs₂⟩ := hsub _ _ _ hs
      split
      · case _ hv => exact hstep m key rest hm hs₁ hs₂ hkey (breakOn_eq_none.mp hv)
      · case _ value s' hv =>
        obtain ⟨rfl,hvalue⟩ := breakOn_eq_some hv
        obtain ⟨hs₃,hs₄⟩ := hsub _ _ _ hs₂
        exact ih _ _ (hstep m key value hm hs₁ hs₃ hkey hvalue) hs₄

/-- Reading what was written inserts the entries one after the other. -/
theorem parseFrom_tail (l : List (List α × List α)) (e : List α × List α) (m : Map α) (fuel : ℕ)
    (hk : ∀ x ∈ e::l, eq ∉ x.1) (hv : ∀ x ∈ e::l, sep ∉ x.2)
    (hf : (e.1 ++ eq::e.2 ++ tail eq sep l).length < fuel) :
    parseFrom eq sep fuel m (e.1 ++ eq::e.2 ++ tail eq sep l) = m.insertMany (e::l) := by
  induction l generalizing e m fuel with
  | nil =>
    obtain ⟨fuel,rfl⟩ := Nat.exists_eq_add_one_of_ne_zero (Nat.ne_zero_of_lt hf)
    have hs : e.1 ++ eq::e.2 ++ tail eq sep [] = e.1 ++ eq::e.2 := by simp [tail]
    rw [hs,parseFrom,breakOn_append (hk e (by simp)),Std.ExtTreeMap.insertMany_cons,
      Std.ExtTreeMap.insertMany_nil]
    simp only
    rw [breakOn_eq_none.mpr (hv e (by simp))]
  | cons e' l ih =>
    obtain ⟨fuel,rfl⟩ := Nat.exists_eq_add_one_of_ne_zero (Nat.ne_zero_of_lt hf)
    have hs : e.1 ++ eq::e.2 ++ tail eq sep (e'::l) =
        e.1 ++ eq::(e.2 ++ sep::(e'.1 ++ eq::e'.2 ++ tail eq sep l)) := by simp [tail]
    rw [hs] at hf ⊢
    rw [parseFrom,breakOn_append (hk e (by simp)),Std.ExtTreeMap.insertMany_cons]
    simp only
    rw [breakOn_append (hv e (by simp))]
    refine ih e' (m.insert e.1 e.2) fuel (fun x hx => hk x (by simp [hx]))
      (fun x hx => hv x (by simp [hx])) ?_
    simp only [List.length_append,List.length_cons] at hf ⊢
    omega

variable [Std.LawfulEqOrd α]

theorem getElem?_insert (m : Map α) (k k' v : List α) :
    (m.insert k v)[k']? = if k' = k then some v else m[k']? := by
  rw [Std.ExtTreeMap.getElem?_insert]
  by_cases h : k' = k
  · simp [h]
  · rw [if_neg h,if_neg fun hc => h (Std.LawfulEqOrd.eq_of_compare hc).symm]

omit [DecidableEq α] [Std.LawfulEqOrd α] in
theorem Clean.empty : Clean eq sep (∅ : Map α) := ⟨by simp,by simp⟩

theorem Clean.insert {m : Map α} {k v : List α} (h : Clean eq sep m) (hk : eq ∉ k) (hv : sep ∉ v) :
    Clean eq sep (m.insert k v) := by
  constructor
  · intro k' v' h'
    rw [getElem?_insert] at h'
    split at h'
    · case _ he => exact he ▸ hk
    · exact h.key k' v' h'
  · intro k' v' h'
    rw [getElem?_insert] at h'
    split at h'
    · cases h'
      exact hv
    · exact h.value k' v' h'

theorem parse_clean (s : List α) : Clean eq sep (parse eq sep s) :=
  parseFrom_induction (S:=fun _ => True) ∅ (fun _ _ _ h _ _ => h.insert) (by simp) _ s Clean.empty
    trivial

/-- A map is the map of its entries. -/
theorem insertMany_toList (m : Map α) : (∅ : Map α).insertMany m.toList = m := by
  refine Std.ExtTreeMap.ext_getElem? fun k => ?_
  cases h : m[k]? with
  | some v =>
    exact Std.ExtTreeMap.getElem?_insertMany_list_of_mem Std.ReflCmp.compare_self
      Std.ExtTreeMap.distinct_keys_toList (Std.ExtTreeMap.mem_toList_iff_getElem?_eq_some.mpr h)
  | none =>
    rw [Std.ExtTreeMap.getElem?_insertMany_list_of_contains_eq_false]
    · simp
    · rw [← Bool.not_eq_true,List.contains_iff_mem]
      intro hk
      obtain ⟨⟨k',v⟩,hm,rfl⟩ := List.mem_map.mp hk
      rw [Std.ExtTreeMap.mem_toList_iff_getElem?_eq_some.mp hm] at h
      cases h

/-- Reading back what was written. -/
theorem parse_flatten {m : Map α} (h : Clean eq sep m) : parse eq sep (flatten eq sep m) = m := by
  have hm : ∀ x ∈ m.toList, m[x.1]? = some x.2 := fun x hx =>
    Std.ExtTreeMap.mem_toList_iff_getElem?_eq_some.mp hx
  have hins := insertMany_toList m
  unfold flatten parse
  cases hl : m.toList with
  | nil =>
    rw [hl,Std.ExtTreeMap.insertMany_nil] at hins
    rw [← hins]
    rfl
  | cons e l =>
    rw [hl] at hins hm
    have hw : (e::l).foldl (writeEntry eq sep) [] = e.1 ++ eq::e.2 ++ tail eq sep l := by
      rw [List.foldl_cons,foldl_writeEntry (by simp [writeEntry])]
      rfl
    rw [hw,parseFrom_tail l e ∅ _ (fun x hx => h.key _ _ (hm x hx))
      (fun x hx => h.value _ _ (hm x hx)) (Nat.lt_succ_self _),hins]

end KeyValues
end Kitakami

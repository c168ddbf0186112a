import Mathlib.Data.Vector.Basic
import Mathlib.Tactic

/-!
# Lists in arrays of nullable slots

An array of fixed size whose entries up to the first null are the elements of a
list. An element is added in the first free slot; one that is taken out leaves
its slot to the last element, so that the array never has a hole.
-/

namespace Kitakami
namespace Slots

variable {α : Type} {n : ℕ}

/-- The elements of `l` stand at the front, and all other slots are null. -/
structure Holds (v : Vector (Option α) n) (l : List α) : Prop where
  length : l.length ≤ n
  get : ∀ i, (h : i < n) → v[i] = l[i]?

/-- The number of slots in use. -/
def used (v : Vector (Option α) n) : ℕ := v.toList.countP Option.isSome

variable {v : Vector (Option α) n} {l u w : List α} {a : α} {i : ℕ}

theorem holds_empty : Holds (Vector.replicate n (none : Option α)) [] :=
  ⟨Nat.zero_le n,fun i h => by simp⟩

theorem Holds.toList (h : Holds v l) :
    v.toList = l.map some ++ List.replicate (n - l.length) none := by
  have hle := h.length
  apply List.ext_getElem
  · simp only [Vector.length_toList,List.length_append,List.length_map,List.length_replicate]
    omega
  · intro i h₁ h₂
    rw [Vector.length_toList] at h₁
    rw [Vector.getElem_toList,h.get i h₁]
    by_cases hi : i < l.length
    · rw [List.getElem_append_left (by simpa using hi),List.getElem_map,List.getElem?_eq_getElem hi]
    · rw [List.getElem_append_right (by simpa using hi),List.getElem_replicate,
        List.getElem?_eq_none (Nat.not_lt.mp hi)]

theorem Holds.used (h : Holds v l) : used v = l.length := by
  rw [Slots.used,h.toList,List.countP_append,List.countP_map,List.countP_replicate]
  simp

theorem Holds.get_of_lt (h : Holds v l) (hi : i < l.length) (hn : i < n) : v[i] = some l[i] := by
  rw [h.get i hn,List.getElem?_eq_getElem hi]

theorem Holds.get_length (h : Holds v l) (hi : l.length < n) : v[l.length] = none := by
  rw [h.get _ hi,List.getElem?_eq_none le_rfl]

theorem Holds.push (h : Holds v l) (hi : l.length < n) :
    Holds (v.set l.length (some a)) (l ++ [a]) := by
  refine ⟨by rw [List.length_append]; exact hi,fun j hj => ?_⟩
  rw [Vector.getElem_set,List.getElem?_append]
  by_cases hjl : j < l.length
  · rw [if_neg (by omega),if_pos hjl,h.get j hj]
  · rw [if_neg hjl]
    by_cases he : l.length = j
    · subst he
      simp
    · rw [if_neg he,h.get j hj,List.getElem?_eq_none (by omega),
        List.getElem?_eq_none (by rw [List.length_singleton]; omega)]

/-- The slot `j` is emptied, and the element in slot `k` moves there. -/
def takeOut (v : Vector (Option α) n) (j k : ℕ) (hj : j < n) (hk : k < n) :
    Vector (Option α) n :=
  ((v.set j none).set j (v.set j none)[k]).set k none

theorem get_takeOut {j k m : ℕ} (hj : j < n) (hk : k < n) (hm : m < n) :
    (takeOut v j k hj hk)[m] = if m = k then none else if m = j then v[k] else v[m] := by
  simp only [takeOut,Vector.getElem_set]
  by_cases hmk : m = k
  · rw [if_pos hmk.symm,if_pos hmk]
  · rw [if_neg (Ne.symm hmk),if_neg hmk]
    by_cases hmj : m = j
    · subst hmj
      rw [if_pos rfl,if_pos rfl,if_neg hmk]
    · rw [if_neg (Ne.symm hmj),if_neg hmj,if_neg (Ne.symm hmj)]

/-- The last element leaves no gap behind. -/
theorem Holds.takeOut_last (h : Holds v (u ++ [a])) (hj : u.length < n) :
    Holds (takeOut v u.length u.length hj hj) u := by
  refine ⟨hj.le,fun m hm => ?_⟩
  rw [get_takeOut hj hj hm]
  by_cases he : m = u.length
  · rw [if_pos he,he,List.getElem?_eq_none le_rfl]
  · rw [if_neg he,if_neg he,h.get m hm,List.getElem?_append]
    by_cases hlt : m < u.length
    · rw [if_pos hlt]
    · rw [if_neg hlt,List.getElem?_eq_none (by rw [List.length_singleton]; omega),
        List.getElem?_eq_none (by omega)]

/-- The place of any other element goes to the last one. -/
theorem Holds.takeOut_mid {z : α} (h : Holds v (u ++ a::(w ++ [z]))) {k : ℕ}
    (hk : k = u.length + 1 + w.length) (hj : u.length < n) (hkn : k < n) :
    Holds (takeOut v u.length k hj hkn) (u ++ z::w) := by
  have hlen : (u ++ z::w).length = k := by
    rw [List.length_append,List.length_cons]
    omega
  have hlast : v[k] = some z := by
    rw [h.get k hkn,List.getElem?_append_right (by omega)]
    have hpos : k - u.length = w.length + 1 := by omega
    rw [hpos,List.getElem?_cons_succ,List.getElem?_concat_length]
  refine ⟨by omega,fun m hm => ?_⟩
  rw [get_takeOut hj hkn hm,hlast]
  by_cases hmk : m = k
  · rw [if_pos hmk,List.getElem?_eq_none (by omega)]
  rw [if_neg hmk]
  by_cases hmj : m = u.length
  · rw [if_pos hmj,hmj,List.getElem?_append_right le_rfl,Nat.sub_self,List.getElem?_cons_zero]
  rw [if_neg hmj,h.get m hm,List.getElem?_append,List.getElem?_append]
  by_cases hlt : m < u.length
  · rw [if_pos hlt,if_pos hlt]
  rw [if_neg hlt,if_neg hlt]
  obtain ⟨i,hi⟩ : ∃ i, m - u.length = i + 1 := ⟨m - u.length - 1,by omega⟩
  rw [hi,List.getElem?_cons_succ,List.getElem?_cons_succ,List.getElem?_append]
  by_cases hiw : i < w.length
  · rw [if_pos hiw]
  · rw [if_neg hiw,List.getElem?_eq_none (by rw [List.length_singleton]; omega),
      List.getElem?_eq_none (by omega)]

/-- An element is taken out of the array, and the others stay. -/
theorem Holds.takeOut (h : Holds v (u ++ a::w)) {k : ℕ} (hk : k = u.length + w.length)
    (hj : u.length < n) (hkn : k < n) :
    ∃ w', w'.Perm w ∧ Holds (takeOut v u.length k hj hkn) (u ++ w') := by
  rcases List.eq_nil_or_concat w with rfl | ⟨w,z,rfl⟩
  · subst hk
    exact ⟨[],List.Perm.nil,by simpa using h.takeOut_last hj⟩
  · rw [List.concat_eq_append] at h hk ⊢
    refine ⟨z::w,(List.perm_append_singleton z w).symm,h.takeOut_mid ?_ hj hkn⟩
    rw [hk,List.length_append,List.length_singleton]
    omega

end Slots
end Kitakami

import Kitakami.Base.KeyValues

/-!
# Entries in the text of a map

An entry is found in a written map by a search for its key between a separator
and the sign behind the key. The search cannot stop inside an entry, so it finds
the entry of the key or none, and what stands there up to the next separator is
the value. Writing another value there gives the text of the changed map.
-/

namespace Kitakami
namespace KeyValues

variable {α : Type} {eq sep : α} {k v x s : List α} {e : List α × List α}
  {l pre post : List (List α × List α)}

/-- The text of a list of entries. -/
def text (eq sep : α) : List (List α × List α) → List α
  | [] => []
  | e::l => e.1 ++ eq::e.2 ++ tail eq sep l

/-- The entries that a text tells apart. -/
def Separable (eq sep : α) (l : List (List α × List α)) : Prop :=
  ∀ e ∈ l, eq ∉ e.1 ∧ sep ∉ e.1 ∧ sep ∉ e.2

/-- What stands before the entry behind `pre`. -/
def before (eq sep : α) (pre : List (List α × List α)) : List α :=
  match pre with
  | [] => []
  | _::_ => text eq sep pre ++ [sep]

theorem tail_append (pre post : List (List α × List α)) :
    tail eq sep (pre ++ post) = tail eq sep pre ++ tail eq sep post := by
  simp [tail]

theorem tail_cons (e : List α × List α) (l : List (List α × List α)) :
    tail eq sep (e::l) = sep::(e.1 ++ eq::e.2 ++ tail eq sep l) := by
  simp [tail]

theorem text_append (pre post : List (List α × List α)) (e : List α × List α) :
    text eq sep (pre ++ e::post) =
      before eq sep pre ++ (e.1 ++ eq::e.2) ++ tail eq sep post := by
  cases pre with
  | nil => rfl
  | cons e' pre => simp [text,before,tail_append,tail_cons]

theorem Separable.notMem (h : Separable eq sep (e::l)) (hne : eq ≠ sep) : sep ∉ e.1 ++ eq::e.2 := by
  obtain ⟨-,hk,hv⟩ := h e List.mem_cons_self
  simp [hk,hv,Ne.symm hne]

theorem Separable.tail (h : Separable eq sep (e::l)) : Separable eq sep l :=
  fun e he => h e (List.mem_cons_of_mem _ he)

variable [DecidableEq α]

/-- The first position at which `pat` stands. -/
def findList (pat : List α) : List α → Option ℕ
  | [] => if pat.isPrefixOf [] then some 0 else none
  | c::s => if pat.isPrefixOf (c::s) then some 0 else (findList pat s).map (· + 1)

/-- The search goes past everything before the first sign that it looks for. -/
theorem findList_skip {c : α} (hx : c ∉ x) (pat s : List α) :
    findList (c::pat) (x ++ s) = (findList (c::pat) s).map (x.length + ·) := by
  induction x with
  | nil => simp
  | cons d x ih =>
    obtain ⟨hd,hx⟩ := not_or.mp (mt List.mem_cons.mpr hx)
    have hno : (c::pat).isPrefixOf (d::(x ++ s)) = false := by simp [List.isPrefixOf,hd]
    rw [List.cons_append,findList,hno,if_neg Bool.false_ne_true,ih hx,Option.map_map]
    congr 1
    funext n
    simp only [Function.comp_apply,List.length_cons]
    omega

theorem isPrefixOf_key_iff {k' r : List α} (hk : eq ∉ k) (hk' : eq ∉ k') :
    (k ++ [eq]).isPrefixOf (k' ++ eq::r) = true ↔ k = k' := by
  rw [List.isPrefixOf_iff_prefix]
  constructor
  · rintro ⟨r',hr⟩
    have hb := breakOn_append hk r'
    rw [show k ++ eq::r' = k' ++ eq::r by simpa using hr,breakOn_append hk' r] at hb
    exact (Prod.mk.inj (Option.some.inj hb)).1.symm
  · rintro rfl
    exact ⟨r,by simp⟩

/-- At a separator the search stops exactly if the key of the entry behind it is `k`. -/
theorem findList_sep (hk : eq ∉ k) (he : eq ∉ e.1) (s : List α) :
    findList (sep::(k ++ [eq])) (sep::(e.1 ++ eq::e.2 ++ s)) =
      if k = e.1 then some 0
      else (findList (sep::(k ++ [eq])) (e.1 ++ eq::e.2 ++ s)).map (· + 1) := by
  have hp : (sep::(k ++ [eq])).isPrefixOf (sep::(e.1 ++ eq::e.2 ++ s)) = true ↔ k = e.1 := by
    rw [← isPrefixOf_key_iff (r:=e.2 ++ s) hk he]
    simp [List.isPrefixOf]
  rw [findList]
  exact if_congr hp rfl rfl

/-- A key that is not there is not found. -/
theorem findList_tail_none (hne : eq ≠ sep) (h : Separable eq sep l) (hk : eq ∉ k)
    (hl : ∀ e ∈ l, k ≠ e.1) : findList (sep::(k ++ [eq])) (tail eq sep l) = none := by
  induction l with
  | nil => rfl
  | cons e l ih =>
    have hrest := ih h.tail fun e he => hl e (List.mem_cons_of_mem _ he)
    rw [tail_cons,findList_sep hk (h e List.mem_cons_self).1,if_neg (hl e List.mem_cons_self),
      findList_skip (h.notMem hne),hrest]
    rfl

/-- The first entry of a key is found. -/
theorem findList_tail_some (hne : eq ≠ sep) (h : Separable eq sep (pre ++ (k,v)::post))
    (hpre : ∀ e ∈ pre, k ≠ e.1) :
    findList (sep::(k ++ [eq])) (tail eq sep (pre ++ (k,v)::post)) =
      some (tail eq sep pre).length := by
  have hk : eq ∉ k := (h (k,v) (by simp)).1
  induction pre with
  | nil =>
    rw [List.nil_append,tail_cons,findList_sep hk hk,if_pos rfl]
    rfl
  | cons e pre ih =>
    have hrest := ih h.tail fun e he => hpre e (List.mem_cons_of_mem _ he)
    rw [List.cons_append,tail_cons,findList_sep hk (h e List.mem_cons_self).1,
      if_neg (hpre e List.mem_cons_self),findList_skip (h.notMem hne),hrest,tail_cons]
    simp only [Option.map_some,List.length_cons,List.length_append]

/-! ## The text of a map -/

variable [Ord α] [Std.TransOrd α]

omit [DecidableEq α] in
theorem flatten_eq_text (m : Map α) : flatten eq sep m = text eq sep m.toList := by
  rw [flatten]
  cases m.toList with
  | nil => rfl
  | cons e l =>
    rw [List.foldl_cons,foldl_writeEntry (by simp [writeEntry])]
    rfl

variable [Std.LawfulEqOrd α] {m : Map α}

omit [DecidableEq α] [Std.LawfulEqOrd α] in
theorem compare_key_self (k : List α) : compare k k = .eq := Std.ReflCmp.compare_self

omit [DecidableEq α] in
/-- The entries of a map around the one of a key. -/
theorem exists_toList (h : m[k]? = some v) :
    ∃ pre post, m.toList = pre ++ (k,v)::post ∧ ∀ e ∈ pre, k ≠ e.1 := by
  obtain ⟨pre,post,hl⟩ := List.append_of_mem
    (Std.ExtTreeMap.mem_toList_iff_getElem?_eq_some.mpr h)
  refine ⟨pre,post,hl,fun e he hk => ?_⟩
  have hd := Std.ExtTreeMap.distinct_keys_toList (t:=m)
  rw [hl] at hd
  have hne := (List.pairwise_append.mp hd).2.2 e he (k,v) List.mem_cons_self
  rw [← hk,compare_key_self] at hne
  exact hne rfl

omit [DecidableEq α] [Std.LawfulEqOrd α] in
theorem nodup_of_ordered {l : List (List α × List α)}
    (h : l.Pairwise fun a b => compare a.1 b.1 = .lt) : l.Nodup :=
  h.imp fun {a b} hab he => by
    subst he
    rw [compare_key_self] at hab
    cases hab

/-- Another value for a key that is there changes its entry only. -/
theorem toList_insert (h : m.toList = pre ++ (k,v)::post) (w : List α) :
    (m.insert k w).toList = pre ++ (k,w)::post := by
  have hsorted := Std.ExtTreeMap.ordered_keys_toList (t:=m)
  rw [h] at hsorted
  have hkeys : (pre ++ (k,w)::post).Pairwise fun a b => compare a.1 b.1 = .lt := by
    simpa only [List.pairwise_append,List.pairwise_cons,List.mem_cons,forall_eq_or_imp] using hsorted
  have hsorted' := Std.ExtTreeMap.ordered_keys_toList (t:=m.insert k w)
  have hother : ∀ u, (k,u) ∉ pre ++ post := by
    intro u hu
    rw [List.pairwise_append,List.pairwise_cons] at hsorted
    have hlt : compare k k = .lt := by
      rcases List.mem_append.mp hu with hu | hu
      · exact hsorted.2.2 _ hu (k,v) List.mem_cons_self
      · exact hsorted.2.1.1 _ hu
    rw [compare_key_self] at hlt
    cases hlt
  have hasymm : ∀ a b : List α × List α, compare a.1 b.1 = .lt → compare b.1 a.1 = .lt → a = b :=
    fun a b hab hba => (Std.OrientedCmp.not_lt_of_lt hab hba).elim
  refine List.Perm.eq_of_pairwise (fun a b _ _ => hasymm a b) hsorted' hkeys ?_
  refine (List.perm_ext_iff_of_nodup (nodup_of_ordered hsorted') (nodup_of_ordered hkeys)).mpr ?_
  rintro ⟨k',u⟩
  rw [Std.ExtTreeMap.mem_toList_iff_getElem?_eq_some,getElem?_insert]
  by_cases hk : k' = k
  · subst hk
    have := hother u
    simp only [List.mem_append,List.mem_cons,Prod.mk.injEq,true_and,if_true,Option.some.injEq] at this ⊢
    tauto
  · rw [if_neg hk,← Std.ExtTreeMap.mem_toList_iff_getElem?_eq_some,h]
    simp [hk]

end KeyValues
end Kitakami

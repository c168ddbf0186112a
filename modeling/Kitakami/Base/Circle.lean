import Mathlib.Data.List.Chain
import Mathlib.Tactic

/-!
# Circles of linked nodes

Two link fields per node, and the lists that run through them: the nodes of a
list form a circle with a node `s` that stands for the list itself. A list that
ends in null pointers at both ends is a circle as well: `s` is then the null
pointer, whose fields are the head and the tail of the list. Both edits of a
list, taking a node out and putting one in, are made of `join`.
-/

namespace Kitakami

/-- The two link fields of the nodes. -/
@[ext] structure Links (P : Type) where
  next : P → P
  prev : P → P

namespace Links

variable {P : Type} {k k' : Links P} {s x y a b : P} {l u v : List P}

/-- `y` comes after `x`. -/
def Joined (k : Links P) (x y : P) : Prop := k.next x = y ∧ k.prev y = x

/-- The nodes of `l`, in this order, form a circle with `s`. -/
structure Circle (k : Links P) (s : P) (l : List P) : Prop where
  nodup : (s::l).Nodup
  chain : ((s::l) ++ [s]).IsChain k.Joined

/-! ## Walking -/

/-- At every place of the circle the two nodes there point at each other. -/
theorem Circle.joined (h : k.Circle s (u ++ v)) (ha : (s::u).getLast? = some a)
    (hb : (v ++ [s]).head? = some b) : k.Joined a b := by
  have hc : ((s::u) ++ (v ++ [s])).IsChain k.Joined := by simpa using h.chain
  exact (List.isChain_append.mp hc).2.2 a ha b hb

theorem head?_append_singleton (l : List P) (s : P) : ∃ b, (l ++ [s]).head? = some b := by
  cases l <;> simp

theorem getLast?_cons_isSome (l : List P) (s : P) : ∃ a, (s::l).getLast? = some a :=
  ⟨_,List.getLast?_cons⟩

theorem Circle.next_self (h : k.Circle s l) : (l ++ [s]).head? = some (k.next s) := by
  obtain ⟨b,hb⟩ := head?_append_singleton l s
  have hj : k.Joined s b := Circle.joined (u:=[]) h rfl hb
  rw [hb,hj.1]

theorem Circle.prev_self (h : k.Circle s l) : (s::l).getLast? = some (k.prev s) := by
  obtain ⟨a,ha⟩ := getLast?_cons_isSome l s
  have hj : k.Joined a s := Circle.joined (v:=[]) (by rwa [List.append_nil]) ha rfl
  rw [ha,hj.2]

theorem Circle.prev_next_self (h : k.Circle s l) : k.prev (k.next s) = s :=
  (Circle.joined (u:=[]) h rfl h.next_self).2

theorem Circle.next_mid (h : k.Circle s (u ++ x::v)) :
    (v ++ [s]).head? = some (k.next x) := by
  obtain ⟨b,hb⟩ := head?_append_singleton v s
  have hx : (s::(u ++ [x])).getLast? = some x := by
    rw [← List.cons_append,List.getLast?_concat]
  have hj : k.Joined x b := Circle.joined (by rwa [List.append_assoc]) hx hb
  rw [hb,hj.1]

theorem Circle.prev_mid (h : k.Circle s (u ++ x::v)) :
    (s::u).getLast? = some (k.prev x) := by
  obtain ⟨a,ha⟩ := getLast?_cons_isSome u s
  have hj : k.Joined a x := h.joined ha rfl
  rw [ha,hj.2]

theorem Circle.next_head (h : k.Circle s (x::l)) : k.next s = x := by
  simpa using h.next_self.symm

/-- A circle depends on the fields of its own nodes only. -/
theorem Circle.congr (h : k.Circle s l)
    (hk : ∀ x ∈ s::l, k'.next x = k.next x ∧ k'.prev x = k.prev x) : k'.Circle s l := by
  refine ⟨h.nodup,List.IsChain.imp_of_mem_imp ?_ h.chain⟩
  intro x y hx hy hxy
  have hx' : x ∈ s::l := by
    rcases List.mem_append.mp hx with hx | hx
    · exact hx
    · exact List.mem_singleton.mp hx ▸ List.mem_cons_self
  have hy' : y ∈ s::l := by
    rcases List.mem_append.mp hy with hy | hy
    · exact hy
    · exact List.mem_singleton.mp hy ▸ List.mem_cons_self
  exact ⟨(hk x hx').1.trans hxy.1,(hk y hy').2.trans hxy.2⟩

theorem circle_nil (hn : k.next s = s) (hp : k.prev s = s) : k.Circle s [] :=
  ⟨by simp,by simp [Joined,hn,hp]⟩

/-! ## Editing -/

/-- Where a circle is cut, the nodes beside the cut are the last and the first
of their sides and occur nowhere else. -/
theorem beside_cut (hn : (s::(u ++ v)).Nodup) (ha : (s::u).getLast? = some a)
    (hb : (v ++ [s]).head? = some b) :
    (a ∉ (s::u).dropLast ∧ b ∉ (s::u).tail) ∧ a ∉ (v ++ [s]).dropLast ∧
      b ∉ (v ++ [s]).tail := by
  have hleft : (s::u).Nodup := hn.sublist (by simp)
  have hright : (v ++ [s]).Nodup := by
    have hsub : (s::v).Nodup := hn.sublist (by simp)
    exact (List.perm_append_singleton s v).nodup_iff.mpr hsub
  have hdisj : ∀ y ∈ u, ∀ z ∈ v, y ≠ z := (List.nodup_append.mp (List.nodup_cons.mp hn).2).2.2
  have hs : s ∉ u ++ v := (List.nodup_cons.mp hn).1
  have ha' : a ∈ s::u := List.mem_of_mem_getLast? ha
  have hb' : b ∈ v ++ [s] := List.mem_of_mem_head? hb
  refine ⟨⟨?_,?_⟩,?_,?_⟩
  · rw [← List.dropLast_append_getLast? a ha] at hleft
    intro hmem
    exact (List.nodup_append.mp hleft).2.2 a hmem a List.mem_cons_self rfl
  · rw [List.tail_cons]
    intro hmem
    rcases List.mem_append.mp hb' with hb' | hb'
    · exact hdisj b hmem b hb' rfl
    · exact hs (List.mem_append_left v (List.mem_singleton.mp hb' ▸ hmem))
  · rw [List.dropLast_concat]
    intro hmem
    rcases List.mem_cons.mp ha' with rfl | ha'
    · exact hs (List.mem_append_right u hmem)
    · exact hdisj a ha' a hmem rfl
  · rw [← List.cons_head?_tail hb] at hright
    exact (List.nodup_cons.mp hright).1

variable [DecidableEq P]

/-- Make `b` the node after `a`. -/
def join (k : Links P) (a b : P) : Links P where
  next := Function.update k.next a b
  prev := Function.update k.prev b a

/-- Take `x` out of its place. -/
def unlink (k : Links P) (x : P) : Links P := k.join (k.prev x) (k.next x)

/-- Put `x` in front of `b`. -/
def insertBefore (k : Links P) (x b : P) : Links P := (k.join (k.prev b) x).join x b

theorem joined_join : (k.join a b).Joined a b := by
  simp [Joined,join]

theorem Joined.join (h : k.Joined x y) (hx : x ≠ a) (hy : y ≠ b) : (k.join a b).Joined x y := by
  simpa [Joined,Links.join,hx,hy] using h

/-- A chain in which neither field of the edit is used stays a chain. -/
theorem isChain_join (h : l.IsChain k.Joined) (ha : a ∉ l.dropLast) (hb : b ∉ l.tail) :
    l.IsChain (k.join a b).Joined := by
  induction l using List.twoStepInduction with
  | nil => exact List.IsChain.nil
  | singleton x => exact List.IsChain.singleton x
  | cons_cons x y l _ ih =>
    rw [List.isChain_cons_cons] at h ⊢
    rw [List.dropLast_cons_cons,List.mem_cons,not_or] at ha
    rw [List.tail_cons,List.mem_cons,not_or] at hb
    exact ⟨h.1.join (Ne.symm ha.1) (Ne.symm hb.1),ih y h.2 ha.2 hb.2⟩

/-- Joining the two sides of a cut. -/
theorem isChain_join_append (hn : (s::(u ++ v)).Nodup) (hleft : (s::u).IsChain k.Joined)
    (hright : (v ++ [s]).IsChain k.Joined) (ha : (s::u).getLast? = some a)
    (hb : (v ++ [s]).head? = some b) : ((s::u) ++ (v ++ [s])).IsChain (k.join a b).Joined := by
  obtain ⟨⟨hal,hbl⟩,har,hbr⟩ := beside_cut hn ha hb
  refine List.isChain_append.mpr ⟨isChain_join hleft hal hbl,isChain_join hright har hbr,?_⟩
  intro a' ha' b' hb'
  obtain rfl : a = a' := Option.some.inj (ha.symm.trans ha')
  obtain rfl : b = b' := Option.some.inj (hb.symm.trans hb')
  exact joined_join

theorem Circle.unlink (h : k.Circle s (u ++ x::v)) : (k.unlink x).Circle s (u ++ v) := by
  have hn : (s::(u ++ v)).Nodup := h.nodup.sublist (by simp)
  have hc : ((s::u) ++ (x::(v ++ [s]))).IsChain k.Joined := by simpa using h.chain
  obtain ⟨hleft,hmid,-⟩ := List.isChain_append.mp hc
  have hright : (v ++ [s]).IsChain k.Joined := (List.isChain_cons.mp hmid).2
  refine ⟨hn,?_⟩
  have hjoin := isChain_join_append hn hleft hright h.prev_mid h.next_mid
  rwa [← List.append_assoc] at hjoin

theorem Circle.insertBefore (h : k.Circle s (u ++ v)) (hx : x ∉ s::(u ++ v))
    (hb : (v ++ [s]).head? = some b) : (k.insertBefore x b).Circle s (u ++ x::v) := by
  have hc : ((s::u) ++ (v ++ [s])).IsChain k.Joined := by simpa using h.chain
  obtain ⟨hleft,hright,hcut⟩ := List.isChain_append.mp hc
  obtain ⟨a,ha⟩ := getLast?_cons_isSome u s
  obtain rfl : k.prev b = a := (hcut a ha b hb).2
  obtain ⟨⟨hal,-⟩,har,-⟩ := beside_cut h.nodup ha hb
  -- the left side with the new node at its end, then the right side
  have hxl : x ∉ (s::u).tail := fun hmem => hx (by simp at hmem; simp [hmem])
  have hxr : x ∉ (v ++ [s]).tail := by
    intro hmem
    have := List.mem_of_mem_tail hmem
    simp at this hx
    tauto
  have hleft' : (s::(u ++ [x])).IsChain (k.join (k.prev b) x).Joined := by
    rw [← List.cons_append]
    refine List.isChain_append.mpr ⟨isChain_join hleft hal hxl,List.IsChain.singleton x,?_⟩
    intro a' ha' x' hx'
    obtain rfl : k.prev b = a' := Option.some.inj (ha.symm.trans ha')
    obtain rfl : x = x' := Option.some.inj hx'
    exact joined_join
  have hn : (s::((u ++ [x]) ++ v)).Nodup := by
    have hperm : (s::((u ++ [x]) ++ v)).Perm (x::(s::(u ++ v))) := by
      rw [List.append_assoc,List.singleton_append]
      exact (List.perm_middle.cons s).trans (List.Perm.swap x s _)
    exact hperm.nodup_iff.mpr (List.nodup_cons.mpr ⟨hx,h.nodup⟩)
  have hlast : (s::(u ++ [x])).getLast? = some x := by
    rw [← List.cons_append,List.getLast?_concat]
  have hjoin := isChain_join_append hn hleft' (isChain_join hright har hxr) hlast hb
  refine ⟨by simpa using hn,?_⟩
  simpa [Links.insertBefore] using hjoin

end Links
end Kitakami

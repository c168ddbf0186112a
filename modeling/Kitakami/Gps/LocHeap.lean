import Mathlib.Data.List.Perm.Basic
import Mathlib.Tactic

/-!
# LocHeap

The heap of `LocHeap.cpp`: a binary tree sorted downwards only, whose nodes keep
the size of their subtree. A push descends into the smaller subtree, a pop
pulls the higher ranking child up, and a remove searches the tree for one
object by address. The ranking is a parameter, as `LocRankable::ranks` is.
-/

namespace Kitakami

/-- `LocHeapNode`, with `null` for the NULL pointer. -/
inductive LocHeap (α : Type)
  | null
  | node (mSize : ℤ) (mData : α) (mLeft mRight : LocHeap α)
  deriving DecidableEq

namespace LocHeap

variable {α : Type} (outRanks : α → α → Bool)

/-- `mSize`; it is only read of nodes. -/
def size : LocHeap α → ℤ
  | null => 0
  | node n _ _ _ => n

/-- The data of the top, `NULL` for the empty heap. -/
def peek : LocHeap α → Option α
  | null => none
  | node _ d _ _ => some d

/-- The objects in the heap. -/
def toList : LocHeap α → List α
  | null => []
  | node _ d l r => d :: (l.toList ++ r.toList)

def isNull : LocHeap α → Bool
  | null => true
  | node _ _ _ _ => false

/-- `LocHeap::push` and `LocHeapNode::push`: the lower ranking of the two goes
down, into an empty subtree or the smaller one. -/
def push : LocHeap α → α → LocHeap α
  | null, x => node 1 x null null
  | node n d l r, x =>
    let up := if outRanks x d then x else d
    let down := if outRanks x d then d else x
    if l.isNull then node (n+1) up (push l down) r
    else if r.isNull then node (n+1) up l (push r down)
    else if l.size ≤ r.size then node (n+1) up (push l down) r
    else node (n+1) up l (push r down)

/-- The tree that `LocHeapNode::pop` leaves: the data of the higher ranking
child moves up, recursively to the leaf that is taken out. -/
def pop : LocHeap α → LocHeap α
  | null => null
  | node _ _ null null => null
  | node n _ null (node k f p q) => node (n-1) f null (pop (node k f p q))
  | node n _ (node m e a b) null => node (n-1) e (pop (node m e a b)) null
  | node n _ (node m e a b) (node k f p q) =>
    if outRanks e f then node (n-1) e (pop (node m e a b)) (node k f p q)
    else node (n-1) f (node m e a b) (pop (node k f p q))

/-- `LocHeapNode::remove`: the tree without `x`, or `none` where the search fails.
A subtree is searched only when `x` does not outrank its top. -/
def remove [DecidableEq α] (x : α) : LocHeap α → Option (LocHeap α)
  | null => none
  | node n d l r =>
    if x = d then some (pop outRanks (node n d l r))
    else if !outRanks x d then
      match remove x l with
      | some l' => some (node (n-1) d l' r)
      | none =>
        match remove x r with
        | some r' => some (node (n-1) d l r')
        | none => none
    else none

/-- No child outranks its parent, as `checkNodes` demands. -/
def Ordered : LocHeap α → Prop
  | null => True
  | node _ d l r =>
    (∀ e ∈ l.peek, outRanks e d = false) ∧ (∀ e ∈ r.peek, outRanks e d = false) ∧
      l.Ordered ∧ r.Ordered

/-- What a ranking must satisfy: it is a strict order with total incomparability. -/
structure Ranking (outRanks : α → α → Bool) : Prop where
  asymm : ∀ a b, outRanks a b = true → outRanks b a = false
  negTrans : ∀ a b c, outRanks a b = false → outRanks b c = false → outRanks a c = false

variable {outRanks}

theorem Ranking.irrefl (h : Ranking outRanks) (a : α) : outRanks a a = false := by
  cases ha : outRanks a a with
  | false => rfl
  | true => simpa [ha] using h.asymm a a ha

theorem mem_of_peek {t : LocHeap α} {d : α} (h : t.peek = some d) : d ∈ t.toList := by
  cases t with
  | null => cases h
  | node n e l r =>
    obtain rfl : e = d := by simpa [peek] using h
    simp [toList]

/-- The top of an ordered heap is outranked by nothing in the heap. -/
theorem Ordered.top_highest (hr : Ranking outRanks) {t : LocHeap α} (h : t.Ordered outRanks)
    {d : α} (hd : t.peek = some d) : ∀ x ∈ t.toList, outRanks x d = false := by
  induction t generalizing d with
  | null => cases hd
  | node n e l r ihl ihr =>
    obtain rfl : e = d := by simpa [peek] using hd
    obtain ⟨hl,hr',hlo,hro⟩ := h
    have below : ∀ t : LocHeap α, (∀ e' ∈ t.peek, outRanks e' e = false) →
        (∀ {d}, t.peek = some d → ∀ x ∈ t.toList, outRanks x d = false) →
        ∀ x ∈ t.toList, outRanks x e = false := by
      intro t ht ih x hx
      cases hp : t.peek with
      | none => cases t <;> simp_all [peek,toList]
      | some e' => exact hr.negTrans x e' e (ih hp x hx) (ht e' hp)
    intro x hx
    rcases List.mem_cons.mp hx with rfl | hx
    · exact hr.irrefl x
    rcases List.mem_append.mp hx with hx | hx
    · exact below l hl (fun hp => ihl hlo hp) x hx
    · exact below r hr' (fun hp => ihr hro hp) x hx

/-! ## push -/

/-- What a push into a node does: the higher ranking object stays, the other goes
into one of the subtrees. -/
theorem push_node (outRanks : α → α → Bool) (n : ℤ) (d : α) (l r : LocHeap α) (x : α) :
    ∃ up down, (up = x ∧ down = d ∧ outRanks x d = true ∨
        up = d ∧ down = x ∧ outRanks x d = false) ∧
      ((node n d l r).push outRanks x = node (n+1) up (l.push outRanks down) r ∨
        (node n d l r).push outRanks x = node (n+1) up l (r.push outRanks down)) := by
  refine ⟨if outRanks x d then x else d,if outRanks x d then d else x,?_,?_⟩
  · cases h : outRanks x d <;> simp
  · simp only [push]
    by_cases hl : l.isNull
    · simp [hl]
    by_cases hr : r.isNull
    · simp [hl,hr]
    by_cases hs : l.size ≤ r.size
    · simp [hl,hr,hs]
    · simp [hl,hr,hs]

theorem push_perm (t : LocHeap α) (x : α) : (t.push outRanks x).toList.Perm (x :: t.toList) := by
  induction t generalizing x with
  | null => exact List.Perm.refl _
  | node n d l r ihl ihr =>
    obtain ⟨up,down,hud,he⟩ := push_node outRanks n d l r x
    have hswap : ∀ rest : List α, (up :: down :: rest).Perm (x :: d :: rest) := by
      rcases hud with ⟨rfl,rfl,-⟩ | ⟨rfl,rfl,-⟩
      · exact fun rest => List.Perm.refl _
      · exact fun rest => List.Perm.swap _ _ _
    rcases he with he | he <;> rw [he]
    · exact (((ihl down).append_right r.toList).cons up).trans (hswap _)
    · exact ((((ihr down).append_left l.toList).trans List.perm_middle).cons up).trans (hswap _)

/-- The top after a push is the new object where it outranks the old top. -/
theorem peek_push (t : LocHeap α) (x : α) :
    (t.push outRanks x).peek = some (match t.peek with
      | none => x
      | some d => if outRanks x d then x else d) := by
  cases t with
  | null => rfl
  | node n d l r =>
    obtain ⟨up,down,hud,he⟩ := push_node outRanks n d l r x
    rcases hud with ⟨rfl,rfl,ho⟩ | ⟨rfl,rfl,ho⟩ <;> rcases he with he | he <;> simp [he,peek,ho]

theorem Ordered.push (hr : Ranking outRanks) {t : LocHeap α} (h : t.Ordered outRanks) (x : α) :
    (t.push outRanks x).Ordered outRanks := by
  induction t generalizing x with
  | null => simp [LocHeap.push,Ordered,peek]
  | node n d l r ihl ihr =>
    obtain ⟨hl,hr',hlo,hro⟩ := h
    obtain ⟨up,down,hud,he⟩ := push_node outRanks n d l r x
    have hdown : outRanks down up = false := by
      rcases hud with ⟨rfl,rfl,ho⟩ | ⟨rfl,rfl,ho⟩
      · exact hr.asymm _ _ ho
      · exact ho
    have hup : ∀ e, outRanks e d = false → outRanks e up = false := by
      rcases hud with ⟨rfl,rfl,ho⟩ | ⟨rfl,rfl,ho⟩
      · exact fun e he => hr.negTrans e _ _ he (hr.asymm _ _ ho)
      · exact fun e he => he
    have hsub : ∀ t : LocHeap α, (∀ e ∈ t.peek, outRanks e d = false) →
        ∀ e ∈ (t.push outRanks down).peek, outRanks e up = false := by
      intro t ht e he
      rw [peek_push] at he
      obtain rfl := Option.mem_some_iff.mp he
      cases hp : t.peek with
      | none => exact hdown
      | some f =>
        simp only
        split
        · exact hdown
        · exact hup f (ht f hp)
    rcases he with he | he <;> rw [he]
    · exact ⟨hsub l hl,fun e he => hup e (hr' e he),ihl hlo down,hro⟩
    · exact ⟨fun e he => hup e (hl e he),hsub r hr',hlo,ihr hro down⟩

/-! ## pop -/

/-- What a pop of a node leaves: the top of a subtree that the other does not
outrank moves up. -/
theorem pop_node (hr : Ranking outRanks) (n : ℤ) (d : α) (l r : LocHeap α) :
    (l = null ∧ r = null ∧ (node n d l r).pop outRanks = null) ∨
    (∃ e, l.peek = some e ∧ (∀ f ∈ r.peek, outRanks f e = false) ∧
      (node n d l r).pop outRanks = node (n-1) e (l.pop outRanks) r) ∨
    (∃ f, r.peek = some f ∧ (∀ e ∈ l.peek, outRanks e f = false) ∧
      (node n d l r).pop outRanks = node (n-1) f l (r.pop outRanks)) := by
  cases l with
  | null =>
    cases r with
    | null => exact .inl ⟨rfl,rfl,rfl⟩
    | node k f p q => exact .inr (.inr ⟨f,rfl,by simp [peek],rfl⟩)
  | node m e a b =>
    cases r with
    | null => exact .inr (.inl ⟨e,rfl,by simp [peek],rfl⟩)
    | node k f p q =>
      by_cases ho : outRanks e f = true
      · exact .inr (.inl ⟨e,rfl,by simpa [peek] using hr.asymm e f ho,by simp [pop,ho]⟩)
      · exact .inr (.inr ⟨f,rfl,by simpa [peek] using ho,by simp [pop,ho]⟩)

/-- A pop takes out the top and nothing else. -/
theorem pop_perm (hr : Ranking outRanks) {t : LocHeap α} {d : α} (hd : t.peek = some d) :
    t.toList.Perm (d :: (t.pop outRanks).toList) := by
  induction t generalizing d with
  | null => cases hd
  | node n c l r ihl ihr =>
    obtain rfl : c = d := by simpa [peek] using hd
    rcases pop_node hr n c l r with ⟨rfl,rfl,he⟩ | ⟨e,hp,-,he⟩ | ⟨f,hp,-,he⟩ <;> rw [he]
    · exact List.Perm.refl _
    · exact ((ihl hp).append_right r.toList).cons c
    · exact (((ihr hp).append_left l.toList).trans List.perm_middle).cons c

theorem Ordered.pop (hr : Ranking outRanks) {t : LocHeap α} (h : t.Ordered outRanks) :
    (t.pop outRanks).Ordered outRanks := by
  induction t with
  | null => trivial
  | node n d l r ihl ihr =>
    obtain ⟨hl,hr',hlo,hro⟩ := h
    have hsub : ∀ t : LocHeap α, t.Ordered outRanks → ∀ e, t.peek = some e →
        ∀ g ∈ (t.pop outRanks).peek, outRanks g e = false := by
      intro t ht e hp g hg
      refine ht.top_highest hr hp g ?_
      exact ((pop_perm hr hp).mem_iff).mpr (List.mem_cons_of_mem _ (mem_of_peek hg))
    rcases pop_node hr n d l r with ⟨rfl,rfl,he⟩ | ⟨e,hp,hother,he⟩ | ⟨f,hp,hother,he⟩ <;> rw [he]
    · trivial
    · exact ⟨hsub l hlo e hp,hother,ihl hlo,hro⟩
    · exact ⟨hother,hsub r hro f hp,hlo,ihr hro⟩

/-! ## remove -/

section Remove

variable [DecidableEq α]

/-- The three ways a remove succeeds. -/
theorem remove_node {x : α} {n : ℤ} {d : α} {l r t : LocHeap α}
    (h : (node n d l r).remove outRanks x = some t) :
    (x = d ∧ t = (node n d l r).pop outRanks) ∨
    (∃ l', x ≠ d ∧ l.remove outRanks x = some l' ∧ t = node (n-1) d l' r) ∨
    (∃ r', x ≠ d ∧ r.remove outRanks x = some r' ∧ t = node (n-1) d l r') := by
  by_cases hx : x = d
  · exact .inl ⟨hx,by simpa [remove,hx] using h.symm⟩
  simp only [remove,hx,if_false] at h
  split at h
  · cases hl : l.remove outRanks x with
    | some l' => exact .inr (.inl ⟨l',hx,rfl,by simpa [hl] using h.symm⟩)
    | none =>
      cases hr : r.remove outRanks x with
      | some r' => exact .inr (.inr ⟨r',hx,rfl,by simpa [hl,hr] using h.symm⟩)
      | none => simp [hl,hr] at h
  · cases h

/-- A successful remove takes out the object and nothing else. -/
theorem remove_perm (hr : Ranking outRanks) {t u : LocHeap α} {x : α}
    (h : t.remove outRanks x = some u) : t.toList.Perm (x :: u.toList) := by
  induction t generalizing u with
  | null => cases h
  | node n d l r ihl ihr =>
    rcases remove_node h with ⟨rfl,rfl⟩ | ⟨l',-,hl,rfl⟩ | ⟨r',-,hr',rfl⟩
    · exact pop_perm hr rfl
    · exact (((ihl hl).append_right r.toList).cons d).trans (List.Perm.swap _ _ _)
    · exact ((((ihr hr').append_left l.toList).trans List.perm_middle).cons d).trans
        (List.Perm.swap _ _ _)

theorem Ordered.remove (hr : Ranking outRanks) {t u : LocHeap α} {x : α}
    (ht : t.Ordered outRanks) (h : t.remove outRanks x = some u) : u.Ordered outRanks := by
  induction t generalizing u with
  | null => cases h
  | node n d l r ihl ihr =>
    obtain ⟨hl,hr',hlo,hro⟩ := id ht
    have hsub : ∀ t u : LocHeap α, t.Ordered outRanks → (∀ e ∈ t.peek, outRanks e d = false) →
        t.remove outRanks x = some u → ∀ g ∈ u.peek, outRanks g d = false := by
      intro t u hto htop hrem g hg
      have hmem : g ∈ t.toList :=
        ((remove_perm hr hrem).mem_iff).mpr (List.mem_cons_of_mem _ (mem_of_peek hg))
      cases hp : t.peek with
      | none => cases t <;> simp_all [peek,toList]
      | some e => exact hr.negTrans g e d (hto.top_highest hr hp g hmem) (htop e hp)
    rcases remove_node h with ⟨rfl,rfl⟩ | ⟨l',-,hrem,rfl⟩ | ⟨r',-,hrem,rfl⟩
    · exact ht.pop hr
    · exact ⟨hsub l l' hlo hl hrem,hr',ihl hlo hrem,hro⟩
    · exact ⟨hl,hsub r r' hro hr' hrem,hlo,ihr hro hrem⟩

/-- Taking out an object below the top leaves the top. -/
theorem peek_remove {t u : LocHeap α} {x : α} (h : t.remove outRanks x = some u)
    (hx : t.peek ≠ some x) : u.peek = t.peek := by
  cases t with
  | null => cases h
  | node n d l r =>
    rcases remove_node h with ⟨rfl,rfl⟩ | ⟨l',-,-,rfl⟩ | ⟨r',-,-,rfl⟩
    · exact absurd rfl hx
    · rfl
    · rfl

/-- In an ordered heap the search never gives up on an object that is there. -/
theorem remove_isSome (hr : Ranking outRanks) {t : LocHeap α} (ht : t.Ordered outRanks) {x : α}
    (hx : x ∈ t.toList) : (t.remove outRanks x).isSome := by
  induction t with
  | null => cases hx
  | node n d l r ihl ihr =>
    have htop := ht.top_highest hr rfl x hx
    obtain ⟨-,-,hlo,hro⟩ := ht
    by_cases hd : x = d
    · simp [LocHeap.remove,hd]
    have hsub : x ∈ l.toList ∨ x ∈ r.toList := by simpa [toList,hd] using hx
    simp only [LocHeap.remove,hd,if_false,htop,Bool.not_false,if_true]
    cases hl : l.remove outRanks x with
    | some l' => rfl
    | none =>
      have hxr : x ∈ r.toList := by
        refine hsub.resolve_left fun hxl => ?_
        simpa [hl] using ihl hlo hxl
      obtain ⟨r',hr'⟩ := Option.isSome_iff_exists.mp (ihr hro hxr)
      simp [hr']

end Remove

end LocHeap
end Kitakami

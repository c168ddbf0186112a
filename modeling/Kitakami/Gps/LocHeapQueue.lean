import Kitakami.Base.Runs
import Kitakami.Gps.LocHeap
import Mathlib.Data.Multiset.AddSub

/-!
# LocHeap as a priority queue

The calls of `LocHeap` with the pointers that they return, against the multiset
of the objects in the heap. A pop swaps the data of the top down to a leaf and
returns what is in the leaf that it takes out; a remove does so below the object
that it has found.
-/

namespace Kitakami
namespace LocHeap

open Runs

variable {α : Type} (outRanks : α → α → Bool)

/-- `LocHeapNode::pop` of a tree whose top holds `d`: the data in the leaf that is
taken out, and the tree. -/
def popNode (d : α) : LocHeap α → α × LocHeap α
  | null => (d,null)
  | node _ _ null null => (d,null)
  | node n _ null (node k f p q) =>
    let r := popNode d (node k f p q)
    (r.1,node (n-1) f null r.2)
  | node n _ (node m e a b) null =>
    let r := popNode d (node m e a b)
    (r.1,node (n-1) e r.2 null)
  | node n _ (node m e a b) (node k f p q) =>
    if outRanks e f then
      let r := popNode d (node m e a b)
      (r.1,node (n-1) e r.2 (node k f p q))
    else
      let r := popNode d (node k f p q)
      (r.1,node (n-1) f (node m e a b) r.2)

/-- `LocHeapNode::remove`: the data in the leaf that is taken out, and the tree. -/
def removeNode [DecidableEq α] (x : α) : LocHeap α → Option (α × LocHeap α)
  | null => none
  | node n d l r =>
    if x = d then some (popNode outRanks d (node n d l r))
    else if !outRanks x d then
      match removeNode x l with
      | some (c,l') => some (c,node (n-1) d l' r)
      | none =>
        match removeNode x r with
        | some (c,r') => some (c,node (n-1) d l r')
        | none => none
    else none

/-- `LocRankable::outRanks`. -/
def outRanksBy (ranks : α → α → ℤ) (a b : α) : Bool := 0 < ranks a b

/-- `checkNodes`, and `checkTree` for the empty heap. -/
def checkNodes : LocHeap α → Bool
  | null => true
  | node n d l r =>
    l.peek.all (fun e => !outRanks e d) && l.checkNodes &&
      (r.peek.all (fun e => !outRanks e d) && r.checkNodes) && n - l.size - r.size == 1

/-- The calls of a `LocHeap`. -/
inductive Op (α : Type)
  | push (x : α)
  | pop
  | remove (x : α)
  deriving DecidableEq

/-- A call: the pointer it returns, and the heap. -/
def call [DecidableEq α] (t : LocHeap α) : Op α → Option α × LocHeap α
  | .push x => (none,t.push outRanks x)
  | .pop =>
    match t with
    | null => (none,null)
    | node n d l r =>
      let p := popNode outRanks d (node n d l r)
      (some p.1,p.2)
  | .remove x =>
    match removeNode outRanks x t with
    | some p => (some p.1,p.2)
    | none => (none,t)

def step [DecidableEq α] (t : LocHeap α) (op : Op α) : Option (LocHeap α) :=
  some (call outRanks t op).2

/-- Call `pop` until it returns NULL, `fuel` times at most. -/
def drain [DecidableEq α] : ℕ → LocHeap α → List α
  | 0, _ => []
  | fuel+1, t =>
    match call outRanks t .pop with
    | (some d,t') => d :: drain fuel t'
    | (none,_) => []

/-! ## The priority queue -/

/-- A call of a priority queue with the objects `s` may return `r` and leave `s'`. -/
def Allowed [DecidableEq α] (s : Multiset α) : Op α → Option α → Multiset α → Prop
  | .push x, r, s' => r = none ∧ s' = x ::ₘ s
  | .pop, none, s' => s = 0 ∧ s' = 0
  | .pop, some d, s' => (∀ x ∈ s, outRanks x d = false) ∧ s = d ::ₘ s'
  | .remove x, none, s' => x ∉ s ∧ s' = s
  | .remove x, some d, s' => d = x ∧ s = x ::ₘ s'

/-- The objects in the heap. -/
def objects (t : LocHeap α) : Multiset α := t.toList

/-- Every node has the size of its subtree. -/
def Sized : LocHeap α → Prop
  | null => True
  | node n _ l r => n = l.size + r.size + 1 ∧ l.Sized ∧ r.Sized

variable {outRanks} {t u : LocHeap α} {x d : α}

theorem outRanksBy_eq_false {ranks : α → α → ℤ} {a b : α} :
    outRanksBy ranks a b = false ↔ ranks a b ≤ 0 := by
  simp [outRanksBy]

/-- What is in the leaf is what was on top. -/
theorem popNode_eq (d : α) (t : LocHeap α) : popNode outRanks d t = (d,t.pop outRanks) := by
  induction t using pop.induct outRanks with
  | case1 => rfl
  | case2 => rfl
  | case3 n c k f p q ih => simp only [popNode,pop,ih]
  | case4 n c m e a b ih => simp only [popNode,pop,ih]
  | case5 n c m e a b k f p q ho ih => simp only [popNode,pop,if_pos ho,ih]
  | case6 n c m e a b k f p q ho ih => simp only [popNode,pop,if_neg ho,ih]

theorem removeNode_eq [DecidableEq α] (x : α) (t : LocHeap α) :
    removeNode outRanks x t = (t.remove outRanks x).map (x,·) := by
  induction t with
  | null => rfl
  | node n d l r ihl ihr =>
    rw [removeNode,remove]
    by_cases hx : x = d
    · rw [if_pos hx,if_pos hx,popNode_eq,hx]
      rfl
    · rw [if_neg hx,if_neg hx,ihl,ihr]
      split
      · cases l.remove outRanks x with
        | some l' => rfl
        | none => cases r.remove outRanks x <;> rfl
      · rfl

theorem Sized.size_eq (h : t.Sized) : t.size = t.toList.length := by
  induction t with
  | null => rfl
  | node n d l r ihl ihr =>
    obtain ⟨hn,hl,hr⟩ := h
    have hl := ihl hl
    have hr := ihr hr
    simp only [size,toList,List.length_cons,List.length_append]
    omega

theorem checkNodes_iff : t.checkNodes outRanks = true ↔ t.Ordered outRanks ∧ t.Sized := by
  induction t with
  | null => simp [checkNodes,Ordered,Sized]
  | node n d l r ihl ihr =>
    have hpeek : ∀ t : LocHeap α, t.peek.all (fun e => !outRanks e d) = true ↔
        ∀ e ∈ t.peek, outRanks e d = false := by
      intro t
      cases t <;> simp [peek]
    have hsize : n - l.size - r.size = 1 ↔ n = l.size + r.size + 1 := by omega
    simp only [checkNodes,Ordered,Sized,Bool.and_eq_true,beq_iff_eq,hpeek,ihl,ihr,hsize]
    tauto

/-! ## Sizes -/

theorem size_push (t : LocHeap α) (x : α) : (t.push outRanks x).size = t.size + 1 := by
  cases t with
  | null => rfl
  | node n d l r =>
    obtain ⟨up,down,-,he | he⟩ := push_node outRanks n d l r x <;> rw [he] <;> rfl

theorem Sized.push (h : t.Sized) (x : α) : (t.push outRanks x).Sized := by
  induction t generalizing x with
  | null => simp [LocHeap.push,Sized,size]
  | node n d l r ihl ihr =>
    obtain ⟨hn,hl,hr⟩ := h
    obtain ⟨up,down,-,he | he⟩ := push_node outRanks n d l r x <;> rw [he]
    · exact ⟨by rw [size_push]; omega,ihl hl down,hr⟩
    · exact ⟨by rw [size_push]; omega,hl,ihr hr down⟩

theorem Sized.size_pop (hr : Ranking outRanks) (h : t.Sized) (ht : t ≠ null) :
    (t.pop outRanks).size = t.size - 1 := by
  cases t with
  | null => exact absurd rfl ht
  | node n d l r =>
    rcases pop_node hr n d l r with ⟨rfl,rfl,he⟩ | ⟨e,-,-,he⟩ | ⟨f,-,-,he⟩ <;> rw [he]
    · have hn : n = 0 + 0 + 1 := h.1
      simp only [size]
      omega
    · rfl
    · rfl

theorem ne_null_of_peek (h : t.peek = some d) : t ≠ null := by
  rintro rfl
  cases h

theorem Sized.pop (hr : Ranking outRanks) (h : t.Sized) : (t.pop outRanks).Sized := by
  induction t with
  | null => trivial
  | node n d l r ihl ihr =>
    obtain ⟨hn,hl,hr'⟩ := h
    rcases pop_node hr n d l r with ⟨-,-,he⟩ | ⟨e,hp,-,he⟩ | ⟨f,hp,-,he⟩ <;> rw [he]
    · trivial
    · have hsize := hl.size_pop hr (ne_null_of_peek hp)
      exact ⟨by omega,ihl hl,hr'⟩
    · have hsize := hr'.size_pop hr (ne_null_of_peek hp)
      exact ⟨by omega,hl,ihr hr'⟩

section Remove

variable [DecidableEq α]

theorem Sized.size_remove (hr : Ranking outRanks) (h : t.Sized)
    (hu : t.remove outRanks x = some u) : u.size = t.size - 1 := by
  cases t with
  | null => cases hu
  | node n d l r =>
    rcases remove_node hu with ⟨-,rfl⟩ | ⟨l',-,-,rfl⟩ | ⟨r',-,-,rfl⟩
    · exact h.size_pop hr nofun
    · rfl
    · rfl

theorem Sized.remove (hr : Ranking outRanks) (h : t.Sized)
    (hu : t.remove outRanks x = some u) : u.Sized := by
  induction t generalizing u with
  | null => cases hu
  | node n d l r ihl ihr =>
    obtain ⟨hn,hl,hr'⟩ := id h
    rcases remove_node hu with ⟨-,rfl⟩ | ⟨l',-,hrem,rfl⟩ | ⟨r',-,hrem,rfl⟩
    · exact h.pop hr
    · have hsize := hl.size_remove hr hrem
      exact ⟨by omega,ihl hl hrem,hr'⟩
    · have hsize := hr'.size_remove hr hrem
      exact ⟨by omega,hl,ihr hr' hrem⟩

/-! ## The calls -/

theorem call_pop (t : LocHeap α) : call outRanks t .pop = (t.peek,t.pop outRanks) := by
  cases t with
  | null => rfl
  | node n d l r => simp only [call,popNode_eq,peek]

theorem call_remove (t : LocHeap α) (x : α) : call outRanks t (.remove x) =
    match t.remove outRanks x with
    | some u => (some x,u)
    | none => (none,t) := by
  rw [call,removeNode_eq]
  cases t.remove outRanks x <;> rfl

/-- Every call keeps the heap in order. -/
theorem checkNodes_call (hr : Ranking outRanks) (h : t.checkNodes outRanks = true) (op : Op α) :
    (call outRanks t op).2.checkNodes outRanks = true := by
  rw [checkNodes_iff] at h ⊢
  obtain ⟨ho,hs⟩ := h
  cases op with
  | push x => exact ⟨ho.push hr x,hs.push x⟩
  | pop =>
    rw [call_pop]
    exact ⟨ho.pop hr,hs.pop hr⟩
  | remove x =>
    rw [call_remove]
    cases hu : t.remove outRanks x with
    | none => exact ⟨ho,hs⟩
    | some u => exact ⟨ho.remove hr hu,hs.remove hr hu⟩

/-- A call on a heap in order does what a priority queue may do. -/
theorem allowed_call (hr : Ranking outRanks) (h : t.checkNodes outRanks = true) (op : Op α) :
    Allowed outRanks t.objects op (call outRanks t op).1 (call outRanks t op).2.objects := by
  have ho := (checkNodes_iff.mp h).1
  cases op with
  | push x => exact ⟨rfl,Multiset.coe_eq_coe.mpr (push_perm t x)⟩
  | pop =>
    rw [call_pop]
    cases hp : t.peek with
    | none =>
      cases t with
      | null => exact ⟨rfl,rfl⟩
      | node n d l r => cases hp
    | some d =>
      exact ⟨fun x hx => ho.top_highest hr hp x (Multiset.mem_coe.mp hx),
        Multiset.coe_eq_coe.mpr (pop_perm hr hp)⟩
  | remove x =>
    rw [call_remove]
    cases hu : t.remove outRanks x with
    | none =>
      refine ⟨fun hx => ?_,rfl⟩
      have hsome := remove_isSome hr ho (Multiset.mem_coe.mp hx)
      rw [hu] at hsome
      cases hsome
    | some u => exact ⟨rfl,Multiset.coe_eq_coe.mpr (remove_perm hr hu)⟩

/-- Popping until the heap is empty gives its objects by rank. -/
theorem drain_sorted (hr : Ranking outRanks) (fuel : ℕ) (h : t.checkNodes outRanks = true)
    (hf : t.objects.card ≤ fuel) :
    (drain outRanks fuel t : Multiset α) = t.objects ∧
      (drain outRanks fuel t).Pairwise fun a b => outRanks b a = false := by
  induction fuel generalizing t with
  | zero =>
    have hnil : t.objects = 0 := Multiset.card_eq_zero.mp (Nat.le_zero.mp hf)
    exact ⟨by rw [hnil]; rfl,List.Pairwise.nil⟩
  | succ fuel ih =>
    have hallowed := allowed_call hr h .pop
    have hnext := checkNodes_call hr h .pop
    rw [drain]
    rcases hc : call outRanks t .pop with ⟨_ | d,t'⟩ <;> rw [hc] at hallowed hnext
    · exact ⟨hallowed.1.symm,List.Pairwise.nil⟩
    · obtain ⟨htop,hobj : t.objects = d ::ₘ t'.objects⟩ := hallowed
      have hcard : t'.objects.card ≤ fuel := by
        rw [hobj,Multiset.card_cons] at hf
        omega
      obtain ⟨hall,hsorted⟩ := ih hnext hcard
      refine ⟨?_,List.pairwise_cons.mpr ⟨fun b hb => htop b ?_,hsorted⟩⟩
      · rw [hobj,← hall]
        rfl
      · rw [hobj,← hall]
        exact Multiset.mem_cons_of_mem (Multiset.mem_coe.mpr hb)

/-- In every state that calls on an empty heap lead to, the heap is in order and its sizes are
those of a priority queue, each further call does what the queue may do, and popping gives the
objects by rank. -/
theorem refines_queue (ranks : α → α → ℤ) (hr : Ranking (outRanksBy ranks))
    (h : Reachable (step (outRanksBy ranks)) null t) :
    t.checkNodes (outRanksBy ranks) = true ∧ t.size = t.objects.card ∧
      (∀ op, Allowed (outRanksBy ranks) t.objects op (call (outRanksBy ranks) t op).1
        (call (outRanksBy ranks) t op).2.objects) ∧
      ∀ fuel, t.objects.card ≤ fuel →
        (drain (outRanksBy ranks) fuel t : Multiset α) = t.objects ∧
          (drain (outRanksBy ranks) fuel t).Pairwise fun a b => ranks b a ≤ 0 := by
  have hcheck : t.checkNodes (outRanksBy ranks) = true := by
    refine h.invariant (I:=fun t => t.checkNodes (outRanksBy ranks) = true) rfl fun s op s' hs he => ?_
    obtain rfl := Option.some.inj he
    exact checkNodes_call hr hs op
  refine ⟨hcheck,(checkNodes_iff.mp hcheck).2.size_eq,allowed_call hr hcheck,fun fuel hf => ?_⟩
  obtain ⟨hall,hsorted⟩ := drain_sorted hr fuel hcheck hf
  exact ⟨hall,hsorted.imp outRanksBy_eq_false.mp⟩

end Remove

/-- The ranking of the debug objects, which are known by their number. -/
def debugRanks (a b : ℕ) : ℤ := b - a

theorem ranking_debugRanks : Ranking (outRanksBy debugRanks) := by
  constructor
  · intro a b h
    have hab : 0 < debugRanks a b := of_decide_eq_true h
    rw [outRanksBy_eq_false]
    unfold debugRanks at hab ⊢
    omega
  · intro a b c h h'
    rw [outRanksBy_eq_false] at h h' ⊢
    unfold debugRanks at h h' ⊢
    omega

def debugOps : List (Op ℕ) := [.push 5,.push 2,.push 7,.push 3,.remove 5,.push 4,.pop]

theorem refines_queue_debugOps :
    ∃ t, run (step (outRanksBy debugRanks)) null debugOps = some t ∧
      t.checkNodes (outRanksBy debugRanks) = true ∧ t.size = t.objects.card ∧
        (drain (outRanksBy debugRanks) 3 t : Multiset ℕ) = t.objects := by
  obtain ⟨t,ht⟩ : ∃ t, run (step (outRanksBy debugRanks)) null debugOps = some t := ⟨_,rfl⟩
  obtain ⟨hcheck,hsize,-,hdrain⟩ := refines_queue debugRanks ranking_debugRanks ⟨debugOps,ht⟩
  have hcard : t.objects.card = 3 := by
    obtain rfl := Option.some.inj ht
    decide
  exact ⟨t,ht,hcheck,hsize,(hdrain 3 hcard.le).1⟩

end LocHeap
end Kitakami

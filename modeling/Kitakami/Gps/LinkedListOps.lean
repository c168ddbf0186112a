import Kitakami.Gps.LinkedListSeq

/-!
# Sequences of list operations

A client of a list makes any calls in any order. What it gets back, what the
predicates of its searches do, and what is deallocated is as if the list were
the sequence of items itself.
-/

namespace Kitakami
namespace LinkedList

open Runs

variable {D σ : Type}

/-- A call. `malloc` is what the allocation in `linked_list_add` returns. -/
inductive Op (σ D : Type)
  | add (dataObj : Option D) (dealloc : Bool) (malloc : Ptr)
  | remove (dataObj : Bool)
  | search (equal : σ → D → Bool × σ) (dataP rmIfFound : Bool)
  | flush

/-- What a call returns, and what it writes through its data pointer. -/
structure Ret (D : Type) where
  err : Err
  out : Option (Option D) := none
  deriving DecidableEq

/-- A list with the environment of the predicates and the results so far. -/
structure Client (σ D : Type) where
  list : ListState D := {}
  env : σ
  rets : List (Ret D) := []

/-- One call; it has no successor where it goes wrong. -/
def step (c : Client σ D) : Op σ D → Option (Client σ D)
  | .add dataObj dealloc malloc => do
    let r ← linkedListAdd c.list dataObj dealloc malloc
    return { c with list := r.2, rets := c.rets ++ [⟨r.1,none⟩] }
  | .remove dataObj => do
    let r ← linkedListRemove c.list dataObj
    return { c with list := r.2.2, rets := c.rets ++ [⟨r.1,r.2.1.map some⟩] }
  | .search equal dataP rmIfFound => do
    let r ← linkedListSearch c.list dataP equal c.env rmIfFound
    return { list := r.2.2.2, env := r.2.2.1, rets := c.rets ++ [⟨r.1,r.2.1⟩] }
  | .flush => do
    let r ← linkedListFlush c.list
    return { c with list := r.2, rets := c.rets ++ [⟨r.1,none⟩] }

/-- `malloc` returns memory that is not in use. -/
def Fresh (c : Client σ D) : Op σ D → Prop
  | .add _ _ (some a) => (c.list.heap a).isNone
  | _ => True

instance (c : Client σ D) : ∀ op, Decidable (Fresh c op)
  | .add _ _ (some a) => inferInstanceAs (Decidable ((c.list.heap a).isNone = true))
  | .add _ _ none => isTrue trivial
  | .remove _ => isTrue trivial
  | .search _ _ _ => isTrue trivial
  | .flush => isTrue trivial

/-- The same client over a sequence of items. -/
structure SeqClient (σ D : Type) where
  items : List (Item D) := []
  env : σ
  rets : List (Ret D) := []
  dealloced : List D := []

/-- The calls as operations on the sequence. -/
def seqStep (q : SeqClient σ D) : Op σ D → SeqClient σ D
  | .add none _ _ => { q with rets := q.rets ++ [⟨.invalidParameter,none⟩] }
  | .add (some _) _ none => { q with rets := q.rets ++ [⟨.failureGeneral,none⟩] }
  | .add (some d) dealloc (some _) =>
    { q with items := ⟨d,dealloc⟩::q.items, rets := q.rets ++ [⟨.success,none⟩] }
  | .remove false => { q with rets := q.rets ++ [⟨.invalidParameter,none⟩] }
  | .remove true =>
    match q.items.getLast? with
    | none => { q with rets := q.rets ++ [⟨.unavailableResource,none⟩] }
    | some i =>
      { q with items := q.items.dropLast, rets := q.rets ++ [⟨.success,some (some i.dataPtr)⟩] }
  | .search equal dataP rmIfFound =>
    if q.items = [] then { q with rets := q.rets ++ [⟨.unavailableResource,none⟩] }
    else
      let r := searchItems equal q.env q.items
      { items := if rmIfFound then r.2.2 else q.items
        env := r.2.1
        rets := q.rets ++ [⟨.success,if dataP then some (r.1.map Item.dataPtr) else none⟩]
        dealloced := q.dealloced ++ if rmIfFound && !dataP then freedBy r.1.toList else [] }
  | .flush =>
    { q with items := [], rets := q.rets ++ [⟨.success,none⟩],
             dealloced := q.dealloced ++ freedBy q.items }

/-- The list of the one client is the sequence of the other. -/
structure Simulates (c : Client σ D) (q : SeqClient σ D) : Prop where
  represents : ∃ as, Represents c.list as q.items
  env : c.env = q.env
  rets : c.rets = q.rets
  dealloced : c.list.dealloced = q.dealloced

theorem simulates_init (e : σ) : Simulates (D:=D) { env := e } { env := e } :=
  ⟨⟨[],represents_empty⟩,rfl,rfl,rfl⟩

variable {c : Client σ D} {q : SeqClient σ D}

theorem Simulates.returns (h : Simulates c q) (r : Ret D) :
    Simulates { c with rets := c.rets ++ [r] } { q with rets := q.rets ++ [r] } :=
  ⟨h.represents,h.env,by rw [h.rets],h.dealloced⟩

theorem step_seq {op : Op σ D} (h : Simulates c q) (hf : Fresh c op) :
    ∃ c', step c op = some c' ∧ Simulates c' (seqStep q op) := by
  obtain ⟨⟨as,hr⟩,henv,hrets,hd⟩ := id h
  cases op with
  | add dataObj dealloc malloc =>
    cases dataObj with
    | none => exact ⟨_,rfl,h.returns _⟩
    | some d =>
      cases malloc with
      | none => exact ⟨_,rfl,h.returns _⟩
      | some a =>
        obtain ⟨s',hs',hr',hd'⟩ := linkedListAdd_spec hr (Option.isNone_iff_eq_none.mp hf) d dealloc
        exact ⟨{ c with list := s', rets := c.rets ++ [⟨.success,none⟩] },by simp [step,hs'],
          ⟨_,hr'⟩,henv,by simp [seqStep,hrets],hd'.trans hd⟩
  | remove dataObj =>
    cases dataObj with
    | false => exact ⟨_,rfl,h.returns _⟩
    | true =>
      rcases List.eq_nil_or_concat q.items with hq | ⟨l,i,hq⟩
      · have hseq : seqStep q (.remove true) =
            { q with rets := q.rets ++ [⟨.unavailableResource,none⟩] } := by simp [seqStep,hq]
        rw [hq] at hr
        exact ⟨_,by simp [step,linkedListRemove_nil hr],hseq ▸ h.returns _⟩
      · rw [List.concat_eq_append] at hq
        rw [hq] at hr
        obtain ⟨s',as',hs',hr',hd'⟩ := linkedListRemove_concat hr
        refine ⟨{ c with list := s', rets := c.rets ++ [⟨.success,some (some i.dataPtr)⟩] },
          by simp [step,hs'],⟨as',?_⟩,by simpa [seqStep,hq] using henv,?_,?_⟩
        · simpa [seqStep,hq] using hr'
        · simp [seqStep,hq,hrets]
        · simpa [seqStep,hq] using hd'.trans hd
  | search equal dataP rmIfFound =>
    by_cases hq : q.items = []
    · have hseq : seqStep q (.search equal dataP rmIfFound) =
          { q with rets := q.rets ++ [⟨.unavailableResource,none⟩] } := by simp [seqStep,hq]
      rw [hq] at hr
      exact ⟨_,by simp [step,linkedListSearch_nil equal dataP rmIfFound hr],hseq ▸ h.returns _⟩
    · obtain ⟨s',as',hs',hr',hd'⟩ := linkedListSearch_spec equal dataP rmIfFound hr hq c.env
      set r := searchItems equal c.env q.items with hrs
      refine ⟨{ list := s', env := r.2.1, rets := c.rets ++
        [⟨.success,if dataP then some (r.1.map Item.dataPtr) else none⟩] },
        by simp [step,hs'],⟨as',?_⟩,?_,?_,?_⟩
      · simpa [seqStep,hq,hrs,henv] using hr'
      · simp [seqStep,hq,hrs,henv]
      · simp [seqStep,hq,hrs,henv,hrets]
      · simpa [seqStep,hq,hrs,henv,hd] using hd'
  | flush =>
    obtain ⟨s',hs',hr',hd'⟩ := linkedListFlush_spec hr
    exact ⟨{ c with list := s', rets := c.rets ++ [⟨.success,none⟩] },by simp [step,hs'],⟨[],hr'⟩,
      henv,by simp [seqStep,hrets],by simp [seqStep,hd',hd]⟩

/-- Every sequence of calls goes through, and does to the list what it does to
the sequence of items. -/
theorem run_seq {ops : List (Op σ D)} (h : Simulates c q)
    (hf : Along step Fresh c ops) :
    ∃ c', run step c ops = some c' ∧ Simulates c' (ops.foldl seqStep q) := by
  induction ops generalizing c q with
  | nil => exact ⟨c,rfl,h⟩
  | cons op ops ih =>
    obtain ⟨c₁,hc₁,h₁⟩ := step_seq h hf.head
    obtain ⟨c₂,hc₂,h₂⟩ := ih h₁ (hf.tail hc₁)
    exact ⟨c₂,run_cons_eq_some.mpr ⟨c₁,hc₁,hc₂⟩,h₂⟩

end LinkedList
end Kitakami

import Kitakami.Base.Runs

/-!
# A bounded mailbox

A reader that is busy puts what arrives for later into a mailbox of a fixed
capacity, which forgets its oldest letter when it is full. A reader that asks
takes the oldest letter of the mailbox; only when there is none does it read
the stream itself. The letters it gets come in the order of their arrival, and
none is missing but the forgotten ones and those still in the mailbox.
-/

namespace Kitakami

open Runs

structure Mailbox (α : Type) where
  queued : List α := []
  handed : List α := []
  lost : List α := []

namespace Mailbox

variable {α : Type} {cap : ℕ} {b c : Mailbox α}

/-- A letter arrives while the reader is busy, the reader takes the oldest
letter, or it reads the stream itself. -/
inductive Act (α : Type)
  | put (a : α)
  | take
  | pass (a : α)

/-- A full mailbox forgets its oldest letter for the new one. -/
def put (cap : ℕ) (b : Mailbox α) (a : α) : Mailbox α :=
  if b.queued.length = cap then
    { b with queued := b.queued.tail ++ [a], lost := b.lost ++ b.queued.head?.toList }
  else { b with queued := b.queued ++ [a] }

def step (cap : ℕ) (b : Mailbox α) : Act α → Option (Mailbox α)
  | .put a => some (b.put cap a)
  | .take =>
    match b.queued with
    | [] => none
    | a :: rest => some { b with queued := rest, handed := b.handed ++ [a] }
  | .pass a => if b.queued = [] then some { b with handed := b.handed ++ [a] } else none

/-- The letters that arrive, and those that the reader reads from the stream itself. -/
def Act.arrival : Act α → List α
  | .put a => [a]
  | .take => []
  | .pass a => [a]

def Act.passed : Act α → List α
  | .pass a => [a]
  | _ => []

def arrivals (acts : List (Act α)) : List α := acts.flatMap Act.arrival

def passed (acts : List (Act α)) : List α := acts.flatMap Act.passed

theorem arrivals_cons (a : Act α) (acts : List (Act α)) :
    arrivals (a :: acts) = a.arrival ++ arrivals acts := rfl

theorem passed_cons (a : Act α) (acts : List (Act α)) :
    passed (a :: acts) = a.passed ++ passed acts := rfl

/-! ## One act -/

theorem step_sublist {a : Act α} (h : step cap b a = some c) :
    (c.handed ++ c.queued).Sublist (b.handed ++ b.queued ++ a.arrival) := by
  cases a with
  | put x =>
    obtain rfl := Option.some.inj h
    unfold put
    split
    · rw [List.append_assoc]
      exact (List.Sublist.refl b.handed).append ((List.tail_sublist b.queued).append_right [x])
    · rw [List.append_assoc]
      exact List.Sublist.refl _
  | take =>
    cases hq : b.queued with
    | nil => simp [step,hq] at h
    | cons x rest =>
      simp only [step,hq,Option.some.injEq] at h
      subst h
      simp [Act.arrival]
  | pass x =>
    obtain ⟨hq,hc⟩ := Option.ite_none_right_eq_some.mp h
    obtain rfl := Option.some.inj hc
    simp [hq,Act.arrival]

theorem step_perm {a : Act α} (h : step cap b a = some c) :
    (c.handed ++ c.queued ++ c.lost).Perm (b.handed ++ b.queued ++ b.lost ++ a.arrival) := by
  cases a with
  | put x =>
    obtain rfl := Option.some.inj h
    unfold put
    split
    · cases hq : b.queued with
      | nil =>
        simp only [List.tail_nil,List.nil_append,List.head?_nil,Option.toList_none,List.append_nil,
          Act.arrival,List.append_assoc]
        exact List.perm_append_comm.append_left b.handed
      | cons y rest =>
        simp only [List.tail_cons,List.head?_cons,Option.toList_some,Act.arrival,List.append_assoc]
        have hback : (rest ++ ([x] ++ (b.lost ++ [y]))).Perm (y :: (rest ++ ([x] ++ b.lost))) := by
          rw [← List.append_assoc [x],← List.append_assoc rest]
          exact List.perm_append_singleton y _
        have hlost : (rest ++ ([x] ++ b.lost)).Perm (rest ++ (b.lost ++ [x])) :=
          List.perm_append_comm.append_left rest
        exact (hback.trans (hlost.cons y)).append_left b.handed
    · simp only [Act.arrival,List.append_assoc]
      exact (List.perm_append_comm.append_left b.queued).append_left b.handed
  | take =>
    cases hq : b.queued with
    | nil => simp [step,hq] at h
    | cons x rest =>
      simp only [step,hq,Option.some.injEq] at h
      subst h
      simp [Act.arrival]
  | pass x =>
    obtain ⟨hq,hc⟩ := Option.ite_none_right_eq_some.mp h
    obtain rfl := Option.some.inj hc
    simp only [hq,Act.arrival,List.append_nil,List.append_assoc]
    exact List.perm_append_comm.append_left b.handed

theorem step_handed {a : Act α} (h : step cap b a = some c) :
    ∃ l, c.handed = b.handed ++ l ∧ a.passed.Sublist l := by
  cases a with
  | put x =>
    obtain rfl := Option.some.inj h
    refine ⟨[],?_,List.Sublist.refl _⟩
    unfold put
    split <;> simp
  | take =>
    cases hq : b.queued with
    | nil => simp [step,hq] at h
    | cons x rest =>
      simp only [step,hq,Option.some.injEq] at h
      subst h
      exact ⟨[x],rfl,List.nil_sublist _⟩
  | pass x =>
    obtain ⟨-,hc⟩ := Option.ite_none_right_eq_some.mp h
    obtain rfl := Option.some.inj hc
    exact ⟨[x],rfl,List.Sublist.refl _⟩

theorem step_length {a : Act α} (hcap : 0 < cap) (hb : b.queued.length ≤ cap)
    (h : step cap b a = some c) : c.queued.length ≤ cap := by
  cases a with
  | put x =>
    obtain rfl := Option.some.inj h
    unfold put
    split
    · simp only [List.length_append,List.length_tail,List.length_cons,List.length_nil]
      omega
    · simp only [List.length_append,List.length_cons,List.length_nil]
      omega
  | take =>
    cases hq : b.queued with
    | nil => simp [step,hq] at h
    | cons x rest =>
      simp only [step,hq,Option.some.injEq] at h
      subst h
      rw [hq] at hb
      exact Nat.le_of_succ_le hb
  | pass x =>
    obtain ⟨-,hc⟩ := Option.ite_none_right_eq_some.mp h
    obtain rfl := Option.some.inj hc
    exact hb

/-! ## Runs -/

/-- What has been handed out, with the mailbox behind it, is in the order of arrival. -/
theorem run_sublist {acts : List (Act α)} (h : run (step cap) b acts = some c) :
    (c.handed ++ c.queued).Sublist (b.handed ++ b.queued ++ arrivals acts) := by
  induction acts generalizing b with
  | nil =>
    obtain rfl := Option.some.inj h
    simp [arrivals]
  | cons a acts ih =>
    obtain ⟨d,hd,hc⟩ := run_cons_eq_some.mp h
    refine (ih hc).trans ?_
    rw [arrivals_cons,← List.append_assoc]
    exact (step_sublist hd).append_right _

/-- Every letter has been handed out, is still in the mailbox, or has been forgotten. -/
theorem run_perm {acts : List (Act α)} (h : run (step cap) b acts = some c) :
    (c.handed ++ c.queued ++ c.lost).Perm (b.handed ++ b.queued ++ b.lost ++ arrivals acts) := by
  induction acts generalizing b with
  | nil =>
    obtain rfl := Option.some.inj h
    simp [arrivals]
  | cons a acts ih =>
    obtain ⟨d,hd,hc⟩ := run_cons_eq_some.mp h
    refine (ih hc).trans ?_
    rw [arrivals_cons,← List.append_assoc]
    exact (step_perm hd).append_right _

/-- What the reader reads from the stream itself is handed out. -/
theorem run_handed {acts : List (Act α)} (h : run (step cap) b acts = some c) :
    ∃ l, c.handed = b.handed ++ l ∧ (passed acts).Sublist l := by
  induction acts generalizing b with
  | nil =>
    obtain rfl := Option.some.inj h
    exact ⟨[],by simp,List.Sublist.refl _⟩
  | cons a acts ih =>
    obtain ⟨d,hd,hc⟩ := run_cons_eq_some.mp h
    obtain ⟨l,hl,hpass⟩ := step_handed hd
    obtain ⟨l',hl',hpass'⟩ := ih hc
    refine ⟨l ++ l',by rw [hl',hl,List.append_assoc],?_⟩
    rw [passed_cons]
    exact hpass.append hpass'

theorem run_length {acts : List (Act α)} (hcap : 0 < cap) (hb : b.queued.length ≤ cap)
    (h : run (step cap) b acts = some c) : c.queued.length ≤ cap :=
  run_invariant (fun _ _ _ hs _ ht => step_length hcap hs ht) hb (along_true b acts) h

end Mailbox
end Kitakami

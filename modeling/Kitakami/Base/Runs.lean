import Mathlib.Data.List.Basic
import Mathlib.Tactic

/-!
# Runs of a partial step function

A system is a function `step : S → A → Option S`; an action that is not enabled
has no successor. `run` executes a list of actions, `Along` states a condition
on every step of a run, and `run_invariant` is the induction rule that carries
an invariant from the first to the last state of a run under such a condition.
-/

namespace Kitakami
namespace Runs

variable {S A : Type} {step : S → A → Option S}

/-- Execute a list of actions; the run stops at the first disabled one. -/
def run (step : S → A → Option S) : S → List A → Option S
  | s, [] => some s
  | s, a :: as => (step s a).bind fun t => run step t as

/-- The states that some run reaches. -/
def Reachable (step : S → A → Option S) (init t : S) : Prop :=
  ∃ as, run step init as = some t

/-- `G` holds of every state and action of the run. -/
def Along (step : S → A → Option S) (G : S → A → Prop) : S → List A → Prop
  | _, [] => True
  | s, a :: as => G s a ∧
    match step s a with
    | some t => Along step G t as
    | none => True

instance decidableAlong (step : S → A → Option S) (G : S → A → Prop)
    [∀ s a, Decidable (G s a)] : ∀ s as, Decidable (Along step G s as)
  | _, [] => isTrue trivial
  | s, a :: as =>
    have : Decidable (match step s a with
        | some t => Along step G t as
        | none => True) :=
      match step s a with
      | some t => decidableAlong step G t as
      | none => isTrue trivial
    inferInstanceAs (Decidable (G s a ∧ _))

@[simp] theorem run_nil (s : S) : run step s [] = some s := rfl

theorem run_cons (s : S) (a : A) (as : List A) :
    run step s (a :: as) = (step s a).bind fun t => run step t as := rfl

/-- A nonempty run splits into its first step and the rest. -/
theorem run_cons_eq_some {s u : S} {a : A} {as : List A} :
    run step s (a :: as) = some u ↔ ∃ t, step s a = some t ∧ run step t as = some u := by
  simp [run_cons,Option.bind_eq_some_iff]

theorem run_append (s : S) (as bs : List A) :
    run step s (as ++ bs) = (run step s as).bind fun t => run step t bs := by
  induction as generalizing s with
  | nil => rfl
  | cons a as ih =>
    cases h : step s a with
    | none => simp [run_cons,h]
    | some t => simpa [run_cons,h] using ih t

/-- A run whose steps are runs of a finer system is a run of it. -/
theorem run_flatMap {B : Type} {fine : S → B → Option S} {f : A → List B} {as : List A} {s u : S}
    (hr : run step s as = some u)
    (h : ∀ s t, ∀ a ∈ as, step s a = some t → run fine s (f a) = some t) :
    run fine s (as.flatMap f) = some u := by
  induction as generalizing s with
  | nil => exact hr
  | cons a as ih =>
    obtain ⟨t,ht,hu⟩ := run_cons_eq_some.mp hr
    rw [List.flatMap_cons,run_append,h s t a List.mem_cons_self ht,Option.bind_some]
    exact ih hu fun s t b hb => h s t b (List.mem_cons_of_mem a hb)

theorem Along.head {G : S → A → Prop} {s : S} {a : A} {as : List A}
    (h : Along step G s (a :: as)) : G s a := h.1

theorem Along.tail {G : S → A → Prop} {s t : S} {a : A} {as : List A}
    (h : Along step G s (a :: as)) (ht : step s a = some t) : Along step G t as := by
  simpa only [Along,ht] using h.2

theorem along_cons {G : S → A → Prop} {s : S} {a : A} {as : List A} (h : G s a)
    (ht : ∀ t, step s a = some t → Along step G t as) : Along step G s (a :: as) := by
  refine ⟨h,?_⟩
  cases hs : step s a with
  | none => trivial
  | some t => exact ht t hs

theorem Along.cons {G : S → A → Prop} {s t : S} {a : A} {as : List A} (h : G s a)
    (hs : step s a = some t) (ht : Along step G t as) : Along step G s (a :: as) := by
  refine along_cons h fun u hu => ?_
  obtain rfl : t = u := Option.some.inj (hs.symm.trans hu)
  exact ht

theorem along_true (s : S) (as : List A) : Along step (fun _ _ => True) s as := by
  induction as generalizing s with
  | nil => trivial
  | cons a as ih => exact along_cons trivial fun t _ => ih t

/-- What one step preserves under the guard, a guarded run preserves. -/
theorem run_invariant {G : S → A → Prop} {I : S → Prop}
    (hI : ∀ s a t, I s → G s a → step s a = some t → I t) {s u : S} {as : List A}
    (hs : I s) (hg : Along step G s as) (hr : run step s as = some u) : I u := by
  induction as generalizing s with
  | nil =>
    obtain rfl : s = u := by simpa using hr
    exact hs
  | cons a as ih =>
    obtain ⟨t,ht,hu⟩ := run_cons_eq_some.mp hr
    exact ih (hI s a t hs hg.head ht) (hg.tail ht) hu

/-- A run goes through exactly if every step along it does. -/
theorem run_isSome_iff (s : S) (as : List A) :
    (run step s as).isSome ↔ Along step (fun s a => (step s a).isSome) s as := by
  induction as generalizing s with
  | nil => simp [Along]
  | cons a as ih =>
    cases hs : step s a with
    | none => simp [run_cons,Along,hs]
    | some t => simpa [run_cons,Along,hs] using ih t

/-- Guards that agree where an invariant holds agree along a run. -/
theorem along_congr {G H : S → A → Prop} {I : S → Prop} {s : S} {as : List A}
    (hI : ∀ s a t, I s → step s a = some t → I t) (hGH : ∀ s, I s → ∀ a ∈ as, (G s a ↔ H s a))
    (hs : I s) : Along step G s as ↔ Along step H s as := by
  induction as generalizing s with
  | nil => exact Iff.rfl
  | cons a as ih =>
    refine and_congr (hGH s hs a List.mem_cons_self) ?_
    cases ht : step s a with
    | none => exact Iff.rfl
    | some t => exact ih (fun s hs b hb => hGH s hs b (List.mem_cons_of_mem a hb)) (hI s a t hs ht)

/-- If, where `J` holds, `G` says exactly when a step keeps `I`, then `I` holds after every step of
a run exactly if `G` holds along it. `J` is kept by every step. -/
theorem along_next_iff_of {I J : S → Prop} {G : S → A → Prop}
    (hJ : ∀ s a t, J s → step s a = some t → J t)
    (hI : ∀ s a, J s → I s → ((∀ t, step s a = some t → I t) ↔ G s a)) {s : S} {as : List A}
    (hj : J s) (hs : I s) :
    Along step (fun s a => ∀ t, step s a = some t → I t) s as ↔ Along step G s as := by
  induction as generalizing s with
  | nil => exact Iff.rfl
  | cons a as ih =>
    constructor
    · intro h
      exact along_cons ((hI s a hj hs).mp h.head) fun t ht =>
        (ih (hJ s a t hj ht) (h.head t ht)).mp (h.tail ht)
    · intro h
      have hnext := (hI s a hj hs).mpr h.head
      exact along_cons hnext fun t ht => (ih (hJ s a t hj ht) (hnext t ht)).mpr (h.tail ht)

theorem along_next_iff {I : S → Prop} {G : S → A → Prop}
    (hI : ∀ s a, I s → ((∀ t, step s a = some t → I t) ↔ G s a)) {s : S} {as : List A} (hs : I s) :
    Along step (fun s a => ∀ t, step s a = some t → I t) s as ↔ Along step G s as :=
  along_next_iff_of (J:=fun _ => True) (fun _ _ _ _ _ => trivial) (fun s a _ => hI s a) trivial hs

/-- If each step keeps `P` exactly under `G`, and nothing brings it back, then `P` holds at the end
of a run exactly if `G` holds along it. -/
theorem run_iff_along {I P : S → Prop} {G : S → A → Prop}
    (hstep : ∀ s a t, I s → step s a = some t → I t ∧ (P t ↔ P s ∧ G s a)) {s u : S} {as : List A}
    (hs : I s) (hr : run step s as = some u) : P u ↔ P s ∧ Along step G s as := by
  induction as generalizing s with
  | nil =>
    obtain rfl : s = u := by simpa using hr
    simp [Along]
  | cons a as ih =>
    obtain ⟨t,ht,hu⟩ := run_cons_eq_some.mp hr
    obtain ⟨hit,hpt⟩ := hstep s a t hs ht
    rw [ih hit hu,hpt,and_assoc]
    refine and_congr_right fun _ => ⟨fun h => Along.cons h.1 ht h.2,fun h => ⟨h.head,h.tail ht⟩⟩

/-- A guard that only depends on the action holds of all actions of a run that goes through. -/
theorem Along.mem {P : A → Prop} {s u : S} {as : List A} (h : Along step (fun _ a => P a) s as)
    (hr : run step s as = some u) : ∀ a ∈ as, P a := by
  induction as generalizing s with
  | nil => simp
  | cons a as ih =>
    obtain ⟨t,ht,hu⟩ := run_cons_eq_some.mp hr
    intro b hb
    rcases List.mem_cons.mp hb with rfl | hb
    · exact h.head
    · exact ih (h.tail ht) hu b hb

theorem Along.imp {G H : S → A → Prop} {s : S} {as : List A}
    (hGH : ∀ s, ∀ a ∈ as, G s a → H s a) (h : Along step G s as) : Along step H s as := by
  induction as generalizing s with
  | nil => trivial
  | cons a as ih =>
    exact along_cons (hGH s a List.mem_cons_self h.head) fun t ht =>
      ih (fun s b hb => hGH s b (List.mem_cons_of_mem a hb)) (h.tail ht)

theorem Along.and_mem {P : A → Prop} {G : S → A → Prop} {s : S} {as : List A}
    (hP : ∀ a ∈ as, P a) (h : Along step G s as) : Along step (fun s a => P a ∧ G s a) s as := by
  induction as generalizing s with
  | nil => trivial
  | cons a as ih =>
    exact along_cons ⟨hP a List.mem_cons_self,h.head⟩ fun t ht =>
      ih (fun b hb => hP b (List.mem_cons_of_mem a hb)) (h.tail ht)

/-- The unguarded form: an inductive invariant holds in every reachable state. -/
theorem Reachable.invariant {I : S → Prop} {init u : S} (h₀ : I init)
    (hI : ∀ s a t, I s → step s a = some t → I t) (h : Reachable step init u) : I u := by
  obtain ⟨as,has⟩ := h
  refine run_invariant ?_ h₀ (along_true init as) has
  exact fun s a t hs _ ht => hI s a t hs ht

end Runs
end Kitakami

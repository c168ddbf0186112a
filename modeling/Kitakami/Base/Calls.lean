import Mathlib.Tactic

/-!
# Calls that may fail

A C function that works on a state and reports failure by its return code is a
`Call`: it has a new state in any case, and a value if it succeeds. `Triple`
states a precondition with a postcondition for each outcome.
-/

namespace Kitakami

def Call (σ α : Type) := σ → σ × Option α

namespace Call

variable {σ α β : Type}

def fail : Call σ α := fun s => (s,none)

instance : Monad (Call σ) where
  pure a := fun s => (s,some a)
  bind c f := fun s =>
    match c s with
    | (s,some a) => f a s
    | (s,none) => (s,none)

theorem bind_some {c : Call σ α} {f : α → Call σ β} {s t : σ} {a : α} (h : c s = (t,some a)) :
    (c >>= f) s = f a t := by
  show (match c s with
    | (s,some a) => f a s
    | (s,none) => (s,none)) = f a t
  rw [h]

theorem bind_none {c : Call σ α} {f : α → Call σ β} {s t : σ} (h : c s = (t,none)) :
    (c >>= f) s = (t,none) := by
  show (match c s with
    | (s,some a) => f a s
    | (s,none) => (s,none)) = (t,none)
  rw [h]

theorem bind_assoc {γ : Type} (c : Call σ α) (f : α → Call σ β) (g : β → Call σ γ) :
    c >>= f >>= g = c >>= fun a => f a >>= g := by
  funext s
  rcases hr : c s with ⟨t,_ | a⟩
  · rw [bind_none hr,bind_none (bind_none hr)]
  · rw [bind_some hr]
    show (match (c >>= f) s with
      | (s,some b) => g b s
      | (s,none) => (s,none)) = _
    rw [bind_some hr]
    rfl

/-- A call of two parts succeeds exactly if both do. -/
theorem bind_eq_some {c : Call σ α} {f : α → Call σ β} {s : σ} {b : β} :
    ((c >>= f) s).2 = some b ↔ ∃ t a, c s = (t,some a) ∧ (f a t).2 = some b := by
  rcases hr : c s with ⟨t,_ | a⟩
  · rw [bind_none hr]
    simp
  · rw [bind_some hr]
    simp

/-- What each outcome of a call must satisfy. -/
def Ends (Q : α → σ → Prop) (E : σ → Prop) : σ × Option α → Prop
  | (s,some a) => Q a s
  | (s,none) => E s

/-- From a state with `P` the call ends in `Q` if it succeeds and in `E` if it fails. -/
def Triple (P : σ → Prop) (c : Call σ α) (Q : α → σ → Prop) (E : σ → Prop) : Prop :=
  ∀ s, P s → Ends Q E (c s)

variable {P P' : σ → Prop} {Q Q' : α → σ → Prop} {R : β → σ → Prop} {E E' : σ → Prop}

@[simp] theorem ends_some (a : α) (s : σ) : Ends Q E (s,some a) ↔ Q a s := Iff.rfl

@[simp] theorem ends_none (s : σ) : Ends Q E ((s,none) : σ × Option α) ↔ E s := Iff.rfl

theorem Ends.imp {o : σ × Option α} (h : Ends Q E o) (hq : ∀ a s, Q a s → Q' a s)
    (he : ∀ s, E s → E' s) : Ends Q' E' o := by
  obtain ⟨s,_ | a⟩ := o
  · exact he s h
  · exact hq a s h

theorem Triple.conseq {c : Call σ α} (h : Triple P c Q E) (hp : ∀ s, P' s → P s)
    (hq : ∀ a s, Q a s → Q' a s) (he : ∀ s, E s → E' s) : Triple P' c Q' E' :=
  fun s hs => (h s (hp s hs)).imp hq he

theorem Triple.pre {c : Call σ α} (hp : ∀ s, P' s → P s) (h : Triple P c Q E) :
    Triple P' c Q E := fun s hs => h s (hp s hs)

theorem Triple.pure {a : α} (h : ∀ s, P s → Q a s) :
    Triple P (Pure.pure a : Call σ α) Q E := h

theorem Triple.fail (h : ∀ s, P s → E s) : Triple P (Call.fail : Call σ α) Q E := h

theorem Triple.bind {c : Call σ α} {f : α → Call σ β} (hc : Triple P c Q E)
    (hf : ∀ a, Triple (Q a) (f a) R E) : Triple P (c >>= f) R E := by
  intro s hs
  have h := hc s hs
  rcases hr : c s with ⟨t,_ | a⟩ <;> rw [hr] at h
  · rw [bind_none hr]
    exact h
  · rw [bind_some hr]
    exact hf a t h

/-- A test whose failing branch returns early. -/
theorem Triple.guard {b : Prop} [Decidable b] {c : Call σ α}
    (hfail : ∀ s, P s → b → E s) (h : Triple (fun s => P s ∧ ¬ b) c Q E) :
    Triple P (if b then Call.fail else c) Q E := by
  intro s hs
  split
  · exact hfail s hs ‹_›
  · exact h s ⟨hs,‹_›⟩

/-- Nothing asked, nothing promised. -/
theorem Triple.top (c : Call σ α) : Triple (fun _ => True) c (fun _ _ => True) fun _ => True := by
  intro s _
  rcases c s with ⟨t,_ | a⟩ <;> trivial

/-- What a successful call guarantees. -/
theorem Ends.of_some {o : σ × Option α} (h : Ends Q E o) {a : α} (ho : o.2 = some a) : Q a o.1 := by
  obtain ⟨s,_ | b⟩ := o
  · cases ho
  · obtain rfl := Option.some.inj ho
    exact h

/-- What holds after a call that succeeds or fails alike. -/
theorem Ends.state {I : σ → Prop} {o : σ × Option α} (h : Ends (fun _ => I) I o) : I o.1 := by
  obtain ⟨s,_ | b⟩ := o <;> exact h

theorem Triple.of_some {c : Call σ α} (h : Triple P c Q E) {s : σ} {a : α} (hs : P s)
    (hr : (c s).2 = some a) : Q a (c s).1 := (h s hs).of_some hr

theorem Triple.state {I : σ → Prop} {c : Call σ α} (h : Triple P c (fun _ => I) I) {s : σ}
    (hs : P s) : I (c s).1 := (h s hs).state

/-- The call keeps an invariant, whether it fails or not. -/
def Keeps (I : σ → Prop) (c : Call σ α) : Prop := Triple I c (fun _ => I) I

variable {I : σ → Prop}

theorem Keeps.fail : Keeps I (Call.fail : Call σ α) := Triple.fail fun _ h => h

theorem Keeps.pure (a : α) : Keeps I (Pure.pure a : Call σ α) := Triple.pure fun _ h => h

theorem Keeps.bind {c : Call σ α} {f : α → Call σ β} (hc : Keeps I c) (hf : ∀ a, Keeps I (f a)) :
    Keeps I (c >>= f) := Triple.bind hc hf

theorem Keeps.guard {b : Prop} [Decidable b] {c : Call σ α} (h : Keeps I c) :
    Keeps I (if b then Call.fail else c) :=
  Triple.guard (fun _ hi _ => hi) (h.conseq (fun _ hi => hi.1) (fun _ _ hi => hi) fun _ hi => hi)

end Call
end Kitakami

import Mathlib.Data.List.Basic
import Mathlib.Tactic

/-!
# Null-terminated chains

Singly linked lists as C edits them: through the address of the pointer that
leads to a node. This is the head of a list, or the link field of the node
before. Every edit redirects one such pointer, `Holds.redirect`; the rest of the
chain is read from the same cells as before.
-/

namespace Kitakami
namespace Chain

/-- Where a pointer to a node is kept. -/
inductive Cell (H A : Type)
  | head (h : H)
  | link (a : A)
  deriving DecidableEq

variable {H A : Type} {m m' : Cell H A → Option A} {c : Cell H A} {l u v w : List A} {a : A}
  {p : A → Bool}

/-- From the cell on, the nodes of `l` follow each other up to a null pointer. -/
def Holds (m : Cell H A → Option A) : Cell H A → List A → Prop
  | c, [] => m c = none
  | c, a::l => m c = some a ∧ Holds m (.link a) l

/-- Walk along a chain to the first node with `p`, and return it with the cell that leads to it.
The walk takes at most as many steps as the first number says. -/
def locate (p : A → Bool) (m : Cell H A → Option A) : ℕ → Cell H A →
    Option (Option (Cell H A × A))
  | 0, _ => none
  | fuel + 1, c =>
    match m c with
    | none => some none
    | some a => if p a then some (some (c,a)) else locate p m fuel (.link a)

/-- The cell that leads on behind the nodes of `u`. -/
def ending (c : Cell H A) : List A → Cell H A
  | [] => c
  | a::u => ending (.link a) u

/-- The cells that lead to the nodes of `u`. -/
def leading (c : Cell H A) : List A → List (Cell H A)
  | [] => []
  | a::u => c::leading (.link a) u

@[simp] theorem holds_nil : Holds m c [] ↔ m c = none := Iff.rfl

@[simp] theorem holds_cons : Holds m c (a::l) ↔ m c = some a ∧ Holds m (.link a) l := Iff.rfl

@[simp] theorem ending_nil : ending c ([] : List A) = c := rfl

@[simp] theorem ending_cons : ending c (a::u) = ending (.link a) u := rfl

@[simp] theorem leading_nil : leading c ([] : List A) = [] := rfl

@[simp] theorem leading_cons : leading c (a::u) = c::leading (.link a) u := rfl

theorem ending_mem (c : Cell H A) (u : List A) : ending c u = c ∨ ∃ a ∈ u, ending c u = .link a := by
  induction u generalizing c with
  | nil => exact Or.inl rfl
  | cons a u ih =>
    right
    rcases ih (.link a) with h | ⟨b,hb,h⟩
    · exact ⟨a,List.mem_cons_self,h⟩
    · exact ⟨b,List.mem_cons_of_mem a hb,h⟩

/-- The cell behind the nodes leads to none of them. -/
theorem ending_not_mem_leading {h : H} (hn : u.Nodup) :
    ending (.head h) u ∉ leading (.head h) u := by
  have hlink : ∀ {u : List A} {c : Cell H A}, u.Nodup → (∀ a ∈ u, c ≠ .link a) →
      ending c u ∉ leading c u := by
    intro u
    induction u with
    | nil => simp
    | cons a u ih =>
      intro c hn hc hmem
      obtain ⟨ha,hn⟩ := List.nodup_cons.mp hn
      have hne : ∀ b ∈ u, Cell.link (H:=H) a ≠ .link b := by
        rintro b hb he
        injection he with he
        exact ha (he ▸ hb)
      rcases List.mem_cons.mp hmem with he | hmem
      · rcases ending_mem (.link a) u with h | ⟨b,hb,h⟩
        · exact hc a List.mem_cons_self (he.symm.trans h)
        · exact hc b (List.mem_cons_of_mem a hb) (he.symm.trans h)
      · exact ih hn hne hmem
  exact hlink hn (by simp)

/-! ## Reading -/

theorem Holds.unique (h : Holds m c l) (h' : Holds m c u) : l = u := by
  induction l generalizing c u with
  | nil =>
    cases u with
    | nil => rfl
    | cons b u => exact absurd (h.symm.trans h'.1) (by simp)
  | cons a l ih =>
    cases u with
    | nil => exact absurd (h'.symm.trans h.1) (by simp)
    | cons b u =>
      obtain rfl : a = b := Option.some.inj (h.1.symm.trans h'.1)
      rw [ih h.2 h'.2]

theorem Holds.behind (h : Holds m c (u ++ v)) : Holds m (ending c u) v := by
  induction u generalizing c with
  | nil => exact h
  | cons a u ih => exact ih h.2

/-- A chain that ends never comes back to a node. -/
theorem Holds.nodup (h : Holds m c l) : l.Nodup := by
  induction l generalizing c with
  | nil => exact List.nodup_nil
  | cons a l ih =>
    refine List.nodup_cons.mpr ⟨fun ha => ?_,ih h.2⟩
    obtain ⟨u,v,rfl⟩ := List.append_of_mem ha
    have hrest : Holds m (.link a) v := (h.2.behind (v:=a::v)).2
    have hlen := congrArg List.length (h.2.unique hrest)
    simp at hlen
    omega

/-- What the walk finds on a chain it gets through. -/
theorem Holds.locate (h : Holds m c (u ++ v)) (hu : ∀ b ∈ u, p b = false)
    (hv : ∀ a ∈ v.head?, p a = true) {fuel : ℕ} (hf : u.length < fuel) :
    locate p m fuel c = some (v.head?.map fun a => (ending c u,a)) := by
  induction u generalizing c fuel with
  | nil =>
    obtain ⟨fuel,rfl⟩ : ∃ k, fuel = k + 1 := ⟨fuel - 1,by simp at hf; omega⟩
    cases v with
    | nil =>
      have hc : m c = none := h
      simp [Chain.locate,hc]
    | cons a v =>
      have ha : p a = true := hv a rfl
      simp [Chain.locate,h.1,ha]
  | cons b u ih =>
    obtain ⟨fuel,rfl⟩ : ∃ k, fuel = k + 1 := ⟨fuel - 1,by simp at hf; omega⟩
    have hb : p b = false := hu b List.mem_cons_self
    have hrest := ih h.2 (fun d hd => hu d (List.mem_cons_of_mem b hd)) (by simpa using hf)
    simpa [Chain.locate,h.1,hb] using hrest

/-! ## Editing -/

/-- A chain is read from its own cells only; it may start at another cell that leads to the same. -/
theorem Holds.congr {d : Cell H A} (h : Holds m c l) (hc : m' d = m c)
    (hl : ∀ a ∈ l, m' (.link a) = m (.link a)) : Holds m' d l := by
  induction l generalizing c d with
  | nil => exact hc.trans h
  | cons a l ih =>
    exact ⟨hc.trans h.1,ih h.2 (hl a List.mem_cons_self)
      fun b hb => hl b (List.mem_cons_of_mem a hb)⟩

/-- Behind the nodes of `u` the chain may be continued in another way. -/
theorem Holds.redirect (h : Holds m c (u ++ v)) (hu : ∀ d ∈ leading c u, m' d = m d)
    (hw : Holds m' (ending c u) w) : Holds m' c (u ++ w) := by
  induction u generalizing c with
  | nil => exact hw
  | cons a u ih =>
    exact ⟨(hu c List.mem_cons_self).trans h.1,
      ih h.2 (fun d hd => hu d (List.mem_cons_of_mem c hd)) hw⟩

variable [DecidableEq H] [DecidableEq A] {h k : H}

/-- `a->p_next = *c` and `*c = a`. -/
def push (m : Cell H A → Option A) (c : Cell H A) (a : A) : Cell H A → Option A :=
  Function.update (Function.update m (.link a) (m c)) c (some a)

/-- `*c = a->p_next`. -/
def unlink (m : Cell H A → Option A) (c : Cell H A) (a : A) : Cell H A → Option A :=
  Function.update m c (m (.link a))

theorem Holds.push (hl : Holds m (.head h) l) (ha : a ∉ l) :
    Holds (push m (.head h) a) (.head h) (a::l) := by
  refine ⟨Function.update_self _ _ _,hl.congr ?_ fun b hb => ?_⟩
  · rw [Chain.push,Function.update_of_ne (by simp),Function.update_self]
  · have hne : b ≠ a := fun he => ha (he ▸ hb)
    rw [Chain.push,Function.update_of_ne (by simp),Function.update_of_ne (by simpa using hne)]

/-- Pushing a node on one list leaves the others. -/
theorem Holds.push_other (hl : Holds m (.head k) l) (hk : k ≠ h) (ha : a ∉ l) :
    Holds (Chain.push m (.head h) a) (.head k) l := by
  refine hl.congr ?_ fun b hb => ?_
  · rw [Chain.push,Function.update_of_ne (by simpa using hk),Function.update_of_ne (by simp)]
  · have hne : b ≠ a := fun he => ha (he ▸ hb)
    rw [Chain.push,Function.update_of_ne (by simp),Function.update_of_ne (by simpa using hne)]

/-- Writing the last link of the front part continues the chain as the new pointer says. -/
theorem Holds.write (hl : Holds m (.head h) (u ++ v)) {q : Option A}
    (hw : Holds (Function.update m (ending (.head h) u) q) (ending (.head h) u) w) :
    Holds (Function.update m (ending (.head h) u) q) (.head h) (u ++ w) := by
  have hn : u.Nodup := (List.nodup_append.mp hl.nodup).1
  refine hl.redirect (fun d hd => Function.update_of_ne ?_ _ _) hw
  rintro rfl
  exact ending_not_mem_leading hn hd

theorem Holds.unlink (hl : Holds m (.head h) (u ++ a::v)) :
    Holds (unlink m (ending (.head h) u) a) (.head h) (u ++ v) := by
  refine hl.write (hl.behind.2.congr (Function.update_self _ _ _) fun b hb => ?_)
  refine Function.update_of_ne ?_ _ _
  have hdisj := (List.nodup_append.mp hl.nodup).2.2
  intro he
  rcases ending_mem (.head h) u with hc | ⟨d,hd,hc⟩
  · cases he.trans hc
  · obtain rfl : b = d := by simpa using he.trans hc
    exact hdisj b hd b (List.mem_cons_of_mem a hb) rfl

/-- Taking a node out of one list leaves the others. -/
theorem Holds.unlink_other (hl : Holds m (.head k) l) (hk : k ≠ h) (hu : ∀ b ∈ l, b ∉ u) :
    Holds (Chain.unlink m (ending (.head h) u) a) (.head k) l := by
  have hne : ∀ d : Cell H A, d = .head k ∨ (∃ b ∈ l, d = .link b) → d ≠ ending (.head h) u := by
    rintro d hd rfl
    rcases ending_mem (.head h) u with hc | ⟨b,hb,hc⟩ <;> rcases hd with hd | ⟨e,he,hd⟩
    · exact hk (by simpa using hd.symm.trans hc)
    · simp [hc] at hd
    · simp [hc] at hd
    · obtain rfl : e = b := by simpa using hd.symm.trans hc
      exact hu e he hb
  refine hl.congr ?_ fun b hb => ?_
  · exact Function.update_of_ne (hne _ (Or.inl rfl)) _ _
  · exact Function.update_of_ne (hne _ (Or.inr ⟨b,hb,rfl⟩)) _ _

end Chain
end Kitakami

import Mathlib.Data.List.Basic
import Mathlib.Logic.Function.Basic
import Mathlib.Tactic

/-!
# A reader-writer lock

The lock knows its readers and its writer. Taking it blocks, so it is partial;
releasing it is undefined for a thread that does not hold it. A program says for
each of its threads how it holds the lock; `Agrees` is what the two have to do
with each other, and it survives what the threads do with the lock.
-/

namespace Kitakami

/-- How a thread may hold a lock. -/
inductive Hold
  | read
  | write
  deriving DecidableEq

structure RwLock (T : Type) where
  readers : List T := []
  writer : Option T := none

namespace RwLock

variable {T : Type} {l l' : RwLock T} {held : T → Option Hold} {t u : T} {h : Hold}

/-- Nobody holds the lock. -/
def Free (l : RwLock T) : Prop := l.writer = none ∧ l.readers = []

instance (l : RwLock T) : Decidable l.Free := inferInstanceAs (Decidable (_ ∧ _))

def acquire (t : T) : Hold → RwLock T → Option (RwLock T)
  | .read, l => if l.writer = none then some { l with readers := t::l.readers } else none
  | .write, l => if l.Free then some { l with writer := some t } else none

def release [DecidableEq T] (t : T) (l : RwLock T) : Option (RwLock T) :=
  if l.writer = some t then some { l with writer := none }
  else if t ∈ l.readers then some { l with readers := l.readers.erase t }
  else none

/-- The lock is held as the threads say. -/
structure Agrees (l : RwLock T) (held : T → Option Hold) : Prop where
  nodup : l.readers.Nodup
  reader : ∀ t, t ∈ l.readers ↔ held t = some .read
  writer : ∀ t, l.writer = some t ↔ held t = some .write
  alone : l.writer = none ∨ l.readers = []

theorem agrees_free : Agrees ({} : RwLock T) fun _ => none := by
  constructor <;> simp

theorem Agrees.congr {held' : T → Option Hold} (ha : Agrees l held) (h : ∀ t, held' t = held t) :
    Agrees l held' := (funext h : held' = held) ▸ ha

theorem Agrees.free_iff (ha : Agrees l held) : l.Free ↔ ∀ t, held t = none := by
  constructor
  · rintro ⟨hw,hr⟩ t
    cases ht : held t with
    | none => rfl
    | some k =>
      cases k with
      | read => simpa [hr] using (ha.reader t).mpr ht
      | write => simpa [hw] using (ha.writer t).mpr ht
  · intro hall
    refine ⟨Option.eq_none_iff_forall_not_mem.mpr fun t ht => ?_,
      List.eq_nil_iff_forall_not_mem.mpr fun t ht => ?_⟩
    · simpa [hall t] using (ha.writer t).mp ht
    · simpa [hall t] using (ha.reader t).mp ht

variable [DecidableEq T]

/-- A thread that keeps to what it has changes nothing. -/
theorem Agrees.same (ha : Agrees l held) {k : Option Hold} (ht : held t = k) :
    Agrees l (Function.update held t k) :=
  ha.congr fun u => congrFun (Function.update_eq_iff.mpr ⟨ht.symm,fun _ _ => rfl⟩) u

theorem Agrees.acquire (ha : Agrees l held) (hidle : held t = none)
    (hl : l.acquire t h = some l') : Agrees l' (Function.update held t (some h)) := by
  cases h with
  | read =>
    rw [RwLock.acquire] at hl
    split at hl
    case isFalse => cases hl
    case isTrue hw =>
      obtain rfl := Option.some.inj hl
      have hnot : t ∉ l.readers := fun hm => by simpa [hidle] using (ha.reader t).mp hm
      refine ⟨List.nodup_cons.mpr ⟨hnot,ha.nodup⟩,fun u => ?_,fun u => ?_,Or.inl hw⟩
      · by_cases hut : u = t
        · simp [hut]
        · simp [hut,ha.reader u]
      · by_cases hut : u = t
        · simp [hut,hw]
        · simp [hut,ha.writer u]
  | write =>
    rw [RwLock.acquire] at hl
    split at hl
    case isFalse => cases hl
    case isTrue hfree =>
      obtain rfl := Option.some.inj hl
      refine ⟨ha.nodup,fun u => ?_,fun u => ?_,Or.inr hfree.2⟩
      · by_cases hut : u = t
        · simp [hut,hfree.2]
        · simp [hut,ha.reader u]
      · by_cases hut : u = t
        · simp [hut]
        · have hnone := ha.free_iff.mp hfree u
          simp [hut,hnone,Ne.symm hut]

/-- Exactly the threads that hold the lock can release it. -/
theorem Agrees.release_isSome (ha : Agrees l held) (t : T) :
    (l.release t).isSome ↔ held t ≠ none := by
  rw [RwLock.release]
  split
  case isTrue hw => simp [(ha.writer t).mp hw]
  case isFalse hw =>
    split
    case isTrue hr => simp [(ha.reader t).mp hr]
    case isFalse hr =>
      rw [ha.writer] at hw
      rw [ha.reader] at hr
      cases ht : held t with
      | none => simp
      | some k => cases k <;> simp_all

theorem Agrees.release (ha : Agrees l held) (hl : l.release t = some l') :
    Agrees l' (Function.update held t none) := by
  rw [RwLock.release] at hl
  split at hl
  case isTrue hw =>
    obtain rfl := Option.some.inj hl
    have hr : l.readers = [] := ha.alone.resolve_left (by simp [hw])
    refine ⟨ha.nodup,fun u => ?_,fun u => ?_,Or.inl rfl⟩
    · by_cases hut : u = t
      · simp [hut,hr]
      · simp [hut,ha.reader u]
    · by_cases hut : u = t
      · simp [hut]
      · have hu := ha.writer u
        simp only [hw,Option.some.injEq] at hu
        simp [hut,← hu,Ne.symm hut]
  case isFalse hw =>
    split at hl
    case isFalse => cases hl
    case isTrue hr =>
      obtain rfl := Option.some.inj hl
      have hnone : l.writer = none := ha.alone.resolve_right (List.ne_nil_of_mem hr)
      refine ⟨ha.nodup.erase t,fun u => ?_,fun u => ?_,Or.inl hnone⟩
      · by_cases hut : u = t
        · simp [hut,ha.nodup.mem_erase_iff]
        · simp [hut,List.mem_erase_of_ne hut,ha.reader u]
      · by_cases hut : u = t
        · simp [hut,hnone]
        · simp [hut,ha.writer u]

end RwLock
end Kitakami

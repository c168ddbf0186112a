import Mathlib.Data.List.Basic
import Mathlib.Data.List.Range
import Mathlib.Tactic

/-!
# A ring buffer that forgets its oldest element

A fixed number of slots with a head and a count. A push into a full ring first
drops the head; a pop takes the head. `Ring.toList` is the abstract queue, and
the lemmas say what the two operations do to it.
-/

namespace Kitakami

structure Ring (cap : ℕ) (β : Type) where
  slots : Fin cap → β
  head : Fin cap
  count : ℕ
  count_le : count ≤ cap

namespace Ring

variable {cap : ℕ} {β : Type}

/-- An empty ring whose slots hold `x`. -/
def empty (h : 0 < cap) (x : β) : Ring cap β := ⟨fun _ => x,⟨0,h⟩,0,Nat.zero_le _⟩

/-- The slot that is `i` places behind the head. -/
def index (r : Ring cap β) (i : ℕ) : Fin cap :=
  ⟨(r.head+i)%cap,Nat.mod_lt _ (Nat.zero_lt_of_lt r.head.isLt)⟩

/-- The queue, oldest first. -/
def toList (r : Ring cap β) : List β := (List.range r.count).map fun i => r.slots (r.index i)

/-- Forget the head. -/
def dropHead (r : Ring cap β) : Ring cap β :=
  { r with head := r.index 1, count := r.count - 1, count_le := by have := r.count_le; omega }

/-- Make room where there is none. -/
def makeRoom (r : Ring cap β) : Ring cap β := if r.count = cap then r.dropHead else r

theorem makeRoom_count_lt (r : Ring cap β) : r.makeRoom.count < cap := by
  have := r.count_le
  have := r.head.isLt
  unfold makeRoom
  split
  · show r.count - 1 < cap
    omega
  · omega

def push (r : Ring cap β) (x : β) : Ring cap β :=
  { r.makeRoom with
    slots := Function.update r.makeRoom.slots (r.makeRoom.index r.makeRoom.count) x
    count := r.makeRoom.count + 1
    count_le := r.makeRoom_count_lt }

def pop (r : Ring cap β) : Option (β × Ring cap β) :=
  if r.count = 0 then none else some (r.slots r.head,r.dropHead)

@[simp] theorem length_toList (r : Ring cap β) : r.toList.length = r.count := by simp [toList]

theorem index_zero (r : Ring cap β) : r.index 0 = r.head := by
  apply Fin.ext
  exact Nat.mod_eq_of_lt r.head.isLt

theorem index_dropHead (r : Ring cap β) (i : ℕ) : r.dropHead.index i = r.index (i+1) := by
  apply Fin.ext
  show ((r.head+1)%cap+i)%cap = (r.head+(i+1))%cap
  rw [Nat.mod_add_mod,Nat.add_assoc,Nat.add_comm 1 i]

theorem index_inj (r : Ring cap β) {i j : ℕ} (hi : i < cap) (hj : j < cap)
    (h : r.index i = r.index j) : i = j := by
  have hmod : (r.head+i)%cap = (r.head+j)%cap := congrArg Fin.val h
  exact (Nat.ModEq.add_left_cancel' _ hmod).eq_of_lt_of_lt hi hj

theorem toList_dropHead (r : Ring cap β) : r.dropHead.toList = r.toList.tail := by
  show (List.range (r.count - 1)).map (fun i => r.slots (r.dropHead.index i)) = _
  simp only [index_dropHead,toList]
  cases hc : r.count with
  | zero => rfl
  | succ n => simp [List.range_succ_eq_map,Function.comp_def]

/-- The slot behind the queue does not belong to it. -/
theorem toList_append (r : Ring cap β) (x : β) (h : r.count < cap) :
    (List.range (r.count + 1)).map
      (fun i => Function.update r.slots (r.index r.count) x (r.index i)) = r.toList ++ [x] := by
  rw [List.range_succ,List.map_append,toList]
  congr 1
  · refine List.map_congr_left fun i hi => ?_
    have hlt : i < r.count := List.mem_range.mp hi
    refine Function.update_of_ne (fun he => ?_) _ _
    exact absurd (r.index_inj (hlt.trans h) h he) hlt.ne
  · simp

/-- **A push appends**, and a push into a full ring drops the oldest element. -/
theorem toList_push (r : Ring cap β) (x : β) :
    (r.push x).toList = (if r.count = cap then r.toList.tail else r.toList) ++ [x] := by
  have h := toList_append r.makeRoom x r.makeRoom_count_lt
  have hroom : r.makeRoom.toList = if r.count = cap then r.toList.tail else r.toList := by
    unfold makeRoom
    split
    · exact toList_dropHead r
    · rfl
  rw [← hroom]
  exact h

/-- **A pop takes the oldest element.** -/
theorem pop_eq_some {r r' : Ring cap β} {x : β} (h : r.pop = some (x,r')) :
    r.toList = x :: r'.toList := by
  unfold pop at h
  split at h
  · cases h
  · obtain ⟨rfl,rfl⟩ : r.slots r.head = x ∧ r.dropHead = r' := by simpa using h
    rw [toList_dropHead]
    obtain ⟨n,hn⟩ := Nat.exists_eq_succ_of_ne_zero ‹_›
    simp [toList,hn,List.range_succ_eq_map,index_zero]

theorem pop_eq_none {r : Ring cap β} : r.pop = none ↔ r.toList = [] := by
  rw [← List.length_eq_zero_iff,length_toList]
  unfold pop
  split <;> simp_all

/-- What is in the ring after a push was there before or is the new element. -/
theorem mem_push {r : Ring cap β} {x y : β} (h : y ∈ (r.push x).toList) :
    y ∈ r.toList ∨ y = x := by
  rw [toList_push] at h
  rcases List.mem_append.mp h with h | h
  · split at h
    · exact .inl (List.mem_of_mem_tail h)
    · exact .inl h
  · exact .inr (by simpa using h)

end Ring
end Kitakami

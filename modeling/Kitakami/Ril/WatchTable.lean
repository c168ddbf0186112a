import Kitakami.Ril.Watch

/-!
# The watch table and the set for select

The table by its slots: `index` inverts it, each descriptor in `readFds` belongs
to one slot, and `nfds` is just above the largest one.
-/

namespace Kitakami
namespace Ril
namespace Watch

variable {E : Type} {s s' : Loop E} {e f : E} {i j : Fin maxFdEvents}

/-- What the table, the indices of the events, the set and its bound have to do with each other. -/
structure Table (s : Loop E) : Prop where
  slot : ∀ i e, s.watchTable i = some e ↔ s.index e = i
  index : ∀ e, s.index e = -1 ∨ ∃ i : Fin maxFdEvents, s.index e = i
  range : ∀ i e, s.watchTable i = some e → 0 ≤ s.fd e ∧ s.fd e < fdSetSize
  own : ∀ i j e f, s.watchTable i = some e → s.watchTable j = some f → s.fd e = s.fd f → i = j
  readFds : ∀ d, d ∈ s.readFds ↔ ∃ i e, s.watchTable i = some e ∧ s.fd e = d
  below : ∀ i e, s.watchTable i = some e → s.fd e < s.nfds
  tight : s.nfds ≤ 1 ∨ ∃ i e, s.watchTable i = some e ∧ s.nfds = s.fd e + 1

/-- The table is about the watched events only. -/
theorem Table.congr (h : Table s) (htable : s'.watchTable = s.watchTable) (hindex : s'.index = s.index)
    (hfd : ∀ i e, s.watchTable i = some e → s'.fd e = s.fd e) (hread : s'.readFds = s.readFds)
    (hnfds : s'.nfds = s.nfds) : Table s' where
  slot i e := by
    rw [htable,hindex]
    exact h.slot i e
  index e := by
    rw [hindex]
    exact h.index e
  range i e he := by
    rw [htable] at he
    rw [hfd i e he]
    exact h.range i e he
  own i j e f he hf hef := by
    rw [htable] at he hf
    rw [hfd i e he,hfd j f hf] at hef
    exact h.own i j e f he hf hef
  readFds d := by
    rw [hread,h.readFds,htable]
    constructor
    · rintro ⟨i,e,he,rfl⟩
      exact ⟨i,e,he,hfd i e he⟩
    · rintro ⟨i,e,he,rfl⟩
      exact ⟨i,e,he,(hfd i e he).symm⟩
  below i e he := by
    rw [htable] at he
    rw [hfd i e he,hnfds]
    exact h.below i e he
  tight := by
    rw [hnfds,htable]
    refine h.tight.imp_right ?_
    rintro ⟨i,e,he,hn⟩
    exact ⟨i,e,he,by rw [hfd i e he]; exact hn⟩

theorem Table.slot_inj (h : Table s) (hi : s.watchTable i = some e) (hj : s.watchTable j = some e) :
    i = j := by
  have hij := ((h.slot i e).mp hi).symm.trans ((h.slot j e).mp hj)
  exact Fin.ext (by exact_mod_cast hij)

theorem Table.not_watched (h : Table s) (he : s.index e = -1) (i : Fin maxFdEvents) :
    s.watchTable i ≠ some e := by
  intro hi
  have := (h.slot i e).mp hi
  omega

/-! ## The bound -/

/-- What the loop of `removeWatch` finds from some slots on. -/
theorem maxFd_fold (s : Loop E) (is : List (Fin maxFdEvents)) (n : ℤ) :
    let m := is.foldl (fun n i =>
      match s.watchTable i with
      | some rev => if s.fd rev > n then s.fd rev else n
      | none => n) n
    n ≤ m ∧ (∀ i ∈ is, ∀ e, s.watchTable i = some e → s.fd e ≤ m) ∧
      (m = n ∨ ∃ i e, s.watchTable i = some e ∧ s.fd e = m) := by
  induction is generalizing n with
  | nil => simp
  | cons i is ih =>
    simp only [List.foldl_cons]
    cases hi : s.watchTable i with
    | none =>
      obtain ⟨hle,hall,hex⟩ := ih n
      refine ⟨hle,fun j hj e he => ?_,hex⟩
      rcases List.mem_cons.mp hj with rfl | hj
      · simp [hi] at he
      · exact hall j hj e he
    | some rev =>
      simp only
      obtain ⟨hle,hall,hex⟩ := ih (if s.fd rev > n then s.fd rev else n)
      have hge : n ≤ (if s.fd rev > n then s.fd rev else n) ∧
          s.fd rev ≤ (if s.fd rev > n then s.fd rev else n) := by
        split_ifs <;> omega
      refine ⟨hge.1.trans hle,fun j hj e he => ?_,?_⟩
      · rcases List.mem_cons.mp hj with rfl | hj
        · obtain rfl : rev = e := Option.some.inj (hi.symm.trans he)
          exact hge.2.trans hle
        · exact hall j hj e he
      · rcases hex with hex | hex
        · split_ifs at hex with hgt
          · exact Or.inr ⟨i,rev,hi,by rw [if_pos hgt]; exact hex.symm⟩
          · exact Or.inl (by rw [if_neg hgt]; exact hex)
        · exact Or.inr hex

theorem maxFd_spec (s : Loop E) : 0 ≤ s.maxFd ∧ (∀ i e, s.watchTable i = some e → s.fd e ≤ s.maxFd) ∧
    (s.maxFd = 0 ∨ ∃ i e, s.watchTable i = some e ∧ s.fd e = s.maxFd) := by
  obtain ⟨hle,hall,hex⟩ := maxFd_fold s (List.finRange maxFdEvents) 0
  exact ⟨hle,fun i e he => hall i (List.mem_finRange i) e he,hex⟩

theorem removed_iff : Function.update s.watchTable i none j = some f ↔
    j ≠ i ∧ s.watchTable j = some f := by
  by_cases hji : j = i
  · subst hji
    simp
  · simp [hji]

theorem added_iff (hi : s.watchTable i = none) : Function.update s.watchTable i (some e) j = some f ↔
    (j = i ∧ f = e) ∨ s.watchTable j = some f := by
  by_cases hji : j = i
  · subst hji
    simp [hi,eq_comm]
  · simp [hji]

variable [DecidableEq E]

/-! ## Adding and removing -/

/-- The fields that `removeWatch` leaves, and the table without the slot. -/
theorem removeWatch_frame (s : Loop E) (e : E) (i : Fin maxFdEvents) :
    (s.removeWatch e i).events = s.events ∧ (s.removeWatch e i).persist = s.persist ∧
      (s.removeWatch e i).phase = s.phase ∧ (s.removeWatch e i).queued = s.queued ∧
      (s.removeWatch e i).watchTable = Function.update s.watchTable i none ∧
      (s.removeWatch e i).index = Function.update s.index e (-1) ∧
      (s.removeWatch e i).readFds = s.readFds.erase (s.fd e) := by
  unfold Loop.removeWatch
  simp only
  split <;> exact ⟨rfl,rfl,rfl,rfl,rfl,rfl,rfl⟩

theorem Table.removeWatch (h : Table s) (hi : s.watchTable i = some e) :
    Table (s.removeWatch e i) := by
  have hne : ∀ j f, j ≠ i → s.watchTable j = some f → f ≠ e := by
    rintro j f hji hj rfl
    exact hji (h.slot_inj hj hi)
  have hfd : ∀ f, (s.removeWatch e i).fd f = s.fd f := fun f => by
    rw [Loop.fd,(removeWatch_frame s e i).1,Loop.fd]
  have hbound : (∀ j f, j ≠ i → s.watchTable j = some f → s.fd f < (s.removeWatch e i).nfds) ∧
      ((s.removeWatch e i).nfds ≤ 1 ∨
        ∃ j f, (j ≠ i ∧ s.watchTable j = some f) ∧ (s.removeWatch e i).nfds = s.fd f + 1) := by
    unfold Loop.removeWatch
    simp only
    split
    case isTrue =>
      obtain ⟨-,hall,hex⟩ := maxFd_spec { s with
        watchTable := Function.update s.watchTable i none
        index := Function.update s.index e (-1)
        readFds := s.readFds.erase (s.fd e) }
      refine ⟨fun j f hji hj => ?_,?_⟩
      · have := hall j f (removed_iff.mpr ⟨hji,hj⟩)
        exact Int.lt_add_one_of_le this
      · rcases hex with hex | ⟨j,f,hj,hf⟩
        · exact Or.inl (by simp only; omega)
        · exact Or.inr ⟨j,f,removed_iff.mp hj,by rw [← hf]; rfl⟩
    case isFalse hlast =>
      refine ⟨fun j f _ hj => h.below j f hj,h.tight.imp_right ?_⟩
      rintro ⟨j,f,hj,hf⟩
      refine ⟨j,f,⟨?_,hj⟩,hf⟩
      rintro rfl
      obtain rfl : e = f := Option.some.inj (hi.symm.trans hj)
      exact hlast hf.symm
  obtain ⟨-,-,-,-,htable,hindex,hread⟩ := removeWatch_frame s e i
  constructor
  case slot =>
    intro j f
    rw [htable,hindex,removed_iff,h.slot]
    by_cases hfe : f = e
    · subst hfe
      rw [Function.update_self]
      have hif := (h.slot i f).mp hi
      constructor
      · rintro ⟨hji,hj⟩
        exact absurd (Fin.ext (by exact_mod_cast hj.symm.trans hif)) hji
      · intro hj
        omega
    · rw [Function.update_of_ne hfe]
      refine ⟨And.right,fun hj => ⟨?_,hj⟩⟩
      rintro rfl
      exact hfe (Option.some.inj (((h.slot j f).mpr hj).symm.trans hi))
  case index =>
    intro f
    rw [hindex]
    by_cases hfe : f = e
    · subst hfe
      exact Or.inl (Function.update_self _ _ _)
    · rw [Function.update_of_ne hfe]
      exact h.index f
  case range =>
    intro j f hj
    rw [htable,removed_iff] at hj
    rw [hfd]
    exact h.range j f hj.2
  case own =>
    intro j k f g hj hk hfg
    rw [htable,removed_iff] at hj hk
    rw [hfd,hfd] at hfg
    exact h.own j k f g hj.2 hk.2 hfg
  case readFds =>
    intro d
    simp only [hread,Finset.mem_erase,h.readFds,htable,removed_iff,hfd]
    constructor
    · rintro ⟨hd,j,f,hj,rfl⟩
      refine ⟨j,f,⟨?_,hj⟩,rfl⟩
      rintro rfl
      exact hd (congrArg s.fd (Option.some.inj (hj.symm.trans hi)))
    · rintro ⟨j,f,⟨hji,hj⟩,rfl⟩
      exact ⟨fun hd => hji (h.own j i f e hj hi hd),j,f,hj,rfl⟩
  case below =>
    intro j f hj
    rw [htable,removed_iff] at hj
    rw [hfd]
    exact hbound.1 j f hj.1 hj.2
  case tight =>
    simp only [htable,removed_iff,hfd]
    exact hbound.2

theorem Table.add (h : Table s) (hi : s.watchTable i = none) (he : s.index e = -1)
    (hfd : 0 ≤ s.fd e ∧ s.fd e < fdSetSize) (hnew : s.fd e ∉ s.readFds) : Table { s with
      watchTable := Function.update s.watchTable i (some e)
      index := Function.update s.index e i
      readFds := insert (s.fd e) s.readFds
      nfds := if s.fd e ≥ s.nfds then s.fd e + 1 else s.nfds } := by
  have hsole : ∀ j f, s.watchTable j = some f → s.fd f ≠ s.fd e := fun j f hj hd =>
    hnew ((h.readFds _).mpr ⟨j,f,hj,hd⟩)
  constructor
  case slot =>
    intro j f
    show _ ↔ Function.update s.index e (i : ℤ) f = j
    rw [added_iff hi,h.slot]
    by_cases hfe : f = e
    · subst hfe
      rw [Function.update_self]
      have hj : s.index f ≠ j := by omega
      constructor
      · rintro (⟨rfl,-⟩ | hj')
        · rfl
        · exact absurd hj' hj
      · intro hj'
        exact Or.inl ⟨Fin.ext (by exact_mod_cast hj'.symm),rfl⟩
    · rw [Function.update_of_ne hfe]
      exact or_iff_right fun hf => hfe hf.2
  case index =>
    intro f
    by_cases hfe : f = e
    · subst hfe
      exact Or.inr ⟨i,Function.update_self _ _ _⟩
    · simp only [Function.update_of_ne hfe]
      exact h.index f
  case range =>
    intro j f hj
    rcases (added_iff hi).mp hj with ⟨-,rfl⟩ | hj
    · exact hfd
    · exact h.range j f hj
  case own =>
    intro j k f g hj hk hfg
    rcases (added_iff hi).mp hj with ⟨rfl,rfl⟩ | hj' <;>
      rcases (added_iff hi).mp hk with ⟨rfl,rfl⟩ | hk'
    · rfl
    · exact absurd hfg.symm (hsole k g hk')
    · exact absurd hfg (hsole j f hj')
    · exact h.own j k f g hj' hk' hfg
  case readFds =>
    intro d
    simp only [Finset.mem_insert,h.readFds,added_iff hi]
    constructor
    · rintro (rfl | ⟨j,f,hj,rfl⟩)
      · exact ⟨i,e,Or.inl ⟨rfl,rfl⟩,rfl⟩
      · exact ⟨j,f,Or.inr hj,rfl⟩
    · rintro ⟨j,f,⟨rfl,rfl⟩ | hj,rfl⟩
      · exact Or.inl rfl
      · exact Or.inr ⟨j,f,hj,rfl⟩
  case below =>
    intro j f hj
    have hmax : s.fd e < (if s.fd e ≥ s.nfds then s.fd e + 1 else s.nfds) ∧
        s.nfds ≤ (if s.fd e ≥ s.nfds then s.fd e + 1 else s.nfds) := by
      split_ifs <;> omega
    rcases (added_iff hi).mp hj with ⟨-,rfl⟩ | hj
    · exact hmax.1
    · exact (h.below j f hj).trans_le hmax.2
  case tight =>
    simp only [added_iff hi]
    split_ifs with hge
    · exact Or.inr ⟨i,e,Or.inl ⟨rfl,rfl⟩,rfl⟩
    · refine h.tight.imp_right ?_
      rintro ⟨j,f,hj,hn⟩
      exact ⟨j,f,Or.inr hj,hn⟩

/-- What `ril_event_add` does: the event gets a free slot, if there is one. -/
theorem rilEventAdd_cases (s : Loop E) (hfd : 0 ≤ s.fd e ∧ s.fd e < fdSetSize) :
    (s.rilEventAdd e = some s ∧ ∀ i, s.watchTable i ≠ none) ∨
      ∃ i, s.watchTable i = none ∧ s.rilEventAdd e = some { s with
        watchTable := Function.update s.watchTable i (some e)
        index := Function.update s.index e i
        readFds := insert (s.fd e) s.readFds
        nfds := if s.fd e ≥ s.nfds then s.fd e + 1 else s.nfds } := by
  unfold Loop.rilEventAdd
  cases hfind : (List.finRange maxFdEvents).find? fun i => (s.watchTable i).isNone with
  | none =>
    refine Or.inl ⟨rfl,fun i hi => ?_⟩
    have := List.find?_eq_none.mp hfind i (List.mem_finRange i)
    simp [hi] at this
  | some i =>
    have hi := List.find?_some hfind
    exact Or.inr ⟨i,by simpa using hi,if_pos hfd⟩

end Watch
end Ril
end Kitakami

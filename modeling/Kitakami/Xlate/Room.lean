import Kitakami.Xlate.Header

/-!
# Room for the sections

The new size of a section comes from its own type, the room for it from the type
of the section that owns the offset. The two agree unless sections share an
offset in a bad way, or lie at 0x1f0 and are neither of type 2 nor of type 10.
-/

namespace Kitakami
namespace Xlate
namespace Table

variable {t : Table}

/-- The declared ranges lie in the new file, one behind the other. -/
def HasRoom (t : Table) : Prop :=
  (∀ i, headSz ≤ t.newDoff i ∧ t.newDoff i + t.newPsz i ≤ t.newSize) ∧
  ∀ i j, (t.sec i).doff < (t.sec j).doff → t.newDoff i + t.newPsz i ≤ t.newDoff j

/-- The declared range of a section lies in the room of its offset. -/
def Inside (t : Table) (i : Fin 13) : Prop :=
  headSz ≤ t.newDoff i ∧ t.newDoff i + t.newPsz i ≤ t.endOf (t.sec i).doff

theorem align_eight {x : ℕ} (h : x < 4294960000) :
    align 8 (u32 (x + buildLen)) = (x + 27)/8*8 := by
  unfold align buildLen u32
  omega

theorem Bounded.placedAt_head (h : t.Bounded) {i : Fin 13} (hi : (t.sec i).doff = headSz) :
    t.placedAt i =
      if t.lastAt headSz 10 = some i then (t.startOf headSz + 27)/8*8
      else if t.lastAt headSz 2 = some i then t.startOf headSz else 0 := by
  have hs := (h.startOf_spec (hi ▸ t.doff_mem i)).2.2
  simp only [headSz] at hs
  rw [placedAt,if_pos hi,align_eight (by simp only [headSz]; omega)]

theorem Bounded.startOf_le_newDoff (h : t.Bounded) {i : Fin 13} (hi : headSz ≤ t.newDoff i) :
    t.startOf (t.sec i).doff ≤ t.newDoff i := by
  by_cases hhead : (t.sec i).doff = headSz
  · rw [newDoff_eq,h.placedAt_head hhead] at hi ⊢
    rw [hhead]
    split_ifs at hi ⊢
    · omega
    · exact le_rfl
    · exact absurd hi (by decide)
  · rw [t.newDoff_of_ne hhead]

/-- The layout has room if each section stays in the room of its offset. -/
theorem Bounded.hasRoom_iff_inside (h : t.Bounded) (hleast : ∀ i, headSz ≤ (t.sec i).doff) :
    t.HasRoom ↔ ∀ i, t.Inside i := by
  constructor
  · intro hr i
    refine ⟨(hr.1 i).1,?_⟩
    rcases endOf_next (t.doff_mem i) with he | ⟨od',hod',hlt,he⟩
    · exact he ▸ (hr.1 i).2
    · obtain ⟨j,rfl⟩ := t.mem_doffs.mp hod'
      have hj := hr.2 i j hlt
      have hi := hleast i
      rwa [t.newDoff_of_ne (i := j) (by omega),he] at hj
  · intro hin
    refine ⟨fun i => ⟨(hin i).1,(hin i).2.trans (h.endOf_le_newSize (t.doff_mem i))⟩,?_⟩
    intro i j hlt
    calc t.newDoff i + t.newPsz i ≤ t.endOf (t.sec i).doff := (hin i).2
      _ ≤ t.startOf (t.sec j).doff := h.endOf_le_startOf (t.doff_mem i) (t.doff_mem j) hlt
      _ ≤ t.newDoff j := h.startOf_le_newDoff (hin j).1

/-! ## Sections at 0x1f0 -/

theorem lastAt_eq_some {od type : ℕ} {i : Fin 13} : t.lastAt od type = some i ↔
    (t.sec i).doff = od ∧ (t.sec i).type = type ∧
      ∀ j, (t.sec j).doff = od → (t.sec j).type = type → j ≤ i := by
  rcases t.lastAt_spec od type with ⟨hn,hall⟩ | ⟨w,hw,hd,ht,hmax⟩
  · rw [hn]
    exact ⟨fun h => by simp at h,fun ⟨hd,ht,_⟩ => absurd ht (hall i hd)⟩
  · rw [hw,Option.some_inj]
    constructor
    · rintro rfl
      exact ⟨hd,ht,hmax⟩
    · rintro ⟨hd',ht',hmax'⟩
      exact le_antisymm (hmax' w hd ht) (hmax i hd' ht')

theorem newPsz_of_two {i : Fin 13} (h : (t.sec i).type = 2) : t.newPsz i = 20 := by
  simp [newPsz,h,buildLen]

theorem newPsz_of_ten {i : Fin 13} (h : (t.sec i).type = 10) : t.newPsz i = (t.sec i).psz := by
  simp [newPsz,h]

/-- Of the sections at 0x1f0, the last of type 2 and the last of type 10 are placed. -/
theorem Bounded.inside_head (h : t.Bounded) {i : Fin 13} (hi : (t.sec i).doff = headSz)
    (h10 : (t.sec i).type = 10 → (t.sec i).psz ≤ 64) :
    t.Inside i ↔ t.lastAt headSz 2 = some i ∨ t.lastAt headSz 10 = some i := by
  have hod : headSz ∈ t.doffs := hi ▸ t.doff_mem i
  have hge := (h.startOf_spec hod).1
  have hend := (h.endOf_spec hod).2.2.1 rfl
  rw [Inside,newDoff_eq,h.placedAt_head hi,hi,hend]
  by_cases hten : t.lastAt headSz 10 = some i
  · have ht := (lastAt_eq_some.mp hten).2.1
    have := h10 ht
    rw [if_pos hten,newPsz_of_ten ht]
    exact iff_of_true ⟨by omega,by omega⟩ (.inr hten)
  · rw [if_neg hten]
    by_cases htwo : t.lastAt headSz 2 = some i
    · rw [if_pos htwo,newPsz_of_two (lastAt_eq_some.mp htwo).2.1]
      exact iff_of_true ⟨hge,by omega⟩ (.inl htwo)
    · rw [if_neg htwo]
      exact iff_of_false (fun hin => absurd hin.1 (by decide)) (not_or.mpr ⟨htwo,hten⟩)

/-! ## The other sections -/

/-- The last section in the table that has this offset; the owner of the offset. -/
def IsLast (t : Table) (w : Fin 13) : Prop := ∀ j, (t.sec j).doff = (t.sec w).doff → j ≤ w

instance : DecidablePred t.IsLast := fun _ => inferInstanceAs (Decidable (∀ _, _))

/-- A type-5 section of 16 bytes, which becomes 20 bytes long. -/
def Short (s : Sec) : Prop := s.type = 5 ∧ s.psz = 16

instance (s : Sec) : Decidable (Short s) := inferInstanceAs (Decidable (_ ∧ _))

theorem owner_of_isLast {w : Fin 13} (hw : t.IsLast w) :
    t.owner (t.sec w).doff = (some w,t.rlen (t.sec w).doff) := by
  obtain ⟨v,ho,hv,hmax⟩ := t.owner_spec (t.doff_mem w)
  obtain rfl : v = w := le_antisymm (hw v hv) (hmax w rfl)
  exact ho

theorem exists_isLast (i : Fin 13) : ∃ w, t.IsLast w ∧ (t.sec w).doff = (t.sec i).doff := by
  obtain ⟨w,-,hw,hmax⟩ := t.owner_spec (t.doff_mem i)
  exact ⟨w,fun j hj => hmax j (hj.trans hw),hw⟩

/-- The room for an offset by the type of its owner. -/
theorem placed_of_isLast {w : Fin 13} (hw : t.IsLast w)
    (hr : t.rlen (t.sec w).doff < 4294967296 - codeGrow) : t.placed (t.sec w).doff =
      if (t.sec w).type = 1 ∧ t.grow then t.rlen (t.sec w).doff + codeGrow
      else if Short (t.sec w) then 20 else t.rlen (t.sec w).doff := by
  simp only [placed,owner_of_isLast hw,u32_of_lt (show t.rlen (t.sec w).doff + codeGrow <
    4294967296 by omega),Short]
  split
  · rfl
  · split
    · split <;> simp_all
    · simp_all

/-- A section fits into the room that the owner of its offset gets. -/
def Fits (t : Table) (i w : Fin 13) : Prop :=
  let r := t.rlen (t.sec i).doff
  if Short (t.sec i) then
    Short (t.sec w) ∨ ((t.sec w).type = 1 ∧ t.grow) ∨ 17 ≤ r
  else if (t.sec i).type = 1 ∧ t.grow then
    (t.sec w).type = 1 ∨ (¬ Short (t.sec w) ∧ (t.sec i).psz + codeGrow ≤ (r + 3)/4*4)
  else Short (t.sec w) → (t.sec i).psz ≤ 20

instance (i w : Fin 13) : Decidable (t.Fits i w) := by
  unfold Fits
  infer_instance

theorem newPsz_eq {i : Fin 13} (h2 : (t.sec i).type ≠ 2)
    (hp : (t.sec i).psz < 4294967296 - codeGrow) : t.newPsz i =
      if Short (t.sec i) then 20
      else if (t.sec i).type = 1 ∧ t.grow then (t.sec i).psz + codeGrow else (t.sec i).psz := by
  have hu : u32 ((t.sec i).psz + codeGrow) = (t.sec i).psz + codeGrow := u32_of_lt (by omega)
  have hz : u32 (t.sec i).psz = (t.sec i).psz := u32_of_lt (by omega)
  unfold newPsz Short
  split
  · split <;> simp_all
  · simp_all
  · cases t.grow <;> simp_all
  · simp_all

theorem fits_iff {i w : Fin 13} (hw : t.IsLast w) (hi : (t.sec w).doff = (t.sec i).doff)
    (h2 : (t.sec i).type ≠ 2) (hpsz : (t.sec i).psz ≤ t.rlen (t.sec i).doff)
    (hr : t.rlen (t.sec i).doff < 4294967296 - codeGrow) :
    t.newPsz i ≤ (t.placed (t.sec i).doff + 3)/4*4 ↔ t.Fits i w := by
  have hplaced := placed_of_isLast hw (hi ▸ hr)
  rw [hi] at hplaced
  rw [hplaced,newPsz_eq h2 (by omega)]
  have hshort : Short (t.sec i) → (t.sec i).psz = 16 := And.right
  have hexcl : Short (t.sec w) → (t.sec w).type ≠ 1 := fun h h1 => by simp [h.1] at h1
  simp only [Fits,codeGrow] at *
  by_cases hgrow : (t.sec w).type = 1 ∧ t.grow
  · have hn : ¬ Short (t.sec w) := fun h => hexcl h hgrow.1
    simp only [hgrow,hn,if_true,true_and,false_or,not_false_eq_true,false_imp_iff]
    split
    · exact iff_of_true (by omega) (.inl trivial)
    · split <;> simp <;> omega
  · by_cases hs : Short (t.sec w)
    · have h1 := hexcl hs
      simp only [hs,h1,if_true,if_false,true_or,not_true_eq_false,false_and,or_false,true_imp_iff]
      split
      · simp
      · split <;> simp
    · simp only [hgrow,hs,if_false,false_or,not_false_eq_true,true_and,false_imp_iff]
      split
      · have := hshort ‹_›
        omega
      · split
        · have : (t.sec w).type ≠ 1 := fun h => hgrow ⟨h,(‹_ ∧ _› : _ ∧ _).2⟩
          simp [this]
        · simp
          omega

/-- When the table has room for all sections. -/
structure Roomy (t : Table) : Prop where
  /-- At 0x1f0 there are no sections but one of type 2 and one of type 10. -/
  head : ∀ i, (t.sec i).doff = headSz → (t.sec i).type = 2 ∨ (t.sec i).type = 10
  one : ∀ i j, (t.sec i).doff = headSz → (t.sec j).doff = headSz →
    (t.sec i).type = (t.sec j).type → i = j
  /-- Elsewhere each section fits in with the owner of its offset. -/
  fits : ∀ i w, (t.sec i).doff ≠ headSz → t.IsLast w → (t.sec w).doff = (t.sec i).doff →
    t.Fits i w

theorem Bounded.inside_of_ne (h : t.Bounded) {i w : Fin 13} (hne : (t.sec i).doff ≠ headSz)
    (hw : t.IsLast w) (hi : (t.sec w).doff = (t.sec i).doff) (h2 : (t.sec i).type ≠ 2)
    (hpsz : (t.sec i).psz ≤ t.rlen (t.sec i).doff) : t.Inside i ↔ t.Fits i w := by
  obtain ⟨hge,hmod,-⟩ := h.startOf_spec (t.doff_mem i)
  have hend := (h.endOf_spec (t.doff_mem i)).2.2.2 hne
  have hlen := h.end_le_len (t.doff_mem i)
  have hl := h.len
  rw [← fits_iff hw hi h2 hpsz (by simp only [codeGrow]; omega),Inside,t.newDoff_of_ne hne,hend]
  omega

/-- The room the layout gives, in terms of the sections. -/
theorem Bounded.hasRoom_iff_roomy (h : t.Bounded) (hleast : ∀ i, headSz ≤ (t.sec i).doff)
    (hpsz : ∀ i, (t.sec i).psz ≤ t.rlen (t.sec i).doff)
    (hhead : ∀ i, (t.sec i).type = 2 ∨ (t.sec i).type = 10 → (t.sec i).doff = headSz)
    (h10 : ∀ i, (t.sec i).type = 10 → (t.sec i).psz ≤ 64) : t.HasRoom ↔ t.Roomy := by
  rw [h.hasRoom_iff_inside hleast]
  constructor
  · intro hin
    have hplaced : ∀ i, (t.sec i).doff = headSz →
        t.lastAt headSz 2 = some i ∨ t.lastAt headSz 10 = some i :=
      fun i hi => (h.inside_head hi (h10 i)).mp (hin i)
    refine ⟨fun i hi => ?_,fun i j hi hj hij => ?_,fun i w hne hw hi => ?_⟩
    · exact (hplaced i hi).imp (fun hl => (lastAt_eq_some.mp hl).2.1)
        fun hl => (lastAt_eq_some.mp hl).2.1
    · have hmax : ∀ i j, (t.sec i).doff = headSz → (t.sec j).doff = headSz →
          (t.sec i).type = (t.sec j).type → j ≤ i := by
        intro i j hi hj hij
        rcases hplaced i hi with hl | hl <;> obtain ⟨-,ht,hmax⟩ := lastAt_eq_some.mp hl
        · exact hmax j hj (hij ▸ ht)
        · exact hmax j hj (hij ▸ ht)
      exact le_antisymm (hmax j i hj hi hij.symm) (hmax i j hi hj hij)
    · exact (h.inside_of_ne hne hw hi (fun h2 => hne (hhead i (.inl h2))) (hpsz i)).mp (hin i)
  · intro hr i
    by_cases hi : (t.sec i).doff = headSz
    · rw [h.inside_head hi (h10 i)]
      have hlast : ∀ j, (t.sec j).doff = headSz → (t.sec j).type = (t.sec i).type → j ≤ i :=
        fun j hj hij => (hr.one j i hj hi hij).le
      exact (hr.head i hi).imp (fun ht => lastAt_eq_some.mpr ⟨hi,ht,ht ▸ hlast⟩)
        fun ht => lastAt_eq_some.mpr ⟨hi,ht,ht ▸ hlast⟩
    · obtain ⟨w,hw,hwi⟩ := t.exists_isLast i
      exact (h.inside_of_ne hi hw hwi (fun h2 => hi (hhead i (.inl h2))) (hpsz i)).mpr
        (hr.fits i w hi hw hwi)

end Table

variable {inp : Bytes}

/-- The room the new file has for what its section table declares. -/
theorem hasRoom_iff (grow : Bool) (hlen : inp.size < 2147483648) (_ : Accepted inp)
    (hdoff : ∀ i, 0x1f0 ≤ (secAt inp i).doff ∧ (secAt inp i).doff ≤ inp.size)
    (hpsz : ∀ i, (secAt inp i).psz ≤ (tableOf grow inp).rlen (secAt inp i).doff)
    (hhead : ∀ i, (secAt inp i).type = 2 ∨ (secAt inp i).type = 10 →
      (secAt inp i).doff = 0x1f0)
    (h10 : ∀ i, (secAt inp i).type = 10 → (secAt inp i).psz ≤ 64) :
    (tableOf grow inp).HasRoom ↔ (tableOf grow inp).Roomy :=
  Table.Bounded.hasRoom_iff_roomy ⟨hlen,fun i => (hdoff i).2⟩ (fun i => (hdoff i).1) hpsz hhead h10

/-- Two sections that share an offset, with enough room for both. -/
def roomyFile : Bytes := sampleFile 0x270 ([⟨2,0x1f0,20,0,0⟩,⟨10,0x1f0,64,0,0⟩,⟨4,0x250,32,0,0⟩,
  ⟨5,0x250,16,0,0⟩] ++ List.replicate 9 ⟨4,0x250,32,0,0⟩) []

/-- An empty section of type 7 at 0x1f0. -/
def headFile : Bytes := sampleFile 0x270 ([⟨2,0x1f0,20,0,0⟩,⟨10,0x1f0,64,0,0⟩,⟨7,0x1f0,0,0,0⟩] ++
  List.replicate 10 ⟨4,0x250,32,0,0⟩) []

theorem hasRoom_roomyFile : (tableOf true roomyFile).HasRoom :=
  (hasRoom_iff true (by decide) (by decide +kernel) (by decide +kernel) (by decide +kernel)
    (by decide +kernel) (by decide +kernel)).mpr
    ⟨by decide +kernel,by decide +kernel,by decide +kernel⟩

theorem not_hasRoom_headFile : headFile.size < 2147483648 ∧ Accepted headFile ∧
    (∀ i, 0x1f0 ≤ (secAt headFile i).doff ∧ (secAt headFile i).doff ≤ headFile.size) ∧
    (∀ i, (secAt headFile i).psz ≤ (tableOf true headFile).rlen (secAt headFile i).doff) ∧
    (∀ i, (secAt headFile i).type = 2 ∨ (secAt headFile i).type = 10 →
      (secAt headFile i).doff = 0x1f0) ∧
    (∀ i, (secAt headFile i).type = 10 → (secAt headFile i).psz ≤ 64) ∧
    ¬ (tableOf true headFile).HasRoom := by
  refine ⟨by decide,by decide +kernel,by decide +kernel,by decide +kernel,by decide +kernel,
    by decide +kernel,?_⟩
  intro h
  have hplace := (h.1 2).1
  exact absurd hplace (by decide +kernel)

end Xlate
end Kitakami

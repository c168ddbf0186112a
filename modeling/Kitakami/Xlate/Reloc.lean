import Kitakami.Xlate.Header

/-!
# Relocation

RELOC tries the 64 bytes at 0x1f0 first and then the map, whose entry for 0x1f0
is taken to be 84 bytes long. An offset inside any other section follows the
section, unless the section starts within those 84 bytes.
-/

namespace Kitakami
namespace Xlate
namespace Table

variable {t : Table}

/-- The block at 0x1f0 as RELOC sees it ends here. -/
def headEnd : ℕ := headSz + (64 + buildLen)

/-- The map entry of an offset matches what lies in its extent. -/
def Matches (t : Table) (ov od : ℕ) : Prop := od ≤ ov ∧ ov < u32 (od + t.extent od)

instance (t : Table) (ov : ℕ) : DecidablePred (t.Matches ov) :=
  fun _ => inferInstanceAs (Decidable (_ ∧ _))

/-- Outside the window the first offset of the list that matches decides. -/
theorem reloc_of_first {pre post : List ℕ} {od ov : ℕ} (hw : ¬ (headSz ≤ ov ∧ ov < headSz + 64))
    (hd : t.doffs = pre ++ od :: post) (hpre : ∀ p ∈ pre, ¬ t.Matches ov p) (hod : t.Matches ov od) :
    t.reloc ov = (u32 (t.startOf od + (ov - od)),true) := by
  have hfind : (t.layout.map.find? fun e => ov ≥ e.1 ∧ ov < u32 (e.1 + t.extent e.1)) =
      some (od,t.startOf od) := by
    rw [List.find?_eq_some_iff_append]
    refine ⟨decide_eq_true hod,pre.map fun p => (p,t.startOf p),
      post.map fun p => (p,t.startOf p),by simp [t.layout_map,hd],?_⟩
    intro e he
    obtain ⟨p,hp,rfl⟩ := List.mem_map.mp he
    show (!decide (t.Matches ov p)) = true
    simp [hpre p hp]
  simp only [reloc]
  rw [if_neg hw,hfind]

theorem reloc_of_none {ov : ℕ} (hw : ¬ (headSz ≤ ov ∧ ov < headSz + 64))
    (hn : ∀ od ∈ t.doffs, ¬ t.Matches ov od) : t.reloc ov = (ov,false) := by
  have hfind : (t.layout.map.find? fun e => ov ≥ e.1 ∧ ov < u32 (e.1 + t.extent e.1)) = none := by
    rw [List.find?_eq_none,t.layout_map]
    intro e he
    obtain ⟨od,hod,rfl⟩ := List.mem_map.mp he
    show ¬ decide (t.Matches ov od) = true
    simp [hn od hod]
  simp only [reloc]
  rw [if_neg hw,hfind]

theorem matches_head (ov : ℕ) : t.Matches ov headSz ↔ headSz ≤ ov ∧ ov < headEnd := by
  rw [Matches,extent,if_pos rfl,u32_of_lt (by decide)]
  rfl

/-- Away from 0x1f0 an entry matches what lies in the section. -/
theorem Bounded.matches_iff (h : t.Bounded) {od : ℕ} (hod : od ∈ t.doffs) (hne : od ≠ headSz)
    (ov : ℕ) : t.Matches ov od ↔ od ≤ ov ∧ ov < od + t.rlen od := by
  have := h.end_le_len hod
  have := h.len
  rw [Matches,t.extent_eq hod hne,u32_of_lt (by omega)]

/-- An offset in a section follows the section, if no part of the block at 0x1f0
has it first. -/
theorem Bounded.reloc_eq (h : t.Bounded) {od ov : ℕ} (hod : od ∈ t.doffs) (hne : od ≠ headSz)
    (hov : od ≤ ov ∧ ov < od + t.rlen od) (hw : ¬ (headSz ≤ ov ∧ ov < headSz + 64))
    (hhead : headSz ∈ t.doffs → headSz < od → headEnd ≤ ov) :
    t.reloc ov = (t.startOf od + (ov - od),true) := by
  obtain ⟨pre,post,hd⟩ := List.append_of_mem hod
  have hs := t.doffs_sorted
  rw [hd] at hs
  have hpre : ∀ p ∈ pre, ¬ t.Matches ov p := by
    intro p hp
    have hmem : p ∈ t.doffs := by simp [hd,hp]
    have hlt : p < od := (List.pairwise_append.mp hs).2.2 p hp od (by simp)
    by_cases hph : p = headSz
    · subst hph
      have := hhead hmem hlt
      rw [matches_head]
      omega
    · have := h.end_le hmem hod hlt
      rw [h.matches_iff hmem hph]
      omega
  have hstart := (h.startOf_spec hod).2.2
  have hend := h.end_le_len hod
  have hlen := h.len
  rw [reloc_of_first hw hd hpre ((h.matches_iff hod hne ov).mpr hov),
    u32_of_lt (by simp only [headSz] at hstart; omega)]

/-- A section that starts right behind the 64 bytes at 0x1f0: its first offset is
taken for one of the block, and stays where it is. -/
theorem reloc_early (hhead : headSz ∈ t.doffs)
    (hleast : ∀ od ∈ t.doffs, headSz ≤ od) {ov : ℕ} (hov : headSz + 64 ≤ ov) (hlt : ov < headEnd) :
    t.reloc ov = (ov,true) := by
  obtain ⟨pre,post,hd⟩ := List.append_of_mem hhead
  have hs := t.doffs_sorted
  rw [hd] at hs
  have hnil : pre = [] := by
    refine List.eq_nil_iff_forall_not_mem.mpr fun p hp => ?_
    have hlt : p < headSz := (List.pairwise_append.mp hs).2.2 p hp headSz (by simp)
    have := hleast p (by simp [hd,hp])
    omega
  subst hnil
  have hstart : t.startOf headSz = headSz := t.startOf_eq hd
  rw [reloc_of_first (by omega) hd (by simp) ((matches_head ov).mpr ⟨by omega,hlt⟩),hstart,
    Nat.add_sub_of_le (by omega),u32_of_lt (by simp only [headEnd,headSz,buildLen] at hlt; omega)]

/-- Every offset in a section away from 0x1f0 is mapped to its place in the new one. -/
def Relocates (t : Table) : Prop :=
  ∀ i, (t.sec i).doff ≠ headSz → ∀ ov, (t.sec i).doff ≤ ov →
    ov < (t.sec i).doff + t.rlen (t.sec i).doff →
    t.reloc ov = (t.newDoff i + (ov - (t.sec i).doff),true)

/-- With the block at 0x1f0 in front, relocation is faithful exactly if no section
starts in the last 20 of the 84 bytes. -/
theorem Bounded.relocates_iff_late (h : t.Bounded) (hhead : headSz ∈ t.doffs)
    (hoff : ∀ i, (t.sec i).doff = headSz ∨ headSz + 64 ≤ (t.sec i).doff ∧ (t.sec i).doff < t.len) :
    t.Relocates ↔ ∀ i, (t.sec i).doff = headSz ∨ headEnd ≤ (t.sec i).doff := by
  have hleast : ∀ od ∈ t.doffs, headSz ≤ od := by
    intro od hod
    obtain ⟨i,rfl⟩ := t.mem_doffs.mp hod
    have := hoff i
    omega
  constructor
  · intro hr i
    by_contra hi
    obtain ⟨hne,hlt⟩ := not_or.mp hi
    have hin := (hoff i).resolve_left hne
    have hpos : (t.sec i).doff < (t.sec i).doff + t.rlen (t.sec i).doff := by
      rw [h.end_eq (t.doff_mem i)]
      rcases t.best_cases (t.sec i).doff with hb | ⟨j,hj,hb⟩ <;> omega
    have hmap := hr i hne _ le_rfl hpos
    rw [reloc_early hhead hleast hin.1 (by omega),t.newDoff_of_ne hne,Nat.sub_self,
      Nat.add_zero] at hmap
    have hmap := (Prod.mk.inj hmap).1
    -- its place is behind the new block, which is four bytes longer
    have hplace := h.endOf_le_startOf hhead (t.doff_mem i) (by omega)
    have hstart := (h.startOf_spec hhead).1
    have hblock := (h.endOf_spec hhead).2.2.1 rfl
    simp only [headEnd,headSz,buildLen] at *
    omega
  · intro hi i hne ov hlo hhi
    have hstart := (hi i).resolve_left hne
    rw [t.newDoff_of_ne hne]
    refine h.reloc_eq (t.doff_mem i) hne ⟨hlo,hhi⟩ ?_ fun _ _ => hstart.trans hlo
    simp only [headEnd,headSz,buildLen] at hstart ⊢
    omega

end Table

variable {inp : Bytes}

/-- The relocation of an accepted file whose type-10 section is at 0x1f0. -/
theorem relocates_iff (grow : Bool) (hlen : inp.size < 2147483648) (hacc : Accepted inp)
    (h10 : ∃ i, (secAt inp i).type = 10)
    (hat : ∀ i, (secAt inp i).type = 10 → (secAt inp i).doff = 0x1f0)
    (hoff : ∀ i, (secAt inp i).doff = 0x1f0 ∨
      0x230 ≤ (secAt inp i).doff ∧ (secAt inp i).doff < inp.size) :
    (tableOf grow inp).Relocates ↔
      ∀ i, ¬ (0x230 ≤ (secAt inp i).doff ∧ (secAt inp i).doff < 0x244) := by
  have hsize := (accepted_iff.mp hacc).1
  have hb : (tableOf grow inp).Bounded := ⟨hlen,fun i => by
    rcases hoff i with hi | hi
    · exact hi ▸ hsize
    · exact hi.2.le⟩
  obtain ⟨i,hi⟩ := h10
  have hhead : headSz ∈ (tableOf grow inp).doffs := Table.mem_doffs _ |>.mpr ⟨i,hat i hi⟩
  rw [hb.relocates_iff_late hhead hoff]
  refine forall_congr' fun i => ?_
  show (secAt inp i).doff = 0x1f0 ∨ 0x244 ≤ (secAt inp i).doff ↔ _
  have := hoff i
  omega

/-- A section of four bytes behind the 84, and one within them. -/
def lateFile : Bytes := sampleFile 0x248 [⟨10,0x1f0,0x40,0,0⟩,⟨4,0x244,4,0,0⟩] []
def earlyFile : Bytes := sampleFile 0x234 [⟨10,0x1f0,0x40,0,0⟩,⟨4,0x230,4,0,0⟩] []

theorem relocates_lateFile : (tableOf true lateFile).Relocates :=
  (relocates_iff true (by decide) (by decide +kernel) (by decide +kernel) (by decide +kernel)
    (by decide +kernel)).mpr (by decide +kernel)

theorem not_relocates_earlyFile : earlyFile.size < 2147483648 ∧ Accepted earlyFile ∧
    (∃ i, (secAt earlyFile i).type = 10) ∧
    (∀ i, (secAt earlyFile i).type = 10 → (secAt earlyFile i).doff = 0x1f0) ∧
    (∀ i, (secAt earlyFile i).doff = 0x1f0 ∨
      0x230 ≤ (secAt earlyFile i).doff ∧ (secAt earlyFile i).doff < earlyFile.size) ∧
    ¬ (tableOf true earlyFile).Relocates := by
  refine ⟨by decide,by decide +kernel,by decide +kernel,by decide +kernel,by decide +kernel,?_⟩
  intro h
  have hmap := h 1 (by decide +kernel) 0x230 (by decide +kernel) (by decide +kernel)
  exact absurd hmap (by decide +kernel)

end Xlate
end Kitakami

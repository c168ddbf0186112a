import Kitakami.Xlate.Objects

/-!
# Sections that are only copied

A section without pointers has its old bytes in the output if the steps over the
sections behind it leave its place alone. They do, unless it has been given less
room than is copied, or an offset of the file that is not checked leads there.
-/

namespace Kitakami
namespace Xlate

open Bytes

/-- A section that owns its offset and is copied only. -/
def Plain (t : Table) (w : Fin 13) : Prop :=
  t.IsLast w ∧ (t.sec w).doff ≠ headSz ∧ (t.sec w).type ∉ [1,3,9]

instance (t : Table) : DecidablePred (Plain t) := fun _ => inferInstanceAs (Decidable (_ ∧ _ ∧ _))

/-- The old offset `x` is a byte of a pointer cell that the pass over a type-3 section
relocates. -/
def CellByte (t : Table) (inp : Bytes) (x : ℕ) : Prop :=
  ∃ v, Symbols t v ∧ ∃ cell ∈ cells t inp v, cell.1 ≤ x ∧ x < cell.1 + 4

instance (t : Table) (inp : Bytes) : DecidablePred (CellByte t inp) :=
  fun _ => inferInstanceAs (Decidable (∃ _, _ ∧ _))

/-- The section `w` is in the output as it was, but for its pointer cells. -/
def Verbatim (t : Table) (inp out : Bytes) (w : Fin 13) : Prop :=
  ∀ k < t.rlen (t.sec w).doff, ¬ CellByte t inp ((t.sec w).doff + k) →
    out.get (t.newDoff w + k) = inp.get ((t.sec w).doff + k)

/-- The word at `l` of the new file lies outside the section `w`. -/
def Outside (t : Table) (w : Fin 13) (l : ℕ) : Prop :=
  l + 4 ≤ t.newDoff w ∨ t.newDoff w + t.rlen (t.sec w).doff ≤ l

instance (t : Table) (w : Fin 13) : DecidablePred (Outside t w) :=
  fun _ => inferInstanceAs (Decidable (_ ∨ _))

/-- The step over a later section `u`, from the output `b`, spares the section `w`. -/
structure Spares (e : Env) (t : Table) (inp : Bytes) (w u : Fin 13) (b : Bytes) : Prop where
  /-- `w` has the room it needs, or nothing is copied behind it. -/
  copied : Table.Short (t.sec w) →
    t.rlen (t.sec w).doff ≤ 20 ∨ t.rlen (t.sec u).doff = 0
  /-- The objects start inside `u`, or where they start wraps around to behind `w`. -/
  moved : (t.sec u).type = 1 → t.grow →
    objIns inp (t.sec u).doff ≤ t.rlen (t.sec u).doff ∨
      t.newDoff w + t.rlen (t.sec w).doff + 4294967296 ≤ t.newDoff u + objIns inp (t.sec u).doff
  /-- No entry of the object table wraps around into `w`. -/
  offsets : (t.sec u).type = 1 → t.grow → ∀ k < objCnt inp (t.sec u).doff,
    Outside t w (u32 (t.newDoff u + objTab inp (t.sec u).doff + k*objEntSz + 4))
  /-- Nor does one that is added. -/
  added : (t.sec u).type = 1 → t.grow → objCnt inp (t.sec u).doff < objTypes →
    (∃ m, movedCode e inp (t.sec u).doff (t.newDoff u) (t.rlen (t.sec u).doff) b = some m ∧
      Extends (t.newDoff u) (objTab inp (t.sec u).doff) (objCnt inp (t.sec u).doff) m) →
    ∀ type ∈ List.range' (objCnt inp (t.sec u).doff) (objTypes - objCnt inp (t.sec u).doff),
      ∀ c ∈ [0,4,8,12,16],
        Outside t w (u32 (t.newDoff u + objTab inp (t.sec u).doff + type*objEntSz + c))
  /-- A cell is written into `w` only where `w` has bytes of a cell. -/
  relocated : (t.sec u).type = 3 → ∀ cell ∈ cells t inp u, ∀ j < 4,
    t.newDoff w ≤ cell.2 + j → cell.2 + j < t.newDoff w + t.rlen (t.sec w).doff →
    CellByte t inp ((t.sec w).doff + (cell.2 + j - t.newDoff w))

variable {e : Env} {t : Table} {inp b c out : Bytes} {w u : Fin 13} {x : ℕ}

/-! ## Operations that leave a byte alone -/

/-- The operation does not change byte `x`. -/
def Leaves (x : ℕ) (f : Bytes → Option Bytes) : Prop := Within (· ≠ x) f

theorem Leaves.get {f : Bytes → Option Bytes} (h : Leaves x f) (hr : f b = some c) :
    c.get x = b.get x := (h b c hr).get x (not_not.mpr rfl)

theorem ne_of_apart {o n i : ℕ} (h : x < o ∨ o + n ≤ x) (hi : o ≤ i ∧ i < o + n) : i ≠ x := by
  omega

/-- A word outside the section does not touch its bytes. -/
theorem Outside.apart {l k : ℕ} (h : Outside t w l) (hk : k < t.rlen (t.sec w).doff) :
    t.newDoff w + k < l ∨ l + 4 ≤ t.newDoff w + k := by
  unfold Outside at h
  omega

/-! ## Room -/

/-- A section ends before the next begins, if it fits into its room. -/
theorem Table.Bounded.end_le_newDoff (ht : t.Bounded) (hw : t.IsLast w)
    (hne : (t.sec w).doff ≠ headSz) (hne' : (t.sec u).doff ≠ headSz)
    (hlt : (t.sec w).doff < (t.sec u).doff)
    (hs : Table.Short (t.sec w) → t.rlen (t.sec w).doff ≤ 20) :
    t.newDoff w + t.rlen (t.sec w).doff ≤ t.newDoff u := by
  have hend := (ht.endOf_spec (t.doff_mem w)).2.2.2 hne
  have hnext := ht.endOf_le_startOf (t.doff_mem w) (t.doff_mem u) hlt
  have hlen := ht.end_le_len (t.doff_mem w)
  have hl := ht.len
  have hplaced := Table.placed_of_isLast hw (by simp only [codeGrow]; omega)
  have hroom : t.rlen (t.sec w).doff ≤ t.placed (t.sec w).doff := by
    rw [hplaced]
    split_ifs with hgrow hshort
    · omega
    · exact hs hshort
    · omega
  rw [t.newDoff_of_ne hne,t.newDoff_of_ne hne']
  omega

/-- An empty section lies at the end of the file. -/
theorem Table.Bounded.doff_of_empty (ht : t.Bounded) (h : t.rlen (t.sec u).doff = 0) :
    (t.sec u).doff = t.len := by
  have hend := ht.end_eq (t.doff_mem u)
  rcases t.best_cases (t.sec u).doff with hb | ⟨j,hj,hb⟩ <;> omega

/-! ## The step over a later section -/

/-- The step over a section that does not grow. -/
theorem copySection_leaves (hu : t.IsLast u) (hne : (t.sec u).doff ≠ headSz)
    (hgrow : (t.sec u).type = 1 → ¬ e.grow)
    (hcopy : x < t.newDoff u ∨ t.newDoff u + t.rlen (t.sec u).doff ≤ x)
    (hword : (t.sec u).type = 1 ∨ (t.sec u).type = 9 → x < t.newDoff u)
    (hcells : (t.sec u).type = 3 → ∀ cell ∈ cells t inp u, x < cell.2 ∨ cell.2 + 4 ≤ x) :
    Leaves x fun out => copySection e t inp out (t.sec u).doff := by
  intro b c (hr : copySection e t inp b (t.sec u).doff = some c)
  rw [copySection,if_neg hne,Table.owner_of_isLast hu] at hr
  simp only at hr
  revert b c hr
  refine Within.bind (Within.memcpy fun _ => ne_of_apart hcopy) ?_
  split
  · rename_i h1
    have hg := hgrow h1
    unfold fixCode
    simp only [hg]
    exact Within.read fun _ =>
      (Within.wr fun _ => ne_of_apart (.inl (hword (.inl h1)))).bind Within.pure
  · rename_i h3
    intro b c hr
    exact Within.run (fun cell hcell => Within.wr fun _ => ne_of_apart (hcells h3 cell hcell))
      b c (fixSymbols_eq_run hr)
  · rename_i h9
    exact Within.read fun _ => Within.wr fun _ => ne_of_apart (.inl (hword (.inr h9)))
  · exact Within.pure

/-- The step over a section that grows. -/
theorem Spares.get_of_growth (hs : Spares e t inp w u b) (hod : (t.sec u).doff < 2147483648)
    (hu : Code t u) (hgrow : e.grow) (htgrow : t.grow)
    (hroom : t.newDoff u + t.rlen (t.sec u).doff + codeGrow < 4294967296)
    (hbehind : t.newDoff w + t.rlen (t.sec w).doff ≤ t.newDoff u)
    (h : copySection e t inp b (t.sec u).doff = some c) {k : ℕ} (hk : k < t.rlen (t.sec w).doff) :
    c.get (t.newDoff w + k) = b.get (t.newDoff w + k) := by
  obtain ⟨m,hm,hext,hsame⟩ := exists_moved hod hu hgrow h
  have hx : t.newDoff w + k < t.newDoff u := by omega
  have hmoved := hs.moved hu.2.2 htgrow
  have hins : objIns inp (t.sec u).doff < 4294967296 := inp.word_lt _
  have hobjects : t.newDoff w + k < u32 (t.newDoff u + objIns inp (t.sec u).doff + codeGrow) ∧
      t.newDoff w + k < u32 (t.newDoff u + objIns inp (t.sec u).doff) := by
    simp only [codeGrow] at *
    unfold u32
    omega
  have hmove : Leaves (t.newDoff w + k)
      (movedCode e inp (t.sec u).doff (t.newDoff u) (t.rlen (t.sec u).doff)) :=
    (Within.memcpy fun _ => ne_of_apart (.inl hx)).bind <| Within.read fun _ =>
      (Within.wr fun _ => ne_of_apart (.inl hx)).bind <|
        shiftCode_within (fun _ => ne_of_apart (.inl hobjects.1))
          (fun _ => ne_of_apart (.inl hobjects.2))
          fun j hj _ => ne_of_apart ((hs.offsets hu.2.2 htgrow j hj).apart hk)
  rw [← hmove.get hm]
  by_cases hlt : objCnt inp (t.sec u).doff < objTypes
  · rcases extendTable_eq_some (hext hlt) with ⟨rfl,-⟩ | ⟨he,b',hrun,hwr⟩
    · rfl
    · have hentries := hs.added hu.2.2 htgrow hlt ⟨m,hm,he⟩
      have hcount : t.newDoff w + k < u32 (t.newDoff u + objTabCnt) := by
        rw [u32_of_lt (by simp only [codeGrow,objTabCnt] at *; omega)]
        omega
      have hadd := Within.run (fun type htype => addEntry_within fun c hc _ =>
        ne_of_apart ((hentries type htype c hc).apart hk)) m b' hrun
      have hword := wr_frame hwr
      rw [hword.get _ (by omega),hadd.get _ (not_not.mpr rfl)]
  · rw [hsame hlt]

/-- The step over a later section leaves a section that it spares as it was, but for its
pointer cells. -/
theorem Spares.step (hs : Spares e t inp w u b) (ht : t.Bounded) (hgrow : t.grow = e.grow)
    (hlen : inp.size = t.len) (hsz : headSz ≤ inp.size) (hw : t.IsLast w)
    (hne : (t.sec w).doff ≠ headSz) (hu : t.IsLast u) (hne' : (t.sec u).doff ≠ headSz)
    (hlt : (t.sec w).doff < (t.sec u).doff) (hb : b.size = t.newSize)
    (h : copySection e t inp b (t.sec u).doff = some c) {k : ℕ} (hk : k < t.rlen (t.sec w).doff)
    (hcell : ¬ CellByte t inp ((t.sec w).doff + k)) :
    c.get (t.newDoff w + k) = b.get (t.newDoff w + k) := by
  have hok := ((copySection_isSome ht hgrow hlen hsz hu hne' hb).mp (Option.isSome_of_mem h)).1
  have hend := ht.end_le_newDoff hw hne hne' hlt
  have hbehind : t.rlen (t.sec u).doff ≠ 0 →
      t.newDoff w + t.rlen (t.sec w).doff ≤ t.newDoff u :=
    fun h0 => hend fun hshort => (hs.copied hshort).resolve_right h0
  have hfull : (t.sec u).doff < t.len → t.newDoff w + t.rlen (t.sec w).doff ≤ t.newDoff u :=
    fun hlt => hbehind fun h0 => (ht.doff_of_empty h0 ▸ hlt).false
  by_cases hg : (t.sec u).type = 1 ∧ e.grow
  · obtain ⟨h1,hg⟩ := hg
    have hfields := (hok.code h1 hg).fields
    have hroom := ht.room_grow hu hne' h1 (hgrow.trans hg)
    have hsize := (ht.room hne').2.2.2
    exact hs.get_of_growth ((ht.doff u).trans_lt ht.len) ⟨hu,hne',h1⟩ hg (hgrow.trans hg)
      (by omega) (hfull (by omega)) h hk
  · refine Leaves.get (copySection_leaves (e:=e) hu hne' (fun h1 hg' => hg ⟨h1,hg'⟩) ?_ ?_ ?_) h
    · by_cases h0 : t.rlen (t.sec u).doff = 0
      · omega
      · have := hbehind h0
        exact .inl (by omega)
    · rintro (h1 | h9)
      · have hin := hok.word h1 fun hg' => hg ⟨h1,hg'⟩
        have := hfull (hlen ▸ hin)
        omega
      · have hin := hok.pointer h9
        have := hfull (by omega)
        omega
    · intro h3 cell hmem
      by_contra hon
      have hin := hs.relocated h3 cell hmem (t.newDoff w + k - cell.2) (by omega) (by omega)
        (by omega)
      rw [show cell.2 + (t.newDoff w + k - cell.2) - t.newDoff w = k by omega] at hin
      exact hcell hin

/-! ## The finished file -/

/-- The step over each later section, from the output it starts from, spares `w`. -/
def Spared (e : Env) (t : Table) (inp : Bytes) (w : Fin 13) : Prop :=
  ∀ u b, t.IsLast u → (t.sec u).doff ≠ headSz → (t.sec w).doff < (t.sec u).doff →
    outputBefore e t inp (t.sec u).doff = some b → Spares e t inp w u b

/-- A section without pointers is in the output as it was, where the later sections
spare it. -/
theorem verbatim_of_spared (hlen : inp.size < 2147483648) (h : translate e inp = some (.ok out))
    (hw : Plain (tableOf e.grow inp) w) (hspared : Spared e (tableOf e.grow inp) inp w) :
    Verbatim (tableOf e.grow inp) inp out w := by
  obtain ⟨hacc,ht,-⟩ := of_translate_ok hlen h
  have hsz := (accepted_iff.mp hacc).1
  obtain ⟨pre,post,b,c,d,hsplit,hb,hc,hd,htail⟩ := exists_step hlen h (Table.doff_mem _ w)
  have hgrow : (tableOf e.grow inp).grow = e.grow := rfl
  have hlen' : inp.size = (tableOf e.grow inp).len := rfl
  generalize tableOf e.grow inp = t at *
  obtain ⟨hlast,hne,htype⟩ := hw
  have hplace := (ht.room hne).1
  intro k hk hcell
  have hlater : d.get (t.newDoff w + k) = c.get (t.newDoff w + k) := by
    refine get_of_later hsplit hb hc hd fun od' hod' b b' hbefore hstep => ?_
    obtain ⟨hmem,hlt⟩ := lt_of_mem_post hsplit hod'
    by_cases hod : od' = headSz
    · subst hod
      obtain rfl : b = b' := by simpa [copySection] using hstep
      rfl
    · obtain ⟨i,rfl⟩ := t.mem_doffs.mp hmem
      obtain ⟨u,hu,hui⟩ := t.exists_isLast i
      rw [← hui] at hod hlt hbefore hstep
      exact (hspared u b hu hod hlt hbefore).step ht hgrow hlen' hsz hlast hne hu hod hlt
        (outputBefore_size hbefore) hstep hk hcell
  calc out.get (t.newDoff w + k) = d.get (t.newDoff w + k) := htail.get _ (by omega)
    _ = c.get (t.newDoff w + k) := hlater
    _ = inp.get ((t.sec w).doff + k) := get_of_copied hlast hne htype hc hk

/-! ## Well-formed files -/

/-- A cell that lies in a section as a whole, and is written to its place there. -/
def InPlace (t : Table) (cell : ℕ × ℕ) (i : Fin 13) : Prop :=
  LiesIn t cell.1 i ∧ cell.1 + 4 ≤ (t.sec i).doff + t.rlen (t.sec i).doff ∧
    cell.2 = place t cell.1 i

/-- No section runs over its room, and the offsets that are not checked lead where they
should. -/
structure WellFormed (t : Table) (inp : Bytes) : Prop where
  short : ∀ v, t.IsLast v → Table.Short (t.sec v) → t.rlen (t.sec v).doff ≤ 20
  code : t.grow → ∀ u, Code t u → TableFits inp (t.sec u).doff (t.rlen (t.sec u).doff)
  inPlace : ∀ u, Symbols t u → ∀ cell ∈ cells t inp u, ∃ i, InPlace t cell i

/-- The sections at an offset end before those at the next, if none runs over. -/
theorem WellFormed.end_le (h : WellFormed t inp) (ht : t.Bounded)
    (hne : (t.sec w).doff ≠ headSz) (hne' : (t.sec u).doff ≠ headSz)
    (hlt : (t.sec w).doff < (t.sec u).doff) :
    t.newDoff w + t.rlen (t.sec w).doff ≤ t.newDoff u := by
  obtain ⟨v,hv,hvw⟩ := t.exists_isLast w
  have hend := ht.end_le_newDoff hv (hvw ▸ hne) hne' (hvw ▸ hlt) (h.short v hv)
  rwa [t.newDoff_of_ne (hvw ▸ hne),hvw,← t.newDoff_of_ne hne] at hend

/-- The words of a table that fits lie behind every earlier section. -/
theorem TableFits.outside (hfit : TableFits inp (t.sec u).doff (t.rlen (t.sec u).doff))
    (ht : t.Bounded) (hne : (t.sec u).doff ≠ headSz)
    (hend : t.newDoff w + t.rlen (t.sec w).doff ≤ t.newDoff u) {j : ℕ}
    (hj : objTab inp (t.sec u).doff + j ≤ t.rlen (t.sec u).doff + objTypes*objEntSz) :
    Outside t w (u32 (t.newDoff u + objTab inp (t.sec u).doff + j)) := by
  have hstart := (ht.startOf_spec (t.doff_mem u)).2.2
  have hlen := ht.end_le_len (t.doff_mem u)
  have hl := ht.len
  have hins := hfit.ins_le
  have htab := hfit.tabEnd
  rw [← t.newDoff_of_ne hne] at hstart
  simp only [objEntSz,objTypes,headSz] at *
  rw [Outside,u32_of_lt (by omega)]
  omega

/-- A cell in its place meets an earlier section only at a byte of its own. -/
theorem WellFormed.cellByte (h : WellFormed t inp) (ht : t.Bounded) (hu : Symbols t u)
    (hne : (t.sec w).doff ≠ headSz) {cell : ℕ × ℕ} (hcell : cell ∈ cells t inp u) {j : ℕ}
    (hj : j < 4) (hlo : t.newDoff w ≤ cell.2 + j)
    (hhi : cell.2 + j < t.newDoff w + t.rlen (t.sec w).doff) :
    CellByte t inp ((t.sec w).doff + (cell.2 + j - t.newDoff w)) := by
  obtain ⟨i,⟨hnei,hstart,-⟩,hend,hplace⟩ := h.inPlace u hu cell hcell
  rw [place] at hplace
  rcases lt_trichotomy (t.sec i).doff (t.sec w).doff with hlt | heq | hgt
  · have := h.end_le ht hnei hne hlt
    omega
  · have hnew : t.newDoff i = t.newDoff w := by
      rw [t.newDoff_of_ne hnei,t.newDoff_of_ne hne,heq]
    exact ⟨u,hu,cell,hcell,by omega,by omega⟩
  · have := h.end_le ht hne hnei hgt
    omega

theorem WellFormed.spared (h : WellFormed t inp) (ht : t.Bounded) (hw : t.IsLast w)
    (hne : (t.sec w).doff ≠ headSz) : Spared e t inp w := by
  intro u b hu hne' hlt _
  have hend := h.end_le ht hne hne' hlt
  constructor
  · exact fun hs => .inl (h.short w hw hs)
  · exact fun h1 hg => .inl (h.code hg u ⟨hu,hne',h1⟩).ins_le
  · intro h1 hg k hk
    have hfit := h.code hg u ⟨hu,hne',h1⟩
    have htab := hfit.tabEnd
    have hins := hfit.ins_le
    rw [Nat.add_assoc]
    refine hfit.outside ht hne' hend ?_
    simp only [objEntSz,objTypes] at *
    omega
  · intro h1 hg hcnt _ type htype c hc
    have hfit := h.code hg u ⟨hu,hne',h1⟩
    have htab := hfit.tabEnd
    have hins := hfit.ins_le
    have htype := List.mem_range'_1.mp htype
    have hle : c ≤ 16 := by
      simp only [List.mem_cons,List.not_mem_nil,or_false] at hc
      omega
    rw [Nat.add_assoc]
    refine hfit.outside ht hne' hend ?_
    simp only [objEntSz,objTypes] at *
    omega
  · exact fun h3 cell hcell j hj => h.cellByte ht ⟨hu,hne',h3⟩ hne hcell hj

/-- In the output of a well-formed file every section without pointers is as it was. -/
theorem WellFormed.verbatim (hlen : inp.size < 2147483648) (h : translate e inp = some (.ok out))
    (hwf : WellFormed (tableOf e.grow inp) inp) :
    ∀ w, Plain (tableOf e.grow inp) w → Verbatim (tableOf e.grow inp) inp out w := by
  have ht := (of_translate_ok hlen h).2.1
  exact fun w hw => verbatim_of_spared hlen h hw (hwf.spared ht hw.1 hw.2.1)

/-! ## A section that is cut short -/

/-- If a section runs over its 20 bytes and a section behind it is not empty, then the
next one is copied to where it runs over. -/
theorem exists_overrun (ht : t.Bounded) (hw : t.IsLast w) (hlow : headSz < (t.sec w).doff)
    (hshort : Table.Short (t.sec w)) {v : Fin 13} (hlt : (t.sec w).doff < (t.sec v).doff)
    (hv : t.rlen (t.sec v).doff ≠ 0) :
    ∃ u, t.IsLast u ∧ (t.sec w).doff < (t.sec u).doff ∧ t.newDoff u = t.newDoff w + 20 ∧
      0 < t.rlen (t.sec u).doff := by
  have hne : (t.sec w).doff ≠ headSz := by omega
  have hend := (ht.endOf_spec (t.doff_mem w)).2.2.2 hne
  have hmod := (ht.startOf_spec (t.doff_mem w)).2.1
  have hold := ht.end_le_len (t.doff_mem w)
  have hl := ht.len
  have h1 : ¬ (t.sec w).type = 1 := fun h1 => by simp [hshort.1] at h1
  have hplaced := Table.placed_of_isLast hw (by simp only [codeGrow]; omega)
  rw [if_neg fun h => h1 h.1,if_pos hshort] at hplaced
  obtain ⟨pre,post,hd⟩ := List.append_of_mem (t.doff_mem w)
  have hvpost : (t.sec v).doff ∈ post := by
    have hs := t.doffs_sorted
    have hmem := t.doff_mem v
    rw [hd] at hs hmem
    rcases List.mem_append.mp hmem with hm | hm
    · have := (List.pairwise_append.mp hs).2.2 _ hm _ List.mem_cons_self
      omega
    · exact (List.mem_cons.mp hm).resolve_left (by omega)
  cases post with
  | nil => cases hvpost
  | cons od' post =>
    have hd' : t.doffs = (pre ++ [(t.sec w).doff]) ++ od' :: post := by simp [hd]
    have hstart : t.startOf od' = t.endOf (t.sec w).doff := by rw [t.endOf_eq hd,t.startOf_eq hd']
    obtain ⟨hmem,hlt'⟩ := lt_of_mem_post hd List.mem_cons_self
    obtain ⟨i,rfl⟩ := t.mem_doffs.mp hmem
    obtain ⟨u,hu,hui⟩ := t.exists_isLast i
    refine ⟨u,hu,hui ▸ hlt',?_,Nat.pos_of_ne_zero fun h0 => ?_⟩
    · rw [t.newDoff_of_ne (show (t.sec u).doff ≠ headSz by omega),t.newDoff_of_ne hne,hui]
      omega
    · have hlast := ht.doff_of_empty h0
      have hvlen := ht.doff v
      rcases List.mem_cons.mp hvpost with hveq | hvmem
      · rw [hveq,← hui] at hv
        exact hv h0
      · have := (lt_of_mem_post hd' hvmem).2
        omega

/-- A type-5 section of 16 bytes in 32 bytes of the file, with another one behind it. -/
def shortFile : Bytes := sampleFile 0x290 [⟨10,0x1f0,64,0,0⟩,⟨5,0x250,16,0,0⟩,⟨4,0x270,32,0,0⟩]
  [(0x250,1),(0x254,2),(0x258,3),(0x25c,4),(0x270,0x11111111)]

theorem verbatim_auxBefore :
    Verbatim (tableOf true auxBefore) auxBefore (output sampleEnv auxBefore) 1 := by
  have honly : ∀ u, (tableOf true auxBefore).IsLast u → (secAt auxBefore u).doff ≠ headSz →
      (secAt auxBefore 1).doff < (secAt auxBefore u).doff → u = 2 := by decide +kernel
  have hcells : ∀ cell ∈ cells (tableOf true auxBefore) auxBefore 2, ∀ j < 4,
      (tableOf true auxBefore).newDoff 1 ≤ cell.2 + j →
      cell.2 + j < (tableOf true auxBefore).newDoff 1 +
        (tableOf true auxBefore).rlen (secAt auxBefore 1).doff →
      CellByte (tableOf true auxBefore) auxBefore
        ((secAt auxBefore 1).doff + (cell.2 + j - (tableOf true auxBefore).newDoff 1)) := by
    decide +kernel
  have h1 : (secAt auxBefore 2).type ≠ 1 := by decide +kernel
  have hshort : ¬ Table.Short (secAt auxBefore 1) := by decide +kernel
  refine verbatim_of_spared (e:=sampleEnv) (by decide) (translate_output (by decide +kernel))
    (by decide +kernel) fun u b hu hne hlt _ => ?_
  obtain rfl := honly u hu hne hlt
  exact ⟨fun hs => absurd hs hshort,fun h => absurd h h1,fun h => absurd h h1,
    fun h => absurd h h1,fun _ => hcells⟩

/-- The word of the second section is where the first has its sixth. -/
theorem not_verbatim_shortFile : shortFile.size < 2147483648 ∧ Accepted shortFile ∧
    (∀ i, 0x1f0 ≤ (secAt shortFile i).doff ∧ (secAt shortFile i).doff ≤ shortFile.size) ∧
    Plain (tableOf true shortFile) 1 ∧ (secAt shortFile 1).type ∉ [2,10] ∧
    ∃ out, translate sampleEnv shortFile = some (.ok out) ∧
      ¬ Verbatim (tableOf true shortFile) shortFile out 1 := by
  refine ⟨by decide,by decide +kernel,by decide +kernel,by decide +kernel,by decide +kernel,
    output sampleEnv shortFile,translate_output (by decide +kernel),fun h => ?_⟩
  have hbyte := h 20 (by decide +kernel) (by decide +kernel)
  exact absurd hbyte (by decide +kernel)

end Xlate
end Kitakami

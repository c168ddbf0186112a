import Kitakami.Xlate.InRange

/-!
# Where relocated pointers end up

The pass over a type-3 section as a sequence of word writes, one for each pointer
cell. A cell keeps its relocated value if nothing that is written later, by the
rest of the pass or by the step over a later section, reaches its place. The copy
of a section is such a write: a fix-up that is made before it is lost.
-/

namespace Kitakami
namespace Xlate

open Bytes

/-! ## The pointer cells of a type-3 section -/

instance (t : Table) (inp : Bytes) (c : ℕ) : Decidable (IsPointer t inp c) :=
  inferInstanceAs (Decidable (_ ∧ _))

instance (t : Table) (inp : Bytes) (aux : ℕ) : Decidable (Followed t inp aux) :=
  inferInstanceAs (Decidable (_ ∧ _ ∧ _))

/-- The cell at `src` with the place it is written to, if it is relocated. -/
def cellAt (t : Table) (inp : Bytes) (src dst : ℕ) : List (ℕ × ℕ) :=
  if IsPointer t inp src then [(src,dst)] else []

/-- A record's aux pointer is looked at only if the words behind it are in the file. -/
def auxCells (t : Table) (inp : Bytes) (aux : ℕ) : List (ℕ × ℕ) :=
  if aux ≠ 0 ∧ u32 (aux + 8) ≤ inp.size ∧ (t.reloc aux).2 then
    [0,1].flatMap fun k => cellAt t inp (u32 (aux + k*4)) (u32 ((t.reloc aux).1 + k*4))
  else []

def recordCells (t : Table) (inp : Bytes) (od nb r : ℕ) : List (ℕ × ℕ) :=
  fieldOffs.flatMap (fun fo => cellAt t inp (u32 (od + recordOff r + fo)) (u32 (nb + recordOff r + fo)))
    ++ auxCells t inp (inp.word (u32 (od + recordOff r + 0x0c)))

def auxRecordCells (inp : Bytes) (od nb a : ℕ) : List (ℕ × ℕ) :=
  if inp.word (u32 (od + a + 0x08)) = 0xffffffff ∧ inp.word (u32 (od + a)) ≠ 0 then
    [(u32 (od + a),u32 (nb + a))]
  else []

/-- The cells that the pass relocates, in its order: the old offset of each, and
the offset in the new file that the relocated value is written to. -/
def cells (t : Table) (inp : Bytes) (w : Fin 13) : List (ℕ × ℕ) :=
  let od := (t.sec w).doff
  let nb := t.newDoff w
  let orl := t.rlen od
  (records orl (t.sec w).count).flatMap (recordCells t inp od nb) ++
    (auxRecords orl (orl/32 + 2) (recordOff (t.sec w).count)).flatMap (auxRecordCells inp od nb)

/-- The value that is written for a cell. -/
def newValue (t : Table) (inp : Bytes) (c : ℕ) : ℕ := (t.reloc (inp.word c)).1

def writeCell (t : Table) (inp out : Bytes) (cell : ℕ × ℕ) : Option Bytes :=
  out.wr cell.2 (newValue t inp cell.1)

variable {e : Env} {t : Table} {inp out out' : Bytes} {w : Fin 13}

theorem relocCell_eq_run {src dst : ℕ} (h : relocCell t inp src dst out = some out') :
    Runs.run (writeCell t inp) out (cellAt t inp src dst) = some out' := by
  obtain ⟨v,hv,h⟩ := Option.bind_eq_some_iff.mp h
  obtain ⟨-,rfl⟩ := rd_eq_some.mp hv
  unfold cellAt IsPointer
  split at h
  · rename_i h0
    simpa [h0] using h
  · rename_i h0
    split at h
    · rename_i hm
      simpa [h0,hm,Runs.run_cons,writeCell,newValue] using h
    · rename_i hm
      simpa [h0,hm] using h

theorem fixRecord_eq_run {od nb r : ℕ} (h : fixRecord t inp od nb out r = some out') :
    Runs.run (writeCell t inp) out (recordCells t inp od nb r) = some out' := by
  obtain ⟨c,hc,h⟩ := Option.bind_eq_some_iff.mp h
  obtain ⟨aux,haux,h⟩ := Option.bind_eq_some_iff.mp h
  obtain ⟨-,rfl⟩ := rd_eq_some.mp haux
  have hfields := Runs.run_flatMap hc fun _ _ _ _ => relocCell_eq_run
  rw [recordCells,Runs.run_append,hfields,Option.bind_some,auxCells]
  split at h
  · rename_i hf
    rw [if_pos hf]
    exact Runs.run_flatMap h fun _ _ _ _ => relocCell_eq_run
  · rename_i hf
    rw [if_neg hf]
    exact h

theorem fixAuxRecord_eq_run {od nb a : ℕ} (h : fixAuxRecord t inp od nb out a = some out') :
    Runs.run (writeCell t inp) out (auxRecordCells inp od nb a) = some out' := by
  obtain ⟨bp,hbp,h⟩ := Option.bind_eq_some_iff.mp h
  obtain ⟨mark,hmark,h⟩ := Option.bind_eq_some_iff.mp h
  obtain ⟨-,rfl⟩ := rd_eq_some.mp hbp
  obtain ⟨-,rfl⟩ := rd_eq_some.mp hmark
  unfold auxRecordCells
  split at h
  · rename_i hm
    rw [if_pos hm]
    simpa [Runs.run_cons,writeCell,newValue] using h
  · rename_i hm
    rw [if_neg hm]
    exact h

/-- The pass over a type-3 section writes its cells one after the other. -/
theorem fixSymbols_eq_run (h : fixSymbols t inp (t.sec w).doff (t.newDoff w)
    (t.rlen (t.sec w).doff) (t.sec w).count out = some out') :
    Runs.run (writeCell t inp) out (cells t inp w) = some out' := by
  obtain ⟨c,hc,h⟩ := Option.bind_eq_some_iff.mp h
  have hrecords := Runs.run_flatMap hc fun _ _ _ _ => fixRecord_eq_run
  rw [cells,Runs.run_append,hrecords,Option.bind_some]
  exact Runs.run_flatMap h fun _ _ _ _ => fixAuxRecord_eq_run

/-! ## What the step over a section writes -/

/-- A type-1 section that owns its offset; at 0x1f0 the loop processes no section. -/
def Code (t : Table) (w : Fin 13) : Prop :=
  t.IsLast w ∧ (t.sec w).doff ≠ headSz ∧ (t.sec w).type = 1

instance : DecidablePred (Code t) := fun _ => inferInstanceAs (Decidable (_ ∧ _ ∧ _))

/-- The step over a code section that grows: the move, and the extension of a table
that is too short. -/
theorem exists_moved (hod : (t.sec w).doff < 2147483648) (hw : Code t w) (hgrow : e.grow)
    (h : copySection e t inp out (t.sec w).doff = some out') : ∃ m,
    movedCode e inp (t.sec w).doff (t.newDoff w) (t.rlen (t.sec w).doff) out = some m ∧
    (objCnt inp (t.sec w).doff < objTypes →
      extendTable (t.newDoff w) (objTab inp (t.sec w).doff) (objCnt inp (t.sec w).doff) m =
        some out') ∧
    (¬ objCnt inp (t.sec w).doff < objTypes → out' = m) := by
  obtain ⟨hlast,hne,h1⟩ := hw
  rw [copySection,if_neg hne,Table.owner_of_isLast hlast] at h
  simp only [h1] at h
  obtain ⟨b₁,h₁,h⟩ := Option.bind_eq_some_iff.mp h
  obtain ⟨v,hv,h⟩ := Option.bind_eq_some_iff.mp h
  obtain ⟨b₂,h₂,h⟩ := Option.bind_eq_some_iff.mp h
  rw [if_pos hgrow,growCode,u32_of_lt (x:=_ + objTabOff) (by simp only [objTabOff]; omega),
    u32_of_lt (x:=_ + objTabCnt) (by simp only [objTabCnt]; omega)] at h
  obtain ⟨tab,htab,h⟩ := Option.bind_eq_some_iff.mp h
  obtain ⟨cnt,hcnt,h⟩ := Option.bind_eq_some_iff.mp h
  obtain ⟨ins,hins,h⟩ := Option.bind_eq_some_iff.mp h
  obtain ⟨m,hm,hext⟩ := Option.bind_eq_some_iff.mp h
  obtain ⟨-,rfl⟩ := rd_eq_some.mp htab
  obtain ⟨-,rfl⟩ := rd_eq_some.mp hcnt
  obtain ⟨-,rfl⟩ := rd_eq_some.mp hins
  refine ⟨m,?_,fun hlt => ?_,fun hge => ?_⟩
  · rw [movedCode,bind_of_eq_some h₁,bind_of_eq_some hv,bind_of_eq_some h₂]
    exact hm
  · rwa [if_pos (show inp.word ((t.sec w).doff + objTabCnt) < objTypes from hlt)] at hext
  · rw [if_neg (show ¬ inp.word ((t.sec w).doff + objTabCnt) < objTypes from hge)] at hext
    exact (Option.some_inj.mp hext).symm

/-- The entries that the table misses fit in front of the first object, and the
room for them is clean. -/
def Extends (nb tab cnt : ℕ) (m : Bytes) : Prop :=
  isClean m (nb + u32 (tab + cnt*objEntSz)) (List.range ((objTypes - cnt)*objEntSz)) = some true ∧
    u32 (u32 (tab + cnt*objEntSz) + (objTypes - cnt)*objEntSz) ≤ m.word (u32 (nb + tab + 4))

theorem extendTable_eq_some {nb tab cnt : ℕ} {m c : Bytes}
    (h : extendTable nb tab cnt m = some c) :
    c = m ∧ ¬ Extends nb tab cnt m ∨ Extends nb tab cnt m ∧
      ∃ b, Runs.run (addEntry nb tab (m.word (u32 (nb + tab + sub32 cnt 1*objEntSz + 4)))) m
        (List.range' cnt (objTypes - cnt)) = some b ∧ b.wr (u32 (nb + objTabCnt)) objTypes = some c := by
  obtain ⟨last,hlast,h⟩ := Option.bind_eq_some_iff.mp h
  obtain ⟨first,hfirst,h⟩ := Option.bind_eq_some_iff.mp h
  obtain ⟨clean,hclean,h⟩ := Option.bind_eq_some_iff.mp h
  obtain ⟨-,rfl⟩ := rd_eq_some.mp hlast
  obtain ⟨-,rfl⟩ := rd_eq_some.mp hfirst
  split at h
  · rename_i hroom
    obtain ⟨c',hc',h⟩ := Option.bind_eq_some_iff.mp h
    exact .inr ⟨⟨hroom.1 ▸ hclean,hroom.2⟩,c',hc',h⟩
  · rename_i hroom
    refine .inl ⟨(Option.some_inj.mp h).symm,fun he => hroom ⟨?_,he.2⟩⟩
    exact Option.some_inj.mp (hclean.symm.trans he.1)

/-- The step from the output `b` over a code section extends its object table. -/
def Lengthens (e : Env) (inp : Bytes) (od nb orl : ℕ) (b : Bytes) : Prop :=
  ∃ m ∈ movedCode e inp od nb orl b, Extends nb (objTab inp od) (objCnt inp od) m

instance (nb tab cnt : ℕ) : DecidablePred (Extends nb tab cnt) :=
  fun _ => inferInstanceAs (Decidable (_ ∧ _))

instance (od nb orl : ℕ) : DecidablePred (Lengthens e inp od nb orl) :=
  fun _ => inferInstanceAs (Decidable (∃ _ ∈ _, _))

/-- The bytes that a code section's objects and their table are written to. -/
def codeRegions (nb orl tab cnt ins : ℕ) : List (ℕ × ℕ) :=
  [(u32 (nb + ins + codeGrow),sub32 orl ins),(u32 (nb + ins),codeGrow)] ++
  (List.range cnt).map (fun k => (u32 (nb + tab + k*objEntSz + 4),4))

/-- The bytes that the entries are written to by which the table is extended. -/
def addedRegions (nb tab cnt : ℕ) : List (ℕ × ℕ) :=
  (u32 (nb + objTabCnt),4) :: (List.range' cnt (objTypes - cnt)).flatMap fun type =>
    [0,4,8,12,16].map fun c => (u32 (nb + tab + type*objEntSz + c),4)

/-- The regions of the new file that the step over an owner's sections writes, when it starts from
the output `b`, as offsets with lengths. -/
def regions (e : Env) (t : Table) (inp : Bytes) (w : Fin 13) (b : Bytes) : List (ℕ × ℕ) :=
  let od := (t.sec w).doff
  let nb := t.newDoff w
  (nb,t.rlen od) ::
    match (t.sec w).type with
    | 1 => (nb,4) :: if t.grow then
        codeRegions nb (t.rlen od) (objTab inp od) (objCnt inp od) (objIns inp od) ++
          if objCnt inp od < objTypes ∧ Lengthens e inp od nb (t.rlen od) b then
            addedRegions nb (objTab inp od) (objCnt inp od) else []
      else []
    | 3 => (cells t inp w).map fun cell => (cell.2,4)
    | 9 => [(nb,4)]
    | _ => []

def InRegions (rs : List (ℕ × ℕ)) (x : ℕ) : Prop := ∃ r ∈ rs, r.1 ≤ x ∧ x < r.1 + r.2

theorem inRegions_of_mem {rs : List (ℕ × ℕ)} {o n : ℕ} (h : (o,n) ∈ rs) :
    ∀ x, o ≤ x ∧ x < o + n → InRegions rs x := fun _ hx => ⟨(o,n),h,hx⟩

theorem InRegions.mono {rs rs' : List (ℕ × ℕ)} {x : ℕ} (h : InRegions rs x)
    (hsub : ∀ r ∈ rs, r ∈ rs') : InRegions rs' x := by
  obtain ⟨r,hr,hx⟩ := h
  exact ⟨r,hsub r hr,hx⟩

/-- Before its table is extended, a code section is written where it is copied and moved to. -/
theorem movedCode_regions (od nb orl : ℕ) :
    Within (InRegions ((nb,orl)::(nb,4)::codeRegions nb orl (objTab inp od) (objCnt inp od)
      (objIns inp od))) (movedCode e inp od nb orl) := by
  refine (Within.memcpy (inRegions_of_mem (by simp))).bind <| Within.read fun _ =>
    (Within.wr (inRegions_of_mem (by simp))).bind <|
      shiftCode_within (inRegions_of_mem (by simp [codeRegions]))
        (inRegions_of_mem (by simp [codeRegions])) fun k hk => inRegions_of_mem ?_
  exact List.mem_cons_of_mem _ <| List.mem_cons_of_mem _ <| List.mem_append_right _ <|
    List.mem_map.mpr ⟨k,List.mem_range.mpr hk,rfl⟩

/-- The extension of the object table stays in the regions of the entries it adds. -/
theorem addEntries_regions (nb tab cnt last : ℕ) :
    Within (InRegions (addedRegions nb tab cnt)) fun out =>
      Runs.run (addEntry nb tab last) out (List.range' cnt (objTypes - cnt)) >>= fun out =>
        out.wr (u32 (nb + objTabCnt)) objTypes := by
  refine (Within.run fun type htype => addEntry_within fun c hc => ?_).bind
    (Within.wr (inRegions_of_mem List.mem_cons_self))
  exact inRegions_of_mem <| List.mem_cons_of_mem _ <|
    List.mem_flatMap.mpr ⟨type,htype,List.mem_map.mpr ⟨c,hc,rfl⟩⟩

/-- The step over a code section that grows. -/
theorem growth_regions (hgrow : t.grow = e.grow) (hod : (t.sec w).doff < 2147483648)
    (hw : Code t w) (hg : e.grow) (h : copySection e t inp out (t.sec w).doff = some out') :
    Frame (InRegions (regions e t inp w out)) out out' := by
  obtain ⟨m,hm,hext,hsame⟩ := exists_moved hod hw hg h
  have htype := hw.2.2
  have hfirst : Frame (InRegions (regions e t inp w out)) out m := by
    refine (movedCode_regions _ _ _ out m hm).mono fun x hx => hx.mono fun r hr => ?_
    simp only [regions,htype,hgrow.trans hg,if_true]
    rcases List.mem_cons.mp hr with rfl | hr
    · exact List.mem_cons_self
    · rcases List.mem_cons.mp hr with rfl | hr
      · exact List.mem_cons_of_mem _ List.mem_cons_self
      · exact List.mem_cons_of_mem _ <| List.mem_cons_of_mem _ <| List.mem_append_left _ hr
  by_cases hlt : objCnt inp (t.sec w).doff < objTypes
  · rcases extendTable_eq_some (hext hlt) with ⟨rfl,-⟩ | ⟨he,b,hrun,hwr⟩
    · exact hfirst
    · have hlong : Lengthens e inp (t.sec w).doff (t.newDoff w) (t.rlen (t.sec w).doff) out :=
        ⟨m,hm,he⟩
      have hadded := addEntries_regions _ _ _ _ m out'
        (Option.bind_eq_some_iff.mpr ⟨b,hrun,hwr⟩)
      refine hfirst.trans (hadded.mono fun x hx => hx.mono fun r hr => ?_)
      simp only [regions,htype,hgrow.trans hg,if_true,hlt,hlong,and_self]
      exact List.mem_cons_of_mem _ <| List.mem_cons_of_mem _ <| List.mem_append_right _ hr
  · rw [hsame hlt]
    exact hfirst

/-- A step over a section writes nothing outside its regions. -/
theorem copySection_regions (hgrow : t.grow = e.grow) (hod : (t.sec w).doff < 2147483648)
    (hw : t.IsLast w) (hne : (t.sec w).doff ≠ headSz)
    (h : copySection e t inp out (t.sec w).doff = some out') :
    Frame (InRegions (regions e t inp w out)) out out' := by
  by_cases hg : (t.sec w).type = 1 ∧ e.grow
  · exact growth_regions hgrow hod ⟨hw,hne,hg.1⟩ hg.2 h
  rw [copySection,if_neg hne,Table.owner_of_isLast hw] at h
  obtain ⟨b,hb,h⟩ := Option.bind_eq_some_iff.mp h
  have hcopy : Frame (InRegions (regions e t inp w out)) out b :=
    (memcpy_frame hb).mono (inRegions_of_mem List.mem_cons_self)
  refine hcopy.trans ?_
  split at h
  · rename_i h1
    have hno : e.grow = false := by
      simpa using fun hgr => hg ⟨h1,hgr⟩
    obtain ⟨v,-,h⟩ := Option.bind_eq_some_iff.mp h
    obtain ⟨b',hb',h⟩ := Option.bind_eq_some_iff.mp h
    rw [hno] at h
    obtain rfl : b' = out' := by simpa using h
    exact (wr_frame hb').mono (inRegions_of_mem (by simp [regions,h1]))
  · rename_i h3
    refine Within.run (fun cell hcell => ?_) b out' (fixSymbols_eq_run h)
    exact Within.wr (inRegions_of_mem (by
      simp only [regions,h3]
      exact List.mem_cons_of_mem _ (List.mem_map.mpr ⟨cell,hcell,rfl⟩)))
  · rename_i h9
    obtain ⟨v,-,h⟩ := Option.bind_eq_some_iff.mp h
    exact (wr_frame h).mono (inRegions_of_mem (by simp [regions,h9]))
  · obtain rfl : b = out' := by simpa using h
    exact Frame.refl _ b

/-! ## Cells that keep their value -/

/-- A region that does not touch the word at `l`. -/
def Clear (l : ℕ) (r : ℕ × ℕ) : Prop := r.2 = 0 ∨ r.1 + r.2 ≤ l ∨ l + 4 ≤ r.1

instance (l : ℕ) : DecidablePred (Clear l) := fun _ => inferInstanceAs (Decidable (_ ∨ _ ∨ _))

/-- In this list of writes the cell `c` is the last that touches the word at `l`. -/
def LastIn (c l : ℕ) : List (ℕ × ℕ) → Prop
  | [] => False
  | cell :: rest => cell = (c,l) ∧ (∀ r ∈ rest, Clear l (r.2,4)) ∨ LastIn c l rest

instance decidableLastIn (c l : ℕ) : DecidablePred (LastIn c l)
  | [] => isFalse id
  | _ :: rest =>
    have := decidableLastIn c l rest
    inferInstanceAs (Decidable (_ ∧ _ ∨ _))

theorem lastIn_append {c l : ℕ} {cs : List (ℕ × ℕ)} (h : LastIn c l cs) :
    ∃ pre post, cs = pre ++ (c,l) :: post ∧ ∀ r ∈ post, Clear l (r.2,4) := by
  induction cs with
  | nil => exact h.elim
  | cons cell rest ih =>
    rcases h with ⟨rfl,hrest⟩ | h
    · exact ⟨[],rest,rfl,hrest⟩
    · obtain ⟨pre,post,rfl,hpost⟩ := ih h
      exact ⟨cell :: pre,post,rfl,hpost⟩

theorem word_of_clear {rs : List (ℕ × ℕ)} {l : ℕ} (h : Frame (InRegions rs) out out')
    (hrs : ∀ r ∈ rs, Clear l r) : out'.word l = out.word l := by
  refine h.word fun k hk => ?_
  rintro ⟨r,hr,hx⟩
  have := hrs r hr
  unfold Clear at this
  omega

theorem newValue_lt (c : ℕ) : newValue t inp c < 4294967296 := by
  unfold newValue Table.reloc
  split
  · exact u32_lt _
  · split
    · exact u32_lt _
    · exact inp.word_lt c

/-- After its last write in the list a cell holds its relocated value. -/
theorem word_of_lastIn {cs : List (ℕ × ℕ)} {c l : ℕ} (h : LastIn c l cs)
    (hr : Runs.run (writeCell t inp) out cs = some out') : out'.word l = newValue t inp c := by
  obtain ⟨pre,post,rfl,hpost⟩ := lastIn_append h
  rw [Runs.run_append,Option.bind_eq_some_iff] at hr
  obtain ⟨b,-,hr⟩ := hr
  obtain ⟨b',hb',hr⟩ := Runs.run_cons_eq_some.mp hr
  obtain ⟨-,rfl⟩ := wr_eq_some.mp hb'
  have hrest : Within (InRegions (post.map fun cell => (cell.2,4)))
      fun out => Runs.run (writeCell t inp) out post :=
    Within.run fun cell hcell => Within.wr (inRegions_of_mem (List.mem_map.mpr ⟨cell,hcell,rfl⟩))
  have hclear : ∀ r ∈ post.map fun cell : ℕ × ℕ => (cell.2,4), Clear l r := by
    intro r hr
    obtain ⟨cell,hcell,rfl⟩ := List.mem_map.mp hr
    exact hpost cell hcell
  rw [word_of_clear (hrest _ _ hr) hclear,word_put_byteOf,u32_of_lt (newValue_lt c)]

/-! ## The steps of a translation -/

/-- The section table and the keys are written below the sections. -/
theorem writeTail_within : Within (fun x => x < headSz) fun out =>
    Runs.run (writeEntry t) out Table.indices >>= writeKeys e t := by
  have hlow : ∀ o ≤ headSz - 4, ∀ x, o ≤ x ∧ x < o + 4 → x < headSz := by
    simp only [headSz]
    omega
  refine (Within.run fun i _ => ?_).bind ?_
  · have hi : ∀ k ≤ 0x1c, tabOff + i*entSz + k ≤ headSz - 4 := by
      intro k hk
      simp only [tabOff,entSz,headSz]
      omega
    exact (Within.wr (hlow _ (hi 0x00 (by decide)))).bind <|
      (Within.wr (hlow _ (hi 0x04 (by decide)))).bind <|
      (Within.wr (hlow _ (hi 0x08 (by decide)))).bind <|
      (Within.wr (hlow _ (hi 0x0c (by decide)))).bind <|
      (Within.wr (hlow _ (hi 0x10 (by decide)))).bind <|
      (Within.wr (hlow _ (hi 0x14 (by decide)))).bind <|
      (Within.wr (hlow _ (hi 0x18 (by decide)))).bind <| Within.wr (hlow _ (hi 0x1c (by decide)))
  · refine (Within.wr (hlow 0x2c (by decide))).bind <| (Within.wr (hlow 0x24 (by decide))).bind ?_
    intro b b' h
    simp only at h
    split at h
    · exact (wr_frame h).mono (hlow 0x24 (by decide))
    · simp at h

/-- The output as it is when the loop over the sections comes to the offset `od`. -/
def outputBefore (e : Env) (t : Table) (inp : Bytes) (od : ℕ) : Option Bytes :=
  prologue e t inp >>= fun out => Runs.run (copySection e t inp) out (t.doffs.takeWhile (· < od))

theorem outputBefore_eq {pre post : List ℕ} {od : ℕ} (h : t.doffs = pre ++ od :: post) :
    outputBefore e t inp od =
      prologue e t inp >>= fun out => Runs.run (copySection e t inp) out pre := by
  rw [outputBefore,t.takeWhile_lt h]

theorem outputBefore_size {od : ℕ} (h : outputBefore e t inp od = some out) :
    out.size = t.newSize := by
  obtain ⟨b,hb,h⟩ := Option.bind_eq_some_iff.mp h
  exact (Within.run (fun od _ => copySection_within e t inp od) b out h).size.trans
    (prologue_size hb)

/-- A translation that succeeds goes through the step over each offset. -/
theorem exists_step (hlen : inp.size < 2147483648) (h : translate e inp = some (.ok out)) {od : ℕ}
    (hod : od ∈ (tableOf e.grow inp).doffs) : ∃ pre post b c d,
      (tableOf e.grow inp).doffs = pre ++ od :: post ∧
      outputBefore e (tableOf e.grow inp) inp od = some b ∧
      copySection e (tableOf e.grow inp) inp b od = some c ∧
      Runs.run (copySection e (tableOf e.grow inp) inp) c post = some d ∧
      Frame (fun x => x < headSz) d out := by
  obtain ⟨-,-,b₀,hb₀,hb⟩ := of_translate_ok hlen h
  obtain ⟨d,hd,hb⟩ := Option.bind_eq_some_iff.mp hb
  obtain ⟨pre,post,hsplit⟩ := List.append_of_mem hod
  rw [hsplit,Runs.run_append,Option.bind_eq_some_iff] at hd
  obtain ⟨b,hpre,hd⟩ := hd
  obtain ⟨c,hc,hpost⟩ := Runs.run_cons_eq_some.mp hd
  refine ⟨pre,post,b,c,d,hsplit,?_,hc,hpost,writeTail_within d out hb⟩
  rw [outputBefore_eq hsplit,bind_of_eq_some hb₀,hpre]

/-- The offsets behind one of them are greater. -/
theorem lt_of_mem_post {pre post : List ℕ} {od od' : ℕ} (h : t.doffs = pre ++ od :: post)
    (hod' : od' ∈ post) : od' ∈ t.doffs ∧ od < od' := by
  have hs := t.doffs_sorted
  rw [h] at hs
  exact ⟨by simp [h,hod'],
    (List.pairwise_cons.mp (List.pairwise_append.mp hs).2.1).1 od' hod'⟩

/-- What the step over an offset leaves is what the next step starts from. -/
theorem outputBefore_next {pre post : List ℕ} {od od' : ℕ} {b c : Bytes}
    (hd : t.doffs = pre ++ od :: od' :: post) (hb : outputBefore e t inp od = some b) (hc : copySection e t inp b od = some c) :
    outputBefore e t inp od' = some c := by
  rw [outputBefore_eq hd] at hb
  obtain ⟨b₀,hb₀,hrun⟩ := Option.bind_eq_some_iff.mp hb
  rw [outputBefore_eq (show t.doffs = (pre ++ [od]) ++ od' :: post by simp [hd]),
    bind_of_eq_some hb₀,Runs.run_append,hrun]
  simp [Runs.run_cons,hc]

/-- A byte that every later step leaves alone is as it is after the step over `od`. -/
theorem get_of_later {pre post : List ℕ} {od x : ℕ} {b c d : Bytes}
    (hd : t.doffs = pre ++ od :: post) (hb : outputBefore e t inp od = some b) (hc : copySection e t inp b od = some c) (hr : Runs.run (copySection e t inp) c post = some d)
    (hstep : ∀ od' ∈ post, ∀ b b', outputBefore e t inp od' = some b →
      copySection e t inp b od' = some b' → b'.get x = b.get x) : d.get x = c.get x := by
  induction post generalizing pre od b c with
  | nil =>
    obtain rfl : c = d := Option.some_inj.mp hr
    rfl
  | cons od' post ih =>
    obtain ⟨c',hc',hr⟩ := Runs.run_cons_eq_some.mp hr
    have hnext := outputBefore_next hd hb hc
    have hd' : t.doffs = (pre ++ [od]) ++ od' :: post := by simp [hd]
    calc d.get x = c'.get x :=
          ih hd' hnext hc' hr fun od' hod' => hstep od' (List.mem_cons_of_mem _ hod')
      _ = c.get x := hstep od' List.mem_cons_self c c' hnext hc'

/-! ## The finished file -/

/-- A type-3 section that owns its offset. -/
def Symbols (t : Table) (w : Fin 13) : Prop :=
  t.IsLast w ∧ (t.sec w).doff ≠ headSz ∧ (t.sec w).type = 3

instance : DecidablePred (Symbols t) := fun _ => inferInstanceAs (Decidable (_ ∧ _ ∧ _))

/-- The old offset `c` lies in the section `i`, away from 0x1f0. -/
def LiesIn (t : Table) (c : ℕ) (i : Fin 13) : Prop :=
  (t.sec i).doff ≠ headSz ∧ (t.sec i).doff ≤ c ∧ c < (t.sec i).doff + t.rlen (t.sec i).doff

instance (c : ℕ) : DecidablePred (LiesIn t c) := fun _ => inferInstanceAs (Decidable (_ ∧ _ ∧ _))

/-- The place of an old offset in the new section. -/
def place (t : Table) (c : ℕ) (i : Fin 13) : ℕ := t.newDoff i + (c - (t.sec i).doff)

/-- Every cell that is relocated and lies in a section has its relocated value in the
output, at its place in the new section. -/
def NoneLost (t : Table) (inp out : Bytes) : Prop :=
  ∀ w, Symbols t w → ∀ cell ∈ cells t inp w, ∀ i, LiesIn t cell.1 i →
    out.word (place t cell.1 i) = newValue t inp cell.1

/-- No step over a section behind `v` touches the word at `l`. -/
def Untouched (e : Env) (t : Table) (inp : Bytes) (v : Fin 13) (l : ℕ) : Prop :=
  ∀ u b, t.IsLast u → (t.sec u).doff ≠ headSz → (t.sec v).doff < (t.sec u).doff →
    outputBefore e t inp (t.sec u).doff = some b → ∀ r ∈ regions e t inp u b, Clear l r

/-- Every such cell is written to its place by the pass over some type-3 section, and
neither the rest of that pass nor the step over a section behind it, its copy
included, touches the place again. -/
def Kept (e : Env) (t : Table) (inp : Bytes) : Prop :=
  ∀ w, Symbols t w → ∀ cell ∈ cells t inp w, ∀ i, LiesIn t cell.1 i →
    ∃ v, Symbols t v ∧ LastIn cell.1 (place t cell.1 i) (cells t inp v) ∧
      Untouched e t inp v (place t cell.1 i)

/-- The last that is written to the place of such a cell is the copy of its section, and the cell is
not relocated to where it was. -/
def Undone (e : Env) (t : Table) (inp : Bytes) : Prop :=
  ∃ w, Symbols t w ∧ ∃ cell ∈ cells t inp w, ∃ i, LiesIn t cell.1 i ∧ t.IsLast i ∧
    cell.1 + 4 ≤ (t.sec i).doff + t.rlen (t.sec i).doff ∧ (t.sec i).type ∉ [1,3,9] ∧
      newValue t inp cell.1 ≠ inp.word cell.1 ∧ Untouched e t inp i (place t cell.1 i)

/-- The step over a type-3 section leaves its cells as they were written last. -/
theorem word_of_copySection {v : Fin 13} {c l : ℕ} (hv : Symbols t v)
    (hlast : LastIn c l (cells t inp v))
    (h : copySection e t inp out (t.sec v).doff = some out') : out'.word l = newValue t inp c := by
  obtain ⟨hw,hne,h3⟩ := hv
  rw [copySection,if_neg hne,Table.owner_of_isLast hw] at h
  simp only [h3] at h
  obtain ⟨b,-,h⟩ := Option.bind_eq_some_iff.mp h
  exact word_of_lastIn hlast (fixSymbols_eq_run h)

/-- A later step leaves the bytes of a word that it does not touch. -/
theorem Untouched.get {v : Fin 13} {l k : ℕ} (h : Untouched e t inp v l) (hgrow : t.grow = e.grow)
    (ht : t.Bounded) (hk : k < 4) {od : ℕ} (hod : od ∈ t.doffs) (hlt : (t.sec v).doff < od)
    {b c : Bytes} (hb : outputBefore e t inp od = some b) (hc : copySection e t inp b od = some c) :
    c.get (l + k) = b.get (l + k) := by
  by_cases hne : od = headSz
  · subst hne
    obtain rfl : b = c := by simpa [copySection] using hc
    rfl
  · obtain ⟨i,rfl⟩ := t.mem_doffs.mp hod
    obtain ⟨u,hu,hui⟩ := t.exists_isLast i
    rw [← hui] at hne hlt hb hc
    have hlow := (ht.doff u).trans_lt ht.len
    refine (copySection_regions hgrow hlow hu hne hc).get _ ?_
    rintro ⟨r,hmem,hx⟩
    have := h u b hu hne hlt hb r hmem
    unfold Clear at this
    omega

/-- What the step over a section leaves at a place that no later step touches is in
the finished file. -/
theorem word_of_step (hlen : inp.size < 2147483648) (h : translate e inp = some (.ok out))
    {l x : ℕ} {v : Fin 13} (hl : headSz ≤ l)
    (hstep : ∀ b b', copySection e (tableOf e.grow inp) inp b (secAt inp v).doff = some b' →
      b'.word l = x)
    (hclear : Untouched e (tableOf e.grow inp) inp v l) : out.word l = x := by
  have ht := (of_translate_ok hlen h).2.1
  obtain ⟨pre,post,b,c,d,hsplit,hb,hc,hd,htail⟩ := exists_step hlen h (Table.doff_mem _ v)
  have hgrow : (tableOf e.grow inp).grow = e.grow := rfl
  have hsec : (tableOf e.grow inp).sec = secAt inp := rfl
  generalize tableOf e.grow inp = t at *
  rw [← hsec] at hstep
  have hlater : ∀ k < 4, d.get (l + k) = c.get (l + k) := fun k hk =>
    get_of_later hsplit hb hc hd fun od hod b b' hb hb' =>
      hclear.get hgrow ht hk (lt_of_mem_post hsplit hod).1 (lt_of_mem_post hsplit hod).2 hb hb'
  have hfirst := hlater 0 (by decide)
  simp only [Nat.add_zero] at hfirst
  calc out.word l = d.word l := htail.word fun k _ => by omega
    _ = c.word l := by
      simp only [word,hfirst,hlater 1 (by decide),hlater 2 (by decide),hlater 3 (by decide)]
    _ = x := hstep b c hc

theorem headSz_le_place (ht : t.Bounded) {c : ℕ} {i : Fin 13} (hi : LiesIn t c i) :
    headSz ≤ place t c i := by
  have := (ht.startOf_spec (t.doff_mem i)).1
  rw [place,t.newDoff_of_ne hi.1]
  omega

/-- The step over a section that is only copied leaves its old bytes at its new place. -/
theorem get_of_copied {v : Fin 13} (hv : t.IsLast v) (hne : (t.sec v).doff ≠ headSz)
    (htype : (t.sec v).type ∉ [1,3,9]) (h : copySection e t inp out (t.sec v).doff = some out')
    {k : ℕ} (hk : k < t.rlen (t.sec v).doff) :
    out'.get (t.newDoff v + k) = inp.get ((t.sec v).doff + k) := by
  simp only [List.mem_cons,List.not_mem_nil,or_false,not_or] at htype
  rw [copySection,if_neg hne,Table.owner_of_isLast hv] at h
  obtain ⟨b,hb,h⟩ := Option.bind_eq_some_iff.mp h
  obtain rfl : b = out' := by
    split at h
    · exact absurd ‹_› htype.1
    · exact absurd ‹_› htype.2.1
    · exact absurd ‹_› htype.2.2
    · exact Option.some_inj.mp h
  obtain ⟨-,rfl⟩ := memcpy_eq_some.mp hb
  rw [get_put_inside _ _ (by omega),Nat.add_sub_cancel_left]

/-- A section that is only copied has the old pointer at a place that nothing touches
after its copy, whatever was written there before. -/
theorem word_of_copied (hlen : inp.size < 2147483648) (h : translate e inp = some (.ok out))
    {v : Fin 13} {c : ℕ} (hv : (tableOf e.grow inp).IsLast v)
    (hi : LiesIn (tableOf e.grow inp) c v)
    (hin : c + 4 ≤ (secAt inp v).doff + (tableOf e.grow inp).rlen (secAt inp v).doff)
    (htype : (secAt inp v).type ∉ [1,3,9])
    (hclear : Untouched e (tableOf e.grow inp) inp v (place (tableOf e.grow inp) c v)) :
    out.word (place (tableOf e.grow inp) c v) = inp.word c := by
  have ht := (of_translate_ok hlen h).2.1
  refine word_of_step hlen h (headSz_le_place ht hi) (fun b b' hstep => ?_) hclear
  have hsec : (tableOf e.grow inp).sec = secAt inp := rfl
  generalize tableOf e.grow inp = t at *
  rw [← hsec] at hstep htype hin
  obtain ⟨hne,hlo,-⟩ := hi
  have hbyte : ∀ k < 4, b'.get (place t c v + k) = inp.get (c + k) := by
    intro k hk
    rw [place,Nat.add_assoc,get_of_copied hv hne htype hstep (by omega)]
    congr 1
    omega
  have hfirst := hbyte 0 (by decide)
  simp only [Nat.add_zero] at hfirst
  simp only [word,hfirst,hbyte 1 (by decide),hbyte 2 (by decide),hbyte 3 (by decide)]

/-- No relocation is lost where the cells are kept, and one is where a copy undoes it. -/
theorem noneLost_of_kept (hlen : inp.size < 2147483648) (h : translate e inp = some (.ok out)) :
    (Kept e (tableOf e.grow inp) inp → NoneLost (tableOf e.grow inp) inp out) ∧
      (Undone e (tableOf e.grow inp) inp → ¬ NoneLost (tableOf e.grow inp) inp out) := by
  have ht := (of_translate_ok hlen h).2.1
  constructor
  · intro hkept w hw cell hcell i hi
    obtain ⟨v,hv,hlast,hclear⟩ := hkept w hw cell hcell i hi
    exact word_of_step hlen h (headSz_le_place ht hi)
      (fun b b' hstep => word_of_copySection hv hlast hstep) hclear
  · rintro ⟨w,hw,cell,hcell,i,hi,hlast,hin,htype,hne,hclear⟩ hnone
    refine hne ?_
    rw [← hnone w hw cell hcell i hi]
    exact word_of_copied hlen h hlast hi hin htype hclear

/-- A symbol section whose aux array lies in a section before it, and in one behind it. -/
def auxBefore : Bytes := sampleFile 0x310 [⟨10,0x1f0,64,0,0⟩,⟨4,0x250,16,0,0⟩,⟨3,0x260,0xac,1,0⟩]
  [(0x2b8,0x250),(0x250,0x260)]

def auxBehind : Bytes := sampleFile 0x310 [⟨10,0x1f0,64,0,0⟩,⟨3,0x250,0xac,1,0⟩,⟨4,0x300,16,0,0⟩]
  [(0x2a8,0x300),(0x300,0x250)]

/-- The output of a translation, or an empty buffer. -/
def output (e : Env) (inp : Bytes) : Bytes :=
  match translate e inp with
  | some (.ok out) => out
  | _ => .zeros 0

theorem translate_output {e : Env} {inp : Bytes} (h : (output e inp).size ≠ 0) :
    translate e inp = some (.ok (output e inp)) := by
  unfold output at *
  split <;> simp_all

/-- Behind the symbols a code section of one object, whose table wraps around to where it begins at
an earlier section. The table is not extended, so its entries spare the cells. -/
def wrappedTable : Bytes := sampleFile 0x3c0
  [⟨10,0x1f0,64,0,0⟩,⟨4,0x250,16,0,0⟩,⟨3,0x260,0xac,1,0⟩,⟨1,0x310,0xb0,0,0⟩]
  [(0x2ac,0x250),(0x324,0xffffff40),(0x328,1)]

theorem kept_wrappedTable : Kept sampleEnv (tableOf true wrappedTable) wrappedTable := by
  have honly : ∀ w, Symbols (tableOf true wrappedTable) w → w = 2 := by decide +kernel
  have hbehind : ∀ u, (tableOf true wrappedTable).IsLast u → (secAt wrappedTable u).doff ≠ headSz →
      (secAt wrappedTable 2).doff < (secAt wrappedTable u).doff → u = 3 := by decide +kernel
  have hcells : ∀ cell ∈ cells (tableOf true wrappedTable) wrappedTable 2, ∀ i,
      LiesIn (tableOf true wrappedTable) cell.1 i →
      LastIn cell.1 (place (tableOf true wrappedTable) cell.1 i)
        (cells (tableOf true wrappedTable) wrappedTable 2) ∧
      ∀ b ∈ outputBefore sampleEnv (tableOf true wrappedTable) wrappedTable 0x310,
        ∀ r ∈ regions sampleEnv (tableOf true wrappedTable) wrappedTable 3 b,
          Clear (place (tableOf true wrappedTable) cell.1 i) r := by decide +kernel
  intro w hw cell hcell i hi
  obtain rfl := honly w hw
  obtain ⟨hlast,hclear⟩ := hcells cell hcell i hi
  refine ⟨2,hw,hlast,fun u b hu hne hlt hb => ?_⟩
  obtain rfl := hbehind u hu hne hlt
  exact hclear b hb

theorem noneLost_wrappedTable :
    NoneLost (tableOf true wrappedTable) wrappedTable (output sampleEnv wrappedTable) :=
  (noneLost_of_kept (e := sampleEnv) (by decide) (translate_output (by decide +kernel))).1
    kept_wrappedTable

/-- The aux array behind the symbols keeps its old pointer. -/
theorem not_noneLost_auxBehind : auxBehind.size < 2147483648 ∧ Accepted auxBehind ∧
    (∀ i, 0x1f0 ≤ (secAt auxBehind i).doff) ∧
    (∀ w, Symbols (tableOf true auxBehind) w → ∀ v, Symbols (tableOf true auxBehind) v →
      ∀ x ∈ cells (tableOf true auxBehind) auxBehind w,
      ∀ y ∈ cells (tableOf true auxBehind) auxBehind v,
        x.1 = y.1 ∨ x.1 + 4 ≤ y.1 ∨ y.1 + 4 ≤ x.1) ∧
    ∃ out, translate sampleEnv auxBehind = some (.ok out) ∧
      ¬ NoneLost (tableOf true auxBehind) auxBehind out := by
  refine ⟨by decide,by decide +kernel,by decide +kernel,by decide +kernel,
    output sampleEnv auxBehind,translate_output (by decide +kernel),fun h => ?_⟩
  have hcell := h 1 (by decide +kernel) (0x300,place (tableOf true auxBehind) 0x300 2)
    (by decide +kernel) 2 (by decide +kernel)
  exact absurd hcell (by decide +kernel)

end Xlate
end Kitakami

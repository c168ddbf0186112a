import Kitakami.Xlate.Code
import Kitakami.Xlate.Room
import Kitakami.Xlate.Symbols

/-!
# When the translation stays inside its two files

The conditions of the single passes, put together: `translate` makes no access
outside the input and the output exactly if it returns early or if `InRange`
holds of the file.
-/

namespace Kitakami
namespace Xlate

open Bytes

/-! ## Sizes -/

def anywhere : ℕ → Prop := fun _ => True

theorem relocCell_within (t : Table) (inp : Bytes) (src dst : ℕ) :
    Within anywhere (relocCell t inp src dst) :=
  Within.read fun _ => Within.ite Within.pure
    (Within.ite (Within.wr fun _ _ => trivial) Within.pure)

theorem fixRecord_within (t : Table) (inp : Bytes) (od nb r : ℕ) :
    Within anywhere fun out => fixRecord t inp od nb out r :=
  (Within.run fun _ _ => relocCell_within t inp _ _).bind <| Within.read fun _ =>
    Within.ite (Within.run fun _ _ => relocCell_within t inp _ _) Within.pure

theorem fixSymbols_within (t : Table) (inp : Bytes) (od nb orl cnt : ℕ) :
    Within anywhere (fixSymbols t inp od nb orl cnt) :=
  (Within.run fun r _ => fixRecord_within t inp od nb r).bind <| Within.run fun _ _ =>
    Within.read fun _ => Within.read fun _ => Within.ite (Within.wr fun _ _ => trivial) Within.pure

/-- An added entry changes its five words. -/
theorem addEntry_within {R : ℕ → Prop} {nb tab last type : ℕ} (h : ∀ c ∈ [0,4,8,12,16], ∀ x,
      u32 (nb + tab + type*objEntSz + c) ≤ x ∧ x < u32 (nb + tab + type*objEntSz + c) + 4 → R x) :
    Within R fun out => addEntry nb tab last out type :=
  (Within.wr (h 0 (by simp))).bind <| (Within.wr (h 4 (by simp))).bind <|
    (Within.wr (h 8 (by simp))).bind <| (Within.wr (h 12 (by simp))).bind <|
      Within.wr (h 16 (by simp))

theorem extendTable_within (nb tab cnt : ℕ) : Within anywhere (extendTable nb tab cnt) :=
  Within.read fun _ => Within.read fun _ => Within.read fun _ =>
    Within.ite ((Within.run fun _ _ => addEntry_within fun _ _ _ _ => trivial).bind <|
      Within.wr fun _ _ => trivial) Within.pure

/-- The move changes the objects' new place, the gap, and the offset words. -/
theorem shiftCode_within {R : ℕ → Prop} {inp : Bytes} {od nb orl tab cnt ins : ℕ}
    (hmove : ∀ x, u32 (nb + ins + codeGrow) ≤ x ∧ x < u32 (nb + ins + codeGrow) + sub32 orl ins → R x)
    (hgap : ∀ x, u32 (nb + ins) ≤ x ∧ x < u32 (nb + ins) + codeGrow → R x)
    (hoffs : ∀ k < cnt, ∀ x, u32 (nb + tab + k*objEntSz + 4) ≤ x ∧
      x < u32 (nb + tab + k*objEntSz + 4) + 4 → R x) :
    Within R (shiftCode inp od nb orl tab cnt ins) :=
  (Within.memmove hmove).bind <| (Within.store hgap).bind <| Within.run fun k hk =>
    Within.read fun _ => Within.wr (hoffs k (List.mem_range.mp hk))

theorem fixCode_within (e : Env) (inp : Bytes) (od nb orl : ℕ) :
    Within anywhere (fixCode e inp od nb orl) :=
  Within.read fun _ => (Within.wr fun _ _ => trivial).bind <|
    Within.ite (Within.read fun _ => Within.read fun _ => Within.read fun _ =>
      (shiftCode_within (fun _ _ => trivial) (fun _ _ => trivial) fun _ _ _ _ => trivial).bind <|
        Within.ite (extendTable_within _ _ _) Within.pure) Within.pure

/-- No step over a section changes the size of the output. -/
theorem copySection_within (e : Env) (t : Table) (inp : Bytes) (od : ℕ) :
    Within anywhere fun out => copySection e t inp out od := by
  unfold copySection
  split
  · exact Within.pure
  · split
    · exact fun _ _ h => by simp at h
    · refine (Within.memcpy fun _ _ => trivial).bind ?_
      split
      · exact fixCode_within _ _ _ _ _
      · exact fixSymbols_within _ _ _ _ _ _
      · exact Within.read fun _ => Within.wr fun _ _ => trivial
      · exact Within.pure

/-! ## One section -/

variable {e : Env} {t : Table} {inp out : Bytes} {w : Fin 13}

/-- The section as it is before the object table is extended. -/
def movedCode (e : Env) (inp : Bytes) (od nb orl : ℕ) (out : Bytes) : Option Bytes := do
  let out ← out.memcpy nb inp od orl
  let out ← out.wr nb (← symcount e inp)
  shiftCode inp od nb orl (objTab inp od) (objCnt inp od) (objIns inp od) out

/-- The scan behind the object table ends, or stops at a byte that is not zero. -/
def ScanReached (e : Env) (inp : Bytes) (od nb orl : ℕ) (out : Bytes) : Prop :=
  objCnt inp od < objTypes → ∀ out', movedCode e inp od nb orl out = some out' →
    ScanOk out' (u32 (nb + objTab inp od + objCnt inp od*objEntSz))
      ((objTypes - objCnt inp od)*objEntSz)

/-- What the section that owns an offset must satisfy, by its type. -/
structure SectionOk (e : Env) (t : Table) (inp : Bytes) (w : Fin 13) : Prop where
  /-- A type-5 section of 16 bytes gets room for 20, whatever its length. -/
  short : Table.Short (t.sec w) → t.newDoff w + t.rlen (t.sec w).doff ≤ t.newSize
  code : (t.sec w).type = 1 → e.grow →
    TableOk inp t.newSize (t.sec w).doff (t.newDoff w) (t.rlen (t.sec w).doff)
  word : (t.sec w).type = 1 → ¬ e.grow → (t.sec w).doff < inp.size
  aux : (t.sec w).type = 3 → ∀ r < (t.sec w).count,
    symBase + r*symStride + symStride ≤ t.rlen (t.sec w).doff →
    AuxOk t inp t.newSize (inp.word ((t.sec w).doff + symBase + r*symStride + 0x0c))
  auxStart : (t.sec w).type = 3 →
    AuxStartOk (t.sec w).doff (t.rlen (t.sec w).doff) (t.sec w).count
  pointer : (t.sec w).type = 9 → (t.sec w).doff + 4 ≤ inp.size

/-- What depends on the output so far: the scan of a code section. -/
def ScansOk (e : Env) (t : Table) (inp out : Bytes) (w : Fin 13) : Prop :=
  (t.sec w).type = 1 → e.grow →
    ScanReached e inp (t.sec w).doff (t.newDoff w) (t.rlen (t.sec w).doff) out

theorem symcount_eq (h : headSz ≤ inp.size) : symcount e inp =
    some (u32 (inp.word 0x20 + (e.symcountDelta%4294967296).toNat)) := by
  simp only [headSz] at h
  simp [symcount,rd_of_le (show 0x20 + 4 ≤ inp.size by omega)]

theorem symcount_isSome (h : headSz ≤ inp.size) : (symcount e inp).isSome := by
  simp [symcount_eq h]

/-- The room a section has in the new file. -/
theorem Table.Bounded.room (h : t.Bounded) (hne : (t.sec w).doff ≠ headSz) :
    headSz ≤ t.newDoff w ∧ t.newDoff w%4 = 0 ∧
      t.newDoff w + (t.placed (t.sec w).doff + 3)/4*4 ≤ t.newSize ∧ t.newSize < 4294960000 := by
  obtain ⟨hge,hmod,-⟩ := h.startOf_spec (t.doff_mem w)
  have hend := (h.endOf_spec (t.doff_mem w)).2.2.2 hne
  have hsize := h.endOf_le_newSize (t.doff_mem w)
  have hmax := h.newSize_spec.2
  have hlen := h.len
  simp only [headSz] at hmax
  rw [t.newDoff_of_ne hne]
  exact ⟨hge,hmod,by omega,by omega⟩

/-- A section that is not cut short lies in both files. -/
theorem Table.Bounded.lies (h : t.Bounded) (hlen : inp.size = t.len) (hw : t.IsLast w)
    (hne : (t.sec w).doff ≠ headSz) (hs : ¬ Table.Short (t.sec w)) :
    Lies inp t.newSize (t.sec w).doff (t.newDoff w) (t.rlen (t.sec w).doff) := by
  obtain ⟨hge,-,hroom,hmax⟩ := h.room hne
  have hend := h.end_le_len (t.doff_mem w)
  have hl := h.len
  have hplaced := Table.placed_of_isLast hw (by simp only [codeGrow]; omega)
  rw [if_neg hs] at hplaced
  exact ⟨by omega,by omega,by split at hplaced <;> omega,hmax,hge⟩

/-- A code section has room to grow. -/
theorem Table.Bounded.room_grow (h : t.Bounded) (hw : t.IsLast w) (hne : (t.sec w).doff ≠ headSz)
    (h1 : (t.sec w).type = 1) (hg : t.grow) :
    t.newDoff w + t.rlen (t.sec w).doff + codeGrow ≤ t.newSize := by
  obtain ⟨-,-,hroom,-⟩ := h.room hne
  have hend := h.end_le_len (t.doff_mem w)
  have hl := h.len
  have hplaced := Table.placed_of_isLast hw (by simp only [codeGrow]; omega)
  rw [if_pos ⟨h1,hg⟩] at hplaced
  omega

/-- A section has room for a word in the new file if it is not empty. -/
theorem Table.Bounded.word_room (h : t.Bounded) (hw : t.IsLast w)
    (hne : (t.sec w).doff ≠ headSz) (hs : ¬ Table.Short (t.sec w))
    (hg : ¬ ((t.sec w).type = 1 ∧ t.grow)) :
    t.newDoff w + 4 ≤ t.newSize ↔ (t.sec w).doff < t.len := by
  obtain ⟨-,hmod,hroom,-⟩ := h.room hne
  have hend := h.end_eq (t.doff_mem w)
  have hl := h.len
  have hlen := h.end_le_len (t.doff_mem w)
  have hplaced := Table.placed_of_isLast hw (by simp only [codeGrow]; omega)
  rw [if_neg hg,if_neg hs] at hplaced
  constructor
  · intro hword
    -- an empty section is the last one, and its place is the end of the file
    by_contra hlt
    have hnew := (h.endOf_spec (t.doff_mem w)).2.2.2 hne
    rw [t.newDoff_of_ne hne] at hword hmod
    rcases Table.endOf_next (t.doff_mem w) with he | ⟨od',hod',hlt',-⟩
    · omega
    · have := h.doffs hod'
      omega
  · intro hlt
    have hbest : (t.sec w).doff < t.best (t.sec w).doff := by
      rcases t.best_cases (t.sec w).doff with hb | ⟨j,hj,hb⟩ <;> omega
    omega

/-- The copy of a section. -/
theorem Table.Bounded.copy_accesses (h : t.Bounded) (hlen : inp.size = t.len) (hw : t.IsLast w)
    (hne : (t.sec w).doff ≠ headSz) :
    Accesses t.newSize (Table.Short (t.sec w) → t.newDoff w + t.rlen (t.sec w).doff ≤ t.newSize)
      fun out => out.memcpy (t.newDoff w) inp (t.sec w).doff (t.rlen (t.sec w).doff) := by
  refine (Accesses.memcpy _ _ _ _).congr ?_
  have hend := h.end_le_len (t.doff_mem w)
  have hroom := (h.room hne).2.2.1
  by_cases hs : Table.Short (t.sec w)
  · simp only [hs,true_imp_iff]
    omega
  · have hnew := (h.lies hlen hw hne hs).new
    simp only [hs,false_imp_iff,iff_true]
    omega

/-- The step over a code section. -/
theorem code_isSome (ht : t.Bounded) (hgrow : t.grow = e.grow) (hlen : inp.size = t.len)
    (hsz : headSz ≤ inp.size) (hw : t.IsLast w) (hne : (t.sec w).doff ≠ headSz)
    (h1 : (t.sec w).type = 1) (hout : out.size = t.newSize) :
    (out.memcpy (t.newDoff w) inp (t.sec w).doff (t.rlen (t.sec w).doff) >>= fun out =>
      fixCode e inp (t.sec w).doff (t.newDoff w) (t.rlen (t.sec w).doff) out).isSome ↔
    (e.grow → TableOk inp t.newSize (t.sec w).doff (t.newDoff w) (t.rlen (t.sec w).doff) ∧
        ScanReached e inp (t.sec w).doff (t.newDoff w) (t.rlen (t.sec w).doff) out) ∧
      (¬ e.grow → (t.sec w).doff < inp.size) := by
  have hs : ¬ Table.Short (t.sec w) := fun hs => by simp [hs.1] at h1
  have hcopy := (ht.copy_accesses hlen hw hne).congr (iff_of_true (fun h => absurd h hs) trivial)
  have hod := (ht.doff w).trans hlen.ge
  have hsmall := (ht.room hne).2.2.2
  obtain ⟨c,hc⟩ := Option.isSome_iff_exists.mp ((hcopy.ok out hout).mpr trivial)
  have hcsize := hcopy.size out c hout hc
  obtain ⟨v,hv⟩ := Option.isSome_iff_exists.mp (symcount_isSome (e := e) hsz)
  rw [bind_of_eq_some hc,fixCode,bind_of_eq_some hv]
  by_cases hg : e.grow
  · simp only [hg,if_true,true_imp_iff,not_true_eq_false,false_imp_iff,and_true]
    have hroom := ht.room_grow hw hne h1 (hgrow.trans hg)
    have hword : Accesses t.newSize True fun out => out.wr (t.newDoff w) v :=
      (Accesses.wr _ _).congr (iff_of_true (by simp only [codeGrow] at hroom; omega) trivial)
    obtain ⟨c',hc'⟩ := Option.isSome_iff_exists.mp ((hword.ok c hcsize).mpr trivial)
    have hmoved : movedCode e inp (t.sec w).doff (t.newDoff w) (t.rlen (t.sec w).doff) out =
        shiftCode inp (t.sec w).doff (t.newDoff w) (t.rlen (t.sec w).doff)
          (objTab inp (t.sec w).doff) (objCnt inp (t.sec w).doff) (objIns inp (t.sec w).doff) c' := by
      rw [movedCode,bind_of_eq_some hc,bind_of_eq_some hv,bind_of_eq_some hc']
    rw [bind_of_eq_some hc',growCode_isSome (hword.size c c' hcsize hc') hroom hsmall
      (hlen ▸ ht.len) hod,ScanReached,hmoved]
    exact and_congr_right fun _ => ⟨fun h hlt c hc => h c hc hlt,fun h c hc hlt => h hlt c hc⟩
  · have hword := ht.word_room hw hne hs fun h => hg (hgrow ▸ h.2)
    simp only [hg,hlen,← hword]
    cases hr : c.wr (t.newDoff w) v with
    | none =>
      have := ((Accesses.wr (t.newDoff w) v).ok c hcsize).not.mp (by simp [hr])
      simp [this]
    | some c' =>
      have := ((Accesses.wr (t.newDoff w) v).ok c hcsize).mp (by simp [hr])
      simp [this]

/-- The step over the sections at an offset. -/
theorem copySection_isSome (ht : t.Bounded) (hgrow : t.grow = e.grow) (hlen : inp.size = t.len)
    (hsz : headSz ≤ inp.size) (hw : t.IsLast w) (hne : (t.sec w).doff ≠ headSz)
    (hout : out.size = t.newSize) :
    (copySection e t inp out (t.sec w).doff).isSome ↔
      SectionOk e t inp w ∧ ScansOk e t inp out w := by
  have hcopy := ht.copy_accesses hlen hw hne
  have hod := (ht.doff w).trans hlen.ge
  have hl := ht.len
  unfold copySection
  rw [if_neg hne,Table.owner_of_isLast hw]
  simp only
  split
  · rename_i h1
    rw [code_isSome ht hgrow hlen hsz hw hne h1 hout]
    constructor
    · rintro ⟨hcode,hword⟩
      exact ⟨⟨fun hs => by simp [hs.1] at h1,fun _ hg => (hcode hg).1,fun _ => hword,
        fun h3 => by simp [h3] at h1,fun h3 => by simp [h3] at h1,fun h9 => by simp [h9] at h1⟩,
        fun _ hg => (hcode hg).2⟩
    · exact fun h => ⟨fun hg => ⟨h.1.code h1 hg,h.2 h1 hg⟩,h.1.word h1⟩
  · rename_i h3
    have hs : ¬ Table.Short (t.sec w) := fun hs => by simp [hs.1] at h3
    have hn1 : (t.sec w).type ≠ 1 := by simp [h3]
    have hlies := ht.lies hlen hw hne hs
    have hall := hcopy.bind fun _ => fixSymbols_accesses ht hlies (t.sec w).count
    rw [hall.ok out hout]
    constructor
    · rintro ⟨-,haux,hstart⟩
      exact ⟨⟨fun h => absurd h hs,fun h1 => absurd h1 hn1,fun h1 => absurd h1 hn1,fun _ => haux,
        fun _ => hstart,fun h9 => by simp [h9] at h3⟩,fun h1 => absurd h1 hn1⟩
    · exact fun h => ⟨fun h => absurd h hs,h.1.aux h3,h.1.auxStart h3⟩
  · rename_i h9
    have hs : ¬ Table.Short (t.sec w) := fun hs => by simp [hs.1] at h9
    have hn1 : (t.sec w).type ≠ 1 := by simp [h9]
    have hn3 : (t.sec w).type ≠ 3 := by simp [h9]
    have hword := ht.word_room hw hne hs fun h => hn1 h.1
    have hpointer : Accesses t.newSize ((t.sec w).doff + 4 ≤ inp.size ∧ t.newDoff w + 4 ≤ t.newSize)
        (fixPointer t inp (t.sec w).doff (t.newDoff w)) :=
      Accesses.rd fun _ => Accesses.wr _ _
    rw [(hcopy.bind fun _ => hpointer).ok out hout]
    constructor
    · rintro ⟨-,hin,-⟩
      exact ⟨⟨fun h => absurd h hs,fun h1 => absurd h1 hn1,fun h1 => absurd h1 hn1,
        fun h3 => absurd h3 hn3,fun h3 => absurd h3 hn3,fun _ => hin⟩,fun h1 => absurd h1 hn1⟩
    · rintro ⟨h,-⟩
      have hin := h.pointer h9
      exact ⟨fun h => absurd h hs,hin,hword.mpr (by omega)⟩
  · rename_i h1 h3 h9
    rw [(hcopy.bind fun _ => Accesses.pure).ok out hout]
    constructor
    · rintro ⟨h,-⟩
      exact ⟨⟨h,fun h => absurd h h1,fun h => absurd h h1,fun h => absurd h h3,
        fun h => absurd h h3,fun h => absurd h h9⟩,fun h => absurd h h1⟩
    · exact fun h => ⟨h.1.short,trivial⟩

/-! ## The whole file -/

theorem writeHeader_accesses (hsz : headSz ≤ inp.size) (n : ℕ) :
    Accesses n (0x24 ≤ n) (writeHeader e t inp) := by
  obtain ⟨v,hv⟩ := Option.isSome_iff_exists.mp (symcount_isSome (e := e) hsz)
  have hlast : Accesses n (0x20 + 4 ≤ n) fun out => symcount e inp >>= fun v => out.wr 0x20 v := by
    rw [hv]
    exact Accesses.wr 0x20 v
  refine ((Accesses.wr _ _).bind fun _ => (Accesses.wr _ _).bind fun _ =>
    (Accesses.wr _ _).bind fun _ => (Accesses.wr _ _).bind fun _ =>
    (Accesses.rd fun _ => (Accesses.wr _ _).bind fun _ => (Accesses.wr _ _).bind fun _ =>
      (Accesses.wr _ _).bind fun _ => (Accesses.wr _ _).bind fun _ => hlast)).congr ?_
  simp only [headSz] at hsz
  omega

theorem writeEntry_accesses (i : Fin 13) {n : ℕ} (hn : headSz ≤ n) :
    Accesses n True fun out => writeEntry t out i := by
  refine ((Accesses.wr _ _).bind fun _ => (Accesses.wr _ _).bind fun _ =>
    (Accesses.wr _ _).bind fun _ => (Accesses.wr _ _).bind fun _ =>
    (Accesses.wr _ _).bind fun _ => (Accesses.wr _ _).bind fun _ =>
    (Accesses.wr _ _).bind fun _ => Accesses.wr _ _).congr (iff_of_true ?_ trivial)
  simp only [headSz,tabOff,entSz] at *
  omega

theorem writeKeys_accesses (hn : headSz ≤ t.newSize) :
    Accesses t.newSize True (writeKeys e t) := by
  simp only [headSz] at hn
  have hsum : Accesses t.newSize True fun out =>
      if t.newSize ≤ out.size then out.wr 0x24 (rotxor out t.newSize) else none := by
    constructor
    · intro b hb
      rw [if_pos hb.ge]
      exact ((Accesses.wr 0x24 _).ok b hb).trans (iff_of_true (by omega) trivial)
    · intro b b' hb h
      rw [if_pos hb.ge] at h
      exact (Accesses.wr 0x24 _).size b b' hb h
  refine ((Accesses.wr _ _).bind fun _ => (Accesses.wr _ _).bind fun _ => hsum).congr
    (iff_of_true ⟨?_,?_,trivial⟩ trivial) <;> omega

/-- What is written before the sections. -/
def prologue (e : Env) (t : Table) (inp : Bytes) : Option Bytes := do
  let out ← writeHeader e t inp (.zeros t.newSize)
  match t.firstOf 2, key e with
  | some i, some k => writeHead e t inp (← writeBuildKey t i k out)
  | _, _ => writeHead e t inp out

/-- The offsets, sizes and tables of the file that the translation relies on. -/
structure InRange (e : Env) (t : Table) (inp : Bytes) : Prop where
  doff : ∀ i, (t.sec i).doff ≤ inp.size
  buildKey : ∀ i, t.firstOf 2 = some i → (t.sec i).doff ≠ headSz →
    t.newDoff i + buildLen ≤ t.newSize
  head : ∀ i, t.firstOf 10 = some i → headSz + 64 ≤ inp.size ∧
    ((t.sec i).doff ≠ headSz → t.newDoff i + 64 ≤ t.newSize)
  sections : ∀ w, t.IsLast w → (t.sec w).doff ≠ headSz → SectionOk e t inp w
  scans : ∀ out, prologue e t inp = some out → Runs.Along (copySection e t inp) (fun out od =>
    ∀ w, t.IsLast w → (t.sec w).doff = od → od ≠ headSz → ScansOk e t inp out w) out t.doffs

/-- The translation ends with a negative code before it copies anything. -/
def ReturnsEarly (e : Env) (t : Table) (inp : Bytes) : Prop :=
  ¬ Accepted inp ∨ e.calloc = false ∨
    (0x24 ≤ t.newSize ∧ (∃ i, (t.sec i).type = 2) ∧ key e = none)

/-- What is placed at 0x1f0 has room there, or is not placed at all. -/
theorem Table.Bounded.head_room (h : t.Bounded) {i : Fin 13} (hi : (t.sec i).doff = headSz)
    {type n : ℕ} (htype : (t.sec i).type = type)
    (hn : type = 2 ∧ n = 20 ∨ type = 10 ∧ n = 64) : t.newDoff i + n ≤ t.newSize := by
  have hod : headSz ∈ t.doffs := hi ▸ t.doff_mem i
  have hend := (h.endOf_spec hod).2.2.1 rfl
  have hle := h.endOf_le_newSize hod
  have hsize := h.newSize_spec.1
  rw [Table.newDoff_eq,h.placedAt_head hi]
  simp only [headSz] at hsize
  split
  · omega
  · split
    · have := (Table.lastAt_eq_some.mp ‹t.lastAt headSz 2 = some i›).2.1
      omega
    · omega

theorem firstOf_type {type : ℕ} {i : Fin 13} (h : t.firstOf type = some i) :
    (t.sec i).type = type := by simpa using List.find?_some h

theorem firstOf_isSome {type : ℕ} : (t.firstOf type).isSome ↔ ∃ i, (t.sec i).type = type := by
  simp [Table.firstOf,List.find?_isSome,Table.mem_indices]

/-- The block of the type-10 section. -/
theorem writeHead_accesses (ht : t.Bounded) (hsz : headSz ≤ inp.size) :
    Accesses t.newSize (∀ i, t.firstOf 10 = some i → headSz + 64 ≤ inp.size ∧
      ((t.sec i).doff ≠ headSz → t.newDoff i + 64 ≤ t.newSize)) (writeHead e t inp) := by
  unfold writeHead
  cases hi : t.firstOf 10 with
  | none => exact Accesses.pure.congr (by simp)
  | some i =>
    obtain ⟨v,hv⟩ := Option.isSome_iff_exists.mp (symcount_isSome (e := e) hsz)
    have hword : Accesses t.newSize (t.newDoff i + 4 ≤ t.newSize)
        fun out => symcount e inp >>= fun v => out.wr (t.newDoff i) v := by
      rw [hv]
      exact Accesses.wr _ _
    have hroom := fun h => ht.head_room (i := i) h (firstOf_type hi) (.inr ⟨rfl,rfl⟩)
    refine ((Accesses.memcpy _ _ _ _).bind fun _ => hword).congr ?_
    simp only [Option.some_inj,forall_eq']
    constructor
    · rintro ⟨h | h,-⟩
      · omega
      · exact ⟨h.1,fun _ => h.2⟩
    · rintro ⟨hin,hout⟩
      have hfit : t.newDoff i + 64 ≤ t.newSize := by
        by_cases hd : (t.sec i).doff = headSz
        · exact hroom hd
        · exact hout hd
      exact ⟨.inr ⟨hin,hfit⟩,by omega⟩

theorem writeBuildKey_accesses (ht : t.Bounded) {i : Fin 13} (hi : t.firstOf 2 = some i)
    (k : ℕ → UInt8) : Accesses t.newSize
      ((t.sec i).doff ≠ headSz → t.newDoff i + buildLen ≤ t.newSize) (writeBuildKey t i k) := by
  refine (Accesses.memcpy _ _ _ _).congr ?_
  have hroom := fun h => ht.head_room (i := i) h (firstOf_type hi) (.inl ⟨rfl,rfl⟩)
  by_cases hd : (t.sec i).doff = headSz
  · simpa [hd,buildLen] using hroom hd
  · simp [hd,buildLen]

theorem prologue_size {out : Bytes} (h : prologue e t inp = some out) : out.size = t.newSize := by
  have hheader : Within anywhere (writeHeader e t inp) :=
    (Within.wr fun _ _ => trivial).bind <| (Within.wr fun _ _ => trivial).bind <|
      (Within.wr fun _ _ => trivial).bind <| (Within.wr fun _ _ => trivial).bind <|
      Within.read fun _ => (Within.wr fun _ _ => trivial).bind <|
      (Within.wr fun _ _ => trivial).bind <| (Within.wr fun _ _ => trivial).bind <|
      (Within.wr fun _ _ => trivial).bind <| Within.read fun _ => Within.wr fun _ _ => trivial
  have hhead : Within anywhere (writeHead e t inp) := by
    unfold writeHead
    split
    · exact Within.pure
    · exact (Within.memcpy fun _ _ => trivial).bind <|
        Within.read fun _ => Within.wr fun _ _ => trivial
  rw [prologue,Option.bind_eq_bind,Option.bind_eq_some_iff] at h
  obtain ⟨b,hb,h⟩ := h
  have hbsize : b.size = t.newSize := (hheader _ b hb).size.trans (size_zeros _)
  split at h
  · rename_i i k _ _
    have hkey : Within anywhere fun out => writeBuildKey t i k out :=
      Within.memcpy fun _ _ => trivial
    exact ((hkey.bind hhead) b out h).size.trans hbsize
  · exact (hhead b out h).size.trans hbsize

/-- An offset behind the end of the file cannot be copied. -/
theorem doff_le_of_copySection (hlen : inp.size = t.len) (hl : inp.size < 2147483648)
    (hsz : headSz ≤ inp.size) {od : ℕ} (hod : od ∈ t.doffs) (hlt : od < 4294967296)
    (h : (copySection e t inp out od).isSome) : od ≤ inp.size := by
  by_contra hgt
  obtain ⟨w,ho,-,-⟩ := t.owner_spec hod
  have hr := t.rlen_of_gt hlt (by omega)
  have hnone : out.memcpy (t.newDoff w) inp od (t.rlen od) = none :=
    if_neg (by omega)
  rw [copySection,if_neg (by omega),ho] at h
  simp [hnone] at h

/-- The loop over some of the offsets. -/
theorem sections_isSome (ht : t.Bounded) (hgrow : t.grow = e.grow) (hlen : inp.size = t.len)
    (hsz : headSz ≤ inp.size) (hout : out.size = t.newSize) {ds : List ℕ}
    (hds : ∀ od ∈ ds, od ∈ t.doffs) :
    (Runs.run (copySection e t inp) out ds).isSome ↔
      (∀ w, t.IsLast w → (t.sec w).doff ∈ ds → (t.sec w).doff ≠ headSz → SectionOk e t inp w) ∧
        Runs.Along (copySection e t inp) (fun out od =>
          ∀ w, t.IsLast w → (t.sec w).doff = od → od ≠ headSz → ScansOk e t inp out w) out ds := by
  have hstep : ∀ out : Bytes, out.size = t.newSize → ∀ od ∈ ds,
      ((copySection e t inp out od).isSome ↔
        (∀ w, t.IsLast w → (t.sec w).doff = od → od ≠ headSz → SectionOk e t inp w) ∧
        ∀ w, t.IsLast w → (t.sec w).doff = od → od ≠ headSz → ScansOk e t inp out w) := by
    intro out hout od hod
    by_cases hne : od = headSz
    · subst hne
      simp [copySection]
    · obtain ⟨i,rfl⟩ := t.mem_doffs.mp (hds od hod)
      obtain ⟨w,hw,hwi⟩ := t.exists_isLast i
      rw [← hwi] at hne ⊢
      rw [copySection_isSome ht hgrow hlen hsz hw hne hout]
      have honly : ∀ v, t.IsLast v → (t.sec v).doff = (t.sec w).doff → v = w :=
        fun v hv hvw => le_antisymm (hw v hvw) (hv w hvw.symm)
      constructor
      · rintro ⟨hs,hscan⟩
        exact ⟨fun v hv hvw _ => honly v hv hvw ▸ hs,fun v hv hvw _ => honly v hv hvw ▸ hscan⟩
      · exact fun h => ⟨h.1 w hw rfl hne,h.2 w hw rfl hne⟩
  have halong := Runs.along_congr
    (fun out od out' hs h => (copySection_within e t inp od out out' h).size.trans hs) hstep hout
  rw [Runs.run_isSome_iff]
  constructor
  · intro hrun
    have h := halong.mp hrun
    have hsections : Runs.Along (copySection e t inp) (fun _ od =>
        ∀ w, t.IsLast w → (t.sec w).doff = od → od ≠ headSz → SectionOk e t inp w) out ds :=
      h.imp fun _ _ _ hg => hg.1
    obtain ⟨u,hu⟩ := Option.isSome_iff_exists.mp ((Runs.run_isSome_iff _ _).mpr hrun)
    exact ⟨fun w hw hmem hne => hsections.mem hu _ hmem w hw rfl hne,h.imp fun _ _ _ hg => hg.2⟩
  · rintro ⟨hs,hscan⟩
    exact halong.mpr (hscan.and_mem fun od hod w hw hwd hne =>
      hs w hw (hwd ▸ hod) (hwd ▸ hne))

/-- The rest of the output is always in range. -/
theorem writeSections_isSome (hn : headSz ≤ t.newSize) (hout : out.size = t.newSize) :
    (writeSections e t inp out).isSome ↔
      (Runs.run (copySection e t inp) out t.doffs).isSome := by
  have hrest : Accesses t.newSize True fun out => Runs.run (writeEntry t) out Table.indices >>=
      writeKeys e t :=
    ((Accesses.run fun i _ => writeEntry_accesses i hn).bind fun _ => writeKeys_accesses hn).congr
      (by simp)
  have hsize : Within anywhere fun out => Runs.run (copySection e t inp) out t.doffs :=
    Within.run fun od _ => copySection_within e t inp od
  unfold writeSections
  cases hr : Runs.run (copySection e t inp) out t.doffs with
  | none => simp
  | some out' =>
    rw [bind_of_eq_some rfl]
    exact (hrest.ok out' ((hsize out out' hr).size.trans hout)).trans (by simp)

/-- What is written before the sections is in range if the blocks at the front are. -/
theorem prologue_isSome (ht : t.Bounded) (hsz : headSz ≤ inp.size)
    (hkey : (∃ i, (t.sec i).type = 2) → key e ≠ none) : (prologue e t inp).isSome ↔
      (∀ i, t.firstOf 2 = some i → (t.sec i).doff ≠ headSz → t.newDoff i + buildLen ≤ t.newSize) ∧
      ∀ i, t.firstOf 10 = some i → headSz + 64 ≤ inp.size ∧
        ((t.sec i).doff ≠ headSz → t.newDoff i + 64 ≤ t.newSize) := by
  have hn := ht.newSize_spec.1
  have hheader := (writeHeader_accesses (e := e) (t := t) hsz t.newSize).congr
    (iff_of_true (by simp only [headSz] at hn; omega) trivial)
  have hhead := writeHead_accesses (e := e) ht hsz
  rw [prologue,hheader.bind_isSome (size_zeros _),true_and]
  obtain ⟨b,hb⟩ := Option.isSome_iff_exists.mp ((hheader.ok _ (size_zeros _)).mpr trivial)
  have hbsize := hheader.size _ b (size_zeros _) hb
  simp only [hb,Option.some_inj,forall_eq']
  cases hi : t.firstOf 2 with
  | none => simpa using hhead.ok b hbsize
  | some i =>
    cases hk : key e with
    | none => exact absurd hk (hkey ⟨i,firstOf_type hi⟩)
    | some k =>
      simpa using ((writeBuildKey_accesses ht hi k).bind fun _ => hhead).ok b hbsize

/-- Past the early returns. -/
theorem inRange_iff_body (hgrow : t.grow = e.grow) (hlen : inp.size = t.len)
    (hl : inp.size < 2147483648) (hsz : headSz ≤ inp.size)
    (hdoff : ∀ i, (t.sec i).doff < 4294967296)
    (hkey : (∃ i, (t.sec i).type = 2) → key e ≠ none) :
    (prologue e t inp >>= writeSections e t inp).isSome ↔ InRange e t inp := by
  constructor
  · intro h
    cases hp : prologue e t inp with
    | none => simp [hp] at h
    | some out =>
      rw [bind_of_eq_some hp,writeSections] at h
      cases hr : Runs.run (copySection e t inp) out t.doffs with
      | none => simp [hr] at h
      | some out' =>
        have hrun := (Runs.run_isSome_iff out t.doffs).mp (Option.isSome_of_mem hr)
        have hle : Runs.Along (copySection e t inp) (fun _ od => od ≤ inp.size) out t.doffs :=
          hrun.imp fun _ od hod hg => by
            obtain ⟨i,rfl⟩ := t.mem_doffs.mp hod
            exact doff_le_of_copySection hlen hl hsz hod (hdoff i) hg
        have hall : ∀ i, (t.sec i).doff ≤ inp.size := fun i => hle.mem hr _ (t.doff_mem i)
        have ht : t.Bounded := ⟨by omega,fun i => hlen ▸ hall i⟩
        obtain ⟨hbuild,hhead⟩ := (prologue_isSome ht hsz hkey).mp (by simp [hp])
        obtain ⟨hsec,hscan⟩ := (sections_isSome ht hgrow hlen hsz (prologue_size hp)
          fun _ => id).mp (Option.isSome_of_mem hr)
        refine ⟨hall,hbuild,hhead,fun w hw hne => hsec w hw (t.doff_mem w) hne,fun out₀ hp₀ => ?_⟩
        obtain rfl : out = out₀ := Option.some_inj.mp (hp.symm.trans hp₀)
        exact hscan
  · intro h
    have ht : t.Bounded := ⟨by omega,fun i => hlen ▸ h.doff i⟩
    obtain ⟨out,hp⟩ := Option.isSome_iff_exists.mp
      ((prologue_isSome ht hsz hkey).mpr ⟨h.buildKey,h.head⟩)
    rw [bind_of_eq_some hp,writeSections_isSome ht.newSize_spec.1 (prologue_size hp)]
    exact (sections_isSome ht hgrow hlen hsz (prologue_size hp) fun _ => id).mpr
      ⟨fun w hw _ hne => h.sections w hw hne,h.scans out hp⟩

/-- The translation of an accepted file for which the buffer has been allocated. -/
theorem translate_eq (hacc : Accepted inp) (hcalloc : e.calloc) (hkey :
    (∃ i, ((tableOf e.grow inp).sec i).type = 2) → key e ≠ none) :
    translate e inp = (prologue e (tableOf e.grow inp) inp >>=
      writeSections e (tableOf e.grow inp) inp) >>= fun out => some (.ok out) := by
  have hcheck : checkHeader inp = some 0 := hacc
  rw [translate,bind_of_eq_some hcheck,if_neg (by simp),
    bind_of_eq_some (readTable_eq e.grow (accepted_iff.mp hacc).1),if_neg (by simp [hcalloc]),
    prologue]
  generalize tableOf e.grow inp = t at hkey
  cases hw : writeHeader e t inp (.zeros t.newSize) with
  | none => rfl
  | some out =>
    rw [bind_of_eq_some rfl,bind_of_eq_some rfl]
    cases hi : t.firstOf 2 with
    | none =>
      simp only [writeSections,Option.bind_eq_bind,Option.bind_assoc,Option.pure_def]
    | some i =>
      cases hk : key e with
      | none => exact absurd hk (hkey ⟨i,firstOf_type hi⟩)
      | some k => simp only [Option.bind_eq_bind,Option.bind_assoc,Option.pure_def]

/-! ### The early returns -/

theorem translate_rejected (hacc : ¬ Accepted inp) :
    ∃ code, translate e inp = some (.error code) := by
  obtain ⟨code,hcode⟩ : ∃ code, checkHeader inp = some code := ⟨_,checkHeader_eq inp⟩
  have hne : code ≠ 0 := by
    rintro rfl
    exact hacc hcode
  refine ⟨code,?_⟩
  rw [translate,bind_of_eq_some hcode,if_pos hne]
  rfl

theorem translate_noMemory (hacc : Accepted inp) (hcalloc : ¬ e.calloc) :
    translate e inp = some (.error (-10)) := by
  have hcheck : checkHeader inp = some 0 := hacc
  rw [translate,bind_of_eq_some hcheck,if_neg (by simp),
    bind_of_eq_some (readTable_eq e.grow (accepted_iff.mp hacc).1),if_pos hcalloc]
  rfl

/-- Without a key only the header has been written. -/
theorem translate_noKey (hacc : Accepted inp) (hcalloc : e.calloc)
    (h2 : ∃ i, ((tableOf e.grow inp).sec i).type = 2) (hkey : key e = none) :
    translate e inp = writeHeader e (tableOf e.grow inp) inp (.zeros (tableOf e.grow inp).newSize)
      >>= fun _ => some (.error (-11)) := by
  have hcheck : checkHeader inp = some 0 := hacc
  obtain ⟨j,hj⟩ := Option.isSome_iff_exists.mp (firstOf_isSome.mpr h2)
  rw [translate,bind_of_eq_some hcheck,if_neg (by simp),
    bind_of_eq_some (readTable_eq e.grow (accepted_iff.mp hacc).1),if_neg (by simp [hcalloc]),hj,hkey]
  rfl

/-- The accesses of the translation: all of them are in range if and only if it
returns early or the file is as `InRange` says. -/
theorem translate_isSome_iff (e : Env) (inp : Bytes) (hlen : inp.size < 2147483648) :
    (translate e inp).isSome ↔ ReturnsEarly e (tableOf e.grow inp) inp ∨
      InRange e (tableOf e.grow inp) inp := by
  by_cases hacc : Accepted inp
  case neg =>
    obtain ⟨code,hcode⟩ := translate_rejected (e := e) hacc
    exact iff_of_true (by rw [hcode]; rfl) (.inl (.inl hacc))
  by_cases hcalloc : e.calloc
  case neg =>
    exact iff_of_true (by rw [translate_noMemory hacc hcalloc]; rfl)
      (.inl (.inr (.inl (by simpa using hcalloc))))
  have hsz := (accepted_iff.mp hacc).1
  by_cases hkey : (∃ i, ((tableOf e.grow inp).sec i).type = 2) → key e ≠ none
  · have hno : ¬ ReturnsEarly e (tableOf e.grow inp) inp := by
      rintro (h | h | ⟨-,h,hk⟩)
      · exact h hacc
      · simp [hcalloc] at h
      · exact hkey h hk
    rw [or_iff_right hno,translate_eq hacc hcalloc hkey,
      ← inRange_iff_body rfl rfl hlen hsz secAt_doff_lt hkey]
    cases prologue e (tableOf e.grow inp) inp >>= writeSections e (tableOf e.grow inp) inp <;> rfl
  · obtain ⟨h2,hk⟩ := Classical.not_imp.mp hkey
    rw [not_not] at hk
    rw [translate_noKey hacc hcalloc h2 hk,
      (writeHeader_accesses hsz _).bind_isSome (size_zeros _)]
    refine (and_iff_left fun _ _ => rfl).trans ⟨fun h => .inl (.inr (.inr ⟨h,h2,hk⟩)),?_⟩
    rintro ((h | h | h) | h)
    · exact absurd hacc h
    · simp [hcalloc] at h
    · exact h.1
    · have ht : (tableOf e.grow inp).Bounded := ⟨hlen,h.doff⟩
      have := ht.newSize_spec.1
      simp only [headSz] at this
      omega

/-- A translation that succeeds has gone through all of its accesses. -/
theorem of_translate_ok (hlen : inp.size < 2147483648) (h : translate e inp = some (.ok out)) :
    Accepted inp ∧ (tableOf e.grow inp).Bounded ∧ ∃ b,
      prologue e (tableOf e.grow inp) inp = some b ∧
      writeSections e (tableOf e.grow inp) inp b = some out := by
  by_cases hacc : Accepted inp
  case neg =>
    obtain ⟨code,hcode⟩ := translate_rejected (e := e) hacc
    simp [hcode] at h
  by_cases hcalloc : e.calloc
  case neg => simp [translate_noMemory hacc hcalloc] at h
  by_cases hkey : (∃ i, ((tableOf e.grow inp).sec i).type = 2) → key e ≠ none
  case neg =>
    obtain ⟨h2,hk⟩ := Classical.not_imp.mp hkey
    rw [translate_noKey hacc hcalloc h2 (not_not.mp hk),Option.bind_eq_bind,
      Option.bind_eq_some_iff] at h
    obtain ⟨b,-,hb⟩ := h
    simp at hb
  rw [translate_eq hacc hcalloc hkey,Option.bind_eq_bind,Option.bind_eq_some_iff] at h
  obtain ⟨b,hb,h⟩ := h
  obtain rfl : b = out := by simpa using h
  have hin := (inRange_iff_body rfl rfl hlen (accepted_iff.mp hacc).1 secAt_doff_lt hkey).mp
    (Option.isSome_of_mem hb)
  obtain ⟨c,hc,hb⟩ := Option.bind_eq_some_iff.mp hb
  exact ⟨hacc,⟨hlen,hin.doff⟩,c,hc,hb⟩

/-- The globals as they are set in the source, with a key already loaded. -/
def sampleEnv : Env := ⟨true,3,0xa4a8ccc2,fun _ => 0x41,none,true⟩

/-- A block at 0x1f0, a code section with one object, and a pointer to it. -/
def smallFile : Bytes := sampleFile 0x2a0 [⟨2,0x1f0,20,0,0⟩,⟨10,0x1f0,64,0,0⟩,⟨1,0x250,64,0,0⟩,
  ⟨9,0x290,16,0,0⟩] [(0x264,0x1c),(0x268,1),(0x270,0x30),(0x280,0x12345678),(0x290,0x250)]

/-- A file that ends with its table, so that the block at 0x1f0 lies behind it. -/
def cutFile : Bytes := sampleFile 0x1f0 [⟨10,0x1f0,64,0,0⟩] []

theorem inRange_smallFile : ReturnsEarly sampleEnv (tableOf true smallFile) smallFile ∨
    InRange sampleEnv (tableOf true smallFile) smallFile :=
  (translate_isSome_iff sampleEnv smallFile (by decide)).mp (by decide +kernel)

theorem translate_cutFile : cutFile.size < 2147483648 ∧ translate sampleEnv cutFile = none :=
  ⟨by decide,Option.isNone_iff_eq_none.mp (by decide +kernel)⟩

end Xlate
end Kitakami

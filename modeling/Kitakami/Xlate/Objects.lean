import Kitakami.Xlate.Cells

/-!
# Growing the code section

What the pass over a type-1 section does to its objects, where their table lies
below them: the objects move up as they are and their offsets with them, and the
entries that are added to the table go to clean room in front of the objects.
-/

namespace Kitakami
namespace Xlate

open Bytes

/-- Where object `k` starts in a code section. -/
def objOff (inp : Bytes) (od k : ℕ) : ℕ := inp.word (u32 (od + objTab inp od + k*objEntSz + 4))

/-- The object table lies below the objects, and they lie in the section. -/
structure TableFits (inp : Bytes) (od orl : ℕ) : Prop where
  cnt : 1 ≤ objCnt inp od
  tab : 0x1c ≤ objTab inp od
  tabEnd : objTab inp od + objCnt inp od*objEntSz ≤ objIns inp od
  objects : ∀ k < objCnt inp od, objIns inp od ≤ objOff inp od k ∧ objOff inp od k ≤ orl

/-- A code section whose room in the new file is large enough for it to grow. -/
structure Growable (inp : Bytes) (n od nb orl : ℕ) : Prop where
  old : od + orl ≤ inp.size
  len : inp.size < 2147483648
  new : nb + orl + codeGrow ≤ n
  size : n < 4294960000
  table : TableFits inp od orl

variable {e : Env} {t : Table} {inp b m c out : Bytes} {n od nb orl : ℕ} {w : Fin 13}

theorem objOff_zero (inp : Bytes) (od : ℕ) : objOff inp od 0 = objIns inp od := by
  simp [objOff,objIns]

theorem TableFits.ins_le (h : TableFits inp od orl) : objIns inp od ≤ orl :=
  (objOff_zero inp od).ge.trans (h.objects 0 h.cnt).2

/-! ## The move -/

/-- The offset words of the table, with what is written to them. -/
def offsetCells (inp : Bytes) (od nb : ℕ) : List (ℕ × ℕ) :=
  (List.range (objCnt inp od)).map fun k =>
    (nb + objTab inp od + k*objEntSz + 4,objOff inp od k + codeGrow)

/-- The section before its table is extended. -/
structure Moved (inp m : Bytes) (od nb orl : ℕ) : Prop where
  below : ∀ x < objIns inp od, 4 ≤ x → ¬ Covered (offsetCells inp od nb) (nb + x) →
    m.get (nb + x) = inp.get (od + x)
  gap : ∀ x, objIns inp od ≤ x → x < objIns inp od + codeGrow → m.get (nb + x) = 0
  above : ∀ x, objIns inp od ≤ x → x < orl → m.get (nb + (x + codeGrow)) = inp.get (od + x)
  offset : ∀ k < objCnt inp od,
    m.word (nb + objTab inp od + k*objEntSz + 4) = objOff inp od k + codeGrow

/-- The offset words lie between the header and the objects. -/
theorem Growable.covered (g : Growable inp n od nb orl) {x : ℕ}
    (h : Covered (offsetCells inp od nb) x) :
    nb + 0x1c ≤ x ∧ x < nb + objTab inp od + objCnt inp od*objEntSz := by
  obtain ⟨cell,hcell,hx⟩ := h
  obtain ⟨k,hk,rfl⟩ := List.mem_map.mp hcell
  have hk := List.mem_range.mp hk
  have htab := g.table.tab
  simp only [objEntSz] at *
  omega

theorem moveEntries_eq_run (g : Growable inp n od nb orl)
    (h : Runs.run (moveEntry inp od nb (objTab inp od)) b (List.range (objCnt inp od)) = some m) :
    Runs.run writeWord b (offsetCells inp od nb) = some m := by
  rw [offsetCells,List.map_eq_flatMap]
  refine Runs.run_flatMap h fun s u k hk hs => ?_
  have hk := List.mem_range.mp hk
  have htab := g.table.tabEnd
  have hins := g.table.ins_le
  have hnew := g.new
  have hsize := g.size
  simp only [objEntSz,codeGrow] at *
  obtain ⟨v,hv,hs⟩ := Option.bind_eq_some_iff.mp hs
  obtain ⟨-,rfl⟩ := rd_eq_some.mp hv
  rw [u32_of_lt (x:=nb + _ + _ + _) (by simp only [objEntSz]; omega)] at hs
  rw [Runs.run_cons_eq_some]
  exact ⟨u,hs,rfl⟩

theorem offsetCells_apart : (offsetCells inp od nb).Pairwise fun c d =>
    c.1 + 4 ≤ d.1 ∨ d.1 + 4 ≤ c.1 := by
  rw [offsetCells,List.pairwise_map]
  refine List.pairwise_lt_range.imp fun {i j} hij => ?_
  simp only [objEntSz]
  omega

theorem movedCode_spec (g : Growable inp n od nb orl)
    (h : movedCode e inp od nb orl b = some m) : Moved inp m od nb orl := by
  have hins := g.table.ins_le
  have htab := g.table.tab
  have hend := g.table.tabEnd
  have hcnt := g.table.cnt
  have hnew := g.new
  have hsize := g.size
  have hcov : ∀ {x}, Covered (offsetCells inp od nb) x → _ := fun {x} => g.covered
  obtain ⟨b₁,h₁,h⟩ := Option.bind_eq_some_iff.mp h
  obtain ⟨v,-,h⟩ := Option.bind_eq_some_iff.mp h
  obtain ⟨b₂,h₂,h⟩ := Option.bind_eq_some_iff.mp h
  obtain ⟨b₃,h₃,h⟩ := Option.bind_eq_some_iff.mp h
  obtain ⟨b₄,h₄,h⟩ := Option.bind_eq_some_iff.mp h
  simp only [codeGrow,objEntSz] at *
  rw [memmove,u32_of_lt (by omega),u32_of_lt (by omega),sub32_of_le hins (by omega)] at h₃
  rw [u32_of_lt (by omega)] at h₄
  obtain ⟨-,rfl⟩ := memcpy_eq_some.mp h₁
  obtain ⟨-,rfl⟩ := wr_eq_some.mp h₂
  obtain ⟨-,rfl⟩ := memcpy_eq_some.mp h₃
  obtain ⟨-,rfl⟩ := memset_eq_some.mp h₄
  have hrun := moveEntries_eq_run g h
  have hframe := frame_of_writes hrun
  constructor
  · intro x hx h4 hc
    rw [hframe.get _ hc,get_put_outside _ _ (by omega),get_put_outside _ _ (by omega),
      get_put_outside _ _ (by omega),get_put_inside _ _ (by omega),Nat.add_sub_cancel_left]
  · intro x hx hlt
    simp only [codeGrow] at hlt
    rw [hframe.get _ fun hc => by have := hcov hc; omega,get_put_inside _ _ (by omega)]
  · intro x hx hlt
    simp only [codeGrow]
    rw [hframe.get _ fun hc => by have := hcov hc; omega,get_put_outside _ _ (by omega),
      get_put_inside _ _ (by omega),get_put_outside _ _ (by omega),get_put_inside _ _ (by omega)]
    congr 1
    omega
  · intro k hk
    have hw := word_of_writes offsetCells_apart hrun _
      (List.mem_map.mpr ⟨k,List.mem_range.mpr hk,rfl⟩)
    have := (g.table.objects k hk).2
    rw [u32_of_lt (by simp only [codeGrow]; omega)] at hw
    exact hw

/-! ## The added entries -/

/-- The words of an entry at `o`, with what is written to them. -/
def entryCells (o type last : ℕ) : List (ℕ × ℕ) :=
  [(o,type),(o + 4,last),(o + 8,0),(o + 12,0),(o + 16,0)]

def addedCells (inp : Bytes) (od nb last : ℕ) : List (ℕ × ℕ) :=
  (List.range' (objCnt inp od) (objTypes - objCnt inp od)).flatMap fun type =>
    entryCells (nb + objTab inp od + type*objEntSz) type last

theorem mem_entryCells {o type last : ℕ} {cell : ℕ × ℕ} (h : cell ∈ entryCells o type last) :
    o ≤ cell.1 ∧ cell.1 ≤ o + 16 ∧ (cell.2 = type ∨ cell.2 = last ∨ cell.2 = 0) := by
  simp only [entryCells,List.mem_cons,List.not_mem_nil,or_false] at h
  rcases h with rfl | rfl | rfl | rfl | rfl <;> simp

theorem mem_addedCells {last : ℕ} {cell : ℕ × ℕ} (h : cell ∈ addedCells inp od nb last) :
    nb + objTab inp od + objCnt inp od*objEntSz ≤ cell.1 ∧
      cell.1 + 4 ≤ nb + objTab inp od + objTypes*objEntSz := by
  obtain ⟨type,htype,hcell⟩ := List.mem_flatMap.mp h
  have htype := List.mem_range'_1.mp htype
  have hrow := mem_entryCells hcell
  simp only [objTypes,objEntSz] at *
  omega

theorem addedCells_apart {last : ℕ} : (addedCells inp od nb last).Pairwise fun c d =>
    c.1 + 4 ≤ d.1 ∨ d.1 + 4 ≤ c.1 := by
  rw [addedCells,List.pairwise_flatMap]
  constructor
  · intro type _
    simp [entryCells]
  · refine (List.pairwise_lt_range' (n:=objTypes - objCnt inp od)).imp fun {i j} hij => ?_
    intro x hx y hy
    have hx := mem_entryCells hx
    have hy := mem_entryCells hy
    simp only [objEntSz] at *
    omega

/-- The section whose table has been extended. -/
structure Extended (inp m c : Bytes) (od nb : ℕ) : Prop where
  room : objTab inp od + objTypes*objEntSz ≤ objIns inp od + codeGrow
  clean : ∀ x, objTab inp od + objCnt inp od*objEntSz ≤ x →
    x < objTab inp od + objTypes*objEntSz → m.get (nb + x) = 0
  count : c.word (nb + objTabCnt) = objTypes
  entries : ∀ cell ∈ addedCells inp od nb
    (m.word (nb + objTab inp od + (objCnt inp od - 1)*objEntSz + 4)), c.word cell.1 = cell.2
  frame : Frame (fun x => nb + objTabCnt ≤ x ∧ x < nb + objTabCnt + 4 ∨
    nb + objTab inp od + objCnt inp od*objEntSz ≤ x ∧
      x < nb + objTab inp od + objTypes*objEntSz) m c

theorem addEntries_eq_run {last : ℕ} (hroom : nb + objTab inp od + objTypes*objEntSz < 4294967296)
    (h : Runs.run (addEntry nb (objTab inp od) last) b
      (List.range' (objCnt inp od) (objTypes - objCnt inp od)) = some m) :
    Runs.run writeWord b (addedCells inp od nb last) = some m := by
  refine Runs.run_flatMap h fun s u type htype hs => ?_
  have htype := List.mem_range'_1.mp htype
  simp only [objTypes,objEntSz] at *
  rw [addEntry] at hs
  simp only [objEntSz] at hs
  have hu : ∀ k ≤ 16, u32 (nb + objTab inp od + type*20 + k) = nb + objTab inp od + type*20 + k :=
    fun k hk => u32_of_lt (by omega)
  have hu₀ : u32 (nb + objTab inp od + type*20) = nb + objTab inp od + type*20 := hu 0 (by decide)
  rw [hu₀,hu 4 (by decide),hu 8 (by decide),hu 12 (by decide),hu 16 (by decide)] at hs
  simpa [Runs.run_cons,writeWord,entryCells,objEntSz] using hs

theorem extended_of_extends (g : Growable inp n od nb orl) (hm : Moved inp m od nb orl)
    (hcnt : objCnt inp od < objTypes)
    (hext : Extends nb (objTab inp od) (objCnt inp od) m)
    (hrun : Runs.run (addEntry nb (objTab inp od)
        (m.word (u32 (nb + objTab inp od + sub32 (objCnt inp od) 1*objEntSz + 4)))) m
      (List.range' (objCnt inp od) (objTypes - objCnt inp od)) = some b)
    (hwr : b.wr (u32 (nb + objTabCnt)) objTypes = some c) : Extended inp m c od nb := by
  have hins := g.table.ins_le
  have hone := g.table.cnt
  have htab := g.table.tab
  have hend := g.table.tabEnd
  have hnew := g.new
  have hsize := g.size
  have hfirst := hm.offset 0 hone
  rw [Nat.zero_mul,Nat.add_zero,objOff_zero] at hfirst
  obtain ⟨hclean,hroom⟩ := hext
  simp only [objTypes,objEntSz,objTabCnt,codeGrow] at *
  rw [u32_of_lt (x:=nb + objTab inp od + 4) (by omega),hfirst,
    u32_of_lt (x:=objTab inp od + objCnt inp od*20) (by omega),u32_of_lt (by omega)] at hroom
  rw [u32_of_lt (x:=objTab inp od + objCnt inp od*20) (by omega)] at hclean
  rw [sub32_of_le hone (by omega),u32_of_lt (by omega)] at hrun
  rw [u32_of_lt (by omega)] at hwr
  have hrun := addEntries_eq_run (by simp only [objTypes,objEntSz]; omega) hrun
  have hframe := frame_of_writes hrun
  obtain ⟨-,rfl⟩ := wr_eq_some.mp hwr
  refine ⟨by simp only [objTypes,objEntSz,codeGrow]; omega,fun x hx hlt => ?_,?_,?_,?_⟩
  · simp only [objTypes,objEntSz] at hx hlt
    have hz := (of_isClean hclean (x - (objTab inp od + objCnt inp od*20))
      (List.mem_range.mpr (by omega))).2
    rw [u32_of_lt (by omega)] at hz
    convert hz using 2
    omega
  · rw [objTabCnt,word_put_byteOf]
    exact u32_of_lt (by decide)
  · intro cell hcell
    have hlow := (mem_addedCells hcell).1
    have hw := word_of_writes addedCells_apart hrun cell hcell
    simp only [objEntSz] at hlow
    rw [(frame_put b _ 4 _).word fun k hk => by omega,hw]
    obtain ⟨type,htype,hcell⟩ := List.mem_flatMap.mp hcell
    have htype := List.mem_range'_1.mp htype
    have hlt : type < objTypes := by omega
    have hlast := m.word_lt (nb + objTab inp od + (objCnt inp od - 1)*20 + 4)
    refine u32_of_lt ?_
    rcases (mem_entryCells hcell).2.2 with h | h | h <;> rw [h]
    · exact hlt.trans (by decide)
    · exact hlast
    · decide
  · refine (hframe.mono fun x hx => .inr ?_).trans ((frame_put b _ 4 _).mono fun x hx => .inl hx)
    obtain ⟨cell,hcell,hx⟩ := hx
    have := mem_addedCells hcell
    omega

/-! ## The grown section -/

/-- The bytes in front of the objects that are written anew: the header word, the
offset words, and the count and the added entries if the table is extended. -/
def Rewritten (inp c : Bytes) (od nb x : ℕ) : Prop :=
  x < 4 ∨ Covered (offsetCells inp od nb) (nb + x) ∨
    (objCnt inp od < objTypes ∧ c.word (nb + objTabCnt) = objTypes) ∧
      (objTabCnt ≤ x ∧ x < objTabCnt + 4 ∨ objTab inp od + objCnt inp od*objEntSz ≤ x ∧
        x < objTab inp od + objTypes*objEntSz)

/-- An added entry has no words but its type and the offset of the last object, and
neither an object nor a byte that is not zero is lost to it. -/
structure AddedEntry (inp m c : Bytes) (od nb type : ℕ) : Prop where
  kind : c.word (nb + objTab inp od + type*objEntSz) = type
  offset : c.word (nb + objTab inp od + type*objEntSz + 4) =
    c.word (nb + objTab inp od + (objCnt inp od - 1)*objEntSz + 4)
  sizes : ∀ k ∈ [8,12,16], c.word (nb + objTab inp od + type*objEntSz + k) = 0
  clean : ∀ x, objTab inp od + type*objEntSz ≤ x → x < objTab inp od + type*objEntSz + objEntSz →
    m.get (nb + x) = 0 ∧ ∀ k < objCnt inp od, x < objOff inp od k + codeGrow

/-- The objects of a code section are kept when it grows from `m` on to `c`. -/
structure ObjectsKept (inp m c : Bytes) (od nb orl : ℕ) : Prop where
  below : ∀ x < objIns inp od, ¬ Rewritten inp c od nb x → c.get (nb + x) = inp.get (od + x)
  offset : ∀ k < objCnt inp od,
    c.word (nb + objTab inp od + k*objEntSz + 4) = objOff inp od k + codeGrow
  object : ∀ k < objCnt inp od, ∀ j, objOff inp od k + j < orl →
    c.get (nb + (objOff inp od k + codeGrow + j)) = inp.get (od + (objOff inp od k + j))
  added : c.word (nb + objTabCnt) = objTypes → ∀ type, objCnt inp od ≤ type → type < objTypes →
    AddedEntry inp m c od nb type

theorem Moved.object (hm : Moved inp m od nb orl) (hfit : TableFits inp od orl) {k j : ℕ}
    (hk : k < objCnt inp od) (hj : objOff inp od k + j < orl) :
    m.get (nb + (objOff inp od k + codeGrow + j)) = inp.get (od + (objOff inp od k + j)) := by
  have hlow := (hfit.objects k hk).1
  rw [Nat.add_right_comm]
  exact hm.above _ (by omega) hj

/-- The count of a section whose table is not extended is the old one. -/
theorem Moved.count (g : Growable inp n od nb orl) (hm : Moved inp m od nb orl) :
    m.word (nb + objTabCnt) = objCnt inp od := by
  have hend := g.table.tabEnd
  have htab := g.table.tab
  have hone := g.table.cnt
  simp only [objEntSz] at hend
  have hget : ∀ k < 4, m.get (nb + objTabCnt + k) = inp.get (od + objTabCnt + k) := by
    intro k hk
    rw [Nat.add_assoc,Nat.add_assoc]
    simp only [objTabCnt]
    refine hm.below _ (by omega) (by omega) fun hc => ?_
    have := (g.covered hc).1
    omega
  have h₀ := hget 0 (by decide)
  simp only [Nat.add_zero] at h₀
  simp only [objCnt,word,h₀,hget 1 (by decide),hget 2 (by decide),hget 3 (by decide)]

theorem objectsKept_of_moved (g : Growable inp n od nb orl) (hm : Moved inp m od nb orl)
    (hno : objCnt inp od < objTypes → m.word (nb + objTabCnt) ≠ objTypes) :
    ObjectsKept inp m m od nb orl := by
  refine ⟨fun x hx hr => ?_,hm.offset,fun k hk j hj => hm.object g.table hk hj,?_⟩
  · simp only [Rewritten,not_or] at hr
    exact hm.below x hx (not_lt.mp hr.1) hr.2.1
  · intro hcount type hlo hhi
    exact absurd hcount (hno (hlo.trans_lt hhi))

/-- An added entry lies behind the old table and in front of each object. -/
theorem TableFits.added_lt (h : TableFits inp od orl)
    (hroom : objTab inp od + objTypes*objEntSz ≤ objIns inp od + codeGrow) {type x : ℕ}
    (hlo : objCnt inp od ≤ type) (hhi : type < objTypes) (hx : objTab inp od + type*objEntSz ≤ x)
    (hlt : x < objTab inp od + type*objEntSz + objEntSz) :
    objTab inp od + objCnt inp od*objEntSz ≤ x ∧ x < objTab inp od + objTypes*objEntSz ∧
      ∀ k < objCnt inp od, x < objOff inp od k + codeGrow := by
  simp only [objEntSz,objTypes] at *
  refine ⟨by omega,by omega,fun k hk => ?_⟩
  have hlow := (h.objects k hk).1
  omega

theorem Extended.entry (hx : Extended inp m c od nb) {type : ℕ} (hlo : objCnt inp od ≤ type)
    (hhi : type < objTypes) :
    let o := nb + objTab inp od + type*objEntSz
    c.word o = type ∧
      c.word (o + 4) = m.word (nb + objTab inp od + (objCnt inp od - 1)*objEntSz + 4) ∧
      c.word (o + 8) = 0 ∧ c.word (o + 12) = 0 ∧ c.word (o + 16) = 0 := by
  intro o
  have hcells : ∀ cell ∈ entryCells o type _, c.word cell.1 = cell.2 := fun cell hcell =>
    hx.entries cell (List.mem_flatMap.mpr ⟨type,List.mem_range'_1.mpr (by omega),hcell⟩)
  simp only [entryCells,List.mem_cons,List.not_mem_nil,or_false,forall_eq_or_imp,forall_eq]
    at hcells
  exact hcells

theorem Extended.objectsKept (g : Growable inp n od nb orl) (hm : Moved inp m od nb orl)
    (hx : Extended inp m c od nb) (hcnt : objCnt inp od < objTypes) :
    ObjectsKept inp m c od nb orl := by
  have htab := g.table.tab
  have hend := g.table.tabEnd
  have hone := g.table.cnt
  have hroom := hx.room
  have hoffset : ∀ k < objCnt inp od, c.word (nb + objTab inp od + k*objEntSz + 4) =
      m.word (nb + objTab inp od + k*objEntSz + 4) := by
    intro k hk
    simp only [objEntSz,objTypes,codeGrow] at *
    refine hx.frame.word fun j hj => ?_
    simp only [objTabCnt,objEntSz]
    omega
  constructor
  · intro x hlt hr
    simp only [Rewritten,not_or,not_and] at hr
    obtain ⟨h4,hc,hext⟩ := hr
    have hext := hext ⟨hcnt,hx.count⟩
    rw [hx.frame.get _ (by omega)]
    exact hm.below x hlt (not_lt.mp h4) hc
  · intro k hk
    rw [hoffset k hk]
    exact hm.offset k hk
  · intro k hk j hj
    have hlow := (g.table.objects k hk).1
    rw [hx.frame.get _ ?_]
    · exact hm.object g.table hk hj
    · simp only [objEntSz,objTypes,codeGrow,objTabCnt] at *
      omega
  · intro _ type hlo hhi
    have hclean : ∀ x, objTab inp od + type*objEntSz ≤ x →
        x < objTab inp od + type*objEntSz + objEntSz →
        m.get (nb + x) = 0 ∧ ∀ k < objCnt inp od, x < objOff inp od k + codeGrow := by
      intro x hxlo hxhi
      obtain ⟨hin,hout,hobj⟩ := g.table.added_lt hroom hlo hhi hxlo hxhi
      exact ⟨hx.clean x hin hout,hobj⟩
    have hlastObj := hoffset (objCnt inp od - 1) (by omega)
    obtain ⟨htype,hlast,h8,h12,h16⟩ := hx.entry hlo hhi
    exact ⟨htype,hlast.trans hlastObj.symm,by simp [h8,h12,h16],hclean⟩

/-! ## The step over the section -/

theorem objectsKept_of_step (g : Growable inp n (t.sec w).doff (t.newDoff w) (t.rlen (t.sec w).doff))
    (hw : Code t w) (hgrow : e.grow) (h : copySection e t inp b (t.sec w).doff = some c) :
    ∃ m, movedCode e inp (t.sec w).doff (t.newDoff w) (t.rlen (t.sec w).doff) b = some m ∧
      ObjectsKept inp m c (t.sec w).doff (t.newDoff w) (t.rlen (t.sec w).doff) := by
  have hod : (t.sec w).doff < 2147483648 := by
    have := g.old
    have := g.len
    omega
  obtain ⟨m,hm,hext,hsame⟩ := exists_moved hod hw hgrow h
  have hmoved := movedCode_spec g hm
  have hcount := hmoved.count g
  refine ⟨m,hm,?_⟩
  by_cases hlt : objCnt inp (t.sec w).doff < objTypes
  · rcases extendTable_eq_some (hext hlt) with ⟨rfl,-⟩ | ⟨he,b',hrun,hwr⟩
    · exact objectsKept_of_moved g hmoved fun _ => by omega
    · exact (extended_of_extends g hmoved hlt he hrun hwr).objectsKept g hmoved hlt
  · obtain rfl := hsame hlt
    exact objectsKept_of_moved g hmoved fun h => absurd h hlt

/-- When a code section has been processed, it has grown and its objects are as they
were before. -/
theorem objects_kept (hlen : inp.size < 2147483648) (h : translate e inp = some (.ok out))
    (hgrow : e.grow) (hw : Code (tableOf e.grow inp) w)
    (hfit : TableFits inp (secAt inp w).doff ((tableOf e.grow inp).rlen (secAt inp w).doff)) :
    let t := tableOf e.grow inp
    let od := (secAt inp w).doff
    ∃ b m c, outputBefore e t inp od = some b ∧
      movedCode e inp od (t.newDoff w) (t.rlen od) b = some m ∧
      copySection e t inp b od = some c ∧ ObjectsKept inp m c od (t.newDoff w) (t.rlen od) := by
  have ht := (of_translate_ok hlen h).2.1
  obtain ⟨-,-,b,c,-,-,hb,hc,-,-⟩ := exists_step hlen h (Table.doff_mem _ w)
  have hroom := ht.room_grow hw.1 hw.2.1 hw.2.2 hgrow
  have hold := ht.end_le_len (Table.doff_mem _ w)
  have g : Growable inp (tableOf e.grow inp).newSize (secAt inp w).doff
      ((tableOf e.grow inp).newDoff w) ((tableOf e.grow inp).rlen (secAt inp w).doff) :=
    ⟨hold,hlen,hroom,(ht.room hw.2.1).2.2.2,hfit⟩
  obtain ⟨m,hm,hkept⟩ := objectsKept_of_step (t:=tableOf e.grow inp) g hw hgrow hc
  exact ⟨b,m,c,hb,hm,hc,hkept⟩

/-- A code section with all objects of the old format, and room for three more. -/
def fullTable : Bytes := sampleFile 0x6b4 [⟨2,0x1f0,20,0,0⟩,⟨10,0x1f0,64,0,0⟩,⟨1,0x250,0x464,0,0⟩]
  ([(0x264,0x1c),(0x268,53),(0x6b0,0x12345678)] ++
    (List.range 53).flatMap fun k => [(0x26c + k*20,k),(0x270 + k*20,0x450 + k%2*0x10)])

theorem objects_kept_fullTable : ∃ b m c,
    outputBefore sampleEnv (tableOf true fullTable) fullTable 0x250 = some b ∧
    movedCode sampleEnv fullTable 0x250 ((tableOf true fullTable).newDoff 2)
      ((tableOf true fullTable).rlen 0x250) b = some m ∧
    copySection sampleEnv (tableOf true fullTable) fullTable b 0x250 = some c ∧
    ObjectsKept fullTable m c 0x250 ((tableOf true fullTable).newDoff 2)
      ((tableOf true fullTable).rlen 0x250) :=
  objects_kept (e:=sampleEnv) (w:=2) (by decide) (translate_output (by decide +kernel)) rfl
    (by decide +kernel) ⟨by decide +kernel,by decide +kernel,by decide +kernel,by decide +kernel⟩

end Xlate
end Kitakami

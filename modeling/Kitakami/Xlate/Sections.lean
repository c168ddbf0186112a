import Kitakami.Base.Bytes
import Mathlib.Data.List.Sort
import Mathlib.Data.Fintype.Basic

/-!
# The section table of an Adreno program binary

What `translate_v2_to_v7` computes from the section table alone: the lengths and
new sizes of the sections, the sorted list of distinct offsets, the place of
each offset in the new file, and the relocation of a 32-bit offset. All
arithmetic is modulo 2^32, as in the code.
-/

namespace Kitakami
namespace Xlate

def magic : ℕ := 0xb10bcace
def verV2 : ℕ := 0x00010002
def verV7 : ℕ := 0x00010007
def h14V7 : ℕ := 0x00000301
def secCnt : ℕ := 13
def tabOff : ℕ := 0x50
def entSz : ℕ := 0x20
def symStride : ℕ := 96
def symBase : ℕ := 0x4c
def codeGrow : ℕ := 0x38
def objTabOff : ℕ := 0x14
def objTabCnt : ℕ := 0x18
def objEntSz : ℕ := 20
def objTypes : ℕ := 56
def buildLen : ℕ := 20

/-- The header with the section table, and the offset of the block behind it. -/
def headSz : ℕ := 0x1f0

/-- The fields of `Sec` that are read from the file. -/
structure Sec where
  type : ℕ
  doff : ℕ
  psz : ℕ
  count : ℕ
  next : ℕ
  deriving DecidableEq

/-- The table with what else the layout depends on: `g_code_grow` and the file's length. -/
structure Table where
  grow : Bool
  len : ℕ
  sec : Fin 13 → Sec

namespace Table

variable (t : Table)

def indices : List (Fin 13) := List.finRange 13

/-- The least section offset above `doff`, if it is below the end of the file. -/
def best (doff : ℕ) : ℕ :=
  indices.foldl (fun best j =>
    if (t.sec j).doff > doff ∧ (t.sec j).doff < best then (t.sec j).doff else best) t.len

/-- `rlen`; it depends on the section's offset only. -/
def rlen (doff : ℕ) : ℕ := sub32 (t.best doff) doff

/-- `new_psz`. -/
def newPsz (i : Fin 13) : ℕ :=
  match (t.sec i).type with
  | 5 => if (t.sec i).psz = 16 then 20 else (t.sec i).psz
  | 2 => buildLen
  | 1 => u32 ((t.sec i).psz + if t.grow then codeGrow else 0)
  | _ => (t.sec i).psz

/-- The distinct section offsets, in the order of the sections. -/
def distinct : List ℕ :=
  indices.foldl (fun ds i => if (t.sec i).doff ∈ ds then ds else ds ++ [(t.sec i).doff]) []

/-- `doffs` after the insertion sort. -/
def doffs : List ℕ := t.distinct.insertionSort (· ≤ ·)

theorem doffs_eq : t.doffs = t.distinct.insertionSort (· ≤ ·) := rfl

attribute [irreducible] doffs

/-- The owner of an offset with its length: the last of the longest sections there. -/
def owner (od : ℕ) : Option (Fin 13) × ℕ :=
  indices.foldl (fun r i =>
    if (t.sec i).doff = od ∧ t.rlen (t.sec i).doff ≥ r.2 then (some i,t.rlen (t.sec i).doff)
    else r) (none,0)

/-- The last section of a type at an offset. -/
def lastAt (od type : ℕ) : Option (Fin 13) :=
  indices.foldl (fun r i => if (t.sec i).doff = od ∧ (t.sec i).type = type then some i else r) none

/-- The first section of a type. -/
def firstOf (type : ℕ) : Option (Fin 13) := indices.find? fun i => (t.sec i).type = type

/-- The bytes that are reserved for an offset, before the alignment. -/
def placed (od : ℕ) : ℕ :=
  match t.owner od with
  | (none,orl) => orl
  | (some w,orl) =>
    if (t.sec w).type = 1 ∧ t.grow then u32 (orl + codeGrow)
    else if (t.sec w).type = 5 then if (t.sec w).psz = 16 then 20 else t.rlen (t.sec w).doff
    else orl

end Table

/-- `(x + (k-1)) & ~(k-1)` for a power of two. -/
def align (k x : ℕ) : ℕ := u32 (x + (k - 1))/k*k

/-- What the placement loop keeps: `cur`, the `new_doff` fields and the map. -/
structure Layout where
  cur : ℕ
  newDoff : Fin 13 → ℕ
  map : List (ℕ × ℕ)

def Layout.init : Layout := ⟨headSz,fun _ => 0,[]⟩

/-- Set `new_doff` of a section, where there is one. -/
def setNewDoff (newDoff : Fin 13 → ℕ) (i : Option (Fin 13)) (cur : ℕ) : Fin 13 → ℕ :=
  match i with
  | some i => Function.update newDoff i cur
  | none => newDoff

namespace Table

variable (t : Table)

/-- One round of the placement loop. -/
def place (l : Layout) (od : ℕ) : Layout :=
  if od = headSz then
    let ph := align 8 (u32 (l.cur + buildLen))
    { cur := u32 (ph + 64)
      newDoff := setNewDoff (setNewDoff l.newDoff (t.lastAt od 2) l.cur) (t.lastAt od 10) ph
      map := l.map ++ [(od,l.cur)] }
  else
    { cur := align 4 (u32 (l.cur + t.placed od))
      newDoff := fun i => if (t.sec i).doff = od then l.cur else l.newDoff i
      map := l.map ++ [(od,l.cur)] }

def layout : Layout := t.doffs.foldl t.place .init

def newDoff (i : Fin 13) : ℕ := t.layout.newDoff i
def newSize : ℕ := t.layout.cur

/-- `ph_new_base`. -/
def phNewBase : ℕ :=
  match t.firstOf 10 with
  | some i => t.newDoff i
  | none => 0

/-- The length that RELOC gives to an entry of the map. -/
def extent (old : ℕ) : ℕ :=
  if old = headSz then 64 + buildLen
  else
    indices.foldl (fun ml i =>
      if (t.sec i).doff = old ∧ t.rlen (t.sec i).doff > ml then t.rlen (t.sec i).doff else ml) 0

/-- RELOC_IF: the new offset, and whether the old one is matched. RELOC is the
first component. -/
def reloc (ov : ℕ) : ℕ × Bool :=
  if ov ≥ headSz ∧ ov < headSz + 64 then (u32 (t.phNewBase + (ov - headSz)),true)
  else
    match t.layout.map.find? fun e => ov ≥ e.1 ∧ ov < u32 (e.1 + t.extent e.1) with
    | some e => (u32 (e.2 + (ov - e.1)),true)
    | none => (ov,false)

end Table
end Xlate
end Kitakami

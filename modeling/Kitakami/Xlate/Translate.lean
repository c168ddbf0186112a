import Kitakami.Base.Runs
import Kitakami.Xlate.Header

/-!
# The translation

`translate_v2_to_v7`: the header of the new file, the build key, and the sections
in ascending order of their old offsets, each copied and then fixed up in place.
An access outside the input or the output gives `none`; a negative return code
is an `error`. The shim is a 32-bit library, so every offset is taken modulo
2^32.
-/

namespace Kitakami
namespace Xlate

/-- The globals of the translator, and what its calls to libc return. -/
structure Env where
  /-- `g_code_grow` -/
  grow : Bool
  /-- `g_symcount_delta` -/
  symcountDelta : ℤ
  /-- `g_driver_key` -/
  driverKey : ℕ
  /-- `g_build_key` -/
  buildKey : ℕ → UInt8
  /-- the key that `load_driver_key` finds -/
  loadedKey : Option (ℕ → UInt8)
  /-- `calloc` succeeds -/
  calloc : Bool

/-- `rd(in,0x20)+(uint32_t)g_symcount_delta` -/
def symcount (e : Env) (inp : Bytes) : Option ℕ := do
  return u32 ((← inp.rd 0x20) + (e.symcountDelta%4294967296).toNat)

/-- The key that goes into the type-2 section; it is loaded when it is needed first. -/
def key (e : Env) : Option (ℕ → UInt8) := if e.buildKey 0 ≠ 0 then some e.buildKey else e.loadedKey

def writeHeader (e : Env) (t : Table) (inp out : Bytes) : Option Bytes := do
  let out ← out.wr 0x00 magic
  let out ← out.wr 0x04 verV7
  let out ← out.wr 0x08 secCnt
  let out ← out.wr 0x0c tabOff
  let out ← out.wr 0x10 (← inp.rd 0x10)
  let out ← out.wr 0x14 h14V7
  let out ← out.wr 0x18 t.newSize
  let out ← out.wr 0x1c t.newSize
  out.wr 0x20 (← symcount e inp)

/-- The block of the first type-10 section. -/
def writeHead (e : Env) (t : Table) (inp out : Bytes) : Option Bytes :=
  match t.firstOf 10 with
  | none => some out
  | some i => do
    let out ← out.memcpy (t.newDoff i) inp headSz 64
    out.wr (t.newDoff i) (← symcount e inp)

/-! ## Type 1 -/

/-- One object's offset moves with the code. -/
def moveEntry (inp : Bytes) (od nb tab : ℕ) (out : Bytes) (k : ℕ) : Option Bytes := do
  out.wr (u32 (nb + tab + k*objEntSz + 4)) ((← inp.rd (u32 (od + tab + k*objEntSz + 4))) + codeGrow)

/-- Whether the bytes from an offset on are all zero; it stops at the first that is not. -/
def isClean (out : Bytes) (base : ℕ) : List ℕ → Option Bool
  | [] => some true
  | z :: zs => do if (← out.rdByte (u32 (base + z))) ≠ 0 then return false else isClean out base zs

/-- An object of a type that the old file does not know. -/
def addEntry (nb tab last : ℕ) (out : Bytes) (type : ℕ) : Option Bytes := do
  let entry := nb + tab + type*objEntSz
  let out ← out.wr (u32 entry) type
  let out ← out.wr (u32 (entry + 4)) last
  let out ← out.wr (u32 (entry + 8)) 0
  let out ← out.wr (u32 (entry + 12)) 0
  out.wr (u32 (entry + 16)) 0

/-- The object table is extended to all types, if there is room for them. -/
def extendTable (nb tab cnt : ℕ) (out : Bytes) : Option Bytes := do
  let last ← out.rd (u32 (nb + tab + sub32 cnt 1*objEntSz + 4))
  let need := (objTypes - cnt)*objEntSz
  let tabEnd := u32 (tab + cnt*objEntSz)
  let first ← out.rd (u32 (nb + tab + 4))
  let clean ← isClean out (nb + tabEnd) (List.range need)
  if clean ∧ first ≥ u32 (tabEnd + need) then
    let out ← Runs.run (addEntry nb tab last) out (List.range' cnt (objTypes - cnt))
    out.wr (u32 (nb + objTabCnt)) objTypes
  else return out

/-- The code moves up by `CODE_GROW` from the first object on. -/
def shiftCode (inp : Bytes) (od nb orl tab cnt ins : ℕ) (out : Bytes) : Option Bytes := do
  let out ← out.memmove (u32 (nb + ins + codeGrow)) (u32 (nb + ins)) (sub32 orl ins)
  let out ← out.memset (u32 (nb + ins)) 0 codeGrow
  Runs.run (moveEntry inp od nb tab) out (List.range cnt)

def growCode (inp : Bytes) (od nb orl : ℕ) (out : Bytes) : Option Bytes := do
  let tab ← inp.rd (u32 (od + objTabOff))
  let cnt ← inp.rd (u32 (od + objTabCnt))
  let ins ← inp.rd (u32 (od + tab + 4))
  let out ← shiftCode inp od nb orl tab cnt ins out
  if cnt < objTypes then extendTable nb tab cnt out else return out

def fixCode (e : Env) (inp : Bytes) (od nb orl : ℕ) (out : Bytes) : Option Bytes := do
  let out ← out.wr nb (← symcount e inp)
  if e.grow then growCode inp od nb orl out else return out

/-! ## Type 3 -/

/-- Relocate the pointer at `src` to the place `dst`, if it is one. -/
def relocCell (t : Table) (inp : Bytes) (src dst : ℕ) (out : Bytes) : Option Bytes := do
  let ov ← inp.rd src
  if ov = 0 then return out
  else if (t.reloc ov).2 then out.wr dst (t.reloc ov).1 else return out

def fieldOffs : List ℕ := [0x00,0x04,0x08,0x0c,0x10,0x14]

def recordOff (r : ℕ) : ℕ := u32 (symBase + r*symStride)

/-- A symbol record: its six fields, and the two words its aux pointer leads to. -/
def fixRecord (t : Table) (inp : Bytes) (od nb : ℕ) (out : Bytes) (r : ℕ) : Option Bytes := do
  let roff := recordOff r
  let out ← Runs.run (fun out fo => relocCell t inp (u32 (od + roff + fo)) (u32 (nb + roff + fo)) out)
    out fieldOffs
  let aux ← inp.rd (u32 (od + roff + 0x0c))
  if aux ≠ 0 ∧ u32 (aux + 8) ≤ inp.size ∧ (t.reloc aux).2 then
    Runs.run (fun out k => relocCell t inp (u32 (aux + k*4)) (u32 ((t.reloc aux).1 + k*4)) out)
      out [0,1]
  else return out

/-- The records of a section; the loop breaks at the first that does not fit. -/
def records (orl cnt : ℕ) : List ℕ :=
  (List.range cnt).takeWhile fun r => u32 (recordOff r + symStride) ≤ orl

/-- The offsets of the aux records from `a` on. -/
def auxRecords (orl : ℕ) : ℕ → ℕ → List ℕ
  | 0, _ => []
  | fuel + 1, a => if u32 (a + 32) ≤ orl then a :: auxRecords orl fuel (u32 (a + 32)) else []

/-- The base pointer of an aux record, if it is marked. -/
def fixAuxRecord (t : Table) (inp : Bytes) (od nb : ℕ) (out : Bytes) (a : ℕ) : Option Bytes := do
  let bp ← inp.rd (u32 (od + a))
  if (← inp.rd (u32 (od + a + 0x08))) = 0xffffffff ∧ bp ≠ 0 then
    out.wr (u32 (nb + a)) (t.reloc bp).1
  else return out

def fixSymbols (t : Table) (inp : Bytes) (od nb orl cnt : ℕ) (out : Bytes) : Option Bytes := do
  let out ← Runs.run (fixRecord t inp od nb) out (records orl cnt)
  Runs.run (fixAuxRecord t inp od nb) out (auxRecords orl (orl/32 + 2) (recordOff cnt))

/-! ## The whole file -/

def fixPointer (t : Table) (inp : Bytes) (od nb : ℕ) (out : Bytes) : Option Bytes := do
  out.wr nb (t.reloc (← inp.rd od)).1

/-- Copy the sections of an offset, and fix them up as the owner's type demands. -/
def copySection (e : Env) (t : Table) (inp out : Bytes) (od : ℕ) : Option Bytes :=
  if od = headSz then some out
  else
    match t.owner od with
    | (none,_) => none
    | (some w,orl) => do
      let nb := t.newDoff w
      let out ← out.memcpy nb inp od orl
      match (t.sec w).type with
      | 1 => fixCode e inp od nb orl out
      | 3 => fixSymbols t inp od nb orl (t.sec w).count out
      | 9 => fixPointer t inp od nb out
      | _ => return out

def writeEntry (t : Table) (out : Bytes) (i : Fin 13) : Option Bytes := do
  let o := tabOff + i*entSz
  let out ← out.wr (o + 0x00) ((t.sec i).type + 1)
  let out ← out.wr (o + 0x04) (t.newDoff i)
  let out ← out.wr (o + 0x08) (t.newPsz i)
  let out ← out.wr (o + 0x0c) (t.sec i).count
  let out ← out.wr (o + 0x10) (t.sec i).next
  let out ← out.wr (o + 0x14) 0
  let out ← out.wr (o + 0x18) 0
  out.wr (o + 0x1c) 0

/-- `rotxor`: the checksum of the new file. -/
def rotxor (b : Bytes) (n : ℕ) : ℕ :=
  (List.range n).foldl (fun h i =>
    let h := h ^^^ (b.get i).toNat
    (h >>> 25) ||| u32 (h <<< 7)) 0

/-- The driver's key, and the checksum over all the rest. -/
def writeKeys (e : Env) (t : Table) (out : Bytes) : Option Bytes := do
  let out ← out.wr 0x2c e.driverKey
  let out ← out.wr 0x24 0
  if t.newSize ≤ out.size then out.wr 0x24 (rotxor out t.newSize) else none

/-- The build key goes to the first type-2 section. -/
def writeBuildKey (t : Table) (i : Fin 13) (k : ℕ → UInt8) (out : Bytes) : Option Bytes :=
  out.memcpy (t.newDoff i) ⟨buildLen,k⟩ 0 buildLen

/-- The sections, and what can be written only after them. -/
def writeSections (e : Env) (t : Table) (inp out : Bytes) : Option Bytes := do
  let out ← Runs.run (copySection e t inp) out t.doffs
  let out ← Runs.run (writeEntry t) out Table.indices
  writeKeys e t out

/-- `translate_v2_to_v7` -/
def translate (e : Env) (inp : Bytes) : Option (Except ℤ Bytes) := do
  let code ← checkHeader inp
  if code ≠ 0 then return .error code
  let t ← readTable e.grow inp
  if ¬ e.calloc then return .error (-10)
  let out ← writeHeader e t inp (.zeros t.newSize)
  match t.firstOf 2, key e with
  | some _, none => return .error (-11)
  | some i, some k =>
    let out ← writeBuildKey t i k out
    let out ← writeHead e t inp out
    return .ok (← writeSections e t inp out)
  | none, _ =>
    let out ← writeHead e t inp out
    return .ok (← writeSections e t inp out)

end Xlate
end Kitakami

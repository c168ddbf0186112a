import Kitakami.Base.Bytes
import Kitakami.Xlate.Layout

/-!
# The header and the section table of the input

The five checks on the header, and the table as it is read from the file. Once
the length is checked, both stay inside the file.
-/

namespace Kitakami
namespace Xlate

/-- The header checks: 0, or the negative code of the first that fails. -/
def checkHeader (inp : Bytes) : Option ℤ :=
  if inp.size < tabOff + secCnt*entSz then some (-1)
  else do
    if (← inp.rd 0x00) ≠ magic then return -2
    if (← inp.rd 0x04) ≠ verV2 then return -3
    if (← inp.rd 0x08) ≠ secCnt then return -4
    if (← inp.rd 0x0c) ≠ tabOff then return -5
    return 0

def readSec (inp : Bytes) (i : Fin 13) : Option Sec := do
  let o := tabOff + i*entSz
  return {
    type := ← inp.rd (o+0x00)
    doff := ← inp.rd (o+0x04)
    psz := ← inp.rd (o+0x08)
    count := ← inp.rd (o+0x0c)
    next := ← inp.rd (o+0x10) }

/-- The whole table, if every entry can be read. -/
def readTable (grow : Bool) (inp : Bytes) : Option Table :=
  if h : ∀ i, (readSec inp i).isSome then
    some ⟨grow,inp.size,fun i => (readSec inp i).get (h i)⟩
  else none

/-- The entry of the table that a file holds. -/
def secAt (inp : Bytes) (i : Fin 13) : Sec :=
  let o := tabOff + i*entSz
  ⟨inp.word o,inp.word (o+0x04),inp.word (o+0x08),inp.word (o+0x0c),inp.word (o+0x10)⟩

def tableOf (grow : Bool) (inp : Bytes) : Table := ⟨grow,inp.size,secAt inp⟩

/-- A file with the given sections and with the given words behind its table. The
sections that are missing are of type 0 and empty, at 0x1f0. -/
def sampleFile (size : ℕ) (secs : List Sec) (words : List (ℕ × ℕ)) : Bytes :=
  let entry (o : ℕ) : ℕ :=
    let s := secs.getD (o/entSz) ⟨0,headSz,0,0,0⟩
    [s.type,s.doff,s.psz,s.count,s.next].getD (o%entSz/4) 0
  let word (o : ℕ) : ℕ :=
    if o < tabOff then [magic,verV2,secCnt,tabOff].getD (o/4) 0
    else if o < headSz then entry (o - tabOff)
    else (words.lookup o).getD 0
  ⟨size,fun i => Bytes.byteOf (word (i/4*4)) (i%4)⟩

/-- The input passes the header checks. -/
def Accepted (inp : Bytes) : Prop := checkHeader inp = some 0

instance (inp : Bytes) : Decidable (Accepted inp) := inferInstanceAs (Decidable (_ = _))

variable {inp : Bytes}

/-- The checks in terms of the words of the header. -/
theorem checkHeader_eq (inp : Bytes) : checkHeader inp = some (
    if inp.size < headSz then -1
    else if inp.word 0x00 ≠ magic then -2
    else if inp.word 0x04 ≠ verV2 then -3
    else if inp.word 0x08 ≠ secCnt then -4
    else if inp.word 0x0c ≠ tabOff then -5
    else 0) := by
  unfold checkHeader
  by_cases h : inp.size < headSz
  · rw [if_pos (show inp.size < tabOff + secCnt*entSz from h),if_pos h]
  · have hrd : ∀ o ≤ 0x0c, inp.rd o = some (inp.word o) := fun o ho =>
      Bytes.rd_of_le (by simp only [headSz] at h; omega)
    rw [if_neg (show ¬ inp.size < tabOff + secCnt*entSz from h),if_neg h]
    simp only [hrd 0x00 (by decide),hrd 0x04 (by decide),hrd 0x08 (by decide),
      hrd 0x0c (by decide),Option.bind_eq_bind,Option.bind_some,Option.pure_def]
    split_ifs <;> rfl

theorem accepted_iff : Accepted inp ↔ headSz ≤ inp.size ∧ inp.word 0x00 = magic ∧
    inp.word 0x04 = verV2 ∧ inp.word 0x08 = secCnt ∧ inp.word 0x0c = tabOff := by
  rw [Accepted,checkHeader_eq,Option.some_inj]
  split_ifs <;> simp_all

theorem readSec_eq (h : headSz ≤ inp.size) (i : Fin 13) : readSec inp i = some (secAt inp i) := by
  have hrd : ∀ k ≤ 0x10, inp.rd (tabOff + i*entSz + k) = some (inp.word (tabOff + i*entSz + k)) :=
    fun k hk => Bytes.rd_of_le (by simp only [headSz,tabOff,entSz] at h ⊢; omega)
  simp only [readSec,hrd 0x00 (by decide),hrd 0x04 (by decide),hrd 0x08 (by decide),
    hrd 0x0c (by decide),hrd 0x10 (by decide),Option.bind_eq_bind,Option.bind_some,
    Option.pure_def]
  rfl

/-- The table is read inside the file. -/
theorem readTable_eq (grow : Bool) (h : headSz ≤ inp.size) :
    readTable grow inp = some (tableOf grow inp) := by
  have hs : ∀ i, (readSec inp i).isSome := fun i => by rw [readSec_eq h]; rfl
  rw [readTable,dif_pos hs]
  simp only [tableOf,readSec_eq h,Option.get_some]

theorem secAt_doff_lt (i : Fin 13) : (secAt inp i).doff < 4294967296 := inp.word_lt _

end Xlate
end Kitakami

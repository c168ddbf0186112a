import Kitakami.Base.Access
import Kitakami.Xlate.Translate

/-!
# The accesses of the code section

When the pass over a type-1 section stays inside the two files. The object table
is found through offsets of the file that are not checked, and the room for new
objects is looked for behind it.
-/

namespace Kitakami
namespace Xlate

open Bytes

/-! ## The scan for room -/

/-- The scan from `o` on ends inside the buffer, or stops at a byte that is not zero. -/
def ScanOk (out : Bytes) (o need : ℕ) : Prop :=
  o + need ≤ out.size ∨ ∃ z < need, o + z < out.size ∧ out.get (o + z) ≠ 0

theorem isClean_isSome {out : Bytes} (hs : out.size < 4294967296) (base s n : ℕ) :
    (isClean out base (List.range' s n)).isSome ↔ n = 0 ∨ ScanOk out (u32 (base + s)) n := by
  induction n generalizing s with
  | zero => simp [isClean]
  | succ n ih =>
    rw [List.range'_succ,isClean]
    by_cases hin : u32 (base + s) < out.size
    · have hrd : out.rdByte (u32 (base + s)) = some (out.get (u32 (base + s))) := if_pos hin
      have hnext : u32 (base + (s + 1)) = u32 (base + s) + 1 := by
        unfold u32 at hin ⊢
        omega
      simp only [hrd,Option.bind_eq_bind,Option.bind_some]
      split
      · rename_i hne
        exact iff_of_true rfl (.inr (.inr ⟨0,by omega,by simpa using hin,hne⟩))
      · rename_i hz
        rw [ih,hnext]
        simp only [ne_eq,not_not] at hz
        constructor
        · rintro (rfl | h | ⟨z,hz',hlt,hne⟩)
          · exact .inr (.inl (by omega))
          · exact .inr (.inl (by omega))
          · exact .inr (.inr ⟨z+1,by omega,by omega,by rwa [← Nat.add_assoc,Nat.add_right_comm]⟩)
        · rintro (h | h | ⟨z,hz',hlt,hne⟩)
          · omega
          · exact .inr (.inl (by omega))
          · cases z with
            | zero => exact absurd hz hne
            | succ z =>
              exact .inr (.inr ⟨z,by omega,by omega,by
                rwa [Nat.add_right_comm,Nat.add_assoc]⟩)
    · have hrd : out.rdByte (u32 (base + s)) = none := if_neg hin
      simp only [hrd,Option.bind_eq_bind,Option.bind_none,Option.isSome_none]
      refine iff_of_false (by simp) ?_
      rintro (h | h | ⟨z,-,hlt,-⟩) <;> omega

/-- Clean room is inside the buffer and zero. -/
theorem of_isClean {out : Bytes} {base : ℕ} {l : List ℕ} (h : isClean out base l = some true) :
    ∀ z ∈ l, u32 (base + z) < out.size ∧ out.get (u32 (base + z)) = 0 := by
  induction l with
  | nil => simp
  | cons z zs ih =>
    rw [isClean,Option.bind_eq_bind,Option.bind_eq_some_iff] at h
    obtain ⟨b,hb,h⟩ := h
    have hin : u32 (base + z) < out.size ∧ out.get (u32 (base + z)) = b := by
      unfold rdByte at hb
      split at hb <;> simp_all
    split at h
    · simp at h
    · rename_i hz
      intro y hy
      rcases List.mem_cons.mp hy with rfl | hy
      · exact ⟨hin.1,hin.2.trans (not_not.mp hz)⟩
      · exact ih h y hy

/-! ## The object table -/

/-- The fields of a code section: where the object table is, how many objects it
has, and where the first of them starts. -/
def objTab (inp : Bytes) (od : ℕ) : ℕ := inp.word (od + objTabOff)
def objCnt (inp : Bytes) (od : ℕ) : ℕ := inp.word (od + objTabCnt)
def objIns (inp : Bytes) (od : ℕ) : ℕ := inp.word (u32 (od + objTab inp od + 4))

/-- The unchecked offsets of a code section stay inside the files. -/
structure TableOk (inp : Bytes) (n od nb orl : ℕ) : Prop where
  fields : od + objTabCnt + 4 ≤ inp.size
  first : u32 (od + objTab inp od + 4) + 4 ≤ inp.size
  ins : objIns inp od ≤ orl ∨ 4294967296 ≤ nb + objIns inp od
  entries : ∀ k < objCnt inp od,
    u32 (od + objTab inp od + k*objEntSz + 4) + 4 ≤ inp.size ∧
      u32 (nb + objTab inp od + k*objEntSz + 4) + 4 ≤ n
  /-- An empty table is read all the same, and so is the entry before it. -/
  empty : objCnt inp od = 0 →
    u32 (nb + objTab inp od + 4294967280) + 4 ≤ n ∧ u32 (nb + objTab inp od + 4) + 4 ≤ n

variable {inp out : Bytes} {n od nb orl tab cnt ins : ℕ}

theorem moveEntry_accesses (k : ℕ) :
    Accesses n (u32 (od + tab + k*objEntSz + 4) + 4 ≤ inp.size ∧
      u32 (nb + tab + k*objEntSz + 4) + 4 ≤ n) (fun out => moveEntry inp od nb tab out k) :=
  Accesses.rd fun _ => Accesses.wr _ _

/-- The move stays in the section's room: the code starts inside it, or so far
behind that the offset wraps around to before it. -/
theorem shiftCode_accesses (hroom : nb + orl + codeGrow ≤ n) (hn : n < 4294960000)
    (hins : ins < 4294967296) :
    Accesses n ((ins ≤ orl ∨ 4294967296 ≤ nb + ins) ∧ ∀ k < cnt,
        u32 (od + tab + k*objEntSz + 4) + 4 ≤ inp.size ∧
          u32 (nb + tab + k*objEntSz + 4) + 4 ≤ n)
      (shiftCode inp od nb orl tab cnt ins) := by
  refine ((Accesses.memmove _ _ _).bind fun _ => (Accesses.store _ _ _).bind fun _ =>
    Accesses.run fun k _ => moveEntry_accesses k).congr ?_
  rw [← and_assoc]
  refine and_congr ?_ (by simp)
  simp only [codeGrow] at *
  unfold sub32 u32
  omega

theorem addEntry_accesses (last type : ℕ) :
    Accesses n (∀ c ∈ [0,4,8,12,16], u32 (nb + tab + type*objEntSz + c) + 4 ≤ n)
      (fun out => addEntry nb tab last out type) := by
  refine ((Accesses.wr _ _).bind fun _ => (Accesses.wr _ _).bind fun _ =>
    (Accesses.wr _ _).bind fun _ => (Accesses.wr _ _).bind fun _ => Accesses.wr _ _).congr ?_
  simp

/-- The writes of the new objects, where the room for them is clean. -/
theorem addEntries_accesses (hroom : nb + codeGrow ≤ n) (hn : n < 4294960000) (last : ℕ)
    (hclean : ∀ z < (objTypes - cnt)*objEntSz, u32 (nb + u32 (tab + cnt*objEntSz) + z) < n) :
    Accesses n True fun out => Runs.run (addEntry nb tab last) out
      (List.range' cnt (objTypes - cnt)) >>= fun out => out.wr (u32 (nb + objTabCnt)) objTypes := by
  refine ((Accesses.run fun type _ => addEntry_accesses last type).bind fun _ =>
    Accesses.wr _ _).congr (iff_of_true ⟨?_,?_⟩ trivial)
  · intro type htype c hc
    have htype := List.mem_range'_1.mp htype
    have hle : c ≤ 16 := by
      simp only [List.mem_cons,List.not_mem_nil,or_false] at hc
      omega
    simp only [objTypes,objEntSz] at *
    have hsame : ∀ j, u32 (nb + u32 (tab + cnt*20) + ((type - cnt)*20 + c + j)) =
        u32 (nb + tab + type*20 + c + j) := by
      intro j
      have : cnt*20 + (type - cnt)*20 = type*20 := by omega
      unfold u32
      omega
    have h₀ := hclean ((type - cnt)*20 + c + 0) (by omega)
    have h₃ := hclean ((type - cnt)*20 + c + 3) (by omega)
    rw [hsame] at h₀ h₃
    unfold u32 at *
    omega
  · simp only [objTabCnt,codeGrow] at *
    rw [u32_of_lt (by omega)]
    omega

theorem extendTable_isSome (hout : out.size = n) (hroom : nb + codeGrow ≤ n)
    (hn : n < 4294960000) (hcnt : cnt < objTypes) :
    (extendTable nb tab cnt out).isSome ↔
      u32 (nb + tab + sub32 cnt 1*objEntSz + 4) + 4 ≤ n ∧ u32 (nb + tab + 4) + 4 ≤ n ∧
        ScanOk out (u32 (nb + tab + cnt*objEntSz)) ((objTypes - cnt)*objEntSz) := by
  have hscan := isClean_isSome (show out.size < 4294967296 by omega) (nb + u32 (tab + cnt*objEntSz)) 0
    ((objTypes - cnt)*objEntSz)
  have hbase : u32 (nb + u32 (tab + cnt*objEntSz) + 0) = u32 (nb + tab + cnt*objEntSz) := by
    rw [Nat.add_zero,u32_add_u32,Nat.add_assoc]
  have hneed : (objTypes - cnt)*objEntSz ≠ 0 := by
    simp only [objTypes,objEntSz] at *
    omega
  rw [hbase,← List.range_eq_range',or_iff_right hneed] at hscan
  unfold extendTable
  by_cases hlast : u32 (nb + tab + sub32 cnt 1*objEntSz + 4) + 4 ≤ out.size
  · by_cases hfirst : u32 (nb + tab + 4) + 4 ≤ out.size
    · rw [rd_of_le hlast,rd_of_le hfirst,← hscan,← hout]
      simp only [Option.bind_eq_bind,Option.bind_some,hlast,hfirst,true_and]
      cases hclean : isClean out (nb + u32 (tab + cnt*objEntSz))
          (List.range ((objTypes - cnt)*objEntSz)) with
      | none => simp
      | some clean =>
        simp only [Option.bind_some,Option.isSome_some,iff_true]
        split
        · rename_i hc
          have hin := of_isClean (hclean.trans (by rw [hc.1]))
          exact ((addEntries_accesses hroom hn _ fun z hz =>
            hout ▸ (hin z (List.mem_range.mpr hz)).1).ok out hout).mpr trivial
        · rfl
    · have hnone : out.rd (u32 (nb + tab + 4)) = none := if_neg hfirst
      simp [hnone,rd_of_le hlast,← hout,hfirst]
  · have hnone : out.rd (u32 (nb + tab + sub32 cnt 1*objEntSz + 4)) = none := if_neg hlast
    simp [hnone,← hout,hlast]

/-- The two words that are read back from the table are entries of it, if it has any. -/
theorem TableOk.readBack (h : TableOk inp n od nb orl) (hcnt : objCnt inp od < objTypes) :
    u32 (nb + objTab inp od + sub32 (objCnt inp od) 1*objEntSz + 4) + 4 ≤ n ∧
      u32 (nb + objTab inp od + 4) + 4 ≤ n := by
  cases hc : objCnt inp od with
  | zero =>
    have hlast : u32 (nb + objTab inp od + sub32 0 1*objEntSz + 4) =
        u32 (nb + objTab inp od + 4294967280) := by
      simp only [sub32,objEntSz,u32]
      omega
    rw [hlast]
    exact h.empty hc
  | succ cnt =>
    rw [hc] at hcnt
    have hsub : sub32 (cnt+1) 1 = cnt := sub32_of_le (by omega) (by
      simp only [objTypes] at hcnt
      omega)
    rw [hsub]
    exact ⟨(h.entries cnt (by omega)).2,by simpa using (h.entries 0 (by omega)).2⟩

/-- The code has been moved; the object table may be extended. -/
theorem extend_isSome (h : TableOk inp n od nb orl) (hout : out.size = n)
    (hroom : nb + codeGrow ≤ n) (hn : n < 4294960000) (hcnt : objCnt inp od < objTypes) :
    (extendTable nb (objTab inp od) (objCnt inp od) out).isSome ↔
      ScanOk out (u32 (nb + objTab inp od + objCnt inp od*objEntSz))
        ((objTypes - objCnt inp od)*objEntSz) := by
  obtain ⟨hlast,hfirst⟩ := h.readBack hcnt
  rw [extendTable_isSome hout hroom hn hcnt]
  exact ⟨fun hall => hall.2.2,fun hscan => ⟨hlast,hfirst,hscan⟩⟩

/-- The pass over the object table of a code section. -/
theorem growCode_isSome (hout : out.size = n) (hroom : nb + orl + codeGrow ≤ n)
    (hn : n < 4294960000) (hlen : inp.size < 2147483648) (hod : od ≤ inp.size) :
    (growCode inp od nb orl out).isSome ↔ TableOk inp n od nb orl ∧
      ∀ out', shiftCode inp od nb orl (objTab inp od) (objCnt inp od) (objIns inp od) out =
        some out' → objCnt inp od < objTypes →
        ScanOk out' (u32 (nb + objTab inp od + objCnt inp od*objEntSz))
          ((objTypes - objCnt inp od)*objEntSz) := by
  have hshift : Accesses n _ (shiftCode inp od nb orl (objTab inp od) (objCnt inp od)
      (objIns inp od)) := shiftCode_accesses hroom hn (inp.word_lt _)
  have hsize : ∀ c, shiftCode inp od nb orl (objTab inp od) (objCnt inp od) (objIns inp od) out =
      some c → c.size = n := fun c => hshift.size out c hout
  have htabOff : u32 (od + objTabOff) = od + objTabOff :=
    u32_of_lt (by simp only [objTabOff]; omega)
  have hcntOff : u32 (od + objTabCnt) = od + objTabCnt :=
    u32_of_lt (by simp only [objTabCnt]; omega)
  unfold growCode
  rw [htabOff,hcntOff]
  by_cases hfields : od + objTabCnt + 4 ≤ inp.size
  · have htab : inp.rd (od + objTabOff) = some (objTab inp od) :=
      rd_of_le (by simp only [objTabOff,objTabCnt] at *; omega)
    have hcnt : inp.rd (od + objTabCnt) = some (objCnt inp od) := rd_of_le hfields
    rw [Option.bind_eq_bind,htab,Option.bind_some,hcnt,Option.bind_some]
    by_cases hfirst : u32 (od + objTab inp od + 4) + 4 ≤ inp.size
    · have hins : inp.rd (u32 (od + objTab inp od + 4)) = some (objIns inp od) := rd_of_le hfirst
      rw [hins,Option.bind_some]
      refine (hshift.bind_isSome hout).trans ?_
      constructor
      · rintro ⟨⟨hplace,hent⟩,hall⟩
        obtain ⟨out',hout'⟩ := Option.isSome_iff_exists.mp
          ((hshift.ok out hout).mpr ⟨hplace,hent⟩)
        have hok : TableOk inp n od nb orl := by
          refine ⟨hfields,hfirst,hplace,hent,fun h0 => ?_⟩
          have hlt : objCnt inp od < objTypes := h0 ▸ by decide
          have hr := hall out' hout'
          rw [if_pos hlt,extendTable_isSome (hsize out' hout') (by omega) hn hlt,h0] at hr
          refine ⟨?_,hr.2.1⟩
          have hlast := hr.1
          simp only [sub32,objEntSz,u32] at hlast ⊢
          omega
        refine ⟨hok,fun c hc hlt => ?_⟩
        have hr := hall c hc
        rwa [if_pos hlt,extend_isSome hok (hsize c hc) (by omega) hn hlt] at hr
      · rintro ⟨hok,hscan⟩
        refine ⟨⟨hok.ins,hok.entries⟩,fun c hc => ?_⟩
        split
        · rename_i hlt
          exact (extend_isSome hok (hsize c hc) (by omega) hn hlt).mpr (hscan c hc hlt)
        · rfl
    · have hins : inp.rd (u32 (od + objTab inp od + 4)) = none := if_neg hfirst
      rw [hins,Option.bind_none]
      exact iff_of_false (by simp) fun h => hfirst h.1.first
  · have hcnt : inp.rd (od + objTabCnt) = none := if_neg hfields
    refine iff_of_false ?_ fun h => hfields h.1.fields
    cases inp.rd (od + objTabOff) with
    | none => simp
    | some tab => rw [Option.bind_eq_bind,Option.bind_some,hcnt]; simp

end Xlate
end Kitakami

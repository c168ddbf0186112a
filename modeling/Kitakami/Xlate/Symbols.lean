import Kitakami.Base.Access
import Kitakami.Xlate.Reloc
import Kitakami.Xlate.Translate

/-!
# The accesses of the fix-ups

Which accesses the pass over a type-3 section makes, and when they stay inside
the two files. The symbol records always do; what a record's aux pointer leads
to need not, and neither do the aux records of a section with so many symbols
that their offset wraps around.
-/

namespace Kitakami
namespace Xlate

open Bytes

/-! ## Offsets of the records -/

theorem mem_takeWhile_range' (p : ℕ → Bool) (s n r : ℕ) :
    r ∈ (List.range' s n).takeWhile p ↔ s ≤ r ∧ r < s + n ∧ ∀ q, s ≤ q → q ≤ r → p q := by
  induction n generalizing s with
  | zero =>
    simp
    omega
  | succ n ih =>
    rw [List.range'_succ,List.takeWhile_cons]
    split
    · rename_i hs
      rw [List.mem_cons,ih]
      constructor
      · rintro (rfl | ⟨hlo,hhi,hall⟩)
        · exact ⟨le_rfl,by omega,fun q h₁ h₂ => le_antisymm h₂ h₁ ▸ hs⟩
        · refine ⟨by omega,by omega,fun q h₁ h₂ => ?_⟩
          rcases h₁.eq_or_lt with rfl | h₁
          · exact hs
          · exact hall q h₁ h₂
      · rintro ⟨hlo,hhi,hall⟩
        rcases hlo.eq_or_lt with rfl | hlo
        · exact .inl rfl
        · exact .inr ⟨hlo,by omega,fun q h₁ h₂ => hall q (by omega) h₂⟩
    · rename_i hs
      simp only [List.not_mem_nil,false_iff]
      exact fun ⟨hlo,_,hall⟩ => hs (hall s le_rfl hlo)

/-- The symbol records that are fixed up are those that lie in the section. -/
theorem mem_records {orl cnt r : ℕ} (horl : orl < 2147483648) :
    r ∈ records orl cnt ↔ r < cnt ∧ symBase + r*symStride + symStride ≤ orl := by
  have hfit : ∀ q, symBase + q*symStride + symStride ≤ orl →
      u32 (recordOff q + symStride) = symBase + q*symStride + symStride := fun q hq => by
    rw [recordOff,u32_u32_add,u32_of_lt (by omega)]
  rw [records,List.range_eq_range',mem_takeWhile_range']
  constructor
  · rintro ⟨-,hr,hall⟩
    have hall : ∀ q ≤ r, u32 (recordOff q + symStride) ≤ orl :=
      fun q hq => by simpa using hall q (Nat.zero_le q) hq
    have hlow : ∀ q ≤ r, symBase + q*symStride + symStride ≤ orl := by
      intro q hq
      induction q with
      | zero =>
        have hfirst := hall 0 hq
        simp only [recordOff,u32,symBase,symStride] at *
        omega
      | succ q ih =>
        have hprev := ih (by omega)
        have hnext := hall (q+1) hq
        simp only [recordOff,u32,symBase,symStride] at *
        omega
    exact ⟨by omega,hlow r le_rfl⟩
  · rintro ⟨hr,hle⟩
    refine ⟨by omega,by omega,fun q _ hq => decide_eq_true ?_⟩
    have hle : symBase + q*symStride + symStride ≤ orl := by
      simp only [symBase,symStride] at hle ⊢
      omega
    rw [hfit q hle]
    exact hle

/-- Such a record lies where it is looked for. -/
theorem recordOff_eq {orl r : ℕ} (horl : orl < 2147483648)
    (hr : symBase + r*symStride + symStride ≤ orl) : recordOff r = symBase + r*symStride :=
  u32_of_lt (by omega)

/-- The aux records lie in the section too, unless the offset of the first wraps around. -/
theorem mem_auxRecords {orl fuel a₀ a : ℕ} (horl : orl < 2147483648)
    (ha : a ∈ auxRecords orl fuel a₀) :
    a + 32 ≤ orl ∨ a = a₀ ∧ u32 (a₀ + 32) ≤ orl := by
  induction fuel generalizing a₀ with
  | zero => simp [auxRecords] at ha
  | succ fuel ih =>
    rw [auxRecords] at ha
    split at ha
    · rename_i hle
      rcases List.mem_cons.mp ha with rfl | ha
      · exact .inr ⟨rfl,hle⟩
      · rcases ih ha with h | ⟨rfl,h⟩
        · exact .inl h
        · rw [u32_of_lt (by omega)] at h
          exact .inl h
    · simp at ha

theorem head_mem_auxRecords {orl fuel a₀ : ℕ} (h : u32 (a₀ + 32) ≤ orl) :
    a₀ ∈ auxRecords orl (fuel+1) a₀ := by
  rw [auxRecords,if_pos h]
  exact List.mem_cons_self

/-- More fuel than the section has room for records changes nothing. -/
theorem auxRecords_enough {orl fuel extra a : ℕ} (horl : orl < 2147483648) (ha : a ≤ orl)
    (hf : orl < a + 32*fuel) : auxRecords orl (fuel + extra) a = auxRecords orl fuel a := by
  induction fuel generalizing a with
  | zero => omega
  | succ fuel ih =>
    rw [Nat.add_right_comm,auxRecords,auxRecords,u32_of_lt (by omega)]
    split
    · rw [ih ‹_› (by omega)]
    · rfl

/-- The loop over the aux records ends before its fuel does. -/
theorem auxRecords_fuel {orl extra cnt : ℕ} (horl : orl < 2147483648) :
    auxRecords orl (orl/32 + 2 + extra) (recordOff cnt) =
      auxRecords orl (orl/32 + 2) (recordOff cnt) := by
  have hlt : recordOff cnt < 4294967296 := u32_lt _
  rw [show orl/32 + 2 + extra = orl/32 + 1 + extra + 1 by omega,auxRecords,
    show orl/32 + 2 = orl/32 + 1 + 1 from rfl,auxRecords]
  split
  · rw [auxRecords_enough horl ‹_› (by omega)]
  · rfl

/-! ## The accesses -/

/-- A section that lies in both files, at `od` in the old one and at `nb` in the new. -/
structure Lies (inp : Bytes) (n od nb orl : ℕ) : Prop where
  old : od + orl ≤ inp.size
  len : inp.size < 2147483648
  new : nb + orl ≤ n
  size : n < 4294960000
  head : headSz ≤ nb

/-- The word at an old offset is a pointer that RELOC_IF matches. -/
def IsPointer (t : Table) (inp : Bytes) (c : ℕ) : Prop :=
  inp.word c ≠ 0 ∧ (t.reloc (inp.word c)).2

/-- An aux pointer that is followed. -/
def Followed (t : Table) (inp : Bytes) (aux : ℕ) : Prop :=
  aux ≠ 0 ∧ aux + 8 ≤ inp.size ∧ (t.reloc aux).2

/-- What a followed aux pointer leads to has its place in the new file. -/
def AuxOk (t : Table) (inp : Bytes) (n aux : ℕ) : Prop :=
  Followed t inp aux → ∀ k < 2, IsPointer t inp (aux + k*4) →
    u32 ((t.reloc aux).1 + k*4) + 4 ≤ n

variable {t : Table} {inp : Bytes} {n od nb orl : ℕ}

theorem Table.Bounded.lt_of_matched (h : t.Bounded) {ov : ℕ} (hm : (t.reloc ov).2) :
    ov < 2147483648 := by
  by_cases hw : headSz ≤ ov ∧ ov < headSz + 64
  · simp only [headSz] at hw
    omega
  · by_contra hov
    have hnone : ∀ od ∈ t.doffs, ¬ t.Matches ov od := by
      intro od hod
      by_cases hne : od = headSz
      · rw [hne,Table.matches_head]
        simp only [Table.headEnd,headSz,buildLen]
        omega
      · have := h.end_le_len hod
        have := h.len
        rw [h.matches_iff hod hne]
        omega
    rw [Table.reloc_of_none hw hnone] at hm
    simp at hm

theorem relocCell_accesses (src dst : ℕ) :
    Accesses n (src + 4 ≤ inp.size ∧ (IsPointer t inp src → dst + 4 ≤ n))
      (relocCell t inp src dst) := by
  have h : Accesses n (src + 4 ≤ inp.size ∧ (inp.word src = 0 → True) ∧
      (inp.word src ≠ 0 → ((t.reloc (inp.word src)).2 = true → dst + 4 ≤ n) ∧
        (¬ (t.reloc (inp.word src)).2 = true → True))) (relocCell t inp src dst) :=
    Accesses.rd fun _ => Accesses.ite (fun _ => Accesses.pure) fun _ =>
      Accesses.ite (fun _ => Accesses.wr _ _) fun _ => Accesses.pure
  refine h.congr ?_
  unfold IsPointer
  tauto

theorem Lies.fields (h : Lies inp n od nb orl) {roff : ℕ} (hr : roff + symStride ≤ orl)
    {fo : ℕ} (hfo : fo ∈ fieldOffs) : u32 (od + roff + fo) = od + roff + fo ∧
      u32 (nb + roff + fo) = nb + roff + fo ∧ od + roff + fo + 4 ≤ inp.size ∧
      nb + roff + fo + 4 ≤ n := by
  have hle : fo ≤ 0x14 := by
    simp only [fieldOffs,List.mem_cons,List.not_mem_nil,or_false] at hfo
    omega
  have hold := h.old
  have hlen := h.len
  have hnew := h.new
  have hsize := h.size
  simp only [symStride] at hr
  exact ⟨u32_of_lt (by omega),u32_of_lt (by omega),by omega,by omega⟩

/-- A record inside the section. -/
theorem fixRecord_accesses (ht : t.Bounded) (h : Lies inp n od nb orl) {r : ℕ}
    (hr : recordOff r + symStride ≤ orl) :
    Accesses n (AuxOk t inp n (inp.word (od + recordOff r + 0x0c)))
      (fun out => fixRecord t inp od nb out r) := by
  obtain ⟨hu,-,hin,-⟩ := h.fields hr (show 0x0c ∈ fieldOffs by decide)
  have hfields : Accesses n True fun out => Runs.run (fun out fo =>
      relocCell t inp (u32 (od + recordOff r + fo)) (u32 (nb + recordOff r + fo)) out)
      out fieldOffs :=
    (Accesses.run fun fo _ => relocCell_accesses _ _).congr <| iff_of_true
      (fun fo hfo => by
        obtain ⟨h₁,h₂,h₃,h₄⟩ := h.fields hr hfo
        rw [h₁,h₂]
        exact ⟨h₃,fun _ => h₄⟩) trivial
  have haux : ∀ aux, Accesses n (∀ k ∈ [0,1], u32 (aux + k*4) + 4 ≤ inp.size ∧
      (IsPointer t inp (u32 (aux + k*4)) → u32 ((t.reloc aux).1 + k*4) + 4 ≤ n))
      fun out => Runs.run (fun out k =>
        relocCell t inp (u32 (aux + k*4)) (u32 ((t.reloc aux).1 + k*4)) out) out [0,1] :=
    fun aux => Accesses.run fun k _ => relocCell_accesses _ _
  refine (hfields.bind fun _ => Accesses.rd fun _ => Accesses.ite (fun _ => haux _)
    fun _ => Accesses.pure).congr ?_
  rw [hu]
  generalize inp.word (od + recordOff r + 0x0c) = aux
  simp only [true_and,hin,not_and,implies_true,and_true,AuxOk,Followed,List.mem_cons,
    List.not_mem_nil,or_false,forall_eq_or_imp,forall_eq]
  have hlen := h.len
  have hkey : aux ≠ 0 ∧ u32 (aux + 8) ≤ inp.size ∧ (t.reloc aux).2 = true ↔
      aux ≠ 0 ∧ aux + 8 ≤ inp.size ∧ (t.reloc aux).2 = true := by
    refine and_congr_right fun _ => and_congr_left fun hm => ?_
    rw [u32_of_lt (by have := ht.lt_of_matched hm; omega)]
  rw [hkey]
  refine imp_congr_right fun hf => ?_
  have hk : ∀ k < 2, u32 (aux + k*4) = aux + k*4 := fun k hk => u32_of_lt (by omega)
  constructor
  · rw [hk 0 (by decide),hk 1 (by decide)]
    rintro ⟨⟨-,h₀⟩,-,h₁⟩ k hk2
    obtain rfl | rfl : k = 0 ∨ k = 1 := by omega
    · exact h₀
    · exact h₁
  · intro hall
    rw [hk 0 (by decide),hk 1 (by decide)]
    exact ⟨⟨by omega,hall 0 (by decide)⟩,by omega,hall 1 (by decide)⟩

theorem fixAuxRecord_accesses (a : ℕ) : Accesses n (u32 (od + a) + 4 ≤ inp.size ∧
    u32 (od + a + 0x08) + 4 ≤ inp.size ∧
      (inp.word (u32 (od + a + 0x08)) = 0xffffffff ∧ inp.word (u32 (od + a)) ≠ 0 →
        u32 (nb + a) + 4 ≤ n)) (fun out => fixAuxRecord t inp od nb out a) := by
  refine (Accesses.rd fun _ => Accesses.rd fun _ => Accesses.ite (fun _ => Accesses.wr _ _)
    fun _ => Accesses.pure).congr ?_
  tauto

/-- The offset of the first aux record does not wrap around, or it does so with the
section's own offset. -/
def AuxStartOk (od orl cnt : ℕ) : Prop :=
  4294967296 ≤ recordOff cnt + 32 → u32 (recordOff cnt + 32) ≤ orl →
    4294967296 ≤ od + recordOff cnt

theorem auxRecords_accesses (h : Lies inp n od nb orl) (cnt : ℕ) :
    Accesses n (AuxStartOk od orl cnt) fun out => Runs.run (fixAuxRecord t inp od nb) out
      (auxRecords orl (orl/32 + 2) (recordOff cnt)) := by
  have hold := h.old
  have hlen := h.len
  have hnew := h.new
  have hsize := h.size
  have hhead := h.head
  have hlt : recordOff cnt < 4294967296 := u32_lt _
  refine (Accesses.run fun a _ => fixAuxRecord_accesses a).congr ?_
  constructor
  · intro hall hwrap hfit
    have hfirst := (hall _ (head_mem_auxRecords hfit)).1
    by_contra hno
    rw [u32_of_lt (by omega)] at hfirst
    omega
  · intro hok a ha
    have hin : u32 (od + a) + 12 ≤ inp.size ∧ u32 (od + a + 8) = u32 (od + a) + 8 ∧
        u32 (nb + a) + 4 ≤ n := by
      rcases mem_auxRecords (by omega) ha with hin | ⟨rfl,hfit⟩
      · rw [u32_of_lt (x := od + a) (by omega),u32_of_lt (x := od + a + 8) (by omega),
          u32_of_lt (x := nb + a) (by omega)]
        omega
      · by_cases hwrap : 4294967296 ≤ recordOff cnt + 32
        · have hback := hok hwrap hfit
          simp only [headSz] at hhead
          unfold u32 at hfit ⊢
          omega
        · rw [u32_of_lt (by omega)] at hfit
          unfold u32
          omega
    exact ⟨by omega,by omega,fun _ => hin.2.2⟩

/-- The pass over a type-3 section. -/
theorem fixSymbols_accesses (ht : t.Bounded) (h : Lies inp n od nb orl) (cnt : ℕ) :
    Accesses n ((∀ r < cnt, symBase + r*symStride + symStride ≤ orl →
        AuxOk t inp n (inp.word (od + symBase + r*symStride + 0x0c))) ∧ AuxStartOk od orl cnt)
      (fixSymbols t inp od nb orl cnt) := by
  have horl : orl < 2147483648 := by
    have := h.old
    have := h.len
    omega
  have hrec : Accesses n (∀ r ∈ records orl cnt,
      AuxOk t inp n (inp.word (od + recordOff r + 0x0c)))
      fun out => Runs.run (fixRecord t inp od nb) out (records orl cnt) :=
    Accesses.run fun r hr => by
      have hle := ((mem_records horl).mp hr).2
      exact fixRecord_accesses ht h (by rw [recordOff_eq horl hle]; exact hle)
  refine (hrec.bind fun _ => auxRecords_accesses h cnt).congr (and_congr_left fun _ => ?_)
  constructor
  · intro hall r hr hle
    have := hall r ((mem_records horl).mpr ⟨hr,hle⟩)
    rwa [recordOff_eq horl hle,← Nat.add_assoc] at this
  · intro hall r hr
    obtain ⟨hr,hle⟩ := (mem_records horl).mp hr
    rw [recordOff_eq horl hle,← Nat.add_assoc]
    exact hall r hr hle

end Xlate
end Kitakami

import Kitakami.Xlate.Sections

/-!
# Where the sections go

The folds of the layout in closed form: the length of a section ends it at the
next offset, the owner of an offset is the last section there, and the place of
an offset is what the offsets below it take up. While every section starts
inside the file, no sum wraps around.
-/

namespace Kitakami
namespace Xlate
namespace Table

variable (t : Table)

theorem mem_indices (i : Fin 13) : i ∈ indices := List.mem_finRange i

/-! ## Lengths -/

/-- The search for the next offset, over any list of sections. -/
theorem best_fold (doff : ℕ) (l : List (Fin 13)) (len : ℕ) :
    let r := l.foldl (fun best j =>
      if (t.sec j).doff > doff ∧ (t.sec j).doff < best then (t.sec j).doff else best) len
    r ≤ len ∧ (∀ j ∈ l, doff < (t.sec j).doff → r ≤ (t.sec j).doff) ∧
      (r = len ∨ ∃ j ∈ l, doff < (t.sec j).doff ∧ r = (t.sec j).doff) := by
  induction l using List.reverseRecOn with
  | nil => simp
  | append_singleton l j ih =>
    obtain ⟨hle,hall,hr⟩ := ih
    simp only [List.foldl_append,List.foldl_cons,List.foldl_nil]
    split
    · rename_i hj
      refine ⟨by omega,fun k hk hd => ?_,.inr ⟨j,by simp,hj.1,rfl⟩⟩
      rcases List.mem_append.mp hk with hk | hk
      · exact hj.2.le.trans (hall k hk hd)
      · obtain rfl := List.mem_singleton.mp hk
        exact le_rfl
    · rename_i hj
      refine ⟨hle,fun k hk hd => ?_,hr.imp_right ?_⟩
      · rcases List.mem_append.mp hk with hk | hk
        · exact hall k hk hd
        · obtain rfl := List.mem_singleton.mp hk
          exact not_lt.mp fun hlt => hj ⟨hd,hlt⟩
      · rintro ⟨k,hk,hd,he⟩
        exact ⟨k,by simp [hk],hd,he⟩

theorem best_le (doff : ℕ) : t.best doff ≤ t.len := (t.best_fold doff indices t.len).1

theorem best_le_doff {doff : ℕ} {j : Fin 13} (h : doff < (t.sec j).doff) :
    t.best doff ≤ (t.sec j).doff := (t.best_fold doff indices t.len).2.1 j (mem_indices j) h

theorem best_cases (doff : ℕ) :
    t.best doff = t.len ∨ ∃ j, doff < (t.sec j).doff ∧ t.best doff = (t.sec j).doff := by
  rcases (t.best_fold doff indices t.len).2.2 with h | ⟨j,-,hd,h⟩
  · exact .inl h
  · exact .inr ⟨j,hd,h⟩

theorem le_best {doff : ℕ} (h : doff ≤ t.len) : doff ≤ t.best doff := by
  rcases t.best_cases doff with he | ⟨j,hd,he⟩ <;> omega

theorem rlen_of_le {doff : ℕ} (hlen : t.len < 2147483648) (h : doff ≤ t.len) :
    doff + t.rlen doff = t.best doff := by
  have hb := t.best_le doff
  have hd := t.le_best h
  rw [rlen,sub32_of_le hd (by omega)]
  omega

/-- A section that starts behind the end of the file has a length beyond it. -/
theorem rlen_of_gt {doff : ℕ} (hd : doff < 4294967296) (h : t.len < doff) :
    t.rlen doff = t.len + 4294967296 - doff := by
  have hb : t.best doff = t.len := by
    rcases t.best_cases doff with he | ⟨j,hj,he⟩
    · exact he
    · have := t.best_le doff
      omega
  rw [rlen,hb,sub32_of_lt h hd]

/-! ## Offsets and owners -/

theorem mem_distinct_fold (v : ℕ) (l : List (Fin 13)) :
    v ∈ l.foldl (fun ds i => if (t.sec i).doff ∈ ds then ds else ds ++ [(t.sec i).doff]) [] ↔
      ∃ i ∈ l, (t.sec i).doff = v := by
  induction l using List.reverseRecOn with
  | nil => simp
  | append_singleton l j ih =>
    simp only [List.foldl_append,List.foldl_cons,List.foldl_nil]
    have hsplit : (∃ i ∈ l ++ [j], (t.sec i).doff = v) ↔
        (∃ i ∈ l, (t.sec i).doff = v) ∨ (t.sec j).doff = v := by
      simp [or_and_right,exists_or]
    rw [hsplit]
    split
    · rename_i hj
      rw [ih]
      refine (or_iff_left_of_imp ?_).symm
      rintro rfl
      exact ih.mp hj
    · simp [ih,eq_comm]

theorem nodup_distinct : t.distinct.Nodup := by
  unfold distinct
  generalize indices = l
  induction l using List.reverseRecOn with
  | nil => simp
  | append_singleton l j ih =>
    simp only [List.foldl_append,List.foldl_cons,List.foldl_nil]
    split
    · exact ih
    · rename_i hj
      exact List.nodup_append.mpr ⟨ih,by simp,fun a ha b hb hab => by simp_all⟩

theorem length_distinct : t.distinct.length ≤ 13 := by
  have hfold : ∀ l : List (Fin 13), (l.foldl (fun ds i =>
      if (t.sec i).doff ∈ ds then ds else ds ++ [(t.sec i).doff]) []).length ≤ l.length := by
    intro l
    induction l using List.reverseRecOn with
    | nil => simp
    | append_singleton l j ih =>
      simp only [List.foldl_append,List.foldl_cons,List.foldl_nil,List.length_append,
        List.length_singleton]
      split
      · omega
      · simpa using ih
  exact (hfold indices).trans (by simp [indices])

theorem mem_doffs {v : ℕ} : v ∈ t.doffs ↔ ∃ i, (t.sec i).doff = v := by
  have hmem := t.mem_distinct_fold v indices
  simp only [mem_indices,true_and] at hmem
  rw [doffs_eq,List.mem_insertionSort]
  exact hmem

theorem doff_mem (i : Fin 13) : (t.sec i).doff ∈ t.doffs := t.mem_doffs.mpr ⟨i,rfl⟩

/-- The offsets are placed in ascending order. -/
theorem doffs_sorted : t.doffs.Pairwise (· < ·) := by
  rw [doffs_eq]
  have hle : (t.distinct.insertionSort (· ≤ ·)).Pairwise (· ≤ ·) := List.pairwise_insertionSort _ _
  have hne : (t.distinct.insertionSort (· ≤ ·)).Pairwise (· ≠ ·) :=
    (List.perm_insertionSort _ _).nodup_iff.mpr t.nodup_distinct
  exact (hle.and hne).imp fun h => lt_of_le_of_ne h.1 h.2

theorem length_doffs : t.doffs.length ≤ 13 := by
  rw [doffs_eq,List.length_insertionSort]
  exact t.length_distinct

/-- The owner of an offset is the last section that has it. -/
theorem owner_fold (od : ℕ) (l : List (Fin 13)) (hl : l.Pairwise (· < ·)) :
    let r := l.foldl (fun r i =>
      if (t.sec i).doff = od ∧ t.rlen (t.sec i).doff ≥ r.2 then (some i,t.rlen (t.sec i).doff)
      else r) ((none : Option (Fin 13)),0)
    (r = (none,0) ∧ ∀ i ∈ l, (t.sec i).doff ≠ od) ∨
      ∃ w ∈ l, r = (some w,t.rlen od) ∧ (t.sec w).doff = od ∧
        ∀ i ∈ l, (t.sec i).doff = od → i ≤ w := by
  induction l using List.reverseRecOn with
  | nil => simp
  | append_singleton l j ih =>
    obtain ⟨hl,-,hj⟩ := List.pairwise_append.mp hl
    have hlast : ∀ i ∈ l, i ≤ j := fun i hi => (hj i hi j (by simp)).le
    simp only [List.foldl_append,List.foldl_cons,List.foldl_nil]
    by_cases hd : (t.sec j).doff = od
    · refine .inr ⟨j,by simp,?_,hd,fun i hi _ => ?_⟩
      · rcases ih hl with ⟨hr,-⟩ | ⟨w,-,hr,-,-⟩ <;> rw [hr] <;> simp [hd]
      · rcases List.mem_append.mp hi with hi | hi
        · exact hlast i hi
        · exact (List.mem_singleton.mp hi).le
    · rw [if_neg fun h => hd h.1]
      rcases ih hl with ⟨hr,hn⟩ | ⟨w,hw,hr,hwd,hmax⟩
      · refine .inl ⟨hr,fun i hi => ?_⟩
        rcases List.mem_append.mp hi with hi | hi
        · exact hn i hi
        · rwa [List.mem_singleton.mp hi]
      · refine .inr ⟨w,by simp [hw],hr,hwd,fun i hi he => ?_⟩
        rcases List.mem_append.mp hi with hi | hi
        · exact hmax i hi he
        · rw [List.mem_singleton.mp hi] at he
          exact absurd he hd

theorem owner_spec {od : ℕ} (h : od ∈ t.doffs) :
    ∃ w, t.owner od = (some w,t.rlen od) ∧ (t.sec w).doff = od ∧
      ∀ i, (t.sec i).doff = od → i ≤ w := by
  rcases t.owner_fold od indices (List.pairwise_lt_finRange 13) with ⟨-,hn⟩ | ⟨w,-,hr,hw,hmax⟩
  · obtain ⟨i,hi⟩ := t.mem_doffs.mp h
    exact absurd hi (hn i (mem_indices i))
  · exact ⟨w,hr,hw,fun i hi => hmax i (mem_indices i) hi⟩

/-- The last section of a type at an offset, over any list of sections. -/
theorem lastAt_fold (od type : ℕ) (l : List (Fin 13)) (hl : l.Pairwise (· < ·)) :
    let r := l.foldl (fun r i =>
      if (t.sec i).doff = od ∧ (t.sec i).type = type then some i else r) none
    (r = none ∧ ∀ i ∈ l, (t.sec i).doff = od → (t.sec i).type ≠ type) ∨
      ∃ w ∈ l, r = some w ∧ (t.sec w).doff = od ∧ (t.sec w).type = type ∧
        ∀ i ∈ l, (t.sec i).doff = od → (t.sec i).type = type → i ≤ w := by
  induction l using List.reverseRecOn with
  | nil => simp
  | append_singleton l j ih =>
    obtain ⟨hl,-,hj⟩ := List.pairwise_append.mp hl
    simp only [List.foldl_append,List.foldl_cons,List.foldl_nil]
    split
    · rename_i hd
      refine .inr ⟨j,by simp,rfl,hd.1,hd.2,fun i hi _ _ => ?_⟩
      rcases List.mem_append.mp hi with hi | hi
      · exact (hj i hi j (by simp)).le
      · exact (List.mem_singleton.mp hi).le
    · rename_i hd
      rcases ih hl with ⟨hr,hn⟩ | ⟨w,hw,hr,hwd,hwt,hmax⟩
      · refine .inl ⟨hr,fun i hi he ht => ?_⟩
        rcases List.mem_append.mp hi with hi | hi
        · exact hn i hi he ht
        · rw [List.mem_singleton.mp hi] at he ht
          exact hd ⟨he,ht⟩
      · refine .inr ⟨w,by simp [hw],hr,hwd,hwt,fun i hi he ht => ?_⟩
        rcases List.mem_append.mp hi with hi | hi
        · exact hmax i hi he ht
        · rw [List.mem_singleton.mp hi] at he ht
          exact absurd ⟨he,ht⟩ hd

theorem lastAt_spec (od type : ℕ) :
    (t.lastAt od type = none ∧ ∀ i, (t.sec i).doff = od → (t.sec i).type ≠ type) ∨
      ∃ w, t.lastAt od type = some w ∧ (t.sec w).doff = od ∧ (t.sec w).type = type ∧
        ∀ i, (t.sec i).doff = od → (t.sec i).type = type → i ≤ w := by
  rcases t.lastAt_fold od type indices (List.pairwise_lt_finRange 13) with
    ⟨hr,hn⟩ | ⟨w,-,hr,hd,ht,hmax⟩
  · exact .inl ⟨hr,fun i => hn i (mem_indices i)⟩
  · exact .inr ⟨w,hr,hd,ht,fun i => hmax i (mem_indices i)⟩

/-- The extent of a map entry other than the block at 0x1f0 is the section's length. -/
theorem extent_eq {od : ℕ} (h : od ∈ t.doffs) (hne : od ≠ headSz) : t.extent od = t.rlen od := by
  have hfold : ∀ l : List (Fin 13), ((∀ i ∈ l, (t.sec i).doff ≠ od) ∨
      l.foldl (fun ml i => if (t.sec i).doff = od ∧ t.rlen (t.sec i).doff > ml then
        t.rlen (t.sec i).doff else ml) 0 = t.rlen od) ∧
      l.foldl (fun ml i => if (t.sec i).doff = od ∧ t.rlen (t.sec i).doff > ml then
        t.rlen (t.sec i).doff else ml) 0 ≤ t.rlen od := by
    intro l
    induction l using List.reverseRecOn with
    | nil => simp
    | append_singleton l j ih =>
      simp only [List.foldl_append,List.foldl_cons,List.foldl_nil]
      by_cases hd : (t.sec j).doff = od
      · refine ⟨.inr ?_,?_⟩
        · split <;> simp_all
          omega
        · split <;> simp_all
      · rw [if_neg fun h => hd h.1]
        refine ⟨ih.1.imp_left fun hn i hi => ?_,ih.2⟩
        rcases List.mem_append.mp hi with hi | hi
        · exact hn i hi
        · rwa [List.mem_singleton.mp hi]
  obtain ⟨i,hi⟩ := t.mem_doffs.mp h
  rw [extent,if_neg hne]
  exact (hfold indices).1.resolve_left fun hn => hn i (mem_indices i) hi

/-! ## Placement -/

/-- What a round of the placement loop does to `cur`. -/
def advance (cur od : ℕ) : ℕ :=
  if od = headSz then u32 (align 8 (u32 (cur + buildLen)) + 64)
  else align 4 (u32 (cur + t.placed od))

/-- The place of an offset: what the offsets below it take up. -/
def startOf (od : ℕ) : ℕ := (t.doffs.takeWhile (· < od)).foldl t.advance headSz

/-- The end of the room that is reserved for an offset. -/
def endOf (od : ℕ) : ℕ := t.advance (t.startOf od) od

theorem place_cur (l : Layout) (od : ℕ) : (t.place l od).cur = t.advance l.cur od := by
  unfold place advance
  split <;> rfl

theorem foldl_place_cur (ds : List ℕ) (l : Layout) :
    (ds.foldl t.place l).cur = ds.foldl t.advance l.cur := by
  induction ds generalizing l with
  | nil => rfl
  | cons od ds ih => rw [List.foldl_cons,List.foldl_cons,ih,place_cur]

theorem newSize_eq : t.newSize = t.doffs.foldl t.advance headSz := t.foldl_place_cur _ _

/-- The offsets below one of them are those placed before it. -/
theorem takeWhile_lt {pre post : List ℕ} {od : ℕ} (h : t.doffs = pre ++ od :: post) :
    t.doffs.takeWhile (· < od) = pre := by
  have hs := t.doffs_sorted
  rw [h] at hs ⊢
  have hlt : ∀ p ∈ pre, p < od := fun p hp => (List.pairwise_append.mp hs).2.2 p hp od (by simp)
  rw [List.takeWhile_append_of_pos fun p hp => by simpa using hlt p hp]
  simp

theorem startOf_eq {pre post : List ℕ} {od : ℕ} (h : t.doffs = pre ++ od :: post) :
    t.startOf od = pre.foldl t.advance headSz := by rw [startOf,t.takeWhile_lt h]

theorem foldl_concat (pre : List ℕ) (od cur : ℕ) :
    (pre ++ [od]).foldl t.advance cur = t.advance (pre.foldl t.advance cur) od := by
  rw [List.foldl_append,List.foldl_cons,List.foldl_nil]

theorem endOf_eq {pre post : List ℕ} {od : ℕ} (h : t.doffs = pre ++ od :: post) :
    t.endOf od = (pre ++ [od]).foldl t.advance headSz := by
  rw [endOf,t.startOf_eq h,foldl_concat]

theorem setNewDoff_apply (newDoff : Fin 13 → ℕ) (o : Option (Fin 13)) (cur : ℕ) (i : Fin 13) :
    setNewDoff newDoff o cur i = if o = some i then cur else newDoff i := by
  cases o with
  | none => rfl
  | some j =>
    simp only [setNewDoff,Function.update_apply,Option.some_inj]
    split <;> split <;> simp_all

theorem lastAt_doff {od type : ℕ} {i : Fin 13} (h : t.lastAt od type = some i) :
    (t.sec i).doff = od ∧ (t.sec i).type = type := by
  rcases t.lastAt_spec od type with ⟨hn,-⟩ | ⟨w,hw,hd,ht,-⟩
  · simp [hn] at h
  · obtain rfl : w = i := by simpa [hw] using h
    exact ⟨hd,ht⟩

/-- What `new_doff` of a section becomes when its offset is placed. -/
def placedAt (i : Fin 13) : ℕ :=
  if (t.sec i).doff = headSz then
    if t.lastAt headSz 10 = some i then align 8 (u32 (t.startOf headSz + buildLen))
    else if t.lastAt headSz 2 = some i then t.startOf headSz else 0
  else t.startOf (t.sec i).doff

theorem place_newDoff (l : Layout) (od : ℕ) (hcur : l.cur = t.startOf od) (i : Fin 13)
    (hzero : (t.sec i).doff = od → l.newDoff i = 0) :
    (t.place l od).newDoff i = if (t.sec i).doff = od then t.placedAt i else l.newDoff i := by
  unfold place
  by_cases hod : od = headSz
  · subst hod
    rw [if_pos rfl]
    simp only [setNewDoff_apply,hcur]
    by_cases hi : (t.sec i).doff = headSz
    · simp only [hi,if_true,placedAt,hzero hi]
    · have hn : ∀ type, t.lastAt headSz type ≠ some i := fun type h => hi (t.lastAt_doff h).1
      simp only [hi,if_false,hn]
  · rw [if_neg hod]
    by_cases hi : (t.sec i).doff = od
    · simp [hi,placedAt,hod,hcur]
    · simp [hi]

/-- What the placement loop has recorded after a part of the offsets. -/
theorem place_part {pre post : List ℕ} (h : t.doffs = pre ++ post) :
    (pre.foldl t.place .init).map = pre.map (fun od => (od,t.startOf od)) ∧
    ∀ i, (pre.foldl t.place .init).newDoff i =
      if (t.sec i).doff ∈ pre then t.placedAt i else 0 := by
  induction pre using List.reverseRecOn generalizing post with
  | nil => simp [Layout.init]
  | append_singleton pre od ih =>
    have h' : t.doffs = pre ++ od :: post := by simpa using h
    obtain ⟨hmap,hnew⟩ := ih h'
    have hcur : (pre.foldl t.place .init).cur = t.startOf od := by
      rw [t.startOf_eq h',foldl_place_cur]
      rfl
    have hfresh : od ∉ pre := by
      have hs := t.doffs_sorted
      rw [h'] at hs
      exact fun hm => absurd ((List.pairwise_append.mp hs).2.2 od hm od (by simp)) (lt_irrefl od)
    simp only [List.foldl_append,List.foldl_cons,List.foldl_nil]
    constructor
    · have hplace : ∀ l : Layout, (t.place l od).map = l.map ++ [(od,l.cur)] := by
        intro l
        unfold place
        split <;> rfl
      rw [hplace,hmap,hcur]
      simp
    · intro i
      rw [t.place_newDoff _ od hcur i fun hi => by rw [hnew,if_neg (hi ▸ hfresh)],hnew]
      simp only [List.mem_append,List.mem_singleton]
      by_cases hi : (t.sec i).doff = od
      · simp [hi]
      · simp [hi]

theorem layout_map : t.layout.map = t.doffs.map fun od => (od,t.startOf od) :=
  (t.place_part (List.append_nil _).symm).1

theorem newDoff_eq (i : Fin 13) : t.newDoff i = t.placedAt i := by
  rw [newDoff,layout,(t.place_part (List.append_nil _).symm).2 i,if_pos (t.doff_mem i)]

/-- Every section but those at 0x1f0 goes to the place of its offset. -/
theorem newDoff_of_ne {i : Fin 13} (h : (t.sec i).doff ≠ headSz) :
    t.newDoff i = t.startOf (t.sec i).doff := by rw [newDoff_eq,placedAt,if_neg h]

/-! ## No sum wraps around -/

/-- Every section starts inside the file, whose length is a positive `int`. -/
structure Bounded : Prop where
  len : t.len < 2147483648
  doff : ∀ i, (t.sec i).doff ≤ t.len

variable {t}

theorem Bounded.doffs (h : t.Bounded) {od : ℕ} (hod : od ∈ t.doffs) : od ≤ t.len := by
  obtain ⟨i,rfl⟩ := t.mem_doffs.mp hod
  exact h.doff i

theorem Bounded.end_eq (h : t.Bounded) {od : ℕ} (hod : od ∈ t.doffs) :
    od + t.rlen od = t.best od := t.rlen_of_le h.len (h.doffs hod)

/-- A section ends at or before every later offset. -/
theorem Bounded.end_le (h : t.Bounded) {od od' : ℕ} (hod : od ∈ t.doffs) (hod' : od' ∈ t.doffs)
    (hlt : od < od') : od + t.rlen od ≤ od' := by
  obtain ⟨i,rfl⟩ := t.mem_doffs.mp hod'
  rw [h.end_eq hod]
  exact t.best_le_doff hlt

theorem Bounded.end_le_len (h : t.Bounded) {od : ℕ} (hod : od ∈ t.doffs) :
    od + t.rlen od ≤ t.len := by
  rw [h.end_eq hod]
  exact t.best_le od

/-- The bytes reserved for the owner, where nothing wraps around. -/
theorem placed_le {od : ℕ} (hod : od ∈ t.doffs) (hr : t.rlen od < 4294967296 - codeGrow) :
    t.placed od ≤ t.rlen od + codeGrow := by
  obtain ⟨w,ho,hw,-⟩ := t.owner_spec hod
  have hu : u32 (t.rlen od + codeGrow) = t.rlen od + codeGrow := u32_of_lt (by omega)
  simp only [placed,ho,hw,hu]
  split
  · omega
  · split
    · split <;> simp only [codeGrow] <;> omega
    · omega

/-- A round of the placement that does not wrap around: how far it goes at most,
that it reserves what is placed, and that it ends on a word boundary. -/
theorem advance_spec (cur : ℕ) {od : ℕ} (hod : od ∈ t.doffs) (hsum : cur + t.rlen od < 4294966000) :
    t.advance cur od ≤ cur + t.rlen od + 100 ∧ t.advance cur od%4 = 0 ∧
      (od = headSz → t.advance cur od = (cur + 27)/8*8 + 64) ∧
      (od ≠ headSz → t.advance cur od = (cur + t.placed od + 3)/4*4) := by
  have hp := placed_le hod (by simp only [codeGrow]; omega)
  simp only [codeGrow] at hp
  unfold advance align buildLen u32
  split <;> refine ⟨by omega,by omega,fun h => ?_,fun h => ?_⟩ <;> omega

/-- `cur` after a part of the offsets is not far above what they cover of the old file. -/
theorem Bounded.cur_bound (h : t.Bounded) {pre post : List ℕ} (hd : t.doffs = pre ++ post) :
    pre.foldl t.advance headSz ≤ headSz + t.len + 100*pre.length ∧
      (∀ od ∈ post, pre.foldl t.advance headSz ≤ headSz + od + 100*pre.length) := by
  induction pre using List.reverseRecOn generalizing post with
  | nil => simp
  | append_singleton pre p ih =>
    have hd' : t.doffs = pre ++ p :: post := by simpa using hd
    have hmem : p ∈ t.doffs := by simp [hd']
    have hcur := (ih hd').2 p (by simp)
    have hlen : pre.length ≤ 13 := by
      have := t.length_doffs
      simp only [hd',List.length_append,List.length_cons] at this
      omega
    have hend := h.end_le_len hmem
    have hl := h.len
    have hadv := (t.advance_spec (pre.foldl t.advance headSz) hmem
      (by simp only [headSz] at hcur ⊢; omega)).1
    simp only [List.foldl_append,List.foldl_cons,List.foldl_nil,List.length_append,
      List.length_singleton]
    refine ⟨by omega,fun od hod => ?_⟩
    have hlt : p < od := by
      have hs := t.doffs_sorted
      rw [hd'] at hs
      exact (List.pairwise_cons.mp (List.pairwise_append.mp hs).2.1).1 od hod
    have := h.end_le hmem (by simp [hd',hod]) hlt
    omega

/-- A round of the placement of a bounded table. -/
theorem Bounded.advance_part (h : t.Bounded) {pre post : List ℕ} {od : ℕ}
    (hd : t.doffs = pre ++ od :: post) :
    let cur := pre.foldl t.advance headSz
    t.advance cur od%4 = 0 ∧ cur ≤ t.advance cur od ∧
      (od = headSz → t.advance cur od = (cur + 27)/8*8 + 64) ∧
      (od ≠ headSz → t.advance cur od = (cur + t.placed od + 3)/4*4) := by
  have hmem : od ∈ t.doffs := by simp [hd]
  have hcur := (h.cur_bound hd).2 od (by simp)
  have hlen : pre.length ≤ 13 := by
    have := t.length_doffs
    simp only [hd,List.length_append,List.length_cons] at this
    omega
  have hend := h.end_le_len hmem
  have hl := h.len
  obtain ⟨-,hmod,hhead,hne⟩ := t.advance_spec (pre.foldl t.advance headSz) hmem
    (by simp only [headSz] at hcur ⊢; omega)
  refine ⟨hmod,?_,hhead,hne⟩
  by_cases hod : od = headSz
  · rw [hhead hod]
    omega
  · rw [hne hod]
    omega

theorem Bounded.cur_mono (h : t.Bounded) (pre mid : List ℕ) {post : List ℕ}
    (hd : t.doffs = (pre ++ mid) ++ post) :
    pre.foldl t.advance headSz ≤ (pre ++ mid).foldl t.advance headSz := by
  induction mid using List.reverseRecOn generalizing post with
  | nil => simp
  | append_singleton mid p ih =>
    have hd' : t.doffs = (pre ++ mid) ++ p :: post := by simpa using hd
    refine (ih hd').trans ?_
    rw [← List.append_assoc,t.foldl_concat]
    exact (h.advance_part hd').2.1

theorem Bounded.cur_head (h : t.Bounded) {pre post : List ℕ} (hd : t.doffs = pre ++ post) :
    headSz ≤ pre.foldl t.advance headSz := by
  simpa using h.cur_mono [] pre (by simpa using hd)

theorem Bounded.cur_mod (h : t.Bounded) {pre post : List ℕ} (hd : t.doffs = pre ++ post) :
    pre.foldl t.advance headSz%4 = 0 := by
  induction pre using List.reverseRecOn generalizing post with
  | nil => exact show headSz%4 = 0 by decide
  | append_singleton pre p ih =>
    have hd' : t.doffs = pre ++ p :: post := by simpa using hd
    rw [t.foldl_concat]
    exact (h.advance_part hd').1

/-! ### The layout of a bounded table -/

section Bounded

variable (h : t.Bounded) {od od' : ℕ} (hod : od ∈ t.doffs) (hod' : od' ∈ t.doffs)
include hod

/-- The room of an offset ends where that of the next begins, or with the file. -/
theorem endOf_next :
    t.endOf od = t.newSize ∨ ∃ od' ∈ t.doffs, od < od' ∧ t.startOf od' = t.endOf od := by
  obtain ⟨pre,post,hd⟩ := List.append_of_mem hod
  cases post with
  | nil => exact .inl (by rw [t.endOf_eq hd,t.newSize_eq,hd])
  | cons od' post =>
    have hs := t.doffs_sorted
    rw [hd] at hs
    refine .inr ⟨od',by simp [hd],(List.pairwise_cons.mp (List.pairwise_append.mp hs).2.1).1 _
      (by simp),?_⟩
    rw [t.endOf_eq hd,t.startOf_eq (show t.doffs = (pre ++ [od]) ++ od' :: post by simp [hd])]

include h

theorem Bounded.startOf_spec :
    headSz ≤ t.startOf od ∧ t.startOf od%4 = 0 ∧ t.startOf od ≤ headSz + od + 1300 := by
  obtain ⟨pre,post,hd⟩ := List.append_of_mem hod
  rw [t.startOf_eq hd]
  have hlen := t.length_doffs
  simp only [hd,List.length_append,List.length_cons] at hlen
  have := (h.cur_bound hd).2 od (by simp)
  exact ⟨h.cur_head hd,h.cur_mod hd,by omega⟩

theorem Bounded.endOf_spec :
    t.endOf od%4 = 0 ∧ t.startOf od ≤ t.endOf od ∧
      (od = headSz → t.endOf od = (t.startOf od + 27)/8*8 + 64) ∧
      (od ≠ headSz → t.endOf od = (t.startOf od + t.placed od + 3)/4*4) := by
  obtain ⟨pre,post,hd⟩ := List.append_of_mem hod
  have := h.advance_part hd
  rwa [← t.startOf_eq hd] at this

include hod' in
/-- Offsets are placed one behind the other. -/
theorem Bounded.endOf_le_startOf (hlt : od < od') : t.endOf od ≤ t.startOf od' := by
  obtain ⟨pre,post,hd⟩ := List.append_of_mem hod
  have hs := t.doffs_sorted
  rw [hd] at hs
  have hpost : od' ∈ post := by
    rw [hd] at hod'
    rcases List.mem_append.mp hod' with hm | hm
    · exact absurd ((List.pairwise_append.mp hs).2.2 od' hm od (by simp)) (by omega)
    · exact (List.mem_cons.mp hm).resolve_left (by omega)
  obtain ⟨mid,post',rfl⟩ := List.append_of_mem hpost
  have hd' : t.doffs = (pre ++ [od] ++ mid) ++ od' :: post' := by simp [hd]
  rw [t.endOf_eq hd,t.startOf_eq hd']
  exact h.cur_mono _ _ hd'

theorem Bounded.endOf_le_newSize : t.endOf od ≤ t.newSize := by
  obtain ⟨pre,post,hd⟩ := List.append_of_mem hod
  have hd' : t.doffs = (pre ++ [od] ++ post) ++ [] := by simp [hd]
  have := h.cur_mono _ _ hd'
  rw [t.endOf_eq hd,t.newSize_eq]
  simpa [hd] using this

omit hod in
theorem Bounded.newSize_spec : headSz ≤ t.newSize ∧ t.newSize ≤ headSz + t.len + 1300 := by
  have hd : t.doffs = t.doffs ++ [] := by simp
  have hlen := t.length_doffs
  have := (h.cur_bound hd).1
  rw [t.newSize_eq]
  exact ⟨h.cur_head hd,by omega⟩

end Bounded

end Table
end Xlate
end Kitakami

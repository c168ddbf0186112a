import Kitakami.Base.Strings

/-!
# The build stamp of the driver

`load_driver_key` looks through a shared object for the strings that the
compiler has put in place of `__DATE__` and `__TIME__`. The month is looked up
as a substring of a table of all months, so three letters across two of them
pass, and so does a string that is shorter than three letters.
-/

namespace Kitakami
namespace Xlate
namespace DriverKey

def months : List Str :=
  ["Jan","Feb","Mar","Apr","May","Jun","Jul","Aug","Sep","Oct","Nov","Dec"].map str

def mon : Str := str "JanFebMarAprMayJunJulAugSepOctNovDec"

/-- `strstr(s, m) != NULL`. -/
def strstr (s m : Str) : Bool := s.tails.any fun t => m.isPrefixOf t

/-- The bytes, each tested by the predicate at its place. -/
def fits (ps : List (UInt8 → Bool)) (s : Str) : Bool := (ps.zipWith (fun p c => p c) s).all id

/-- What follows the month in a date. -/
def datePattern : List (UInt8 → Bool) :=
  [(· = 32),fun c => c = 32 || isDigit c,isDigit,(· = 32),isDigit,isDigit,isDigit,isDigit,(· = 0)]

def timePattern : List (UInt8 → Bool) :=
  [isDigit,isDigit,(· = 58),isDigit,isDigit,(· = 58),isDigit,isDigit,(· = 0)]

/-- The bytes at a place, in range or not. -/
def slice (b : Bytes) (p n : ℕ) : Str := (List.range n).map fun k => b.get (p+k)

def readBytes (b : Bytes) (p n : ℕ) : Option Str :=
  if p + n ≤ b.size then some (slice b p n) else none

/-- The month test of `is_date`, on a string of at most three letters. -/
def isMonth (m : Str) : Bool := strstr mon (m.takeWhile (· ≠ 0))

def isDate (b : Bytes) (p : ℕ) : Option Bool :=
  (readBytes b p 3).bind fun m =>
    if isMonth m then (readBytes b (p+3) 9).map (fits datePattern) else some false

def isTime (b : Bytes) (p : ℕ) : Option Bool := (readBytes b p 9).map (fits timePattern)

/-- The inner loop: past the zeros after a date, 20 of them at most. -/
def skipZeros (b : Bytes) (i : ℕ) : ℕ → ℕ → Option ℕ
  | 0, j => some j
  | k+1, j =>
    if j < b.size ∧ j < i + 32 then
      (b.rdByte j).bind fun c => if c = 0 then skipZeros b i k (j+1) else some j
    else some j

/-- The key: date and time, the rest of the buffer zero. -/
def writeKey (b dst : Bytes) (i j : ℕ) : Option Bytes := do
  let d ← dst.memset 0 0 dst.size
  let d ← d.memcpy 0 b i 11
  d.memcpy 11 b j 8

/-- The outer loop of `load_driver_key`, with the value it returns. -/
def searchLoop (b dst : Bytes) : ℕ → ℕ → Option (ℤ × Bytes)
  | 0, _ => some (-1,dst)
  | k+1, i =>
    if i + 12 < b.size then
      (isDate b i).bind fun date =>
        if date then
          (skipZeros b i 20 (i+12)).bind fun j =>
            if j + 9 > b.size then searchLoop b dst k (i+1)
            else
              (isTime b j).bind fun time =>
                if time then
                  if 11 + 8 ≥ dst.size then some (-1,dst)
                  else (writeKey b dst i j).map fun d => (0,d)
                else searchLoop b dst k (i+1)
        else searchLoop b dst k (i+1)
    else some (-1,dst)

/-- `file` is the content, if it can be read, and `dst` the buffer of `dstlen` bytes. -/
def loadDriverKey (file : Option Bytes) (dst : Bytes) : Option (ℤ × Bytes) :=
  match file with
  | none => some (-1,dst)
  | some b => searchLoop b dst b.size 0

/-- A date at `i` and a time at `j`, with a month that passes the test. -/
structure Stamp (month : Str → Bool) (b : Bytes) (i j : ℕ) : Prop where
  month : month (slice b i 3)
  date : fits datePattern (slice b (i+3) 9)
  after : i + 12 ≤ j
  near : j ≤ i + 32
  zeros : ∀ k, i + 12 ≤ k → k < j → b.get k = 0
  time : fits timePattern (slice b j 9)
  inside : j + 9 ≤ b.size

/-- A stamp of the compiler. -/
abbrev Genuine (b : Bytes) (i j : ℕ) : Prop := Stamp (fun m => m ∈ months) b i j

/-- The buffer holds the date at `i` and the time at `j`, zero padded. -/
structure HoldsKey (b : Bytes) (i j : ℕ) (dst dst' : Bytes) : Prop where
  size : dst'.size = dst.size
  date : ∀ k < 11, dst'.get k = b.get (i+k)
  time : ∀ k < 8, dst'.get (11+k) = b.get (j+k)
  padding : ∀ k, 19 ≤ k → k < dst.size → dst'.get k = 0

/-- The result is that of the first stamp of the compiler, if there is one. -/
structure Finds (b dst : Bytes) (r : ℤ × Bytes) : Prop where
  success : r.1 = 0 ↔ ∃ i j, Genuine b i j
  key : ∀ i j, Genuine b i j → (∀ i' j', Genuine b i' j' → i ≤ i') → HoldsKey b i j dst r.2
  unchanged : (¬ ∃ i j, Genuine b i j) → r.2 = dst

/-! ## Lemmas on the search -/

variable {b dst : Bytes} {i j : ℕ}

theorem readBytes_of_le {p n : ℕ} (h : p + n ≤ b.size) : readBytes b p n = some (slice b p n) :=
  if_pos h

/-- Each name of a month passes the test. -/
theorem isMonth_of_mem : ∀ m ∈ months, isMonth m = true := by
  decide +kernel

/-- A stamp of the compiler is one that the code accepts. -/
theorem Stamp.accepted (h : Genuine b i j) : Stamp isMonth b i j :=
  { h with month := isMonth_of_mem _ (by simpa using h.month) }

theorem isDate_eq (h : i + 12 < b.size) :
    isDate b i = some (isMonth (slice b i 3) && fits datePattern (slice b (i+3) 9)) := by
  rw [isDate,readBytes_of_le (by omega),Option.bind_some,readBytes_of_le (by omega)]
  cases isMonth (slice b i 3) <;> rfl

/-- The inner loop stops at the first byte that is not zero, or at its bounds. -/
theorem skipZeros_spec (k j : ℕ) (hk : i + 32 ≤ j + k) (hj : j ≤ i + 32) :
    ∃ j', skipZeros b i k j = some j' ∧ j ≤ j' ∧ j' ≤ i + 32 ∧
      (∀ n, j ≤ n → n < j' → b.get n = 0) ∧ (j' < b.size → j' < i + 32 → b.get j' ≠ 0) := by
  induction k generalizing j with
  | zero => exact ⟨j,rfl,le_rfl,hj,fun n h₁ h₂ => absurd h₂ (by omega),fun _ _ => by omega⟩
  | succ k ih =>
    unfold skipZeros
    split
    · case _ hgo =>
      rw [Bytes.rdByte_of_lt hgo.1,Option.bind_some]
      split
      · case _ hz =>
        obtain ⟨j',he,hle,hnear,hzeros,hstop⟩ := ih (j+1) (by omega) (by omega)
        refine ⟨j',he,by omega,hnear,fun n hn hn' => ?_,hstop⟩
        rcases Nat.eq_or_lt_of_le hn with rfl | hlt
        · exact hz
        · exact hzeros n hlt hn'
      · case _ hz =>
        exact ⟨j,rfl,le_rfl,hj,fun n h₁ h₂ => absurd h₂ (by omega),fun _ _ => hz⟩
    · case _ hgo =>
      exact ⟨j,rfl,le_rfl,hj,fun n h₁ h₂ => absurd h₂ (by omega),fun h₁ h₂ => absurd ⟨h₁,h₂⟩ hgo⟩

/-- The time begins with a digit, so it is where the zeros end. -/
theorem Stamp.get_ne {month : Str → Bool} (h : Stamp month b i j) : b.get j ≠ 0 := by
  intro hz
  have htime := h.time
  simp only [slice,fits,timePattern,List.range_succ,List.range_zero,List.nil_append,List.cons_append,
    List.map_cons,List.zipWith_cons_cons,List.all_cons,id,Nat.add_zero,hz] at htime
  exact absurd htime (by simp [isDigit])

/-- The place of the time is determined by that of the date. -/
theorem Stamp.unique {month month' : Str → Bool} {j' : ℕ} (h : Stamp month b i j)
    (h' : Stamp month' b i j') : j = j' := by
  rcases Nat.lt_trichotomy j j' with hlt | heq | hlt
  · exact absurd (h'.zeros j h.after hlt) h.get_ne
  · exact heq
  · exact absurd (h.zeros j' h'.after hlt) h'.get_ne

/-- With room for 20 bytes the key is written. -/
theorem writeKey_holds (hi : i + 11 ≤ b.size) (hj : j + 8 ≤ b.size) (hd : 20 ≤ dst.size) :
    ∃ d, writeKey b dst i j = some d ∧ HoldsKey b i j dst d := by
  refine ⟨((dst.put 0 dst.size fun _ => 0).put 0 11 fun k => b.get (i+k)).put 11 8 fun k =>
    b.get (j+k),?_,rfl,?_,?_,?_⟩
  · have h₁ : dst.memset 0 0 dst.size = some (dst.put 0 dst.size fun _ => 0) :=
      Bytes.memset_eq_some.mpr ⟨Or.inr (by omega),rfl⟩
    have h₂ : (dst.put 0 dst.size fun _ => 0).memcpy 0 b i 11 = some
        ((dst.put 0 dst.size fun _ => 0).put 0 11 fun k => b.get (i+k)) :=
      Bytes.memcpy_eq_some.mpr ⟨Or.inr ⟨hi,by rw [Bytes.size_put]; omega⟩,rfl⟩
    simp only [writeKey,h₁,h₂,Option.bind_eq_bind,Option.bind_some]
    exact Bytes.memcpy_eq_some.mpr ⟨Or.inr ⟨hj,by simp only [Bytes.size_put]; omega⟩,rfl⟩
  · intro k hk
    rw [Bytes.get_put_outside _ _ (by omega),Bytes.get_put_inside _ _ (by omega),Nat.sub_zero]
  · intro k hk
    rw [Bytes.get_put_inside _ _ (by omega),Nat.add_sub_cancel_left]
  · intro k hk hlt
    rw [Bytes.get_put_outside _ _ (by omega),Bytes.get_put_outside _ _ (by omega),
      Bytes.get_put_inside _ _ (by omega)]

/-- One round: the key is written if there is a stamp at this place, else the search goes on. -/
theorem searchLoop_step (k : ℕ) (hi : i + 12 < b.size) (hd : 20 ≤ dst.size) :
    (∃ j d, Stamp isMonth b i j ∧ searchLoop b dst (k+1) i = some (0,d) ∧
      HoldsKey b i j dst d) ∨
    ((∀ j, ¬ Stamp isMonth b i j) ∧ searchLoop b dst (k+1) i = searchLoop b dst k (i+1)) := by
  obtain ⟨j,hskip,hafter,hnear,hzeros,hstop⟩ :=
    skipZeros_spec (b:=b) (i:=i) 20 (i+12) (by omega) (by omega)
  -- The time of a stamp at this place is where the inner loop has stopped.
  have hplace : ∀ j', Stamp isMonth b i j' → j' = j := by
    intro j' h
    rcases Nat.lt_trichotomy j' j with hlt | heq | hlt
    · exact absurd (hzeros j' h.after hlt) h.get_ne
    · exact heq
    · have hsize := h.inside
      have h32 := h.near
      exact absurd (h.zeros j hafter hlt) (hstop (by omega) (by omega))
  have hround := searchLoop.eq_2 b dst i k
  rw [if_pos hi,isDate_eq hi,Option.bind_some] at hround
  by_cases hdate : isMonth (slice b i 3) && fits datePattern (slice b (i+3) 9)
  · rw [if_pos hdate,hskip,Option.bind_some] at hround
    rw [Bool.and_eq_true] at hdate
    by_cases hin : j + 9 > b.size
    · rw [if_pos hin] at hround
      refine Or.inr ⟨fun j' h => ?_,hround⟩
      obtain rfl := hplace j' h
      exact absurd h.inside (Nat.not_le_of_gt hin)
    · rw [if_neg hin,isTime,readBytes_of_le (by omega),Option.map_some,Option.bind_some] at hround
      by_cases htime : fits timePattern (slice b j 9)
      · rw [if_pos htime,if_neg (by omega)] at hround
        obtain ⟨d,hwrite,hholds⟩ := writeKey_holds (b:=b) (i:=i) (j:=j)
          (by omega) (by omega) hd
        refine Or.inl ⟨j,d,⟨hdate.1,hdate.2,hafter,hnear,hzeros,htime,by omega⟩,?_,hholds⟩
        rw [hround,hwrite,Option.map_some]
      · rw [if_neg htime] at hround
        refine Or.inr ⟨fun j' h => ?_,hround⟩
        obtain rfl := hplace j' h
        exact htime h.time
  · rw [if_neg hdate] at hround
    refine Or.inr ⟨fun j' h => hdate ?_,hround⟩
    rw [Bool.and_eq_true]
    exact ⟨h.month,h.date⟩

/-- A stamp lies where the search still looks. -/
theorem Stamp.lt_size {month : Str → Bool} (h : Stamp month b i j) : i + 12 < b.size := by
  have hafter := h.after
  have hinside := h.inside
  omega

/-- The search ends with the first stamp that the code accepts, or without one. -/
theorem searchLoop_spec (k : ℕ) (hk : b.size ≤ i + k) (hd : 20 ≤ dst.size) :
    (∃ i' j d, i ≤ i' ∧ Stamp isMonth b i' j ∧
      (∀ n m, i ≤ n → n < i' → ¬ Stamp isMonth b n m) ∧
      searchLoop b dst k i = some (0,d) ∧ HoldsKey b i' j dst d) ∨
    ((∀ n m, i ≤ n → ¬ Stamp isMonth b n m) ∧ searchLoop b dst k i = some (-1,dst)) := by
  induction k generalizing i with
  | zero =>
    refine Or.inr ⟨fun n m hn h => ?_,rfl⟩
    have hlt := h.lt_size
    omega
  | succ k ih =>
    by_cases hi : i + 12 < b.size
    · rcases searchLoop_step k hi hd with ⟨j,d,hstamp,he,hholds⟩ | ⟨hno,he⟩
      · exact Or.inl ⟨i,j,d,le_rfl,hstamp,fun n _ h₁ h₂ => absurd h₂ (by omega),he,hholds⟩
      · rw [he]
        have hnot : ∀ n m, i ≤ n → (i + 1 ≤ n → ¬ Stamp isMonth b n m) → ¬ Stamp isMonth b n m := by
          intro n m h₁ hrest
          rcases Nat.eq_or_lt_of_le h₁ with rfl | hlt
          · exact hno m
          · exact hrest hlt
        rcases ih (i:=i+1) (by omega) with
          ⟨i',j,d,hle,hstamp,hfirst,hrun,hholds⟩ | ⟨hnone,hrun⟩
        · exact Or.inl ⟨i',j,d,by omega,hstamp,
            fun n m h₁ h₂ => hnot n m h₁ fun hge => hfirst n m hge h₂,hrun,hholds⟩
        · exact Or.inr ⟨fun n m h₁ => hnot n m h₁ (hnone n m),hrun⟩
    · refine Or.inr ⟨fun n m hn h => ?_,by rw [searchLoop,if_neg hi]⟩
      have hlt := h.lt_size
      omega

/-- Where two stamps have left the same key, the months are the same. -/
theorem HoldsKey.month_eq {i' j' : ℕ} {d : Bytes} (h : HoldsKey b i j dst d)
    (h' : HoldsKey b i' j' dst d) : slice b i 3 = slice b i' 3 := by
  have hk : ∀ k < 11, b.get (i+k) = b.get (i'+k) := fun k hk => by
    rw [← h.date k hk,h'.date k hk]
  simp only [slice,List.range_succ,List.range_zero,List.nil_append,List.cons_append,List.map_cons,
    List.map_nil,hk 0 (by decide),hk 1 (by decide),hk 2 (by decide)]

/-- The result is right exactly if before every stamp whose month is none there is a
stamp of the compiler. -/
theorem loadDriverKey_finds_iff (b dst : Bytes) (hd : 20 ≤ dst.size) :
    ∃ r, loadDriverKey (some b) dst = some r ∧
      (Finds b dst r ↔ ∀ i j, Stamp isMonth b i j → ¬ Genuine b i j →
        ∃ i' j', Genuine b i' j' ∧ i' < i) := by
  rcases searchLoop_spec (b:=b) (i:=0) b.size (by omega) hd with
    ⟨i₀,j₀,d,-,hstamp,hfirst,hrun,hholds⟩ | ⟨hnone,hrun⟩
  · refine ⟨_,hrun,?_⟩
    have hleast : ∀ n m, Stamp isMonth b n m → i₀ ≤ n := fun n m h =>
      Nat.le_of_not_lt fun hlt => hfirst n m (Nat.zero_le n) hlt h
    constructor
    · classical
      intro hf i j hij hfalse
      by_contra hno
      obtain ⟨i₁,hex,hmin⟩ : ∃ i₁, (∃ j₁, Genuine b i₁ j₁) ∧
          ∀ n, (∃ m, Genuine b n m) → i₁ ≤ n := by
        have hex := hf.success.mp rfl
        exact ⟨Nat.find hex,Nat.find_spec hex,fun n hn => Nat.find_min' hex hn⟩
      obtain ⟨j₁,hg⟩ := hex
      have hkey := hf.key i₁ j₁ hg fun n m h => hmin n ⟨m,h⟩
      have hg₀ : Genuine b i₀ j₀ := { hstamp with
        month := by rw [hholds.month_eq hkey]; exact hg.month }
      have hle := hleast i j hij
      rcases Nat.eq_or_lt_of_le hle with rfl | hlt
      · rw [hij.unique hstamp] at hfalse
        exact hfalse hg₀
      · exact hno ⟨i₀,j₀,hg₀,hlt⟩
    · intro hq
      have hg₀ : Genuine b i₀ j₀ := by
        by_contra hfalse
        obtain ⟨n,m,hg,hlt⟩ := hq i₀ j₀ hstamp hfalse
        exact absurd (hleast n m hg.accepted) (Nat.not_le_of_lt hlt)
      refine ⟨⟨fun _ => ⟨i₀,j₀,hg₀⟩,fun _ => rfl⟩,fun i j hg hmin => ?_,
        fun hno => absurd ⟨i₀,j₀,hg₀⟩ hno⟩
      obtain rfl : i = i₀ := le_antisymm (hmin i₀ j₀ hg₀) (hleast i j hg.accepted)
      rw [hg.unique hg₀]
      exact hholds
  · refine ⟨_,hrun,?_⟩
    have hno : ∀ i j, ¬ Genuine b i j := fun i j h => hnone i j (Nat.zero_le i) h.accepted
    exact ⟨fun _ i j h => absurd h (hnone i j (Nat.zero_le i)),
      fun _ => ⟨⟨fun h => absurd (show (-1 : ℤ) = 0 from h) (by decide),fun ⟨i,j,h⟩ => absurd h (hno i j)⟩,
        fun i j h => absurd h (hno i j),fun _ => rfl⟩⟩

/-- A file that consists of a date and a time. -/
def stampFile (date time : String) : Bytes :=
  let s := str date ++ 0::(str time ++ [0])
  ⟨s.length,fun k => s.getD k 0⟩

theorem loadDriverKey_finds_stampFile :
    ∃ r, loadDriverKey (some (stampFile "Jan  1 2014" "12:34:56")) (.zeros 32) = some r ∧
      (Finds (stampFile "Jan  1 2014" "12:34:56") (.zeros 32) r ↔
        ∀ i j, Stamp isMonth (stampFile "Jan  1 2014" "12:34:56") i j →
          ¬ Genuine (stampFile "Jan  1 2014" "12:34:56") i j →
            ∃ i' j', Genuine (stampFile "Jan  1 2014" "12:34:56") i' j' ∧ i' < i) :=
  loadDriverKey_finds_iff (stampFile "Jan  1 2014" "12:34:56") (.zeros 32) (by decide)

/-- Three letters across two months are taken for a month. -/
theorem not_finds_straddling :
    ∃ r, loadDriverKey (some (stampFile "anF 01 2024" "12:34:56")) (.zeros 32) = some r ∧
      ¬ Finds (stampFile "anF 01 2024" "12:34:56") (.zeros 32) r := by
  have hrun : (loadDriverKey (some (stampFile "anF 01 2024" "12:34:56")) (.zeros 32)).map
      Prod.fst = some 0 := by decide +kernel
  obtain ⟨r,hr,hzero⟩ := Option.map_eq_some_iff.mp hrun
  refine ⟨r,hr,fun hf => ?_⟩
  obtain ⟨i,j,hg⟩ := hf.success.mp hzero
  have hsize : (stampFile "anF 01 2024" "12:34:56").size = 21 := by decide +kernel
  have hafter := hg.after
  have hinside := hg.inside
  obtain rfl : i = 0 := by omega
  have hmonth : decide (slice (stampFile "anF 01 2024" "12:34:56") 0 3 ∈ months) = false := by
    decide +kernel
  exact absurd (hmonth.symm.trans hg.month) (by decide)

end DriverKey
end Xlate
end Kitakami

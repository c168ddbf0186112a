import Kitakami.Gps.Nmea

/-!
# Satellites in view

The satellites of a report are counted by constellation in a first pass. For
each constellation the sentences then take four satellites each off a cursor
that runs once over the whole list and skips the others.
-/

namespace Kitakami
namespace Nmea

open Bytes

/-- What the code computes with a `float`. -/
structure Floats (F : Type) where
  /-- `(int)(0.5 + x)` -/
  toInt : F → ℤ
  toInt_range : ∀ x, -2147483648 ≤ toInt x ∧ toInt x ≤ 2147483647
  /-- `x > 0` -/
  positive : F → Bool
  zero : F

structure GpsSvInfo (F : Type) where
  prn : ℤ
  snr : F
  elevation : F
  azimuth : F

/-- A satellite report; the number of satellites is an `int`. -/
structure QcomSvStatus (F : Type) where
  svList : List (GpsSvInfo F)
  numSvs : svList.length ≤ intMax
  gpsUsedInFixMask : ℕ
  gloUsedInFixMask : ℕ

/-- The dilution of precision, where a report has it. -/
structure GpsLocationExtended (F : Type) where
  hasDop : Bool
  pdop : F
  hdop : F
  vdop : F

/-- What is kept for the position report. -/
structure LocEngData (F : Type) where
  gpsUsedMask : ℕ
  gloUsedMask : ℕ
  pdop : F
  hdop : F
  vdop : F

inductive Constellation
  | gps
  | glonass
  deriving DecidableEq

namespace Constellation

def firstPrn : Constellation → ℤ
  | .gps => 1
  | .glonass => 65

def lastPrn : Constellation → ℤ
  | .gps => 32
  | .glonass => 96

def header : Constellation → Str
  | .gps => str "$GPGSV,"
  | .glonass => str "$GLGSV,"

def blank : Constellation → Str
  | .gps => str "$GPGSV,1,1,0,"
  | .glonass => str "$GLGSV,1,1,0,"

def has {F : Type} (c : Constellation) (sv : GpsSvInfo F) : Bool :=
  decide (c.firstPrn ≤ sv.prn) && decide (sv.prn ≤ c.lastPrn)

end Constellation

variable {F : Type}

/-- The first pass; the cursor is `svNumber-1`. -/
def countSvs (svs : List (GpsSvInfo F)) (cursor gpsCount glnCount : ℕ) : ℕ × ℕ :=
  if h : cursor < svs.length then
    if Constellation.gps.has svs[cursor] then countSvs svs (cursor+1) (gpsCount+1) glnCount
    else if Constellation.glonass.has svs[cursor] then
      countSvs svs (cursor+1) gpsCount (glnCount+1)
    else countSvs svs (cursor+1) gpsCount glnCount
  else (gpsCount,glnCount)
termination_by svs.length - cursor

/-- `,%02d,%02d,%03d,` -/
def svFields (f : Floats F) (sv : GpsSvInfo F) : Str :=
  str "," ++ printInt 2 sv.prn ++ str "," ++ printInt 2 (f.toInt sv.elevation) ++ str "," ++
    printInt 3 (f.toInt sv.azimuth) ++ str ","

def appendSv (f : Floats F) (sv : GpsSvInfo F) (m : Marker) : Except Stop Marker :=
  m.append (svFields f sv) >>= fun m =>
    if f.positive sv.snr then m.append (printInt 2 (f.toInt sv.snr)) else .ok m

/-- The inner loop: the next satellites of the constellation, four at most. -/
def svLoop (f : Floats F) (c : Constellation) (svs : List (GpsSvInfo F)) (cursor i : ℕ)
    (m : Marker) : Except Stop (ℕ × Marker) :=
  if h : cursor < svs.length ∧ i < 4 then
    if c.has svs[cursor] then
      appendSv f svs[cursor] m >>= fun m => svLoop f c svs (cursor+1) (i+1) m
    else svLoop f c svs (cursor+1) i m
  else .ok (cursor,m)
termination_by svs.length - cursor

/-- `%d,%d,%02d` after the header -/
def gsvHeader (c : Constellation) (sentenceCount sentenceNumber count : ℕ) : Str :=
  c.header ++ printInt 0 sentenceCount ++ str "," ++ printInt 0 sentenceNumber ++ str "," ++
    printInt 2 count

/-- One sentence, and the cursor behind its last satellite. -/
def printGsv (f : Floats F) (c : Constellation) (svs : List (GpsSvInfo F))
    (sentenceCount count sentenceNumber cursor : ℕ) (b : Bytes) : Except Stop (ℕ × Sentence) :=
  (Marker.start b).append (gsvHeader c sentenceCount sentenceNumber count) >>= fun m =>
    svLoop f c svs cursor 0 m >>= fun r =>
      putChecksum r.2.buffer sentenceMaxLength >>= fun s => .ok (r.1,s)

/-- The sentences sent, the buffer after them, and why the function returned early if it did. -/
structure Sent where
  sentences : List Sentence
  buffer : Bytes
  stop : Option Stop

/-- The outer loop. -/
def gsvLoop (f : Floats F) (c : Constellation) (svs : List (GpsSvInfo F)) (sentenceCount count : ℕ)
    (sentenceNumber cursor : ℕ) (b : Bytes) : Sent :=
  if sentenceNumber ≤ sentenceCount then
    match printGsv f c svs sentenceCount count sentenceNumber cursor b with
    | .error e => ⟨[],b,some e⟩
    | .ok (cursor',s) =>
      let rest := gsvLoop f c svs sentenceCount count (sentenceNumber+1) cursor' s.buffer
      { rest with sentences := s :: rest.sentences }
  else ⟨[],b,none⟩
termination_by sentenceCount + 1 - sentenceNumber

/-- The sentences of one constellation. -/
def sendGsv (f : Floats F) (c : Constellation) (svs : List (GpsSvInfo F)) (count : ℕ) (b : Bytes) :
    Sent :=
  if count = 0 then
    match printBlank b c.blank with
    | .error e => ⟨[],b,some e⟩
    | .ok s => ⟨[s],s.buffer,none⟩
  else
    let sentenceCount := count/4 + (if count%4 ≠ 0 then 1 else 0)
    gsvLoop f c svs sentenceCount count 1 0 b

/-- What the position report will need. -/
def cacheFix (f : Floats F) (svStatus : QcomSvStatus F)
    (locationExtended : GpsLocationExtended F) : LocEngData F :=
  if locationExtended.hasDop then
    ⟨svStatus.gpsUsedInFixMask,svStatus.gloUsedInFixMask,locationExtended.pdop,
      locationExtended.hdop,locationExtended.vdop⟩
  else ⟨svStatus.gpsUsedInFixMask,svStatus.gloUsedInFixMask,f.zero,f.zero,f.zero⟩

/-- The sentences sent, why the function returned early if it did, and the data it leaves. -/
structure SvReport (F : Type) where
  sentences : List Sentence
  stop : Option Stop
  data : LocEngData F

def generateSv (f : Floats F) (data : LocEngData F) (svStatus : QcomSvStatus F)
    (locationExtended : GpsLocationExtended F) : SvReport F :=
  let counts := countSvs svStatus.svList 0 0 0
  let gps := sendGsv f .gps svStatus.svList counts.1 (Bytes.zeros sentenceMaxLength)
  match gps.stop with
  | some e => ⟨gps.sentences,some e,data⟩
  | none =>
    let gln := sendGsv f .glonass svStatus.svList counts.2 gps.buffer
    match gln.stop with
    | some e => ⟨gps.sentences ++ gln.sentences,some e,data⟩
    | none => ⟨gps.sentences ++ gln.sentences,none,cacheFix f svStatus locationExtended⟩

/-! ### What the sentences say -/

/-- The text of one satellite. -/
def svText (f : Floats F) (sv : GpsSvInfo F) : Str :=
  svFields f sv ++ if f.positive sv.snr then printInt 2 (f.toInt sv.snr) else []

/-- The satellites of a constellation, in the order of the list. -/
def inView (c : Constellation) (svs : List (GpsSvInfo F)) : List (GpsSvInfo F) := svs.filter c.has

/-- The text of a sentence with its satellites, without the `$`. -/
def gsvBody (f : Floats F) (c : Constellation) (sentenceCount sentenceNumber count : ℕ)
    (group : List (GpsSvInfo F)) : Str :=
  (gsvHeader c sentenceCount sentenceNumber count).tail ++ group.flatMap (svText f)

/-- The satellites in view are split into groups of at most four, in their order, and each group is
told in a sentence with its number; without satellites there is one blank sentence. -/
structure Partitions (f : Floats F) (c : Constellation) (svs : List (GpsSvInfo F))
    (sentences : List Sentence) : Prop where
  blank : inView c svs = [] → ∃ s, sentences = [s] ∧ s.Carries c.blank.tail
  groups : inView c svs ≠ [] → ∃ groups : List (List (GpsSvInfo F)),
    groups.flatten = inView c svs ∧ groups.length = ((inView c svs).length + 3)/4 ∧
      (∀ g ∈ groups, g ≠ [] ∧ g.length ≤ 4) ∧
      List.Forall₂ (fun s g => s.Carries (gsvBody f c groups.length g.2 (inView c svs).length g.1))
        sentences (groups.zipIdx 1)

variable {f : Floats F} {c : Constellation} {svs : List (GpsSvInfo F)} {sv : GpsSvInfo F}

/-! ### The first pass -/

theorem has_iff : c.has sv = true ↔ c.firstPrn ≤ sv.prn ∧ sv.prn ≤ c.lastPrn := by
  simp [Constellation.has]

theorem not_glonass_of_gps (h : Constellation.gps.has sv = true) :
    ¬ Constellation.glonass.has sv = true := by
  rw [has_iff] at h ⊢
  simp only [Constellation.firstPrn,Constellation.lastPrn] at h ⊢
  omega

theorem inView_drop {cursor : ℕ} (h : cursor < svs.length) :
    inView c (svs.drop cursor) =
      if c.has svs[cursor] then svs[cursor] :: inView c (svs.drop (cursor+1))
      else inView c (svs.drop (cursor+1)) := by
  rw [inView,List.drop_eq_getElem_cons h,List.filter_cons]
  rfl

theorem countSvs_eq (svs : List (GpsSvInfo F)) (cursor m n : ℕ) :
    countSvs svs cursor m n = (m + (inView .gps (svs.drop cursor)).length,
      n + (inView .glonass (svs.drop cursor)).length) := by
  fun_induction countSvs svs cursor m n with
  | case1 cursor m n h hgps ih =>
    rw [ih,inView_drop h,inView_drop h,if_pos hgps,if_neg (not_glonass_of_gps hgps)]
    simp only [List.length_cons]
    congr 1
    omega
  | case2 cursor m n h hgps hgln ih =>
    rw [ih,inView_drop h,inView_drop h,if_neg hgps,if_pos hgln]
    simp only [List.length_cons]
    congr 1
    omega
  | case3 cursor m n h hgps hgln ih =>
    rw [ih,inView_drop h,inView_drop h,if_neg hgps,if_neg hgln]
  | case4 cursor m n h =>
    rw [List.drop_of_length_le (Nat.not_lt.mp h)]
    rfl

/-! ### The room in a sentence -/

theorem zero_notMem_svFields (f : Floats F) (sv : GpsSvInfo F) : 0 ∉ svFields f sv := by
  have hcomma : (0 : UInt8) ∉ str "," := by decide
  simp only [svFields,List.mem_append,not_or]
  exact ⟨⟨⟨⟨⟨⟨hcomma,zero_notMem_printInt _ _⟩,hcomma⟩,zero_notMem_printInt _ _⟩,hcomma⟩,
    zero_notMem_printInt _ _⟩,hcomma⟩

theorem length_printInt_float (f : Floats F) (x : F) {width : ℕ} (hw : width ≤ 11) :
    (printInt width (f.toInt x)).length ≤ 11 := by
  have hrange := f.toInt_range x
  exact length_printInt_le (by decide : 0 < 10) hw (by omega)

theorem length_svFields_le (h : c.has sv = true) : (svFields f sv).length ≤ 28 := by
  have hprn : 0 ≤ sv.prn ∧ sv.prn.natAbs < 10^2 := by
    rw [has_iff] at h
    cases c <;> simp only [Constellation.firstPrn,Constellation.lastPrn] at h <;> omega
  have hnumber : (printInt 2 sv.prn).length ≤ 2 :=
    length_printInt_of_nonneg (by decide) le_rfl hprn.1 hprn.2
  have helevation := length_printInt_float f sv.elevation (by decide : 2 ≤ 11)
  have hazimuth := length_printInt_float f sv.azimuth (by decide : 3 ≤ 11)
  have hcomma : (str ",").length = 1 := rfl
  simp only [svFields,List.length_append,hcomma]
  omega

theorem length_svText_le (h : c.has sv = true) : (svText f sv).length ≤ 39 := by
  have hfields : (svFields f sv).length ≤ 28 := length_svFields_le h
  have hsnr := length_printInt_float f sv.snr (by decide : 2 ≤ 11)
  rw [svText,List.length_append]
  split
  · omega
  · rw [List.length_nil]
    omega

theorem length_flatMap_svText_le {group : List (GpsSvInfo F)} (h : ∀ sv ∈ group, c.has sv = true) :
    (group.flatMap (svText f)).length ≤ 39*group.length := by
  induction group with
  | nil => simp
  | cons sv group ih =>
    have hsv : (svText f sv).length ≤ 39 := length_svText_le (h sv List.mem_cons_self)
    have hrest := ih fun sv' hsv' => h sv' (List.mem_cons_of_mem _ hsv')
    rw [List.flatMap_cons,List.length_append,List.length_cons]
    omega

theorem length_gsvHeader_le {total number count : ℕ} (hn : number ≤ total)
    (hcount : count ≤ intMax) (ht : total ≤ (count+3)/4) :
    (gsvHeader c total number count).length ≤ 37 := by
  unfold intMax at hcount
  have htotal : (printInt 0 (total : ℤ)).length ≤ 9 :=
    length_printInt_of_nonneg (by decide) (by decide) (by omega) (by omega)
  have hnumber : (printInt 0 (number : ℤ)).length ≤ 9 :=
    length_printInt_of_nonneg (by decide) (by decide) (by omega) (by omega)
  have hsvs : (printInt 2 (count : ℤ)).length ≤ 10 :=
    length_printInt_of_nonneg (by decide) (by decide) (by omega) (by omega)
  have hheader : c.header.length = 7 := by cases c <;> rfl
  have hcomma : (str ",").length = 1 := rfl
  simp only [gsvHeader,List.length_append,hheader,hcomma]
  omega

theorem zero_notMem_gsvHeader (c : Constellation) (total number count : ℕ) :
    0 ∉ gsvHeader c total number count := by
  have hcomma : (0 : UInt8) ∉ str "," := by decide
  have hheader : 0 ∉ c.header := by cases c <;> decide
  simp only [gsvHeader,List.mem_append,not_or]
  exact ⟨⟨⟨⟨⟨hheader,zero_notMem_printInt _ _⟩,hcomma⟩,zero_notMem_printInt _ _⟩,hcomma⟩,
    zero_notMem_printInt _ _⟩

/-! ### One sentence -/

variable {m : Marker} {t : Str}

/-- The text `t` is what the buffer holds, and the marker stands at its end. -/
def Holds (m : Marker) (t : Str) : Prop := Writes m t ∧ IsString m.buffer 0 t

theorem Holds.appendSv (h : Holds m t) (hsv : c.has sv = true) (hroom : t.length + 39 < 200) :
    ∃ m', appendSv f sv m = .ok m' ∧ Holds m' (t ++ svText f sv) := by
  have hlen : (svText f sv).length ≤ 39 := length_svText_le hsv
  rw [svText,List.length_append] at hlen
  obtain ⟨m₁,h₁,hw₁,hs₁⟩ := h.1.append (zero_notMem_svFields f sv)
    (by rw [List.length_append]; omega)
  rw [Nmea.appendSv,h₁,svText]
  by_cases hsnr : f.positive sv.snr
  · rw [if_pos hsnr] at hlen
    obtain ⟨m₂,h₂,hw₂,hs₂⟩ := hw₁.append (zero_notMem_printInt 2 (f.toInt sv.snr))
      (by simp only [List.length_append]; omega)
    refine ⟨m₂,?_,?_⟩
    · rw [← h₂]
      exact if_pos hsnr
    · rw [if_pos hsnr,← List.append_assoc]
      exact ⟨hw₂,hs₂⟩
  · refine ⟨m₁,if_neg hsnr,?_⟩
    rw [if_neg hsnr,List.append_nil]
    exact ⟨hw₁,hs₁⟩

/-- The inner loop prints the next satellites in view, and the cursor stands behind them. -/
theorem Holds.svLoop (f : Floats F) (c : Constellation) (svs : List (GpsSvInfo F)) (cursor : ℕ)
    {i : ℕ} (h : Holds m t) (hi : i ≤ 4)
    (hroom : t.length + 39*(4-i) < 200) :
    ∃ cursor' m', svLoop f c svs cursor i m = .ok (cursor',m') ∧
      Holds m' (t ++ ((inView c (svs.drop cursor)).take (4-i)).flatMap (svText f)) ∧
      inView c (svs.drop cursor') = (inView c (svs.drop cursor)).drop (4-i) := by
  generalize hk : svs.length - cursor = k
  induction k generalizing cursor i m t with
  | zero =>
    have hend : svs.drop cursor = [] := List.drop_of_length_le (by omega)
    refine ⟨cursor,m,?_,?_,?_⟩
    · rw [Nmea.svLoop,dif_neg (by omega)]
    · simpa [hend,inView] using h
    · simp [hend,inView]
  | succ k ih =>
    have hcursor : cursor < svs.length := by omega
    rcases Nat.eq_or_lt_of_le hi with rfl | hlt
    · refine ⟨cursor,m,?_,?_,?_⟩
      · rw [Nmea.svLoop,dif_neg (by omega)]
      · simpa using h
      · simp
    rw [Nmea.svLoop,dif_pos ⟨hcursor,hlt⟩,inView_drop hcursor]
    by_cases hsv : c.has svs[cursor] = true
    · have hleft : 4 - i = (4 - (i+1)) + 1 := by omega
      have hlen : (svText f svs[cursor]).length ≤ 39 := length_svText_le hsv
      obtain ⟨m₁,h₁,hh₁⟩ := h.appendSv (f:=f) hsv (by omega)
      obtain ⟨cursor',m',hloop,hh',hdrop⟩ := ih (cursor+1) hh₁ hlt
        (by rw [List.length_append]; omega) (by omega)
      rw [if_pos hsv,if_pos hsv,h₁,hleft,List.take_succ_cons,List.flatMap_cons,List.drop_succ_cons]
      rw [List.append_assoc] at hh'
      exact ⟨cursor',m',hloop,hh',hdrop⟩
    · rw [if_neg hsv,if_neg hsv]
      exact ih (cursor+1) h hi hroom (by omega)

theorem gsvHeader_eq (c : Constellation) (total number count : ℕ) :
    gsvHeader c total number count = 36 :: (gsvHeader c total number count).tail := by
  cases c <;> rfl

/-- A sentence tells the next four satellites in view, or those that are left. -/
theorem printGsv_eq (f : Floats F) (c : Constellation) (svs : List (GpsSvInfo F))
    {total count number : ℕ} {b : Bytes} (hb : b.size = 200) (hn : number ≤ total)
    (hcount : count ≤ intMax) (ht : total ≤ (count+3)/4) (cursor : ℕ) :
    ∃ cursor' s, printGsv f c svs total count number cursor b = .ok (cursor',s) ∧
      s.buffer.size = 200 ∧
      s.Carries (gsvBody f c total number count ((inView c (svs.drop cursor)).take 4)) ∧
      inView c (svs.drop cursor') = (inView c (svs.drop cursor)).drop 4 := by
  have hheader := length_gsvHeader_le (c:=c) hn hcount ht
  obtain ⟨m,hm,hh⟩ := (writes_start hb).append (zero_notMem_gsvHeader c total number count)
    (by rw [List.nil_append]; omega)
  rw [List.nil_append] at hh
  obtain ⟨cursor',m',hloop,hh',hdrop⟩ := Holds.svLoop f c svs cursor hh (Nat.zero_le 4)
    (by omega)
  simp only [Nat.sub_zero] at hh' hdrop
  have hgroup : (((inView c (svs.drop cursor)).take 4).flatMap (svText f)).length ≤ 39*4 :=
    (length_flatMap_svText_le fun sv hsv => (List.mem_filter.mp (List.mem_of_mem_take hsv)).2).trans
      (Nat.mul_le_mul_left 39 (List.length_take_le _ _))
  have hstring := hh'.2
  have hlen : (gsvHeader c total number count).length =
      (gsvHeader c total number count).tail.length + 1 := by
    rw [gsvHeader_eq]
    rfl
  rw [gsvHeader_eq,List.cons_append] at hstring
  obtain ⟨s,hs,hsize,hcarries⟩ := putChecksum_carries hstring hh'.1.size (by
    rw [List.length_append]
    omega)
  refine ⟨cursor',s,?_,hsize,hcarries,hdrop⟩
  rw [printGsv,hm]
  change (Nmea.svLoop f c svs cursor 0 m >>= _) = _
  rw [hloop]
  change (putChecksum m'.buffer sentenceMaxLength >>= _) = _
  rw [hs]
  rfl

/-! ### All sentences -/

/-- What the outer loop sends for the satellites that are left, from a sentence number on. -/
structure Groups (f : Floats F) (c : Constellation) (total count number : ℕ)
    (left : List (GpsSvInfo F)) (groups : List (List (GpsSvInfo F))) (r : Sent) : Prop where
  stop : r.stop = none
  buffer : r.buffer.size = 200
  flatten : groups.flatten = left
  length : groups.length = (left.length + 3)/4
  size : ∀ g ∈ groups, g ≠ [] ∧ g.length ≤ 4
  carries : List.Forall₂ (fun s g => s.Carries (gsvBody f c total g.2 count g.1))
    r.sentences (groups.zipIdx number)

/-- The two passes agree: the cursor has the satellites for as many sentences as are left. -/
theorem gsvLoop_groups (f : Floats F) (c : Constellation) (svs : List (GpsSvInfo F))
    {total count number : ℕ} (cursor : ℕ) {b : Bytes} (hb : b.size = 200)
    (hcount : count ≤ intMax) (ht : total ≤ (count+3)/4)
    (hleft : number + ((inView c (svs.drop cursor)).length + 3)/4 = total + 1) :
    ∃ groups, Groups f c total count number (inView c (svs.drop cursor)) groups
      (gsvLoop f c svs total count number cursor b) := by
  generalize hk : total + 1 - number = k
  induction k generalizing number cursor b with
  | zero =>
    have hnil : inView c (svs.drop cursor) = [] := List.length_eq_zero_iff.mp (by omega)
    rw [gsvLoop,if_neg (by omega),hnil]
    exact ⟨[],rfl,hb,rfl,by simp,by simp,.nil⟩
  | succ k ih =>
    obtain ⟨cursor',s,hs,hsize,hcarries,hdrop⟩ :=
      printGsv_eq f c svs hb (by omega : number ≤ total) hcount ht cursor
    have hlen : (inView c (svs.drop cursor')).length = (inView c (svs.drop cursor)).length - 4 := by
      rw [hdrop,List.length_drop]
    obtain ⟨groups,hg⟩ := ih cursor' hsize (by omega : number + 1 + _ = _) (by omega)
    rw [gsvLoop,if_pos (by omega),hs]
    refine ⟨(inView c (svs.drop cursor)).take 4 :: groups,hg.stop,hg.buffer,?_,?_,?_,?_⟩
    · rw [List.flatten_cons,hg.flatten,hdrop,List.take_append_drop]
    · rw [List.length_cons,hg.length,hlen]
      omega
    · refine List.forall_mem_cons.mpr ⟨⟨?_,List.length_take_le _ _⟩,hg.size⟩
      intro hnil
      have hzero := congrArg List.length hnil
      rw [List.length_take,List.length_nil] at hzero
      omega
    · rw [List.zipIdx_cons]
      exact .cons hcarries hg.carries

/-- The sentences of one constellation. -/
theorem sendGsv_partitions (f : Floats F) (c : Constellation) {b : Bytes} (hb : b.size = 200)
    (hsvs : svs.length ≤ intMax) :
    (sendGsv f c svs (inView c svs).length b).stop = none ∧
      (sendGsv f c svs (inView c svs).length b).buffer.size = 200 ∧
      Partitions f c svs (sendGsv f c svs (inView c svs).length b).sentences := by
  by_cases hnone : inView c svs = []
  · have hblank : c.blank = 36 :: c.blank.tail := by cases c <;> rfl
    have hn : 0 ∉ 36 :: c.blank.tail := by cases c <;> decide
    obtain ⟨s,hs,hsize,hcarries⟩ := printBlank_carries hb hn (by cases c <;> decide)
    rw [← hblank] at hs
    rw [sendGsv,hnone,List.length_nil,if_pos rfl,hs]
    exact ⟨rfl,hsize,fun _ => ⟨s,rfl,hcarries⟩,fun h => absurd hnone h⟩
  · have hcount : (inView c svs).length ≤ intMax := (List.length_filter_le _ _).trans hsvs
    have hpos : 0 < (inView c svs).length := List.length_pos_iff.mpr hnone
    have htotal : (inView c svs).length/4 + (if (inView c svs).length%4 ≠ 0 then 1 else 0) =
        ((inView c svs).length + 3)/4 := by split <;> omega
    obtain ⟨groups,hg⟩ := gsvLoop_groups f c svs 0 hb hcount le_rfl
      (by rw [List.drop_zero]; omega : 1 + _ = _)
    rw [List.drop_zero] at hg
    rw [sendGsv,if_neg (by omega)]
    simp only [htotal]
    refine ⟨hg.stop,hg.buffer,fun h => absurd h hnone,fun _ => ?_⟩
    refine ⟨groups,hg.flatten,hg.length,hg.size,?_⟩
    rw [hg.length]
    exact hg.carries

/-- The sentences partition the satellites in view of each constellation, and no loop is left
early. -/
theorem generateSv_partitions (f : Floats F) (data : LocEngData F) (svStatus : QcomSvStatus F)
    (locationExtended : GpsLocationExtended F) :
    ∃ gps gln, (generateSv f data svStatus locationExtended).sentences = gps ++ gln ∧
      (generateSv f data svStatus locationExtended).stop = none ∧
      Partitions f .gps svStatus.svList gps ∧ Partitions f .glonass svStatus.svList gln := by
  have hcounts := countSvs_eq svStatus.svList 0 0 0
  simp only [List.drop_zero,Nat.zero_add] at hcounts
  obtain ⟨hstop,hsize,hgps⟩ := sendGsv_partitions f .gps
    (b:=Bytes.zeros sentenceMaxLength) rfl svStatus.numSvs
  obtain ⟨hstop',_,hgln⟩ := sendGsv_partitions f .glonass hsize svStatus.numSvs
  refine ⟨_,_,?_,?_,hgps,hgln⟩
  · simp only [generateSv,hcounts,hstop,hstop']
  · simp only [generateSv,hcounts,hstop,hstop']

/-- Whole numbers for the floats. -/
def wholeFloats : Floats ℤ where
  toInt x := max (-2147483648) (min x 2147483647)
  toInt_range _ := by omega
  positive x := decide (0 < x)
  zero := 0

/-- Five satellites of one constellation, and among them one of the other. -/
def sixSvs : QcomSvStatus ℤ where
  svList := [⟨3,40,45,120⟩,⟨11,0,7,300⟩,⟨70,25,80,5⟩,⟨12,38,30,90⟩,⟨22,41,60,210⟩,⟨31,19,12,359⟩]
  numSvs := by decide
  gpsUsedInFixMask := 0x00200804
  gloUsedInFixMask := 0x20

theorem generateSv_partitions_six :
    (∃ gps gln, (generateSv wholeFloats ⟨0,0,0,0,0⟩ sixSvs ⟨false,0,0,0⟩).sentences = gps ++ gln ∧
      (generateSv wholeFloats ⟨0,0,0,0,0⟩ sixSvs ⟨false,0,0,0⟩).stop = none ∧
      Partitions wholeFloats .gps sixSvs.svList gps ∧
      Partitions wholeFloats .glonass sixSvs.svList gln) ∧
    (generateSv wholeFloats ⟨0,0,0,0,0⟩ sixSvs ⟨false,0,0,0⟩).sentences.map Sentence.text =
      [str "$GPGSV,2,1,05,03,45,120,40,11,07,300,,12,30,090,38,22,60,210,41*7C" ++ [13,10],
        str "$GPGSV,2,2,05,31,12,359,19*4A" ++ [13,10],
        str "$GLGSV,1,1,01,70,80,005,25*59" ++ [13,10]] :=
  ⟨generateSv_partitions wholeFloats ⟨0,0,0,0,0⟩ sixSvs ⟨false,0,0,0⟩,by decide +kernel⟩

end Nmea
end Kitakami

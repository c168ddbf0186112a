import Kitakami.Base.Printed

/-!
# NMEA sentences

A sentence is printed piece by piece into a buffer of 200 bytes that is reused
from sentence to sentence. Each piece but the last of a position sentence is
checked to fit; then the checksum is printed after the text, and the sentence is
handed to the callback with the length the text and the checksum would have.
-/

namespace Kitakami
namespace Nmea

open Bytes

/-- `NMEA_SENTENCE_MAX_LENGTH` -/
def sentenceMaxLength : ℕ := 200

/-- What is handed to the callback: a buffer and a length. -/
structure Sentence where
  buffer : Bytes
  length : ℤ

/-- The bytes the callback is told of. -/
def Sentence.text (s : Sentence) : Str := (List.range s.length.toNat).map s.buffer.get

/-- Why a generating function ends early: a piece did not fit, or a loop ran out of the buffer. -/
inductive Stop
  | formatError
  | fault
  deriving DecidableEq

/-- The loop over the bytes after the `$`: their exclusive or and their number. -/
def checksumLoop (b : Bytes) : ℕ → ℕ → UInt8 → ℕ → Option (UInt8 × ℕ)
  | 0, _, _, _ => none
  | fuel+1, p, checksum, length =>
    (b.rdByte p).bind fun c =>
      if c = 0 then some (checksum,length) else checksumLoop b fuel (p+1) (checksum ^^^ c) (length+1)

/-- `*`, the checksum, and the line end -/
def trailer (checksum : UInt8) : Str := str "*" ++ printHex checksum ++ [13,10]

def putChecksum (pNmea : Bytes) (maxSize : ℕ) : Except Stop Sentence :=
  match checksumLoop pNmea (pNmea.size+1) 1 0 0 with
  | none => .error .fault
  | some (checksum,length) =>
    .ok ⟨pNmea.print (1+length) (maxSize-length-1) (trailer checksum),
      length + printed (trailer checksum) + 1⟩

/-- The end of what is printed so far, and the room after it. -/
structure Marker where
  buffer : Bytes
  pMarker : ℕ
  lengthRemaining : ℕ

/-- A piece that is checked to fit. -/
def Marker.append (m : Marker) (text : Str) : Except Stop Marker :=
  let length := printed text
  if length < 0 ∨ m.lengthRemaining ≤ length then .error .formatError
  else .ok ⟨m.buffer.print m.pMarker m.lengthRemaining text,m.pMarker + length.toNat,
    m.lengthRemaining - length.toNat⟩

/-- The marker at the start of a sentence. -/
def Marker.start (buffer : Bytes) : Marker := ⟨buffer,0,sentenceMaxLength⟩

/-- The sentences a function sends one after the other from one buffer, and why it stops early if it
does. -/
def sendEach {α : Type} (make : Bytes → α → Except Stop Sentence) :
    Bytes → List α → List Sentence × Option Stop
  | _, [] => ([],none)
  | b, a :: as =>
    match make b a with
    | .error e => ([],some e)
    | .ok s =>
      let rest := sendEach make s.buffer as
      (s :: rest.1,rest.2)

/-- The formatted pieces of one position sentence; the first begins with a `$`, and only the last is
not checked to fit. -/
structure Pieces where
  head : Str
  checked : List Str
  last : Str
  noNul : 0 ∉ head ∧ (∀ t ∈ checked, 0 ∉ t) ∧ 0 ∉ last

def Pieces.checkedText (p : Pieces) : Str := 36 :: p.head ++ p.checked.flatten

def printPieces (buffer : Bytes) (p : Pieces) : Except Stop Sentence :=
  ((36 :: p.head) :: p.checked).foldlM Marker.append (Marker.start buffer) >>= fun m =>
    -- the result of the last `snprintf` is not looked at
    putChecksum (m.buffer.print m.pMarker m.lengthRemaining p.last) sentenceMaxLength

/-- `strlcpy` of a constant text -/
def printBlank (buffer : Bytes) (text : Str) : Except Stop Sentence :=
  putChecksum (buffer.print 0 sentenceMaxLength text) sentenceMaxLength

/-- The reports for a fix that is not final. -/
def blankReports : List Str :=
  [str "$GPGSA,A,1,,,,,,,,,,,,,,,",str "$GNGSA,A,1,,,,,,,,,,,,,,,",str "$GPVTG,,T,,M,,N,,K,N",
    str "$GPRMC,,V,,,,,,,,,,N",str "$GPGGA,,,,,,0,,,,,,,,"]

/-- The sentences of a position report; the texts are the formatted pieces of each. -/
def generatePos (generateNmea : Bool) (sentences : List Pieces) : List Sentence × Option Stop :=
  if generateNmea then sendEach printPieces (Bytes.zeros sentenceMaxLength) sentences
  else sendEach printBlank (Bytes.zeros sentenceMaxLength) blankReports

/-! ### The text in the buffer -/

/-- The exclusive or of the bytes. -/
def checksumOf (body : Str) : UInt8 := body.foldl (· ^^^ ·) 0

/-- A whole sentence. -/
def sealed (body : Str) : Str := 36 :: body ++ trailer (checksumOf body)

/-- The length is inside the buffer, and the bytes are the whole sentence of a body. -/
structure Sentence.Carries (s : Sentence) (body : Str) : Prop where
  length : s.length ≤ s.buffer.size
  noNul : 0 ∉ body
  text : s.text = sealed body

def Sentence.WellFormed (s : Sentence) : Prop := ∃ body, s.Carries body

theorem length_trailer (c : UInt8) : (trailer c).length = 5 := rfl

theorem zero_notMem_trailer (c : UInt8) : 0 ∉ trailer c := by
  have hstar : (0 : UInt8) ∉ str "*" := by decide
  have hend : (0 : UInt8) ∉ [(13 : UInt8),10] := by decide
  simp only [trailer,List.mem_append,not_or]
  exact ⟨⟨hstar,zero_notMem_printHex c⟩,hend⟩

variable {b : Bytes} {body t : Str}

theorem checksumLoop_eq {p fuel : ℕ} (h : IsString b p t) (hf : t.length < fuel) (c : UInt8)
    (n : ℕ) : checksumLoop b fuel p c n = some (t.foldl (· ^^^ ·) c,n + t.length) := by
  induction t generalizing p fuel c n with
  | nil =>
    obtain ⟨fuel,rfl⟩ := Nat.exists_eq_succ_of_ne_zero (by omega : fuel ≠ 0)
    have hlast : b.get p = 0 := h.last
    have hsize : p < b.size := h.size
    rw [checksumLoop,rdByte_of_lt hsize,hlast]
    rfl
  | cons x t ih =>
    obtain ⟨fuel,rfl⟩ := Nat.exists_eq_succ_of_ne_zero (by omega : fuel ≠ 0)
    have hsize := h.size
    have hx : b.get p = x := h.get 0 (Nat.zero_lt_succ _)
    have hne : x ≠ 0 := fun h0 => h.noNul (h0 ▸ List.mem_cons_self)
    have htail : IsString b (p+1) t := h.drop (x:=[x])
    rw [checksumLoop,rdByte_of_lt (by omega),hx,Option.bind_some,if_neg hne,
      ih htail (by rw [List.length_cons] at hf; omega)]
    simp only [List.foldl_cons,List.length_cons]
    congr 2
    omega

/-- The checksum is printed where the text ends. -/
theorem putChecksum_eq (h : IsString b 0 (36 :: body)) (maxSize : ℕ) :
    putChecksum b maxSize = .ok ⟨b.print (1 + body.length) (maxSize - body.length - 1)
      (trailer (checksumOf body)),body.length + 6⟩ := by
  have hbody : IsString b 1 body := by
    have hdrop := h.drop (x:=[36])
    exact hdrop
  have hsize := hbody.size
  have hloop := checksumLoop_eq hbody (by omega : body.length < b.size+1) 0 0
  rw [Nat.zero_add] at hloop
  simp only [putChecksum,hloop]
  rfl

theorem getLast?_sealed (body : Str) : (sealed body).getLast? = some 10 := by
  have hsplit : sealed body =
      (36 :: body ++ (str "*" ++ printHex (checksumOf body) ++ [13])) ++ [10] := by
    simp [sealed,trailer]
  rw [hsplit,List.getLast?_concat]

theorem IsString.range_map (h : IsString b 0 t) : (List.range t.length).map b.get = t := by
  apply List.ext_getElem
  · simp
  · intro i h₁ h₂
    have hget := h.get i h₂
    rw [Nat.zero_add] at hget
    rw [List.getElem_map,List.getElem_range,hget]

/-- With room for the checksum the sentence is whole. -/
theorem putChecksum_carries (h : IsString b 0 (36 :: body)) (hsize : b.size = 200)
    (hshort : body.length + 1 ≤ 194) :
    ∃ s, putChecksum b sentenceMaxLength = .ok s ∧ s.buffer.size = 200 ∧ s.Carries body := by
  have hmax : sentenceMaxLength = 200 := rfl
  have hroom : 0 < sentenceMaxLength - body.length - 1 := by omega
  have hprint := h.print hroom (by rw [List.length_cons]; omega)
    (zero_notMem_trailer (checksumOf body))
  have htake : (trailer (checksumOf body)).take (sentenceMaxLength - body.length - 1 - 1) =
      trailer (checksumOf body) := by
    apply List.take_of_length_le
    rw [length_trailer]
    omega
  rw [List.length_cons,Nat.zero_add,Nat.add_comm body.length 1,htake] at hprint
  have hnum : ((body.length : ℤ) + 6).toNat = (sealed body).length := by
    simp only [sealed,List.length_append,List.length_cons,length_trailer]
    omega
  refine ⟨_,putChecksum_eq h _,by rw [size_print,hsize],?_,?_,?_⟩
  · simp only [size_print,hsize]
    omega
  · exact fun h0 => h.noNul (List.mem_cons_of_mem _ h0)
  · rw [Sentence.text,hnum]
    exact IsString.range_map hprint

/-- With 195 bytes of text the line feed is cut off, and the last byte is the terminator. -/
theorem getLast?_putChecksum (h : IsString b 0 (36 :: body)) (hsize : b.size = 200)
    (hbody : body.length = 194) {s : Sentence} (hs : putChecksum b sentenceMaxLength = .ok s) :
    s.text.getLast? = some 0 := by
  rw [putChecksum_eq h] at hs
  obtain rfl := Except.ok.inj hs
  have hroom : 0 < sentenceMaxLength - body.length - 1 := by
    rw [hbody]
    decide
  have hprint := h.print hroom (by rw [List.length_cons,hbody,hsize]; decide)
    (zero_notMem_trailer (checksumOf body))
  rw [List.length_cons,Nat.zero_add,Nat.add_comm body.length 1] at hprint
  have hlast := hprint.last
  have htake : ((36 :: body) ++ (trailer (checksumOf body)).take
      (sentenceMaxLength - body.length - 1 - 1)).length = 199 := by
    rw [List.length_append,List.length_cons,List.length_take,length_trailer,hbody]
    rfl
  rw [htake,Nat.zero_add] at hlast
  have hnum : ((body.length : ℤ) + 6).toNat = 199 + 1 := by omega
  rw [Sentence.text,hnum,List.range_succ,List.map_append,List.map_singleton,hlast,
    List.getLast?_concat]

/-- The sentence that is handed over for a text is whole if and only if the checksum fits. -/
theorem wellFormed_putChecksum (h : IsString b 0 (36 :: body)) (hsize : b.size = 200) {s : Sentence}
    (hs : putChecksum b sentenceMaxLength = .ok s) :
    s.WellFormed ↔ body.length + 1 ≤ 194 := by
  constructor
  · intro ⟨body',hcarries⟩
    by_contra hlong
    have hlen : body.length + 6 ≤ 200 := by
      have hnum := hcarries.length
      rw [putChecksum_eq h] at hs
      obtain rfl := Except.ok.inj hs
      simp only [size_print,hsize] at hnum
      omega
    have hends := getLast?_putChecksum h hsize (by omega) hs
    rw [hcarries.text,getLast?_sealed] at hends
    exact absurd hends (by decide)
  · intro hshort
    obtain ⟨s',hs',_,hcarries⟩ := putChecksum_carries h hsize hshort
    obtain rfl := Except.ok.inj (hs.symm.trans hs')
    exact ⟨body,hcarries⟩

/-! ### Pieces -/

/-- The text `t` has been printed, and the marker stands after it. -/
structure Writes (m : Marker) (t : Str) : Prop where
  size : m.buffer.size = 200
  get : ∀ i, (h : i < t.length) → m.buffer.get (0+i) = t[i]
  noNul : 0 ∉ t
  marker : m.pMarker = t.length
  room : m.lengthRemaining + t.length = 200
  pos : 0 < m.lengthRemaining

variable {m : Marker} {u : Str}

theorem writes_start (hsize : b.size = 200) : Writes (Marker.start b) [] :=
  ⟨hsize,fun _ h => absurd h (Nat.not_lt_zero _),List.not_mem_nil,rfl,rfl,Nat.zero_lt_succ _⟩

/-- What is printed at the marker, checked or not, is cut off at the end of the buffer. -/
theorem Writes.print (h : Writes m t) (hu : 0 ∉ u) :
    IsString (m.buffer.print m.pMarker m.lengthRemaining u) 0
      (t ++ u.take (m.lengthRemaining - 1)) := by
  have hroom := h.room
  have hmarker := h.marker
  have hsize := h.size
  apply IsString.append ?_ h.noNul
  · have hprint := isString_print h.pos (by omega : m.pMarker + m.lengthRemaining ≤ m.buffer.size) hu
    rwa [Nat.zero_add,← hmarker]
  · intro i hi
    rw [get_print_outside (by omega),h.get i hi]

theorem Writes.append (h : Writes m t) (hu : 0 ∉ u) (hfits : (t ++ u).length < 200) :
    ∃ m', m.append u = .ok m' ∧ Writes m' (t ++ u) ∧ IsString m'.buffer 0 (t ++ u) := by
  have hroom := h.room
  have hmarker := h.marker
  rw [List.length_append] at hfits
  have hprinted : printed u = u.length := if_pos (by unfold intMax; omega)
  have hcond : ¬ (printed u < 0 ∨ (m.lengthRemaining : ℤ) ≤ printed u) := by
    rw [hprinted]
    omega
  have hstring := h.print hu
  rw [List.take_of_length_le (by omega)] at hstring
  refine ⟨_,if_neg hcond,⟨?_,?_,hstring.noNul,?_,?_,?_⟩,hstring⟩
  · rw [size_print,h.size]
  · exact hstring.get
  · rw [hprinted,Int.toNat_natCast,List.length_append,hmarker]
  · simp only [hprinted,Int.toNat_natCast,List.length_append]
    omega
  · simp only [hprinted,Int.toNat_natCast]
    omega

theorem Writes.append_error (h : Writes m t) (hfits : 200 ≤ (t ++ u).length) :
    m.append u = .error .formatError := by
  have hroom := h.room
  rw [List.length_append] at hfits
  apply if_pos
  unfold printed
  split <;> omega

/-- Checked pieces are all printed, or the function returns. -/
theorem Writes.foldlM (h : Writes m t) {us : List Str} (hus : ∀ u ∈ us, 0 ∉ u) :
    if (t ++ us.flatten).length < 200 then
      ∃ m', us.foldlM Marker.append m = .ok m' ∧ Writes m' (t ++ us.flatten)
    else us.foldlM Marker.append m = .error .formatError := by
  induction us generalizing m t with
  | nil =>
    have hroom := h.room
    have hpos := h.pos
    rw [List.flatten_nil,List.append_nil,if_pos (by omega)]
    exact ⟨m,rfl,h⟩
  | cons u us ih =>
    rw [List.foldlM_cons,List.flatten_cons,← List.append_assoc]
    rcases Nat.lt_or_ge (t ++ u).length 200 with hfits | hmisfit
    · obtain ⟨m',happ,hm',_⟩ := h.append (hus u List.mem_cons_self) hfits
      rw [happ]
      exact ih hm' fun v hv => hus v (List.mem_cons_of_mem _ hv)
    · rw [h.append_error hmisfit,if_neg (by rw [List.length_append]; omega)]
      rfl

/-! ### Position sentences -/

/-- The checked pieces fit, so that the sentence is sent. -/
def Pieces.Fits (p : Pieces) : Prop := p.checkedText.length < 200

instance (p : Pieces) : Decidable p.Fits := inferInstanceAs (Decidable (_ < _))

/-- The length of all pieces together. -/
def Pieces.total (p : Pieces) : ℕ := p.checkedText.length + p.last.length

theorem Pieces.zero_notMem (p : Pieces) : ∀ u ∈ (36 :: p.head) :: p.checked, 0 ∉ u := by
  apply List.forall_mem_cons.mpr ⟨?_,p.noNul.2.1⟩
  rw [List.mem_cons,not_or]
  exact ⟨by decide,p.noNul.1⟩

theorem printPieces_of_not_fits {p : Pieces} (hsize : b.size = 200) (h : ¬ p.Fits) :
    printPieces b p = .error .formatError := by
  have hfold := (writes_start hsize).foldlM p.zero_notMem
  rw [List.nil_append,List.flatten_cons,← Pieces.checkedText] at hfold
  rw [Pieces.Fits] at h
  rw [if_neg h] at hfold
  rw [printPieces,hfold]
  rfl

/-- A sentence that is sent is whole if and only if all its pieces and the checksum fit. -/
theorem printPieces_of_fits {p : Pieces} (hsize : b.size = 200) (h : p.Fits) :
    ∃ s, printPieces b p = .ok s ∧ s.buffer.size = 200 ∧ (s.WellFormed ↔ p.total ≤ 194) := by
  have hfold := (writes_start hsize).foldlM p.zero_notMem
  rw [List.nil_append,List.flatten_cons,← Pieces.checkedText] at hfold
  rw [Pieces.Fits] at h
  rw [if_pos h] at hfold
  obtain ⟨m,hm,hw⟩ := hfold
  have hstring := hw.print p.noNul.2.2
  have hroom := hw.room
  have hlen : p.checkedText.length = (p.head ++ p.checked.flatten).length + 1 := by
    simp [Pieces.checkedText]
  rw [Pieces.checkedText,List.cons_append,List.cons_append] at hstring
  have hbuffer : (m.buffer.print m.pMarker m.lengthRemaining p.last).size = 200 := by
    rw [size_print,hw.size]
  refine ⟨_,?_,?_,(wellFormed_putChecksum hstring hbuffer (putChecksum_eq hstring _)).trans ?_⟩
  · rw [printPieces,hm]
    exact putChecksum_eq hstring _
  · rw [size_print,hbuffer]
  · simp only [List.length_append,List.length_take,Pieces.total] at hroom hlen ⊢
    omega

/-- The sentences up to the first whose checked pieces do not fit. -/
def sentOf (sentences : List Pieces) : List Pieces := sentences.takeWhile fun p => decide p.Fits

theorem sendEach_pieces (hsize : b.size = 200) (sentences : List Pieces) :
    List.Forall₂ (fun s p => s.WellFormed ↔ p.total ≤ 194)
      (sendEach printPieces b sentences).1 (sentOf sentences) := by
  induction sentences generalizing b with
  | nil => exact .nil
  | cons p ps ih =>
    by_cases hfits : p.Fits
    · obtain ⟨s,hs,hbuffer,hwell⟩ := printPieces_of_fits hsize hfits
      rw [sendEach,hs,sentOf,List.takeWhile_cons_of_pos (by simpa using hfits)]
      exact .cons hwell (ih hbuffer)
    · rw [sendEach,printPieces_of_not_fits hsize hfits,sentOf,
        List.takeWhile_cons_of_neg (by simpa using hfits)]
      exact .nil

/-- A constant text that leaves room for the checksum. -/
theorem printBlank_carries {text : Str} (hsize : b.size = 200) (hn : 0 ∉ (36 :: text))
    (hlen : text.length + 1 ≤ 194) :
    ∃ s, printBlank b (36 :: text) = .ok s ∧ s.buffer.size = 200 ∧ s.Carries text := by
  have hroom : 0 + sentenceMaxLength ≤ b.size := by
    rw [hsize]
    decide
  have hprint := isString_print (by decide) hroom hn
  rw [List.take_of_length_le (by rw [List.length_cons]; exact hlen.trans (by decide))] at hprint
  exact putChecksum_carries hprint (by rw [size_print,hsize]) hlen

theorem sendEach_blank (hsize : b.size = 200) {texts : List Str}
    (h : ∀ u ∈ texts, u.head? = some 36 ∧ 0 ∉ u ∧ u.length ≤ 194) :
    ∀ s ∈ (sendEach printBlank b texts).1, s.WellFormed := by
  induction texts generalizing b with
  | nil => simp [sendEach]
  | cons u us ih =>
    obtain ⟨hhead,hn,hlen⟩ := h u List.mem_cons_self
    obtain ⟨text,rfl⟩ := List.head?_eq_some_iff.mp hhead
    obtain ⟨s,hs,hbuffer,hcarries⟩ := printBlank_carries hsize hn hlen
    rw [sendEach,hs]
    exact List.forall_mem_cons.mpr
      ⟨⟨text,hcarries⟩,ih hbuffer fun v hv => h v (List.mem_cons_of_mem _ hv)⟩

theorem forall_iff_of_forall₂ {α β : Type} {P : α → Prop} {Q : β → Prop} {as : List α} {bs : List β}
    (h : List.Forall₂ (fun a b => P a ↔ Q b) as bs) : (∀ a ∈ as, P a) ↔ ∀ b ∈ bs, Q b := by
  induction h with
  | nil => simp
  | cons hab _ ih => simp [hab,ih]

/-- Every sentence of a position report is whole if and only if in each sentence that is sent all
pieces together have at most 194 bytes. -/
theorem generatePos_wellFormed_iff (generateNmea : Bool) (sentences : List Pieces) :
    (∀ s ∈ (generatePos generateNmea sentences).1, s.WellFormed) ↔
      (generateNmea = true → ∀ p ∈ sentOf sentences, p.total ≤ 194) := by
  cases generateNmea with
  | false =>
    have hblank : ∀ u ∈ blankReports, u.head? = some 36 ∧ 0 ∉ u ∧ u.length ≤ 194 := by
      decide +kernel
    simp only [Bool.false_eq_true,false_implies,iff_true]
    exact sendEach_blank rfl hblank
  | true =>
    have hall := sendEach_pieces (b:=Bytes.zeros sentenceMaxLength) rfl sentences
    simp only [forall_const]
    exact forall_iff_of_forall₂ hall

/-- An altitude difference of 300 digits as the last piece of `$GPGGA`. -/
def hugeAltitude : Pieces where
  head := str "GPGGA,120000.00,"
  checked := [str ",,,,",str "1,07,1.0,",str "12.0,M,"]
  last := List.replicate 300 57 ++ str ".0,M,,"
  noNul := by decide +kernel

theorem not_wellFormed_huge :
    ¬ ∀ sentences : List Pieces, ∀ s ∈ (generatePos true sentences).1, s.WellFormed := by
  intro h
  have hpieces := sendEach_pieces (b:=Bytes.zeros sentenceMaxLength) rfl [hugeAltitude]
  have hone := (forall_iff_of_forall₂ hpieces).mp (h [hugeAltitude])
  revert hone
  decide +kernel

end Nmea
end Kitakami

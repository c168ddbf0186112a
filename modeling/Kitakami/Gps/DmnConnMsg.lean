import Kitakami.Base.Framing

/-!
# Messages of the daemon connection

The location daemon and the service exchange messages over a named pipe. A
message begins with its own size, a `size_t`; the receiver reads the size first,
compares it with the caller's buffer, and then asks for the rest.
-/

namespace Kitakami
namespace DmnConn

open Framing

/-- The word sizes the service is built for. -/
inductive Abi
  | ilp32
  | lp64
  deriving DecidableEq

namespace Abi

/-- `sizeof(size_t)` -/
def word : Abi → ℕ
  | .ilp32 => 4
  | .lp64 => 8

/-- `size_t` arithmetic is modulo this. -/
def modulus (abi : Abi) : ℕ := 256^abi.word

/-- `SSIZE_MAX` -/
def ssizeMax (abi : Abi) : ℕ := abi.modulus/2 - 1

end Abi

/-- What one call of `read` or `write` moves at most. -/
def maxRwCount : ℕ := 0x7ffff000

theorem maxRwCount_le_ssizeMax (abi : Abi) : maxRwCount ≤ abi.ssizeMax := by cases abi <;> decide

theorem maxRwCount_lt_modulus (abi : Abi) : maxRwCount < abi.modulus := by cases abi <;> decide

/-- The conversion of a `size_t` to `int` -/
def toInt (n : ℕ) : ℤ := Int.bmod n 4294967296

theorem toInt_of_le {n : ℕ} (h : n ≤ maxRwCount) : toInt n = n := by
  unfold maxRwCount at h
  unfold toInt
  rw [Int.bmod_def]
  omega

/-- `a - b` of type `size_t` -/
def subSize (abi : Abi) (a b : ℕ) : ℕ := (a + abi.modulus - b)%abi.modulus

theorem subSize_of_le {abi : Abi} {a b : ℕ} (h : b ≤ a) (ha : a < abi.modulus) :
    subSize abi a b = a - b := by
  have hsum : a + abi.modulus - b = (a - b) + abi.modulus := by omega
  rw [subSize,hsum,Nat.add_mod_right,Nat.mod_eq_of_lt (by omega)]

theorem subSize_of_lt {abi : Abi} {a b : ℕ} (h : a < b) (hb : b ≤ abi.modulus) :
    subSize abi a b = a + abi.modulus - b := Nat.mod_eq_of_lt (by omega)

/-- Bytes written to a pipe, and the result. -/
def pipewrite (pipe buf : List UInt8) : ℤ × List UInt8 :=
  let sent := buf.take maxRwCount
  (sent.length,pipe ++ sent)

/-- What a read returns, what it stores from `buf` on, and what is left in the pipe. -/
structure Read where
  len : ℤ
  data : List UInt8
  pipe : List UInt8

/-- The result of a `read` of more than `SSIZE_MAX` bytes is implementation-defined, and so is how
many bytes it takes; it stores no more than it is asked for. -/
abbrev Overlong : Type := ℕ → List UInt8 → ℤ × ℕ

/-- One `read`: what is there, up to the count. -/
def piperead (overlong : Overlong) (abi : Abi) (pipe : List UInt8) (sz : ℕ) : Read :=
  if sz ≤ abi.ssizeMax then
    let n := min sz maxRwCount
    ⟨(pipe.take n).length,pipe.take n,pipe.drop n⟩
  else
    let moved := overlong sz pipe
    let n := min moved.2 sz
    ⟨moved.1,pipe.take n,pipe.drop n⟩

/-- The message as `msgsnd` writes it: the size is stored into its first field. -/
def framed (abi : Abi) (msgp : List UInt8) : List UInt8 :=
  bytesOf abi.word msgp.length ++ msgp.drop abi.word

def msgsnd (abi : Abi) (pipe msgp : List UInt8) : ℤ × List UInt8 :=
  let wrote := pipewrite pipe (framed abi msgp)
  (if wrote.1 ≠ toInt msgp.length then -1 else wrote.1,wrote.2)

/-- A count of bytes to be stored at an offset of the caller's buffer. -/
structure Request where
  offset : ℕ
  count : ℕ
  deriving DecidableEq

/-- What `msgrcv` returns, what it stores from `msgp` on, what is left in the pipe, and the reads
it asks for. -/
structure Rcv where
  result : ℤ
  stored : List UInt8
  pipe : List UInt8
  asked : List Request

def msgrcv (overlong : Overlong) (abi : Abi) (msgbufsz : ℕ) (pipe : List UInt8) : Rcv :=
  let w := abi.word
  let size := piperead overlong abi pipe w
  if size.len ≠ w then ⟨-1,size.data,size.pipe,[⟨0,w⟩]⟩
  else
    let msgsz := wordOf size.data
    if msgbufsz < msgsz then ⟨-1,size.data,size.pipe,[⟨0,w⟩]⟩
    else
      let count := subSize abi msgsz w
      let rest := piperead overlong abi size.pipe count
      ⟨if rest.len ≠ toInt count then -1 else toInt msgsz,
        size.data ++ rest.data,rest.pipe,[⟨0,w⟩,⟨w,count⟩]⟩

variable {overlong : Overlong} {abi : Abi} {B : ℕ}

theorem piperead_of_le {sz : ℕ} (pipe : List UInt8) (h : sz ≤ maxRwCount) :
    piperead overlong abi pipe sz = ⟨(pipe.take sz).length,pipe.take sz,pipe.drop sz⟩ := by
  have hs : sz ≤ abi.ssizeMax := h.trans (maxRwCount_le_ssizeMax abi)
  rw [piperead,if_pos hs,Nat.min_eq_left h]

/-- A read stores no more than it is asked for. -/
theorem length_piperead_le (overlong : Overlong) (abi : Abi) (pipe : List UInt8) (sz : ℕ) :
    (piperead overlong abi pipe sz).data.length ≤ sz := by
  unfold piperead
  split
  · exact (List.length_take_le _ _).trans (Nat.min_le_left _ _)
  · exact (List.length_take_le _ _).trans (Nat.min_le_right _ _)

theorem word_le_maxRwCount (abi : Abi) : abi.word ≤ maxRwCount := by cases abi <;> decide

/-- The size a call reads. -/
def sizeRead (abi : Abi) (pipe : List UInt8) : ℕ := wordOf (pipe.take abi.word)

/-- A stream that ends within the size. -/
theorem msgrcv_of_short (overlong : Overlong) {pipe : List UInt8} (h : pipe.length < abi.word) :
    msgrcv overlong abi B pipe = ⟨-1,pipe,[],[⟨0,abi.word⟩]⟩ := by
  have htake : pipe.take abi.word = pipe := List.take_of_length_le h.le
  have hdrop : pipe.drop abi.word = [] := List.drop_of_length_le h.le
  have hne : ((pipe.length : ℕ) : ℤ) ≠ abi.word := by omega
  simp only [msgrcv,piperead_of_le pipe (word_le_maxRwCount abi),htake,hdrop,if_pos hne]

/-- A size that is larger than the buffer: the rest of the message stays in the pipe. -/
theorem msgrcv_of_tooLarge (overlong : Overlong) {pipe : List UInt8}
    (h : abi.word ≤ pipe.length) (hsize : B < sizeRead abi pipe) :
    msgrcv overlong abi B pipe = ⟨-1,pipe.take abi.word,pipe.drop abi.word,[⟨0,abi.word⟩]⟩ := by
  have hlen : (pipe.take abi.word).length = abi.word := List.length_take_of_le h
  simp only [msgrcv,piperead_of_le pipe (word_le_maxRwCount abi),hlen,ne_eq,not_true_eq_false,
    if_false]
  exact if_pos hsize

theorem msgrcv_of_size (overlong : Overlong) {pipe : List UInt8} (h : abi.word ≤ pipe.length)
    (hsize : sizeRead abi pipe ≤ B) :
    msgrcv overlong abi B pipe =
      let count := subSize abi (sizeRead abi pipe) abi.word
      let rest := piperead overlong abi (pipe.drop abi.word) count
      ⟨if rest.len ≠ toInt count then -1 else toInt (sizeRead abi pipe),
        pipe.take abi.word ++ rest.data,rest.pipe,[⟨0,abi.word⟩,⟨abi.word,count⟩]⟩ := by
  have hlen : (pipe.take abi.word).length = abi.word := List.length_take_of_le h
  simp only [msgrcv,piperead_of_le pipe (word_le_maxRwCount abi),hlen,ne_eq,not_true_eq_false,
    if_false]
  exact if_neg (Nat.not_lt.mpr hsize)

/-! ### Reads inside the buffer -/

/-- Every read a call asks for fits in the caller's buffer, and so does what it stores. -/
def Rcv.Inside (B : ℕ) (r : Rcv) : Prop :=
  (∀ q ∈ r.asked, q.offset + q.count ≤ B) ∧ r.stored.length ≤ B

instance (B : ℕ) (r : Rcv) : Decidable (r.Inside B) := inferInstanceAs (Decidable (_ ∧ _))

/-- The size is checked against the buffer, not against its own length. -/
theorem inside_iff (overlong : Overlong) (abi : Abi) (B : ℕ) (pipe : List UInt8)
    (hword : abi.word ≤ B) (hsize : B < abi.modulus) :
    (msgrcv overlong abi B pipe).Inside B ↔
      pipe.length < abi.word ∨ B < sizeRead abi pipe ∨ abi.word ≤ sizeRead abi pipe := by
  rcases Nat.lt_or_ge pipe.length abi.word with hshort | hlong
  · rw [msgrcv_of_short _ hshort]
    simp only [Rcv.Inside,hshort,true_or,iff_true]
    exact ⟨by simpa using hword,hshort.le.trans hword⟩
  rcases Nat.lt_or_ge B (sizeRead abi pipe) with hlarge | hfits
  · rw [msgrcv_of_tooLarge _ hlong hlarge]
    simp only [Rcv.Inside,hlarge,true_or,or_true,iff_true,List.length_take_of_le hlong]
    exact ⟨by simpa using hword,hword⟩
  rw [msgrcv_of_size _ hlong hfits]
  have hdata := length_piperead_le overlong abi (pipe.drop abi.word)
    (subSize abi (sizeRead abi pipe) abi.word)
  simp only [Rcv.Inside,List.mem_cons,List.not_mem_nil,or_false,forall_eq_or_imp,forall_eq,
    List.length_append,List.length_take_of_le hlong,Nat.zero_add,hword,true_and]
  constructor
  · intro ⟨hcount,_⟩
    by_contra hcon
    have hlt : sizeRead abi pipe < abi.word := by omega
    rw [subSize_of_lt hlt (hword.trans hsize.le)] at hcount
    omega
  · intro h
    have hle : abi.word ≤ sizeRead abi pipe := by omega
    rw [subSize_of_le hle (hfits.trans_lt hsize)] at hdata ⊢
    omega

theorem inside_iff_small :
    (msgrcv (fun _ _ => (-1,0)) .lp64 64 [12,0,0,0,0,0,0,0,1,2,3,4]).Inside 64 ↔
      12 < 8 ∨ 64 < 12 ∨ 8 ≤ 12 :=
  inside_iff (fun _ _ => (-1,0)) .lp64 64 [12,0,0,0,0,0,0,0,1,2,3,4] (by decide) (by decide)

/-- A size of zero makes the second read ask for nearly the whole address space. -/
theorem not_inside_zero :
    ¬ ∀ pipe, (msgrcv (fun _ _ => (-1,0)) .lp64 512 pipe).Inside 512 := by
  intro h
  have hzero := h (List.replicate 8 0)
  revert hzero
  decide +kernel

/-! ### Sequences of messages -/

/-- What `msgsnd` is given: the message begins with its size field, and one `write` takes it
whole. -/
structure Msg (abi : Abi) where
  msgp : List UInt8
  header : abi.word ≤ msgp.length
  whole : msgp.length ≤ maxRwCount

namespace Msg

variable (m : Msg abi)

def size : ℕ := m.msgp.length

def body : List UInt8 := m.msgp.drop abi.word

def sent : List UInt8 := framed abi m.msgp

theorem word_le_size : abi.word ≤ m.size := m.header

theorem size_lt_modulus : m.size < abi.modulus := m.whole.trans_lt (maxRwCount_lt_modulus abi)

theorem toInt_size : toInt m.size = m.size := toInt_of_le m.whole

@[simp] theorem length_body : m.body.length = m.size - abi.word := List.length_drop

@[simp] theorem length_sent : m.sent.length = m.size := by
  have h : m.sent.length = abi.word + m.body.length := by simp [sent,framed,body]
  have hw := m.word_le_size
  rw [h,length_body]
  omega

theorem sent_append (s : List UInt8) :
    m.sent ++ s = bytesOf abi.word m.size ++ (m.body ++ s) := List.append_assoc _ _ _

/-- A message of any size there can be. -/
def ofSize {n : ℕ} (h : abi.word ≤ n) (hn : n ≤ maxRwCount) : Msg abi where
  msgp := List.replicate n 0
  header := by simpa using h
  whole := by simpa using hn

@[simp] theorem size_ofSize {n : ℕ} (h : abi.word ≤ n) (hn : n ≤ maxRwCount) :
    (ofSize h hn).size = n := List.length_replicate

end Msg

/-- `msgsnd` appends the message, and returns its size. -/
theorem msgsnd_eq (m : Msg abi) (pipe : List UInt8) :
    msgsnd abi pipe m.msgp = ((m.size : ℤ),pipe ++ m.sent) := by
  have htake : (framed abi m.msgp).take maxRwCount = m.sent :=
    List.take_of_length_le (m.length_sent.le.trans m.whole)
  have hint : toInt m.msgp.length = m.size := m.toInt_size
  simp only [msgsnd,pipewrite,htake,m.length_sent,hint,ne_eq,not_true_eq_false,if_false]

def sendAll (abi : Abi) (ms : List (Msg abi)) : List UInt8 :=
  ms.foldl (fun pipe m => (msgsnd abi pipe m.msgp).2) []

theorem sendAll_eq (ms : List (Msg abi)) : sendAll abi ms = ms.flatMap Msg.sent := by
  have h (pipe : List UInt8) :
      ms.foldl (fun pipe m => (msgsnd abi pipe m.msgp).2) pipe = pipe ++ ms.flatMap Msg.sent := by
    induction ms generalizing pipe with
    | nil => simp
    | cons m ms ih => rw [List.foldl_cons,msgsnd_eq,ih,List.flatMap_cons,List.append_assoc]
  exact h []

/-- The result, and where it is not -1 the message in the buffer. -/
def Rcv.received (r : Rcv) : ℤ × List UInt8 := (r.result,if r.result = -1 then [] else r.stored)

def receive (overlong : Overlong) (abi : Abi) (B : ℕ) (pipe : List UInt8) :
    (ℤ × List UInt8) × List UInt8 :=
  let r := msgrcv overlong abi B pipe
  (r.received,r.pipe)

/-- What a call is to return for a message. -/
def answer (B : ℕ) (m : Msg abi) : ℤ × List UInt8 :=
  if m.size ≤ B then (m.size,m.sent) else (-1,[])

/-- The k-th call returns the k-th message, or -1 when it is larger than the buffer. -/
def ReadBack (overlong : Overlong) (abi : Abi) (B : ℕ) (ms : List (Msg abi)) : Prop :=
  calls (receive overlong abi B) ms.length (sendAll abi ms) = ms.map (answer B)

theorem sizeRead_sent (m : Msg abi) (s : List UInt8) : sizeRead abi (m.sent ++ s) = m.size := by
  rw [sizeRead,m.sent_append,List.take_left' (length_bytesOf _ _),wordOf_bytesOf m.size_lt_modulus]

theorem drop_sent (m : Msg abi) (s : List UInt8) : (m.sent ++ s).drop abi.word = m.body ++ s := by
  rw [m.sent_append,List.drop_left' (length_bytesOf _ _)]

theorem word_le_length_sent (m : Msg abi) (s : List UInt8) :
    abi.word ≤ (m.sent ++ s).length := by
  rw [List.length_append,m.length_sent]
  exact m.word_le_size.trans (Nat.le_add_right _ _)

/-- A message that fits is taken off the stream whole. -/
theorem receive_of_fits (overlong : Overlong) {m : Msg abi} (h : m.size ≤ B) (s : List UInt8) :
    receive overlong abi B (m.sent ++ s) = (answer B m,s) := by
  have hcount : subSize abi m.size abi.word = m.size - abi.word :=
    subSize_of_le m.word_le_size m.size_lt_modulus
  have hmax : m.size - abi.word ≤ maxRwCount := (Nat.sub_le _ _).trans m.whole
  have htake : (m.sent ++ s).take abi.word = bytesOf abi.word m.size := by
    rw [m.sent_append,List.take_left' (length_bytesOf _ _)]
  have hrcv := msgrcv_of_size overlong (word_le_length_sent m s)
    ((sizeRead_sent m s).le.trans h)
  simp only [sizeRead_sent,drop_sent,hcount,htake,piperead_of_le _ hmax,
    List.take_left' m.length_body,List.drop_left' m.length_body,m.length_body,toInt_of_le hmax,
    m.toInt_size,ne_eq,not_true_eq_false,if_false] at hrcv
  have hpos : ((m.size : ℕ) : ℤ) ≠ -1 := by omega
  rw [receive,hrcv,answer,if_pos h,Rcv.received,if_neg hpos]
  rfl

/-- A message that does not fit leaves all but its size in the stream. -/
theorem receive_of_tooLarge (overlong : Overlong) {m : Msg abi} (h : B < m.size) (s : List UInt8) :
    receive overlong abi B (m.sent ++ s) = (answer B m,m.body ++ s) := by
  have hrcv := msgrcv_of_tooLarge overlong (word_le_length_sent m s)
    (h.trans_eq (sizeRead_sent m s).symm)
  rw [receive,hrcv,drop_sent,answer,if_neg (Nat.not_le.mpr h)]
  rfl

theorem flatMap_concat_sent (ms : List (Msg abi)) (x : Msg abi) :
    (ms ++ [x]).flatMap Msg.sent = ms.flatMap Msg.sent ++ (x.sent ++ []) := by simp

/-- Where every message that another follows fits, all of them are read back. -/
theorem readBack_of_fits {ms : List (Msg abi)} (h : ∀ m ∈ ms.dropLast, m.size ≤ B) :
    ReadBack overlong abi B ms := by
  rcases List.eq_nil_or_concat ms with rfl | ⟨as,x,rfl⟩
  · rfl
  rw [List.concat_eq_append] at h ⊢
  rw [List.dropLast_concat] at h
  have hread := calls_append (f:=answer B) (fun m hm s => receive_of_fits
    overlong (h m hm) s) 1 (x.sent ++ [])
  have hlast : (receive overlong abi B (x.sent ++ [])).1 = answer B x := by
    rcases Nat.lt_or_ge B x.size with hx | hx
    · rw [receive_of_tooLarge _ hx]
    · rw [receive_of_fits _ hx]
  rw [ReadBack,sendAll_eq,flatMap_concat_sent,List.length_append,List.length_singleton,hread]
  rw [calls,calls,hlast,List.map_append]
  rfl

/-- Whatever message follows any of `ms` and whichever it is, the calls return what was sent. -/
def Survives (overlong : Overlong) (abi : Abi) (B : ℕ) (ms : List (Msg abi)) : Prop :=
  ∀ k ≤ ms.length, ∀ x, ReadBack overlong abi B (ms.take k ++ [x])

/-- A call that reads another size than `n` does not return `n`. -/
theorem result_ne {pipe : List UInt8} {n : ℕ} (hlong : abi.word ≤ pipe.length)
    (hB : B ≤ maxRwCount) (hn : sizeRead abi pipe ≠ n) :
    (msgrcv overlong abi B pipe).result ≠ n := by
  rcases Nat.lt_or_ge B (sizeRead abi pipe) with hlarge | hfits
  · rw [msgrcv_of_tooLarge _ hlong hlarge]
    intro heq
    have hcast : (-1 : ℤ) = n := heq
    omega
  · rw [msgrcv_of_size _ hlong hfits]
    simp only [toInt_of_le (hfits.trans hB)]
    split <;> omega

/-- A size field that starts within the bytes of another is not read as the same size. -/
theorem sizeRead_shifted {b t : List UInt8} (hpos : 0 < b.length) (hlt : b.length < abi.word) :
    sizeRead abi (b ++ (bytesOf abi.word abi.word ++ t)) ≠ abi.word := by
  intro heq
  have hlen : ((b ++ (bytesOf abi.word abi.word ++ t)).take abi.word).length = abi.word := by
    apply List.length_take_of_le
    simp only [List.length_append,length_bytesOf]
    omega
  have hbytes := bytesOf_wordOf ((b ++ (bytesOf abi.word abi.word ++ t)).take abi.word)
  rw [hlen] at hbytes
  rw [sizeRead] at heq
  rw [heq] at hbytes
  -- the byte where the second field starts is zero as a byte of the first, but not as its own
  have hat : ((b ++ (bytesOf abi.word abi.word ++ t)).take abi.word)[b.length]? =
      (bytesOf abi.word abi.word ++ t)[0]? := by
    rw [List.getElem?_take_of_lt hlt,List.getElem?_append_right le_rfl,Nat.sub_self]
  rw [← hbytes] at hat
  cases abi <;> simp only [Abi.word] at hlt hat <;> interval_cases b.length <;>
    simp [bytesOf] at hat

/-- Some message that follows one that does not fit is not read back. -/
theorem exists_wrong (overlong : Overlong) {m : Msg abi} (hword : abi.word ≤ B) (h : B < m.size) :
    ∃ x : Msg abi, (receive overlong abi B (m.body ++ (x.sent ++ []))).1 ≠ answer B x := by
  have hB : B + 1 ≤ maxRwCount := Nat.le_trans h m.whole
  let least : Msg abi := .ofSize le_rfl (word_le_maxRwCount abi)
  have hleast : least.size = abi.word := Msg.size_ofSize _ _
  by_cases hsize : sizeRead abi (m.body ++ (least.sent ++ [])) = abi.word
  · -- the body begins with the size of an empty message: the next call returns that
    have hbody : abi.word ≤ m.body.length := by
      by_contra hshort
      rw [least.sent_append,hleast] at hsize
      refine sizeRead_shifted ?_ (Nat.not_le.mp hshort) hsize
      rw [m.length_body]
      omega
    have htoo : abi.word ≤ B + 1 := hword.trans (Nat.le_succ _)
    let large : Msg abi := .ofSize htoo hB
    refine ⟨large,?_⟩
    have hsame : sizeRead abi (m.body ++ (large.sent ++ [])) = abi.word := by
      rw [← hsize,sizeRead,sizeRead,List.take_append_of_le_length hbody,
        List.take_append_of_le_length hbody]
    have hlong : abi.word ≤ (m.body ++ (large.sent ++ [])).length := by
      rw [List.length_append]
      omega
    have hlarge : large.size = B + 1 := Msg.size_ofSize _ _
    have hcount : subSize abi abi.word abi.word = 0 := by cases abi <;> decide
    have hresult : (msgrcv overlong abi B (m.body ++ (large.sent ++ []))).result = abi.word := by
      rw [msgrcv_of_size _ hlong (hsame.trans_le hword),hsame,hcount]
      have hzero : toInt 0 = 0 := toInt_of_le (Nat.zero_le _)
      simp only [piperead_of_le _ (Nat.zero_le _),List.take_zero,List.length_nil,hzero,
        Nat.cast_zero,ne_eq,not_true_eq_false,if_false,toInt_of_le (word_le_maxRwCount abi)]
    intro heq
    have hfst := congrArg Prod.fst heq
    rw [answer,if_neg (by omega)] at hfst
    have hcast : ((abi.word : ℕ) : ℤ) = -1 := hresult.symm.trans hfst
    omega
  · refine ⟨least,fun heq => ?_⟩
    have hlong : abi.word ≤ (m.body ++ (least.sent ++ [])).length := by
      simp only [List.length_append,least.length_sent]
      omega
    have hfst := congrArg Prod.fst heq
    rw [answer,if_pos (hleast.trans_le hword),hleast] at hfst
    exact result_ne hlong (by omega) hsize hfst

theorem exists_first_tooLarge {ms : List (Msg abi)} (h : ¬ ∀ m ∈ ms, m.size ≤ B) :
    ∃ as m bs, ms = as ++ m :: bs ∧ (∀ a ∈ as, a.size ≤ B) ∧ B < m.size := by
  induction ms with
  | nil => simp at h
  | cons m ms ih =>
    by_cases hm : m.size ≤ B
    · have hrest : ¬ ∀ a ∈ ms, a.size ≤ B := by
        intro hall
        exact h (List.forall_mem_cons.mpr ⟨hm,hall⟩)
      obtain ⟨as,m',bs,rfl,has,hm'⟩ := ih hrest
      exact ⟨m :: as,m',bs,rfl,List.forall_mem_cons.mpr ⟨hm,has⟩,hm'⟩
    · exact ⟨[],m,ms,rfl,by simp,Nat.not_le.mp hm⟩

/-- The framing survives exactly the messages that fit: one that does not leaves its body to be
read as the next size. -/
theorem survives_iff (overlong : Overlong) (abi : Abi) (B : ℕ) (hword : abi.word ≤ B)
    (ms : List (Msg abi)) :
    ((∀ m ∈ ms.dropLast, m.size ≤ B) → ReadBack overlong abi B ms) ∧
      (Survives overlong abi B ms ↔ ∀ m ∈ ms, m.size ≤ B) := by
  refine ⟨readBack_of_fits,fun hsurv => ?_,fun hfits k _ x => ?_⟩
  · by_contra hcon
    obtain ⟨as,m,bs,rfl,has,hm⟩ := exists_first_tooLarge hcon
    obtain ⟨x,hx⟩ := exists_wrong overlong hword hm
    have htake : (as ++ m :: bs).take (as.length+1) = as ++ [m] := by
      rw [List.take_append]
      simp
    have hread := hsurv (as.length+1) (by simp) x
    rw [htake] at hread
    apply hx
    have hsent : sendAll abi (as ++ [m] ++ [x]) =
        as.flatMap Msg.sent ++ (m.sent ++ (x.sent ++ [])) := by simp [sendAll_eq]
    have hlen : (as ++ [m] ++ [x]).length = as.length + 2 := by simp
    have hfront := calls_append (f:=answer B) (fun a ha s => receive_of_fits overlong (has a ha) s)
      2 (m.sent ++ (x.sent ++ []))
    rw [ReadBack,hlen,hsent,hfront,calls,calls,receive_of_tooLarge _ hm,List.append_assoc,
      List.map_append] at hread
    simpa [calls] using List.append_cancel_left hread
  · apply readBack_of_fits
    rw [List.dropLast_concat]
    intro m hm
    exact hfits m (List.mem_of_mem_take hm)

/-- Two messages that fit a buffer of 16 bytes, and one that does not. -/
def threeMsgs : List (Msg .lp64) :=
  [.ofSize (by decide : Abi.lp64.word ≤ 12) (by decide),
    .ofSize (by decide : Abi.lp64.word ≤ 8) (by decide),
    .ofSize (by decide : Abi.lp64.word ≤ 24) (by decide)]

/-- They are read back, but not whatever comes after them. -/
theorem survives_iff_three :
    (((∀ m ∈ threeMsgs.dropLast, m.size ≤ 16) →
        ReadBack (fun _ _ => (-1,0)) .lp64 16 threeMsgs) ∧
      (Survives (fun _ _ => (-1,0)) .lp64 16 threeMsgs ↔ ∀ m ∈ threeMsgs, m.size ≤ 16)) ∧
    ReadBack (fun _ _ => (-1,0)) .lp64 16 threeMsgs ∧
      ¬ Survives (fun _ _ => (-1,0)) .lp64 16 threeMsgs := by
  have h := survives_iff (fun _ _ => (-1,0)) .lp64 16 (by decide) threeMsgs
  exact ⟨h,h.1 (by decide),mt h.2.mp (by decide)⟩

/-- A message of 24 bytes is refused by a buffer of 16, and its body is taken for the size of the
message of 8 bytes that comes after it. -/
theorem not_readBack_tooLarge :
    ¬ ∀ ms : List (Msg .lp64), ReadBack (fun _ _ => (-1,0)) .lp64 16 ms := by
  intro h
  have htwo := h [⟨List.replicate 24 0,by decide,by decide⟩,
    ⟨List.replicate 8 0,by decide,by decide⟩]
  revert htwo
  unfold ReadBack
  decide +kernel

end DmnConn
end Kitakami

import Kitakami.Base.Strings
import Mathlib.Data.List.GetD

/-!
# The command stream of fmd

`serve_client` of `fmd.c` collects what a client sends in a buffer of 512 bytes
and passes each line to `handle_command`. How much a `read` returns depends on
how much of the stream has arrived. `feed` reads the same stream byte by byte;
the loop over the buffer passes the same lines on, whatever the reads return.
-/

namespace Kitakami
namespace Fm

open Bytes

def newline : UInt8 := 10
def carriageReturn : UInt8 := 13
def quit : Str := [113,117,105,116]
def bufSize : ℕ := 512

/-- The delimiters of `handle_command`. -/
def isBlank (c : UInt8) : Bool := c = 32 || c = 9

/-- What `handle_command` does to its line: three calls of `strtok`. -/
def handleCommand (buf : Bytes) : Option Bytes :=
  (buf.strtok 0 isBlank).bind fun cmd =>
    (cmd.1.strtok cmd.2.2 isBlank).bind fun arg1 =>
      (arg1.1.strtok arg1.2.2 isBlank).map fun arg2 => arg2.1

/-- `if (nl > buf && nl[-1] == '\r') nl[-1] = 0`. -/
def stripCr (buf : Bytes) (nl : ℕ) : Option Bytes :=
  if 0 < nl then
    (buf.rdByte (nl-1)).bind fun c =>
      if c = carriageReturn then buf.wrByte (nl-1) 0 else some buf
  else some buf

/-- The inner loop: the lines passed on, and the buffer with the bytes used, or
`none` after `quit`. -/
def handleLines : ℕ → Bytes → ℕ → Option (List Str × Option (Bytes × ℕ))
  | 0, _, _ => none
  | fuel+1, buf, used =>
    (buf.strchr 0 newline).bind fun
      | none => some ([],some (buf,used))
      | some nl =>
        (buf.wrByte nl 0).bind fun buf =>
        (stripCr buf nl).bind fun buf =>
        (buf.strcmpZero 0 quit).bind fun isQuit =>
          if isQuit then some ([],none)
          else
            (buf.cString 0).bind fun line =>
            (handleCommand buf).bind fun buf =>
              let consumed := nl + 1
              (buf.memmove 0 consumed (used - consumed + 1)).bind fun buf =>
                (handleLines fuel buf (used - consumed)).map fun r => (line::r.1,r.2)

/-- The outer loop. `arrived k` bytes of the rest of the stream are there at the
`k`-th read, at least one unless the client has closed the connection. -/
def serveLoop (arrived : ℕ → ℕ) : ℕ → ℕ → Bytes → ℕ → Str → Option (List Str)
  | 0, _, _, _, _ => none
  | fuel+1, k, buf, used, stream =>
    let n := min (bufSize - used - 1) (min stream.length (max 1 (arrived k)))
    if n = 0 then some []
    else
      (buf.store used n fun i => stream.getD i 0).bind fun buf =>
      (buf.wrByte (used+n) 0).bind fun buf =>
      (handleLines (used+n+1) buf (used+n)).bind fun
        | (lines,none) => some lines
        | (lines,some (buf,used)) =>
          let used := if bufSize - 1 ≤ used then 0 else used
          (serveLoop arrived fuel (k+1) buf used (stream.drop n)).map (lines ++ ·)

/-- `serve_client` with the stream of a client; the buffer starts out with
anything in it. The result is what `handle_command` is called with. -/
def serveClient (garbage : ℕ → UInt8) (arrived : ℕ → ℕ) (stream : Str) : Option (List Str) :=
  serveLoop arrived (stream.length+1) 0 ⟨bufSize,garbage⟩ 0 stream

/-! ## The lines of a stream -/

/-- A line without one trailing carriage return. -/
def chomp (l : Str) : Str := if l.getLast? = some carriageReturn then l.dropLast else l

/-- The lines of a stream that a newline ends. -/
def terminatedLines (stream : Str) : List Str := (stream.splitOn newline).dropLast

/-- The commands in a stream, up to the first `quit`. -/
def commandLines (stream : Str) : List Str :=
  ((terminatedLines stream).map chomp).takeWhile (· ≠ quit)

/-- The stream read byte by byte, with the bytes of the unfinished line: 511
bytes without a newline are dropped. -/
def feed : Str → Str → List Str
  | _, [] => []
  | part, c::stream =>
    if c = newline then
      if chomp part = quit then [] else chomp part::feed [] stream
    else if part.length = bufSize - 2 then feed [] stream
    else feed (part ++ [c]) stream

/-- Bytes without a newline extend the unfinished line. -/
theorem feed_part {x : Str} (hx : newline ∉ x) (part stream : Str)
    (h : part.length + x.length < bufSize - 1) : feed part (x ++ stream) = feed (part ++ x) stream := by
  induction x generalizing part with
  | nil => simp
  | cons c x ih =>
    have hc : c ≠ newline := fun he => hx (by simp [he])
    have hlen : part.length ≠ bufSize - 2 := by
      simp only [List.length_cons,bufSize] at h ⊢
      omega
    rw [List.cons_append,feed,if_neg hc,if_neg hlen,
      ih (fun hm => hx (List.mem_cons_of_mem c hm)) _ (by
        simp only [List.length_append,List.length_cons,List.length_nil] at h ⊢
        omega),List.append_assoc]
    rfl

/-- A newline ends the line. -/
theorem feed_line {x : Str} (hx : newline ∉ x) (stream : Str) (h : x.length < bufSize - 1) :
    feed [] (x ++ newline::stream) =
      if chomp x = quit then [] else chomp x::feed [] stream := by
  rw [feed_part hx [] _ (by simpa using h),List.nil_append,feed,if_pos rfl]

/-- A full buffer without a newline is dropped. -/
theorem feed_full {x : Str} (hx : newline ∉ x) (stream : Str) (h : x.length = bufSize - 1) :
    feed [] (x ++ stream) = feed [] stream := by
  obtain ⟨y,c,rfl⟩ : ∃ y c, x = y ++ [c] := by
    have hne : x ≠ [] := by
      rintro rfl
      cases h
    exact ⟨x.dropLast,x.getLast hne,(List.dropLast_append_getLast hne).symm⟩
  have hy : y.length = bufSize - 2 := by
    simp only [List.length_append,List.length_singleton,bufSize] at h ⊢
    omega
  have hc : c ≠ newline := fun he => hx (by simp [he])
  rw [List.append_assoc,feed_part (fun hm => hx (List.mem_append_left _ hm)) [] _ (by
    simp only [hy,bufSize,List.length_nil]
    decide),List.nil_append,List.singleton_append,feed,if_neg hc,if_pos hy]

theorem feed_noNewline {stream : Str} (h : newline ∉ stream) (part : Str) :
    feed part stream = [] := by
  induction stream generalizing part with
  | nil => rfl
  | cons c stream ih =>
    have hc : c ≠ newline := fun he => h (by simp [he])
    have ht := ih fun hm => h (List.mem_cons_of_mem c hm)
    rw [feed,if_neg hc]
    split_ifs
    · exact ht []
    · exact ht _

theorem terminatedLines_line {x : Str} (hx : newline ∉ x) (stream : Str) :
    terminatedLines (x ++ newline::stream) = x::terminatedLines stream := by
  rw [terminatedLines,List.splitOn_append_cons_self_of_not_mem hx,
    List.dropLast_cons_of_ne_nil (List.splitOn_ne_nil _ _)]
  rfl

theorem terminatedLines_noNewline {stream : Str} (h : newline ∉ stream) :
    terminatedLines stream = [] := by
  rw [terminatedLines,List.splitOn_eq_singleton h]
  rfl

/-- With lines that fit, reading byte by byte gives the commands of the stream. -/
theorem feed_eq_commandLines (stream : Str)
    (h : ∀ l ∈ terminatedLines stream, l.length ≤ bufSize - 2) :
    feed [] stream = commandLines stream := by
  induction hn : stream.length using Nat.strong_induction_on generalizing stream with
  | _ n ih =>
    by_cases hmem : newline ∈ stream
    · obtain ⟨x,rest,rfl,hx⟩ := List.eq_append_cons_of_mem hmem
      have hlines := terminatedLines_line hx rest
      have hlen : x.length < bufSize - 1 := by
        have := h x (by rw [hlines]; exact List.mem_cons_self)
        simp only [bufSize] at this ⊢
        omega
      have hrest : feed [] rest = commandLines rest := by
        refine ih rest.length ?_ rest ?_ rfl
        · rw [← hn,List.length_append,List.length_cons]
          omega
        · intro l hl
          exact h l (by rw [hlines]; exact List.mem_cons_of_mem x hl)
      rw [feed_line hx rest hlen,commandLines,hlines,List.map_cons,List.takeWhile_cons,hrest]
      by_cases hq : chomp x = quit
      · simp [hq]
      · simp [hq,commandLines]
    · rw [feed_noNewline hmem,commandLines,terminatedLines_noNewline hmem]
      rfl

/-! ## The loops over the buffer -/

theorem stripCr_isString {buf : Bytes} {x y : Str} (hx : IsString buf 0 x)
    (hy : IsString buf (x.length+1) y) :
    ∃ buf', stripCr buf x.length = some buf' ∧ buf'.size = buf.size ∧
      IsString buf' 0 (chomp x) ∧ IsString buf' (x.length+1) y := by
  have hsize := hx.size
  unfold stripCr chomp
  by_cases hx0 : x = []
  · subst hx0
    exact ⟨buf,rfl,rfl,hx,hy⟩
  obtain ⟨z,c,rfl⟩ : ∃ z c, x = z ++ [c] :=
    ⟨x.dropLast,x.getLast hx0,(List.dropLast_append_getLast hx0).symm⟩
  have hlen : (z ++ [c]).length - 1 = z.length := by simp
  have hlast : buf.get z.length = c := by
    have := hx.get z.length (by simp)
    simpa using this
  rw [if_pos (by simp),hlen,rdByte_of_lt (by simp at hsize; omega),Option.bind_some,hlast]
  by_cases hc : c = carriageReturn
  · subst hc
    rw [if_pos rfl,if_pos (by simp),List.dropLast_concat,wrByte_of_lt (by simp at hsize; omega)]
    refine ⟨_,rfl,rfl,?_,?_⟩
    · have hcut := IsString.cut (p:=0) (x:=z) (c:=carriageReturn) (y:=[]) hx
      rwa [Nat.zero_add] at hcut
    · exact hy.frame (frame_put buf z.length 1 _) fun k hk _ => by simp at hk; omega
  · rw [if_neg hc,if_neg (by simpa using hc)]
    exact ⟨buf,rfl,rfl,hx,hy⟩

/-- `handle_command` writes inside its line only. -/
theorem handleCommand_isString {buf : Bytes} {x : Str} (h : IsString buf 0 x) :
    ∃ buf', handleCommand buf = some buf' ∧ Frame (fun k => k < x.length) buf buf' := by
  obtain ⟨b₁,t₁,x₁,y₁,rfl,hs₁,hy₁,hf₁⟩ := h.strtok isBlank rfl
  obtain ⟨b₂,t₂,x₂,y₂,rfl,hs₂,hy₂,hf₂⟩ := hy₁.strtok isBlank rfl
  obtain ⟨b₃,t₃,x₃,y₃,rfl,hs₃,hy₃,hf₃⟩ := hy₂.strtok isBlank rfl
  refine ⟨b₃,?_,?_⟩
  · rw [handleCommand,hs₁,Option.bind_some,hs₂,Option.bind_some,hs₃]
    rfl
  · have hmono {q n : ℕ} (hq : q + n ≤ (x₁ ++ (x₂ ++ (x₃ ++ y₃))).length) :
        ∀ k, q ≤ k ∧ k < q + n → k < (x₁ ++ (x₂ ++ (x₃ ++ y₃))).length := fun k hk => by omega
    refine ((hf₁.mono (hmono ?_)).trans (hf₂.mono (hmono ?_))).trans (hf₃.mono (hmono ?_))
    all_goals
      simp only [List.length_append]
      omega

/-- What the inner loop has made of the string `l` in the buffer. -/
def Continues (l : Str) : List Str × Option (Bytes × ℕ) → Prop
  | (lines,none) => ∀ stream, feed [] (l ++ stream) = lines
  | (lines,some (buf,used)) => ∃ rest, buf.size = bufSize ∧ IsString buf 0 rest ∧
      used = rest.length ∧ newline ∉ rest ∧
      ∀ stream, feed [] (l ++ stream) = lines ++ feed [] (rest ++ stream)

theorem handleLines_continues (fuel : ℕ) {buf : Bytes} {l : Str} (hb : buf.size = bufSize)
    (hl : IsString buf 0 l) (hf : l.length < fuel) :
    ∃ r, handleLines fuel buf l.length = some r ∧ Continues l r := by
  induction fuel generalizing buf l with
  | zero => omega
  | succ fuel ih =>
    by_cases hmem : newline ∈ l
    · obtain ⟨x,y,rfl,hx⟩ := List.eq_append_cons_of_mem hmem
      have hlen : (x ++ newline::y).length = x.length + (y.length+1) := by simp
      have hsize := hl.size
      have hshort : x.length < bufSize - 1 := by
        rw [hb] at hsize
        omega
      have hy : IsString buf (x.length+1) y := by
        have := IsString.drop (x:=x ++ [newline]) (y:=y) (by simpa using hl)
        simpa using this
      have hx₁ : IsString (buf.put x.length 1 fun _ => 0) 0 x := by simpa using hl.cut
      obtain ⟨b₂,hs,hb₂,hx₂,hy₂⟩ := stripCr_isString hx₁
        (hy.frame (frame_put buf x.length 1 _) fun k hk _ => by omega)
      rw [handleLines,hl.strchr_some hx,Option.bind_some]
      simp only [Nat.zero_add]
      rw [wrByte_of_lt (by omega),Option.bind_some,hs,Option.bind_some,
        hx₂.strcmpZero (by decide),Option.bind_some]
      by_cases hq : chomp x = quit
      · rw [hq,decide_eq_true rfl,if_pos rfl]
        refine ⟨_,rfl,fun stream => ?_⟩
        rw [List.append_assoc,List.cons_append,feed_line hx _ hshort,if_pos hq]
      · obtain ⟨b₃,hc,hf₃⟩ := handleCommand_isString hx₂
        have hchomp : (chomp x).length ≤ x.length := by
          unfold chomp
          split_ifs <;> simp
        have hy₃ : IsString b₃ (x.length+1) y := hy₂.frame hf₃ fun k hk _ => by omega
        obtain ⟨b₄,hm,hb₄,hy₄⟩ := hy₃.memmove
        have hused : (x ++ newline::y).length - (x.length+1) = y.length := by omega
        rw [decide_eq_false hq,if_neg (by simp),hx₂.cString,Option.bind_some,hc,Option.bind_some,
          hused,hm,Option.bind_some]
        obtain ⟨r,hr,hcont⟩ := ih
          (by rw [hb₄,hf₃.size,hb₂,size_put,hb]) hy₄ (by omega)
        rw [hr,Option.map_some]
        refine ⟨_,rfl,?_⟩
        have hfeed : ∀ stream, feed [] ((x ++ newline::y) ++ stream) =
            chomp x::feed [] (y ++ stream) := by
          intro stream
          rw [List.append_assoc,List.cons_append,feed_line hx _ hshort,if_neg hq]
        obtain ⟨lines,state⟩ := r
        cases state with
        | none => exact fun stream => by rw [hfeed,hcont stream]
        | some state =>
          obtain ⟨rest,hsz,hrest,hu,hn,hs⟩ := hcont
          refine ⟨rest,hsz,hrest,hu,hn,fun stream => ?_⟩
          rw [hfeed,hs stream]
          rfl
    · rw [handleLines,hl.strchr_none hmem (by decide)]
      exact ⟨_,rfl,l,hb,hl,rfl,hmem,fun _ => rfl⟩

/-- The used bytes of the buffer are `l`. -/
structure Holds (buf : Bytes) (l : Str) : Prop where
  size : buf.size = bufSize
  get : ∀ i, (h : i < l.length) → buf.get i = l[i]

/-- A read behind the used bytes, and the terminator behind it. -/
theorem Holds.read {buf : Bytes} {l : Str} (h : Holds buf l) (hl : 0 ∉ l) {stream : Str}
    (hs : 0 ∉ stream) {n : ℕ} (hn : n ≤ stream.length) (hfit : l.length + n + 1 ≤ bufSize) :
    ∃ b₁ b₂, buf.store l.length n (fun i => stream.getD i 0) = some b₁ ∧
      b₁.wrByte (l.length+n) 0 = some b₂ ∧ b₂.size = bufSize ∧
      IsString b₂ 0 (l ++ stream.take n) := by
  have hsize := h.size
  have htake : (l ++ stream.take n).length = l.length + n := by simp [hn]
  refine ⟨buf.put l.length n fun i => stream.getD i 0,_,?_,wrByte_of_lt ?_,hsize,?_,?_,?_,?_⟩
  · exact store_eq_some.mpr ⟨Or.inr (by omega),rfl⟩
  · rw [size_put]
    omega
  · rw [htake]
    show 0 + (l.length+n) < buf.size
    omega
  · intro i hi
    rw [htake] at hi
    rw [Nat.zero_add,get_put_outside _ _ (by omega)]
    by_cases hil : i < l.length
    · rw [get_put_outside _ _ (by omega),h.get i hil,List.getElem_append_left hil]
    · rw [get_put_inside _ _ ⟨by omega,by omega⟩,List.getElem_append_right (by omega),
        List.getElem_take,List.getD_eq_getElem _ _ (by omega)]
  · rw [htake,Nat.zero_add,get_put_inside _ _ ⟨by omega,by omega⟩]
  · intro hm
    rcases List.mem_append.mp hm with hm | hm
    · exact hl hm
    · exact hs (List.mem_of_mem_take hm)

/-- Whatever the reads return, the loop passes on what `feed` gives. -/
theorem serveLoop_eq (arrived : ℕ → ℕ) (fuel k : ℕ) {buf : Bytes} {l stream : Str}
    (hb : Holds buf l) (hlen : l.length < bufSize - 1) (hn : newline ∉ l) (hl : 0 ∉ l)
    (hs : 0 ∉ stream) (hf : stream.length < fuel) :
    serveLoop arrived fuel k buf l.length stream = some (feed [] (l ++ stream)) := by
  induction fuel generalizing k buf l stream with
  | zero => omega
  | succ fuel ih =>
    rw [serveLoop]
    generalize hnd : min (bufSize - l.length - 1) (min stream.length (max 1 (arrived k))) = n
    by_cases h0 : n = 0
    · have hnil : stream = [] := by
        apply List.length_eq_zero_iff.mp
        omega
      subst hnil
      rw [if_pos h0,List.append_nil,feed_noNewline hn]
    · have hle : n ≤ stream.length := by omega
      have hfit : l.length + n + 1 ≤ bufSize := by omega
      obtain ⟨b₁,b₂,h₁,h₂,hsz,hstr⟩ := hb.read hl hs hle hfit
      have htake : (l ++ stream.take n).length = l.length + n := by simp [hle]
      obtain ⟨r,hr,hcont⟩ := handleLines_continues (l.length+n+1) hsz hstr (by omega)
      rw [htake] at hr
      rw [if_neg h0,h₁,Option.bind_some,h₂,Option.bind_some,hr,Option.bind_some]
      have hfeed : l ++ stream = (l ++ stream.take n) ++ stream.drop n := by
        rw [List.append_assoc,List.take_append_drop]
      have hs' : 0 ∉ stream.drop n := fun hm => hs (List.mem_of_mem_drop hm)
      have hf' : (stream.drop n).length < fuel := by
        rw [List.length_drop]
        omega
      rw [hfeed]
      obtain ⟨lines,state⟩ := r
      cases state with
      | none => rw [hcont]
      | some state =>
        obtain ⟨buf',used⟩ := state
        obtain ⟨rest,hsz',hrest,rfl,hnr,hstep⟩ := hcont
        have hrsize := hrest.size
        rw [hsz',Nat.zero_add] at hrsize
        rw [hstep]
        by_cases hfull : bufSize - 1 ≤ rest.length
        · have hempty : Holds buf' [] := ⟨hsz',by simp⟩
          have hi := ih (k+1) hempty (by decide) (by simp) (by simp)
            hs' hf'
          simp only [hfull,if_true]
          rw [feed_full hnr _ (by omega)]
          simpa using hi
        · have hholds : Holds buf' rest := ⟨hsz',by simpa using hrest.get⟩
          simp only [hfull,if_false]
          rw [ih (k:=k+1) hholds (by omega) hnr hrest.noNul hs' hf']
          rfl

/-- What `handle_command` gets does not depend on what the reads return, and
when every line fits the buffer it is the lines of the stream. -/
theorem serveClient_lines {stream : Str} (hs : 0 ∉ stream) :
    (∀ garbage arrived garbage' arrived',
      (serveClient garbage arrived stream).isSome ∧
      serveClient garbage arrived stream = serveClient garbage' arrived' stream) ∧
    ((∀ l ∈ terminatedLines stream, l.length ≤ 510) →
      ∀ garbage arrived, serveClient garbage arrived stream = some (commandLines stream)) := by
  have hfeed : ∀ garbage arrived, serveClient garbage arrived stream = some (feed [] stream) :=
    fun garbage arrived => serveLoop_eq arrived (stream.length+1) 0 (l:=[]) ⟨rfl,by simp⟩
      (by decide) (by simp) (by simp) hs (Nat.lt_succ_self _)
  refine ⟨fun g a g' a' => ?_,fun hshort g a => ?_⟩
  · rw [hfeed g a,hfeed g' a']
    exact ⟨rfl,rfl⟩
  · rw [hfeed g a,feed_eq_commandLines stream hshort]

/-- A client that sends `tune 9`, with a carriage return, `quit`, and more. -/
theorem serveClient_tune :
    serveClient (fun _ => 0xa5) (· % 3) [116,117,110,101,32,57,13,10,113,117,105,116,10,120] =
      some [[116,117,110,101,32,57]] :=
  (serveClient_lines (by decide)).2 (by decide) _ _

end Fm
end Kitakami

import Kitakami.Fm.Transport

/-!
# HCI framing on the tty

`Kitakami.Fm.Transport` takes whole packets off the wire. Here the receiver of
`fm_uart.c` works on bytes: a read returns what has arrived, which may be less
than it asked for, and the start of a packet is found by its indicator.
-/

namespace Kitakami
namespace Fm
namespace Uart

/-- The tty: the bytes still to be read, and what each `poll` with a timeout
finds: nothing within that time, or that up to so many bytes have arrived. -/
structure Tty where
  stream : List UInt8
  arrived : ℕ → ℤ → Option ℕ
  polls : ℕ := 0

/-- No `poll` times out while there is something to read. -/
def Tty.Prompt (u : Tty) : Prop := ∀ k timeout, u.arrived k timeout ≠ none

/-- The tty after a read that took `k` bytes. -/
def Tty.advance (u : Tty) (k : ℕ) : Tty :=
  { u with stream := u.stream.drop k, polls := u.polls + 1 }

@[simp] theorem Tty.advance_stream (u : Tty) (k : ℕ) :
    (u.advance k).stream = u.stream.drop k := rfl

@[simp] theorem Tty.advance_prompt (u : Tty) (k : ℕ) :
    (u.advance k).Prompt ↔ u.Prompt := Iff.rfl

/-- `poll` and then `read` of at most `n` bytes. -/
def read (timeout : ℤ) (n : ℕ) : Call Tty (List UInt8) := fun u =>
  match u.arrived u.polls timeout with
  | none => (u.advance 0,none)
  | some k =>
    if u.stream = [] then (u.advance 0,none)
    else (u.advance (min n (max 1 k)),some (u.stream.take (min n (max 1 k))))

/-- The loop of `read_exact`: `n` bytes are still to be read. A read that succeeds
takes at least one. -/
def readLoop (timeout : ℤ) : ℕ → ℕ → Call Tty (List UInt8)
  | _, 0 => pure []
  | 0, _+1 => Call.fail
  | k+1, n+1 => do
    let bytes ← read timeout (n+1)
    let rest ← readLoop timeout k (n + 1 - bytes.length)
    pure (bytes ++ rest)

def readExact (timeout : ℤ) (n : ℕ) : Call Tty (List UInt8) := readLoop timeout n n

/-- The loop of `hci_recv` that looks for the packet indicator. -/
def findEvent (timeout : ℤ) : ℕ → Call Tty Unit
  | 0 => Call.fail
  | k+1 => do
    let hdr ← readExact timeout 1
    if hdr.getD 0 0 ≠ opEvent then findEvent timeout k else pure ()

/-- The event is returned as it is written to the buffer of `evtsz` bytes. -/
def hciRecv (evtsz timeout : ℤ) : Call Tty (List UInt8) := fun u =>
  (show Call Tty (List UInt8) from do
    findEvent timeout (u.stream.length + 1)
    let hdr ← readExact 500 2
    if ((hdr.getD 1 0).toNat : ℤ) > evtsz - 2 then Call.fail
    else
      let params ← readExact 500 (hdr.getD 1 0).toNat
      pure (hdr ++ params)) u

/-- At most `n` calls of `hci_recv`, up to the first that fails. -/
def recvAll (evtsz timeout : ℤ) : ℕ → Tty → Tty × List (List UInt8)
  | 0, u => (u,[])
  | n+1, u =>
    match hciRecv evtsz timeout u with
    | (u,none) => (u,[])
    | (u,some evt) =>
      let r := recvAll evtsz timeout n u
      (r.1,evt::r.2)

/-- The call succeeds with `x`, and has taken the bytes `bytes` off the stream. -/
def Takes {α : Type} (c : Call Tty α) (u : Tty) (bytes : List UInt8) (x : α) : Prop :=
  ∀ rest, u.stream = bytes ++ rest →
    ∃ u', c u = (u',some x) ∧ u'.stream = rest ∧ u'.Prompt

variable {α β : Type} {u : Tty} {timeout evtsz : ℤ}

theorem Takes.pure (hp : u.Prompt) (x : α) : Takes (Pure.pure x : Call Tty α) u [] x :=
  fun _ h => ⟨u,rfl,h,hp⟩

theorem Takes.bind {c : Call Tty α} {f : α → Call Tty β} {a b : List UInt8} {x : α} {y : β}
    (hc : Takes c u a x) (hf : ∀ u' : Tty, u'.Prompt → Takes (f x) u' b y) :
    Takes (c >>= f) u (a ++ b) y := by
  intro rest h
  obtain ⟨u₁,h₁,hs₁,hp₁⟩ := hc (b ++ rest) (by rw [h,List.append_assoc])
  obtain ⟨u₂,h₂,hs₂,hp₂⟩ := hf u₁ hp₁ rest hs₁
  exact ⟨u₂,by rw [Call.bind_some h₁,h₂],hs₂,hp₂⟩

/-- However the bytes arrive, the loop puts them together. -/
theorem takes_readLoop (k : ℕ) (bytes : List UInt8) (hk : bytes.length ≤ k) (hp : u.Prompt) :
    Takes (readLoop timeout k bytes.length) u bytes bytes := by
  induction k generalizing u bytes with
  | zero =>
    obtain rfl := List.length_eq_zero_iff.mp (Nat.le_zero.mp hk)
    exact Takes.pure hp []
  | succ k ih =>
    cases bytes with
    | nil => exact Takes.pure hp []
    | cons b bytes =>
      intro rest hs
      obtain ⟨m,hm⟩ := Option.ne_none_iff_exists'.mp (hp u.polls timeout)
      set g := min (bytes.length + 1) (max 1 m) with hg
      have hg₁ : 1 ≤ g := by omega
      have hg₂ : g ≤ (b::bytes).length := by simp only [List.length_cons]; omega
      have hread : read timeout (bytes.length + 1) u =
          (u.advance g,some ((b::bytes).take g)) := by
        simp only [read,hm,hs,List.cons_append,reduceCtorEq,if_false,← hg]
        rw [← List.cons_append,List.take_append_of_le_length hg₂]
      have hlen : ((b::bytes).take g).length = g := List.length_take_of_le hg₂
      have hdrop : bytes.length + 1 - g = ((b::bytes).drop g).length := by simp
      obtain ⟨u',hr,hs',hp'⟩ := ih (u:=u.advance g) ((b::bytes).drop g)
        (by simp only [List.length_drop,List.length_cons] at hk ⊢; omega) hp rest
        (by rw [Tty.advance_stream,hs,List.drop_append_of_le_length hg₂])
      refine ⟨u',?_,hs',hp'⟩
      show (read timeout (bytes.length + 1) >>= fun bs => _) u = _
      rw [Call.bind_some hread,hlen,hdrop,Call.bind_some hr,List.take_append_drop]
      rfl

theorem takes_readExact (bytes : List UInt8) (hp : u.Prompt) :
    Takes (readExact timeout bytes.length) u bytes bytes :=
  takes_readLoop _ bytes le_rfl hp

/-- At the end of the stream the next read fails. -/
theorem readExact_nil (n : ℕ) (hs : u.stream = []) :
    readExact timeout (n+1) u = (u.advance 0,none) := by
  refine Call.bind_none ?_
  unfold read
  cases u.arrived u.polls timeout with
  | none => rfl
  | some k => simp only [hs,if_true]

/-- Bytes before the indicator are passed over one by one. -/
theorem takes_findEvent (k : ℕ) (junk : List UInt8) (hk : junk.length < k)
    (hj : opEvent ∉ junk) (hp : u.Prompt) :
    Takes (findEvent timeout k) u (junk ++ [opEvent]) () := by
  induction k generalizing u junk with
  | zero => exact absurd hk (Nat.not_lt_zero _)
  | succ k ih =>
    cases junk with
    | nil =>
      refine Takes.bind (b:=[]) (takes_readExact [opEvent] hp) fun u' hp' => ?_
      exact Takes.pure hp' ()
    | cons b junk =>
      simp only [List.mem_cons,not_or] at hj
      refine Takes.bind (a:=[b]) (takes_readExact [b] hp) fun u' hp' => ?_
      simp only [List.getD_cons_zero]
      rw [if_pos (Ne.symm hj.1)]
      exact ih junk (Nat.lt_of_succ_lt_succ hk) hj.2 hp'

/-- Without an indicator the loop reads the stream to its end and fails. -/
theorem findEvent_none (k : ℕ) (hj : opEvent ∉ u.stream) (hk : u.stream.length < k)
    (hp : u.Prompt) :
    ∃ u', findEvent timeout k u = (u',none) ∧ u'.stream = [] := by
  induction k generalizing u with
  | zero => exact absurd hk (Nat.not_lt_zero _)
  | succ k ih =>
    cases hs : u.stream with
    | nil =>
      exact ⟨u.advance 0,Call.bind_none (readExact_nil 0 hs),by simp [hs]⟩
    | cons b rest =>
      have hb : Takes (readExact timeout 1) u [b] [b] := takes_readExact [b] hp
      obtain ⟨u₁,h₁,hs₁,hp₁⟩ := hb rest hs
      rw [hs,List.mem_cons,not_or] at hj
      rw [hs,List.length_cons] at hk
      obtain ⟨u',h',hs'⟩ := ih (u:=u₁) (by rw [hs₁]; exact hj.2) (by rw [hs₁]; omega) hp₁
      refine ⟨u',(Call.bind_some h₁).trans ?_,hs'⟩
      simp only [List.getD_cons_zero]
      rw [if_pos (Ne.symm hj.1),h']

/-- One packet of the stream: bytes that are no packet indicator, and an event. -/
structure Packet where
  junk : List UInt8
  code : UInt8
  params : List UInt8
  noIndicator : opEvent ∉ junk
  short : params.length ≤ 255

namespace Packet

def bytes (p : Packet) : List UInt8 := p.junk ++ eventMessage p.code p.params

/-- The event: code, length and parameters. -/
def event (p : Packet) : List UInt8 := p.code::UInt8.ofNat p.params.length::p.params

theorem toNat_length (p : Packet) : (UInt8.ofNat p.params.length).toNat = p.params.length := by
  have h := p.short
  rw [UInt8.toNat_ofNat']
  omega

theorem bytes_eq (p : Packet) : p.bytes = (p.junk ++ [opEvent]) ++
    ([p.code,UInt8.ofNat p.params.length] ++ (p.params ++ [])) := by
  simp [bytes,eventMessage]

end Packet

/-- One call takes one packet off the stream, whatever its parameters contain. -/
theorem takes_hciRecv (hsz : 257 ≤ evtsz) (p : Packet) (hp : u.Prompt) :
    Takes (hciRecv evtsz timeout) u p.bytes p.event := by
  intro rest hs
  have hlen : p.junk.length < u.stream.length + 1 := by
    rw [hs,Packet.bytes]
    simp only [List.length_append]
    omega
  rw [Packet.bytes_eq] at hs
  refine Takes.bind (takes_findEvent _ p.junk hlen p.noIndicator hp) (fun u₁ hp₁ => ?_) rest hs
  refine Takes.bind (takes_readExact [p.code,UInt8.ofNat p.params.length] hp₁) fun u₂ hp₂ => ?_
  have hshort := p.short
  simp only [List.getD_cons_succ,List.getD_cons_zero,p.toNat_length]
  rw [if_neg (by omega)]
  exact Takes.bind (takes_readExact p.params hp₂) fun u₃ hp₃ => Takes.pure hp₃ _

/-- Where `Kitakami.Fm.Transport` takes the packet off the wire, it has the same event. -/
theorem hciRecv_message (size : ℕ) (hsz : 257 ≤ size) (p : Packet) (hp : u.Prompt)
    {rest : List UInt8} (hs : u.stream = p.bytes ++ rest) {d d' : Dev} {source : Option ℕ}
    (hd : receive d = (d',some ⟨eventMessage p.code p.params,source⟩)) :
    (hciRecv size timeout u).2 = (Fm.hciRecv size d).2.map Message.bytes := by
  have htakes : Takes (hciRecv size timeout) u p.bytes p.event := takes_hciRecv (by omega) p hp
  obtain ⟨u',h',-,-⟩ := htakes rest hs
  have hshort := p.short
  have hlen : p.params.length % 256 = p.params.length := Nat.mod_eq_of_lt (by omega)
  have hfit : ¬ p.params.length > size - 2 := by omega
  simp [h',Fm.hciRecv,hciRecvLoop,hd,eventMessage,Packet.event,hlen,hfit]

/-- What is received from a stream of packets is their events, in order, and
nothing is left of the stream. -/
theorem recvAll_packets (hsz : 257 ≤ evtsz) (packets : List Packet) (trailing : List UInt8)
    (ht : opEvent ∉ trailing) (hp : u.Prompt)
    (hs : u.stream = packets.flatMap Packet.bytes ++ trailing) (n : ℕ) (hn : packets.length < n) :
    (recvAll evtsz timeout n u).2 = packets.map Packet.event ∧
      (recvAll evtsz timeout n u).1.stream = [] := by
  induction packets generalizing u n with
  | nil =>
    cases n with
    | zero => exact absurd hn (Nat.not_lt_zero _)
    | succ n =>
      rw [List.flatMap_nil,List.nil_append] at hs
      obtain ⟨u',h',hs'⟩ : ∃ u', findEvent timeout (u.stream.length + 1) u = (u',none) ∧
          u'.stream = [] :=
        findEvent_none _ (by rw [hs]; exact ht) (Nat.lt_succ_self _) hp
      have hr : hciRecv evtsz timeout u = (u',none) := Call.bind_none h'
      simp only [recvAll,hr,List.map_nil,hs',and_self]
  | cons p packets ih =>
    cases n with
    | zero => exact absurd hn (Nat.not_lt_zero _)
    | succ n =>
      rw [List.flatMap_cons,List.append_assoc] at hs
      have htakes : Takes (hciRecv evtsz timeout) u p.bytes p.event := takes_hciRecv hsz p hp
      obtain ⟨u',h',hs',hp'⟩ := htakes _ hs
      obtain ⟨he,hrest⟩ := ih hp' hs' n (Nat.lt_of_succ_lt_succ hn)
      simp only [recvAll,h',he,List.map_cons,hrest,and_self]

/-- Two packets whose bytes arrive one by one, the second with an indicator in its
parameters. -/
theorem recvAll_packets_bytewise :
    (recvAll 300 2000 3 ⟨[7,4,14,1,9,0,4,255,2,4,4,1],fun _ _ => some 1,0⟩).2 =
      [[14,1,9],[255,2,4,4]] :=
  (recvAll_packets (u:=⟨[7,4,14,1,9,0,4,255,2,4,4,1],fun _ _ => some 1,0⟩) (by decide)
    [⟨[7],14,[9],by decide,by decide⟩,⟨[0],255,[4,4],by decide,by decide⟩] [1] (by decide)
    (fun _ _ => Option.some_ne_none _) rfl 3 (by decide)).1

end Uart
end Fm
end Kitakami

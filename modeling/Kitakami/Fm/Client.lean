import Kitakami.Base.Calls
import Kitakami.Base.Runs
import Kitakami.Fm.Commands

/-!
# The client of fmd

`fmd_request` of `fmr_brcm.cpp` writes a command and reads until it has a line.
The daemon answers each command line in order with one reply line, after any
delay; a `read` returns as much as has arrived, or less. Replies carry no tag,
so a request reads what comes next on the connection, which is the reply to its
own command exactly if nothing of an earlier one is left.
-/

namespace Kitakami
namespace Fm

open Runs

/-- A command line that the daemon has received; its serial number tells it from the others. -/
structure CommandLine where
  serial : ℕ
  text : Str
  deriving DecidableEq

/-- What happens before one system call of the client: the daemon sends replies. The call
succeeds or not, and a `read` returns at most `size` bytes. -/
structure ClientTurn where
  replies : List Str
  ok : Bool
  size : ℕ

/-- A connection. Each byte on the wire is kept with the serial number of the command it
replies to; `answered` are the replies sent so far. -/
structure Conn where
  script : List ClientTurn
  serial : ℕ := 0
  owed : List CommandLine := []
  wire : List (ℕ × UInt8) := []
  answered : List (CommandLine × Str) := []

/-- A reply line is free of newlines and NULs. -/
def IsReply (text : Str) : Prop := newline ∉ text ∧ 0 ∉ text

instance (text : Str) : Decidable (IsReply text) := inferInstanceAs (Decidable (_ ∧ _))

/-- The bytes of a reply. -/
def replyBytes (serial : ℕ) (text : Str) : List (ℕ × UInt8) :=
  (text ++ [newline]).map fun b => (serial,b)

/-- The daemon answers the oldest command it owes a reply. -/
def Conn.answer (c : Conn) (text : Str) : Conn :=
  match c.owed with
  | [] => c
  | line :: rest =>
    if IsReply text then
      { c with
        owed := rest
        wire := c.wire ++ replyBytes line.serial text
        answered := c.answered ++ [(line,text)] }
    else c

/-- The next system call, with what comes before it. -/
def Conn.turn (c : Conn) : Conn × Option ClientTurn :=
  match c.script with
  | [] => (c,none)
  | t :: rest => ({ t.replies.foldl Conn.answer c with script := rest },some t)

/-- A call of `fmd_request`. The command is one line, and the buffer for it holds it. -/
structure Request where
  cmd : Str
  replysz : ℕ
  oneLine : newline ∉ cmd ∧ cmd.length < 255
  room : 0 < replysz

def ok : Str := str "ok"

/-- The daemon receives the next command. -/
def Conn.sent (c : Conn) (cmd : Str) : Conn :=
  { c with serial := c.serial + 1, owed := c.owed ++ [⟨c.serial,cmd⟩] }

/-- The loop of `fmd_request`; `got` is what the reply buffer holds. -/
def readReply (replysz : ℕ) : ℕ → List (ℕ × UInt8) → Call Conn (List (ℕ × UInt8))
  | 0, _, c => (c,none)
  | k+1, got, c =>
    match c.turn with
    | (c,none) => (c,none)
    | (c,some t) =>
      if t.ok then
        let n := min (max 1 t.size) (min c.wire.length (replysz - got.length - 1))
        if n = 0 then (c,none)
        else
          let got := got ++ c.wire.take n
          let c := { c with wire := c.wire.drop n }
          if newline ∈ got.map Prod.snd then (c,some got)
          else if replysz - 1 ≤ got.length then (c,some got)
          else readReply replysz k got c
      else (c,none)

/-- `fmd_request`: the reply buffer, if the call succeeds. -/
def fmdRequest (r : Request) : Call Conn (List (ℕ × UInt8)) := fun c =>
  match c.turn with
  | (c,none) => (c,none)
  | (c,some t) =>
    if t.ok then
      match readReply r.replysz (c.script.length + 1) [] (c.sent r.cmd) with
      | (c,none) => (c,none)
      | (c,some got) => if (got.map Prod.snd).take 2 = ok then (c,some got) else (c,none)
    else (c,none)

def clientStep (c : Conn) (r : Request) : Option Conn := some (fmdRequest r c).1

/-- The buffer holds the reply to the command with this serial number, as much as fits. -/
def IsReplyTo (c : Conn) (line : CommandLine) (replysz : ℕ) (got : List (ℕ × UInt8)) : Prop :=
  ∃ text, (line,text) ∈ c.answered ∧ got = (replyBytes line.serial text).take (replysz - 1)

/-! ## Rules -/

variable {c e : Conn} {got : List (ℕ × UInt8)} {replysz : ℕ}

/-- What an answer keeps, the time before a system call keeps. -/
theorem turn_keeps {P : Conn → Prop} (hanswer : ∀ c text, P c → P (c.answer text))
    (hscript : ∀ c script, P c → P { c with script := script }) (h : P c) : P c.turn.1 := by
  unfold Conn.turn
  split
  · exact h
  · case _ t rest _ =>
    refine hscript _ rest ?_
    have hfold : ∀ (replies : List Str) (c : Conn), P c → P (replies.foldl Conn.answer c) := by
      intro replies
      induction replies with
      | nil => exact fun _ hc => hc
      | cons text replies ih => exact fun c hc => ih _ (hanswer c text hc)
    exact hfold t.replies c h

/-- The rule for the loop: `J` is kept while the daemon answers and by every read. -/
theorem readReply_rule (J : List (ℕ × UInt8) → Conn → Prop)
    (turn : ∀ got c, J got c → J got c.turn.1)
    (read : ∀ got c n, J got c → 0 < n → n ≤ c.wire.length → n + got.length ≤ replysz - 1 →
      J (got ++ c.wire.take n) { c with wire := c.wire.drop n }) (fuel : ℕ)
    (got : List (ℕ × UInt8)) :
    Call.Triple (J got) (readReply replysz fuel got)
      (fun got c => J got c ∧ got ≠ [] ∧
        (newline ∈ got.map Prod.snd ∨ replysz - 1 ≤ got.length))
      fun c => ∃ got, J got c := by
  induction fuel generalizing got with
  | zero => exact fun c hc => ⟨got,hc⟩
  | succ fuel ih =>
    intro c hc
    have ht := turn got c hc
    rw [readReply]
    rcases hturn : c.turn with ⟨e,_ | t⟩ <;> rw [hturn] at ht
    · exact ⟨got,ht⟩
    simp only
    split
    · generalize hn : min (max 1 t.size) (min e.wire.length (replysz - got.length - 1)) = n
      split
      · exact ⟨got,ht⟩
      · case _ hpos =>
        have hread := read got e n ht (Nat.pos_of_ne_zero hpos) (by omega) (by omega)
        have hne : got ++ e.wire.take n ≠ [] := by
          refine List.append_ne_nil_of_right_ne_nil _ (List.ne_nil_of_length_pos ?_)
          rw [List.length_take]
          omega
        split
        · case _ hline => exact ⟨hread,hne,Or.inl hline⟩
        · split
          · case _ hfull => exact ⟨hread,hne,Or.inr hfull⟩
          · exact ih _ _ hread
    · exact ⟨got,ht⟩

/-- The rule for a request: it fails before it has sent its command, or it reads a reply. -/
theorem fmdRequest_rule (r : Request) {E : Conn → Prop} {R : List (ℕ × UInt8) → Conn → Prop}
    (hturn : E c.turn.1)
    (hread : ∀ fuel, Call.Ends R E (readReply r.replysz fuel [] (c.turn.1.sent r.cmd)))
    (hcheck : ∀ got e, R got e → E e) :
    Call.Ends (fun got e => R got e ∧ (got.map Prod.snd).take 2 = ok) E (fmdRequest r c) := by
  unfold fmdRequest
  rcases hc : c.turn with ⟨d,_ | t⟩ <;> rw [hc] at hturn hread
  · exact hturn
  simp only
  split
  · have h := hread (d.script.length + 1)
    rcases hr : readReply r.replysz (d.script.length + 1) [] (d.sent r.cmd) with ⟨e,_ | got⟩ <;>
      rw [hr] at h
    · exact h
    · simp only
      split
      · case _ hok => exact ⟨h,hok⟩
      · exact hcheck got e h
  · exact hturn

/-! ## Serial numbers -/

/-- The serial numbers on the connection are those of earlier commands. -/
structure Conn.Numbered (c : Conn) (k : ℕ) : Prop where
  wire : ∀ b ∈ c.wire, b.1 < k
  owed : ∀ line ∈ c.owed, line.serial < k

theorem Conn.Numbered.answer {k : ℕ} (h : c.Numbered k) (text : Str) : (c.answer text).Numbered k := by
  unfold Conn.answer
  split
  · exact h
  · case _ line rest howed =>
    split
    · refine ⟨fun b hb => ?_,fun l hl => h.owed l (by rw [howed]; exact List.mem_cons_of_mem _ hl)⟩
      rcases List.mem_append.mp hb with hb | hb
      · exact h.wire b hb
      · obtain ⟨x,-,rfl⟩ := List.mem_map.mp hb
        exact h.owed line (by rw [howed]; exact List.mem_cons_self)
    · exact h

theorem Conn.Numbered.turn {k : ℕ} (h : c.Numbered k) : c.turn.1.Numbered k :=
  turn_keeps (P:=fun e => e.Numbered k) (fun _ text hc => hc.answer text)
    (fun _ _ hc => ⟨hc.wire,hc.owed⟩) h

theorem turn_serial (c : Conn) : c.turn.1.serial = c.serial := by
  refine turn_keeps (P:=fun e => e.serial = c.serial) (fun e text he => ?_) (fun _ _ he => he) rfl
  unfold Conn.answer
  split
  · exact he
  · split <;> exact he

theorem Conn.Numbered.sent (h : c.Numbered c.serial) (cmd : Str) :
    (c.sent cmd).Numbered (c.serial + 1) := by
  refine ⟨fun b hb => Nat.lt_succ_of_lt (h.wire b hb),fun l hl => ?_⟩
  rcases List.mem_append.mp hl with hl | hl
  · exact Nat.lt_succ_of_lt (h.owed l hl)
  · obtain rfl := List.mem_singleton.mp hl
    exact Nat.lt_succ_self _

/-- A request keeps the numbering. -/
theorem fmdRequest_numbered (r : Request) (h : c.Numbered c.serial) :
    (fmdRequest r c).1.Numbered (fmdRequest r c).1.serial := by
  have hturn : c.turn.1.Numbered c.turn.1.serial := by
    rw [turn_serial]
    exact h.turn
  have hread : ∀ fuel, Call.Ends (fun _ e => e.Numbered e.serial) (fun e => e.Numbered e.serial)
      (readReply r.replysz fuel [] (c.turn.1.sent r.cmd)) := by
    intro fuel
    refine (readReply_rule (fun _ e => e.Numbered e.serial) (fun _ e he => ?_)
      (fun _ e n he _ _ _ => ⟨fun b hb => he.wire b (List.mem_of_mem_drop hb),he.owed⟩) fuel []
      _ (hturn.sent r.cmd)).imp (fun _ _ hq => hq.1) fun _ ⟨_,he⟩ => he
    rw [turn_serial]
    exact he.turn
  have hall := fmdRequest_rule r hturn hread fun _ _ he => he
  exact (hall.imp (fun _ _ he => he.1) fun _ he => he).state

/-! ## Which reply is read -/

/-- The command whose reply comes first, behind what the buffer holds. -/
def Conn.front (c : Conn) (got : List (ℕ × UInt8)) : Option ℕ :=
  (got.map Prod.fst ++ (c.wire.map Prod.fst ++ c.owed.map CommandLine.serial)).head?

theorem front_answer (c : Conn) (text : Str) (got : List (ℕ × UInt8)) :
    (c.answer text).front got = c.front got := by
  unfold Conn.answer
  split
  · rfl
  · case _ line rest howed =>
    split
    · have hbytes : (replyBytes line.serial text).map Prod.fst =
          List.replicate (text.length + 1) line.serial := by
        simp [replyBytes,Function.comp_def,List.replicate_succ']
      unfold Conn.front
      rw [List.map_append,hbytes,howed,List.replicate_succ]
      cases got with
      | nil => cases c.wire <;> rfl
      | cons b got => rfl
    · rfl

theorem front_turn (c : Conn) (got : List (ℕ × UInt8)) : c.turn.1.front got = c.front got :=
  turn_keeps (P:=fun e => e.front got = c.front got)
    (fun e text he => (front_answer e text got).trans he) (fun _ _ he => he) rfl

/-- A request reads what comes first on the connection. -/
theorem fmdRequest_front (r : Request) (c : Conn) {got : List (ℕ × UInt8)}
    (h : (fmdRequest r c).2 = some got) :
    (got.map Prod.fst).head? =
      (c.wire.map Prod.fst ++ (c.owed.map CommandLine.serial ++ [c.serial])).head? := by
  have hsent : (c.turn.1.sent r.cmd).front [] =
      (c.wire.map Prod.fst ++ (c.owed.map CommandLine.serial ++ [c.serial])).head? := by
    have ht := front_turn c []
    simp only [Conn.front,List.map_nil,List.nil_append] at ht
    simp only [Conn.front,Conn.sent,List.map_nil,List.nil_append,List.map_append,List.map_cons,
      turn_serial]
    rw [← List.append_assoc,← List.append_assoc,List.head?_append,ht,← List.head?_append]
  rw [← hsent]
  have hread : ∀ fuel, Call.Ends (fun got e => e.front got = (c.turn.1.sent r.cmd).front [])
      (fun _ => True) (readReply r.replysz fuel [] (c.turn.1.sent r.cmd)) := by
    intro fuel
    refine (readReply_rule (fun got e => e.front got = (c.turn.1.sent r.cmd).front [])
      (fun got e he => (front_turn e got).trans he) (fun got e n he _ _ _ => ?_) fuel []
      _ rfl).imp (fun _ _ hq => hq.1) fun _ _ => trivial
    have htags : (e.wire.take n).map Prod.fst ++ (e.wire.drop n).map Prod.fst =
        e.wire.map Prod.fst := by rw [← List.map_append,List.take_append_drop]
    rw [← he,Conn.front,Conn.front,List.map_append,← htags]
    simp only [List.append_assoc]
  have hall := fmdRequest_rule r trivial hread fun _ _ _ => trivial
  obtain ⟨hfront,hok⟩ := hall.of_some h
  cases got with
  | nil => exact absurd hok (by decide)
  | cons b got => exact hfront

/-- While a request waits for the only reply: it is owed, or what has been read and what is on
the wire are the reply. -/
structure Reading (line : CommandLine) (replysz : ℕ) (got : List (ℕ × UInt8)) (c : Conn) : Prop where
  fits : got.length ≤ replysz - 1
  reply : (got = [] ∧ c.wire = [] ∧ c.owed = [line]) ∨ c.owed = [] ∧
    ∃ text, IsReply text ∧ (line,text) ∈ c.answered ∧ got ++ c.wire = replyBytes line.serial text

variable {line : CommandLine}

theorem Reading.answer (h : Reading line replysz got c) (text : Str) :
    Reading line replysz got (c.answer text) := by
  obtain ⟨hfits,⟨rfl,hwire,howed⟩ | ⟨howed,hreply⟩⟩ := h
  · unfold Conn.answer
    rw [howed]
    simp only
    split
    · case _ hr =>
      exact ⟨hfits,Or.inr ⟨rfl,text,hr,List.mem_append_right _ List.mem_cons_self,by simp [hwire]⟩⟩
    · exact ⟨hfits,Or.inl ⟨rfl,hwire,howed⟩⟩
  · unfold Conn.answer
    rw [howed]
    exact ⟨hfits,Or.inr ⟨howed,hreply⟩⟩

theorem Reading.turn (h : Reading line replysz got c) : Reading line replysz got c.turn.1 :=
  turn_keeps (P:=Reading line replysz got) (fun _ text he => he.answer text)
    (fun _ _ he => ⟨he.fits,he.reply⟩) h

theorem Reading.read {n : ℕ} (h : Reading line replysz got c) (hn : n ≤ c.wire.length)
    (hr : n + got.length ≤ replysz - 1) :
    Reading line replysz (got ++ c.wire.take n) { c with wire := c.wire.drop n } := by
  refine ⟨by rw [List.length_append,List.length_take]; omega,?_⟩
  rcases h.reply with ⟨hgot,hwire,howed⟩ | ⟨howed,text,ht,hmem,heq⟩
  · exact Or.inl ⟨by simp [hgot,hwire],by simp [hwire],howed⟩
  · refine Or.inr ⟨howed,text,ht,hmem,?_⟩
    rw [← heq,List.append_assoc,List.take_append_drop]

/-- The loop ends with the reply, or with as much of it as fits. -/
theorem Reading.done (h : Reading line replysz got c) (hne : got ≠ [])
    (hd : newline ∈ got.map Prod.snd ∨ replysz - 1 ≤ got.length) :
    IsReplyTo c line replysz got := by
  rcases h.reply with ⟨hnil,-,-⟩ | ⟨-,text,ht,hmem,heq⟩
  · exact absurd hnil hne
  refine ⟨text,hmem,?_⟩
  have hpre : got = (replyBytes line.serial text).take got.length := by
    rw [← heq,List.take_left]
  rcases hd with hline | hfull
  · -- the newline is the last byte of the reply
    have hlen : text.length < got.length := by
      by_contra hle
      rw [hpre,replyBytes,← List.map_take,List.take_append_of_le_length (by omega)] at hline
      simp only [List.map_map,List.mem_map,Function.comp_apply] at hline
      obtain ⟨b,hb,rfl⟩ := hline
      exact ht.1 (List.mem_of_mem_take hb)
    have hall : (replyBytes line.serial text).length ≤ got.length := by
      simp only [replyBytes,List.length_map,List.length_append,List.length_cons,List.length_nil]
      omega
    rw [List.take_of_length_le (hall.trans h.fits)]
    rwa [List.take_of_length_le hall] at hpre
  · rwa [le_antisymm h.fits hfull] at hpre

/-- On a connection where nothing is left, a request reads the reply to its own command. -/
theorem fmdRequest_own (r : Request) {c : Conn} (howed : c.owed = []) (hwire : c.wire = [])
    {got : List (ℕ × UInt8)} (h : (fmdRequest r c).2 = some got) :
    IsReplyTo (fmdRequest r c).1 ⟨c.serial,r.cmd⟩ r.replysz got := by
  have hquiet : c.turn.1.owed = [] ∧ c.turn.1.wire = [] := by
    refine turn_keeps (P:=fun e => e.owed = [] ∧ e.wire = []) (fun e text he => ?_) (fun _ _ he => he)
      ⟨howed,hwire⟩
    rw [Conn.answer,he.1]
    exact he
  have hread : ∀ fuel, Call.Ends (fun got e => IsReplyTo e ⟨c.serial,r.cmd⟩ r.replysz got)
      (fun _ => True) (readReply r.replysz fuel [] (c.turn.1.sent r.cmd)) := by
    intro fuel
    refine (readReply_rule (Reading ⟨c.serial,r.cmd⟩ r.replysz)
      (fun got e he => he.turn) (fun got e n he _ hn hr => he.read hn hr) fuel [] _ ?_).imp
      (fun got e he => he.1.done he.2.1 he.2.2) fun _ _ => trivial
    refine ⟨Nat.zero_le _,Or.inl ⟨rfl,hquiet.2,?_⟩⟩
    simp [Conn.sent,hquiet.1,turn_serial]
  exact ((fmdRequest_rule r trivial hread fun _ _ _ => trivial).of_some h).1

theorem IsReplyTo.serial (h : IsReplyTo c line replysz got) : ∀ b ∈ got, b.1 = line.serial := by
  obtain ⟨text,-,rfl⟩ := h
  intro b hb
  obtain ⟨x,-,rfl⟩ := List.mem_map.mp (List.mem_of_mem_take hb)
  rfl

/-- A request that succeeds has read the reply to its own command exactly if no
reply to an earlier one was still to come or to be read. -/
theorem ownReply_iff {script : List ClientTurn} {requests : List Request} {c : Conn}
    (hr : run clientStep { script := script } requests = some c) (r : Request)
    {got : List (ℕ × UInt8)} (h : (fmdRequest r c).2 = some got) :
    IsReplyTo (fmdRequest r c).1 ⟨c.serial,r.cmd⟩ r.replysz got ↔ c.owed = [] ∧ c.wire = [] := by
  have hnumbered : c.Numbered c.serial := by
    refine run_invariant (I:=fun e => e.Numbered e.serial) (fun d q e hd _ he => ?_) ⟨by simp,by simp⟩
      (along_true _ requests) hr
    obtain rfl := Option.some.inj he
    exact fmdRequest_numbered q hd
  refine ⟨fun hown => ?_,fun ⟨howed,hwire⟩ => fmdRequest_own r howed hwire h⟩
  have hfront := fmdRequest_front r c h
  have htag : ∀ k ∈ (got.map Prod.fst).head?, k = c.serial := by
    intro k hk
    obtain ⟨b,hb,rfl⟩ := List.mem_map.mp (List.mem_of_mem_head? hk)
    exact hown.serial b hb
  rw [hfront] at htag
  have hwire : c.wire = [] := by
    cases hw : c.wire with
    | nil => rfl
    | cons b rest =>
      have hb : b.1 = c.serial := htag b.1 (by simp [hw])
      exact absurd (hnumbered.wire b (by simp [hw])) (by omega)
  refine ⟨?_,hwire⟩
  cases ho : c.owed with
  | nil => rfl
  | cons line rest =>
    have hl : line.serial = c.serial := htag line.serial (by simp [hwire,ho])
    exact absurd (hnumbered.owed line (by simp [ho])) (by omega)

def tuneRequest : Request := ⟨str "tune 100000",256,by decide,by decide⟩
def rssiRequest : Request := ⟨str "rssi",256,by decide,by decide⟩

/-- Two requests are answered while the client waits; the second reply arrives in two parts. -/
def promptReplies : List ClientTurn :=
  [⟨[],true,0⟩,⟨[str "ok 100000"],true,256⟩,⟨[],true,0⟩,⟨[str "ok -60"],true,3⟩,⟨[],true,256⟩]

theorem ownReply_promptReplies :
    ∃ c, run clientStep { script := promptReplies } [tuneRequest] = some c ∧
      IsReplyTo (fmdRequest rssiRequest c).1 ⟨1,str "rssi"⟩ 256 (replyBytes 1 (str "ok -60")) := by
  have hrun : (run clientStep { script := promptReplies } [tuneRequest]).map (fun c =>
      ((c.serial,c.owed,c.wire),(fmdRequest rssiRequest c).2)) =
        some ((1,[],[]),some (replyBytes 1 (str "ok -60"))) := by decide +kernel
  obtain ⟨c,hc,he⟩ := Option.map_eq_some_iff.mp hrun
  simp only [Prod.mk.injEq] at he
  obtain ⟨⟨hserial,howed,hwire⟩,hgot⟩ := he
  have h := (ownReply_iff hc rssiRequest hgot).mpr ⟨howed,hwire⟩
  rw [hserial] at h
  exact ⟨c,hc,h⟩

/-- The first reply comes when its request has given up. -/
def lateReply : List ClientTurn :=
  [⟨[],true,0⟩,⟨[],false,0⟩,⟨[str "ok 100000"],true,0⟩,⟨[],true,256⟩]

/-- The second request takes it for its own. -/
theorem not_ownReply_lateReply :
    ∃ c, run clientStep { script := lateReply } [tuneRequest] = some c ∧
      (fmdRequest rssiRequest c).2 = some (replyBytes 0 (str "ok 100000")) ∧
      ¬ IsReplyTo (fmdRequest rssiRequest c).1 ⟨c.serial,str "rssi"⟩ 256
        (replyBytes 0 (str "ok 100000")) := by
  have hrun : (run clientStep { script := lateReply } [tuneRequest]).map (fun c =>
      (c.serial,(fmdRequest rssiRequest c).2)) =
        some (1,some (replyBytes 0 (str "ok 100000"))) := by decide +kernel
  obtain ⟨c,hc,he⟩ := Option.map_eq_some_iff.mp hrun
  obtain ⟨hserial,hgot⟩ := Prod.mk.inj he
  refine ⟨c,hc,hgot,fun h => ?_⟩
  have htag := h.serial (0,111) (by decide)
  rw [hserial] at htag
  cases htag

end Fm
end Kitakami

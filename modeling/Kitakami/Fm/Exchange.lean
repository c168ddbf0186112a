import Kitakami.Fm.Matching

/-!
# One command with nothing in flight

A command that starts with nothing in flight is answered by its own answer.
`Phase` is what is known of the tuner meanwhile; `vsc_rule` says how the answer
takes it from one phase to the other while events come and go.
-/

namespace Kitakami
namespace Fm

open Runs Call

/-- The chip sends the FM event for the end of a tune and for nothing else. -/
def Honest : ChipAct → Prop
  | .emit code params => isFmEvent ((eventMessage code params).drop 1) = false
  | _ => True

instance (a : ChipAct) : Decidable (Honest a) := by
  cases a <;> unfold Honest <;> infer_instance

/-- An FM event is still to be received. -/
def stale (wire : List Message) (queue : Ring eventQueueMax (List UInt8)) : Bool :=
  (wire.any fun m => isFmEvent (m.bytes.drop 1)) || queue.toList.any isFmEvent

/-- The outcome of a tune is latched. -/
def Latched (flags : UInt16) : Prop := flags &&& (fmMaskTuneCmpl ||| fmMaskTuneFail) ≠ 0

theorem uint16_and_or (a b c : UInt16) : a &&& (b ||| c) = (a &&& b) ||| (a &&& c) :=
  UInt16.toBitVec_inj.mp BitVec.and_or_distrib_left

theorem uint16_or_and (a b c : UInt16) : (a ||| b) &&& c = (a &&& c) ||| (b &&& c) :=
  UInt16.toBitVec_inj.mp BitVec.and_or_distrib_right

theorem Latched.or {flags : UInt16} (h : Latched flags) (other : UInt16) :
    Latched (other ||| flags) := by
  intro he
  rw [uint16_or_and] at he
  exact h (UInt16.or_eq_zero_iff.mp he).2

/-- The flag word is read back as the chip split it. -/
theorem word_split (flags : UInt16) : word [flags.toUInt8,(flags >>> 8).toUInt8] = flags := by
  apply UInt16.toNat_inj.mp
  have hlt := flags.toNat_lt
  have hshift : (8 : UInt16).toNat%16 = 8 := rfl
  have hlow : flags.toNat%2^8 < 2^8 := Nat.mod_lt _ (by decide)
  have hhigh : flags.toNat/2^8%256*2^8%2^16 = 2^8*(flags.toNat/2^8) := by omega
  simp only [word,List.getD_cons_zero,List.getD_cons_succ,UInt16.toNat_or,UInt16.toNat_shiftLeft,
    UInt8.toNat_toUInt16,UInt16.toNat_toUInt8,UInt16.toNat_shiftRight,hshift,
    Nat.shiftRight_eq_div_pow,Nat.shiftLeft_eq]
  rw [hhigh,Nat.or_comm,← Nat.two_pow_add_eq_or_of_lt hlow]
  omega

theorem word_take (buf : List UInt8) {n : ℕ} (h : 2 ≤ n) : word (buf.take n) = word buf := by
  obtain ⟨k,rfl⟩ := Nat.exists_eq_add_of_le' h
  rcases buf with _ | ⟨a,_ | ⟨b,rest⟩⟩ <;> simp [word]

theorem isFmEvent_of_take {evt : List UInt8} {n : ℕ} (h : isFmEvent (evt.take n) = true) :
    isFmEvent evt = true := by
  simp only [isFmEvent,decide_eq_true_eq,List.length_take] at h ⊢
  obtain ⟨hlen,hcode,hsub⟩ := h
  obtain ⟨k,rfl⟩ : ∃ k, n = k + 3 := Nat.exists_eq_add_of_le' (by omega)
  rcases evt with _ | ⟨a,_ | ⟨b,_ | ⟨c,rest⟩⟩⟩
  · simp at hlen
  · simp at hlen
  · simp at hlen
  · exact ⟨by simp,by simpa using hcode,by simpa using hsub⟩

/-! ## The tuner during a command -/

/-- What is known of the tuner: whether a tune is running, the flag word, and
whether an FM event is still to be received. -/
def Phase := Bool → UInt16 → Bool → Prop

/-- A phase that the end of a running tune and the receipt of events do not leave. -/
structure Phase.Stable (P : Phase) : Prop where
  received : ∀ tuning flags s s', (s' = true → s = true) → P tuning flags s → P tuning flags s'
  finished : ∀ flags s outcome, Latched outcome → P true flags s → P false (flags ||| outcome) true

def Phase.at (P : Phase) (d : Dev) : Prop :=
  P d.chip.tuning d.chip.flags (stale d.chip.wire d.queue)

/-- Nothing is left of an earlier operation. -/
def idle : Phase := fun tuning _ s => tuning = false ∧ s = false

/-- An FM event that is still to come tells of an outcome that is latched. -/
def told : Phase := fun _ flags s => s = true → Latched flags

def latched : Phase := fun _ flags _ => Latched flags

theorem idle_stable : idle.Stable where
  received _ _ s s' hs h := ⟨h.1,by cases s' <;> simp_all [idle]⟩
  finished _ _ _ _ h := by simp [idle] at h

theorem told_stable : told.Stable where
  received _ _ _ _ hs h := fun hs' => h (hs hs')
  finished flags _ _ ho _ := fun _ => ho.or flags

theorem latched_stable : latched.Stable where
  received _ _ _ _ _ h := h
  finished flags _ _ ho _ := ho.or flags

theorem anyPhase_stable : Phase.Stable fun _ _ _ => True where
  received _ _ _ _ _ h := h
  finished _ _ _ _ _ := trivial

/-- Between two calls of a tune: the exchange is orderly, nothing is in flight,
and the tuner is in a known phase. -/
structure Calm (P : Phase) (d : Dev) : Prop where
  orderly : d.Orderly Honest
  inFlight : d.chip.inFlight = []
  phase : P.at d

/-- While a command is at work, either it is owed its answer and the tuner is in
the phase `Pre`, or its answer is on the wire and the tuner is in the phase
`Post`. The parameters of the answer after the opcode satisfy `R`. -/
structure Exchange (c : List UInt8) (Pre Post : Phase) (R : List UInt8 → Prop) (d : Dev) :
    Prop where
  orderly : d.Orderly Honest
  one : d.chip.inFlight.length = 1
  cmd : ∀ cmd ∈ d.chip.owed, cmd.bytes = c
  pre : d.chip.owed ≠ [] → Pre.at d
  post : d.chip.owed = [] → Post.at d
  resp : ∀ m ∈ d.chip.wire, m.source.isSome = true → R (m.bytes.drop 6)

/-- What the answer to the command `c` does to the phase of the tuner, and what
it carries. -/
def Answers (c : List UInt8) (Pre Post : Phase) (R : List UInt8 → Prop) : Prop :=
  ∀ cmd : Command, cmd.bytes = c → ∀ tuning flags s status data clear, Pre tuning flags s →
    Post (tuning || (cmd.startsTune && status == 0))
      (if clear && (cmd.startsTune || cmd.readsFlags) then 0 else flags) s ∧
    R (status :: cmd.bytes.getD 0 0 :: cmd.bytes.getD 1 0 ::
      if cmd.readsFlags then [flags.toUInt8,(flags >>> 8).toUInt8] else data)

/-- A handle whose chip has done one more thing. -/
def Dev.act (d : Dev) (a : ChipAct) : Dev := { d with chip := d.chip.act a }

theorem stale_append (wire : List Message) (m : Message)
    (queue : Ring eventQueueMax (List UInt8)) :
    stale (wire ++ [m]) queue = (stale wire queue || isFmEvent (m.bytes.drop 1)) := by
  simp only [stale,List.any_append,List.any_cons,List.any_nil,Bool.or_false]
  cases isFmEvent (m.bytes.drop 1) <;> simp

def ChipAct.answers : ChipAct → Bool
  | .answer _ _ _ => true
  | _ => false

/-- The end of a tune and other events only add messages that answer nothing. -/
theorem act_adds (chip : Chip) {a : ChipAct} (h : a.answers = false) :
    (chip.act a).owed = chip.owed ∧
      ∃ ms, (chip.act a).wire = chip.wire ++ ms ∧ ∀ m ∈ ms, m.source = none := by
  cases a with
  | answer status data clear => simp [ChipAct.answers] at h
  | finish flags =>
    simp only [Chip.act,Chip.finish]
    split
    · exact ⟨rfl,_,rfl,by simp⟩
    · exact ⟨rfl,[],by simp,by simp⟩
  | emit code params =>
    simp only [Chip.act,Chip.emit]
    split
    · exact ⟨rfl,_,rfl,by simp⟩
    · exact ⟨rfl,[],by simp,by simp⟩

/-- A stable phase lasts while no command is answered. -/
theorem Phase.Stable.act {P : Phase} (hP : P.Stable) {d : Dev} (h : P.at d) {a : ChipAct}
    (hok : Honest a) (howed : a.answers = true → d.chip.owed = []) : P.at (d.act a) := by
  cases a with
  | answer status data clear =>
    have he : d.act (.answer status data clear) = d := by
      simp only [Dev.act,Chip.act,answer_nil (howed rfl)]
    rwa [he]
  | finish flags =>
    show P (d.chip.finish flags).tuning (d.chip.finish flags).flags
      (stale (d.chip.finish flags).wire d.queue)
    unfold Chip.finish
    split
    · rename_i hf
      simp only [Bool.and_eq_true,bne_iff_ne] at hf
      have htrue : P d.chip.tuning d.chip.flags (stale d.chip.wire d.queue) := h
      rw [hf.1] at htrue
      exact hP.received _ _ _ _ (fun _ => rfl) (hP.finished _ _ flags hf.2 htrue)
    · exact h
  | emit code params =>
    show P (d.chip.emit code params).tuning (d.chip.emit code params).flags
      (stale (d.chip.emit code params).wire d.queue)
    have hno : isFmEvent ((eventMessage code params).drop 1) = false := hok
    unfold Chip.emit
    split
    · rw [stale_append,hno,Bool.or_false]
      exact h
    · exact h

theorem Calm.act {P : Phase} (hP : P.Stable) {d : Dev} (h : Calm P d) {a : ChipAct}
    (hok : Honest a) : Calm P (d.act a) := by
  refine ⟨⟨h.orderly.tidy.act a,h.orderly.only⟩,(act_inFlight _ _).trans h.inFlight,?_⟩
  refine hP.act h.phase hok fun _ => ?_
  simpa using (List.append_eq_nil_iff.mp h.inFlight).2

/-- Before a system call the chip may act as the script says, and no more. -/
theorem Dev.Polls.carry {I : Dev → Prop} (hI : ∀ d a, Honest a → I d → I (d.act a))
    (hscript : ∀ (d : Dev) script, script ⊆ d.script → I d → I { d with script := script })
    {d e : Dev} (h : d.Polls e) (ho : d.Only Honest) (hd : I d) : I e := by
  have hall : I { d with chip := e.chip } :=
    h.keeps (fun chip => I { d with chip := chip }) (fun chip a hok hi => hI _ a hok hi) ho hd
  rcases h with ⟨-,rfl⟩ | ⟨t,rest,hs,rfl⟩
  · exact hd
  · exact hscript _ rest (by simp [hs]) hall

theorem Dev.Orderly.setScript {d : Dev} (h : d.Orderly Honest) {script : List Turn}
    (hs : script ⊆ d.script) : Dev.Orderly Honest { d with script := script } :=
  ⟨h.tidy,fun t ht => h.only t (hs ht)⟩

theorem Calm.polls {P : Phase} (hP : P.Stable) {d e : Dev} (h : Calm P d) (hp : d.Polls e) :
    Calm P e :=
  hp.carry (fun _ _ hok hc => hc.act hP hok)
    (fun _ _ hs hc => ⟨hc.orderly.setScript hs,hc.inFlight,hc.phase⟩) h.orderly.only h

section Exchange

variable {c : List UInt8} {Pre Post : Phase} {R : List UInt8 → Prop}

theorem Exchange.answer (ha : Answers c Pre Post R) {d : Dev} (h : Exchange c Pre Post R d)
    (status : UInt8) (data : List UInt8) (clear : Bool) :
    Exchange c Pre Post R (d.act (.answer status data clear)) := by
  have horder : (d.act (.answer status data clear)).Orderly Honest :=
    ⟨h.orderly.tidy.act (.answer status data clear),h.orderly.only⟩
  have hone : (d.act (.answer status data clear)).chip.inFlight.length = 1 := by
    rw [Dev.act,act_inFlight]
    exact h.one
  cases ho : d.chip.owed with
  | nil =>
    have he : d.act (.answer status data clear) = d := by
      simp only [Dev.act,Chip.act,answer_nil ho]
    rw [he]
    exact h
  | cons cmd rest =>
    have hcmd : cmd.bytes = c := h.cmd cmd (by simp [ho])
    obtain ⟨hpost,hresp⟩ := ha cmd hcmd _ _ _ status (data.take 249) clear (h.pre (by simp [ho]))
    simp only [Dev.act,Chip.act,answer_cons ho] at horder hone ⊢
    have hrest : rest = [] := by
      have hlen : (d.chip.wire.filterMap Message.source).length + (rest.length + 1) = 1 := by
        simpa [Chip.inFlight] using hone
      exact List.eq_nil_of_length_eq_zero (by omega)
    refine ⟨horder,hone,by simp [hrest],by simp [hrest],fun _ => ?_,fun m hm hsome => ?_⟩
    · show Post _ _ (stale _ _)
      rw [stale_append]
      simpa [isFmEvent,eventMessage,evtCmdComplete,evtVendor] using hpost
    · rcases List.mem_append.mp hm with hm | hm
      · exact h.resp m hm hsome
      · obtain rfl := List.mem_singleton.mp hm
        exact hresp

theorem Exchange.act (ha : Answers c Pre Post R) (hPre : Pre.Stable) (hPost : Post.Stable)
    {d : Dev} (h : Exchange c Pre Post R d) {a : ChipAct} (hok : Honest a) :
    Exchange c Pre Post R (d.act a) := by
  cases hanswer : a.answers with
  | true =>
    cases a with
    | answer status data clear => exact h.answer ha status data clear
    | finish | emit => simp [ChipAct.answers] at hanswer
  | false =>
    obtain ⟨howed,ms,hw,hsource⟩ := act_adds d.chip hanswer
    have hphase : ∀ P : Phase, P.Stable → P.at d → P.at (d.act a) :=
      fun P hP hd => hP.act hd hok fun ht => by simp [hanswer] at ht
    refine ⟨⟨h.orderly.tidy.act a,h.orderly.only⟩,?_,?_,?_,?_,?_⟩
    · rw [Dev.act,act_inFlight]
      exact h.one
    · rw [Dev.act,howed]
      exact h.cmd
    · rw [Dev.act,howed]
      exact fun hne => hphase Pre hPre (h.pre hne)
    · rw [Dev.act,howed]
      exact fun he => hphase Post hPost (h.post he)
    · intro m hm hsome
      rw [Dev.act,hw] at hm
      rcases List.mem_append.mp hm with hm | hm
      · exact h.resp m hm hsome
      · simp [hsource m hm] at hsome

theorem Exchange.polls (ha : Answers c Pre Post R) (hPre : Pre.Stable) (hPost : Post.Stable)
    {d e : Dev} (h : Exchange c Pre Post R d) (hp : d.Polls e) : Exchange c Pre Post R e :=
  hp.carry (fun _ _ hok hx => hx.act ha hPre hPost hok)
    (fun _ _ hs hx => ⟨hx.orderly.setScript hs,hx.one,hx.cmd,hx.pre,hx.post,hx.resp⟩)
    h.orderly.only h

/-- Receiving a message and putting it aside tells nothing new. -/
theorem Phase.Stable.setWire {P : Phase} (hP : P.Stable) {d : Dev} {m : Message}
    {rest : List Message} (hw : d.chip.wire = m :: rest) (h : P.at d) : P.at (d.setWire rest) := by
  refine hP.received _ _ _ _ (fun hs => ?_) h
  simp only [stale,Dev.setWire,hw,List.any_cons,Bool.or_eq_true] at hs ⊢
  exact hs.imp_left .inr

theorem Phase.Stable.queuePush {P : Phase} (hP : P.Stable) {d : Dev} {m : Message}
    {rest : List Message} (hw : d.chip.wire = m :: rest) (slotsz : ℕ) (h : P.at d) :
    P.at (queuePush slotsz (m.bytes.drop 1) (d.setWire rest)) := by
  refine hP.received _ _ _ _ (fun hs => ?_) h
  simp only [stale,Fm.queuePush,Dev.setWire,hw,List.any_cons,Bool.or_eq_true,List.any_eq_true]
    at hs ⊢
  rcases hs with hs | ⟨e,he,hfm⟩
  · exact .inl (.inr hs)
  · rcases Ring.mem_push he with he | rfl
    · exact .inr ⟨e,he,hfm⟩
    · exact .inl (.inl (isFmEvent_of_take hfm))

theorem Exchange.pass (hPre : Pre.Stable) (hPost : Post.Stable) {d e : Dev} {m : Message}
    {rest : List Message} (h : Exchange c Pre Post R d) (hw : d.chip.wire = m :: rest)
    (hs : m.source = none) (hchip : e.chip = (d.setWire rest).chip) (hscript : e.script = d.script)
    (hphase : ∀ P : Phase, P.Stable → P.at d → P.at e) : Exchange c Pre Post R e := by
  refine ⟨⟨?_,?_⟩,?_,?_,?_,?_,?_⟩
  · rw [hchip]
    exact tidy_setWire h.orderly.tidy hw
  · rw [Dev.Only,hscript]
    exact h.orderly.only
  · rw [hchip,← h.one,inFlight_setWire hw,hs]
    rfl
  · rw [hchip]
    exact h.cmd
  · rw [hchip]
    exact fun hne => hphase Pre hPre (h.pre hne)
  · rw [hchip]
    exact fun he => hphase Post hPost (h.post he)
  · rw [hchip]
    exact fun m' hm' => h.resp m' (by rw [hw]; exact List.mem_cons_of_mem _ hm')

/-- A command sent with nothing in flight starts an exchange. -/
theorem Calm.sent {d : Dev} (h : Calm Pre d) : Exchange c Pre Post R (d.sent fmVscOpcode c) := by
  have hflight : d.chip.wire.filterMap Message.source = [] ∧ d.chip.owed = [] := by
    simpa [Chip.inFlight] using h.inFlight
  refine ⟨h.orderly.sent c,?_,?_,fun _ => h.phase,?_,fun m hm hsome => ?_⟩
  · rw [inFlight_sent,h.inFlight]
    rfl
  · simp [Dev.sent,hflight.2]
  · simp [Dev.sent]
  · simp [List.filterMap_eq_nil_iff.mp hflight.1 m hm] at hsome

/-- The rule for a command that starts with nothing in flight: its answer takes
the tuner from one phase to the other, and the command returns that answer. -/
theorem vsc_rule (bus : Bus) (respsz : ℕ) (ha : Answers c Pre Post R) (hPre : Pre.Stable)
    (hPost : Post.Stable) :
    Triple (Calm Pre) (bus.transport.vsc c respsz)
      (fun resp d => Calm Post d ∧ ∃ p, R p ∧ resp = p.take respsz) (fun _ => True) := by
  have hloop : Triple _ (commandLoop bus.port fmVscOpcode respsz 16) _ _ := commandLoop_rule
    (Exchange c Pre Post R) (fun resp d => Calm Post d ∧ ∃ p, R p ∧ resp = p.take respsz)
    (fun _ h => h.orderly.tidy) (fun _ _ h hp => h.polls ha hPre hPost hp)
    (fun d m rest h hw hs => ⟨h.pass hPre hPost hw hs rfl rfl fun P hP hd => hP.setWire hw hd,
      h.pass hPre hPost hw hs rfl rfl fun P hP hd => hP.queuePush hw _ hd⟩)
    (fun d m rest k h hw hs => by
      have hflight : (d.setWire rest).chip.inFlight = [] := by
        have hone := h.one
        rw [inFlight_setWire hw,hs] at hone
        exact List.eq_nil_of_length_eq_zero (by simpa using hone)
      have howed : d.chip.owed = [] := by
        have hmap := (List.append_eq_nil_iff.mp hflight).2
        simpa [Dev.setWire] using hmap
      refine ⟨⟨⟨tidy_setWire h.orderly.tidy hw,h.orderly.only⟩,hflight,?_⟩,m.bytes.drop 6,?_,rfl⟩
      · exact hPost.setWire hw (h.post howed)
      · exact h.resp m (by simp [hw]) (by simp [hs])) 16
  intro d hd
  obtain ⟨e,hpoll,hr | hr⟩ := vsc_cases bus c respsz d
  · rw [hr]
    trivial
  rw [hr]
  exact (hloop _ (hd.polls hPre hpoll).sent).imp (fun _ _ h => h) fun _ _ => trivial

end Exchange

end Fm
end Kitakami

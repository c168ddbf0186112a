import Kitakami.Fm.Proto

/-!
# Answers in flight

The commands that are not answered yet and the answers that are not received
yet form one queue, `Chip.inFlight`: the chip moves an answer from its first to
its second part without changing the whole. A command appends its serial
number, and a successful command takes the front of the queue, whatever it is.
-/

namespace Kitakami
namespace Fm

/-! ## The chip -/

/-- The serial numbers of the commands whose answers are still to be received. -/
def Chip.inFlight (chip : Chip) : List ℕ :=
  chip.wire.filterMap Message.source ++ chip.owed.map Command.serial

/-- A message is a whole event, and an answer exactly when it looks like one. -/
def Message.Tidy (m : Message) : Prop :=
  ∃ code params, m.bytes = eventMessage code params ∧ params.length ≤ 255 ∧
    isComplete fmVscOpcode (m.bytes.drop 1) = m.source.isSome

structure Chip.Tidy (chip : Chip) : Prop where
  owed : ∀ c ∈ chip.owed, c.opcode = fmVscOpcode
  wire : ∀ m ∈ chip.wire, m.Tidy
  serial : ∀ k ∈ chip.inFlight, k < chip.serial

theorem answer_nil {chip : Chip} (h : chip.owed = []) (status : UInt8) (data : List UInt8)
    (clear : Bool) : chip.answer status data clear = chip := by simp [Chip.answer,h]

theorem answer_cons {chip : Chip} {c : Command} {rest : List Command} (h : chip.owed = c :: rest)
    (status : UInt8) (data : List UInt8) (clear : Bool) :
    chip.answer status data clear =
      { chip with
        owed := rest
        wire := chip.wire ++ [⟨eventMessage evtCmdComplete
          (completeParams c status (chip.registerData c (data.take 249))),some c.serial⟩]
        tuning := chip.tuning || (c.startsTune && status == 0)
        flags := if clear && (c.startsTune || c.readsFlags) then 0 else chip.flags } := by
  simp [Chip.answer,h]

/-- The chip delivers answers and adds events; the queue of answers stays. -/
theorem act_inFlight (chip : Chip) (a : ChipAct) : (chip.act a).inFlight = chip.inFlight := by
  cases a with
  | answer status data clear =>
    show (chip.answer status data clear).inFlight = chip.inFlight
    cases ho : chip.owed with
    | nil => rw [answer_nil ho]
    | cons c rest => simp [answer_cons ho,Chip.inFlight,ho]
  | finish flags =>
    show (chip.finish flags).inFlight = chip.inFlight
    unfold Chip.finish
    split <;> simp [Chip.inFlight]
  | emit code params =>
    show (chip.emit code params).inFlight = chip.inFlight
    unfold Chip.emit
    split <;> simp [Chip.inFlight]

theorem act_serial (chip : Chip) (a : ChipAct) : (chip.act a).serial = chip.serial := by
  cases a with
  | answer status data clear =>
    show (chip.answer status data clear).serial = chip.serial
    unfold Chip.answer
    split <;> rfl
  | finish flags =>
    show (chip.finish flags).serial = chip.serial
    unfold Chip.finish
    split <;> rfl
  | emit code params =>
    show (chip.emit code params).serial = chip.serial
    unfold Chip.emit
    split <;> rfl

/-- The answer to an FM command is a whole event and looks like one. -/
theorem tidy_complete {c : Command} (hc : c.opcode = fmVscOpcode) (status : UInt8)
    {data : List UInt8} (hd : data.length ≤ 249) :
    Message.Tidy ⟨eventMessage evtCmdComplete (completeParams c status data),some c.serial⟩ := by
  refine ⟨_,_,rfl,?_,?_⟩
  · simp only [completeParams,List.length_append,List.length_cons,List.length_nil]
    omega
  · have hop : fmVscOpcode.toUInt8.toUInt16 ||| (fmVscOpcode >>> 8).toUInt8.toUInt16 <<< 8 =
        fmVscOpcode := by decide
    simpa [isComplete,eventMessage,completeParams,opcodeOf,hc] using hop

/-- The register data that go into an answer fit in one. -/
theorem Chip.length_registerData (chip : Chip) (c : Command) (data : List UInt8) :
    (chip.registerData c (data.take 249)).length ≤ 249 := by
  unfold Chip.registerData
  split <;> simp

theorem Chip.Tidy.act {chip : Chip} (h : chip.Tidy) (a : ChipAct) : (chip.act a).Tidy := by
  have hserial : ∀ k ∈ (chip.act a).inFlight, k < (chip.act a).serial := by
    rw [act_inFlight,act_serial]
    exact h.serial
  cases a with
  | answer status data clear =>
    cases ho : chip.owed with
    | nil => simpa only [Chip.act,answer_nil ho] using h
    | cons c rest =>
      have hlen := chip.length_registerData c data
      simp only [Chip.act,answer_cons ho] at hserial ⊢
      refine ⟨fun c' hc' => h.owed c' (by simp [ho,hc']),fun m hm => ?_,hserial⟩
      rcases List.mem_append.mp hm with hm | hm
      · exact h.wire m hm
      · obtain rfl := List.mem_singleton.mp hm
        exact tidy_complete (h.owed c (by simp [ho])) status hlen
  | finish flags =>
    simp only [Chip.act,Chip.finish] at hserial ⊢
    split at hserial
    · rw [if_pos ‹_›]
      refine ⟨h.owed,fun m hm => ?_,hserial⟩
      rcases List.mem_append.mp hm with hm | hm
      · exact h.wire m hm
      · obtain rfl := List.mem_singleton.mp hm
        exact ⟨_,_,rfl,by simp,by decide⟩
    · rw [if_neg ‹_›]
      exact h
  | emit code params =>
    simp only [Chip.act,Chip.emit] at hserial ⊢
    split at hserial
    · rw [if_pos ‹_›]
      refine ⟨h.owed,fun m hm => ?_,hserial⟩
      rcases List.mem_append.mp hm with hm | hm
      · exact h.wire m hm
      · obtain rfl := List.mem_singleton.mp hm
        exact ⟨_,_,rfl,‹_ ∧ _›.1,by simpa using ‹_ ∧ _›.2⟩
    · rw [if_neg ‹_›]
      exact h

/-! ## System calls -/

/-- What happens before a system call: the next turn of the script, if there is one. -/
def Dev.Polls (d e : Dev) : Prop :=
  (d.script = [] ∧ e = d) ∨
    ∃ t rest, d.script = t :: rest ∧ e = { d with chip := t.run d.chip, script := rest }

/-- Every act of the chip that the script still holds satisfies `ok`. -/
def Dev.Only (ok : ChipAct → Prop) (d : Dev) : Prop := ∀ t ∈ d.script, ∀ a ∈ t.acts, ok a

def Dev.setWire (d : Dev) (wire : List Message) : Dev :=
  { d with chip := { d.chip with wire := wire } }

theorem poll_polls (d : Dev) : d.Polls d.poll.1 := by
  cases hs : d.script with
  | nil => exact .inl ⟨hs,by simp [Dev.poll,hs]⟩
  | cons t rest => exact .inr ⟨t,rest,hs,by simp [Dev.poll,hs]⟩

/-- What every act allowed by the script preserves, a system call preserves. -/
theorem Dev.Polls.keeps {ok : ChipAct → Prop} (P : Chip → Prop)
    (hP : ∀ chip a, ok a → P chip → P (chip.act a)) {d e : Dev} (h : d.Polls e)
    (ho : d.Only ok) (hd : P d.chip) : P e.chip := by
  rcases h with ⟨-,rfl⟩ | ⟨t,rest,hs,rfl⟩
  · exact hd
  have hacts : ∀ a ∈ t.acts, ok a := ho t (by simp [hs])
  have hfold : ∀ (acts : List ChipAct) (chip : Chip), (∀ a ∈ acts, ok a) → P chip →
      P (acts.foldl Chip.act chip) := by
    intro acts
    induction acts with
    | nil => exact fun chip _ hp => hp
    | cons a acts ih =>
      intro chip ha hp
      exact ih _ (fun b hb => ha b (by simp [hb])) (hP chip a (ha a (by simp)) hp)
  exact hfold t.acts d.chip hacts hd

theorem Dev.Polls.only {ok : ChipAct → Prop} {d e : Dev} (h : d.Polls e) (ho : d.Only ok) :
    e.Only ok := by
  rcases h with ⟨-,rfl⟩ | ⟨t,rest,hs,rfl⟩
  · exact ho
  · exact fun t' ht' => ho t' (by simp [hs,ht'])

theorem Dev.only_true (d : Dev) : d.Only fun _ => True := fun _ _ _ _ => trivial

theorem Dev.Polls.queue {d e : Dev} (h : d.Polls e) : e.queue = d.queue := by
  rcases h with ⟨-,rfl⟩ | ⟨t,rest,hs,rfl⟩ <;> rfl

theorem Dev.Polls.tidy {d e : Dev} (h : d.Polls e) (hd : d.chip.Tidy) : e.chip.Tidy :=
  h.keeps Chip.Tidy (fun _ a _ hc => hc.act a) d.only_true hd

theorem Dev.Polls.inFlight {d e : Dev} (h : d.Polls e) : e.chip.inFlight = d.chip.inFlight :=
  h.keeps (fun chip => chip.inFlight = d.chip.inFlight)
    (fun chip a _ hc => (act_inFlight chip a).trans hc) d.only_true rfl

theorem Dev.Polls.serial {d e : Dev} (h : d.Polls e) : e.chip.serial = d.chip.serial :=
  h.keeps (fun chip => chip.serial = d.chip.serial)
    (fun chip a _ hc => (act_serial chip a).trans hc) d.only_true rfl

/-- A send fails, or the command is owed an answer. -/
theorem sendMessage_cases (opcode : UInt16) (cmd : List UInt8) (d : Dev) :
    ∃ e, d.Polls e ∧ (sendMessage opcode cmd d = (e,false) ∨
      sendMessage opcode cmd d =
        ({ e with chip := { e.chip with
            serial := e.chip.serial + 1
            owed := e.chip.owed ++ [⟨e.chip.serial,opcode,cmd⟩] } },true)) := by
  refine ⟨d.poll.1,poll_polls d,?_⟩
  rcases hp : d.poll with ⟨e,_ | _⟩
  · exact .inl (by simp [sendMessage,hp])
  · exact .inr (by simp [sendMessage,hp])

theorem receive_cases (d : Dev) :
    ∃ e, d.Polls e ∧ (receive d = (e,none) ∨
      ∃ m rest, e.chip.wire = m :: rest ∧ receive d = (e.setWire rest,some m)) := by
  refine ⟨d.poll.1,poll_polls d,?_⟩
  rcases hp : d.poll with ⟨e,_ | _⟩
  · exact .inl (by simp [receive,hp])
  cases hw : e.chip.wire with
  | nil => exact .inl (by simp [receive,hp,hw])
  | cons m rest => exact .inr ⟨m,rest,rfl,by simp [receive,hp,hw,Dev.setWire]⟩

/-- A message that is one whole event. -/
def Message.IsEvent (m : Message) : Prop :=
  ∃ code params, m.bytes = eventMessage code params ∧ params.length ≤ 255

theorem Message.Tidy.isEvent {m : Message} (h : m.Tidy) : m.IsEvent := by
  obtain ⟨code,params,hb,hlen,-⟩ := h
  exact ⟨code,params,hb,hlen⟩

/-- Both transports receive the next event less its packet type; none is skipped, cut or refused. -/
theorem recv_event (bus : Bus) {evtsz : ℕ} (hsz : 257 ≤ evtsz) {d : Dev}
    (h : ∀ e, d.Polls e → ∀ m ∈ e.chip.wire, m.IsEvent) :
    ∃ e, d.Polls e ∧ (bus.port.recv evtsz d = (e,none) ∨
      ∃ m rest, e.chip.wire = m :: rest ∧
        bus.port.recv evtsz d = (e.setWire rest,some { m with bytes := m.bytes.drop 1 })) := by
  obtain ⟨e,hpoll,hr | ⟨m,rest,hw,hr⟩⟩ := receive_cases d
  · refine ⟨e,hpoll,.inl ?_⟩
    cases bus with
    | hci => simp [Bus.port,hciPort,recvEvent,recvEventLoop,hr]
    | uart => simp [Bus.port,uartPort,hciRecv,hciRecvLoop,hr]
  refine ⟨e,hpoll,.inr ⟨m,rest,hw,?_⟩⟩
  obtain ⟨code,params,hb,hlen⟩ := h e hpoll m (by simp [hw])
  cases bus with
  | hci =>
    have hmax : (eventMessage code params).take maxMessage = eventMessage code params := by
      refine List.take_of_length_le ?_
      simp only [eventMessage,List.length_cons,maxMessage]
      omega
    have hcut : (code :: UInt8.ofNat params.length :: params).take evtsz =
        code :: UInt8.ofNat params.length :: params := by
      refine List.take_of_length_le ?_
      simp only [List.length_cons]
      omega
    simp only [Bus.port,hciPort,recvEvent,recvEventLoop,hr,hb,hmax]
    simp [eventMessage,hcut]
  | uart =>
    have hplen : (UInt8.ofNat params.length).toNat = params.length := by
      simp
      omega
    have hcut : (code :: UInt8.ofNat params.length :: params).take (params.length + 2) =
        code :: UInt8.ofNat params.length :: params := by
      refine List.take_of_length_le ?_
      simp
    have hfit : ¬ params.length > evtsz - 2 := by omega
    simp only [Bus.port,uartPort,hciRecv,hciRecvLoop,hr,hb]
    simp [eventMessage,hplen,hcut,hfit]

/-- The chip sends nothing that the transports would skip, cut or refuse. -/
theorem recv_cases (bus : Bus) {evtsz : ℕ} (hsz : 257 ≤ evtsz) {d : Dev} (h : d.chip.Tidy) :
    ∃ e, d.Polls e ∧ (bus.port.recv evtsz d = (e,none) ∨
      ∃ m rest, e.chip.wire = m :: rest ∧
        bus.port.recv evtsz d = (e.setWire rest,some { m with bytes := m.bytes.drop 1 })) :=
  recv_event bus hsz fun _ hp m hm => ((hp.tidy h).wire m hm).isEvent

/-! ## Commands -/

/-- The rule for the loop of a command. `J` is kept while the chip acts and while
messages that answer nothing are passed over or put aside; the first answer ends
the loop, whichever command it answers. -/
theorem commandLoop_rule {bus : Bus} {respsz : ℕ} (J : Dev → Prop)
    (R : List UInt8 → Dev → Prop) (tidy : ∀ d, J d → d.chip.Tidy) (polls : ∀ d e, J d → d.Polls e → J e)
    (pass : ∀ d m rest, J d → d.chip.wire = m :: rest → m.source = none →
      J (d.setWire rest) ∧ J (queuePush bus.port.slotsz (m.bytes.drop 1) (d.setWire rest)))
    (found : ∀ d m rest k, J d → d.chip.wire = m :: rest → m.source = some k →
      R ((m.bytes.drop 6).take respsz) { d.setWire rest with matched := some k })
    (tries : ℕ) : Call.Triple J (commandLoop bus.port fmVscOpcode respsz tries) R J := by
  induction tries with
  | zero => exact fun d hd => hd
  | succ n ih =>
    intro d hd
    have hsz : 257 ≤ bus.port.evtsz := by cases bus <;> decide
    obtain ⟨e,hpoll,hr | ⟨m,rest,hw,hr⟩⟩ := recv_cases bus hsz (tidy d hd)
    · simpa only [commandLoop,hr,Call.ends_none] using polls d e hd hpoll
    have he := polls d e hd hpoll
    obtain ⟨code,params,hb,hlen,hcomplete⟩ := (tidy e he).wire m (by simp [hw])
    simp only [commandLoop,hr]
    cases hs : m.source with
    | some k =>
      have hc : isComplete fmVscOpcode (m.bytes.drop 1) = true := by rw [hcomplete,hs]; rfl
      simp only [isComplete,decide_eq_true_eq] at hc
      rw [if_pos ⟨hc.1,hc.2.1⟩,if_neg (not_not.mpr hc.2.2)]
      simp only [List.drop_drop]
      exact found e m rest k he hw hs
    | none =>
      obtain ⟨hskip,hpush⟩ := pass e m rest he hw hs
      have hc : ¬ (isComplete fmVscOpcode (m.bytes.drop 1) = true) := by
        rw [hcomplete,hs]
        simp
      simp only [isComplete,decide_eq_true_eq] at hc
      split
      · rw [if_pos fun hop => hc ⟨‹_ ∧ _›.1,‹_ ∧ _›.2,hop⟩]
        exact ih _ hskip
      · split
        · exact ih _ hpush
        · exact ih _ hskip

theorem tidy_setWire {d : Dev} {m : Message} {rest : List Message} (h : d.chip.Tidy)
    (hw : d.chip.wire = m :: rest) : (d.setWire rest).chip.Tidy := by
  refine ⟨h.owed,fun m' hm' => h.wire m' (by rw [hw]; exact List.mem_cons_of_mem _ hm'),fun k hk => h.serial k ?_⟩
  cases hs : m.source with
  | none => simpa [Chip.inFlight,Dev.setWire,hw,hs] using hk
  | some j =>
    have : k = j ∨ k ∈ (d.setWire rest).chip.inFlight := .inr hk
    simpa [Chip.inFlight,Dev.setWire,hw,hs] using this

/-- Taking a message from the wire takes its command from the queue of answers. -/
theorem inFlight_setWire {d : Dev} {m : Message} {rest : List Message}
    (hw : d.chip.wire = m :: rest) :
    d.chip.inFlight = m.source.toList ++ (d.setWire rest).chip.inFlight := by
  cases hs : m.source <;> simp [Chip.inFlight,Dev.setWire,hw,hs]

/-- The driver's side of an orderly exchange: the chip is tidy, and what it will
still do is allowed. -/
structure Dev.Orderly (ok : ChipAct → Prop) (d : Dev) : Prop where
  tidy : d.chip.Tidy
  only : d.Only ok

theorem Dev.Polls.orderly {ok : ChipAct → Prop} {d e : Dev} (h : d.Polls e)
    (hd : d.Orderly ok) : e.Orderly ok := ⟨h.tidy hd.tidy,h.only hd.only⟩

theorem Dev.Orderly.setWire {ok : ChipAct → Prop} {d : Dev} {m : Message} {rest : List Message}
    (h : d.Orderly ok) (hw : d.chip.wire = m :: rest) : (d.setWire rest).Orderly ok :=
  ⟨tidy_setWire h.tidy hw,h.only⟩

/-- A handle whose next command has been sent. -/
def Dev.sent (d : Dev) (opcode : UInt16) (cmd : List UInt8) : Dev :=
  { d with chip := { d.chip with
      serial := d.chip.serial + 1
      owed := d.chip.owed ++ [⟨d.chip.serial,opcode,cmd⟩] } }

theorem inFlight_sent (d : Dev) (opcode : UInt16) (cmd : List UInt8) :
    (d.sent opcode cmd).chip.inFlight = d.chip.inFlight ++ [d.chip.serial] := by
  simp [Chip.inFlight,Dev.sent]

theorem Dev.Orderly.sent {ok : ChipAct → Prop} {d : Dev} (h : d.Orderly ok) (cmd : List UInt8) :
    (d.sent fmVscOpcode cmd).Orderly ok := by
  refine ⟨⟨fun c hc => ?_,h.tidy.wire,fun j hj => ?_⟩,h.only⟩
  · rcases List.mem_append.mp hc with hc | hc
    · exact h.tidy.owed c hc
    · obtain rfl := List.mem_singleton.mp hc
      rfl
  · rw [inFlight_sent] at hj
    rcases List.mem_append.mp hj with hj | hj
    · exact Nat.lt_succ_of_lt (h.tidy.serial j hj)
    · obtain rfl := List.mem_singleton.mp hj
      exact Nat.lt_succ_self _

/-- A command runs its loop on the handle it has been sent on, or fails at once. -/
theorem vsc_cases (bus : Bus) (cmd : List UInt8) (respsz : ℕ) (d : Dev) :
    ∃ e, d.Polls e ∧ (bus.transport.vsc cmd respsz d = (e,none) ∨
      bus.transport.vsc cmd respsz d =
        commandLoop bus.port fmVscOpcode respsz 16 (e.sent fmVscOpcode cmd)) := by
  obtain ⟨e,hpoll,hs | hs⟩ := sendMessage_cases fmVscOpcode cmd d
  · exact ⟨e,hpoll,.inl (by simp [Bus.transport,command,hs])⟩
  · exact ⟨e,hpoll,.inr (by simp [Bus.transport,command,hs,Dev.sent])⟩

/-- **What a command does to the queue of answers**: it appends its own serial
number, and if it succeeds it has taken the answer in front. -/
theorem vsc_inFlight (bus : Bus) (ok : ChipAct → Prop) (cmd : List UInt8) (respsz k : ℕ)
    (flight : List ℕ) :
    Call.Triple (fun d => d.Orderly ok ∧ d.chip.inFlight = flight ∧ d.chip.serial = k)
      (bus.transport.vsc cmd respsz)
      (fun _ d => d.Orderly ok ∧ ∃ j, d.matched = some j ∧ j :: d.chip.inFlight = flight ++ [k])
      (fun d => d.Orderly ok) := by
  rintro d ⟨hd,rfl,rfl⟩
  have hloop : Call.Triple _ (commandLoop bus.port fmVscOpcode respsz 16) _ _ := commandLoop_rule
    (fun e => e.Orderly ok ∧ e.chip.inFlight = d.chip.inFlight ++ [d.chip.serial])
    (fun _ e => e.Orderly ok ∧ ∃ j, e.matched = some j ∧
      j :: e.chip.inFlight = d.chip.inFlight ++ [d.chip.serial])
    (fun e h => h.1.tidy) (fun e e' h hp => ⟨hp.orderly h.1,hp.inFlight.trans h.2⟩)
    (fun e m rest h hw hs => by
      have hrest : (e.setWire rest).chip.inFlight = d.chip.inFlight ++ [d.chip.serial] := by
        rw [← h.2,inFlight_setWire hw,hs]
        rfl
      exact ⟨⟨h.1.setWire hw,hrest⟩,⟨(h.1.setWire hw).tidy,h.1.only⟩,hrest⟩)
    (fun e m rest j h hw hs => by
      refine ⟨⟨(h.1.setWire hw).tidy,h.1.only⟩,j,rfl,?_⟩
      rw [← h.2,inFlight_setWire hw,hs]
      rfl) 16
  obtain ⟨e,hpoll,hs | hs⟩ := vsc_cases bus cmd respsz d
  · simpa only [hs,Call.ends_none] using hpoll.orderly hd
  · rw [hs]
    refine (hloop _ ⟨(hpoll.orderly hd).sent cmd,?_⟩).imp (fun _ _ h => h) fun _ h => h.1
    rw [inFlight_sent,hpoll.inFlight,hpoll.serial]

end Fm
end Kitakami

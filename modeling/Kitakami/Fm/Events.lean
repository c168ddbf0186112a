import Kitakami.Base.Mailbox
import Kitakami.Fm.Channel

/-!
# Events of the tuner

A command puts the vendor events aside that it receives while it waits for its
answer, and `transport_wait_event` hands them out before it reads the transport
itself: the pending queue is a mailbox, and what arrives in it is what the
chip has sent.
-/

namespace Kitakami
namespace Fm

open Runs

inductive TransportCall
  | vsc (cmd : List UInt8) (respsz : ℕ)
  | waitEvent (evtsz : ℕ)

/-- The buffer for an event holds any event. -/
def TransportCall.Fits : TransportCall → Prop
  | .vsc _ _ => True
  | .waitEvent evtsz => 257 ≤ evtsz

/-- One call on the handle; the list is what `transport_wait_event` has handed out. -/
def transportStep (bus : Bus) (x : Dev × List (List UInt8)) :
    TransportCall → Option (Dev × List (List UInt8))
  | .vsc cmd respsz => some ((bus.transport.vsc cmd respsz x.1).1,x.2)
  | .waitEvent evtsz =>
    some ((bus.transport.waitEvent evtsz x.1).1,x.2 ++ (bus.transport.waitEvent evtsz x.1).2.toList)

/-- A message is received in a command, or it is received by `transport_wait_event`, or that
finds a pending event. -/
inductive Traffic
  | inVsc (m : Message)
  | inWait (m : Message)
  | pending

namespace Traffic

def received : Traffic → Option Message
  | .inVsc m => some m
  | .inWait m => some m
  | .pending => none

/-- The event of a message. -/
def event (m : Message) : List UInt8 := m.bytes.drop 1

def acts : Traffic → List (Mailbox.Act (List UInt8))
  | .inVsc m => if (event m).headD 0 = evtVendor then [.put (event m)] else []
  | .inWait m => [.pass (event m)]
  | .pending => [.take]

/-- The traffic that a call can cause. -/
def Of : TransportCall → List Traffic → Prop
  | .vsc _ _, ts => ∀ t ∈ ts, ∃ m, t = .inVsc m
  | .waitEvent _, ts => ts = [] ∨ ts = [.pending] ∨ ∃ m, ts = [.inWait m]

end Traffic

/-! ## What one call does -/

variable {d e f : Dev} {ts us : List Traffic} {out out' : List (List UInt8)}

/-- Whole events are on the wire and in the queue. -/
structure Dev.Mail (d : Dev) : Prop where
  wire : ∀ m ∈ d.chip.wire, m.IsEvent
  queue : ∀ e ∈ d.queue.toList, 0 < e.length ∧ e.length ≤ 257

/-- The handle has received `ts` and handed out `out`. -/
structure Delivers (d : Dev) (ts : List Traffic) (out : List (List UInt8)) (e : Dev) : Prop where
  wire : ∃ sent, d.chip.wire ++ sent = ts.filterMap Traffic.received ++ e.chip.wire
  mailbox : ∀ b : Mailbox (List UInt8), b.queued = d.queue.toList →
    ∃ c, run (Mailbox.step eventQueueMax) b (ts.flatMap Traffic.acts) = some c ∧
      c.queued = e.queue.toList ∧ c.handed = b.handed ++ out

theorem Delivers.refl (d : Dev) : Delivers d [] [] d :=
  ⟨⟨[],List.append_nil _⟩,fun b hb => ⟨b,rfl,hb,(List.append_nil _).symm⟩⟩

theorem Delivers.trans (h : Delivers d ts out e) (h' : Delivers e us out' f) :
    Delivers d (ts ++ us) (out ++ out') f := by
  constructor
  · obtain ⟨sent,hs⟩ := h.wire
    obtain ⟨sent',hs'⟩ := h'.wire
    refine ⟨sent ++ sent',?_⟩
    rw [← List.append_assoc,hs,List.append_assoc,hs',List.filterMap_append,List.append_assoc]
  · intro b hb
    obtain ⟨c,hc,hq,hh⟩ := h.mailbox b hb
    obtain ⟨c',hc',hq',hh'⟩ := h'.mailbox c hq
    refine ⟨c',?_,hq',?_⟩
    · rw [List.flatMap_append,run_append,hc,Option.bind_some,hc']
    · rw [hh',hh,List.append_assoc]

theorem Delivers.of_polls (h : d.Polls e) : Delivers d [] [] e := by
  constructor
  · refine h.keeps (fun chip => ∃ sent, d.chip.wire ++ sent = chip.wire) ?_ d.only_true
      ⟨[],List.append_nil _⟩
    rintro chip a - ⟨sent,hs⟩
    cases a with
    | answer status data clear =>
      simp only [Chip.act,Chip.answer]
      split
      · exact ⟨sent,hs⟩
      · exact ⟨_,by rw [← hs,List.append_assoc]⟩
    | finish flags =>
      simp only [Chip.act,Chip.finish]
      split
      · exact ⟨_,by rw [← hs,List.append_assoc]⟩
      · exact ⟨sent,hs⟩
    | emit code params =>
      simp only [Chip.act,Chip.emit]
      split
      · exact ⟨_,by rw [← hs,List.append_assoc]⟩
      · exact ⟨sent,hs⟩
  · intro b hb
    exact ⟨b,rfl,by rw [hb,h.queue],(List.append_nil _).symm⟩

theorem Message.isEvent_mk {code : UInt8} {params : List UInt8} (source : Option ℕ)
    (h : params.length ≤ 255) : Message.IsEvent ⟨eventMessage code params,source⟩ :=
  ⟨code,params,rfl,h⟩

theorem Dev.Mail.polls (h : d.Mail) (hp : d.Polls e) : e.Mail := by
  refine ⟨?_,by rw [hp.queue]; exact h.queue⟩
  refine hp.keeps (fun chip => ∀ m ∈ chip.wire, m.IsEvent) ?_ d.only_true h.wire
  intro chip a _ hc
  have hnew : ∀ n : Message, n.IsEvent → ∀ m ∈ chip.wire ++ [n], m.IsEvent := by
    intro n hn m hm
    rcases List.mem_append.mp hm with hm | hm
    · exact hc m hm
    · obtain rfl := List.mem_singleton.mp hm
      exact hn
  cases a with
  | answer status data clear =>
    simp only [Chip.act]
    cases ho : chip.owed with
    | nil => rwa [answer_nil ho]
    | cons c rest =>
      rw [answer_cons ho]
      refine hnew _ (Message.isEvent_mk _ ?_)
      have hlen := chip.length_registerData c data
      simp only [completeParams,List.length_append,List.length_cons,List.length_nil]
      omega
  | finish flags =>
    simp only [Chip.act,Chip.finish]
    split
    · exact hnew _ (Message.isEvent_mk _ (by decide))
    · exact hc
  | emit code params =>
    simp only [Chip.act,Chip.emit]
    split
    · exact hnew _ (Message.isEvent_mk _ ‹_ ∧ _›.1)
    · exact hc

theorem Message.IsEvent.length {m : Message} (h : m.IsEvent) :
    0 < (Traffic.event m).length ∧ (Traffic.event m).length ≤ 257 := by
  obtain ⟨code,params,hb,hlen⟩ := h
  simp only [Traffic.event,hb,eventMessage,List.drop_succ_cons,List.drop_zero,List.length_cons]
  omega

theorem Dev.Mail.setWire {m : Message} {rest : List Message} (h : d.Mail)
    (hw : d.chip.wire = m :: rest) : (d.setWire rest).Mail :=
  ⟨fun n hn => h.wire n (by rw [hw]; exact List.mem_cons_of_mem m hn),h.queue⟩

theorem Dev.Mail.recv (h : d.Mail) (bus : Bus) {evtsz : ℕ} (hsz : 257 ≤ evtsz) :
    ∃ e, d.Polls e ∧ e.Mail ∧ (bus.port.recv evtsz d = (e,none) ∨
      ∃ m rest, e.chip.wire = m :: rest ∧ m.IsEvent ∧ (e.setWire rest).Mail ∧
        bus.port.recv evtsz d = (e.setWire rest,some { m with bytes := Traffic.event m })) := by
  obtain ⟨e,hp,hr | ⟨m,rest,hw,hr⟩⟩ := recv_event bus hsz fun e hp => (h.polls hp).wire
  · exact ⟨e,hp,h.polls hp,.inl hr⟩
  · have he := h.polls hp
    exact ⟨e,hp,he,.inr ⟨m,rest,hw,he.wire m (by rw [hw]; exact List.mem_cons_self),
      he.setWire hw,hr⟩⟩

/-- A message received in a command that is no vendor event is not kept. -/
theorem Delivers.ignored {m : Message} {rest : List Message} (hw : d.chip.wire = m :: rest)
    (hm : (Traffic.event m).headD 0 ≠ evtVendor) :
    Delivers d [.inVsc m] [] (d.setWire rest) := by
  constructor
  · exact ⟨[],by simp [hw,Traffic.received,Dev.setWire]⟩
  · intro b hb
    have ha : (Traffic.inVsc m).acts = [] := if_neg hm
    exact ⟨b,by simp [ha],hb,(List.append_nil _).symm⟩

/-- A vendor event received in a command is put into the queue. -/
theorem Delivers.queued {m : Message} {rest : List Message} {slotsz : ℕ}
    (hw : d.chip.wire = m :: rest) (hm : (Traffic.event m).headD 0 = evtVendor)
    (hlen : (Traffic.event m).length ≤ slotsz) :
    Delivers d [.inVsc m] [] (queuePush slotsz (Traffic.event m) (d.setWire rest)) := by
  constructor
  · exact ⟨[],by simp [hw,Traffic.received,Dev.setWire,queuePush]⟩
  · intro b hb
    refine ⟨b.put eventQueueMax (Traffic.event m),?_,?_,?_⟩
    · have ha : (Traffic.inVsc m).acts = [.put (Traffic.event m)] := if_pos hm
      simp [ha,run_cons,Mailbox.step]
    · show _ = (d.queue.push ((Traffic.event m).take slotsz)).toList
      rw [List.take_of_length_le hlen,Ring.toList_push,Mailbox.put,hb,Ring.length_toList]
      split <;> rfl
    · rw [List.append_nil,Mailbox.put]
      split <;> rfl

/-- An event received by `transport_wait_event` is handed out. -/
theorem Delivers.direct {m : Message} {rest : List Message} (hw : d.chip.wire = m :: rest)
    (hq : d.queue.toList = []) :
    Delivers d [.inWait m] [Traffic.event m] (d.setWire rest) := by
  constructor
  · exact ⟨[],by simp [hw,Traffic.received,Dev.setWire]⟩
  · intro b hb
    refine ⟨{ b with handed := b.handed ++ [Traffic.event m] },?_,hb,rfl⟩
    simp [Traffic.acts,run_cons,Mailbox.step,hb,hq]

/-- A pending event is handed out. -/
theorem Delivers.popped {x : List UInt8} {queue : Ring eventQueueMax (List UInt8)}
    (h : d.queue.pop = some (x,queue)) :
    Delivers d [.pending] [x] { d with queue := queue } := by
  constructor
  · exact ⟨[],by simp [Traffic.received]⟩
  · intro b hb
    rw [Ring.pop_eq_some h] at hb
    refine ⟨{ b with queued := queue.toList, handed := b.handed ++ [x] },?_,rfl,rfl⟩
    simp [Traffic.acts,run_cons,Mailbox.step,hb]

/-- The same mail. -/
theorem Delivers.congr (h : Delivers d ts out e) (hw : f.chip.wire = e.chip.wire)
    (hq : f.queue = e.queue) : Delivers d ts out f := by
  refine ⟨?_,?_⟩
  · rw [hw]
    exact h.wire
  · rw [hq]
    exact h.mailbox

theorem Dev.Mail.congr (h : e.Mail) (hw : f.chip.wire = e.chip.wire) (hq : f.queue = e.queue) :
    f.Mail := ⟨by rw [hw]; exact h.wire,by rw [hq]; exact h.queue⟩

theorem Dev.Mail.queuePush {x : List UInt8} {slotsz : ℕ} (h : d.Mail)
    (hx : 0 < x.length ∧ x.length ≤ 257) (hs : 257 ≤ slotsz) : (Fm.queuePush slotsz x d).Mail := by
  refine ⟨h.wire,fun y hy => ?_⟩
  replace hy : y ∈ (d.queue.push (x.take slotsz)).toList := hy
  rcases Ring.mem_push hy with hy | rfl
  · exact h.queue y hy
  · rw [List.take_of_length_le (by omega)]
    exact hx

/-- What the loop of a command receives. -/
theorem commandLoop_delivers (bus : Bus) (opcode : UInt16) (respsz tries : ℕ) (h : d.Mail) :
    ∃ ts, Delivers d ts [] (commandLoop bus.port opcode respsz tries d).1 ∧
      (commandLoop bus.port opcode respsz tries d).1.Mail ∧ ∀ t ∈ ts, ∃ m, t = .inVsc m := by
  induction tries generalizing d with
  | zero => exact ⟨[],.refl d,h,by simp⟩
  | succ n ih =>
    have hsz : 257 ≤ bus.port.evtsz := by cases bus <;> decide
    have hslot : 257 ≤ bus.port.slotsz := by cases bus <;> decide
    obtain ⟨e,hp,he,hr | ⟨m,rest,hw,hm,hrest,hr⟩⟩ := h.recv bus hsz
    · simp only [commandLoop,hr]
      exact ⟨[],.of_polls hp,he,by simp⟩
    -- the message is received, and the loop goes on from the handle `f`
    have hgoes : ∀ f, Delivers e [.inVsc m] [] f → f.Mail →
        ∃ ts, Delivers d ts [] (commandLoop bus.port opcode respsz n f).1 ∧
          (commandLoop bus.port opcode respsz n f).1.Mail ∧ ∀ t ∈ ts, ∃ m, t = .inVsc m := by
      intro f hf hmail
      obtain ⟨ts,hts,hend,hof⟩ := ih hmail
      refine ⟨.inVsc m :: ts,((Delivers.of_polls hp).trans hf).trans hts,hend,?_⟩
      simpa using hof
    have hskip := hgoes (e.setWire rest)
    simp only [commandLoop,hr]
    split
    · case _ hc =>
      have hne : (Traffic.event m).headD 0 ≠ evtVendor := by
        rw [hc.1]
        decide
      split
      · exact hskip (.ignored hw hne) hrest
      · refine ⟨[.inVsc m],?_,hrest.congr rfl rfl,by simp⟩
        exact ((Delivers.of_polls hp).trans (.ignored hw hne)).congr rfl rfl
    · split
      · case _ hv =>
        exact hgoes _ (.queued hw hv (hm.length.2.trans hslot)) (hrest.queuePush hm.length hslot)
      · case _ hv => exact hskip (.ignored hw hv) hrest

theorem vsc_delivers (bus : Bus) (cmd : List UInt8) (respsz : ℕ) (h : d.Mail) :
    ∃ ts, Delivers d ts [] (bus.transport.vsc cmd respsz d).1 ∧
      (bus.transport.vsc cmd respsz d).1.Mail ∧ Traffic.Of (.vsc cmd respsz) ts := by
  obtain ⟨e,hp,hs | hs⟩ := vsc_cases bus cmd respsz d
  · rw [hs]
    exact ⟨[],.of_polls hp,h.polls hp,by simp [Traffic.Of]⟩
  · rw [hs]
    have he := h.polls hp
    obtain ⟨ts,hts,hend,hof⟩ := commandLoop_delivers bus fmVscOpcode respsz 16
      (he.congr (f:=e.sent fmVscOpcode cmd) rfl rfl)
    exact ⟨ts,((Delivers.of_polls hp).congr (f:=e.sent fmVscOpcode cmd) rfl rfl).trans hts,hend,hof⟩

theorem waitEvent_delivers (bus : Bus) {evtsz : ℕ} (hsz : 257 ≤ evtsz) (h : d.Mail) :
    ∃ ts, Delivers d ts (bus.transport.waitEvent evtsz d).2.toList
        (bus.transport.waitEvent evtsz d).1 ∧
      (bus.transport.waitEvent evtsz d).1.Mail ∧ Traffic.Of (.waitEvent evtsz) ts := by
  simp only [Bus.transport,waitEvent]
  cases hq : d.queue.pop with
  | none =>
    simp only
    obtain ⟨e,hp,he,hr | ⟨m,rest,hw,hm,hrest,hr⟩⟩ := h.recv bus hsz
    · rw [hr]
      exact ⟨[],.of_polls hp,he,.inl rfl⟩
    · rw [hr]
      have hnil : e.queue.toList = [] := by
        rw [hp.queue]
        exact Ring.pop_eq_none.mp hq
      exact ⟨[.inWait m],(Delivers.of_polls hp).trans (.direct hw hnil),hrest,.inr (.inr ⟨m,rfl⟩)⟩
  | some eq =>
    obtain ⟨x,queue⟩ := eq
    have hmem : ∀ y ∈ x :: queue.toList, 0 < y.length ∧ y.length ≤ 257 := by
      rw [← Ring.pop_eq_some hq]
      exact h.queue
    have hx := hmem x List.mem_cons_self
    simp only
    rw [List.take_of_length_le (by omega),if_pos hx.1]
    exact ⟨[.pending],.popped hq,⟨h.wire,fun y hy => hmem y (List.mem_cons_of_mem x hy)⟩,
      .inr (.inl rfl)⟩

/-! ## Runs -/

theorem run_delivers (bus : Bus) {calls : List TransportCall} (hsz : ∀ c ∈ calls, c.Fits)
    (h : d.Mail) (hr : run (transportStep bus) (d,out) calls = some (e,out')) :
    ∃ tss l, List.Forall₂ Traffic.Of calls tss ∧ Delivers d tss.flatten l e ∧ out' = out ++ l := by
  induction calls generalizing d out with
  | nil =>
    obtain ⟨rfl,rfl⟩ := Prod.mk.inj (Option.some.inj hr)
    exact ⟨[],[],.nil,.refl d,(List.append_nil _).symm⟩
  | cons c calls ih =>
    obtain ⟨⟨f,mid⟩,hf,hrest⟩ := run_cons_eq_some.mp hr
    have hone : ∃ ts l, Delivers d ts l f ∧ f.Mail ∧ Traffic.Of c ts ∧ mid = out ++ l := by
      cases c with
      | vsc cmd respsz =>
        obtain ⟨rfl,rfl⟩ := Prod.mk.inj (Option.some.inj hf)
        obtain ⟨ts,hts,hm,hof⟩ := vsc_delivers bus cmd respsz h
        exact ⟨ts,[],hts,hm,hof,(List.append_nil _).symm⟩
      | waitEvent evtsz =>
        obtain ⟨rfl,rfl⟩ := Prod.mk.inj (Option.some.inj hf)
        obtain ⟨ts,hts,hm,hof⟩ := waitEvent_delivers bus (hsz _ List.mem_cons_self) h
        exact ⟨ts,_,hts,hm,hof,rfl⟩
    obtain ⟨ts,l,hts,hm,hof,rfl⟩ := hone
    obtain ⟨tss,l',hall,hdel,rfl⟩ := ih (fun b hb => hsz b (List.mem_cons_of_mem c hb)) hm hrest
    exact ⟨ts :: tss,l ++ l',.cons hof hall,hts.trans hdel,List.append_assoc _ _ _⟩

/-- What the driver hands out are the vendor events it has received in commands
and the events it has received while waiting for one, in the order of their
arrival; missing are those in the queue and those that a full queue has forgotten. -/
theorem events_handed (bus : Bus) {d₀ : Dev} {calls : List TransportCall}
    (hw : ∀ m ∈ d₀.chip.wire, m.IsEvent) (hq : d₀.queue.toList = [])
    (hsz : ∀ c ∈ calls, c.Fits) (hr : run (transportStep bus) (d₀,[]) calls = some (d,out)) :
    ∃ (tss : List (List Traffic)) (sent : List Message) (b : Mailbox (List UInt8)),
      let acts := tss.flatten.flatMap Traffic.acts
      List.Forall₂ Traffic.Of calls tss ∧
      d₀.chip.wire ++ sent = tss.flatten.filterMap Traffic.received ++ d.chip.wire ∧
      run (Mailbox.step eventQueueMax) {} acts = some b ∧
      b.handed = out ∧ b.queued = d.queue.toList ∧ b.queued.length ≤ 8 ∧
      (out ++ b.queued).Sublist (Mailbox.arrivals acts) ∧
      (out ++ b.queued ++ b.lost).Perm (Mailbox.arrivals acts) ∧
      (Mailbox.passed acts).Sublist out := by
  have hmail : d₀.Mail := ⟨hw,by simp [hq]⟩
  obtain ⟨tss,l,hall,hdel,rfl⟩ := run_delivers bus hsz hmail hr
  obtain ⟨sent,hs⟩ := hdel.wire
  obtain ⟨b,hb,hqueued,hhanded⟩ := hdel.mailbox {} hq.symm
  obtain ⟨l',hl',hpass⟩ := Mailbox.run_handed hb
  have hsub := Mailbox.run_sublist hb
  have hperm := Mailbox.run_perm hb
  have hlen := Mailbox.run_length (by decide) (Nat.zero_le _) hb
  simp only [List.nil_append] at hhanded hl' hsub hperm ⊢
  rw [hhanded] at hsub hperm hl'
  rw [hl']
  exact ⟨tss,sent,b,hall,hs,hb,hhanded.trans hl',hqueued,hlen,hl' ▸ hsub,hl' ▸ hperm,hpass⟩

/-- An event comes before the answer to a command, and a second one after it. -/
def busyDev : Dev :=
  (Dev.opened [⟨[],true⟩,⟨[],true⟩,⟨[.answer 0 [] false,.emit evtVendor [fmVseSubcode,2]],true⟩,
    ⟨[],true⟩]).setWire [⟨eventMessage evtVendor [fmVseSubcode,1],none⟩]

theorem events_handed_busyDev :
    ∃ (tss : List (List Traffic)) (b : Mailbox (List UInt8)),
      run (Mailbox.step eventQueueMax) {} (tss.flatten.flatMap Traffic.acts) = some b ∧
      b.handed = [[evtVendor,2,fmVseSubcode,1],[evtVendor,2,fmVseSubcode,2]] ∧ b.queued = [] := by
  have hrun : (run (transportStep .uart) (busyDev,[]) [.vsc [fmRegWr,0] 8,.waitEvent 300,
      .waitEvent 300]).map (fun x => (x.1.queue.toList,x.2)) =
        some ([],[[evtVendor,2,fmVseSubcode,1],[evtVendor,2,fmVseSubcode,2]]) := by decide +kernel
  obtain ⟨⟨d,out⟩,hr,he⟩ := Option.map_eq_some_iff.mp hrun
  obtain ⟨hqueue,rfl⟩ := Prod.mk.inj he
  obtain ⟨tss,sent,b,-,-,hb,hhanded,hqueued,-⟩ := events_handed .uart
    (fun m hm => by
      obtain rfl := List.mem_singleton.mp hm
      exact Message.isEvent_mk none (by decide))
    rfl (by simp [TransportCall.Fits]) hr
  exact ⟨tss,b,hb,hhanded,hqueued.trans hqueue⟩

end Fm
end Kitakami

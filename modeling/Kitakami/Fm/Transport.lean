import Kitakami.Base.Calls
import Kitakami.Base.Ring

/-!
# The transports of the FM driver

The FM chip answers the commands it is owed in order, finishes tunes and emits
other events, at any time. A script gives what it does before each system call
of the driver, and whether that call succeeds: what is on the wire may still be
in transit when a `poll` times out. `fm_hci.c` reads whole messages from a
socket; `fm_uart.c` reads packets from a tty, whose bytes follow the first one
within the time that `read_exact` allows for them.
-/

namespace Kitakami
namespace Fm

def opEvent : UInt8 := 0x04
def evtCmdComplete : UInt8 := 0x0e
def evtVendor : UInt8 := 0xff
def maxMessage : ℕ := 260
def eventQueueMax : ℕ := 8

def fmVscOpcode : UInt16 := 0xfc15
def fmVseSubcode : UInt8 := 0x08

def fmRegRd : UInt8 := 0x01
def fmRegWr : UInt8 := 0x00
def fmRegSchTune : UInt8 := 0x09
def fmRegFmRdsFlag : UInt8 := 0x12

def fmMaskTuneCmpl : UInt16 := 0x0001
def fmMaskTuneFail : UInt16 := 0x0002

/-- A command the chip has received; its serial number tells it from the others. -/
structure Command where
  serial : ℕ
  opcode : UInt16
  bytes : List UInt8
  deriving DecidableEq

/-- A message to the driver, with the serial number of the command it answers. -/
structure Message where
  bytes : List UInt8
  source : Option ℕ
  deriving DecidableEq

/-- The chip, with the messages it has sent that are not received yet. -/
structure Chip where
  serial : ℕ := 0
  owed : List Command := []
  wire : List Message := []
  flags : UInt16 := 0
  tuning : Bool := false
  deriving DecidableEq

inductive ChipAct
  | answer (status : UInt8) (data : List UInt8) (clear : Bool)
  | finish (flags : UInt16)
  | emit (code : UInt8) (params : List UInt8)
  deriving DecidableEq

/-- The opcode of a Command Complete event. -/
def opcodeOf (evt : List UInt8) : UInt16 :=
  (evt.getD 3 0).toUInt16 ||| ((evt.getD 4 0).toUInt16 <<< 8)

/-- What `transport_vsc` takes for the answer to a command. -/
def isComplete (opcode : UInt16) (evt : List UInt8) : Bool :=
  evt.headD 0 = evtCmdComplete ∧ 5 ≤ evt.length ∧ opcodeOf evt = opcode

/-- What `fm_wait_tune` takes for the event of a tune. -/
def isFmEvent (evt : List UInt8) : Bool :=
  2 < evt.length ∧ evt.headD 0 = evtVendor ∧ evt.getD 2 0 = fmVseSubcode

def eventMessage (code : UInt8) (params : List UInt8) : List UInt8 :=
  opEvent :: code :: UInt8.ofNat params.length :: params

/-- The command starts a tune or a seek. -/
def Command.startsTune (c : Command) : Bool :=
  c.bytes.getD 0 0 = fmRegSchTune ∧ c.bytes.getD 1 0 = fmRegWr ∧ c.bytes.getD 2 0 ≠ 0

/-- The command reads the flag word. -/
def Command.readsFlags (c : Command) : Bool :=
  c.bytes.getD 0 0 = fmRegFmRdsFlag ∧ c.bytes.getD 1 0 = fmRegRd

/-- The content of a register: the flag word is what the chip has latched, the
others are not modelled. -/
def Chip.registerData (chip : Chip) (c : Command) (data : List UInt8) : List UInt8 :=
  if c.readsFlags then [chip.flags.toUInt8,(chip.flags >>> 8).toUInt8] else data

/-- The parameters of the Command Complete for a command: the opcode, the status,
the register and direction it was asked for, and the data. -/
def completeParams (c : Command) (status : UInt8) (data : List UInt8) : List UInt8 :=
  [1,c.opcode.toUInt8,(c.opcode >>> 8).toUInt8,status,c.bytes.getD 0 0,c.bytes.getD 1 0] ++ data

/-- The chip answers the oldest command it is owed. A tune starts when its
command is answered; the flag word may be cleared by that and by being read. -/
def Chip.answer (chip : Chip) (status : UInt8) (data : List UInt8) (clear : Bool) : Chip :=
  match chip.owed with
  | [] => chip
  | c :: rest =>
    { chip with
      owed := rest
      wire := chip.wire ++ [⟨eventMessage evtCmdComplete
        (completeParams c status (chip.registerData c (data.take 249))),some c.serial⟩]
      tuning := chip.tuning || (c.startsTune && status == 0)
      flags := if clear && (c.startsTune || c.readsFlags) then 0 else chip.flags }

/-- A tune under way ends: its outcome is latched and the FM event is sent. -/
def Chip.finish (chip : Chip) (flags : UInt16) : Chip :=
  if chip.tuning && flags &&& (fmMaskTuneCmpl ||| fmMaskTuneFail) != 0 then
    { chip with
      tuning := false
      flags := chip.flags ||| flags
      wire := chip.wire ++ [⟨eventMessage evtVendor [fmVseSubcode],none⟩] }
  else chip

/-- Any other event; it is no answer to an FM command. -/
def Chip.emit (chip : Chip) (code : UInt8) (params : List UInt8) : Chip :=
  if params.length ≤ 255 ∧ isComplete fmVscOpcode ((eventMessage code params).drop 1) = false then
    { chip with wire := chip.wire ++ [⟨eventMessage code params,none⟩] }
  else chip

def Chip.act (chip : Chip) : ChipAct → Chip
  | .answer status data clear => chip.answer status data clear
  | .finish flags => chip.finish flags
  | .emit code params => chip.emit code params

/-- What happens before one system call of the driver, and whether it succeeds. -/
structure Turn where
  acts : List ChipAct
  ok : Bool

def Turn.run (t : Turn) (chip : Chip) : Chip := t.acts.foldl Chip.act chip

/-- The driver's handle (`struct fm_hci` or `struct fm_uart`) with its
environment. `matched` records the command whose answer the last successful
command took. -/
structure Dev where
  chip : Chip := {}
  script : List Turn
  queue : Ring eventQueueMax (List UInt8) := .empty (by decide) []
  matched : Option ℕ := none

/-- The handle as it is opened, with an environment that follows the script. -/
def Dev.opened (script : List Turn) : Dev := { script := script }

def Dev.poll (d : Dev) : Dev × Bool :=
  match d.script with
  | [] => (d,false)
  | t :: rest => ({ d with chip := t.run d.chip, script := rest },t.ok)

/-- Send a command to the chip. -/
def sendMessage (opcode : UInt16) (cmd : List UInt8) (d : Dev) : Dev × Bool :=
  match d.poll with
  | (d,false) => (d,false)
  | (d,true) =>
    ({ d with chip := { d.chip with
        serial := d.chip.serial + 1
        owed := d.chip.owed ++ [⟨d.chip.serial,opcode,cmd⟩] } },true)

/-- Wait for the next message on the wire and take it. -/
def receive : Call Dev Message := fun d =>
  match d.poll with
  | (d,false) => (d,none)
  | (d,true) =>
    match d.chip.wire with
    | [] => (d,none)
    | m :: rest => ({ d with chip := { d.chip with wire := rest } },some m)

/-- The loop of `recv_event` in `fm_hci.c`, over messages cut to `MAX_MESSAGE`. -/
def recvEventLoop (evtsz : ℕ) : ℕ → Call Dev Message
  | 0, d => (d,none)
  | k+1, d =>
    match receive d with
    | (d,none) => (d,none)
    | (d,some m) =>
      let msg := m.bytes.take maxMessage
      if msg.length < 2 then (d,none)
      else if msg.headD 0 ≠ opEvent then recvEventLoop evtsz k d
      else (d,some { m with bytes := (msg.drop 1).take evtsz })

def recvEvent (evtsz : ℕ) : Call Dev Message := fun d =>
  recvEventLoop evtsz (d.script.length + 1) d

/-- The loop of `hci_recv` in `fm_uart.c`, over packets. -/
def hciRecvLoop (evtsz : ℕ) : ℕ → Call Dev Message
  | 0, d => (d,none)
  | k+1, d =>
    match receive d with
    | (d,none) => (d,none)
    | (d,some m) =>
      if m.bytes.headD 0 ≠ opEvent then hciRecvLoop evtsz k d
      else if (m.bytes.getD 2 0).toNat > evtsz - 2 then (d,none)
      else (d,some { m with bytes := (m.bytes.drop 1).take ((m.bytes.getD 2 0).toNat + 2) })

def hciRecv (evtsz : ℕ) : Call Dev Message := fun d =>
  hciRecvLoop evtsz (d.script.length + 1) d

/-- What the two transports differ in: how an event is received, the size of the
buffer for it, and the size of a slot of the pending queue. -/
structure Port where
  recv : ℕ → Call Dev Message
  evtsz : ℕ
  slotsz : ℕ

def queuePush (slotsz : ℕ) (evt : List UInt8) (d : Dev) : Dev :=
  { d with queue := d.queue.push (evt.take slotsz) }

/-- The loop of `transport_vsc` and `hci_command`: it looks for a Command
Complete with its opcode and puts vendor events aside. -/
def commandLoop (p : Port) (opcode : UInt16) (respsz : ℕ) : ℕ → Call Dev (List UInt8)
  | 0, d => (d,none)
  | k+1, d =>
    match p.recv p.evtsz d with
    | (d,none) => (d,none)
    | (d,some m) =>
      if m.bytes.headD 0 = evtCmdComplete ∧ 5 ≤ m.bytes.length then
        if opcodeOf m.bytes ≠ opcode then commandLoop p opcode respsz k d
        else ({ d with matched := m.source },some ((m.bytes.drop 5).take respsz))
      else if m.bytes.headD 0 = evtVendor then
        commandLoop p opcode respsz k (queuePush p.slotsz m.bytes d)
      else commandLoop p opcode respsz k d

def command (p : Port) (opcode : UInt16) (cmd : List UInt8) (respsz : ℕ) :
    Call Dev (List UInt8) := fun d =>
  match sendMessage opcode cmd d with
  | (d,false) => (d,none)
  | (d,true) => commandLoop p opcode respsz 16 d

/-- `transport_wait_event`: a pending event first, then the wire. -/
def waitEvent (p : Port) (evtsz : ℕ) : Call Dev (List UInt8) := fun d =>
  let received (d : Dev) : Dev × Option (List UInt8) :=
    ((p.recv evtsz d).1,(p.recv evtsz d).2.map Message.bytes)
  match d.queue.pop with
  | none => received d
  | some (e,queue) =>
    let d := { d with queue := queue }
    if 0 < (e.take evtsz).length then (d,some (e.take evtsz)) else received d

def hciPort : Port := ⟨recvEvent,maxMessage,maxMessage⟩
def uartPort : Port := ⟨hciRecv,300,300⟩

/-- `struct fm_transport`. -/
structure FmTransport where
  vsc : List UInt8 → ℕ → Call Dev (List UInt8)
  waitEvent : ℕ → Call Dev (List UInt8)

inductive Bus
  | hci | uart
  deriving DecidableEq

def Bus.port : Bus → Port
  | .hci => hciPort
  | .uart => uartPort

/-- `fm_hci_transport` and `fm_uart_transport`. -/
def Bus.transport (bus : Bus) : FmTransport where
  vsc := command bus.port fmVscOpcode
  waitEvent := Fm.waitEvent bus.port

end Fm
end Kitakami

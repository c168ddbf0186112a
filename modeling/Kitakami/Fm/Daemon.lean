import Kitakami.Base.Runs
import Kitakami.Fm.Commands
import Kitakami.Fm.Proto

/-!
# The state of fmd

`fmd.c` keeps the open transport, whether the tuner is powered, and the tuned
frequency. The transports are arbitrary functions: whatever they return, at
most one is open, the registers are only used through it, and it is closed
before another is opened. The frequency comes from a client or, after a seek,
from the chip.
-/

namespace Kitakami
namespace Fm

open Runs

/-- The address of a `struct fm_hci` or a `struct fm_uart`. -/
abbrev Handle := ℕ

def bandLowKhz : UInt32 := 87500
def bandHighKhz : UInt32 := 108000
def defaultKhz : UInt32 := 100000

def validFreq (khz : UInt32) : Bool := bandLowKhz ≤ khz && khz ≤ bandHighKhz

/-- What happens to the transports; `used` is the transport that a register function is given. -/
inductive TransportEvent
  | opened (h : Handle)
  | closed (h : Handle)
  | used (h : Option Handle)
  deriving DecidableEq

/-- `struct fmd_state`, with what is behind the transports and what has been done with them. -/
structure Daemon where
  hci : Option Handle := none
  uart : Option Handle := none
  tp : Option Handle := none
  freqKhz : UInt32 := defaultKhz
  powered : Bool := false
  rdsOn : ℤ := 0
  dev : Dev
  log : List TransportEvent := []
  replies : List Str := []

/-- What `fm_transport_open` finds: whether the socket of the Bluetooth HAL exists, what the two
`open` functions return, and the name of the chip. -/
structure TransportEnv where
  btHal : Bool
  hci : Option Handle
  uart : Option Handle
  chipName : Str

namespace Daemon

def reply (w : Daemon) (text : Str) : Daemon := { w with replies := w.replies ++ [text] }

/-- A register function on `fmd.tp`. -/
def call {α : Type} (transport : Handle → FmTransport) (f : FmTransport → Call Dev α) :
    Call Daemon α := fun w =>
  match w.tp with
  | some h =>
    ({ w with dev := (f (transport h) w.dev).1, log := w.log ++ [.used (some h)] },
      (f (transport h) w.dev).2)
  | none => ({ w with log := w.log ++ [.used none] },none)

def fmTransportClose (w : Daemon) : Daemon :=
  { w with
    log := w.log ++ w.hci.toList.map .closed ++ w.uart.toList.map .closed
    hci := none
    uart := none
    tp := none }

def fmTransportOpen (env : TransportEnv) : Call Daemon Unit := fun w =>
  if env.btHal then
    match env.hci with
    | none => ({ w with hci := none },none)
    | some h => ({ w with hci := some h, tp := some h, log := w.log ++ [.opened h] },some ())
  else
    match env.uart with
    | none => ({ w with uart := none },none)
    | some h => ({ w with uart := some h, tp := some h, log := w.log ++ [.opened h] },some ())

variable (transport : Handle → FmTransport)

/-- The register operations of `fm_power_up`. -/
def setUp : Call Daemon Unit := do
  call transport fun t => fmEnable t true
  call transport fmSetBandEurope
  call transport fun t => fmSetAudio t true false false

def fmPowerUp (env : TransportEnv) : Call Daemon Unit := fun w =>
  if w.powered then (w,some ())
  else
    match fmTransportOpen env w with
    | (w,none) => (w,none)
    | (w,some ()) =>
      match setUp transport w with
      | (w,some ()) => ({ w with powered := true, rdsOn := 1 },some ())
      | (w,none) => (w.fmTransportClose,none)

def fmPowerDown (w : Daemon) : Daemon :=
  if w.powered then
    { (call transport fmDisable w).1.fmTransportClose with powered := false }
  else w

/-! ## `handle_command` -/

/-- A command that calls one register function and replies with what it makes of the result. -/
def ask {α : Type} (f : FmTransport → Call Dev α) (text : Option α → Str) (w : Daemon) : Daemon :=
  (call transport f w).1.reply (text (call transport f w).2)

/-- The reply to a command that has nothing to tell. -/
def okOrErr (r : Option Unit) : Str := if r.isSome then str "ok" else str "err"

/-- The reply with a number. -/
def okNumber (r : Option ℤ) : Str := r.elim (str "err") fun n => str s!"ok {n}"

/-- Four hexadecimal digits. -/
def okFlags (r : Option UInt16) : Str :=
  r.elim (str "err") fun flags =>
    str ("ok 0x" ++ String.ofList ((Nat.toDigits 16 flags.toNat).leftpad 4 '0'))

/-- A frequency that a client has sent. -/
def khzOf (arg : Str) : UInt32 := (strtoul arg).toUInt32

def tune (arg1 : Option Str) (w : Daemon) : Daemon :=
  let khz := arg1.elim defaultKhz khzOf
  if validFreq khz then
    match call transport (fun t => fmTune t khz) w with
    | (w,none) => w.reply (str "err tune-failed")
    | (w,some _) => { w with freqKhz := khz }.reply (str s!"ok {khz}")
  else w.reply (str "err bad-freq")

def seekStart (arg2 : Option Str) (w : Daemon) : UInt32 :=
  let start := arg2.elim w.freqKhz khzOf
  if validFreq start then start else defaultKhz

def seekUp (arg1 : Option Str) : Bool := arg1.elim true fun dir => dir = str "up"

def seek (arg1 arg2 : Option Str) (w : Daemon) : Daemon :=
  match call transport (fun t => fmSeek t (w.seekStart arg2) (seekUp arg1)) w with
  | (w,none) => w.reply (str "err seek-failed")
  | (w,some (_,found)) => { w with freqKhz := found }.reply (str s!"ok {found}")

def smtune (arg1 : Option Str) (w : Daemon) : Daemon :=
  let khz := arg1.elim 0 khzOf
  if validFreq khz then
    match call transport (fun t => fmTune t khz) w with
    | (w,none) => w.reply (str "err tune-failed")
    | (w,some _) =>
      match call transport fmGetRssi { w with freqKhz := khz } with
      | (w,none) => w.reply (str "err")
      | (w,some rssi) =>
        let snr := (call transport fmGetSnr w).2.getD 0
        (call transport fmGetSnr w).1.reply (str s!"ok {khz} {rssi} {snr}")
  else w.reply (str "err bad-freq")

def rds (arg1 : Option Str) (w : Daemon) : Daemon :=
  let on := arg1.elim 1 atoi
  match call transport (fun t => fmEnableRds t (on ≠ 0)) w with
  | (w,none) => w.reply (str "err")
  | (w,some ()) => { w with rdsOn := on }.reply (str "ok")

/-- The commands for a powered tuner. -/
def tunerCommand (cmd : Str) (arg1 arg2 : Option Str) (w : Daemon) : Daemon :=
  if cmd = str "tune" then w.tune transport arg1
  else if cmd = str "seek" then w.seek transport arg1 arg2
  else if cmd = str "smtune" then w.smtune transport arg1
  else if cmd = str "freq" then
    w.ask transport fmGetFrequency fun r => okNumber (r.map fun khz => (khz.toNat : ℤ))
  else if cmd = str "rssi" then w.ask transport fmGetRssi okNumber
  else if cmd = str "snr" then w.ask transport fmGetSnr okNumber
  else if cmd = str "mute" then
    w.ask transport (fun t => fmSetMute t (arg1.elim 1 atoi ≠ 0)) okOrErr
  else if cmd = str "volume" then
    let vol := max 0 (min (arg1.elim 128 atoi) 255)
    w.ask transport (fun t => fmSetVolume t (UInt8.ofNat vol.toNat)) okOrErr
  else if cmd = str "rds" then w.rds transport arg1
  else if cmd = str "audio" then
    let i2s := arg1.elim true fun out => out = str "i2s" || out = str "both"
    let dac := arg1.elim false fun out => out = str "dac" || out = str "both"
    w.ask transport (fun t => fmSetAudio t i2s dac false) okOrErr
  else if cmd = str "flags" then w.ask transport fmReadFlags okFlags
  else if cmd = str "status" then w.reply (str s!"ok on {w.freqKhz} rds {w.rdsOn}")
  else w.reply (str "err unknown-command")

/-- What the calls of `strtok` split off. -/
def tokens (line : Str) : List Str := (line.splitOnP isBlank).filter (· ≠ [])

def handleCommand (chipName : Handle → Str) (env : TransportEnv) (line : Str) (w : Daemon) : Daemon :=
  match tokens line with
  | [] => w
  | cmd :: args =>
    if cmd = str "open" then
      match fmPowerUp transport env w with
      | (w,none) => w.reply (str "err power-up failed")
      | (w,some ()) =>
        w.reply (str "ok " ++ w.uart.elim (str "bluetooth-hal") fun h => (chipName h).take 63)
    else if cmd = str "close" then (w.fmPowerDown transport).reply (str "ok")
    else if w.powered then w.tunerCommand transport cmd args[0]? args[1]?
    else w.reply (str "err not-open")

end Daemon

/-- A command of a client, or the end of its connection. -/
inductive DaemonAction
  | command (env : TransportEnv) (line : Str)
  | disconnect

def daemonStep (transport : Handle → FmTransport) (chipName : Handle → Str) (w : Daemon) :
    DaemonAction → Option Daemon
  | .command env line => some (w.handleCommand transport chipName env line)
  | .disconnect => some (w.fmPowerDown transport)

/-! ## Consistency -/

/-- The transport that is open after an event. -/
def TransportEvent.next : Option Handle → TransportEvent → Option (Option Handle)
  | none, .opened h => some (some h)
  | some h, .closed h' => if h = h' then some none else none
  | some h, .used h' => if some h = h' then some (some h) else none
  | _, _ => none

namespace Daemon

/-- The transport is open exactly if the tuner is powered, and every one has been used while it
was open only and has been closed once before the next. -/
structure Sound (w : Daemon) : Prop where
  powered : w.powered = true → ∃ h, w.tp = some h ∧
    (w.hci = some h ∧ w.uart = none ∨ w.hci = none ∧ w.uart = some h)
  off : w.powered = false → w.hci = none ∧ w.uart = none ∧ w.tp = none
  log : run TransportEvent.next none w.log = some w.tp

structure Consistent (w : Daemon) : Prop extends w.Sound where
  freq : validFreq w.freqKhz = true

variable {transport : Handle → FmTransport} {w w' : Daemon} {h : Handle} {α : Type}

/-- The state has changed in what the transport does not concern. -/
structure Stays (w w' : Daemon) : Prop where
  hci : w'.hci = w.hci
  uart : w'.uart = w.uart
  tp : w'.tp = w.tp
  powered : w'.powered = w.powered
  log : ∃ n, w'.log = w.log ++ List.replicate n (.used w.tp)

theorem Stays.refl (w : Daemon) : Stays w w := ⟨rfl,rfl,rfl,rfl,0,(List.append_nil _).symm⟩

theorem Stays.trans {w'' : Daemon} (h : Stays w w') (h' : Stays w' w'') : Stays w w'' := by
  obtain ⟨n,hn⟩ := h.log
  obtain ⟨m,hm⟩ := h'.log
  refine ⟨h'.hci.trans h.hci,h'.uart.trans h.uart,h'.tp.trans h.tp,h'.powered.trans h.powered,n+m,?_⟩
  rw [hm,hn,h.tp,List.append_assoc,List.replicate_append_replicate]

theorem Stays.reply (h : Stays w w') (text : Str) : Stays w (w'.reply text) :=
  ⟨h.hci,h.uart,h.tp,h.powered,h.log⟩

theorem stays_call (transport : Handle → FmTransport) (f : FmTransport → Call Dev α) (w : Daemon) :
    Stays w (call transport f w).1 := by
  unfold call
  split
  case _ h htp => exact ⟨rfl,rfl,rfl,rfl,1,by simp [htp]⟩
  case _ htp => exact ⟨rfl,rfl,rfl,rfl,1,by simp [htp]⟩

theorem call_freqKhz (transport : Handle → FmTransport) (f : FmTransport → Call Dev α) (w : Daemon) :
    (call transport f w).1.freqKhz = w.freqKhz := by
  unfold call
  split <;> rfl

theorem Stays.setFreq (h : Stays w w') (khz : UInt32) : Stays w { w' with freqKhz := khz } :=
  ⟨h.hci,h.uart,h.tp,h.powered,h.log⟩

theorem Stays.setRds (h : Stays w w') (on : ℤ) : Stays w { w' with rdsOn := on } :=
  ⟨h.hci,h.uart,h.tp,h.powered,h.log⟩

theorem stays_tune (arg1 : Option Str) (w : Daemon) : Stays w (w.tune transport arg1) := by
  unfold tune
  dsimp only
  split
  · have hc := stays_call transport (fun t => fmTune t (arg1.elim defaultKhz khzOf)) w
    split
    case _ w' he =>
      rw [he] at hc
      exact hc.reply _
    case _ w' flags he =>
      rw [he] at hc
      exact (hc.setFreq _).reply _
  · exact (Stays.refl w).reply _

theorem stays_seek (arg1 arg2 : Option Str) (w : Daemon) :
    Stays w (w.seek transport arg1 arg2) := by
  unfold seek
  have hc := stays_call transport (fun t => fmSeek t (w.seekStart arg2) (seekUp arg1)) w
  split
  case _ w' he =>
    rw [he] at hc
    exact hc.reply _
  case _ w' flags found he =>
    rw [he] at hc
    exact (hc.setFreq _).reply _

theorem stays_smtune (arg1 : Option Str) (w : Daemon) : Stays w (w.smtune transport arg1) := by
  unfold smtune
  dsimp only
  split
  · have hc := stays_call transport (fun t => fmTune t (arg1.elim 0 khzOf)) w
    split
    case _ w' he =>
      rw [he] at hc
      exact hc.reply _
    case _ w' flags he =>
      rw [he] at hc
      have hr := (hc.setFreq (arg1.elim 0 khzOf)).trans (stays_call transport fmGetRssi _)
      split
      case _ w'' he' =>
        rw [he'] at hr
        exact hr.reply _
      case _ w'' rssi he' =>
        rw [he'] at hr
        exact (hr.trans (stays_call transport fmGetSnr _)).reply _
  · exact (Stays.refl w).reply _

theorem stays_rds (arg1 : Option Str) (w : Daemon) : Stays w (w.rds transport arg1) := by
  unfold rds
  dsimp only
  have hc := stays_call transport (fun t => fmEnableRds t (arg1.elim 1 atoi ≠ 0)) w
  split
  case _ w' he =>
    rw [he] at hc
    exact hc.reply _
  case _ w' he =>
    rw [he] at hc
    exact (hc.setRds _).reply _

theorem stays_ask (f : FmTransport → Call Dev α) (text : Option α → Str) (w : Daemon) :
    Stays w (w.ask transport f text) := (stays_call transport f w).reply _

/-- What `P` must hold of for it to hold after any command. -/
theorem tunerCommand_rule {P : Daemon → Prop} {cmd : Str} {arg1 arg2 : Option Str} {w : Daemon}
    (htune : P (w.tune transport arg1))
    (hseek : cmd = str "seek" → P (w.seek transport arg1 arg2))
    (hsmtune : P (w.smtune transport arg1)) (hrds : P (w.rds transport arg1))
    (hask : ∀ (β : Type) (f : FmTransport → Call Dev β) text, P (w.ask transport f text))
    (hreply : ∀ text, P (w.reply text)) : P (w.tunerCommand transport cmd arg1 arg2) := by
  unfold tunerCommand
  refine iteInduction (fun _ => htune) fun _ => ?_
  refine iteInduction hseek fun _ => ?_
  refine iteInduction (fun _ => hsmtune) fun _ => ?_
  refine iteInduction (fun _ => hask _ _ _) fun _ => ?_
  refine iteInduction (fun _ => hask _ _ _) fun _ => ?_
  refine iteInduction (fun _ => hask _ _ _) fun _ => ?_
  refine iteInduction (fun _ => hask _ _ _) fun _ => ?_
  refine iteInduction (fun _ => hask _ _ _) fun _ => ?_
  refine iteInduction (fun _ => hrds) fun _ => ?_
  refine iteInduction (fun _ => hask _ _ _) fun _ => ?_
  refine iteInduction (fun _ => hask _ _ _) fun _ => ?_
  exact iteInduction (fun _ => hreply _) fun _ => hreply _

theorem stays_tunerCommand (transport : Handle → FmTransport) (cmd : Str) (arg1 arg2 : Option Str) (w : Daemon) :
    Stays w (w.tunerCommand transport cmd arg1 arg2) :=
  tunerCommand_rule (stays_tune _ _) (fun _ => stays_seek _ _ _) (stays_smtune _ _) (stays_rds _ _)
    (fun _ _ _ => stays_ask _ _ _) fun _ => (Stays.refl w).reply _

/-- One transport is open and has been used properly. -/
structure Up (w : Daemon) (h : Handle) : Prop where
  one : w.hci = some h ∧ w.uart = none ∨ w.hci = none ∧ w.uart = some h
  tp : w.tp = some h
  log : run TransportEvent.next none w.log = some (some h)

theorem run_used (h : Handle) (n : ℕ) :
    run TransportEvent.next (some h) (List.replicate n (.used (some h))) = some (some h) := by
  induction n with
  | zero => rfl
  | succ n ih =>
    rw [List.replicate_succ,run_cons]
    simpa [TransportEvent.next] using ih

theorem Up.stays (hw : Up w h) (hs : Stays w w') : Up w' h := by
  obtain ⟨n,hn⟩ := hs.log
  refine ⟨by rw [hs.hci,hs.uart]; exact hw.one,hs.tp.trans hw.tp,?_⟩
  rw [hn,run_append,hw.log,hw.tp]
  exact run_used h n

theorem Up.close (hw : Up w h) :
    run TransportEvent.next none w.fmTransportClose.log = some none := by
  have hlog : w.fmTransportClose.log = w.log ++ [.closed h] := by
    rcases hw.one with ⟨hh,hu⟩ | ⟨hh,hu⟩ <;> simp [fmTransportClose,hh,hu]
  rw [hlog,run_append,hw.log]
  simp [run_cons,TransportEvent.next]

theorem Sound.up (hw : Sound w) (hp : w.powered = true) : ∃ h, Up w h := by
  obtain ⟨h,htp,hone⟩ := hw.powered hp
  exact ⟨h,hone,htp,htp ▸ hw.log⟩

theorem Up.sound (hw : Up w h) (hp : w.powered = true) : Sound w :=
  ⟨fun _ => ⟨h,hw.tp,hw.one⟩,fun hoff => absurd hp (by simp [hoff]),hw.tp ▸ hw.log⟩

theorem Sound.stays (hw : Sound w) (hp : w.powered = true) (hs : Stays w w') : Sound w' := by
  obtain ⟨h,hup⟩ := hw.up hp
  exact (hup.stays hs).sound (hs.powered.trans hp)

theorem Sound.reply (hw : Sound w) (text : Str) : Sound (w.reply text) :=
  ⟨hw.powered,hw.off,hw.log⟩

theorem Up.off (hw : Up w h) (hp : w.powered = false) : Sound w.fmTransportClose :=
  ⟨fun hon => absurd hon (by simp [fmTransportClose,hp]),fun _ => ⟨rfl,rfl,rfl⟩,hw.close⟩

theorem Sound.powerDown (hw : Sound w) : Sound (w.fmPowerDown transport) := by
  unfold fmPowerDown
  split
  case _ hp =>
    obtain ⟨h,hup⟩ := hw.up hp
    have hclose := (hup.stays (stays_call transport fmDisable w)).close
    exact { powered := by intro hon; cases hon
            off := fun _ => ⟨rfl,rfl,rfl⟩
            log := hclose }
  case _ => exact hw

theorem fmTransportOpen_off (env : TransportEnv) (hw : Sound w) (hp : w.powered = false) :
    Call.Ends (fun _ w' => (∃ h, Up w' h) ∧ w'.powered = false ∧ w'.freqKhz = w.freqKhz) (· = w)
      (fmTransportOpen env w) := by
  obtain ⟨hhci,huart,htp⟩ := hw.off hp
  have hlog : ∀ h, run TransportEvent.next none (w.log ++ [.opened h]) = some (some h) := by
    intro h
    rw [run_append,hw.log,htp]
    rfl
  unfold fmTransportOpen
  split
  · split
    · exact congrArg (fun hci => { w with hci := hci }) hhci.symm
    case _ h _ => exact ⟨⟨h,Or.inl ⟨rfl,huart⟩,rfl,hlog h⟩,hp,rfl⟩
  · split
    · exact congrArg (fun uart => { w with uart := uart }) huart.symm
    case _ h _ => exact ⟨⟨h,Or.inr ⟨hhci,rfl⟩,rfl,hlog h⟩,hp,rfl⟩

theorem keeps_call (w : Daemon) (f : FmTransport → Call Dev α) :
    Call.Keeps (fun w' => Stays w w' ∧ w'.freqKhz = w.freqKhz) (call transport f) := by
  intro w' ⟨hs,hf⟩
  have h : Stays w (call transport f w').1 ∧ (call transport f w').1.freqKhz = w.freqKhz :=
    ⟨hs.trans (stays_call transport f w'),(call_freqKhz transport f w').trans hf⟩
  rcases hc : call transport f w' with ⟨t,_ | a⟩ <;> rw [hc] at h <;> exact h

theorem keeps_setUp (transport : Handle → FmTransport) (w : Daemon) :
    Call.Keeps (fun w' => Stays w w' ∧ w'.freqKhz = w.freqKhz) (setUp transport) :=
  (keeps_call w _).bind fun _ => (keeps_call w _).bind fun _ => keeps_call w _

/-- An `open` that fails has closed what it had opened. -/
theorem Sound.powerUp (transport : Handle → FmTransport) (env : TransportEnv) (hw : Sound w) :
    Sound (fmPowerUp transport env w).1 ∧ (fmPowerUp transport env w).1.freqKhz = w.freqKhz := by
  unfold fmPowerUp
  split
  · exact ⟨hw,rfl⟩
  case _ hp =>
    rw [Bool.not_eq_true] at hp
    have ho := fmTransportOpen_off env hw hp
    split
    case _ w' he =>
      rw [he] at ho
      obtain rfl : w' = w := ho
      exact ⟨hw,rfl⟩
    case _ w' he =>
      rw [he] at ho
      obtain ⟨⟨h,hup⟩,hp',hfreq⟩ := ho
      have hset := (keeps_setUp transport w').state ⟨Stays.refl w',rfl⟩
      split
      case _ w'' he' =>
        rw [he'] at hset
        have hlog := (hup.stays hset.1).log
        refine ⟨Up.sound (h:=h) ⟨?_,?_,hlog⟩ rfl,hset.2.trans hfreq⟩
        · exact (hup.stays hset.1).one
        · exact (hup.stays hset.1).tp
      case _ w'' he' =>
        rw [he'] at hset
        exact ⟨(hup.stays hset.1).off (hset.1.powered.trans hp'),hset.2.trans hfreq⟩

theorem sound_initial (d : Dev) : Sound { dev := d } where
  powered := by intro hon; cases hon
  off := fun _ => ⟨rfl,rfl,rfl⟩
  log := rfl

theorem Sound.handleCommand (chipName : Handle → Str) (env : TransportEnv) (line : Str)
    (hw : Sound w) : Sound (w.handleCommand transport chipName env line) := by
  unfold Daemon.handleCommand
  split
  · exact hw
  refine iteInduction (fun _ => ?_) fun _ =>
    iteInduction (fun _ => hw.powerDown.reply _) fun _ => iteInduction (fun hon => ?_) fun _ => hw.reply _
  · have hup := (hw.powerUp transport env).1
    split
    case _ he =>
      rw [he] at hup
      exact hup.reply _
    case _ he =>
      rw [he] at hup
      exact hup.reply _
  · exact hw.stays hon (stays_tunerCommand transport _ _ _ w)

/-- Whatever the transports answer and the clients send, each transport is used while it is open
and closed before the next is opened. -/
theorem sound_reachable {chipName : Handle → Str} {d : Dev}
    (h : Reachable (daemonStep transport chipName) { dev := d } w) : Sound w := by
  refine h.invariant (sound_initial d) fun s a t hs ht => ?_
  cases a with
  | disconnect =>
    obtain rfl := Option.some.inj ht
    exact hs.powerDown
  | command env line =>
    obtain rfl := Option.some.inj ht
    exact hs.handleCommand chipName env line

/-! ## The frequency -/

theorem freq_tune (arg1 : Option Str) (hw : validFreq w.freqKhz = true) :
    validFreq (w.tune transport arg1).freqKhz = true := by
  unfold tune
  dsimp only
  split
  case _ hkhz =>
    have hc := call_freqKhz transport (fun t => fmTune t (arg1.elim defaultKhz khzOf)) w
    split
    case _ w' he =>
      rw [he] at hc
      exact (congrArg validFreq hc).trans hw
    case _ => exact hkhz
  case _ => exact hw

theorem freq_smtune (arg1 : Option Str) (hw : validFreq w.freqKhz = true) :
    validFreq (w.smtune transport arg1).freqKhz = true := by
  unfold smtune
  dsimp only
  split
  case _ hkhz =>
    have hc := call_freqKhz transport (fun t => fmTune t (arg1.elim 0 khzOf)) w
    split
    case _ w' he =>
      rw [he] at hc
      exact (congrArg validFreq hc).trans hw
    case _ w' flags he =>
      have hr := call_freqKhz transport fmGetRssi { w' with freqKhz := arg1.elim 0 khzOf }
      split
      case _ w'' he' =>
        rw [he'] at hr
        exact (congrArg validFreq hr).trans hkhz
      case _ w'' rssi he' =>
        rw [he'] at hr
        exact (congrArg validFreq ((call_freqKhz transport fmGetSnr w'').trans hr)).trans hkhz
  case _ => exact hw

theorem freq_rds (arg1 : Option Str) (w : Daemon) :
    (w.rds transport arg1).freqKhz = w.freqKhz := by
  unfold rds
  dsimp only
  have hc := call_freqKhz transport (fun t => fmEnableRds t (arg1.elim 1 atoi ≠ 0)) w
  split
  case _ w' he =>
    rw [he] at hc
    exact hc
  case _ w' he =>
    rw [he] at hc
    exact hc

end Daemon

/-- `fm_seek` up to its read of the frequency. -/
def fmSeekTuned (t : FmTransport) (startKhz : UInt32) (up : Bool) : Call Dev UInt16 := do
  fmRegWrite8 t fmRegSearchMeth fmScanMethodNormal
  fmRegWrite8 t fmRegPresetMax 0
  fmRegWrite8 t fmRegSchCtl0
    (fmDefaultRssiThresh ||| ((if up then fmScanUp else 0) &&& fmScanDirectMask))
  fmRegWrite16 t fmRegFmFreq (fmKhzToReg startKhz)
  fmRegWrite16 t fmRegFmRdsMsk (fmMaskTuneCmpl ||| fmMaskTuneFail)
  fmRegWrite8 t fmRegSchTune fmTuneModeSeek
  let flags ← fmWaitTune t
  if flags &&& fmMaskTuneFail ≠ 0 then Call.fail else pure flags

theorem fmSeek_eq (t : FmTransport) (startKhz : UInt32) (up : Bool) :
    fmSeek t startKhz up = (do
      let flags ← fmSeekTuned t startKhz up
      let foundKhz ← fmGetFrequency t
      pure (flags,foundKhz)) := by
  have hite : ∀ (flags : UInt16) (g : UInt16 → Call Dev (UInt16 × UInt32)),
      ((if flags &&& fmMaskTuneFail ≠ 0 then Call.fail else pure flags) >>= g) =
        if flags &&& fmMaskTuneFail ≠ 0 then Call.fail else g flags := by
    intro flags g
    split <;> rfl
  simp only [fmSeek,fmSeekTuned,Call.bind_assoc,hite]

/-- The answer to a read of the frequency register, and what it says. -/
theorem fmGetFrequency_eq_some (t : FmTransport) (d : Dev) (khz : UInt32) :
    (fmGetFrequency t d).2 = some khz ↔
      ∃ resp, (t.vsc [fmRegFmFreq,fmRegRd,2] 128 d).2 = some resp ∧ 5 ≤ resp.length ∧
        resp.headD 0 = 0 ∧ khz = fmRegToKhz (word (resp.drop 3)) := by
  have hword : ∀ resp : List UInt8, word ((resp.drop 3).take 2) = word (resp.drop 3) := by
    intro resp
    rcases resp.drop 3 with _ | ⟨a,_ | ⟨b,rest⟩⟩ <;> rfl
  unfold fmGetFrequency fmRegRead
  rw [Call.bind_assoc,Call.bind_eq_some]
  constructor
  · rintro ⟨d',resp,hr,h⟩
    refine ⟨resp,congrArg Prod.snd hr,?_⟩
    split at h
    · cases h
    case _ hresp =>
      replace h : ((if ((resp.drop 3).take 2).length < 2 then Call.fail
        else pure (fmRegToKhz (word ((resp.drop 3).take 2))) : Call Dev UInt32) d').2 = some khz := h
      split at h
      · cases h
      case _ hlen =>
        rw [not_or,not_not] at hresp
        rw [List.length_take,List.length_drop] at hlen
        exact ⟨by omega,hresp.2,(Option.some.inj h).symm.trans (congrArg fmRegToKhz (hword resp))⟩
  · rintro ⟨resp,hr,hlen,hhead,rfl⟩
    refine ⟨(t.vsc [fmRegFmFreq,fmRegRd,2] 128 d).1,resp,Prod.ext rfl hr,?_⟩
    have htake : ¬ ((resp.drop 3).take 2).length < 2 := by
      rw [List.length_take,List.length_drop]
      omega
    rw [if_neg (not_or.mpr ⟨by omega,not_not.mpr hhead⟩)]
    show ((if ((resp.drop 3).take 2).length < 2 then Call.fail
      else pure (fmRegToKhz (word ((resp.drop 3).take 2))) : Call Dev UInt32) _).2 = _
    rw [if_neg htake,hword]
    rfl

theorem validFreq_fmRegToKhz (reg : UInt16) :
    validFreq (fmRegToKhz reg) = true ↔ 23500 ≤ reg ∧ reg ≤ 44000 := by
  have hreg : (fmRegToKhz reg).toNat = reg.toNat + 64000 := by
    have h := reg.toNat_lt
    simp only [fmRegToKhz,UInt32.toNat_add,UInt16.toNat_toUInt32,UInt32.reduceToNat]
    omega
  simp only [validFreq,bandLowKhz,bandHighKhz,Bool.and_eq_true,decide_eq_true_eq,UInt32.le_iff_toNat_le,
    UInt16.le_iff_toNat_le,hreg,UInt32.reduceToNat,UInt16.reduceToNat]
  omega

/-- If the seek ends at a station, the chip says that it is in the band. -/
def FoundInBand (t : FmTransport) (startKhz : UInt32) (up : Bool) (d : Dev) : Prop :=
  ∀ d' flags resp, fmSeekTuned t startKhz up d = (d',some flags) →
    (t.vsc [fmRegFmFreq,fmRegRd,2] 128 d').2 = some resp → 5 ≤ resp.length → resp.headD 0 = 0 →
      23500 ≤ word (resp.drop 3) ∧ word (resp.drop 3) ≤ 44000

theorem foundInBand_iff (t : FmTransport) (startKhz : UInt32) (up : Bool) (d : Dev) :
    FoundInBand t startKhz up d ↔
      ∀ flags found, (fmSeek t startKhz up d).2 = some (flags,found) → validFreq found = true := by
  rw [fmSeek_eq]
  constructor
  · intro h flags found hseek
    obtain ⟨d',flags',htuned,hrest⟩ := Call.bind_eq_some.mp hseek
    obtain ⟨d'',khz,hkhz,heq⟩ := Call.bind_eq_some.mp hrest
    obtain ⟨resp,hresp,hlen,hhead,rfl⟩ :=
      (fmGetFrequency_eq_some t d' khz).mp (congrArg Prod.snd hkhz)
    obtain ⟨-,rfl⟩ := Prod.mk.inj (Option.some.inj heq)
    exact (validFreq_fmRegToKhz _).mpr (h d' flags' resp htuned hresp hlen hhead)
  · intro h d' flags resp htuned hresp hlen hhead
    have hkhz := (fmGetFrequency_eq_some t d' _).mpr ⟨resp,hresp,hlen,hhead,rfl⟩
    refine (validFreq_fmRegToKhz _).mp (h flags _ ?_)
    exact Call.bind_eq_some.mpr ⟨d',flags,htuned,Call.bind_eq_some.mpr ⟨_,_,Prod.ext rfl hkhz,rfl⟩⟩

namespace Daemon

variable {transport : Handle → FmTransport} {w : Daemon} {h : Handle}

theorem freq_seek (arg1 arg2 : Option Str) (htp : w.tp = some h) (hw : validFreq w.freqKhz = true) :
    validFreq (w.seek transport arg1 arg2).freqKhz = true ↔
      FoundInBand (transport h) (w.seekStart arg2) (seekUp arg1) w.dev := by
  have hcall : (call transport (fun t => fmSeek t (w.seekStart arg2) (seekUp arg1)) w).2 =
      (fmSeek (transport h) (w.seekStart arg2) (seekUp arg1) w.dev).2 := by
    unfold call
    rw [htp]
  have hc := call_freqKhz transport (fun t => fmSeek t (w.seekStart arg2) (seekUp arg1)) w
  rw [foundInBand_iff,← hcall]
  unfold seek
  split
  case _ w' he =>
    rw [he] at hc ⊢
    exact ⟨fun _ _ _ hnone => (nomatch hnone),fun _ => (congrArg validFreq hc).trans hw⟩
  case _ w' flags found he =>
    rw [he]
    refine ⟨fun hfound flags' found' heq => ?_,fun h => h flags found rfl⟩
    obtain ⟨-,rfl⟩ := Prod.mk.inj (Option.some.inj heq)
    exact hfound

end Daemon

/-- What the daemon cannot see to itself: that a seek ends inside the band. -/
def SeekInBand (transport : Handle → FmTransport) (w : Daemon) : DaemonAction → Prop
  | .command _ line => ∀ cmd args, Daemon.tokens line = cmd :: args → cmd = str "seek" →
      w.powered = true → ∀ h, w.tp = some h →
        FoundInBand (transport h) (w.seekStart args[1]?) (Daemon.seekUp args[0]?) w.dev
  | .disconnect => True

namespace Daemon

variable {transport : Handle → FmTransport} {w : Daemon} {h : Handle}

theorem freq_tunerCommand {cmd : Str} {arg1 arg2 : Option Str} (htp : w.tp = some h)
    (hw : validFreq w.freqKhz = true) :
    validFreq (w.tunerCommand transport cmd arg1 arg2).freqKhz = true ↔
      (cmd = str "seek" → FoundInBand (transport h) (w.seekStart arg2) (seekUp arg1) w.dev) := by
  constructor
  · rintro hfreq rfl
    have htune : ¬ str "seek" = str "tune" := by decide
    rw [tunerCommand,if_neg htune,if_pos rfl] at hfreq
    exact (freq_seek arg1 arg2 htp hw).mp hfreq
  · intro hband
    refine tunerCommand_rule (P:=fun w => validFreq w.freqKhz = true) (freq_tune arg1 hw)
      (fun hseek => (freq_seek arg1 arg2 htp hw).mpr (hband hseek)) (freq_smtune arg1 hw) ?_ ?_ ?_
    · rwa [freq_rds]
    · intro β f text
      show validFreq (call transport f w).1.freqKhz = true
      rwa [call_freqKhz]
    · exact fun text => hw

theorem freq_powerDown (w : Daemon) : (w.fmPowerDown transport).freqKhz = w.freqKhz := by
  unfold fmPowerDown
  split
  · exact call_freqKhz transport fmDisable w
  · rfl

theorem freq_handleCommand {chipName : Handle → Str} {env : TransportEnv} {line : Str}
    (hw : Consistent w) :
    validFreq (w.handleCommand transport chipName env line).freqKhz = true ↔
      SeekInBand transport w (.command env line) := by
  have hcmd : ∀ {cmd args}, tokens line = cmd :: args → (cmd = str "seek" → w.powered = false) →
      SeekInBand transport w (.command env line) := by
    intro cmd args ht hoff cmd' args' ht' hseek hon
    obtain ⟨rfl,-⟩ := List.cons.inj (ht'.symm.trans ht)
    exact absurd hon (by simp [hoff hseek])
  unfold handleCommand
  split
  case _ ht => exact iff_of_true hw.freq fun cmd args ht' => nomatch ht.symm.trans ht'
  case _ cmd args ht =>
    split
    case _ hopen =>
      have hnot : cmd = str "seek" → w.powered = false := by
        rintro rfl
        exact absurd hopen (by decide)
      refine iff_of_true ?_ (hcmd ht hnot)
      have hup := (hw.toSound.powerUp transport env).2
      split
      case _ he =>
        rw [he] at hup
        exact (congrArg validFreq hup).trans hw.freq
      case _ he =>
        rw [he] at hup
        exact (congrArg validFreq hup).trans hw.freq
    split
    case _ hclose =>
      have hnot : cmd = str "seek" → w.powered = false := by
        rintro rfl
        exact absurd hclose (by decide)
      exact iff_of_true ((congrArg validFreq (freq_powerDown w)).trans hw.freq) (hcmd ht hnot)
    split
    case _ hon =>
      obtain ⟨h,hup⟩ := hw.toSound.up hon
      rw [freq_tunerCommand hup.tp hw.freq]
      constructor
      · intro hband cmd' args' ht' hseek _ h' htp'
        obtain ⟨rfl,rfl⟩ := List.cons.inj (ht.symm.trans ht')
        obtain rfl := Option.some.inj (hup.tp.symm.trans htp')
        exact hband hseek
      · exact fun hband hseek => hband cmd args ht hseek hon h hup.tp
    case _ hoff => exact iff_of_true hw.freq (hcmd ht fun _ => Bool.eq_false_iff.mpr hoff)

/-- A step of the daemon keeps its state consistent, except for what a seek may find. -/
theorem Consistent.step_iff {chipName : Handle → Str} (hw : Consistent w) (a : DaemonAction) :
    (∀ w', daemonStep transport chipName w a = some w' → Consistent w') ↔
      SeekInBand transport w a := by
  cases a with
  | disconnect =>
    refine iff_of_true (fun w' he => ?_) trivial
    obtain rfl := Option.some.inj he
    exact ⟨hw.toSound.powerDown,(congrArg validFreq (freq_powerDown w)).trans hw.freq⟩
  | command env line =>
    rw [← freq_handleCommand hw]
    constructor
    · exact fun h => (h _ rfl).freq
    · intro hfreq w' he
      obtain rfl := Option.some.inj he
      exact ⟨hw.toSound.handleCommand chipName env line,hfreq⟩

theorem consistent_initial (d : Dev) : Consistent { dev := d } :=
  ⟨sound_initial d,show validFreq defaultKhz = true by decide⟩

/-- The state of fmd is consistent after every command and disconnection of a run exactly if, in
that run, the frequency register that the chip reports after a seek is in the band. -/
theorem consistent_along_iff (transport : Handle → FmTransport) (chipName : Handle → Str) (d : Dev)
    (as : List DaemonAction) :
    Along (daemonStep transport chipName)
        (fun w a => ∀ w', daemonStep transport chipName w a = some w' → Consistent w')
        { dev := d } as ↔
      Along (daemonStep transport chipName) (SeekInBand transport) { dev := d } as :=
  along_next_iff (fun _ a hw => hw.step_iff a) (consistent_initial d)

/-- A chip that does what it is told, and whose seek ends at 76 MHz. -/
def lowChip : FmTransport where
  vsc cmd _ d := (d,some (if cmd.headD 0 = fmRegFmFreq then [0,0,0,0xe0,0x2e] else [0,0,0,1,0]))
  waitEvent _ d := (d,some [evtVendor,1,fmVseSubcode])

def overUart : TransportEnv := ⟨false,none,some 7,str "BCM4343"⟩

/-- `open` and `seek up`. -/
def openSeek : List DaemonAction := [.command overUart (str "open"),.command overUart (str "seek up")]

theorem not_consistent_openSeek :
    ∃ w, run (daemonStep (fun _ => lowChip) fun _ => []) { dev := .opened [] } openSeek = some w ∧
      w.freqKhz = 76000 ∧ ¬ Consistent w := by
  have hrun : (run (daemonStep (fun _ => lowChip) fun _ => []) { dev := .opened [] }
      openSeek).map freqKhz = some 76000 := by decide +kernel
  obtain ⟨w,hw,hfreq⟩ := Option.map_eq_some_iff.mp hrun
  refine ⟨w,hw,hfreq,fun h => ?_⟩
  have hvalid := h.freq
  rw [hfreq] at hvalid
  exact absurd hvalid (by decide)

end Daemon
end Fm
end Kitakami

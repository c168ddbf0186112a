import Kitakami.Base.Runs
import Kitakami.Fm.Channel

/-!
# Whose answer a register read gets

All FM commands share one opcode and a read does not look at the register its
answer echoes, so it takes the front of the queue of answers. That is its own
answer exactly when nothing is in flight when it starts.
-/

namespace Kitakami
namespace Fm

open Runs Call

/-- The rule for waiting for an event, which is a pending one or the next message. -/
theorem waitEvent_rule {bus : Bus} {evtsz : ℕ} (hsz : 257 ≤ evtsz) (J : Dev → Prop)
    (R : List UInt8 → Dev → Prop) (tidy : ∀ d, J d → d.chip.Tidy)
    (polls : ∀ d e, J d → d.Polls e → J e)
    (pop : ∀ d e queue, J d → d.queue.pop = some (e,queue) →
      J { d with queue := queue } ∧ R (e.take evtsz) { d with queue := queue })
    (got : ∀ d m rest, J d → d.chip.wire = m :: rest → R (m.bytes.drop 1) (d.setWire rest)) :
    Triple J (bus.transport.waitEvent evtsz) R J := by
  have received : ∀ d, J d → Ends R J
      ((bus.port.recv evtsz d).1,(bus.port.recv evtsz d).2.map Message.bytes) := by
    intro d hd
    obtain ⟨e,hpoll,hr | ⟨m,rest,hw,hr⟩⟩ := recv_cases bus hsz (tidy d hd)
    · simpa only [hr,Option.map_none,ends_none] using polls d e hd hpoll
    · simp only [hr,Option.map_some,ends_some]
      exact got e m rest (polls d e hd hpoll) hw
  intro d hd
  simp only [Bus.transport,waitEvent]
  cases hp : d.queue.pop with
  | none => exact received d hd
  | some eq =>
    obtain ⟨hj,hr⟩ := pop d eq.1 eq.2 hd hp
    simp only
    split
    · exact hr
    · exact received _ hj

variable {ok : ChipAct → Prop}

theorem orderly_vsc (bus : Bus) (cmd : List UInt8) (respsz : ℕ) :
    Keeps (Dev.Orderly ok) (bus.transport.vsc cmd respsz) := fun d hd =>
  (vsc_inFlight bus ok cmd respsz d.chip.serial d.chip.inFlight d ⟨hd,rfl,rfl⟩).imp
    (fun _ _ h => h.1) fun _ h => h

theorem orderly_waitEvent (bus : Bus) : Keeps (Dev.Orderly ok) (bus.transport.waitEvent 300) :=
  waitEvent_rule (by decide) (Dev.Orderly ok) (fun _ => Dev.Orderly ok) (fun _ h => h.tidy)
    (fun _ _ h hp => hp.orderly h) (fun _ _ _ h _ => ⟨⟨h.tidy,h.only⟩,h.tidy,h.only⟩)
    fun _ _ _ h hw => h.setWire hw

theorem orderly_fmRegWrite (bus : Bus) (reg : UInt8) (val : List UInt8) :
    Keeps (Dev.Orderly ok) (fmRegWrite bus.transport reg val) :=
  Keeps.guard ((orderly_vsc bus _ _).bind fun _ => Keeps.guard (Keeps.pure _))

theorem orderly_fmRegRead (bus : Bus) (reg len : UInt8) (outsz : ℕ) :
    Keeps (Dev.Orderly ok) (fmRegRead bus.transport reg len outsz) :=
  (orderly_vsc bus _ _).bind fun _ => Keeps.guard (Keeps.pure _)

theorem orderly_fmReadFlags (bus : Bus) : Keeps (Dev.Orderly ok) (fmReadFlags bus.transport) :=
  (orderly_fmRegRead bus _ _ _).bind fun _ => Keeps.guard (Keeps.pure _)

theorem orderly_fmGetFrequency (bus : Bus) :
    Keeps (Dev.Orderly ok) (fmGetFrequency bus.transport) :=
  (orderly_fmRegRead bus _ _ _).bind fun _ => Keeps.guard (Keeps.pure _)

theorem orderly_fmWaitTuneLoop (bus : Bus) (n : ℕ) :
    Keeps (Dev.Orderly ok) (fmWaitTuneLoop bus.transport n) := by
  induction n with
  | zero => exact Keeps.fail
  | succ n ih =>
    refine (orderly_waitEvent bus).bind fun evt => ?_
    split
    · exact Keeps.pure _
    · exact ih

theorem orderly_fmWaitTune (bus : Bus) : Keeps (Dev.Orderly ok) (fmWaitTune bus.transport) :=
  Keeps.bind (fun d hd => orderly_fmWaitTuneLoop bus _ d hd) fun _ => orderly_fmReadFlags bus

theorem orderly_fmTune (bus : Bus) (khz : UInt32) :
    Keeps (Dev.Orderly ok) (fmTune bus.transport khz) :=
  (orderly_fmRegWrite bus _ _).bind fun _ => (orderly_fmRegWrite bus _ _).bind fun _ =>
    (orderly_fmRegWrite bus _ _).bind fun _ => (orderly_fmWaitTune bus).bind fun _ =>
      Keeps.guard (Keeps.pure _)

theorem orderly_fmSeek (bus : Bus) (startKhz : UInt32) (up : Bool) :
    Keeps (Dev.Orderly ok) (fmSeek bus.transport startKhz up) :=
  (orderly_fmRegWrite bus _ _).bind fun _ => (orderly_fmRegWrite bus _ _).bind fun _ =>
    (orderly_fmRegWrite bus _ _).bind fun _ => (orderly_fmRegWrite bus _ _).bind fun _ =>
      (orderly_fmRegWrite bus _ _).bind fun _ => (orderly_fmRegWrite bus _ _).bind fun _ =>
        (orderly_fmWaitTune bus).bind fun _ =>
          Keeps.guard ((orderly_fmGetFrequency bus).bind fun _ => Keeps.pure _)

/-! ## Runs of the driver -/

def step (bus : Bus) (d : Dev) (c : DriverCall) : Option Dev := some (c.exec bus.transport d)

theorem orderly_exec (bus : Bus) {d : Dev} (h : d.Orderly ok) (c : DriverCall) :
    (c.exec bus.transport d).Orderly ok := by
  cases c with
  | regRead reg len outsz => exact (orderly_fmRegRead bus reg len outsz).state h
  | regWrite reg val => exact (orderly_fmRegWrite bus reg val).state h
  | tune khz => exact (orderly_fmTune bus khz).state h
  | seek startKhz up => exact (orderly_fmSeek bus startKhz up).state h

theorem orderly_run {bus : Bus} {script : List Turn} (hs : ∀ t ∈ script, ∀ a ∈ t.acts, ok a)
    {calls : List DriverCall} {d : Dev} (h : run (step bus) (Dev.opened script) calls = some d) :
    d.Orderly ok := by
  have hopened : (Dev.opened script).Orderly ok :=
    ⟨⟨by simp [Dev.opened],by simp [Dev.opened],by simp [Dev.opened,Chip.inFlight]⟩,hs⟩
  refine Reachable.invariant hopened (fun d c e hd he => ?_) ⟨calls,h⟩
  obtain rfl : c.exec bus.transport d = e := by simpa [step] using he
  exact orderly_exec bus hd c

/-- A register read takes the front of the queue of answers, its own included. -/
theorem fmRegRead_matched (bus : Bus) (reg len : UInt8) (outsz : ℕ) {d : Dev}
    (h : d.Orderly ok) {bytes : List UInt8}
    (hr : (fmRegRead bus.transport reg len outsz d).2 = some bytes) :
    ∃ j, (fmRegRead bus.transport reg len outsz d).1.matched = some j ∧
      j :: (fmRegRead bus.transport reg len outsz d).1.chip.inFlight =
        d.chip.inFlight ++ [d.chip.serial] := by
  have hread : Triple (fun e => e.Orderly ok ∧ e.chip.inFlight = d.chip.inFlight ∧
      e.chip.serial = d.chip.serial) (fmRegRead bus.transport reg len outsz)
      (fun _ e => ∃ j, e.matched = some j ∧
        j :: e.chip.inFlight = d.chip.inFlight ++ [d.chip.serial]) (fun _ => True) := by
    refine Triple.bind ((vsc_inFlight bus ok _ _ d.chip.serial d.chip.inFlight).conseq
      (fun _ he => he) (fun _ _ he => he.2) fun _ _ => trivial) fun resp => ?_
    exact Triple.guard (fun _ _ _ => trivial) (Triple.pure fun _ he => he.1)
  exact hread.of_some ⟨h,rfl,rfl⟩ hr

/-- **A register read gets its own answer** if and only if no answer is in
flight when it starts, in every run of the driver. -/
theorem ownAnswer_iff (bus : Bus) (script : List Turn) (calls : List DriverCall) (d : Dev)
    (h : run (step bus) (Dev.opened script) calls = some d) (reg len : UInt8) (outsz : ℕ)
    (bytes : List UInt8) (hr : (fmRegRead bus.transport reg len outsz d).2 = some bytes) :
    (fmRegRead bus.transport reg len outsz d).1.matched = some d.chip.serial ↔
      d.chip.inFlight = [] := by
  have hd : d.Orderly fun _ => True := orderly_run (fun _ _ _ _ => trivial) h
  obtain ⟨j,hj,hq⟩ := fmRegRead_matched bus reg len outsz hd hr
  rw [hj,Option.some_inj]
  cases hf : d.chip.inFlight with
  | nil =>
    rw [hf] at hq
    simpa using congrArg List.head? hq
  | cons k rest =>
    rw [hf] at hq
    obtain rfl : j = k := by simpa using congrArg List.head? hq
    have hlt : j < d.chip.serial := hd.tidy.serial j (by simp [hf])
    exact iff_of_false hlt.ne (by simp)

/-- A turn that lets the chip act and the call succeed. -/
def Turn.good (acts : List ChipAct) : Turn := ⟨acts,true⟩

/-- The first read times out; its answer comes during the second read. -/
def lateScript : List Turn :=
  [.good [],⟨[],false⟩,.good [],.good [.answer 0 [0x11] false,.answer 0 [0x22] false]]

/-- A read that is answered after a vendor event. -/
def promptScript : List Turn :=
  [.good [],.good [.emit 0xff [0x55]],.good [.answer 0 [0x11] false]]

theorem ownAnswer_promptScript :
    ∃ d, run (step .hci) (Dev.opened promptScript) [] = some d ∧
      (fmRegRead Bus.hci.transport 0x0f 1 1 d).2 = some [0x11] ∧
      ((fmRegRead Bus.hci.transport 0x0f 1 1 d).1.matched = some d.chip.serial ↔
        d.chip.inFlight = []) :=
  ⟨_,rfl,by decide,
    ownAnswer_iff .hci promptScript [] _ rfl 0x0f 1 1 [0x11] (by decide)⟩

/-- The read of register 0xdf returns the content of register 0x0f. -/
theorem not_ownAnswer_lateScript :
    ∃ d, run (step .hci) (Dev.opened lateScript) [.regRead 0x0f 1 1] = some d ∧
      (fmRegRead Bus.hci.transport 0xdf 1 1 d).2 = some [0x11] ∧
      (fmRegRead Bus.hci.transport 0xdf 1 1 d).1.matched ≠ some d.chip.serial :=
  ⟨_,rfl,by decide,by decide⟩

end Fm
end Kitakami

import Kitakami.Fm.Exchange

/-!
# When a tune is reported complete

`fm_wait_tune` takes any FM event for the end of its tune, and its callers test
only the FAIL bit of the flag word they read then. With a chip that sends the FM
event when a tune ends, success means completion as long as nothing of an
earlier operation is left when the call starts: no answer in flight, no tune
running, and no FM event on the wire or in the pending queue.
-/

namespace Kitakami
namespace Fm

open Runs Call

/-- The tune has completed and has not failed. -/
def Completed (flags : UInt16) : Prop := flags &&& fmMaskTuneCmpl ≠ 0 ∧ flags &&& fmMaskTuneFail = 0

instance (flags : UInt16) : Decidable (Completed flags) :=
  inferInstanceAs (Decidable (_ ∧ _))

theorem Latched.completed {flags : UInt16} (h : Latched flags)
    (hf : flags &&& fmMaskTuneFail = 0) : Completed flags := by
  refine ⟨fun hc => h ?_,hf⟩
  rw [uint16_and_or,hc,hf]
  decide

/-- A register write takes the tuner where its answer takes it. -/
theorem fmRegWrite_rule (bus : Bus) {reg : UInt8} {val : List UInt8} {Pre Post : Phase}
    (hPre : Pre.Stable) (hPost : Post.Stable)
    (ha : Answers (reg :: fmRegWr :: val) Pre Post fun _ => True) :
    Triple (Calm Pre) (fmRegWrite bus.transport reg val) (fun _ => Calm Post) (fun _ => True) := by
  refine Triple.guard (fun _ _ _ => trivial) (Triple.pre (fun _ h => h.1) ?_)
  refine Triple.bind (vsc_rule bus 64 ha hPre hPost) fun resp => ?_
  exact Triple.guard (fun _ _ _ => trivial) (Triple.pure fun _ h => h.1.1)

/-- The answer to a write of another register leaves the tuner alone. -/
theorem answers_write {reg : UInt8} (hreg : reg ≠ fmRegSchTune) (val : List UInt8) (P : Phase) :
    Answers (reg :: fmRegWr :: val) P P fun _ => True := by
  intro cmd hc tuning flags s status data clear hP
  have hstart : cmd.startsTune = false := by simp [Command.startsTune,hc,hreg]
  have hflags : cmd.readsFlags = false := by simp [Command.readsFlags,hc,fmRegWr,fmRegRd]
  simpa [hstart,hflags] using hP

/-- A tune that starts with nothing left of an earlier one can only end with its
outcome latched. -/
theorem answers_schTune (mode : UInt8) :
    Answers [fmRegSchTune,fmRegWr,mode] idle told fun _ => True := by
  intro cmd hc tuning flags s status data clear hP
  exact ⟨fun hs => absurd hs (by simp [hP.2]),trivial⟩

/-- A read of the flag word returns it as it is when it is answered. -/
theorem answers_flags (len : UInt8) :
    Answers [fmRegFmRdsFlag,fmRegRd,len] latched (fun _ _ _ => True)
      fun p => Latched (word (p.drop 3)) := by
  intro cmd hc tuning flags s status data clear hP
  have hflags : cmd.readsFlags = true := by simp [Command.readsFlags,hc]
  refine ⟨trivial,?_⟩
  simp only [hflags,if_true,List.drop_succ_cons,List.drop_zero,word_split]
  exact hP

theorem fmReadFlags_rule (bus : Bus) :
    Triple (Calm latched) (fmReadFlags bus.transport) (fun flags _ => Latched flags)
      (fun _ => True) := by
  have hread : Triple (Calm latched) (fmRegRead bus.transport fmRegFmRdsFlag 2 2)
      (fun buf _ => Latched (word buf)) (fun _ => True) := by
    refine Triple.bind (vsc_rule bus 128 (answers_flags 2) latched_stable anyPhase_stable)
      fun resp => ?_
    refine Triple.guard (fun _ _ _ => trivial) (Triple.pure ?_)
    rintro d ⟨⟨-,p,hp,rfl⟩,-⟩
    rw [List.drop_take,List.take_take,word_take _ (by decide)]
    exact hp
  refine Triple.bind hread fun buf => ?_
  exact Triple.guard (fun _ _ _ => trivial) (Triple.pure fun _ h => h.1)

/-- Waiting for an event with nothing in flight: an FM event is told the truth by. -/
theorem waitEvent_told (bus : Bus) :
    Triple (Calm told) (bus.transport.waitEvent 300)
      (fun evt d => Calm told d ∧ (isFmEvent evt = true → latched.at d)) (Calm told) := by
  refine waitEvent_rule (by decide) (Calm told) _ (fun _ h => h.orderly.tidy)
    (fun _ _ h hp => h.polls told_stable hp) ?_ ?_
  · intro d e queue h hpop
    have hlist := Ring.pop_eq_some hpop
    have hcalm : Calm told { d with queue := queue } := by
      refine ⟨⟨h.orderly.tidy,h.orderly.only⟩,h.inFlight,?_⟩
      refine told_stable.received _ _ _ _ (fun hs => ?_) h.phase
      simp only [stale,hlist,List.any_cons,Bool.or_eq_true] at hs ⊢
      exact hs.imp_right .inr
    refine ⟨hcalm,hcalm,fun hfm => h.phase ?_⟩
    simp [stale,hlist,isFmEvent_of_take hfm]
  · intro d m rest h hw
    have hflight := inFlight_setWire hw
    rw [h.inFlight] at hflight
    refine ⟨⟨h.orderly.setWire hw,(List.append_eq_nil_iff.mp hflight.symm).2,
      told_stable.setWire hw h.phase⟩,fun hfm => h.phase ?_⟩
    simp only [stale,hw,List.any_cons,hfm,Bool.true_or]

theorem fmWaitTuneLoop_rule (bus : Bus) (n : ℕ) :
    Triple (Calm told) (fmWaitTuneLoop bus.transport n) (fun _ => Calm latched)
      (fun _ => True) := by
  induction n with
  | zero => exact Triple.fail fun _ _ => trivial
  | succ n ih =>
    refine Triple.bind ((waitEvent_told bus).conseq (fun _ h => h) (fun _ _ h => h)
      fun _ _ => trivial) fun evt => ?_
    cases hfm : isFmEvent evt with
    | true => exact Triple.pure fun _ h => ⟨h.1.orderly,h.1.inFlight,h.2 rfl⟩
    | false => exact Triple.pre (fun _ h => h.1) ih

/-- The flag word read after the wait holds the outcome of the tune. -/
theorem fmWaitTune_rule (bus : Bus) :
    Triple (Calm told) (fmWaitTune bus.transport) (fun flags _ => Latched flags)
      (fun _ => True) :=
  Triple.bind (fun d hd => fmWaitTuneLoop_rule bus _ d hd) fun _ => fmReadFlags_rule bus

theorem idle_write (bus : Bus) {reg : UInt8} (hreg : reg ≠ fmRegSchTune) (val : List UInt8) :
    Triple (Calm idle) (fmRegWrite bus.transport reg val) (fun _ => Calm idle) (fun _ => True) :=
  fmRegWrite_rule bus idle_stable idle_stable (answers_write hreg val idle)

theorem start_write (bus : Bus) (mode : UInt8) :
    Triple (Calm idle) (fmRegWrite8 bus.transport fmRegSchTune mode) (fun _ => Calm told)
      (fun _ => True) :=
  fmRegWrite_rule bus idle_stable told_stable (answers_schTune mode)

theorem fmTune_rule (bus : Bus) (khz : UInt32) :
    Triple (Calm idle) (fmTune bus.transport khz) (fun flags _ => Completed flags)
      (fun _ => True) := by
  refine Triple.bind (idle_write bus (by decide) _) fun _ => ?_
  refine Triple.bind (idle_write bus (by decide) _) fun _ => ?_
  refine Triple.bind (start_write bus fmTuneModePreset) fun _ => ?_
  refine Triple.bind (fmWaitTune_rule bus) fun flags => ?_
  refine Triple.guard (fun _ _ _ => trivial) (Triple.pure fun _ h => ?_)
  exact h.1.completed (not_not.mp h.2)

theorem fmSeek_rule (bus : Bus) (startKhz : UInt32) (up : Bool) :
    Triple (Calm idle) (fmSeek bus.transport startKhz up) (fun r _ => Completed r.1)
      (fun _ => True) := by
  refine Triple.bind (idle_write bus (by decide) _) fun _ => ?_
  refine Triple.bind (idle_write bus (by decide) _) fun _ => ?_
  refine Triple.bind (idle_write bus (by decide) _) fun _ => ?_
  refine Triple.bind (idle_write bus (by decide) _) fun _ => ?_
  refine Triple.bind (idle_write bus (by decide) _) fun _ => ?_
  refine Triple.bind (start_write bus fmTuneModeSeek) fun _ => ?_
  refine Triple.bind (fmWaitTune_rule bus) fun flags => ?_
  refine Triple.guard (fun _ _ _ => trivial) fun d h => ?_
  have hdone : Completed flags := h.1.completed (not_not.mp h.2)
  have hfreq : Triple (fun _ => True) (fmGetFrequency bus.transport >>= fun foundKhz =>
      (pure (flags,foundKhz) : Call Dev (UInt16 × UInt32))) (fun r _ => Completed r.1)
      (fun _ => True) :=
    Triple.bind (Triple.top _) fun _ => Triple.pure fun _ _ => hdone
  exact hfreq d trivial

/-! ## The loops end -/

theorem receive_script {d e : Dev} {m : Message} (h : receive d = (e,some m)) :
    e.script.length < d.script.length ∧ e.queue = d.queue := by
  cases hs : d.script with
  | nil => simp [receive,Dev.poll,hs] at h
  | cons t rest =>
    simp only [receive,Dev.poll,hs] at h
    split at h
    · simp at h
    · rename_i e' hpoll
      obtain ⟨rfl,-⟩ : { d with chip := t.run d.chip, script := rest } = e' ∧ _ := by
        simpa using hpoll
      split at h
      · simp at h
      · obtain ⟨rfl,-⟩ := Prod.mk.inj h
        exact ⟨Nat.lt_succ_self _,rfl⟩

theorem recvEventLoop_script {evtsz n : ℕ} {d e : Dev} {m : Message}
    (h : recvEventLoop evtsz n d = (e,some m)) :
    e.script.length < d.script.length ∧ e.queue = d.queue := by
  induction n generalizing d with
  | zero => simp [recvEventLoop] at h
  | succ n ih =>
    rcases hr : receive d with ⟨d',_ | m'⟩
    · simp [recvEventLoop,hr] at h
    have hd := receive_script hr
    simp only [recvEventLoop,hr] at h
    split at h
    · simp at h
    · split at h
      · have ht := ih h
        exact ⟨ht.1.trans hd.1,ht.2.trans hd.2⟩
      · obtain ⟨rfl,-⟩ := Prod.mk.inj h
        exact hd

theorem hciRecvLoop_script {evtsz n : ℕ} {d e : Dev} {m : Message}
    (h : hciRecvLoop evtsz n d = (e,some m)) :
    e.script.length < d.script.length ∧ e.queue = d.queue := by
  induction n generalizing d with
  | zero => simp [hciRecvLoop] at h
  | succ n ih =>
    rcases hr : receive d with ⟨d',_ | m'⟩
    · simp [hciRecvLoop,hr] at h
    have hd := receive_script hr
    simp only [hciRecvLoop,hr] at h
    split at h
    · have ht := ih h
      exact ⟨ht.1.trans hd.1,ht.2.trans hd.2⟩
    · split at h
      · simp at h
      · obtain ⟨rfl,-⟩ := Prod.mk.inj h
        exact hd

theorem recv_script {bus : Bus} {evtsz : ℕ} {d e : Dev} {m : Message}
    (h : bus.port.recv evtsz d = (e,some m)) :
    e.script.length < d.script.length ∧ e.queue = d.queue := by
  cases bus with
  | hci => exact recvEventLoop_script h
  | uart => exact hciRecvLoop_script h

/-- What a wait can still take: the pending events and the turns of the script. -/
def Dev.budget (d : Dev) : ℕ := d.queue.count + d.script.length

theorem waitEvent_budget {bus : Bus} {evtsz : ℕ} {d e : Dev} {evt : List UInt8}
    (h : bus.transport.waitEvent evtsz d = (e,some evt)) : e.budget < d.budget := by
  have received : ∀ d', ((bus.port.recv evtsz d').1,
      (bus.port.recv evtsz d').2.map Message.bytes) = (e,some evt) → e.budget < d'.budget := by
    intro d' hd'
    rcases hr : bus.port.recv evtsz d' with ⟨e',_ | m⟩
    · simp [hr] at hd'
    · obtain ⟨rfl,-⟩ : e' = e ∧ _ := by simpa [hr] using hd'
      obtain ⟨hlt,hq⟩ := recv_script hr
      simp only [Dev.budget,hq]
      omega
  simp only [Bus.transport,waitEvent] at h
  cases hp : d.queue.pop with
  | none => exact received d (by simpa only [hp] using h)
  | some eq =>
    have hlen := congrArg List.length (Ring.pop_eq_some hp)
    simp only [Ring.length_toList,List.length_cons] at hlen
    simp only [hp] at h
    split at h
    · obtain ⟨rfl,-⟩ := Prod.mk.inj h
      simp only [Dev.budget]
      omega
    · have hlt := received _ h
      simp only [Dev.budget] at hlt ⊢
      omega

/-- The rounds that `fm_wait_tune` is given are enough: more make no difference. -/
theorem fmWaitTuneLoop_enough (bus : Bus) {n : ℕ} {d : Dev} (h : d.budget < n) :
    fmWaitTuneLoop bus.transport (n + 1) d = fmWaitTuneLoop bus.transport n d := by
  induction n generalizing d with
  | zero => exact absurd h (Nat.not_lt_zero _)
  | succ n ih =>
    rcases hw : bus.transport.waitEvent 300 d with ⟨e,_ | evt⟩
    · exact (bind_none hw).trans (bind_none hw).symm
    · refine (bind_some hw).trans (Eq.trans ?_ (bind_some hw).symm)
      cases isFmEvent evt with
      | true => rfl
      | false => exact ih ((waitEvent_budget hw).trans_le (Nat.lt_succ_iff.mp h))

/-! ## Runs of the driver -/

/-- Nothing of an earlier operation is left: no answer in flight, no tune running,
no FM event on the wire or in the pending queue. -/
def Quiet (d : Dev) : Prop :=
  d.chip.inFlight = [] ∧ d.chip.tuning = false ∧ stale d.chip.wire d.queue = false

instance (d : Dev) : Decidable (Quiet d) := inferInstanceAs (Decidable (_ ∧ _ ∧ _))

/-- **A tune or seek that reports success has completed**, in every run of the
driver over a chip that sends the FM event for the ends of tunes only, if the
call starts with nothing left of an earlier operation. -/
theorem completed_of_quiet (bus : Bus) (script : List Turn)
    (hs : ∀ t ∈ script, ∀ a ∈ t.acts, Honest a) (calls : List DriverCall) (d : Dev)
    (h : run (step bus) (Dev.opened script) calls = some d) (hq : Quiet d) :
    (∀ khz flags, (fmTune bus.transport khz d).2 = some flags → Completed flags) ∧
      ∀ startKhz up r, (fmSeek bus.transport startKhz up d).2 = some r → Completed r.1 := by
  have hcalm : Calm idle d := ⟨orderly_run hs h,hq.1,hq.2.1,hq.2.2⟩
  exact ⟨fun khz flags hr => (fmTune_rule bus khz).of_some hcalm hr,
    fun startKhz up r hr => (fmSeek_rule bus startKhz up).of_some hcalm hr⟩

/-- A tune that completes and is waited for. -/
def tuneScript : List Turn :=
  [.good [],.good [.answer 0 [] false],.good [],.good [.answer 0 [] false],.good [],
    .good [.answer 0 [] true],.good [.finish fmMaskTuneCmpl],.good [],.good [.answer 0 [] true]]

theorem completed_tuneScript :
    (fmTune Bus.hci.transport 100000 (Dev.opened tuneScript)).2 = some fmMaskTuneCmpl ∧
      Completed fmMaskTuneCmpl :=
  ⟨by decide +kernel,(completed_of_quiet .hci tuneScript (by decide) [] _ rfl (by decide)).1
    100000 fmMaskTuneCmpl (by decide +kernel)⟩

/-- A tune is started and not waited for; its FM event comes during the writes
of `fm_tune`. -/
def staleScript : List Turn :=
  [.good [],.good [.answer 0 [] false],.good [.finish fmMaskTuneCmpl],.good [.answer 0 [] false],
    .good [],.good [],.good [.answer 0 [] false],.good [],.good [.answer 0 [] true],.good [],
    .good [.answer 0 [] true]]

/-- The driver between the two calls, with the first tune still running. -/
def staleDev : Dev :=
  { Dev.opened (staleScript.drop 2) with chip := { serial := 1, tuning := true }, matched := some 0 }

/-- `fm_tune` reports success with the flag word 0. -/
theorem not_completed_staleScript :
    (∀ t ∈ staleScript, ∀ a ∈ t.acts, Honest a) ∧
      run (step .hci) (Dev.opened staleScript) [.regWrite fmRegSchTune [fmTuneModePreset]] =
        some staleDev ∧
      (fmTune Bus.hci.transport 101000 staleDev).2 = some 0 ∧ ¬ Completed 0 :=
  ⟨by decide,rfl,by decide +kernel,by decide⟩

end Fm
end Kitakami

import Kitakami.Gps.LocThreadRuns

/-!
# Who deletes the runnable

A thread that finds the flag cleared when it begins never takes its runnable,
and then nobody deletes it. A thread that is through before `create` looks at
the flag makes `start` return false, although it has taken the runnable.
-/

namespace Kitakami
namespace LocThread

open Runs Monitor

/-- `stop` does not clear the flag before the thread has read it. -/
def SparesEntry (s : State) : Action → Prop
  | .client => s.client = .stopCalled → s.spawned ≠ .entry
  | _ => True

instance (s : State) : ∀ a, Decidable (SparesEntry s a)
  | .client => inferInstanceAs (Decidable (s.client = .stopCalled → s.spawned ≠ .entry))
  | .start _ | .create _ | .stop | .bye | .spawned _ => isTrue trivial

/-- The thread has taken the runnable, or will when it begins. -/
def State.Takes (s : State) : Prop :=
  (s.spawned = .entry → s.isRunning = true) ∧ (s.spawned.keeps = false → s.runnable = false)

variable {s s' : State} {m : Life}

theorem takes_of_keeps (hk : s.spawned.keeps = true) (he : s.spawned ≠ .entry) : s.Takes :=
  ⟨fun h => absurd h he,fun h => by simp [hk] at h⟩

theorem takes_congr (hsp : s'.spawned = s.spawned) (hrun : s'.runnable = s.runnable)
    (hflag : s.spawned = .entry → s'.isRunning = s.isRunning) : s'.Takes ↔ s.Takes := by
  unfold State.Takes
  rw [hsp,hrun]
  exact and_congr_left' (forall_congr' fun he => by rw [hflag he])

/-- A step of `destroy` of the client leaves the flag of a thread that has its reference. -/
theorem Kept.destroy_frame (h : Kept s m) {at_ : Destroy}
    (hc : s.client = .dropping at_ ∨ s.client = .leaving at_) {s₁ : State} {next : Option Destroy}
    (hs : s.destroy at_ = some (s₁,next)) : s₁.spawned = s.spawned ∧ s₁.runnable = s.runnable ∧
      (s.spawned.refs = 1 → s₁.isRunning = s.isRunning) := by
  have hbal : Balanced s.delegate (at_.refs + s.spawned.refs) (at_.deletes + s.spawned.deletes) := by
    have hb := h.balanced
    rcases hc with hc | hc <;> rw [hc] at hb <;> exact hb
  obtain ⟨delegate,es,next',hdest,hbal',hes⟩ := hbal.destroy
  rw [hs] at hdest
  obtain ⟨rfl,rfl⟩ := Prod.mk.inj (Option.some.inj hdest)
  refine ⟨rfl,rfl,fun hrefs => ?_⟩
  obtain ⟨d,rfl,-⟩ := hbal'.delegate (by omega)
  rcases hes.2 with ⟨-,hany⟩ | ⟨-,hnone⟩
  · exact hany
  · cases hnone

theorem Kept.client_frame (h : Kept s m) (hs : s.clientStep = some s') :
    s'.spawned = s.spawned ∧ s'.runnable = s.runnable ∧
      (s.client = .stopCalled → s'.isRunning = false) ∧
      (s.client ≠ .stopCalled → s.spawned.refs = 1 → s'.isRunning = s.isRunning) := by
  unfold State.clientStep at hs
  split at hs
  case h_1 hc =>
    obtain ⟨d,hd,hs⟩ := Option.bind_eq_some_iff.mp hs
    split at hs <;> obtain rfl := Option.some.inj hs <;>
      exact ⟨rfl,rfl,fun h' => by simp [hc] at h',fun _ _ => rfl⟩
  case h_2 at_ hc =>
    obtain ⟨⟨s₁,next⟩,hdest,hs⟩ := Option.bind_eq_some_iff.mp hs
    obtain ⟨hsp,hrun,hflag⟩ := h.destroy_frame (Or.inl hc) hdest
    cases next <;> obtain rfl := Option.some.inj hs <;>
      exact ⟨hsp,hrun,fun h' => by simp [hc] at h',fun _ => hflag⟩
  case h_3 hc =>
    obtain ⟨d,hd,hs⟩ := Option.bind_eq_some_iff.mp hs
    obtain rfl := Option.some.inj hs
    exact ⟨rfl,rfl,fun _ => rfl,fun h' => absurd hc h'⟩
  case h_4 hc =>
    obtain ⟨d,hd,hs⟩ := Option.bind_eq_some_iff.mp hs
    split at hs <;> obtain rfl := Option.some.inj hs <;>
      exact ⟨rfl,rfl,fun h' => by simp [hc] at h',fun _ _ => by simp [State.isRunning,hd]⟩
  case h_5 hc =>
    split at hs
    · obtain rfl := Option.some.inj hs
      exact ⟨rfl,rfl,fun h' => by simp [hc] at h',fun _ _ => rfl⟩
    · cases hs
  case h_6 at_ hc =>
    obtain ⟨⟨s₁,next⟩,hdest,hs⟩ := Option.bind_eq_some_iff.mp hs
    obtain ⟨hsp,hrun,hflag⟩ := h.destroy_frame (Or.inr hc) hdest
    cases next <;> obtain rfl := Option.some.inj hs <;>
      exact ⟨hsp,hrun,fun h' => by simp [hc] at h',fun _ => hflag⟩
  case h_7 => cases hs

/-- Only a stop before the thread has begun keeps it from its runnable. -/
theorem Kept.takes_client (h : Kept s m) (hs : s.clientStep = some s') :
    s'.Takes ↔ s.Takes ∧ SparesEntry s .client := by
  obtain ⟨hsp,hrun,hcleared,hflag⟩ := h.client_frame hs
  by_cases hc : s.client = .stopCalled
  · by_cases he : s.spawned = .entry
    · refine iff_of_false (fun ht => ?_) fun ht => ht.2 hc he
      simpa [hcleared hc] using ht.1 (hsp.trans he)
    · rw [takes_congr hsp hrun fun h' => absurd h' he]
      exact (and_iff_left fun _ => he).symm
  · rw [takes_congr hsp hrun fun he => hflag hc (by simp [he,Spawned.refs])]
    exact (and_iff_left fun h' => absurd h' hc).symm

theorem Kept.takes_spawned (h : Kept s m) {again : Bool} (hs : s.spawnedStep again = some s') :
    s'.Takes ↔ s.Takes := by
  cases hsp : s.spawned with
  | unborn | ended => simp [State.spawnedStep,hsp] at hs
  | entry =>
    have hrun := h.runnable (by simp [hsp,Spawned.keeps])
    simp only [State.spawnedStep,hsp] at hs
    obtain ⟨d,hd,hs⟩ := Option.bind_eq_some_iff.mp hs
    obtain rfl := Option.some.inj hs
    cases hd' : d.mRunnable with
    | true =>
      refine iff_of_true (takes_of_keeps rfl (by simp)) ⟨fun _ => ?_,fun hk => ?_⟩
      · rw [isRunning_some hd,hd']
      · simp [hsp,Spawned.keeps] at hk
    | false =>
      refine iff_of_false (fun ht => ?_) fun ht => ?_
      · simpa [hrun] using ht.2 rfl
      · simpa [isRunning_some hd,hd'] using ht.1 hsp
  | testPrerun | testRun | testPostrun | clear =>
    simp only [State.spawnedStep,hsp] at hs
    obtain ⟨d,hd,hs⟩ := Option.bind_eq_some_iff.mp hs
    obtain rfl := Option.some.inj hs
    refine iff_of_true (takes_of_keeps ?_ ?_) (takes_of_keeps (by simp [hsp,Spawned.keeps])
      (by simp [hsp])) <;> cases d.mRunnable <;> simp [Spawned.keeps]
  | prerun | run | postrun =>
    simp only [State.spawnedStep,hsp] at hs
    split at hs
    · obtain rfl := Option.some.inj hs
      refine iff_of_true (takes_of_keeps ?_ ?_) (takes_of_keeps (by simp [hsp,Spawned.keeps])
        (by simp [hsp])) <;> cases again <;> simp [State.enter,Spawned.keeps]
    · cases hs
  | deleteRunnable =>
    simp only [State.spawnedStep,hsp] at hs
    split at hs
    · obtain rfl := Option.some.inj hs
      exact iff_of_true ⟨by simp [State.enter],fun _ => rfl⟩
        (takes_of_keeps (by simp [hsp,Spawned.keeps]) (by simp [hsp]))
    · cases hs
  | leaving at_ =>
    have hbal := h.balanced
    rw [hsp,add_comm,add_comm s.client.deletes] at hbal
    obtain ⟨delegate,es,next,hdest,-,-⟩ := Balanced.destroy hbal
    simp only [State.spawnedStep,hsp,hdest,Option.bind_eq_bind,Option.bind_some] at hs
    cases next <;> obtain rfl := Option.some.inj hs <;> simp [State.Takes,hsp,Spawned.keeps]

theorem Kept.takes (h : Kept s m) {a : Action} (hs : step s a = some s') :
    s'.Takes ↔ s.Takes ∧ SparesEntry s a := by
  cases a with
  | client => exact h.takes_client hs
  | spawned again => exact (h.takes_spawned hs).trans (and_iff_left trivial).symm
  | start joinable =>
    refine Iff.trans ?_ (and_iff_left trivial).symm
    simp only [step,State.start] at hs
    split at hs
    · obtain rfl := Option.some.inj hs
      have hsp := h.unborn (Or.inl ‹_›)
      exact takes_congr rfl rfl fun he => by simp [hsp] at he
    · cases hs
  | create ok =>
    refine Iff.trans ?_ (and_iff_left trivial).symm
    simp only [step,State.create] at hs
    split at hs
    case h_2 => cases hs
    case h_1 hc =>
      have hsp := h.unborn (Or.inr hc)
      have htakes : s.Takes := takes_of_keeps (by simp [hsp,Spawned.keeps]) (by simp [hsp])
      obtain ⟨d,hd,hs⟩ := Option.bind_eq_some_iff.mp hs
      refine iff_of_true ?_ htakes
      split at hs
      · obtain rfl := Option.some.inj hs
        exact ⟨fun _ => h.whole hc,by simp [Spawned.keeps]⟩
      · obtain rfl := Option.some.inj hs
        exact takes_of_keeps (by simp [hsp,Spawned.keeps]) (by simp [hsp])
  | stop =>
    refine Iff.trans ?_ (and_iff_left trivial).symm
    simp only [step,State.stop] at hs
    split at hs
    · obtain rfl := Option.some.inj hs
      exact takes_congr rfl rfl fun _ => rfl
    · cases hs
  | bye =>
    refine Iff.trans ?_ (and_iff_left trivial).symm
    simp only [step,State.bye] at hs
    split at hs
    · obtain ⟨d,hd,hs⟩ := Option.bind_eq_some_iff.mp hs
      obtain rfl := Option.some.inj hs
      exact takes_congr rfl rfl fun _ => rfl
    · cases hs

theorem takes_iff {as : List Action} (hr : run step {} as = some s) :
    s.Takes ↔ Along step SparesEntry {} as := by
  have htakes : State.Takes {} := takes_of_keeps rfl (by simp)
  have hiff := run_iff_along (I:=fun s => ∃ m, Kept s m) (P:=State.Takes) (G:=SparesEntry)
    (fun s a t ⟨m,h⟩ ht => by
      obtain ⟨es,-,-,h'⟩ := step_sound h ht
      exact ⟨⟨_,h'⟩,h.takes ht⟩) ⟨_,kept_start⟩ hr
  exact hiff.trans (and_iff_right htakes)

theorem stopped_mono {es : List Event} (hm : (watch Life.next m es).stopped = false) :
    m.stopped = false := by
  induction es generalizing m with
  | nil => exact hm
  | cons e es ih =>
    have hnext := ih hm
    cases e with
    | stopped => simp [Life.next] at hnext
    | _ => exact hnext

/-- As long as nobody has stopped the thread, it takes its runnable. -/
theorem takes_of_not_stopped {as : List Action} (hr : run step {} as = some s)
    (hstopped : (watch Life.next {} s.log).stopped = false) : s.Takes := by
  have htakes : State.Takes {} := takes_of_keeps rfl (by simp)
  refine (run_invariant (G:=fun _ _ => True) (I:=fun s => Kept s (watch Life.next {} s.log) ∧
    ((watch Life.next {} s.log).stopped = false → s.Takes)) (fun s a s' hi _ hs => ?_)
    ⟨kept_start,fun _ => htakes⟩ (along_true _ _) hr).2 hstopped
  obtain ⟨es,hlog,-,h'⟩ := step_sound hi.1 hs
  rw [hlog,watch_append]
  refine ⟨h',fun hm => (hi.1.takes hs).mpr ⟨hi.2 (stopped_mono hm),?_⟩⟩
  cases a with
  | client =>
    intro hc
    simp only [step,State.clientStep,hc] at hs
    obtain ⟨d,-,hs⟩ := Option.bind_eq_some_iff.mp hs
    obtain rfl := Option.some.inj hs
    simpa [hm] using h'.client.1
  | _ => trivial

/-- The thread deletes its runnable exactly if no stop came before it had begun; else nobody does.
`start` returns false if there is no thread, and also if the thread is already through with its
runnable, which it then deletes although `start` leaves it to the client. -/
theorem runnable_deleted_iff {as : List Action} (hr : run step {} as = some s) :
    (s.spawned = .ended → (s.runnable = false ↔ Along step SparesEntry {} as)) ∧
    (s.client = .refused → s.spawned = .unborn ∧ s.runnable = true ∨
      s.spawned ≠ .unborn ∧ s.spawned.early = false ∧
        (s.spawned = .ended → s.runnable = false)) := by
  have htakes := takes_iff hr
  obtain ⟨-,h⟩ := run_kept hr
  refine ⟨fun he => ?_,fun hc => ?_⟩
  · rw [← htakes]
    exact ⟨fun hrun => ⟨by simp [he],fun _ => hrun⟩,fun ht => ht.2 (by simp [he,Spawned.keeps])⟩
  · by_cases hsp : s.spawned = .unborn
    · exact Or.inl ⟨hsp,h.runnable (by simp [hsp,Spawned.keeps])⟩
    · have hstopped := h.client
      rw [hc] at hstopped
      exact Or.inr ⟨hsp,h.refused (Or.inl hc),fun he =>
        (takes_of_not_stopped hr hstopped).2 (by simp [he,Spawned.keeps])⟩

/-- The thread is through before `create` looks at the flag. -/
def hastyActions : List Action :=
  [.start false,.create true] ++ List.replicate 11 (.spawned false) ++ List.replicate 4 .client

theorem runnable_deleted_iff_hasty : ∃ s, run step {} hastyActions = some s ∧
    (s.spawned = .ended → (s.runnable = false ↔ Along step SparesEntry {} hastyActions)) ∧
    (s.client = .refused → s.spawned = .unborn ∧ s.runnable = true ∨
      s.spawned ≠ .unborn ∧ s.spawned.early = false ∧
        (s.spawned = .ended → s.runnable = false)) := by
  have h : (run step {} hastyActions).isSome := by decide
  exact ⟨_,(Option.some_get h).symm,runnable_deleted_iff (Option.some_get h).symm⟩

example : (run step {} hastyActions).map (fun s => (s.client,s.spawned,s.runnable)) =
    some (.refused,.ended,false) := by decide

end LocThread
end Kitakami

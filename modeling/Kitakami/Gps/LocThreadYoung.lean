import Kitakami.Gps.LocThreadEnd

/-!
# A thread that nobody has stopped

As long as `run` returns true, such a thread does not leave the loop. What the
two parties do not touch stays as it is.
-/

namespace Kitakami
namespace LocThread

open Runs

variable {t t' : State} {m : Life}

/-- The thread is there and nobody has stopped it, or it could not be created. -/
structure Young (t : State) : Prop where
  client : ∃ d, t.client ∈ [.idle,.constructed,.checking,.running,.refused,.dropping d]
  spawned : t.spawned ≠ .unborn →
    t.spawned ∈ [.entry,.testPrerun,.prerun,.testRun,.run] ∧ t.isRunning = true
  refused : (t.client = .refused ∨ ∃ d, t.client = .dropping d) → t.spawned = .unborn

theorem young_start : Young {} := ⟨⟨.check,by simp⟩,by simp,by simp⟩

theorem destroy_frame {at_ : Destroy} {next : Option Destroy} (h : t.destroy at_ = some (t',next)) :
    t'.client = t.client ∧ t'.spawned = t.spawned := by
  obtain ⟨d,-,h⟩ := Option.bind_eq_some_iff.mp h
  cases at_ <;> obtain ⟨rfl,-⟩ := Prod.mk.inj (Option.some.inj h) <;> exact ⟨rfl,rfl⟩

/-- The thread does not touch the client. -/
theorem spawnedStep_client {again : Bool} (h : t.spawnedStep again = some t') :
    t'.client = t.client := by
  unfold State.spawnedStep at h
  split at h
  case h_1 | h_12 => cases h
  case h_2 | h_3 | h_5 | h_7 | h_9 =>
    obtain ⟨d,-,h⟩ := Option.bind_eq_some_iff.mp h
    obtain rfl := Option.some.inj h
    rfl
  case h_11 =>
    obtain ⟨⟨t₁,next⟩,hd,h⟩ := Option.bind_eq_some_iff.mp h
    cases next <;> obtain rfl := Option.some.inj h <;> exact (destroy_frame hd).1
  all_goals
    split at h
    · obtain rfl := Option.some.inj h
      rfl
    · cases h

theorem Kept.young_create (hk : Kept t m) {ok : Bool} (hs : t.create ok = some t') :
    Young t' := by
  unfold State.create at hs
  split at hs
  case h_2 => cases hs
  case h_1 hc =>
    obtain ⟨d,hd,hs⟩ := Option.bind_eq_some_iff.mp hs
    split at hs <;> obtain rfl := Option.some.inj hs
    · exact ⟨⟨.check,by simp⟩,fun _ => ⟨by simp,hk.whole hc⟩,by simp⟩
    · have hsp := hk.unborn (Or.inr hc)
      exact ⟨⟨.check,by simp⟩,fun hne => absurd hsp hne,fun _ => hsp⟩

theorem Young.clientStep (h : Young t) (hs : t.clientStep = some t') : Young t' := by
  obtain ⟨d₀,hmem⟩ := h.client
  cases hc : t.client with
  | idle | constructed | running | refused | left => simp [State.clientStep,hc] at hs
  | stopCalled | stopping | joining | leaving d => simp [hc] at hmem
  | checking =>
    simp only [State.clientStep,hc] at hs
    obtain ⟨d,hd,hs⟩ := Option.bind_eq_some_iff.mp hs
    split at hs <;> obtain rfl := Option.some.inj hs
    · exact ⟨⟨.check,by simp [State.enter]⟩,h.spawned,by simp [State.enter]⟩
    · refine ⟨⟨.check,by simp⟩,h.spawned,fun _ => ?_⟩
      by_contra hne
      have hr := (h.spawned hne).2
      simp_all [isRunning_some hd]
  | dropping at_ =>
    have hsp := h.refused (Or.inr ⟨at_,hc⟩)
    simp only [State.clientStep,hc] at hs
    obtain ⟨⟨t₁,next⟩,hd,hs⟩ := Option.bind_eq_some_iff.mp hs
    have hsp₁ := (destroy_frame hd).2.trans hsp
    cases next with
    | some next =>
      obtain rfl := Option.some.inj hs
      exact ⟨⟨next,by simp⟩,fun hne => absurd hsp₁ hne,fun _ => hsp₁⟩
    | none =>
      obtain rfl := Option.some.inj hs
      exact ⟨⟨.check,by simp [State.enter]⟩,fun hne => absurd hsp₁ hne,fun _ => hsp₁⟩

/-- As long as `run` returns true, the thread does not leave the loop. -/
theorem Young.spawnedStep (h : Young t) {again : Bool} (hrun : t.spawned = .run → again = true)
    (hs : t.spawnedStep again = some t') : Young t' := by
  have hclient := spawnedStep_client hs
  have hne : t.spawned ≠ .unborn := fun he => by simp [State.spawnedStep,he] at hs
  obtain ⟨hmem,hr⟩ := h.spawned hne
  have hnot : ¬(t.client = .refused ∨ ∃ d, t.client = .dropping d) := fun hc => hne (h.refused hc)
  suffices hsp : t'.spawned ∈ [.entry,.testPrerun,.prerun,.testRun,.run] ∧ t'.isRunning = true by
    refine ⟨by rw [hclient]; exact h.client,fun _ => hsp,fun hc => ?_⟩
    rw [hclient] at hc
    exact absurd hc hnot
  cases hsp : t.spawned with
  | unborn => exact absurd hsp hne
  | testPostrun | postrun | clear | deleteRunnable | leaving d | ended => simp [hsp] at hmem
  | entry | testPrerun | testRun =>
    simp only [State.spawnedStep,hsp] at hs
    obtain ⟨d,hd,hs⟩ := Option.bind_eq_some_iff.mp hs
    rw [isRunning_some hd] at hr
    obtain rfl := Option.some.inj hs
    simp [State.isRunning,hd,hr]
  | prerun =>
    simp only [State.spawnedStep,hsp] at hs
    split at hs
    · obtain rfl := Option.some.inj hs
      exact ⟨by simp [State.enter],hr⟩
    · cases hs
  | run =>
    simp only [State.spawnedStep,hsp,hrun hsp] at hs
    split at hs
    · obtain rfl := Option.some.inj hs
      exact ⟨by simp [State.enter],hr⟩
    · cases hs

theorem Young.step (h : Young t) (hk : Kept t m) {a : Action} (hstop : a ≠ .stop) (hbye : a ≠ .bye)
    (hrun : ∀ again, a = .spawned again → t.spawned = .run → again = true)
    (hs : step t a = some t') : Young t' := by
  cases a with
  | stop => exact absurd rfl hstop
  | bye => exact absurd rfl hbye
  | create ok => exact hk.young_create hs
  | client => exact h.clientStep hs
  | spawned again => exact h.spawnedStep (hrun again rfl) hs
  | start joinable =>
    simp only [LocThread.step,State.start] at hs
    split at hs
    · obtain rfl := Option.some.inj hs
      have hsp := hk.unborn (Or.inl ‹_›)
      exact ⟨⟨.check,by simp⟩,fun hne => absurd hsp hne,by simp⟩
    · cases hs

/-- The client has seen the thread created and lets it go. -/
def Client.Lets (c : Client) : Prop := ∃ d, c ∈ [.stopCalled,.stopping,.joining,.leaving d,.left]

theorem clientStep_lets (h : t.client.Lets) (hs : t.clientStep = some t') : t'.client.Lets := by
  obtain ⟨d₀,hmem⟩ := h
  cases hc : t.client with
  | idle | constructed | running | refused | left => simp [State.clientStep,hc] at hs
  | checking | dropping d => simp [hc] at hmem
  | stopCalled | stopping =>
    simp only [State.clientStep,hc] at hs
    obtain ⟨d,hd,hs⟩ := Option.bind_eq_some_iff.mp hs
    try split at hs
    all_goals
      obtain rfl := Option.some.inj hs
      exact ⟨.check,by simp [State.enter]⟩
  | joining =>
    simp only [State.clientStep,hc] at hs
    split at hs
    · obtain rfl := Option.some.inj hs
      exact ⟨.check,by simp [State.enter]⟩
    · cases hs
  | leaving at_ =>
    simp only [State.clientStep,hc] at hs
    obtain ⟨⟨t₁,next⟩,hd,hs⟩ := Option.bind_eq_some_iff.mp hs
    cases next with
    | some next =>
      obtain rfl := Option.some.inj hs
      exact ⟨next,by simp⟩
    | none =>
      obtain rfl := Option.some.inj hs
      exact ⟨.check,by simp⟩

/-- Only the thread deletes the runnable. -/
theorem spawnedStep_runnable {again : Bool} (h : t.spawnedStep again = some t') :
    t'.runnable = (t.runnable && !decide (t.spawned = .deleteRunnable)) := by
  unfold State.spawnedStep at h
  split at h
  case h_1 | h_12 => cases h
  case h_2 hsp | h_3 hsp | h_5 hsp | h_7 hsp | h_9 hsp =>
    obtain ⟨d,-,h⟩ := Option.bind_eq_some_iff.mp h
    obtain rfl := Option.some.inj h
    simp [hsp]
  case h_11 hsp =>
    obtain ⟨⟨t₁,next⟩,hd,h⟩ := Option.bind_eq_some_iff.mp h
    have ht₁ : t₁.runnable = t.runnable := by
      obtain ⟨d,-,hd⟩ := Option.bind_eq_some_iff.mp hd
      split at hd <;> obtain ⟨rfl,-⟩ := Prod.mk.inj (Option.some.inj hd) <;> rfl
    cases next <;> obtain rfl := Option.some.inj h <;> simp [hsp,ht₁]
  all_goals
    rename_i hsp
    split at h
    · obtain rfl := Option.some.inj h
      simp [State.enter,hsp]
    · cases h

/-- The steps of the client leave a thread that is in `run`. -/
theorem Kept.step_frame (h : Kept t m) {a : Action} (ha : ∀ again, a ≠ .spawned again)
    (hs : step t a = some t') :
    t'.runnable = t.runnable ∧ (t.spawned = .run → t'.spawned = .run) := by
  cases a with
  | spawned again => exact absurd rfl (ha again)
  | client =>
    obtain ⟨hsp,hrun,-⟩ := h.client_frame hs
    exact ⟨hrun,hsp.trans⟩
  | start joinable | stop =>
    simp only [step,State.start,State.stop] at hs
    split at hs
    · obtain rfl := Option.some.inj hs
      exact ⟨rfl,id⟩
    · cases hs
  | bye =>
    simp only [step,State.bye] at hs
    split at hs
    · obtain ⟨d,-,hs⟩ := Option.bind_eq_some_iff.mp hs
      obtain rfl := Option.some.inj hs
      exact ⟨rfl,id⟩
    · cases hs
  | create ok =>
    simp only [step,State.create] at hs
    split at hs
    case h_2 => cases hs
    case h_1 hc =>
      have hsp := h.unborn (Or.inr hc)
      obtain ⟨d,-,hs⟩ := Option.bind_eq_some_iff.mp hs
      split at hs <;> obtain rfl := Option.some.inj hs <;>
        exact ⟨rfl,fun hr => by rw [hsp] at hr; cases hr⟩

/-- What a call of `run` does to the thread. -/
theorem spawnedStep_run (hsp : t.spawned = .run) (hr : t.runnable = true) (again : Bool) :
    ∃ t', t.spawnedStep again = some t' ∧ t'.runnable = t.runnable := by
  simp only [State.spawnedStep,hsp,hr,if_true]
  exact ⟨_,rfl,rfl⟩

end LocThread

end Kitakami

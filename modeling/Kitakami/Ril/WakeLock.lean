import Kitakami.Base.Runs

/-!
# The wake lock of the RIL daemon

The daemon counts who needs the wake lock, which the kernel only knows by its
name, and lets a timer release it after a while. A timer is cancelled by writing
the parameter of its callback, and the only one that can be written is the last
one. Each of the functions holds the mutex and is one step; timers fire in any
order.
-/

namespace Kitakami
namespace Ril

open Runs

/-- The address of a `UserCallbackInfo`. -/
abbrev Addr := ℕ

/-- `held` is the kernel's wake lock. `timers` are the pending wake timers, allocated until they have
fired, with whether their `userParam` is not NULL. -/
structure WakeLock where
  held : Bool := false
  count : ℕ := 0
  last : Option Addr := none
  timers : Addr → Option Bool := fun _ => none

namespace WakeLock

/-- Write the parameter of the last timer; undefined if it has been freed. -/
def cancelLast (w : WakeLock) : Option WakeLock :=
  match w.last with
  | none => some w
  | some b => (w.timers b).map fun _ => { w with timers := Function.update w.timers b (some true) }

/-- `internalRequestTimedCallback` for `wakeTimeoutCallback`; `alloc` is what `calloc` returns. -/
def internalRequestTimedCallback (w : WakeLock) (alloc : Addr) : WakeLock :=
  { w with timers := Function.update w.timers alloc (some false) }

def grabPartialWakeLock (version : ℤ) (alloc : Option Addr) (w : WakeLock) : Option WakeLock :=
  if 13 ≤ version then
    let w := { w with held := true }
    match alloc with
    | none => some { w with held := false }
    | some a =>
      -- `calloc` returns memory that is not in use
      if (w.timers a).isSome then none
      else
        let w := { w.internalRequestTimedCallback a with count := w.count + 1 }
        w.cancelLast.map fun w => { w with last := some a }
  else some { w with held := true }

def releaseWakeLock (version : ℤ) (w : WakeLock) : Option WakeLock :=
  if 13 ≤ version then
    if w.count > 1 then some { w with count := w.count - 1 }
    else WakeLock.cancelLast { w with count := 0, held := false }
  else some { w with held := false }

def wakeTimeoutCallback (version : ℤ) (param : Bool) (w : WakeLock) : Option WakeLock :=
  if param then some w
  else if 13 ≤ version then some { w with count := 0, held := false }
  else w.releaseWakeLock version

/-- `userTimerCallback` for a pending timer. -/
def userTimerCallback (version : ℤ) (a : Addr) (w : WakeLock) : Option WakeLock :=
  (w.timers a).bind fun param =>
    (w.wakeTimeoutCallback version param).map fun w =>
      { w with
        last := if w.last = some a then none else w.last
        timers := Function.update w.timers a none }

end WakeLock

inductive WakeAction
  | grab (alloc : Option Addr)
  | release
  | fire (a : Addr)
  deriving DecidableEq

def wakeStep (version : ℤ) (w : WakeLock) : WakeAction → Option WakeLock
  | .grab alloc => w.grabPartialWakeLock version alloc
  | .release => w.releaseWakeLock version
  | .fire a => w.userTimerCallback version a

/-- The kernel's lock is held exactly if somebody is counted, and exactly then one pending timer is
uncancelled; it is the last one. -/
structure Accounted (w : WakeLock) : Prop where
  held : w.held = true ↔ 0 < w.count
  timer : 0 < w.count ↔ ∃! a, w.timers a = some false
  last : ∀ a, w.timers a = some false → w.last = some a

/-- A timer can be allocated whenever the lock is already held. -/
def AllocatesCounted (w : WakeLock) : WakeAction → Prop
  | .grab none => w.count = 0
  | _ => True

variable {version : ℤ} {w w' : WakeLock}

/-- The last timer has not been freed. -/
def LastPending (w : WakeLock) : Prop := ∀ a, w.last = some a → (w.timers a).isSome = true

/-- What cancelling the last timer does to the timers. -/
def cancelled (w : WakeLock) (a : Addr) : Option Bool :=
  if w.last = some a then some true else w.timers a

/-- With the last timer pending, cancelling it goes through. -/
theorem LastPending.cancelLast (h : LastPending w) :
    w.cancelLast = some { w with timers := cancelled w } := by
  rcases Option.eq_none_or_eq_some w.last with hl | ⟨b,hl⟩
  · have hsame : cancelled w = w.timers := funext fun a => if_neg (by simp [hl])
    have hnone : w.cancelLast = some w := by
      unfold WakeLock.cancelLast
      rw [hl]
    rw [hnone,hsame]
  · obtain ⟨p,hp⟩ := Option.isSome_iff_exists.mp (h b hl)
    have hsame : Function.update w.timers b (some true) = cancelled w := by
      funext a
      by_cases hab : a = b
      · subst hab
        rw [Function.update_self,cancelled,if_pos hl]
      · rw [Function.update_of_ne hab,cancelled,if_neg fun he => hab ?_]
        exact (Option.some.inj (hl.symm.trans he)).symm
    rw [WakeLock.cancelLast,hl]
    simp only [hp,Option.map_some,hsame]

/-- A timer that has just been allocated is not the last one yet. -/
theorem cancelled_alloc {v : WakeLock} {a : Addr} (hlast : v.last = w.last)
    (htimers : v.timers = Function.update w.timers a (some false)) (ha : w.last ≠ some a) :
    cancelled v = Function.update (cancelled w) a (some false) := by
  funext b
  by_cases hba : b = a
  · subst hba
    rw [cancelled,hlast,htimers,if_neg ha,Function.update_self,Function.update_self]
  · rw [cancelled,hlast,htimers,Function.update_of_ne hba,Function.update_of_ne hba,cancelled]

/-- A grab whose timer can be allocated. -/
theorem wakeStep_grab (hv : 13 ≤ version) (h : LastPending w) {a : Addr}
    (hs : wakeStep version w (.grab (some a)) = some w') :
    w.timers a = none ∧ w' = { w with
      held := true
      count := w.count + 1
      last := some a
      timers := Function.update (cancelled w) a (some false) } := by
  simp only [wakeStep,WakeLock.grabPartialWakeLock,if_pos hv] at hs
  split at hs
  · cases hs
  case _ hfree =>
    have hfree' : w.timers a = none := by simpa using hfree
    have hlast : ∀ b, w.last = some b → b ≠ a := by
      rintro b hb rfl
      have hp := h b hb
      rw [hfree'] at hp
      cases hp
    refine ⟨hfree',?_⟩
    have hpending : LastPending { w with
        held := true, count := w.count + 1, timers := Function.update w.timers a (some false) } := by
      intro b hb
      show (Function.update w.timers a (some false) b).isSome = true
      rw [Function.update_of_ne (hlast b hb)]
      exact h b hb
    have hcancel := hpending.cancelLast
    simp only [WakeLock.internalRequestTimedCallback] at hs
    rw [hcancel,Option.map_some] at hs
    rw [← Option.some.inj hs]
    congr 1
    exact cancelled_alloc rfl rfl fun hl => hlast a hl rfl

theorem wakeStep_grab_none (hv : 13 ≤ version) :
    wakeStep version w (.grab none) = some { w with held := false } := if_pos hv

theorem wakeStep_release (hv : 13 ≤ version) (h : LastPending w) :
    wakeStep version w .release =
      if w.count > 1 then some { w with count := w.count - 1 }
      else some { w with count := 0, held := false, timers := cancelled w } := by
  simp only [wakeStep,WakeLock.releaseWakeLock,if_pos hv]
  split
  · rfl
  · have hpending : LastPending { w with count := 0, held := false } := h
    exact hpending.cancelLast

/-- A timer fires; only an uncancelled one releases the lock. -/
theorem wakeStep_fire (hv : 13 ≤ version) {a : Addr} (hs : wakeStep version w (.fire a) = some w') :
    ∃ param, w.timers a = some param ∧ w' = { w with
      held := if param then w.held else false
      count := if param then w.count else 0
      last := if w.last = some a then none else w.last
      timers := Function.update w.timers a none } := by
  obtain ⟨param,hp,hs⟩ := Option.bind_eq_some_iff.mp hs
  refine ⟨param,hp,?_⟩
  cases param with
  | true => exact (Option.some.inj hs).symm
  | false =>
    simp only [WakeLock.wakeTimeoutCallback,if_pos hv] at hs
    exact (Option.some.inj hs).symm

theorem LastPending.step (hv : 13 ≤ version) (h : LastPending w) {a : WakeAction}
    (hs : wakeStep version w a = some w') : LastPending w' := by
  have hcancelled : ∀ b, (w.timers b).isSome = true → (cancelled w b).isSome = true := by
    intro b hb
    unfold cancelled
    split
    · rfl
    · exact hb
  cases a with
  | grab alloc =>
    cases alloc with
    | none =>
      rw [wakeStep_grab_none hv] at hs
      obtain rfl := Option.some.inj hs
      exact h
    | some a =>
      obtain ⟨-,rfl⟩ := wakeStep_grab hv h hs
      intro b hb
      obtain rfl : a = b := Option.some.inj hb
      simp
  | release =>
    rw [wakeStep_release hv h] at hs
    split at hs
    · obtain rfl := Option.some.inj hs
      exact h
    · obtain rfl := Option.some.inj hs
      exact fun b hb => hcancelled b (h b hb)
  | fire a =>
    obtain ⟨param,-,rfl⟩ := wakeStep_fire hv hs
    intro b hb
    dsimp only at hb ⊢
    split at hb
    · cases hb
    case _ hne =>
      have hba : b ≠ a := fun he => hne (he ▸ hb)
      rw [Function.update_of_ne hba]
      exact h b hb

/-! ## The accounting -/

/-- Nobody is counted: the lock is not held and every timer is cancelled. -/
theorem accounted_of_none (hheld : w.held = false) (hcount : w.count = 0)
    (h : ∀ a, w.timers a ≠ some false) : Accounted w where
  held := by simp [hheld,hcount]
  timer := by
    rw [hcount]
    exact iff_of_false (lt_irrefl 0) fun ⟨a,ha,_⟩ => h a ha
  last a ha := absurd ha (h a)

/-- Somebody is counted: the lock is held and the last timer is the uncancelled one. -/
theorem accounted_of_some {a : Addr} (hheld : w.held = true) (hcount : 0 < w.count)
    (hlast : w.last = some a) (ha : w.timers a = some false)
    (h : ∀ b, w.timers b = some false → b = a) : Accounted w where
  held := iff_of_true hheld hcount
  timer := iff_of_true hcount ⟨a,ha,h⟩
  last b hb := by rw [h b hb,hlast]

/-- After a cancellation no timer is uncancelled. -/
theorem Accounted.cancelled_ne (hw : Accounted w) (a : Addr) : cancelled w a ≠ some false := by
  unfold cancelled
  split
  · simp
  case _ hne => exact fun ha => hne (hw.last a ha)

theorem Accounted.of_zero (hw : Accounted w) (hcount : w.count = 0) :
    w.held = false ∧ ∀ a, w.timers a ≠ some false := by
  refine ⟨Bool.eq_false_iff.mpr fun hheld => ?_,fun a ha => ?_⟩
  · exact absurd (hw.held.mp hheld) (by omega)
  · refine absurd (hw.timer.mpr ⟨a,ha,fun b hb => ?_⟩) (by omega)
    exact Option.some.inj ((hw.last b hb).symm.trans (hw.last a ha))

theorem Accounted.of_pos (hw : Accounted w) (hcount : 0 < w.count) :
    w.held = true ∧ ∃ a, w.last = some a ∧ w.timers a = some false ∧
      ∀ b, w.timers b = some false → b = a := by
  obtain ⟨a,ha,huniq⟩ := hw.timer.mp hcount
  exact ⟨hw.held.mpr hcount,a,hw.last a ha,ha,huniq⟩

theorem Accounted.grab (hv : 13 ≤ version) (h : LastPending w) (hw : Accounted w) {a : Addr}
    (hs : wakeStep version w (.grab (some a)) = some w') : Accounted w' := by
  obtain ⟨-,rfl⟩ := wakeStep_grab hv h hs
  refine accounted_of_some rfl (Nat.succ_pos _) rfl (Function.update_self ..) fun b hb => ?_
  by_contra hba
  dsimp only at hb
  rw [Function.update_of_ne hba] at hb
  exact hw.cancelled_ne b hb

theorem Accounted.release (hv : 13 ≤ version) (h : LastPending w) (hw : Accounted w)
    (hs : wakeStep version w .release = some w') : Accounted w' := by
  rw [wakeStep_release hv h] at hs
  split at hs
  case _ hcount =>
    obtain rfl := Option.some.inj hs
    obtain ⟨hheld,a,hlast,ha,huniq⟩ := hw.of_pos (by omega : 0 < w.count)
    exact accounted_of_some hheld (Nat.sub_pos_of_lt hcount) hlast ha huniq
  case _ =>
    obtain rfl := Option.some.inj hs
    exact accounted_of_none rfl rfl hw.cancelled_ne

theorem Accounted.fire (hv : 13 ≤ version) (hw : Accounted w) {a : Addr}
    (hs : wakeStep version w (.fire a) = some w') : Accounted w' := by
  obtain ⟨param,hp,rfl⟩ := wakeStep_fire hv hs
  cases param with
  | false =>
    refine accounted_of_none rfl rfl fun b hb => ?_
    by_cases hba : b = a
    · subst hba
      simp at hb
    · dsimp only at hb
      rw [Function.update_of_ne hba] at hb
      exact hba (Option.some.inj ((hw.last b hb).symm.trans (hw.last a hp)))
  | true =>
    have hkeep : ∀ b, Function.update w.timers a none b = some false ↔ w.timers b = some false := by
      intro b
      by_cases hba : b = a
      · subst hba
        simp [hp]
      · rw [Function.update_of_ne hba]
    refine ⟨hw.held,?_,fun b hb => ?_⟩
    · simp only [hkeep]
      exact hw.timer
    · have hb' := (hkeep b).mp hb
      have hlast := hw.last b hb'
      have hba : b ≠ a := by
        rintro rfl
        rw [hp] at hb'
        cases hb'
      dsimp only
      rw [hlast,if_neg fun he => hba (Option.some.inj he)]

/-- A step keeps the accounting exactly if it does not fail to allocate a timer while somebody is
counted. -/
theorem Accounted.step_iff (hv : 13 ≤ version) (h : LastPending w) (hw : Accounted w)
    (a : WakeAction) :
    (∀ w', wakeStep version w a = some w' → Accounted w') ↔ AllocatesCounted w a := by
  cases a with
  | grab alloc =>
    cases alloc with
    | none =>
      rw [wakeStep_grab_none hv]
      constructor
      · intro hnext
        have hheld := (hnext _ rfl).held
        exact Nat.eq_zero_of_not_pos fun hpos => absurd (hheld.mpr hpos) (by simp)
      · intro hcount w' hs
        obtain rfl := Option.some.inj hs
        exact accounted_of_none rfl hcount (hw.of_zero hcount).2
    | some a => exact iff_of_true (fun _ hs => hw.grab hv h hs) trivial
  | release => exact iff_of_true (fun _ hs => hw.release hv h hs) trivial
  | fire a => exact iff_of_true (fun _ hs => hw.fire hv hs) trivial

theorem accounted_initial : Accounted {} := accounted_of_none rfl rfl fun _ => by simp

/-- Along a run the wake lock is accounted for after every step exactly if no timer's allocation
fails while the lock is counted. -/
theorem accounted_along_iff (hv : 13 ≤ version) (as : List WakeAction) :
    Along (wakeStep version) (fun w a => ∀ w', wakeStep version w a = some w' → Accounted w') {} as ↔
      Along (wakeStep version) AllocatesCounted {} as :=
  along_next_iff_of (J:=LastPending) (fun _ _ _ h hs => h.step hv hs)
    (fun _ a h hw => hw.step_iff hv h a) (fun _ h => by simp at h) accounted_initial

instance decidableAllocatesCounted (w : WakeLock) : ∀ a, Decidable (AllocatesCounted w a)
  | .grab none => inferInstanceAs (Decidable (w.count = 0))
  | .grab (some _) | .release | .fire _ => isTrue trivial

/-- Two holders, a cancelled timer that fires, a surplus release, and a failed allocation while
nobody is counted. -/
def twoHolders : List WakeAction :=
  [.grab (some 1),.grab (some 2),.fire 1,.release,.release,.release,.grab none,.grab (some 1),.fire 2,
    .fire 1]

theorem accounted_twoHolders :
    (run (wakeStep 14) {} twoHolders).isSome = true ∧
      Along (wakeStep 14) (fun w a => ∀ w', wakeStep 14 w a = some w' → Accounted w') {} twoHolders :=
  ⟨by decide,(accounted_along_iff (by decide) twoHolders).mpr (by decide)⟩

/-- An allocation fails while the first holder still needs the lock. -/
theorem not_accounted_failedGrab :
    ∃ w, run (wakeStep 14) {} [.grab (some 1),.grab none] = some w ∧ w.held = false ∧ w.count = 1 ∧
      ¬ Accounted w := by
  have hrun : (run (wakeStep 14) {} [.grab (some 1),.grab none]).map (fun w => (w.held,w.count)) =
      some (false,1) := by decide
  obtain ⟨w,hw,he⟩ := Option.map_eq_some_iff.mp hrun
  obtain ⟨hheld,hcount⟩ := Prod.mk.inj he
  refine ⟨w,hw,hheld,hcount,fun h => ?_⟩
  have hlock := h.held.mpr (by omega)
  rw [hheld] at hlock
  cases hlock

end Ril
end Kitakami

import Kitakami.Gps.LocTimer

/-!
# When a LocTimer fires

`MsgTimerExpire` pops the head of the heap before it compares anything with the
time of now. A timer therefore fires early exactly when the head is not due at
that moment, as `HeadDue` says of the state before the step; every other pop
is guarded by `popIfOutRanks`.
-/

namespace Kitakami
namespace LocTimer

open Runs

theorem Timespec.le_def (a b : Timespec) :
    a ≤ b ↔ a.tvSec < b.tvSec ∨ (a.tvSec = b.tvSec ∧ a.tvNsec ≤ b.tvNsec) := Iff.rfl

theorem Timespec.le_trans {a b c : Timespec} (hab : a ≤ b) (hbc : b ≤ c) : a ≤ c := by
  simp only [Timespec.le_def] at *
  omega

/-- The comparison of the code is the order of the times. -/
theorem outRanks_iff (a b : Delegate) : outRanks a b = true ↔ ¬ b.mFutureTime ≤ a.mFutureTime := by
  simp only [outRanks,ranks,Timespec.le_def]
  split <;> simp only [decide_eq_true_eq] <;> omega

theorem outRanks_eq_false (a b : Delegate) :
    outRanks a b = false ↔ b.mFutureTime ≤ a.mFutureTime := by
  rw [← not_iff_not,← outRanks_iff]
  simp

theorem outRanks_ranking : LocHeap.Ranking outRanks where
  asymm a b h := by
    rw [outRanks_iff] at h
    rw [outRanks_eq_false]
    simp only [Timespec.le_def] at *
    omega
  negTrans a b c hab hbc := by
    rw [outRanks_eq_false] at *
    exact Timespec.le_trans hbc hab

/-- Whether `LocTimerDelegate::expire` gets to the callback: the delegate still
has its client, and the client's `stop` succeeds. -/
def callsBack (s : Container) (timer : Delegate) : Bool :=
  (s.mClient timer.id).any fun client => (s.mTimer client).isSome

/-- What `delegateExpire` changes besides the clients: the delegate is queued
for removal and its callback is recorded. -/
theorem delegateExpire_cases (s : Container) (timer : Delegate) :
    (callsBack s timer = false ∧ delegateExpire s timer = s) ∨
    (callsBack s timer = true ∧ ∃ mTimer mClient removed,
      delegateExpire s timer =
        { s with mTimer := mTimer,mClient := mClient,queue := s.queue ++ [.remove removed],
                 fired := s.fired ++ [(timer,s.now)] }) := by
  cases hc : s.mClient timer.id with
  | none => exact .inl ⟨by simp [callsBack,hc],by simp [delegateExpire,hc]⟩
  | some client =>
    cases ht : s.mTimer client with
    | none => exact .inl ⟨by simp [callsBack,hc,ht],by simp [delegateExpire,hc,stop,ht]⟩
    | some t =>
      refine .inr ⟨by simp [callsBack,hc,ht],Function.update s.mTimer client none,
        Function.update s.mClient t.id none,t,?_⟩
      simp only [delegateExpire,hc,stop,ht]

/-- What popping and expiring timers leaves alone: only the heap, the clients,
the queue and the record of callbacks change, and the queue and the record grow. -/
structure Expires (s t : Container) : Prop where
  now : t.now = s.now
  armed : t.armed = s.armed
  registered : t.registered = s.registered
  poll : t.poll = s.poll
  task : t.task = s.task
  queue : ∃ removed : List Delegate, t.queue = s.queue ++ removed.map .remove
  fired : s.fired <+: t.fired
  heap : t.heap.toList ⊆ s.heap.toList
  ordered : s.heap.Ordered outRanks → t.heap.Ordered outRanks

theorem Expires.refl (s : Container) : Expires s s :=
  ⟨rfl,rfl,rfl,rfl,rfl,⟨[],by simp⟩,List.prefix_refl _,fun _ h => h,id⟩

theorem Expires.trans {s t u : Container} (h : Expires s t) (k : Expires t u) : Expires s u := by
  obtain ⟨r,hr⟩ := h.queue
  obtain ⟨q,hq⟩ := k.queue
  exact ⟨k.now.trans h.now,k.armed.trans h.armed,k.registered.trans h.registered,
    k.poll.trans h.poll,k.task.trans h.task,⟨r ++ q,by simp [hq,hr]⟩,
    h.fired.trans k.fired,fun _ hx => h.heap (k.heap hx),fun ho => k.ordered (h.ordered ho)⟩

theorem delegateExpire_expires (s : Container) (timer : Delegate) :
    Expires s (delegateExpire s timer) := by
  rcases delegateExpire_cases s timer with ⟨-,he⟩ | ⟨-,mTimer,mClient,removed,he⟩ <;> rw [he]
  · exact Expires.refl s
  · exact ⟨rfl,rfl,rfl,rfl,rfl,⟨[removed],rfl⟩,List.prefix_append _ _,fun _ h => h,id⟩

theorem pop_expires {s : Container} {timer : Delegate} (h : s.heap.peek = some timer) :
    Expires s { s with heap := s.heap.pop outRanks } := by
  refine ⟨rfl,rfl,rfl,rfl,rfl,⟨[],by simp⟩,List.prefix_refl _,?_,fun ho => ho.pop outRanks_ranking⟩
  exact fun x hx => (LocHeap.pop_perm outRanks_ranking h).mem_iff.mpr (List.mem_cons_of_mem _ hx)

/-- One pop followed by the delegate's `expire`. -/
theorem popExpire_expires {s : Container} {timer : Delegate} (h : s.heap.peek = some timer) :
    Expires s (delegateExpire { s with heap := s.heap.pop outRanks } timer) :=
  (pop_expires h).trans (delegateExpire_expires _ timer)

/-- A round of the loop either finds the top in the future and stops, or pops a
timer that `popIfOutRanks` lets through. -/
theorem expireLoop_succ (timerOfNow : Delegate) (n : ℕ) (s : Container) :
    ((∀ d ∈ s.heap.peek, outRanks timerOfNow d = true) ∧ expireLoop timerOfNow (n+1) s = s) ∨
    (∃ timer, s.heap.peek = some timer ∧ outRanks timerOfNow timer = false ∧
      expireLoop timerOfNow (n+1) s =
        expireLoop timerOfNow n (delegateExpire { s with heap := s.heap.pop outRanks } timer)) := by
  cases hp : s.heap.peek with
  | none => exact .inl ⟨by simp,by simp [expireLoop,hp]⟩
  | some timer =>
    cases ho : outRanks timerOfNow timer with
    | true => exact .inl ⟨by simpa using ho,by simp [expireLoop,hp,ho]⟩
    | false => exact .inr ⟨timer,rfl,ho,by simp [expireLoop,hp,ho]⟩

theorem expireLoop_expires (timerOfNow : Delegate) (n : ℕ) (s : Container) :
    Expires s (expireLoop timerOfNow n s) := by
  induction n generalizing s with
  | zero => exact Expires.refl s
  | succ n ih =>
    rcases expireLoop_succ timerOfNow n s with ⟨-,he⟩ | ⟨timer,hp,-,he⟩ <;> rw [he]
    · exact Expires.refl s
    · exact (popExpire_expires hp).trans (ih _)

/-- The loop works the heap off: what it leaves on top is in the future. The
number of timers in the heap bounds the number of rounds. -/
theorem expireLoop_top (timerOfNow : Delegate) {n : ℕ} {s : Container}
    (hn : s.heap.toList.length ≤ n) :
    ∀ d ∈ (expireLoop timerOfNow n s).heap.peek, outRanks timerOfNow d = true := by
  induction n generalizing s with
  | zero =>
    intro d hd
    have hmem := LocHeap.mem_of_peek hd
    simp only [expireLoop] at hmem
    simp [List.length_eq_zero_iff.mp (Nat.le_zero.mp hn)] at hmem
  | succ n ih =>
    rcases expireLoop_succ timerOfNow n s with ⟨htop,he⟩ | ⟨timer,hp,-,he⟩ <;> rw [he]
    · exact htop
    · refine ih ?_
      have hlen := (LocHeap.pop_perm outRanks_ranking hp).length_eq
      have hheap : (delegateExpire { s with heap := s.heap.pop outRanks } timer).heap =
          s.heap.pop outRanks := by
        rcases delegateExpire_cases { s with heap := s.heap.pop outRanks } timer with
          ⟨-,he⟩ | ⟨-,_,_,_,he⟩ <;> rw [he]
      rw [hheap]
      simp only [List.length_cons] at hlen
      omega

/-- An Expire message pops and expires timers, then always updates the soonest time. -/
theorem procExpire_eq (s : Container) :
    ∃ u, Expires s u ∧ procExpire s = updateSoonestTime u none := by
  cases hp : s.heap.peek with
  | none => exact ⟨s,Expires.refl s,by simp [procExpire,hp]⟩
  | some timer =>
    have hloop := (popExpire_expires hp).trans
      (expireLoop_expires ⟨s.nextId,s.now⟩ s.heap.toList.length _)
    exact ⟨_,hloop,by simp only [procExpire,hp]⟩

/-- No callback recorded so far came before its timer's time. -/
def NeverEarly (s : Container) : Prop := ∀ e ∈ s.fired, e.1.mFutureTime ≤ e.2

theorem NeverEarly.of_fired {s t : Container} (h : s.fired <+: t.fired) (ht : NeverEarly t) :
    NeverEarly s := fun e he => ht e (h.subset he)

/-- A delegate's `expire` is early exactly when it calls back before its time. -/
theorem neverEarly_delegateExpire (s : Container) (timer : Delegate) :
    NeverEarly (delegateExpire s timer) ↔
      NeverEarly s ∧ (callsBack s timer = true → timer.mFutureTime ≤ s.now) := by
  rcases delegateExpire_cases s timer with ⟨hc,he⟩ | ⟨hc,_,_,_,he⟩
  · simp [he,hc]
  · simp only [he,hc,NeverEarly,List.mem_append,List.mem_singleton,forall_const]
    constructor
    · exact fun h => ⟨fun e hm => h e (.inl hm),h (timer,s.now) (.inr rfl)⟩
    · rintro ⟨h,hd⟩ e (hm | rfl)
      · exact h e hm
      · exact hd

/-- The pops that `popIfOutRanks` guards are never early. -/
theorem neverEarly_expireLoop {timerOfNow : Delegate} {n : ℕ} {s : Container}
    (hnow : timerOfNow.mFutureTime = s.now) (h : NeverEarly s) :
    NeverEarly (expireLoop timerOfNow n s) := by
  induction n generalizing s with
  | zero => exact h
  | succ n ih =>
    rcases expireLoop_succ timerOfNow n s with ⟨-,he⟩ | ⟨timer,hp,ho,he⟩ <;> rw [he]
    · exact h
    · refine ih (hnow.trans (popExpire_expires hp).now.symm) ?_
      rw [neverEarly_delegateExpire]
      refine ⟨h,fun _ => ?_⟩
      rw [outRanks_eq_false,hnow] at ho
      exact ho

@[simp] theorem updateSoonestTime_fired (s : Container) (priorTop : Option Delegate) :
    (updateSoonestTime s priorTop).fired = s.fired := by
  unfold updateSoonestTime
  split <;> (try split) <;> (try split) <;> rfl

theorem procPush_fired (s : Container) (timer : Delegate) :
    (procPush s timer).fired = s.fired := by simp [procPush]

theorem procRemove_fired (s : Container) (timer : Delegate) :
    (procRemove s timer).fired = s.fired := by
  unfold procRemove
  split <;> split <;> simp

/-- An Expire message is processed early exactly when the head it pops calls
back before its time. -/
theorem neverEarly_procExpire (s : Container) :
    NeverEarly (procExpire s) ↔
      NeverEarly s ∧
        ∀ d ∈ s.heap.peek, callsBack s d = true → d.mFutureTime ≤ s.now := by
  cases hp : s.heap.peek with
  | none => simp [procExpire,hp,NeverEarly]
  | some timer =>
    simp only [procExpire,hp,NeverEarly,updateSoonestTime_fired,Option.mem_some_iff,forall_eq']
    constructor
    · intro h
      have hfirst := NeverEarly.of_fired (expireLoop_expires _ _ _).fired h
      rwa [neverEarly_delegateExpire] at hfirst
    · intro h
      refine neverEarly_expireLoop ?_ ((neverEarly_delegateExpire _ timer).mpr h)
      exact (popExpire_expires hp).now.symm

/-- The timer that an Expire message is about to pop unchecked is due, or it
has been stopped and will not call back. -/
def HeadDue (s : Container) : Action → Prop
  | .msgProc => s.task = .idle → s.queue.head? = some .expire →
      ∀ d ∈ s.heap.peek, callsBack s d = true → d.mFutureTime ≤ s.now
  | _ => True

instance (s : Container) (a : Action) : Decidable (HeadDue s a) := by
  cases a <;> unfold HeadDue <;> infer_instance

/-- Callbacks are only recorded by the MsgTask. -/
theorem step_fired {s t : Container} {a : Action} (h : step s a = some t) (ha : a ≠ .msgProc) :
    t.fired = s.fired := by
  have he := step_effect h
  cases a with
  | msgProc => exact absurd rfl ha
  | start client ms =>
    rw [he]
    unfold start
    split <;> rfl
  | stop client =>
    rw [he]
    unfold stop
    split <;> rfl
  | tick | pollDisarm | pollRemove | pollSend | msgRemovePoll => rw [he.2]
  | pollWake => rw [he.2.2]
  | msgAddPoll | msgSetTime =>
    obtain ⟨time,-,rfl⟩ := he
    rfl

theorem step_fired_grows {s t : Container} {a : Action} (h : step s a = some t) :
    s.fired <+: t.fired := by
  by_cases ha : a = .msgProc
  · subst ha
    obtain ⟨msg,rest,-,-,rfl⟩ := step_effect h
    cases msg with
    | push timer => simp [proc,procPush_fired]
    | remove timer => simp [proc,procRemove_fired]
    | expire =>
      obtain ⟨u,hu,he⟩ := procExpire_eq { s with queue := rest }
      simpa [proc,he] using hu.fired
  · rw [step_fired h ha]

/-- One step is early exactly when it is an Expire message whose head is not due. -/
theorem step_neverEarly {s t : Container} {a : Action} (h : step s a = some t)
    (hs : NeverEarly s) : NeverEarly t ↔ HeadDue s a := by
  by_cases ha : a = .msgProc
  · subst ha
    obtain ⟨msg,rest,htask,hq,rfl⟩ := step_effect h
    cases msg with
    | push timer => simpa [proc,HeadDue,hq,NeverEarly,procPush_fired] using hs
    | remove timer => simpa [proc,HeadDue,hq,NeverEarly,procRemove_fired] using hs
    | expire =>
      simp only [proc,neverEarly_procExpire,HeadDue,htask,hq,List.head?_cons,forall_const]
      exact and_iff_right hs
  · have hguard : HeadDue s a := by cases a <;> trivial
    refine iff_of_true ?_ hguard
    simpa [NeverEarly,step_fired h ha] using hs

theorem run_fired_grows {s u : Container} {as : List Action} (h : run step s as = some u) :
    s.fired <+: u.fired := by
  induction as generalizing s with
  | nil =>
    obtain rfl : s = u := by simpa using h
    exact List.prefix_refl _
  | cons a as ih =>
    obtain ⟨t,ht,hu⟩ := run_cons_eq_some.mp h
    exact (step_fired_grows ht).trans (ih hu)

theorem run_neverEarly {s u : Container} {as : List Action} (h : run step s as = some u)
    (hs : NeverEarly s) : NeverEarly u ↔ Along step HeadDue s as := by
  induction as generalizing s with
  | nil =>
    obtain rfl : s = u := by simpa using h
    exact iff_of_true hs trivial
  | cons a as ih =>
    obtain ⟨t,ht,hu⟩ := run_cons_eq_some.mp h
    constructor
    · intro hn
      have hnt : NeverEarly t := hn.of_fired (run_fired_grows hu)
      refine along_cons ((step_neverEarly ht hs).mp hnt) fun t' ht' => ?_
      obtain rfl : t = t' := by simpa [ht] using ht'
      exact (ih hu hnt).mp hn
    · intro hg
      exact (ih hu ((step_neverEarly ht hs).mpr hg.head)).mpr (hg.tail ht)

/-- In a run of the container every callback comes at or after its timer's time
if and only if every Expire message finds the head of the heap due. -/
theorem neverEarly_iff_headDue (n : ℕ) (as : List Action) (s : Container)
    (h : run step (Container.init n) as = some s) :
    (∀ e ∈ s.fired, e.1.mFutureTime ≤ e.2) ↔ Along step HeadDue (Container.init n) as :=
  run_neverEarly h (by simp [NeverEarly,Container.init])

/-- One timer of 1 ms, started, expired and called back. -/
def firedRun : List Action :=
  [.start 0 1,.msgProc,.msgAddPoll,.msgSetTime,.tick ⟨0,1000001⟩,.pollWake,.pollDisarm,
    .pollRemove,.pollSend,.msgProc]

/-- A timer of 1 ms and one of 5 s. The first is stopped when its expiry is under
way; its removal is processed before the Expire message, which then pops the other. -/
def earlyRun : List Action :=
  [.start 0 1,.start 1 5000,.msgProc,.msgAddPoll,.msgSetTime,.msgProc,.tick ⟨0,1000001⟩,
    .pollWake,.pollDisarm,.pollRemove,.stop 0,.pollSend,.msgProc,.msgAddPoll,.msgSetTime,.msgProc]

theorem neverEarly_firedRun :
    ∃ s, run step (Container.init 0) firedRun = some s ∧ s.fired.length = 1 ∧
      ((∀ e ∈ s.fired, e.1.mFutureTime ≤ e.2) ↔ Along step HeadDue (Container.init 0) firedRun) :=
  ⟨_,rfl,rfl,neverEarly_iff_headDue 0 firedRun _ rfl⟩

/-- The timer of 5 s calls back 1 ms after its start. -/
theorem early_earlyRun :
    ∃ s, run step (Container.init 0) earlyRun = some s ∧
      s.fired = [(⟨1,⟨5,1⟩⟩,⟨0,1000001⟩)] ∧ ¬ ∀ e ∈ s.fired, e.1.mFutureTime ≤ e.2 :=
  ⟨_,rfl,rfl,by decide⟩

end LocTimer
end Kitakami

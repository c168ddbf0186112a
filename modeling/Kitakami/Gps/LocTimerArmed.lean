import Kitakami.Gps.LocTimerFires

/-!
# No timer is forgotten

While the heap is not empty, either an expiry is on its way to the MsgTask,
which rearms the fd when it processes it, or the fd is registered and armed at
the time of the top of the heap. Between the two system calls of
`updateSoonestTime` the calls still to come are the ones that arm it so.
-/

namespace Kitakami
namespace LocTimer

open Runs

/-- The poll thread is inside `expire()`, or its Expire message is queued. -/
def InFlight (s : Container) : Prop := s.poll ≠ .waiting ∨ .expire ∈ s.queue

/-- An expiry that is not yet handled: in flight, or an fd that has fired. -/
def ExpiryPending (s : Container) : Prop :=
  InFlight s ∨ (s.registered = true ∧ ∃ time, s.armed = some time ∧ time ≤ s.now)

/-- The fd is registered with epoll and armed at exactly `time`. -/
def ArmedAt (s : Container) (time : Timespec) : Prop :=
  s.registered = true ∧ s.armed = some time

/-- The link between the top of the heap, the fd and the progress of the MsgTask. -/
def Link (s : Container) : Prop :=
  match s.task with
  | .idle => ∀ d ∈ s.heap.peek, InFlight s ∨ ArmedAt s d.mFutureTime
  | .addPoll time => ∃ d, s.heap.peek = some d ∧ time = d.mFutureTime
  | .removePoll => False
  | .setTime time => ∃ d, s.heap.peek = some d ∧ time = d.mFutureTime ∧
      (InFlight s ∨ s.registered = true)

/-- The heap is ordered, and no timer has the zero time, which would disarm the
fd: the clock starts above zero and only advances. -/
structure Sound (s : Container) : Prop where
  ordered : s.heap.Ordered outRanks
  now : s.now ≠ ⟨0,0⟩
  heap : ∀ d ∈ s.heap.toList, d.mFutureTime ≠ ⟨0,0⟩
  queue : ∀ d, .push d ∈ s.queue → d.mFutureTime ≠ ⟨0,0⟩

/-- The invariant of the container. -/
structure Inv (s : Container) : Prop extends Sound s where
  link : Link s

theorem Timespec.ne_zero_of_le {a b : Timespec} (h : a ≤ b) (ha : a ≠ ⟨0,0⟩) : b ≠ ⟨0,0⟩ := by
  rintro rfl
  obtain ⟨sec,nsec⟩ := a
  simp only [Timespec.le_def] at h
  refine ha ?_
  simp only [Timespec.mk.injEq]
  omega

theorem le_futureTime (now : Timespec) (ms : ℕ) : now ≤ futureTime now ms := by
  simp only [futureTime,Timespec.le_def]
  split <;> simp only <;> omega

/-- What `InFlight` and `Link` read: they carry over when the queue only grows. -/
theorem InFlight.mono {s t : Container} (h : InFlight s) (hp : t.poll = s.poll)
    (hq : s.queue ⊆ t.queue) : InFlight t := by
  rcases h with h | h
  · exact .inl (by rwa [hp])
  · exact .inr (hq h)

theorem Link.mono {s t : Container} (h : Link s) (ht : t.task = s.task)
    (hh : t.heap.peek = s.heap.peek) (ha : t.armed = s.armed) (hr : t.registered = s.registered)
    (hf : InFlight s → InFlight t) : Link t := by
  simp only [Link,ArmedAt,ht,hh,ha,hr] at *
  cases htask : s.task with
  | idle =>
    simp only [htask] at h
    exact fun d hd => (h d hd).imp_left hf
  | addPoll time => simpa only [htask] using h
  | removePoll => simp only [htask] at h
  | setTime time =>
    simp only [htask] at h
    obtain ⟨d,hd,he,hreg⟩ := h
    exact ⟨d,hd,he,hreg.imp_left hf⟩

/-- The poll thread does not touch the heap or the MsgTask, and once it has
woken nothing about the fd matters. -/
theorem Link.inFlight {s t : Container} (h : Link s) (ht : t.task = s.task)
    (hh : t.heap = s.heap) (hf : InFlight t) : Link t := by
  simp only [Link,ht,hh] at *
  cases htask : s.task with
  | idle => exact fun d hd => .inl hf
  | addPoll time => simpa only [htask] using h
  | removePoll => simp only [htask] at h
  | setTime time =>
    simp only [htask] at h
    obtain ⟨d,hd,he,-⟩ := h
    exact ⟨d,hd,he,.inl hf⟩

/-! ## The clients, the clock and the poll thread -/

theorem inv_start {s : Container} (h : Inv s) (client ms : ℕ) : Inv (start s client ms) := by
  unfold start
  cases hc : s.mTimer client with
  | some timer => exact h
  | none =>
    refine ⟨⟨h.ordered,h.now,h.heap,?_⟩,?_⟩
    · intro d hd
      rcases List.mem_append.mp hd with hd | hd
      · exact h.queue d hd
      · obtain rfl : d = ⟨s.nextId,futureTime s.now ms⟩ := by simpa using hd
        exact Timespec.ne_zero_of_le (le_futureTime s.now ms) h.now
    · exact h.link.mono rfl rfl rfl rfl fun hf => hf.mono rfl (List.subset_append_left _ _)

theorem inv_stop {s : Container} (h : Inv s) (client : ℕ) : Inv (stop s client).1 := by
  unfold stop
  cases hc : s.mTimer client with
  | none => exact h
  | some timer =>
    refine ⟨⟨h.ordered,h.now,h.heap,?_⟩,?_⟩
    · intro d hd
      exact h.queue d (by simpa using hd)
    · exact h.link.mono rfl rfl rfl rfl fun hf => hf.mono rfl (List.subset_append_left _ _)

/-! ## The messages -/

/-- What the decision of `updateSoonestTime` establishes: with no prior top it
always arms for the top; with one, only when the top has changed. -/
theorem inv_updateSoonestTime {s : Container} {priorTop : Option Delegate} (h : Sound s)
    (same : s.heap.peek = priorTop → Link s)
    (changed : ∀ prior, priorTop = some prior → s.heap.peek ≠ some prior →
      ∃ d, s.heap.peek = some d ∧ outRanks d prior = true) :
    Inv (updateSoonestTime s priorTop) := by
  unfold updateSoonestTime
  by_cases hp : s.heap.peek = priorTop
  · rw [if_pos hp]
    exact ⟨h,same hp⟩
  rw [if_neg hp]
  cases priorTop with
  | none =>
    cases hc : s.heap.peek with
    | none => exact absurd hc hp
    | some d => exact ⟨⟨h.ordered,h.now,h.heap,h.queue⟩,d,hc,rfl⟩
  | some prior =>
    obtain ⟨d,hd,ho⟩ := changed prior rfl hp
    simp only [hd,ho,if_true]
    exact ⟨⟨h.ordered,h.now,h.heap,h.queue⟩,d,hd,rfl⟩

/-- The forced update of a container that works on no message. -/
theorem inv_updateSoonestTime_none {s : Container} (h : Sound s) (htask : s.task = .idle) :
    Inv (updateSoonestTime s none) := by
  refine inv_updateSoonestTime h (fun hp => ?_) (fun _ hprior => nomatch hprior)
  simp [Link,htask,hp]

theorem Inv.procPush {s : Container} (h : Inv s) {timer : Delegate}
    (htimer : timer.mFutureTime ≠ ⟨0,0⟩) : Inv (procPush s timer) := by
  have hpeek : (s.heap.push outRanks timer).peek = _ := LocHeap.peek_push s.heap timer
  refine inv_updateSoonestTime ⟨h.ordered.push outRanks_ranking timer,h.now,?_,h.queue⟩ ?_ ?_
  · intro d hd
    rcases List.mem_cons.mp ((LocHeap.push_perm s.heap timer).mem_iff.mp hd) with rfl | hd
    · exact htimer
    · exact h.heap d hd
  · exact fun hsame => h.link.mono rfl hsame rfl rfl id
  · intro prior hprior hne
    simp only [hprior] at hpeek
    cases ho : outRanks timer prior with
    | true => exact ⟨timer,by simpa [ho] using hpeek,ho⟩
    | false => exact absurd (by simpa [ho] using hpeek) hne

/-- A remove that takes out the top forces an update; one that takes out another
timer, or finds none, leaves the top. -/
theorem Inv.procRemove {s : Container} (h : Inv s) (htask : s.task = .idle) (timer : Delegate) :
    Inv (procRemove s timer) := by
  unfold LocTimer.procRemove
  cases hr : s.heap.remove outRanks timer with
  | none =>
    simp only
    split
    · exact inv_updateSoonestTime_none h.toSound htask
    · exact h
  | some heap =>
    have hs : Sound { s with heap := heap } := by
      refine ⟨h.ordered.remove outRanks_ranking hr,h.now,fun d hd => h.heap d ?_,h.queue⟩
      exact (LocHeap.remove_perm outRanks_ranking hr).mem_iff.mpr (List.mem_cons_of_mem _ hd)
    simp only
    split
    · exact inv_updateSoonestTime_none hs htask
    · exact ⟨hs,h.link.mono rfl (LocHeap.peek_remove hr ‹_›) rfl rfl id⟩

theorem Sound.expires {s t : Container} (h : Sound s) (ht : Expires s t) : Sound t := by
  obtain ⟨removed,hq⟩ := ht.queue
  refine ⟨ht.ordered h.ordered,by rw [ht.now]; exact h.now,fun d hd => h.heap d (ht.heap hd),?_⟩
  intro d hd
  refine h.queue d ?_
  simpa [hq] using hd

/-- An Expire message always ends with the forced update, so it needs no link
before it. -/
theorem Sound.procExpire {s : Container} (h : Sound s) (htask : s.task = .idle) :
    Inv (procExpire s) := by
  obtain ⟨u,hu,he⟩ := procExpire_eq s
  rw [he]
  exact inv_updateSoonestTime_none (h.expires hu) (hu.task.trans htask)

theorem Inv.msgProc {s : Container} (h : Inv s) {msg : LocMsg} {rest : List LocMsg}
    (htask : s.task = .idle) (hq : s.queue = msg :: rest) :
    Inv (proc { s with queue := rest } msg) := by
  have hs : Sound { s with queue := rest } :=
    ⟨h.ordered,h.now,h.heap,fun d hd => h.queue d (by simp [hq,hd])⟩
  have hrest : msg ≠ .expire → Inv { s with queue := rest } := by
    refine fun hmsg => ⟨hs,h.link.mono rfl rfl rfl rfl ?_⟩
    rintro (hf | hf)
    · exact .inl hf
    · refine .inr ?_
      rw [hq] at hf
      exact (List.mem_cons.mp hf).resolve_left (Ne.symm hmsg)
  cases msg with
  | push timer => exact (hrest (by simp)).procPush (h.queue timer (by simp [hq]))
  | remove timer => exact (hrest (by simp)).procRemove htask timer
  | expire => exact hs.procExpire htask

/-! ## Every reachable state -/

theorem inv_init (n : ℕ) : Inv (Container.init n) := by
  refine ⟨⟨trivial,?_,?_,?_⟩,?_⟩
  · simp only [Container.init,ne_eq,Timespec.mk.injEq]
    omega
  · intro d hd
    cases hd
  · intro d hd
    cases hd
  · intro d hd
    cases hd

theorem Inv.step {s t : Container} {a : Action} (h : Inv s) (hs : step s a = some t) : Inv t := by
  have he := step_effect hs
  cases a with
  | tick now =>
    obtain ⟨hle,rfl⟩ := he
    exact ⟨⟨h.ordered,Timespec.ne_zero_of_le hle h.now,h.heap,h.queue⟩,
      h.link.mono rfl rfl rfl rfl id⟩
  | start client ms =>
    rw [he]
    exact inv_start h client ms
  | stop client =>
    rw [he]
    exact inv_stop h client
  | pollWake =>
    obtain ⟨-,-,rfl⟩ := he
    exact ⟨⟨h.ordered,h.now,h.heap,h.queue⟩,h.link.inFlight rfl rfl (.inl (by simp))⟩
  | pollDisarm =>
    obtain ⟨-,rfl⟩ := he
    exact ⟨⟨h.ordered,h.now,h.heap,h.queue⟩,h.link.inFlight rfl rfl (.inl (by simp))⟩
  | pollRemove =>
    obtain ⟨-,rfl⟩ := he
    exact ⟨⟨h.ordered,h.now,h.heap,h.queue⟩,h.link.inFlight rfl rfl (.inl (by simp))⟩
  | pollSend =>
    obtain ⟨-,rfl⟩ := he
    refine ⟨⟨h.ordered,h.now,h.heap,fun d hd => h.queue d (by simpa using hd)⟩,?_⟩
    exact h.link.inFlight rfl rfl (.inr (by simp))
  | msgProc =>
    obtain ⟨msg,rest,htask,hq,rfl⟩ := he
    exact h.msgProc htask hq
  | msgAddPoll =>
    obtain ⟨time,htask,rfl⟩ := he
    obtain ⟨d,hd,hte⟩ : ∃ d, s.heap.peek = some d ∧ time = d.mFutureTime := by
      simpa only [Link,htask] using h.link
    exact ⟨⟨h.ordered,h.now,h.heap,h.queue⟩,d,hd,hte,.inr rfl⟩
  | msgRemovePoll =>
    have hl := h.link
    simp only [Link,he.1] at hl
  | msgSetTime =>
    obtain ⟨time,htask,rfl⟩ := he
    obtain ⟨d,hd,hte,hreg⟩ : ∃ d, s.heap.peek = some d ∧ time = d.mFutureTime ∧
        (InFlight s ∨ s.registered = true) := by simpa only [Link,htask] using h.link
    refine ⟨⟨h.ordered,h.now,h.heap,h.queue⟩,?_⟩
    intro d' hd'
    obtain rfl : d = d' := by simpa [timerfdSettime,hd] using hd'
    have hne := h.heap d (LocHeap.mem_of_peek hd)
    exact hreg.imp id fun hr => ⟨hr,by simp [timerfdSettime,hte,hne]⟩

theorem inv_reachable {n : ℕ} {s : Container} (h : Reachable step (Container.init n) s) : Inv s :=
  h.invariant (inv_init n) fun _ _ _ hs ht => hs.step ht

/-- In every reachable state with a timer in the heap there is a top that no
timer in the heap outranks. Between two messages an expiry is pending or the fd
is registered and armed at exactly the time of this top. While the MsgTask is
inside `updateSoonestTime` it still has to arm for exactly this time, and it
registers the fd first. -/
theorem not_forgotten (n : ℕ) (s : Container) (h : Reachable step (Container.init n) s)
    (hne : s.heap ≠ .null) :
    ∃ top, s.heap.peek = some top ∧ (∀ d ∈ s.heap.toList, outRanks d top = false) ∧
      match s.task with
      | .idle => ExpiryPending s ∨ ArmedAt s top.mFutureTime
      | .addPoll time => time = top.mFutureTime
      | .removePoll => False
      | .setTime time => time = top.mFutureTime ∧ (InFlight s ∨ s.registered = true) := by
  have hi := inv_reachable h
  obtain ⟨top,htop⟩ : ∃ top, s.heap.peek = some top := by
    cases hh : s.heap with
    | null => exact absurd hh hne
    | node m d l r => exact ⟨d,rfl⟩
  refine ⟨top,htop,hi.ordered.top_highest outRanks_ranking htop,?_⟩
  have hl := hi.link
  cases htask : s.task with
  | idle =>
    simp only [Link,htask] at hl
    exact (hl top htop).imp_left Or.inl
  | addPoll time | setTime time => simpa [Link,htask,htop] using hl
  | removePoll => simp [Link,htask] at hl

/-- The timer of 5 s stays armed when the timer of 8 s is stopped. -/
theorem not_forgotten_run :
    ∃ s, run step (Container.init 0) [.start 0 5000,.start 1 8000,.msgProc,.msgAddPoll,
        .msgSetTime,.msgProc,.stop 1,.msgProc] = some s ∧
      s.armed = some ⟨5,1⟩ ∧ ∃ top, s.heap.peek = some top ∧
        (∀ d ∈ s.heap.toList, outRanks d top = false) ∧
        match s.task with
        | .idle => ExpiryPending s ∨ ArmedAt s top.mFutureTime
        | .addPoll time => time = top.mFutureTime
        | .removePoll => False
        | .setTime time => time = top.mFutureTime ∧ (InFlight s ∨ s.registered = true) :=
  ⟨_,rfl,rfl,not_forgotten 0 _ ⟨[.start 0 5000,.start 1 8000,.msgProc,.msgAddPoll,.msgSetTime,
    .msgProc,.stop 1,.msgProc],rfl⟩ (by decide)⟩

end LocTimer
end Kitakami

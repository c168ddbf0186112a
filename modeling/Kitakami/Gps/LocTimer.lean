import Kitakami.Base.Runs
import Kitakami.Gps.LocHeap

/-!
# LocTimer

One `LocTimerContainer` of `LocTimer.cpp`: the heap of running timers, the
kernel's timer fd and its registration with epoll, the poll thread, and the
message queue that the MsgTask works off. Clients start and stop timers, the
fd expires, and the poll thread and the MsgTask take their steps, all in any
order. The two system calls of `updateSoonestTime` are steps of their own, so
the poll thread can run between them.
-/

namespace Kitakami
namespace LocTimer

/-- `struct timespec`. -/
structure Timespec where
  tvSec : ℕ
  tvNsec : ℕ
  deriving DecidableEq

/-- Earlier or equal, compared as seconds first. -/
def Timespec.le (a b : Timespec) : Prop :=
  a.tvSec < b.tvSec ∨ (a.tvSec = b.tvSec ∧ a.tvNsec ≤ b.tvNsec)

instance : LE Timespec := ⟨Timespec.le⟩

instance (a b : Timespec) : Decidable (a ≤ b) :=
  inferInstanceAs (Decidable (a.tvSec < b.tvSec ∨ (a.tvSec = b.tvSec ∧ a.tvNsec ≤ b.tvNsec)))

/-- `LocTimerDelegate::ranks`: a later time ranks lower. -/
def ranks (self timer : Timespec) : ℤ :=
  let rank : ℤ := timer.tvSec - self.tvSec
  if rank = 0 then timer.tvNsec - self.tvNsec else rank

/-- A `LocTimerDelegate`; `id` stands for its address. -/
structure Delegate where
  id : ℕ
  mFutureTime : Timespec
  deriving DecidableEq

def outRanks (a b : Delegate) : Bool := decide (0 < ranks a.mFutureTime b.mFutureTime)

/-- The messages of `LocTimerContainer::add`, `remove` and `expire`. -/
inductive LocMsg
  | push (timer : Delegate)
  | remove (timer : Delegate)
  | expire
  deriving DecidableEq

/-- The poll thread: blocked in `epoll_wait`, or inside `expire()`. -/
inductive Poll
  | waiting | woken | disarmed | removed
  deriving DecidableEq

/-- The MsgTask: between two messages, or inside `updateSoonestTime`. -/
inductive Task
  | idle
  | addPoll (soonest : Timespec)
  | removePoll
  | setTime (itValue : Timespec)
  deriving DecidableEq

/-- The container with its clients. `mTimer` is the running delegate of each
LocTimer, `mClient` the LocTimer of each delegate, and `fired` records each
callback with the time of its invocation. -/
structure Container where
  now : Timespec
  mTimer : ℕ → Option Delegate := fun _ => none
  mClient : ℕ → Option ℕ := fun _ => none
  nextId : ℕ := 0
  heap : LocHeap Delegate := .null
  queue : List LocMsg := []
  armed : Option Timespec := none
  registered : Bool := false
  poll : Poll := .waiting
  task : Task := .idle
  fired : List (Delegate × Timespec) := []

/-- A container created `n + 1` nanoseconds after the clock's zero. -/
def Container.init (n : ℕ) : Container :=
  { now := ⟨(n+1)/1000000000,(n+1)%1000000000⟩ }

/-- The absolute time `LocTimer::start` computes. -/
def futureTime (now : Timespec) (timeOutInMs : ℕ) : Timespec :=
  let sec := now.tvSec + timeOutInMs/1000
  let nsec := now.tvNsec + (timeOutInMs%1000)*1000000
  if nsec ≥ 1000000000 then ⟨sec + nsec/1000000000,nsec%1000000000⟩ else ⟨sec,nsec⟩

/-- `LocTimer::start`; a running timer is left alone. -/
def start (s : Container) (client timeOutInMs : ℕ) : Container :=
  match s.mTimer client with
  | some _ => s
  | none =>
    let timer : Delegate := ⟨s.nextId,futureTime s.now timeOutInMs⟩
    { s with
      mTimer := Function.update s.mTimer client (some timer)
      mClient := Function.update s.mClient timer.id (some client)
      nextId := s.nextId + 1
      queue := s.queue ++ [.push timer] }

/-- `LocTimer::stop` with `destroyLocked`. -/
def stop (s : Container) (client : ℕ) : Container × Bool :=
  match s.mTimer client with
  | none => (s,false)
  | some timer =>
    ({ s with
        mTimer := Function.update s.mTimer client none
        mClient := Function.update s.mClient timer.id none
        queue := s.queue ++ [.remove timer] },true)

/-- `LocTimerDelegate::expire`. -/
def delegateExpire (s : Container) (timer : Delegate) : Container :=
  match s.mClient timer.id with
  | none => s
  | some client =>
    match stop s client with
    | (s,true) => { s with fired := s.fired ++ [(timer,s.now)] }
    | (s,false) => s

/-- `timerfd_settime`: a zero value disarms. -/
def timerfdSettime (s : Container) (itValue : Timespec) : Container :=
  { s with armed := if itValue = ⟨0,0⟩ then none else some itValue }

/-- The decision of `updateSoonestTime`; its system calls are the next steps of the MsgTask. -/
def updateSoonestTime (s : Container) (priorTop : Option Delegate) : Container :=
  if s.heap.peek = priorTop then s
  else
    match s.heap.peek, priorTop with
    | none, _ => { s with task := .removePoll }
    | some curTop, none => { s with task := .addPoll curTop.mFutureTime }
    | some curTop, some prior =>
      if outRanks curTop prior then { s with task := .addPoll curTop.mFutureTime } else s

/-- `MsgTimerPush::proc`. -/
def procPush (s : Container) (timer : Delegate) : Container :=
  updateSoonestTime { s with heap := s.heap.push outRanks timer } s.heap.peek

/-- `MsgTimerRemove::proc`. The soonest time is updated when what was removed is
the prior top, and also when both are NULL. -/
def procRemove (s : Container) (timer : Delegate) : Container :=
  match s.heap.remove outRanks timer with
  | some heap =>
    if s.heap.peek = some timer then updateSoonestTime { s with heap := heap } none
    else { s with heap := heap }
  | none => if s.heap.peek = none then updateSoonestTime s none else s

/-- The loop of `MsgTimerExpire::proc` after its first pop: `popIfOutRanks`
pops while the time of now does not outrank the top. -/
def expireLoop (timerOfNow : Delegate) : ℕ → Container → Container
  | 0, s => s
  | n+1, s =>
    match s.heap.peek with
    | none => s
    | some timer =>
      if outRanks timerOfNow timer then s
      else
        expireLoop timerOfNow n
          (delegateExpire { s with heap := s.heap.pop outRanks } timer)

/-- `MsgTimerExpire::proc`: the first pop is unconditional. -/
def procExpire (s : Container) : Container :=
  match s.heap.peek with
  | none => updateSoonestTime s none
  | some timer =>
    let timerOfNow : Delegate := ⟨s.nextId,s.now⟩
    let popped := delegateExpire { s with heap := s.heap.pop outRanks } timer
    updateSoonestTime (expireLoop timerOfNow s.heap.toList.length popped) none

def proc (s : Container) : LocMsg → Container
  | .push timer => procPush s timer
  | .remove timer => procRemove s timer
  | .expire => procExpire s

inductive Action
  | tick (now : Timespec)
  | start (client timeOutInMs : ℕ)
  | stop (client : ℕ)
  | pollWake | pollDisarm | pollRemove | pollSend
  | msgProc | msgAddPoll | msgRemovePoll | msgSetTime
  deriving DecidableEq

/-- One step of the clock, a client, the poll thread or the MsgTask. -/
def step (s : Container) : Action → Option Container
  | .tick now => if s.now ≤ now then some { s with now := now } else none
  | .start client timeOutInMs => some (start s client timeOutInMs)
  | .stop client => some (stop s client).1
  | .pollWake =>
    match s.poll, s.registered, s.armed with
    | .waiting, true, some t => if t ≤ s.now then some { s with poll := .woken } else none
    | _, _, _ => none
  | .pollDisarm =>
    if s.poll = .woken then some { timerfdSettime s ⟨0,0⟩ with poll := .disarmed } else none
  | .pollRemove =>
    if s.poll = .disarmed then some { s with registered := false, poll := .removed } else none
  | .pollSend =>
    if s.poll = .removed then some { s with queue := s.queue ++ [.expire], poll := .waiting }
    else none
  | .msgProc =>
    match s.task, s.queue with
    | .idle, msg :: rest => some (proc { s with queue := rest } msg)
    | _, _ => none
  | .msgAddPoll =>
    match s.task with
    | .addPoll soonest => some { s with registered := true, task := .setTime soonest }
    | _ => none
  | .msgRemovePoll =>
    match s.task with
    | .removePoll => some { s with registered := false, task := .setTime ⟨0,0⟩ }
    | _ => none
  | .msgSetTime =>
    match s.task with
    | .setTime itValue => some { timerfdSettime s itValue with task := .idle }
    | _ => none

/-- What each action needs and what it does. -/
def Effect (s t : Container) : Action → Prop
  | .tick now => s.now ≤ now ∧ t = { s with now := now }
  | .start client timeOutInMs => t = start s client timeOutInMs
  | .stop client => t = (stop s client).1
  | .pollWake => s.registered = true ∧ (∃ time, s.armed = some time ∧ time ≤ s.now) ∧
      t = { s with poll := .woken }
  | .pollDisarm => s.poll = .woken ∧ t = { s with armed := none,poll := .disarmed }
  | .pollRemove => s.poll = .disarmed ∧ t = { s with registered := false,poll := .removed }
  | .pollSend => s.poll = .removed ∧ t = { s with queue := s.queue ++ [.expire],poll := .waiting }
  | .msgProc => ∃ msg rest, s.task = .idle ∧ s.queue = msg :: rest ∧
      t = proc { s with queue := rest } msg
  | .msgAddPoll => ∃ time, s.task = .addPoll time ∧
      t = { s with registered := true,task := .setTime time }
  | .msgRemovePoll => s.task = .removePoll ∧
      t = { s with registered := false,task := .setTime ⟨0,0⟩ }
  | .msgSetTime => ∃ time, s.task = .setTime time ∧
      t = { timerfdSettime s time with task := .idle }

theorem step_effect {s t : Container} {a : Action} (h : step s a = some t) : Effect s t a := by
  cases a with
  | start | stop => simpa [step,Effect] using h.symm
  | tick | pollDisarm | pollRemove | pollSend =>
    simp only [step] at h
    split at h
    · exact ⟨‹_›,by simpa [timerfdSettime] using h.symm⟩
    · cases h
  | pollWake =>
    simp only [step] at h
    split at h
    · split at h
      · exact ⟨‹_›,⟨_,‹_›,‹_›⟩,by simpa using h.symm⟩
      · cases h
    · cases h
  | msgProc =>
    simp only [step] at h
    split at h
    · exact ⟨_,_,‹_›,‹_›,by simpa using h.symm⟩
    · cases h
  | msgAddPoll | msgSetTime =>
    simp only [step] at h
    split at h
    · exact ⟨_,‹_›,by simpa using h.symm⟩
    · cases h
  | msgRemovePoll =>
    simp only [step] at h
    split at h
    · exact ⟨‹_›,by simpa using h.symm⟩
    · cases h

end LocTimer
end Kitakami

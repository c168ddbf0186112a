import Kitakami.Base.Monitor

/-!
# A thread and the object it shares with its creator

`LocThread.cpp`: the client that starts a thread and the thread itself share a
`LocThreadDelegate`. Each gives up its reference when it is through, and the
last one deletes the object. The client may stop the thread at any time; the
flag for it is the pointer to the runnable, which the two read and write without
a lock. Each read, write, call and critical section is one step, and the steps
of the two interleave.
-/

namespace Kitakami
namespace LocThread

open Runs Monitor

/-- `LocThreadDelegate`; `mRunnable` says whether the pointer is not null. -/
structure Delegate where
  mRunnable : Bool
  mJoinable : Bool
  mRefCount : ℤ
  deriving DecidableEq

/-- Where a party is in `destroy`: before the test of the count, before the critical section, and
before `delete this`. -/
inductive Destroy
  | check
  | count
  | delete
  deriving DecidableEq

inductive Client
  | idle
  /-- The members are set, the thread is not created. -/
  | constructed
  /-- `create` is about to see whether the thread runs. -/
  | checking
  /-- `create` destroys the delegate. -/
  | dropping (d : Destroy)
  /-- `start` has returned true. -/
  | running
  | stopCalled
  /-- `mRunnable` is null. -/
  | stopping
  | joining
  | leaving (d : Destroy)
  /-- `start` has returned false. -/
  | refused
  | left
  deriving DecidableEq

/-- Where the thread is in `threadMain`. -/
inductive Spawned
  | unborn
  | entry
  | testPrerun
  | prerun
  | testRun
  | run
  | testPostrun
  | postrun
  | clear
  | deleteRunnable
  | leaving (d : Destroy)
  | ended
  deriving DecidableEq

inductive Event
  | started (ok : Bool)
  | prerun
  | run (again : Bool)
  | postrun
  | deleted
  | stopped
  | joined
  | freed
  deriving DecidableEq

/-- `delegate` is what the memory of the delegate holds while it is allocated, `runnable` whether the
runnable exists. -/
structure State where
  delegate : Option Delegate := none
  runnable : Bool := true
  client : Client := .idle
  spawned : Spawned := .unborn
  log : List Event := []
  deriving DecidableEq

namespace State

def enter (s : State) (e : Event) : State := { s with log := s.log ++ [e] }

/-- One step of `destroy`, and the next one, if any. -/
def destroy (s : State) (at_ : Destroy) : Option (State × Option Destroy) := do
  let d ← s.delegate
  match at_ with
  | .check => return (s,if d.mRefCount > 0 then some .count else none)
  | .count =>
    return ({ s with delegate := some { d with mRefCount := d.mRefCount - 1 } },
      if d.mRefCount = 1 then some .delete else none)
  | .delete => return ({ s with delegate := none }.enter .freed,none)

/-- `LocThread::start` with a runnable, up to the creation of the thread. -/
def start (s : State) (joinable : Bool) : Option State :=
  match s.client with
  | .idle => some { s with delegate := some ⟨true,joinable,2⟩, client := .constructed }
  | _ => none

/-- The creation of the thread in the constructor. -/
def create (s : State) (ok : Bool) : Option State :=
  match s.client with
  | .constructed => do
    let _ ← s.delegate
    if ok then return { s with client := .checking, spawned := .entry }
    else return { s with client := .checking, delegate := some ⟨false,false,1⟩ }
  | _ => none

/-- `LocThread::stop` begins. -/
def stop (s : State) : Option State :=
  match s.client with
  | .running => some { s with client := .stopCalled }
  | _ => none

/-- `LocThread::~LocThread` calls `bye`. -/
def bye (s : State) : Option State :=
  match s.client with
  | .running => do
    let d ← s.delegate
    return { s with client := if d.mJoinable then .stopCalled else .leaving .check }
  | _ => none

/-- The client goes on. -/
def clientStep (s : State) : Option State :=
  match s.client with
  | .checking => do
    let d ← s.delegate
    if d.mRunnable then return { s with client := .running }.enter (.started true)
    else return { s with client := .dropping .check }
  | .dropping at_ => do
    match ← s.destroy at_ with
    | (s,some next) => return { s with client := .dropping next }
    | (s,none) => return { s with client := .refused }.enter (.started false)
  | .stopCalled => do
    let d ← s.delegate
    return { s with delegate := some { d with mRunnable := false }, client := .stopping }.enter
      .stopped
  | .stopping => do
    let d ← s.delegate
    if d.mJoinable then
      return { s with delegate := some { d with mJoinable := false }, client := .joining }
    else return { s with client := .leaving .check }
  | .joining =>
    if s.spawned = .ended then some ({ s with client := .leaving .check }.enter .joined) else none
  | .leaving at_ => do
    match ← s.destroy at_ with
    | (s,some next) => return { s with client := .leaving next }
    | (s,none) => return { s with client := .left }
  | _ => none

/-- The thread goes on in `threadMain`; `again` is what `run` returns. -/
def spawnedStep (s : State) (again : Bool) : Option State :=
  match s.spawned with
  | .unborn => none
  | .entry => do
    let d ← s.delegate
    return { s with spawned := if d.mRunnable then .testPrerun else .leaving .check }
  | .testPrerun => do
    let d ← s.delegate
    return { s with spawned := if d.mRunnable then .prerun else .testRun }
  | .prerun => if s.runnable then some ({ s with spawned := .testRun }.enter .prerun) else none
  | .testRun => do
    let d ← s.delegate
    return { s with spawned := if d.mRunnable then .run else .testPostrun }
  | .run =>
    if s.runnable then
      some ({ s with spawned := if again then .testRun else .testPostrun }.enter (.run again))
    else none
  | .testPostrun => do
    let d ← s.delegate
    return { s with spawned := if d.mRunnable then .postrun else .clear }
  | .postrun => if s.runnable then some ({ s with spawned := .clear }.enter .postrun) else none
  | .clear => do
    let d ← s.delegate
    return { s with delegate := some { d with mRunnable := false }, spawned := .deleteRunnable }
  | .deleteRunnable =>
    if s.runnable then
      some ({ s with runnable := false, spawned := .leaving .check }.enter .deleted)
    else none
  | .leaving at_ => do
    match ← s.destroy at_ with
    | (s,some next) => return { s with spawned := .leaving next }
    | (s,none) => return { s with spawned := .ended }
  | .ended => none

end State

inductive Action
  | start (joinable : Bool)
  | create (ok : Bool)
  | stop
  | bye
  | client
  | spawned (again : Bool)
  deriving DecidableEq

def step (s : State) : Action → Option State
  | .start joinable => s.start joinable
  | .create ok => s.create ok
  | .stop => s.stop
  | .bye => s.bye
  | .client => s.clientStep
  | .spawned again => s.spawnedStep again

/-- The client and the thread are where the action begins; a join waits for the end of the thread. -/
def Due (s : State) : Action → Prop
  | .start _ => s.client = .idle
  | .create _ => s.client = .constructed
  | .stop | .bye => s.client = .running
  | .client => s.client ∉ [.idle,.constructed,.running,.refused,.left] ∧
      (s.client = .joining → s.spawned = .ended)
  | .spawned _ => s.spawned ≠ .unborn ∧ s.spawned ≠ .ended

instance (s : State) : ∀ a, Decidable (Due s a)
  | .start _ => inferInstanceAs (Decidable (s.client = .idle))
  | .create _ => inferInstanceAs (Decidable (s.client = .constructed))
  | .stop | .bye => inferInstanceAs (Decidable (s.client = .running))
  | .client => inferInstanceAs (Decidable (_ ∧ (s.client = .joining → s.spawned = .ended)))
  | .spawned _ => inferInstanceAs (Decidable (_ ∧ _))

end LocThread
end Kitakami

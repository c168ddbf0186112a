import Kitakami.Gps.LocThreadRuns
import Kitakami.Gps.MsgQ

/-!
# A thread that works off a message queue

`MsgTask.cpp`: a task is the runnable of a thread and owns a message queue. Its
steps are those of the thread, in which `run` takes a message from the queue and
handles it, those of the clients that send, and those of `destroy`. The thread
deletes the task when it is through.
-/

namespace Kitakami
namespace MsgTask

open Runs

/-- Where the thread is in `run`. -/
inductive Turn (M : Type)
  | entering
  | waiting
  | handling (msg : M)

/-- Where the owner is in `destroy`: the queue is unblocked, the pointer to the thread is null, and
all is done. -/
inductive Owner
  | idle
  | unblocked
  | nulled
  | done
  deriving DecidableEq

/-- `thread.runnable` says whether the thread has deleted the task, `deleted` whether its owner has.
`handled` and `flushed` are the messages whose `proc` was called and those that were deleted
without. -/
structure State (M : Type) where
  thread : LocThread.State := {}
  mQ : MsgQueue.MsgQ M := {}
  turn : Turn M := .entering
  owner : Owner := .idle
  deleted : Bool := false
  handled : List M := []
  flushed : List M := []

variable {M : Type}

namespace State

/-- The task is allocated. -/
def alive (s : State M) : Bool := s.thread.runnable && !s.deleted

/-- `MsgTask::~MsgTask`. -/
def flush (s : State M) : Option (State M) :=
  s.mQ.msgQFlush.map fun q => {s with mQ := q, flushed := s.flushed ++ s.mQ.messages}

/-- A step of the constructor or of the thread, but for those in `run`. -/
def threadStep (s : State M) (a : LocThread.Action) : Option (State M) := do
  let thread ← LocThread.step s.thread a
  match a with
  | .start _ | .create _ | .client => return {s with thread := thread}
  -- the thread is stopped by the destructor of its `LocThread` only
  | .stop | .bye => none
  | .spawned _ =>
    match s.thread.spawned with
    | .run => none
    | .deleteRunnable => ({s with thread := thread} : State M).flush
    | _ => return {s with thread := thread}

/-- What comes of a step of `msg_q_rcv`: it waits, returns a message, or fails and `run` returns
false. -/
def received (s : State M) (q : MsgQueue.MsgQ M) : Option (State M) :=
  match q.log.drop s.mQ.log.length with
  | [] => some {s with mQ := q, turn := .waiting}
  | .received _ msg::_ => some {s with mQ := q, turn := .handling msg}
  | _ => do
    let thread ← s.thread.spawnedStep false
    return {s with mQ := q, thread := thread, turn := .entering}

def run (s : State M) : Option (State M) :=
  match s.thread.spawned,s.turn with
  | .run,.entering =>
    if s.alive then (s.mQ.msgQRcv 0 true).bind s.received else none
  | .run,.waiting =>
    if s.alive then (s.mQ.wake 0).bind s.received else none
  | .run,.handling msg => do
    let thread ← s.thread.spawnedStep true
    return {s with thread := thread, turn := .entering, handled := s.handled ++ [msg]}
  | _,_ => none

/-- What happens to the message is in the log of the queue. -/
def sendMsg (s : State M) (msg : M) (malloc : LinkedList.Ptr) : Option (State M) :=
  if s.alive then (s.mQ.msgQSnd (some msg) true malloc).map fun q => {s with mQ := q} else none

/-- `destroy`, once the constructor is done: each of its accesses to the task and `delete thread`. -/
def destroy (s : State M) : Option (State M) :=
  match s.owner with
  | .idle =>
    if s.thread.client = .running ∨ s.thread.client = .refused then
      if s.alive then some {s with mQ := s.mQ.msgQUnblock, owner := .unblocked} else none
    else none
  | .unblocked =>
    if s.alive then
      if s.thread.client = .running then some {s with owner := .nulled}
      else ({s with deleted := true, owner := .done} : State M).flush
    else none
  | .nulled => s.thread.bye.map fun thread => {s with thread := thread, owner := .done}
  | .done => none

end State

inductive Action (M : Type)
  | thread (a : LocThread.Action)
  | run
  | sendMsg (msg : M) (malloc : LinkedList.Ptr)
  | destroy

def step (s : State M) : Action M → Option (State M)
  | .thread a => s.threadStep a
  | .run => s.run
  | .sendMsg msg malloc => s.sendMsg msg malloc
  | .destroy => s.destroy

/-- `malloc` returns memory that is not in use. -/
def Fresh (s : State M) : Action M → Prop
  | .sendMsg msg malloc => MsgQueue.Fresh s.mQ (.snd (some msg) true malloc)
  | _ => True

instance (s : State M) : ∀ a, Decidable (Fresh s a)
  | .sendMsg msg malloc => inferInstanceAs (Decidable (MsgQueue.Fresh s.mQ (.snd (some msg) true malloc)))
  | .thread _ | .run | .destroy => isTrue trivial

end MsgTask
end Kitakami

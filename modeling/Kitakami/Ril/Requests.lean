import Kitakami.Base.Chain
import Kitakami.Base.Monitor

/-!
# The pending requests of the RIL daemon

A request is allocated and listed when a client makes it, and the vendor library
gets its address as the token. Any thread of the library may acknowledge or
complete any token at any time. The mutex covers the list only: what a thread
does with the block after it has left the list runs in between the steps of the
others. A token may be stale, so its block may be free or in use for another
request; a free block holds anything.
-/

namespace Kitakami
namespace Ril

open Chain Runs Monitor

namespace Pending

/-- The address of a `RequestInfo`. -/
abbrev Addr := ℕ

/-- `s_pendingRequests` and those of the other sockets. -/
inductive Hook
  | pendingRequests
  | pendingRequestsSocket2
  | pendingRequestsSocket3
  | pendingRequestsSocket4
  deriving DecidableEq

/-- `RequestInfo`; `pCI` is the index into `s_commands`. -/
structure RequestInfo where
  token : ℤ
  pCI : ℤ
  pNext : Option Addr
  cancelled : ℤ
  isLocal : ℤ
  socketId : ℤ
  wasAckSent : ℤ
  deriving DecidableEq

/-- What a thread still has to do with a block, after it has left the mutex. `P` is the errno and
the payload of a completion. -/
inductive Thread (P : Type)
  | idle
  /-- `RIL_onRequestAck` has marked the request with this number. -/
  | acked (a : Addr) (n : ℕ)
  /-- `RIL_onRequestComplete` has taken the request out. -/
  | dequeued (a : Addr) (response : P)
  | responded (a : Addr)

/-- What has happened to the requests, which are numbered as they were added. -/
inductive Entry (P : Type)
  | added (n : ℕ) (socketId token request : ℤ)
  | acked (n : ℕ)
  | acknowledged (n : ℕ) (socketId token : ℤ)
  | completed (n : ℕ) (response : P)
  | grabPartialWakeLock (n : ℕ)
  | answered (n : ℕ) (request socketId responseType token : ℤ) (response : P)

/-- `number` says for which request a block was last allocated, `count` how many there have been. -/
structure State (T P : Type) where
  mem : Addr → RequestInfo
  allocated : Finset Addr := ∅
  hooks : Hook → Option Addr := fun _ => none
  threads : T → Thread P := fun _ => .idle
  number : Addr → ℕ := fun _ => 0
  count : ℕ := 0
  log : List (Entry P) := []

/-- The constants of a build: `SIM_COUNT`, `s_callbacks.version` and the number of `s_commands`. -/
structure Build where
  simCount : ℕ
  version : ℤ
  numCommands : ℤ

variable {T P : Type} [DecidableEq T]

/-- The list that `addRequestToList` uses. -/
def Build.addHook (b : Build) (socketId : ℤ) : Hook :=
  if b.simCount ≥ 2 then
    if socketId = 1 then .pendingRequestsSocket2
    else if b.simCount ≥ 3 ∧ socketId = 2 then .pendingRequestsSocket3
    else if b.simCount ≥ 4 ∧ socketId = 3 then .pendingRequestsSocket4
    else .pendingRequests
  else .pendingRequests

/-- The list that `checkAndDequeueRequestInfoIfAck` uses. -/
def Build.dequeueHook (b : Build) (socketId : ℤ) : Hook :=
  let hook := Hook.pendingRequests
  if b.simCount ≥ 2 then
    let hook := if socketId = 1 then .pendingRequestsSocket2 else hook
    let hook := if b.simCount ≥ 3 ∧ socketId = 2 then .pendingRequestsSocket3 else hook
    if b.simCount ≥ 4 ∧ socketId = 3 then .pendingRequestsSocket4 else hook
  else hook

namespace State

/-- The pointers that the lists are made of. -/
def cells (s : State T P) : Cell Hook Addr → Option Addr
  | .head h => s.hooks h
  | .link a => (s.mem a).pNext

def setMem (s : State T P) (a : Addr) (r : RequestInfo) : State T P :=
  { s with mem := Function.update s.mem a r }

def setCell (s : State T P) (c : Cell Hook Addr) (q : Option Addr) : State T P :=
  match c with
  | .head h => { s with hooks := Function.update s.hooks h q }
  | .link a => s.setMem a { s.mem a with pNext := q }

def setThread (s : State T P) (t : T) (th : Thread P) : State T P :=
  { s with threads := Function.update s.threads t th }

def enter (s : State T P) (es : List (Entry P)) : State T P := { s with log := s.log ++ es }

/-- `alloc` is what `calloc` returns: a block that is not in use, if any. -/
def addRequestToList (b : Build) (serial slotId request : ℤ) (alloc : Option Addr)
    (s : State T P) : Option (State T P) :=
  if request ≥ b.numCommands then some s
  else match alloc with
    | none => some s
    | some pRI =>
      if pRI ∈ s.allocated then none
      else
        let s := { s with allocated := insert pRI s.allocated }
        let s := s.setMem pRI ⟨serial,request,none,0,0,slotId,0⟩
        let s := { s with number := Function.update s.number pRI s.count, count := s.count + 1 }
        let s := s.enter [.added (s.number pRI) slotId serial request]
        let hook := b.addHook slotId
        let s := s.setCell (.link pRI) (s.cells (.head hook))
        some (s.setCell (.head hook) (some pRI))

/-- The state after the mutex is released and what is returned. There are no more blocks in a list
than there are in use. -/
def checkAndDequeueRequestInfoIfAck (b : Build) (pRI : Option Addr) (isAck : Bool)
    (s : State T P) : Option (State T P × Bool) :=
  match pRI with
  | none => some (s,false)
  | some pRI =>
    let hook := b.dequeueHook (s.mem pRI).socketId
    match locate (pRI == ·) s.cells (s.allocated.card + 1) (.head hook) with
    | none => none
    | some none => some (s,false)
    | some (some (ppCur,cur)) =>
      if isAck then
        if (s.mem pRI).wasAckSent = 1 then some (s,true)
        else some (s.setMem pRI { s.mem pRI with wasAckSent := 1 },true)
      else some (s.setCell ppCur (s.cells (.link cur)),true)

/-- `RIL_onRequestAck` up to the end of the mutex. -/
def onRequestAck (b : Build) (t : T) (token : Option Addr) (s : State T P) : Option (State T P) :=
  match s.threads t with
  | .idle => do
    let (s,ret) ← s.checkAndDequeueRequestInfoIfAck b token true
    match ret,token with
    | true,some pRI =>
      return (s.setThread t (.acked pRI (s.number pRI))).enter [.acked (s.number pRI)]
    | _,_ => return s
  | _ => none

/-- The rest of `RIL_onRequestAck`. -/
def acknowledgeRequest (t : T) (s : State T P) : Option (State T P) :=
  match s.threads t with
  | .acked pRI n =>
    let s := s.setThread t .idle
    let r := s.mem pRI
    if r.cancelled = 0 then some (s.enter [.acknowledged n r.socketId r.token]) else some s
  | _ => none

/-- `RIL_onRequestComplete` up to the end of the mutex. -/
def onRequestComplete (b : Build) (t : T) (token : Option Addr) (response : P) (s : State T P) :
    Option (State T P) :=
  match s.threads t with
  | .idle => do
    let (s,ret) ← s.checkAndDequeueRequestInfoIfAck b token false
    match ret,token with
    | true,some pRI =>
      return (s.setThread t (.dequeued pRI response)).enter [.completed (s.number pRI) response]
    | _,_ => return s
  | _ => none

/-- `RIL_onRequestComplete` up to `free`. A response type of 3 is `RESPONSE_SOLICITED_ACK_EXP`, one
of 0 is `RESPONSE_SOLICITED`. -/
def respond (b : Build) (t : T) (s : State T P) : Option (State T P) :=
  match s.threads t with
  | .dequeued pRI response =>
    let s := s.setThread t (.responded pRI)
    let r := s.mem pRI
    let n := s.number pRI
    if r.isLocal > 0 then some s
    else if r.cancelled = 0 then
      if b.version ≥ 13 ∧ r.wasAckSent = 1 then
        some (s.enter [.grabPartialWakeLock n,.answered n r.pCI r.socketId 3 r.token response])
      else some (s.enter [.answered n r.pCI r.socketId 0 r.token response])
    else some s
  | _ => none

/-- `free(pRI)`; undefined for a block that is not in use. -/
def free (t : T) (junk : RequestInfo) (s : State T P) : Option (State T P) :=
  match s.threads t with
  | .responded pRI =>
    if pRI ∈ s.allocated then
      let s := s.setThread t .idle
      some ({ s with allocated := s.allocated.erase pRI }.setMem pRI junk)
    else none
  | _ => none

end State

inductive Action (T P : Type)
  | add (serial slotId request : ℤ) (alloc : Option Addr)
  | ack (t : T) (token : Option Addr)
  | acknowledge (t : T)
  | complete (t : T) (token : Option Addr) (response : P)
  | respond (t : T)
  | free (t : T) (junk : RequestInfo)
  /-- Somebody else uses a block that is free here. -/
  | scribble (a : Addr) (junk : RequestInfo)

def step (b : Build) (s : State T P) : Action T P → Option (State T P)
  | .add serial slotId request alloc => s.addRequestToList b serial slotId request alloc
  | .ack t token => s.onRequestAck b t token
  | .acknowledge t => s.acknowledgeRequest t
  | .complete t token response => s.onRequestComplete b t token response
  | .respond t => s.respond b t
  | .free t junk => s.free t junk
  | .scribble a junk => if a ∈ s.allocated then none else some (s.setMem a junk)

/-- The state before the first request. -/
def start (mem : Addr → RequestInfo) : State T P where
  mem := mem

/-- The threads are where the action begins, and the memory is what the action needs. -/
def Enabled (s : State T P) : Action T P → Prop
  | .add _ _ _ alloc => ∀ a ∈ alloc, a ∉ s.allocated
  | .ack t _ => s.threads t = .idle
  | .acknowledge t => ∃ a n, s.threads t = .acked a n
  | .complete t _ _ => s.threads t = .idle
  | .respond t => ∃ a response, s.threads t = .dequeued a response
  | .free t _ => ∃ a, s.threads t = .responded a
  | .scribble a _ => a ∉ s.allocated

/-- The thread has taken the block out of its list and not freed it yet. -/
def Thread.Owns (th : Thread P) (a : Addr) : Prop :=
  (∃ response, th = .dequeued a response) ∨ th = .responded a

end Pending
end Ril
end Kitakami

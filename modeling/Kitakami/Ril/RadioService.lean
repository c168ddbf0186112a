import Kitakami.Base.RwLock
import Kitakami.Base.Monitor
import Kitakami.Ril.Requests

/-!
# The client of a radio service

The framework registers its callback objects with `setResponseFunctions`, and
threads of the vendor library call them. The process behind the objects may die
at any time, and `checkReturnStatus` then drops them: it gives up the lock of
its caller, takes it for writing, and compares a counter to see whether others
have been registered meanwhile. A section under the write lock is one step; all
others interleave.
-/

namespace Kitakami
namespace Ril

open Runs Monitor

namespace Radio

/-- `radioServiceRwlock` and the others. -/
inductive Lock
  | radioServiceRwlock
  | radioServiceRwlock2
  | radioServiceRwlock3
  | radioServiceRwlock4
  deriving DecidableEq

/-- The slots count from 0, so the first two share a lock. -/
def getRadioServiceRwlock (b : Pending.Build) (slotId : ℤ) : Lock :=
  let lock := Lock.radioServiceRwlock
  if b.simCount ≥ 2 then
    let lock := if slotId = 2 then .radioServiceRwlock2 else lock
    if b.simCount ≥ 3 then
      let lock := if slotId = 3 then .radioServiceRwlock3 else lock
      if b.simCount ≥ 4 then
        if slotId = 4 then .radioServiceRwlock4 else lock
      else lock
    else lock
  else lock

/-- `RadioImpl` and `OemHookImpl`. -/
inductive Service
  | radio
  | oemHook
  deriving DecidableEq

/-- The objects that a service keeps; `OemHookImpl` has the first two only. -/
structure Callbacks (C : Type) where
  response : Option C := none
  indication : Option C := none
  responseV1_1 : Option C := none
  indicationV1_1 : Option C := none

/-- Which of its objects a service calls. -/
inductive Kind
  | response
  | indication
  | responseV1_1
  | indicationV1_1

def Callbacks.get {C : Type} (cb : Callbacks C) : Kind → Option C
  | .response => cb.response
  | .indication => cb.indication
  | .responseV1_1 => cb.responseV1_1
  | .indicationV1_1 => cb.indicationV1_1

/-- A service of a slot, with its `mCounterRadio` or `mCounterOemHook`. -/
structure Impl (C : Type) where
  callbacks : Callbacks C := {}
  counter : ℤ := 0

/-- Where a thread is. `hold` is how it took the lock of the slot, if it did. -/
inductive Thread
  | idle
  /-- In a response or an indication function. -/
  | inside (slot : ℤ) (hold : Option Hold)
  | calling (service : Service) (slot : ℤ) (hold : Option Hold)
  /-- In `checkReturnStatus` of a call that is not ok. -/
  | failed (service : Service) (slot : ℤ) (hold : Option Hold)
  /-- It has noted the counter and released the lock. -/
  | released (service : Service) (slot : ℤ) (counter : ℤ)
  /-- It has released the write lock. -/
  | reset (service : Service) (slot : ℤ)

inductive Entry (T C : Type)
  | registered (service : Service) (slot : ℤ) (callbacks : Callbacks C)
  | called (t : T) (service : Service) (slot : ℤ) (kind : Kind) (object : C)
  | failed (t : T)
  | reset (t : T) (service : Service) (slot : ℤ)
  | checked (t : T)

structure State (T C : Type) where
  locks : Lock → RwLock T := fun _ => {}
  impls : Service → ℤ → Impl C := fun _ _ => {}
  threads : T → Thread := fun _ => .idle
  log : List (Entry T C) := []

variable {T C : Type} [DecidableEq T]

/-- `++` on an `int32_t`; the build traps an overflow. -/
def increment (counter : ℤ) : Option ℤ := if counter < 2 ^ 31 - 1 then some (counter + 1) else none

namespace State

def setThread (s : State T C) (t : T) (th : Thread) : State T C :=
  { s with threads := Function.update s.threads t th }

def setImpl (s : State T C) (service : Service) (slot : ℤ) (i : Impl C) : State T C :=
  { s with impls := Function.update s.impls service (Function.update (s.impls service) slot i) }

def setLock (s : State T C) (k : Lock) (l : RwLock T) : State T C :=
  { s with locks := Function.update s.locks k l }

def enter (s : State T C) (e : Entry T C) : State T C := { s with log := s.log ++ [e] }

/-- What both `setResponseFunctions` do under the write lock. -/
def register (b : Pending.Build) (service : Service) (slot : ℤ) (callbacks : Callbacks C)
    (s : State T C) : Option (State T C) :=
  if (s.locks (getRadioServiceRwlock b slot)).Free then do
    let counter ← increment (s.impls service slot).counter
    return (s.setImpl service slot ⟨callbacks,counter⟩).enter (.registered service slot callbacks)
  else none

/-- `RadioImpl::setResponseFunctions`; the last two are what the objects cast to. -/
def setResponseFunctions (b : Pending.Build) (slot : ℤ)
    (radioResponse radioIndication radioResponseV1_1 radioIndicationV1_1 : Option C)
    (s : State T C) : Option (State T C) :=
  let callbacks := { response := radioResponse, indication := radioIndication }
  if radioResponseV1_1.isNone ∨ radioIndicationV1_1.isNone then s.register b .radio slot callbacks
  else
    s.register b .radio slot { callbacks with
      responseV1_1 := radioResponseV1_1
      indicationV1_1 := radioIndicationV1_1 }

/-- `OemHookImpl::setResponseFunctions`. -/
def setOemHookFunctions (b : Pending.Build) (slot : ℤ) (oemHookResponse oemHookIndication : Option C)
    (s : State T C) : Option (State T C) :=
  s.register b .oemHook slot { response := oemHookResponse, indication := oemHookIndication }

/-- A caller of the functions of a slot takes its lock, as `RIL_onRequestComplete`,
`RIL_onRequestAck`, `resendLastNITZTimeData` and, for `RIL_UNSOL_NITZ_TIME_RECEIVED` with the write
lock, `RIL_onUnsolicitedResponse` do. `sendErrorResponse` takes none. -/
def begin (b : Pending.Build) (t : T) (slot : ℤ) (hold : Option Hold) (s : State T C) :
    Option (State T C) :=
  match s.threads t,hold with
  | .idle,none => some (s.setThread t (.inside slot none))
  | .idle,some h => do
    let k := getRadioServiceRwlock b slot
    let l ← (s.locks k).acquire t h
    return (s.setLock k l).setThread t (.inside slot (some h))
  | _,_ => none

/-- A function of the slot calls an object that is not null. -/
def call (t : T) (service : Service) (kind : Kind) (s : State T C) : Option (State T C) :=
  match s.threads t with
  | .inside slot hold => do
    let object ← (s.impls service slot).callbacks.get kind
    return (s.setThread t (.calling service slot hold)).enter (.called t service slot kind object)
  | _ => none

/-- The call is back; `checkReturnStatus` does nothing about one that is ok. -/
def returned (t : T) (isOk : Bool) (s : State T C) : Option (State T C) :=
  match s.threads t with
  | .calling service slot hold =>
    if isOk then some (s.setThread t (.inside slot hold))
    else some ((s.setThread t (.failed service slot hold)).enter (.failed t))
  | _ => none

/-- `checkReturnStatus` notes the counter and releases the lock of its caller. -/
def unlock (b : Pending.Build) (t : T) (s : State T C) : Option (State T C) :=
  match s.threads t with
  | .failed service slot _ => do
    let counter := (s.impls service slot).counter
    let k := getRadioServiceRwlock b slot
    let l ← (s.locks k).release t
    return (s.setLock k l).setThread t (.released service slot counter)
  | _ => none

/-- What `checkReturnStatus` does under the write lock. -/
def resetFunctions (b : Pending.Build) (t : T) (s : State T C) : Option (State T C) :=
  match s.threads t with
  | .released service slot counter =>
    if (s.locks (getRadioServiceRwlock b slot)).Free then
      if counter = (s.impls service slot).counter then do
        let counter ← increment counter
        return ((s.setImpl service slot ⟨{},counter⟩).setThread t (.reset service slot)).enter
          (.reset t service slot)
      else some (s.setThread t (.reset service slot))
    else none
  | _ => none

/-- `checkReturnStatus` takes the lock for reading and returns. -/
def relock (b : Pending.Build) (t : T) (s : State T C) : Option (State T C) :=
  match s.threads t with
  | .reset _ slot => do
    let k := getRadioServiceRwlock b slot
    let l ← (s.locks k).acquire t .read
    return ((s.setLock k l).setThread t (.inside slot (some .read))).enter (.checked t)
  | _ => none

/-- The caller releases its lock. -/
def finish (b : Pending.Build) (t : T) (s : State T C) : Option (State T C) :=
  match s.threads t with
  | .inside _ none => some (s.setThread t .idle)
  | .inside slot (some _) => do
    let k := getRadioServiceRwlock b slot
    let l ← (s.locks k).release t
    return (s.setLock k l).setThread t .idle
  | _ => none

end State

inductive Action (T C : Type)
  | setResponseFunctions (slot : ℤ)
      (radioResponse radioIndication radioResponseV1_1 radioIndicationV1_1 : Option C)
  | setOemHookFunctions (slot : ℤ) (oemHookResponse oemHookIndication : Option C)
  | begin (t : T) (slot : ℤ) (hold : Option Hold)
  | call (t : T) (service : Service) (kind : Kind)
  | returned (t : T) (isOk : Bool)
  | unlock (t : T)
  | resetFunctions (t : T)
  | relock (t : T)
  | finish (t : T)

def step (b : Pending.Build) (s : State T C) : Action T C → Option (State T C)
  | .setResponseFunctions slot r i r' i' => s.setResponseFunctions b slot r i r' i'
  | .setOemHookFunctions slot r i => s.setOemHookFunctions b slot r i
  | .begin t slot hold => s.begin b t slot hold
  | .call t service kind => s.call t service kind
  | .returned t isOk => s.returned t isOk
  | .unlock t => s.unlock b t
  | .resetFunctions t => s.resetFunctions b t
  | .relock t => s.relock b t
  | .finish t => s.finish b t

/-- The state after `registerService`. -/
def start : State T C := {}

end Radio
end Ril
end Kitakami

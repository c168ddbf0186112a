import Kitakami.Ril.TimerLists

/-!
# The watch table of the RIL event loop

`ril_event.cpp` with its file descriptors: the table of watched events, the set
that `select` gets, and the loop, which queues the expired timers and then the
ready events on the pending list and fires all of them. Other threads and the
callbacks add and remove events between any two steps of the loop, also between
`select` and the walk of the table.
-/

namespace Kitakami
namespace Ril

/-- The timers that an entry of the log says became pending. -/
def Entry.moved {E : Type} : Entry E → List (Node E)
  | .processed _ moved => moved.map Prod.fst
  | _ => []

namespace Watch

/-- `MAX_FD_EVENTS`. -/
abbrev maxFdEvents : ℕ := 8

/-- `FD_SETSIZE`; a descriptor outside must not be put into an `fd_set`. -/
def fdSetSize : ℤ := 1024

/-- Where `ril_event_loop` is, with the descriptors that `select` found ready and its result. -/
inductive Phase
  | select
  | processTimeouts (rfds : Finset ℤ) (n : ℤ)
  | processReadReadies (rfds : Finset ℤ) (n : ℤ)
  | firePending
  | firing
  deriving DecidableEq

/-- `queued` are the events that the loop has put on the pending list so far. -/
structure Loop (E : Type) where
  events : EventLoop E
  watchTable : Fin maxFdEvents → Option E := fun _ => none
  index : E → ℤ
  persist : E → Bool
  readFds : Finset ℤ := ∅
  nfds : ℤ := 0
  phase : Phase := .select
  queued : List (Node E) := []

variable {E : Type} [DecidableEq E]

namespace Loop

def fd (s : Loop E) (ev : E) : ℤ := s.events.fd (.ev ev)

/-- `ril_event_init`. -/
def rilEventInit (s : Loop E) : Loop E :=
  { s with events := s.events.rilEventInit, watchTable := fun _ => none, readFds := ∅ }

/-- `ril_event_set`; the `memset` clears the links too. -/
def rilEventSet (s : Loop E) (ev : E) (fd : ℤ) (persist : Bool) : Loop E :=
  let events := { s.events with
    fd := Function.update s.events.fd (.ev ev) fd
    timeout := Function.update s.events.timeout (.ev ev) ⟨0,0⟩ }
  { s with
    events := (events.setNext (.ev ev) none).setPrev (.ev ev) none
    index := Function.update s.index ev (-1)
    persist := Function.update s.persist ev persist }

/-- `ril_event_add`; a full table leaves the event out. -/
def rilEventAdd (s : Loop E) (ev : E) : Option (Loop E) :=
  match (List.finRange maxFdEvents).find? fun i => (s.watchTable i).isNone with
  | none => some s
  | some i =>
    if 0 ≤ s.fd ev ∧ s.fd ev < fdSetSize then
      some { s with
        watchTable := Function.update s.watchTable i (some ev)
        index := Function.update s.index ev i
        readFds := insert (s.fd ev) s.readFds
        nfds := if s.fd ev ≥ s.nfds then s.fd ev + 1 else s.nfds }
    else none

/-- The largest watched descriptor, as the loop of `removeWatch` finds it. -/
def maxFd (s : Loop E) : ℤ :=
  (List.finRange maxFdEvents).foldl (fun n i =>
    match s.watchTable i with
    | some rev => if s.fd rev > n then s.fd rev else n
    | none => n) 0

def removeWatch (s : Loop E) (ev : E) (index : Fin maxFdEvents) : Loop E :=
  let s := { s with
    watchTable := Function.update s.watchTable index none
    index := Function.update s.index ev (-1)
    readFds := s.readFds.erase (s.fd ev) }
  if s.fd ev + 1 = s.nfds then { s with nfds := s.maxFd + 1 } else s

/-- `ril_event_del`. -/
def rilEventDel (s : Loop E) (ev : E) : Loop E :=
  if h : s.index ev < 0 ∨ s.index ev ≥ maxFdEvents then s
  else s.removeWatch ev ⟨(s.index ev).toNat,by omega⟩

/-- `ril_timer_add` with a timeout. -/
def rilTimerAdd (s : Loop E) (ev : E) (tv now : Timeval) : Option (Loop E) := do
  let events ← s.events.rilTimerAdd ev (some tv) now
  return { s with events := events }

/-- One slot in the loop of `processReadReadies`, when `n` is not 0 yet. -/
def readSlot (rfds : Finset ℤ) (i : Fin maxFdEvents) (n : ℤ) (s : Loop E) : Option (ℤ × Loop E) :=
  match s.watchTable i with
  | none => some (n,s)
  | some rev =>
    if s.fd rev ∈ rfds then do
      let events ← s.events.addToList (.ev rev) .pendingList
      let s := { s with events := events, queued := s.queued ++ [.ev rev] }
      let s := if s.persist rev = false then s.removeWatch rev i else s
      return (n - 1,s)
    else some (n,s)

/-- The loop of `processReadReadies` over the slots that are left. -/
def readSlots (rfds : Finset ℤ) : List (Fin maxFdEvents) → ℤ → Loop E → Option (Loop E)
  | [], _, s => some s
  | i::is, n, s =>
    if n > 0 then do
      let (n,s) ← s.readSlot rfds i n
      readSlots rfds is n s
    else some s

/-- `select` returns; none stands for `EINTR`. -/
def select (s : Loop E) (ready : Option (Finset ℤ)) : Option (Loop E) :=
  match s.phase,ready with
  | .select,none => some s
  | .select,some rfds => some { s with phase := .processTimeouts rfds rfds.card }
  | _,_ => none

def processTimeouts (s : Loop E) (now : Timeval) : Option (Loop E) :=
  match s.phase with
  | .processTimeouts rfds n => do
    let events ← s.events.processTimeouts now
    return { s with
      events := events
      queued := s.queued ++ (events.log.drop s.events.log.length).flatMap Entry.moved
      phase := .processReadReadies rfds n }
  | _ => none

def processReadReadies (s : Loop E) : Option (Loop E) :=
  match s.phase with
  | .processReadReadies rfds n => do
    let s ← readSlots rfds (List.finRange maxFdEvents) n s
    return { s with phase := .firePending }
  | _ => none

/-- `firePending` up to its loop. -/
def firePending (s : Loop E) : Option (Loop E) :=
  match s.phase with
  | .firePending => some { s with events := s.events.firePending, phase := .firing }
  | _ => none

/-- The next round of the loop of `firePending`; behind the last one `select` is called again. -/
def fireNext (s : Loop E) : Option (Loop E) :=
  match s.phase with
  | .firing => do
    let events ← s.events.fireNext
    let phase := if s.events.cursor = some (some .pendingList) then .select else .firing
    return { s with events := events, phase := phase }
  | _ => none

end Loop

inductive Action (E : Type)
  | eventSet (ev : E) (fd : ℤ) (persist : Bool)
  | eventAdd (ev : E)
  | eventDel (ev : E)
  | timerAdd (ev : E) (tv now : Timeval)
  | select (ready : Option (Finset ℤ))
  | processTimeouts (now : Timeval)
  | processReadReadies
  | firePending
  | fireNext

/-- One step; it has no successor where it is not its turn, where it dereferences a null pointer,
writes outside of an `fd_set` or loops for ever. -/
def step (s : Loop E) : Action E → Option (Loop E)
  | .eventSet ev fd persist => some (s.rilEventSet ev fd persist)
  | .eventAdd ev => s.rilEventAdd ev
  | .eventDel ev => some (s.rilEventDel ev)
  | .timerAdd ev tv now => s.rilTimerAdd ev tv now
  | .select ready => s.select ready
  | .processTimeouts now => s.processTimeouts now
  | .processReadReadies => s.processReadReadies
  | .firePending => s.firePending
  | .fireNext => s.fireNext

/-- The event is in no list and not watched. -/
def Idle (s : Loop E) (ev : E) : Prop := s.events.next (.ev ev) = none ∧ s.index ev = -1

instance (s : Loop E) (ev : E) : Decidable (Idle s ev) :=
  inferInstanceAs (Decidable (_ ∧ _))

/-- Events are set up and made timers while they are idle, a descriptor is watched by one event
only, and `select` reports watched descriptors below its bound. -/
def Allowed (s : Loop E) : Action E → Prop
  | .eventSet ev _ _ => Idle s ev
  | .eventAdd ev => s.index ev = -1 ∧ 0 ≤ s.fd ev ∧ s.fd ev < fdSetSize ∧ s.fd ev ∉ s.readFds
  | .timerAdd ev _ _ => Idle s ev
  | .select ready => ∀ rfds ∈ ready, rfds ⊆ s.readFds.filter (· < s.nfds)
  | _ => True

instance (s : Loop E) : ∀ a, Decidable (Allowed s a)
  | .eventSet ev _ _ => inferInstanceAs (Decidable (Idle s ev))
  | .eventAdd _ => inferInstanceAs (Decidable (_ ∧ _ ∧ _ ∧ _))
  | .timerAdd ev _ _ => inferInstanceAs (Decidable (Idle s ev))
  | .select none => isTrue fun _ h => by simp at h
  | .select (some rfds) =>
    decidable_of_iff (rfds ⊆ s.readFds.filter (· < s.nfds)) (by simp [Allowed])
  | .eventDel _ => isTrue trivial
  | .processTimeouts _ => isTrue trivial
  | .processReadReadies => isTrue trivial
  | .firePending => isTrue trivial
  | .fireNext => isTrue trivial

/-- It is the turn of the action in the event loop. -/
def Due (s : Loop E) : Action E → Prop
  | .select _ => s.phase = .select
  | .processTimeouts _ => ∃ rfds n, s.phase = .processTimeouts rfds n
  | .processReadReadies => ∃ rfds n, s.phase = .processReadReadies rfds n
  | .firePending => s.phase = .firePending
  | .fireNext => s.phase = .firing
  | _ => True

end Watch
end Ril
end Kitakami

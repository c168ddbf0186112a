import Kitakami.Base.Circle
import Kitakami.Base.Runs
import Mathlib.Data.Prod.Lex

/-!
# The timers of the RIL event loop

The two intrusive lists of `ril_event.cpp`: `timer_list`, sorted by timeout,
and `pending_list`, whose events are about to fire. Any thread may add a timer,
also a callback while it fires; the event loop moves the expired timers to the
pending list and then fires these one after the other.
-/

namespace Kitakami
namespace Ril

/-- `struct timeval`. -/
structure Timeval where
  tvSec : ℤ
  tvUsec : ℤ
  deriving DecidableEq

namespace Timeval

def usecs (a : Timeval) : ℤ := a.tvSec*1000000 + a.tvUsec

def Normal (a : Timeval) : Prop := 0 ≤ a.tvUsec ∧ a.tvUsec < 1000000

instance (a : Timeval) : Decidable a.Normal :=
  inferInstanceAs (Decidable (0 ≤ a.tvUsec ∧ a.tvUsec < 1000000))

def timeradd (a b : Timeval) : Timeval :=
  let tvSec := a.tvSec + b.tvSec
  let tvUsec := a.tvUsec + b.tvUsec
  if tvUsec ≥ 1000000 then ⟨tvSec + 1,tvUsec - 1000000⟩ else ⟨tvSec,tvUsec⟩

def timersub (a b : Timeval) : Timeval :=
  let tvSec := a.tvSec - b.tvSec
  let tvUsec := a.tvUsec - b.tvUsec
  if tvUsec < 0 then ⟨tvSec - 1,tvUsec + 1000000⟩ else ⟨tvSec,tvUsec⟩

/-- `timercmp(a,b,<)`. -/
def timercmpLt (a b : Timeval) : Bool :=
  if a.tvSec = b.tvSec then decide (a.tvUsec < b.tvUsec) else decide (a.tvSec < b.tvSec)

/-- `timercmp(a,b,>)`. -/
def timercmpGt (a b : Timeval) : Bool :=
  if a.tvSec = b.tvSec then decide (a.tvUsec > b.tvUsec) else decide (a.tvSec > b.tvSec)

/-- The order of `timercmp`. -/
def key (a : Timeval) : ℤ ×ₗ ℤ := toLex (a.tvSec,a.tvUsec)

variable {a b : Timeval}

theorem timercmpLt_iff_key : timercmpLt a b ↔ a.key < b.key := by
  unfold timercmpLt key
  rw [Prod.Lex.toLex_lt_toLex]
  split_ifs with h
  · simp [h]
  · simp [h]

theorem timercmpGt_iff_key : timercmpGt a b ↔ b.key < a.key := by
  unfold timercmpGt key
  rw [Prod.Lex.toLex_lt_toLex]
  split_ifs with h
  · simp [h]
  · simp [Ne.symm h]

theorem timercmpLt_iff (ha : a.Normal) (hb : b.Normal) : timercmpLt a b ↔ a.usecs < b.usecs := by
  obtain ⟨ha₀,ha₁⟩ := ha
  obtain ⟨hb₀,hb₁⟩ := hb
  unfold timercmpLt usecs
  split_ifs <;> simp <;> omega

theorem timercmpGt_iff (ha : a.Normal) (hb : b.Normal) : timercmpGt a b ↔ b.usecs < a.usecs := by
  obtain ⟨ha₀,ha₁⟩ := ha
  obtain ⟨hb₀,hb₁⟩ := hb
  unfold timercmpGt usecs
  split_ifs <;> simp <;> omega

theorem timeradd_usecs (a b : Timeval) : (timeradd a b).usecs = a.usecs + b.usecs := by
  simp only [timeradd,usecs]
  split_ifs <;> simp only <;> omega

theorem timeradd_normal (ha : a.Normal) (hb : b.Normal) : (timeradd a b).Normal := by
  obtain ⟨ha₀,ha₁⟩ := ha
  obtain ⟨hb₀,hb₁⟩ := hb
  simp only [timeradd,Normal]
  split_ifs <;> simp only <;> omega

theorem timersub_usecs (a b : Timeval) : (timersub a b).usecs = a.usecs - b.usecs := by
  simp only [timersub,usecs]
  split_ifs <;> simp only <;> omega

end Timeval

open Timeval

/-- A `ril_event`: one of the two list heads, or an event of a client. -/
inductive Node (E : Type)
  | timerList
  | pendingList
  | ev (e : E)
  deriving DecidableEq

abbrev Ptr (E : Type) := Option (Node E)

/-- What has happened: a timer was added, the clock `now` was compared with the
timers and some moved, a timer was fired when the clock was last read as `clock`. -/
inductive Entry (E : Type)
  | added (e : Node E) (now tv : Timeval)
  | processed (now : Timeval) (moved : List (Node E × Timeval))
  | fired (e : Node E) (timeout clock : Timeval)
  deriving DecidableEq

/-- The events by their fields. `clock` is the last time read, and `cursor` the
variable `ev` of `firePending` while it runs. -/
structure EventLoop (E : Type) where
  next : Node E → Ptr E
  prev : Node E → Ptr E
  fd : Node E → ℤ
  timeout : Node E → Timeval
  clock : Timeval
  cursor : Option (Ptr E) := none
  log : List (Entry E) := []

variable {E : Type} [DecidableEq E]

namespace EventLoop

def setNext (s : EventLoop E) (n : Node E) (p : Ptr E) : EventLoop E :=
  { s with next := Function.update s.next n p }

def setPrev (s : EventLoop E) (n : Node E) (p : Ptr E) : EventLoop E :=
  { s with prev := Function.update s.prev n p }

def initList (s : EventLoop E) (list : Node E) : EventLoop E :=
  let s := { s with timeout := Function.update s.timeout list ⟨0,0⟩ }
  let s := s.setNext list (some list)
  let s := s.setPrev list (some list)
  { s with fd := Function.update s.fd list (-1) }

/-- `ril_event_init`, as far as the two lists go. -/
def rilEventInit (s : EventLoop E) : EventLoop E :=
  (s.initList .timerList).initList .pendingList

def addToList (s : EventLoop E) (ev list : Node E) : Option (EventLoop E) := do
  let s := s.setNext ev (some list)
  let s := s.setPrev ev (s.prev list)
  let p ← s.prev ev
  let s := s.setNext p (some ev)
  return s.setPrev list (some ev)

def removeFromList (s : EventLoop E) (ev : Node E) : Option (EventLoop E) := do
  let n ← s.next ev
  let s := s.setPrev n (s.prev ev)
  let p ← s.prev ev
  let s := s.setNext p (s.next ev)
  let s := s.setNext ev none
  return s.setPrev ev none

/-- The loop of `ril_timer_add`, which compares the timeouts first. Every event
of the list was added before, so the length of the log bounds the walk. -/
def sortedPlace (s : EventLoop E) (ev : Node E) : ℕ → Ptr E → Option (Node E)
  | 0, _ => none
  | fuel+1, list => do
    let n ← list
    if timercmpLt (s.timeout n) (s.timeout ev) && n ≠ .timerList then
      sortedPlace s ev fuel (s.next n)
    else return n

/-- `ril_timer_add`; `now` is what `getNow` reads. -/
def rilTimerAdd (s : EventLoop E) (e : E) (tv : Option Timeval) (now : Timeval) :
    Option (EventLoop E) :=
  match tv with
  | none => some s
  | some tv => do
    let ev := Node.ev e
    let list := s.next .timerList
    let s := { s with fd := Function.update s.fd ev (-1), clock := now }
    let s := { s with timeout := Function.update s.timeout ev (timeradd now tv) }
    let list ← s.sortedPlace ev (s.log.length + 1) list
    let s ← s.addToList ev list
    return { s with log := s.log ++ [.added ev now tv] }

/-- The loop of `processTimeouts`, with the timers it moves. -/
def moveExpired (now : Timeval) : ℕ → Ptr E → EventLoop E →
    Option (List (Node E × Timeval) × EventLoop E)
  | 0, _, _ => none
  | fuel+1, tev, s =>
    if tev = some .timerList then some ([],s)
    else do
      let n ← tev
      if timercmpGt now (s.timeout n) then
        let next := s.next n
        let timeout := s.timeout n
        let s ← s.removeFromList n
        let s ← s.addToList n .pendingList
        let r ← moveExpired now fuel next s
        return ((n,timeout)::r.1,r.2)
      else return ([],s)

def processTimeouts (s : EventLoop E) (now : Timeval) : Option (EventLoop E) := do
  let r ← moveExpired now (s.log.length + 1) (s.next .timerList) { s with clock := now }
  let s := r.2
  return { s with log := s.log ++ [.processed now r.1] }

/-- `firePending` up to its loop. -/
def firePending (s : EventLoop E) : EventLoop E := { s with cursor := some (s.next .pendingList) }

/-- The next round of the loop of `firePending`, up to the call of the callback. -/
def fireNext (s : EventLoop E) : Option (EventLoop E) :=
  match s.cursor with
  | none => some s
  | some ev =>
    if ev = some .pendingList then some { s with cursor := none }
    else do
      let n ← ev
      let next := s.next n
      let s ← s.removeFromList n
      return { s with cursor := some next, log := s.log ++ [.fired n (s.timeout n) s.clock] }

/-- `calcNextTimeout`: the time to wait for, or none without timers. -/
def calcNextTimeout (s : EventLoop E) (now : Timeval) : Option (Option Timeval) :=
  let tev := s.next .timerList
  if tev = some .timerList then some none
  else do
    let n ← tev
    if timercmpGt (s.timeout n) now then return some (timersub (s.timeout n) now)
    else return some ⟨0,0⟩

end EventLoop

/-- A thread adds a timer; the event loop calls `processTimeouts` or
`firePending`, or goes on with the loop of the latter. -/
inductive Op (E : Type)
  | timerAdd (e : E) (tv : Option Timeval) (now : Timeval)
  | processTimeouts (now : Timeval)
  | firePending
  | fireNext
  deriving DecidableEq

/-- One step; it has no successor where it dereferences a null pointer or loops for ever. -/
def step (s : EventLoop E) : Op E → Option (EventLoop E)
  | .timerAdd e tv now => s.rilTimerAdd e tv now
  | .processTimeouts now => s.processTimeouts now
  | .firePending => some s.firePending
  | .fireNext => s.fireNext

end Ril
end Kitakami

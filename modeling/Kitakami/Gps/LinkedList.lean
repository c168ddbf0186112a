import Kitakami.Base.Circle
import Kitakami.Base.Runs

/-!
# Linked lists

`linked_list.c`: a doubly linked list of allocated elements between a head and
a tail pointer. A pointer that is null, or that points to an element which has
been freed, must not be dereferenced; the operations fail where they do so, and
where a loop does not end.
-/

namespace Kitakami
namespace LinkedList

/-- `linked_list_err_type`. -/
inductive Err
  | success | failureGeneral | invalidParameter | invalidHandle | unavailableResource
  | insufficientBuffer
  deriving DecidableEq

abbrev Addr := ℕ

abbrev Ptr := Option Addr

/-- What an element carries: the data pointer, and whether it came with a
deallocation function. -/
structure Item (D : Type) where
  dataPtr : D
  deallocFunc : Bool
  deriving DecidableEq

structure ListElement (D : Type) extends Item D where
  next : Ptr
  prev : Ptr

/-- A `list_state` with the elements that are allocated for it. `allocs` is the
number of elements ever allocated, which bounds the loops, and `dealloced` what
the deallocation functions have been called with. -/
structure ListState (D : Type) where
  pHead : Ptr := none
  pTail : Ptr := none
  heap : Addr → Option (ListElement D) := fun _ => none
  allocs : ℕ := 0
  dealloced : List D := []

variable {D σ : Type}

namespace ListState

def deref (s : ListState D) (p : Ptr) : Option (ListElement D) := p.bind s.heap

def store (s : ListState D) (p : Ptr) (e : ListElement D) : Option (ListState D) := do
  let a ← p
  guard (s.heap a).isSome
  return { s with heap := Function.update s.heap a (some e) }

def setNext (s : ListState D) (p v : Ptr) : Option (ListState D) := do
  let e ← s.deref p
  s.store p { e with next := v }

def setPrev (s : ListState D) (p v : Ptr) : Option (ListState D) := do
  let e ← s.deref p
  s.store p { e with prev := v }

/-- `malloc` has returned `a`. -/
def alloc (s : ListState D) (a : Addr) (e : ListElement D) : ListState D :=
  { s with heap := Function.update s.heap a (some e), allocs := s.allocs + 1 }

def free (s : ListState D) (p : Ptr) : Option (ListState D) := do
  let a ← p
  guard (s.heap a).isSome
  return { s with heap := Function.update s.heap a none }

/-- A call of the deallocation function, if there is one. -/
def dealloc (s : ListState D) (i : Item D) : ListState D :=
  if i.deallocFunc then { s with dealloced := s.dealloced ++ [i.dataPtr] } else s

end ListState

/-! ## The operations -/

/-- `linked_list_add`; `malloc` is what the allocation returns. -/
def linkedListAdd (s : ListState D) (dataObj : Option D) (dealloc : Bool) (malloc : Ptr) :
    Option (Err × ListState D) :=
  match dataObj,malloc with
  | none,_ => some (.invalidParameter,s)
  | some _,none => some (.failureGeneral,s)
  | some dataObj,some elem => do
    let s := s.alloc elem ⟨⟨dataObj,dealloc⟩,none,none⟩
    let tmp := s.pHead
    let s := { s with pHead := some elem }
    let s ← s.setNext s.pHead tmp
    let s ← (if tmp = none then some { s with pTail := s.pHead } else s.setPrev tmp s.pHead)
    return (.success,s)

/-- `linked_list_remove`: its result, what it writes to `data_obj` if that is
not null, and the list. -/
def linkedListRemove (s : ListState D) (dataObj : Bool) :
    Option (Err × Option D × ListState D) :=
  if !dataObj then some (.invalidParameter,none,s)
  else if s.pTail = none then some (.unavailableResource,none,s)
  else do
    let tmp := s.pTail
    let elem ← s.deref tmp
    let s := { s with pTail := elem.prev }
    let s ← (if s.pTail = none then some { s with pHead := s.pTail } else s.setNext s.pTail none)
    let elem ← s.deref tmp
    let s ← s.free tmp
    return (.success,some elem.dataPtr,s)

def linkedListEmpty (s : ListState D) : Bool := s.pHead.isNone

def flushLoop : ℕ → ListState D → Option (ListState D)
  | 0, _ => none
  | fuel+1, s =>
    if s.pHead = none then some s
    else do
      let elem ← s.deref s.pHead
      let s ← (s.dealloc elem.toItem).free s.pHead
      flushLoop fuel { s with pHead := elem.next }

/-- `linked_list_flush`. -/
def linkedListFlush (s : ListState D) : Option (Err × ListState D) := do
  let s ← flushLoop (s.allocs + 1) s
  return (.success,{ s with pTail := none })

/-- The removal inside `linked_list_search`, up to the clearing of the links. -/
def detach (s : ListState D) (tmp : Ptr) : Option (ListState D) := do
  let elem ← s.deref tmp
  let s ← (if elem.prev = none then some { s with pHead := elem.next }
    else s.setNext elem.prev elem.next)
  let elem ← s.deref tmp
  let s ← (if elem.next = none then some { s with pTail := elem.prev }
    else s.setPrev elem.next elem.prev)
  let s ← s.setNext tmp none
  s.setPrev tmp none

/-- The loop of `linked_list_search`. The predicate may have an effect on its
environment; the first component of the result is what it has found. -/
def searchLoop (equal : σ → D → Bool × σ) (dataP rmIfFound : Bool) :
    ℕ → Ptr → σ → ListState D → Option (Option D × σ × ListState D)
  | 0, _, _, _ => none
  | fuel+1, tmp, e, s =>
    if tmp = none then some (none,e,s)
    else do
      let elem ← s.deref tmp
      let r := equal e elem.dataPtr
      if r.1 then
        if rmIfFound then
          let s ← detach s tmp
          let s ← (if dataP then s else s.dealloc elem.toItem).free tmp
          return (some elem.dataPtr,r.2,s)
        else return (some elem.dataPtr,r.2,s)
      else searchLoop equal dataP rmIfFound fuel elem.next r.2 s

/-- `linked_list_search`: its result, what it writes to `data_p` if `dataP` says
that this is not null, the environment of the predicate, and the list. -/
def linkedListSearch (s : ListState D) (dataP : Bool) (equal : σ → D → Bool × σ) (e : σ)
    (rmIfFound : Bool) : Option (Err × Option (Option D) × σ × ListState D) :=
  if s.pTail = none then some (.unavailableResource,none,e,s)
  else do
    let r ← searchLoop equal dataP rmIfFound (s.allocs + 1) s.pHead e s
    return (.success,if dataP then some r.1 else none,r.2)

end LinkedList
end Kitakami

import Kitakami.Base.Runs
import Kitakami.Base.Slots

/-!
# Adapters of a LocApiBase

`LocApiBase.cpp` keeps the adapters in an array of `MAX_ADAPTERS` pointers, and
the loops that deliver an event end at the first NULL. Over every sequence of
`addAdapter` and `removeAdapter` the adapters that are registered stand at the
front of the array, each once, so that every loop comes to all of them.
-/

namespace Kitakami
namespace LocCore

open Runs Slots

def maxAdapters : ℕ := 10

/-- `LOC_API_ADAPTER_EVENT_MASK_T`. -/
abbrev EventMask := UInt32

section Loops

variable {A σ : Type}

/-- `TO_ALL_ADAPTERS` from index `i` on; the call works on a state of its own. -/
def toAllAdapters (adapters : Vector (Option A) maxAdapters) (call : σ → A → σ) (i : ℕ) (s : σ) :
    σ :=
  if h : i < maxAdapters then
    match adapters[i] with
    | none => s
    | some a => toAllAdapters adapters call (i+1) (call s a)
  else s
termination_by maxAdapters - i

/-- `TO_1ST_HANDLING_ADAPTER` from index `i` on; the call says whether it has handled the event. -/
def to1stHandlingAdapter (adapters : Vector (Option A) maxAdapters) (call : σ → A → Bool × σ)
    (i : ℕ) (s : σ) : σ :=
  if h : i < maxAdapters then
    match adapters[i] with
    | none => s
    | some a =>
      if (call s a).1 then (call s a).2
      else to1stHandlingAdapter adapters call (i+1) (call s a).2
  else s
termination_by maxAdapters - i

/-- An event goes from one element to the next until one has handled it. -/
def firstHandling (call : σ → A → Bool × σ) : List A → σ → σ
  | [], s => s
  | a :: l, s => if (call s a).1 then (call s a).2 else firstHandling call l (call s a).2

variable {adapters : Vector (Option A) maxAdapters} {l : List A}

theorem toAllAdapters_from (h : Holds adapters l) (call : σ → A → σ) (i : ℕ) (s : σ) :
    toAllAdapters adapters call i s = (l.drop i).foldl call s := by
  fun_induction toAllAdapters adapters call i s with
  | case1 i s hi hnone =>
    rw [h.get i hi] at hnone
    rw [List.drop_of_length_le (List.getElem?_eq_none_iff.mp hnone),List.foldl_nil]
  | case2 i s hi a hsome ih =>
    rw [h.get i hi] at hsome
    obtain ⟨hil,rfl⟩ := List.getElem?_eq_some_iff.mp hsome
    rw [ih,List.drop_eq_getElem_cons hil,List.foldl_cons]
  | case3 i s hi =>
    have hle := h.length
    rw [List.drop_of_length_le (by omega),List.foldl_nil]

/-- The loop comes to every element of the list, in this order. -/
theorem toAllAdapters_eq (h : Holds adapters l) (call : σ → A → σ) (s : σ) :
    toAllAdapters adapters call 0 s = l.foldl call s := toAllAdapters_from h call 0 s

theorem to1stHandlingAdapter_from (h : Holds adapters l) (call : σ → A → Bool × σ) (i : ℕ)
    (s : σ) : to1stHandlingAdapter adapters call i s = firstHandling call (l.drop i) s := by
  fun_induction to1stHandlingAdapter adapters call i s with
  | case1 i s hi hnone =>
    rw [h.get i hi] at hnone
    rw [List.drop_of_length_le (List.getElem?_eq_none_iff.mp hnone),firstHandling]
  | case2 i s hi a hsome hhandled =>
    rw [h.get i hi] at hsome
    obtain ⟨hil,rfl⟩ := List.getElem?_eq_some_iff.mp hsome
    rw [List.drop_eq_getElem_cons hil,firstHandling,if_pos hhandled]
  | case3 i s hi a hsome hhandled ih =>
    rw [h.get i hi] at hsome
    obtain ⟨hil,rfl⟩ := List.getElem?_eq_some_iff.mp hsome
    rw [ih,List.drop_eq_getElem_cons hil,firstHandling,if_neg hhandled]
  | case4 i s hi =>
    have hle := h.length
    rw [List.drop_of_length_le (by omega),firstHandling]

theorem to1stHandlingAdapter_eq (h : Holds adapters l) (call : σ → A → Bool × σ) (s : σ) :
    to1stHandlingAdapter adapters call 0 s = firstHandling call l s :=
  to1stHandlingAdapter_from h call 0 s

end Loops

/-- What leaves the object: a `LocOpenMsg` to its own thread, or the call of `close`. -/
inductive Out
  | openMsg (mMask : EventMask)
  | close
  deriving DecidableEq

/-- The members that the adapters use, with the masks of all adapters and what has been sent. -/
structure LocApiBase (A : Type) where
  mExcludedMask : EventMask
  mLocAdapters : Vector (Option A) maxAdapters := Vector.replicate maxAdapters none
  mEvtMask : A → EventMask
  outs : List Out := []

inductive LocRegistrationMaskStatus
  | enabled | disabled
  deriving DecidableEq

namespace LocApiBase

variable {A : Type}

def send (s : LocApiBase A) (out : Out) : LocApiBase A := { s with outs := s.outs ++ [out] }

def getEvtMask (s : LocApiBase A) : EventMask :=
  toAllAdapters s.mLocAdapters (fun mask a => mask ||| s.mEvtMask a) 0 0 &&& ~~~ s.mExcludedMask

/-- `LocAdapterBase::updateEvtMask` of the adapter `a`, and `LocApiBase::updateEvtMask`. -/
def updateEvtMask [DecidableEq A] (s : LocApiBase A) (a : A) (event : EventMask)
    (isEnabled : LocRegistrationMaskStatus) : LocApiBase A :=
  let mask := if isEnabled = .enabled then s.mEvtMask a ||| event else s.mEvtMask a &&& ~~~ event
  let s := { s with mEvtMask := Function.update s.mEvtMask a mask }
  s.send (.openMsg s.getEvtMask)

/-- The constructor. -/
def new (excludedMask : EventMask) (masks : A → EventMask) : LocApiBase A :=
  { mExcludedMask := excludedMask, mEvtMask := masks }

variable [DecidableEq A]

/-- The loop of `addAdapter`; `none` is the dereference of a null pointer. -/
def addLoop (s : LocApiBase A) (adapter : Option A) (i : ℕ) : Option (LocApiBase A) :=
  if h : i < maxAdapters then
    if s.mLocAdapters[i] = adapter then some s
    else if s.mLocAdapters[i] = none then
      adapter.map fun a =>
        send { s with mLocAdapters := s.mLocAdapters.set i adapter } (.openMsg (s.mEvtMask a))
    else addLoop s adapter (i+1)
  else some s
termination_by maxAdapters - i

def addAdapter (s : LocApiBase A) (adapter : Option A) : Option (LocApiBase A) :=
  s.addLoop adapter 0

/-- `while (++i < MAX_ADAPTERS && mLocAdapters[i] != NULL);` -/
def skipAdapters (adapters : Vector (Option A) maxAdapters) (i : ℕ) (h : i < maxAdapters) :
    { k // i < k ∧ k ≤ maxAdapters } :=
  if h' : i+1 < maxAdapters then
    if adapters[i+1] ≠ none then
      let k := skipAdapters adapters (i+1) h'
      ⟨k,Nat.lt_of_succ_lt k.2.1,k.2.2⟩
    else ⟨i+1,Nat.lt_succ_self i,h⟩
  else ⟨i+1,Nat.lt_succ_self i,h⟩
termination_by maxAdapters - i

/-- The adapter in slot `i` moves to slot `j`, which has been cleared, and the API is closed or
opened again. -/
def fillSlot (s : LocApiBase A) (j i : ℕ) (hj : j < maxAdapters) (hi : i < maxAdapters) :
    LocApiBase A :=
  let adapters := s.mLocAdapters.set j s.mLocAdapters[i]
  let s := { s with mLocAdapters := adapters.set i none }
  if i = 0 then s.send .close else s.send (.openMsg s.getEvtMask)

/-- The loop of `removeAdapter`. -/
def removeLoop (s : LocApiBase A) (adapter : Option A) (i : ℕ) : LocApiBase A :=
  if h : i < maxAdapters then
    if s.mLocAdapters[i] = none then s
    else if s.mLocAdapters[i] = adapter then
      let adapters := s.mLocAdapters.set i none
      let k := skipAdapters adapters i h
      have hk : k - 1 < maxAdapters := by
        have hle := k.2.2
        omega
      -- the loop goes on behind the slot that was cleared last
      removeLoop (fillSlot { s with mLocAdapters := adapters } i (k-1) h hk) adapter (k-1+1)
    else removeLoop s adapter (i+1)
  else s
termination_by maxAdapters - i
decreasing_by
  · have hlt := (skipAdapters (s.mLocAdapters.set i none h) i h).2.1
    omega
  · omega

def removeAdapter (s : LocApiBase A) (adapter : Option A) : LocApiBase A := s.removeLoop adapter 0

/-- The calls; an adapter may be NULL. -/
inductive Op (A : Type)
  | addAdapter (adapter : Option A)
  | removeAdapter (adapter : Option A)
  | updateEvtMask (a : A) (event : EventMask) (isEnabled : LocRegistrationMaskStatus)
  deriving DecidableEq

def step (s : LocApiBase A) : Op A → Option (LocApiBase A)
  | .addAdapter adapter => s.addAdapter adapter
  | .removeAdapter adapter => some (s.removeAdapter adapter)
  | .updateEvtMask a event isEnabled => some (s.updateEvtMask a event isEnabled)

/-! ## One call -/

variable {s s' : LocApiBase A} {l u w : List A} {a : A}

/-- The registered adapters, in the order of the array. -/
structure Lists (s : LocApiBase A) (l : List A) : Prop where
  holds : Holds s.mLocAdapters l
  nodup : l.Nodup

omit [DecidableEq A] in
/-- The requested events are those of the registered adapters, less the excluded ones. -/
theorem getEvtMask_eq (h : Holds s.mLocAdapters l) :
    s.getEvtMask = l.foldl (fun mask a => mask ||| s.mEvtMask a) 0 &&& ~~~ s.mExcludedMask := by
  rw [getEvtMask,toAllAdapters_eq h]

/-- Nothing is added for NULL, for an adapter that is in the list, or if there is no room. -/
theorem addLoop_same {adapter : Option A} {i : ℕ} (h : Holds s.mLocAdapters l) (hi : i ≤ l.length)
    (ha : l.length < maxAdapters → adapter = none ∨ ∃ a ∈ l.drop i, adapter = some a) :
    s.addLoop adapter i = some s := by
  fun_induction addLoop s adapter i with
  | case1 i hmax hsame => rfl
  | case2 i hmax hne hnone =>
    rw [h.get i hmax] at hnone hne
    have hle := List.getElem?_eq_none_iff.mp hnone
    rcases ha (by omega) with rfl | ⟨a,hmem,-⟩
    · exact absurd hnone hne
    · rw [List.drop_of_length_le hle] at hmem
      cases hmem
  | case3 i hmax hne hsome ih =>
    rw [h.get i hmax] at hne hsome
    have hlt : i < l.length := by
      by_contra hge
      exact hsome (List.getElem?_eq_none (Nat.not_lt.mp hge))
    refine ih hlt fun hroom => (ha hroom).imp_right ?_
    rintro ⟨a,hmem,rfl⟩
    rw [List.drop_eq_getElem_cons hlt] at hmem
    rw [List.getElem?_eq_getElem hlt] at hne
    rcases List.mem_cons.mp hmem with rfl | hmem
    · exact absurd rfl hne
    · exact ⟨a,hmem,rfl⟩
  | case4 i hmax => rfl

/-- A new adapter goes to the first free slot. -/
theorem addLoop_push {i : ℕ} (h : Holds s.mLocAdapters l) (ha : a ∉ l)
    (hroom : l.length < maxAdapters) (hi : i ≤ l.length) :
    s.addLoop (some a) i = some (send
      { s with mLocAdapters := s.mLocAdapters.set l.length (some a) }
      (.openMsg (s.mEvtMask a))) := by
  have hget (j : ℕ) (hj : j < maxAdapters) : s.mLocAdapters[j] ≠ some a := by
    rw [h.get j hj]
    exact fun hsome => ha (List.mem_of_getElem? hsome)
  generalize hk : l.length - i = k
  induction k generalizing i with
  | zero =>
    obtain rfl : i = l.length := by omega
    rw [addLoop,dif_pos hroom,if_neg (hget _ hroom),if_pos (h.get_length hroom),Option.map_some]
  | succ k ih =>
    have hlt : i < l.length := by omega
    have hmax : i < maxAdapters := by omega
    have hsome := h.get_of_lt hlt hmax
    rw [addLoop,dif_pos hmax,if_neg (hget i hmax),if_neg (by rw [hsome]; exact Option.some_ne_none _)]
    exact ih hlt (by omega)

omit [DecidableEq A] in
/-- Behind a slot in use the scan comes to the end of the list. -/
theorem skipAdapters_eq {adapters : Vector (Option A) maxAdapters} {i : ℕ} (h : i < maxAdapters)
    (hl : l.length ≤ maxAdapters) (hi : i < l.length)
    (hget : ∀ j, (hj : j < maxAdapters) → i < j → adapters[j] = l[j]?) :
    (skipAdapters adapters i h).1 = l.length := by
  fun_induction skipAdapters adapters i h with
  | case1 i hmax hmax' hsome k ih =>
    rw [hget _ hmax' (Nat.lt_succ_self i)] at hsome
    have hlt : i+1 < l.length := by
      by_contra hge
      exact hsome (List.getElem?_eq_none (Nat.not_lt.mp hge))
    exact ih hlt fun j hj hij => hget j hj (Nat.lt_of_succ_lt hij)
  | case2 i hmax hmax' hnone =>
    rw [hget _ hmax' (Nat.lt_succ_self i),not_not,List.getElem?_eq_none_iff] at hnone
    exact Nat.le_antisymm hi hnone
  | case3 i hmax hmax' =>
    show i+1 = l.length
    omega

/-- Nothing is done for NULL or for an adapter that is not in the list. -/
theorem removeLoop_same {adapter : Option A} {i : ℕ} (h : Holds s.mLocAdapters l)
    (ha : ∀ a ∈ l.drop i, adapter ≠ some a) : s.removeLoop adapter i = s := by
  generalize hk : maxAdapters - i = k
  induction k generalizing i with
  | zero => rw [removeLoop,dif_neg (by omega)]
  | succ k ih =>
    have hmax : i < maxAdapters := by omega
    rw [removeLoop,dif_pos hmax]
    by_cases hlt : i < l.length
    · have hsome := h.get_of_lt hlt hmax
      rw [List.drop_eq_getElem_cons hlt] at ha
      have hne : some l[i] ≠ adapter := (ha _ List.mem_cons_self).symm
      rw [hsome,if_neg (Option.some_ne_none _),if_neg hne]
      exact ih (fun a hmem => ha a (List.mem_cons_of_mem _ hmem)) (by omega)
    · rw [if_pos (by rw [h.get i hmax]; exact List.getElem?_eq_none (Nat.not_lt.mp hlt))]

/-- The state without one adapter: the last one has closed the API, or the others go on. -/
def removed (s : LocApiBase A) (adapters : Vector (Option A) maxAdapters) (left : List A) :
    LocApiBase A :=
  let s := { s with mLocAdapters := adapters }
  if left = [] then s.send .close else s.send (.openMsg s.getEvtMask)

omit [DecidableEq A] in
@[simp] theorem removed_mLocAdapters (adapters : Vector (Option A) maxAdapters) (left : List A) :
    (s.removed adapters left).mLocAdapters = adapters := by
  unfold removed
  split_ifs <;> rfl

omit [DecidableEq A] in
/-- The slot that was cleared is filled, and as many adapters are left as stand before slot `k`. -/
theorem fillSlot_eq {j k : ℕ} (hj : j < maxAdapters) (hk : k < maxAdapters) {left : List A}
    (hlen : left.length = k) :
    fillSlot { s with mLocAdapters := s.mLocAdapters.set j none } j k hj hk =
      s.removed (takeOut s.mLocAdapters j k hj hk) left := by
  have hiff : left = [] ↔ k = 0 := by rw [← List.length_eq_zero_iff,hlen]
  simp only [fillSlot,removed,hiff]
  rfl

/-- At its slot the adapter is taken out, and the loop ends behind the slot that is free now. -/
theorem removeLoop_at (h : Lists s (u ++ a::w)) :
    ∃ w' adapters, w'.Perm w ∧ Holds adapters (u ++ w') ∧
      s.removeLoop (some a) u.length = s.removed adapters (u ++ w') := by
  have hlen : (u ++ a::w).length = u.length + w.length + 1 := by
    rw [List.length_append,List.length_cons]
    rfl
  have hmax := h.holds.length
  have hj : u.length < maxAdapters := by omega
  have hk : u.length + w.length < maxAdapters := by omega
  have hsome : s.mLocAdapters[u.length] = some a := by
    rw [h.holds.get _ hj,List.getElem?_append_right le_rfl,Nat.sub_self,List.getElem?_cons_zero]
  have hskip : (skipAdapters (s.mLocAdapters.set u.length none) u.length hj).1 =
      u.length + w.length + 1 := by
    rw [skipAdapters_eq hj hmax (by omega),hlen]
    intro j hjm hlt
    rw [Vector.getElem_set_ne hj hjm (Nat.ne_of_lt hlt),h.holds.get j hjm]
  obtain ⟨w',hperm,hholds⟩ := h.holds.takeOut rfl hj hk
  have hleft : (u ++ w').length = u.length + w.length := by
    rw [List.length_append,hperm.length_eq]
  refine ⟨w',_,hperm,hholds,?_⟩
  rw [removeLoop,dif_pos hj,hsome,if_neg (Option.some_ne_none a),if_pos rfl]
  simp only [hskip,Nat.add_sub_cancel,fillSlot_eq hj hk hleft]
  refine removeLoop_same (l:=u ++ w') (by rwa [removed_mLocAdapters]) ?_
  rw [List.drop_of_length_le (by omega)]
  intro b hb
  cases hb

/-- The slots in front of the adapter are passed over. -/
theorem removeLoop_before (h : Lists s (u ++ a::w)) {i : ℕ} (hi : i ≤ u.length) :
    s.removeLoop (some a) i = s.removeLoop (some a) u.length := by
  generalize hk : u.length - i = k
  induction k generalizing i with
  | zero => rw [show i = u.length by omega]
  | succ k ih =>
    have hlt : i < u.length := by omega
    have hmax : i < maxAdapters := by
      have hlen := h.holds.length
      rw [List.length_append] at hlen
      omega
    have hsome : s.mLocAdapters[i] = some u[i] := by
      rw [h.holds.get i hmax,List.getElem?_append_left hlt,List.getElem?_eq_getElem hlt]
    have hne : u[i] ≠ a := fun he =>
      (List.nodup_append.mp h.nodup).2.2 _ (List.getElem_mem hlt) a List.mem_cons_self he
    rw [removeLoop,dif_pos hmax,hsome,if_neg (Option.some_ne_none _),
      if_neg (fun he => hne (Option.some.inj he))]
    exact ih hlt (by omega)

/-- An adapter of the list is taken out. -/
theorem removeAdapter_mem (h : Lists s (u ++ a::w)) :
    ∃ w' adapters, w'.Perm w ∧ Holds adapters (u ++ w') ∧
      s.removeAdapter (some a) = s.removed adapters (u ++ w') := by
  rw [removeAdapter,removeLoop_before h (Nat.zero_le _)]
  exact removeLoop_at h

/-- When an adapter goes, the API is closed if it was the last, and otherwise opened again for the
events of all the others. -/
theorem removeAdapter_outs (h : Lists s (u ++ a::w)) :
    (s.removeAdapter (some a)).outs = s.outs ++ [if u ++ w = [] then .close else
      .openMsg ((u ++ w).foldl (fun mask b => mask ||| s.mEvtMask b) 0 &&& ~~~ s.mExcludedMask)] := by
  obtain ⟨w',adapters,hperm,hholds,hs⟩ := removeAdapter_mem h
  have hleft : (u ++ w').Perm (u ++ w) := hperm.append_left u
  have hmask : (u ++ w').foldl (fun mask b => mask ||| s.mEvtMask b) 0 =
      (u ++ w).foldl (fun mask b => mask ||| s.mEvtMask b) 0 := by
    refine hleft.foldl_eq' (fun b _ c _ mask => ?_) 0
    rw [UInt32.or_assoc,UInt32.or_assoc,UInt32.or_comm (s.mEvtMask b)]
  have hnil : u ++ w' = [] ↔ u ++ w = [] := by
    rw [← List.length_eq_zero_iff,hleft.length_eq,List.length_eq_zero_iff]
  rw [hs,removed]
  simp only [hnil]
  split_ifs
  · rfl
  · rw [send,getEvtMask_eq hholds]
    show s.outs ++ [Out.openMsg ((u ++ w').foldl (fun mask b => mask ||| s.mEvtMask b) 0 &&&
      ~~~ s.mExcludedMask)] = _
    rw [hmask]

/-! ## All calls -/

/-- Who is in the list after a call: an adapter that is added while there is room, and every
other that is not removed. -/
structure Steps (op : Op A) (l l' : List A) : Prop where
  mem : ∀ a, a ∈ l' ↔
    op = .addAdapter (some a) ∧ l.length < maxAdapters ∨ a ∈ l ∧ op ≠ .removeAdapter (some a)

theorem addAdapter_lists (h : Lists s l) (adapter : Option A) :
    ∃ s' l', s.addAdapter adapter = some s' ∧ Lists s' l' ∧ Steps (.addAdapter adapter) l l' := by
  cases adapter with
  | none =>
    refine ⟨s,l,addLoop_same h.holds (Nat.zero_le _) fun _ => Or.inl rfl,h,⟨fun a => ?_⟩⟩
    simp
  | some b =>
    by_cases hb : b ∈ l ∨ maxAdapters ≤ l.length
    · refine ⟨s,l,addLoop_same h.holds (Nat.zero_le _) fun hroom => ?_,h,⟨fun a => ?_⟩⟩
      · have hmem : b ∈ l := hb.resolve_right (Nat.not_le.mpr hroom)
        exact Or.inr ⟨b,hmem,rfl⟩
      · constructor
        · exact fun ha => Or.inr ⟨ha,by simp⟩
        · rintro (⟨he,hroom⟩ | ⟨ha,-⟩)
          · obtain rfl : b = a := by simpa using he
            exact hb.resolve_right (Nat.not_le.mpr hroom)
          · exact ha
    · rw [not_or,Nat.not_le] at hb
      refine ⟨_,l ++ [b],addLoop_push h.holds hb.1 hb.2 (Nat.zero_le _),
        ⟨h.holds.push hb.2,?_⟩,⟨fun a => ?_⟩⟩
      · rw [← List.concat_eq_append]
        exact h.nodup.concat hb.1
      · have hiff : Op.addAdapter (some b) = .addAdapter (some a) ↔ a = b := by
          simp [eq_comm]
        rw [List.mem_append,List.mem_singleton,hiff,or_comm]
        simp [hb.2]

theorem removeAdapter_lists (h : Lists s l) (adapter : Option A) :
    ∃ l', Lists (s.removeAdapter adapter) l' ∧ Steps (.removeAdapter adapter) l l' := by
  by_cases hmem : ∃ a ∈ l, adapter = some a
  · obtain ⟨b,hb,rfl⟩ := hmem
    obtain ⟨u,w,rfl⟩ := List.append_of_mem hb
    obtain ⟨w',adapters,hperm,hholds,hs⟩ := removeAdapter_mem h
    have hall : (b::(u ++ w')).Perm (u ++ b::w) :=
      (List.perm_middle.symm).trans ((hperm.cons b).append_left u)
    have hnodup := List.nodup_cons.mp (hall.nodup_iff.mpr h.nodup)
    refine ⟨u ++ w',⟨by rwa [hs,removed_mLocAdapters],hnodup.2⟩,⟨fun a => ?_⟩⟩
    rw [← hall.mem_iff,List.mem_cons]
    constructor
    · intro ha
      refine Or.inr ⟨Or.inr ha,fun he => ?_⟩
      obtain rfl : b = a := by simpa using he
      exact hnodup.1 ha
    · rintro (⟨he,-⟩ | ⟨rfl | ha,hne⟩)
      · cases he
      · exact absurd rfl hne
      · exact ha
  · have habsent : ∀ a ∈ l.drop 0, adapter ≠ some a := fun a ha he => hmem ⟨a,ha,he⟩
    have hs : s.removeAdapter adapter = s := removeLoop_same h.holds habsent
    refine ⟨l,by rwa [hs],⟨fun a => ⟨fun ha => Or.inr ⟨ha,fun he => ?_⟩,?_⟩⟩⟩
    · exact habsent a ha (Op.removeAdapter.inj he)
    · rintro (⟨he,-⟩ | ⟨ha,-⟩)
      · cases he
      · exact ha

theorem step_lists (h : Lists s l) (op : Op A) :
    ∃ s' l', step s op = some s' ∧ Lists s' l' ∧ Steps op l l' := by
  cases op with
  | addAdapter adapter => exact addAdapter_lists h adapter
  | removeAdapter adapter =>
    obtain ⟨l',h',hsteps⟩ := removeAdapter_lists h adapter
    exact ⟨_,l',rfl,h',hsteps⟩
  | updateEvtMask b event isEnabled => exact ⟨_,l,rfl,⟨h.holds,h.nodup⟩,⟨fun a => by simp⟩⟩

/-- `a` was added when fewer than `MAX_ADAPTERS` were present, and has not been removed since. -/
def Registered (s : LocApiBase A) (ops : List (Op A)) (a : A) : Prop :=
  ∃ before after t, ops = before ++ .addAdapter (some a) :: after ∧
    run step s before = some t ∧ used t.mLocAdapters < maxAdapters ∧
    .removeAdapter (some a) ∉ after

theorem registered_concat {ops : List (Op A)} {op : Op A} (hs : run step s ops = some s') :
    Registered s (ops ++ [op]) a ↔
      op = .addAdapter (some a) ∧ used s'.mLocAdapters < maxAdapters ∨
        Registered s ops a ∧ op ≠ .removeAdapter (some a) := by
  constructor
  · rintro ⟨before,after,t,hops,ht,hroom,hafter⟩
    rcases List.eq_nil_or_concat after with rfl | ⟨after,last,rfl⟩
    · obtain ⟨rfl,hop⟩ := List.append_inj' hops rfl
      obtain rfl : s' = t := Option.some.inj (hs.symm.trans ht)
      exact Or.inl ⟨List.singleton_inj.mp hop,hroom⟩
    · rw [List.concat_eq_append,← List.cons_append,← List.append_assoc] at hops
      obtain ⟨rfl,hop⟩ := List.append_inj' hops rfl
      obtain rfl := List.singleton_inj.mp hop
      rw [List.concat_eq_append,List.mem_append,List.mem_singleton,not_or] at hafter
      exact Or.inr ⟨⟨before,after,t,rfl,ht,hroom,hafter.1⟩,Ne.symm hafter.2⟩
  · rintro (⟨rfl,hroom⟩ | ⟨⟨before,after,t,rfl,ht,hroom,hafter⟩,hop⟩)
    · exact ⟨ops,[],s',rfl,hs,hroom,List.not_mem_nil⟩
    · refine ⟨before,after ++ [op],t,by simp,ht,hroom,?_⟩
      rw [List.mem_append,List.mem_singleton,not_or]
      exact ⟨hafter,Ne.symm hop⟩

/-- After any calls the list holds the registered adapters. -/
theorem run_lists (h : Lists s []) (ops : List (Op A)) :
    ∃ s' l, run step s ops = some s' ∧ Lists s' l ∧ ∀ a, a ∈ l ↔ Registered s ops a := by
  induction ops using List.reverseRecOn with
  | nil =>
    refine ⟨s,[],rfl,h,fun a => ⟨fun ha => (List.not_mem_nil ha).elim,?_⟩⟩
    rintro ⟨before,after,t,hops,-⟩
    simp at hops
  | append_singleton ops op ih =>
    obtain ⟨t,l,ht,hlists,hmem⟩ := ih
    obtain ⟨s',l',hs',hlists',hsteps⟩ := step_lists hlists op
    refine ⟨s',l',?_,hlists',fun a => ?_⟩
    · rw [run_append,ht,Option.bind_some]
      exact run_cons_eq_some.mpr ⟨s',hs',rfl⟩
    · rw [hsteps.mem,registered_concat ht,hlists.holds.used,hmem]

/-- The array has no holes and loses nobody: the registered adapters stand in it, each once, up
to the first NULL, and the loops over it come to each of them. -/
theorem adapters_kept (excludedMask : EventMask) (masks : A → EventMask) (ops : List (Op A)) :
    ∃ s l, run step (new excludedMask masks) ops = some s ∧
      Holds s.mLocAdapters l ∧ l.Nodup ∧
      (∀ a, a ∈ l ↔ Registered (new excludedMask masks) ops a) ∧
      (∀ (σ : Type) (call : σ → A → σ) (t : σ),
        toAllAdapters s.mLocAdapters call 0 t = l.foldl call t) ∧
      ∀ (σ : Type) (call : σ → A → Bool × σ) (t : σ),
        to1stHandlingAdapter s.mLocAdapters call 0 t = firstHandling call l t := by
  have hnew : Lists (new excludedMask masks) [] := ⟨holds_empty,List.nodup_nil⟩
  obtain ⟨s,l,hs,h,hmem⟩ := run_lists hnew ops
  exact ⟨s,l,hs,h.holds,h.nodup,hmem,fun σ call t => toAllAdapters_eq h.holds call t,
    fun σ call t => to1stHandlingAdapter_eq h.holds call t⟩

end LocApiBase
end LocCore
end Kitakami

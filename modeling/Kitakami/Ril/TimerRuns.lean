import Kitakami.Ril.TimerLists
import Mathlib.Data.List.Sort
import Mathlib.Data.List.TakeWhile

/-!
# Timers fire in order

Over every run of the event loop, with timers added at any time, the timer list
stays sorted, every timer that was added has fired once or is in exactly one of
the two lists, and the timers fire in the order in which they became pending,
each after its deadline. What is in the lists and what fires is what an agenda
of deadlines says.
-/

namespace Kitakami
namespace Ril

open Runs Timeval EventLoop

variable {E : Type} [DecidableEq E]

/-! ## The history -/

/-- A timer with its deadline in microseconds. -/
def Entry.addition : Entry E → Option (Node E × ℤ)
  | .added n now tv => some (n,now.usecs + tv.usecs)
  | _ => none

def Entry.firing : Entry E → Option (Node E × ℤ)
  | .fired n timeout _ => some (n,timeout.usecs)
  | _ => none

def Entry.batch : Entry E → Option (List (Node E × ℤ))
  | .processed _ moved => some (moved.map fun x => (x.1,x.2.usecs))
  | _ => none

def additions (log : List (Entry E)) : List (Node E × ℤ) := log.filterMap Entry.addition

def firings (log : List (Entry E)) : List (Node E × ℤ) := log.filterMap Entry.firing

/-- What each `processTimeouts` has moved. -/
def batches (log : List (Entry E)) : List (List (Node E × ℤ)) := log.filterMap Entry.batch

def EventLoop.deadline (s : EventLoop E) (n : Node E) : Node E × ℤ := (n,(s.timeout n).usecs)

/-- The event has fired as often as it was added. -/
def Idle (s : EventLoop E) (e : E) : Prop :=
  ((additions s.log).map Prod.fst).count (.ev e) = ((firings s.log).map Prod.fst).count (.ev e)

/-- The calls that are made: times are normalised, the clock does not go back,
a timer is added again only after it fired, and the event loop calls
`processTimeouts` and `firePending` one after the other. -/
def Allowed (s : EventLoop E) : Op E → Prop
  | .timerAdd e (some tv) now =>
    tv.Normal ∧ now.Normal ∧ s.clock.usecs ≤ now.usecs ∧ Idle s e
  | .timerAdd _ none _ => True
  | .processTimeouts now => now.Normal ∧ s.clock.usecs ≤ now.usecs ∧ s.cursor = none
  | .firePending => s.cursor = none
  | .fireNext => True

instance (s : EventLoop E) : ∀ op, Decidable (Allowed s op)
  | .timerAdd _ (some tv) now => inferInstanceAs (Decidable
      (tv.Normal ∧ now.Normal ∧ s.clock.usecs ≤ now.usecs ∧ _ = (_ : ℕ)))
  | .timerAdd _ none _ => isTrue trivial
  | .processTimeouts now =>
    inferInstanceAs (Decidable (now.Normal ∧ s.clock.usecs ≤ now.usecs ∧ s.cursor = none))
  | .firePending => inferInstanceAs (Decidable (s.cursor = none))
  | .fireNext => isTrue trivial

/-- The timers `ts` and the pending events `ps` with what has happened so far. -/
structure InOrder (s : EventLoop E) (ts ps : List (Node E)) : Prop where
  /-- Both lists are circles, without an event in common. -/
  lists : s.Lists ts ps
  sorted : ts.Pairwise fun m n => (s.timeout m).usecs ≤ (s.timeout n).usecs
  /-- Every timer that was added has fired once or is in one of the lists. -/
  once : (additions s.log).Perm (firings s.log ++ (ps ++ ts).map s.deadline)
  /-- The timers fire in the order in which they were moved. -/
  moved : (batches s.log).flatten = firings s.log ++ ps.map s.deadline
  /-- What one `processTimeouts` moves is sorted by deadline. -/
  rising : ∀ b ∈ batches s.log, b.Pairwise fun x y => x.2 ≤ y.2
  notEarly : ∀ n timeout clock, .fired n timeout clock ∈ s.log → timeout.usecs < clock.usecs
  /-- No expired timer stays behind. -/
  expired : ∀ now l, s.log.getLast? = some (.processed now l) →
    ∀ n ∈ ts, now.usecs ≤ (s.timeout n).usecs
  /-- The loop of `firePending` is at the first pending event, and ends when there is none. -/
  cursor : ∀ p, s.cursor = some p → p = some (Listed.first ps .pendingList)

/-- The invariant. -/
structure Good (s : EventLoop E) (ts ps : List (Node E)) : Prop extends InOrder s ts ps where
  normal : ∀ n ∈ ts, (s.timeout n).Normal
  late : ∀ n ∈ ps, (s.timeout n).usecs < s.clock.usecs

/-! ## The agenda -/

/-- The timers by their deadlines: those that wait, the earliest first, those that are pending,
and those that have fired. -/
structure Agenda (E : Type) where
  timers : List (Node E × ℤ) := []
  pending : List (Node E × ℤ) := []
  /-- The loop of `firePending` runs. -/
  firing : Bool := false
  fired : List (Node E × ℤ) := []
  deriving DecidableEq

/-- The timer that a call asks for. -/
def Op.addition : Op E → Option (Node E × ℤ)
  | .timerAdd e (some tv) now => some (.ev e,now.usecs + tv.usecs)
  | _ => none

namespace Agenda

/-- A new timer goes in front of the first that is not earlier. -/
def add (a : Agenda E) (x : Node E × ℤ) : Agenda E :=
  { a with timers := a.timers.orderedInsert (fun x y => x.2 ≤ y.2) x }

/-- All that is due becomes pending. -/
def expire (a : Agenda E) (now : ℤ) : Agenda E :=
  { a with
    timers := a.timers.filter fun x => !decide (x.2 < now)
    pending := a.pending ++ a.timers.filter fun x => decide (x.2 < now) }

/-- What was pending first fires; when nothing is left, the loop ends. -/
def fire (a : Agenda E) : Agenda E :=
  match a.firing,a.pending with
  | false,_ => a
  | true,[] => { a with firing := false }
  | true,x::pending => { a with pending := pending, fired := a.fired ++ [x] }

def step (a : Agenda E) : Op E → Agenda E
  | .timerAdd e (some tv) now => a.add (.ev e,now.usecs + tv.usecs)
  | .timerAdd _ none _ => a
  | .processTimeouts now => a.expire now.usecs
  | .firePending => { a with firing := true }
  | .fireNext => a.fire

end Agenda

def EventLoop.agenda (s : EventLoop E) (ts ps : List (Node E)) : Agenda E :=
  ⟨ts.map s.deadline,ps.map s.deadline,s.cursor.isSome,firings s.log⟩

variable {s s' : EventLoop E} {ts ps : List (Node E)} {n : Node E} {e : E} {now tv : Timeval}

theorem good_init (h : s.log = []) (hc : s.cursor = none) : Good s.rilEventInit [] [] := by
  have hlog : s.rilEventInit.log = [] := h
  have hcur : s.rilEventInit.cursor = none := hc
  have ht : s.rilEventInit.Listed .timerList [] :=
    Links.circle_nil (by simp [links,rilEventInit,initList,setNext,setPrev])
      (by simp [links,rilEventInit,initList,setNext,setPrev])
  have hp : s.rilEventInit.Listed .pendingList [] :=
    Links.circle_nil (by simp [links,rilEventInit,initList,setNext,setPrev])
      (by simp [links,rilEventInit,initList,setNext,setPrev])
  refine ⟨⟨⟨ht,hp,by simp⟩,List.Pairwise.nil,?_,?_,?_,?_,?_,?_⟩,by simp,by simp⟩
  · simp [additions,firings,hlog]
  · simp [batches,firings,hlog]
  · simp [batches,hlog]
  · simp [hlog]
  · simp [hlog]
  · simp [hcur]

/-! ## Sorted lists -/

/-- What holds of the early ones only fails of all that are dropped. -/
theorem not_of_mem_dropWhile {α β : Type} [LinearOrder β] {f : α → β} {p : α → Bool} {l : List α}
    (h : l.Pairwise fun x y => f x ≤ f y) (hp : ∀ x ∈ l, ∀ y ∈ l, f x ≤ f y → p y → p x) :
    ∀ y ∈ l.dropWhile p, p y = false := by
  induction l with
  | nil => simp
  | cons x l ih =>
    rw [List.pairwise_cons] at h
    cases hx : p x with
    | true =>
      rw [List.dropWhile_cons_of_pos hx]
      exact ih h.2 fun a ha b hb => hp a (List.mem_cons_of_mem x ha) b (List.mem_cons_of_mem x hb)
    | false =>
      rw [List.dropWhile_cons_of_neg (by simp [hx])]
      intro y hy
      rcases List.mem_cons.mp hy with rfl | hyl
      · exact hx
      · refine Bool.eq_false_iff.mpr fun hpy => ?_
        have := hp x List.mem_cons_self y hy (h.1 y hyl) hpy
        simp [hx] at this

theorem takeWhile_eq_filter {α : Type} {p : α → Bool} {l : List α}
    (h : ∀ y ∈ l.dropWhile p, p y = false) : l.takeWhile p = l.filter p := by
  have hl : l.filter p = (l.takeWhile p).filter p ++ (l.dropWhile p).filter p := by
    rw [← List.filter_append,List.takeWhile_append_dropWhile]
  have htaken : (l.takeWhile p).filter p = l.takeWhile p :=
    List.filter_eq_self.mpr fun x hx => List.mem_takeWhile_imp hx
  have hdropped : (l.dropWhile p).filter p = [] :=
    List.filter_eq_nil_iff.mpr fun x hx => by simp [h x hx]
  rw [hl,htaken,hdropped,List.append_nil]

theorem dropWhile_eq_filter {α : Type} {p : α → Bool} {l : List α}
    (h : ∀ y ∈ l.dropWhile p, p y = false) : l.dropWhile p = l.filter fun x => !p x := by
  have hl : l.filter (fun x => !p x) =
      (l.takeWhile p).filter (fun x => !p x) ++ (l.dropWhile p).filter fun x => !p x := by
    rw [← List.filter_append,List.takeWhile_append_dropWhile]
  have htaken : (l.takeWhile p).filter (fun x => !p x) = [] :=
    List.filter_eq_nil_iff.mpr fun x hx => by simp [List.mem_takeWhile_imp hx]
  have hdropped : (l.dropWhile p).filter (fun x => !p x) = l.dropWhile p :=
    List.filter_eq_self.mpr fun x hx => by simp [h x hx]
  rw [hl,htaken,hdropped,List.nil_append]

/-- A new element in front of the first that is not below it. -/
theorem pairwise_place {α β : Type} [LinearOrder β] {f : α → β} {p : α → Bool} {l : List α} {a : α}
    (h : l.Pairwise fun x y => f x ≤ f y) (hp : ∀ x ∈ l, p x ↔ f x < f a) :
    (l.takeWhile p ++ a::l.dropWhile p).Pairwise fun x y => f x ≤ f y := by
  have htaken : ∀ x ∈ l.takeWhile p, f x < f a := fun x hx =>
    (hp x ((List.takeWhile_sublist p).subset hx)).mp (List.mem_takeWhile_imp hx)
  have hdropped : ∀ x ∈ l.dropWhile p, f a ≤ f x := by
    intro x hx
    have hxl : x ∈ l := (List.dropWhile_sublist p).subset hx
    have hdown : ∀ y ∈ l, ∀ z ∈ l, f y ≤ f z → p z → p y := fun y hy z hz hyz hpz =>
      (hp y hy).mpr (hyz.trans_lt ((hp z hz).mp hpz))
    have hfalse := not_of_mem_dropWhile h hdown x hx
    by_contra hlt
    simp [(hp x hxl).mpr (not_le.mp hlt)] at hfalse
  refine List.pairwise_append.mpr ⟨h.sublist (List.takeWhile_sublist p),?_,?_⟩
  · exact List.pairwise_cons.mpr ⟨hdropped,h.sublist (List.dropWhile_sublist p)⟩
  · intro x hx y hy
    rcases List.mem_cons.mp hy with rfl | hy
    · exact (htaken x hx).le
    · exact (htaken x hx).le.trans (hdropped y hy)

theorem place_perm {α : Type} (p : α → Bool) (a : α) (l : List α) :
    (l.takeWhile p ++ a::l.dropWhile p).Perm (a::l) := by
  have hmid : (l.takeWhile p ++ a::l.dropWhile p).Perm (a::(l.takeWhile p ++ l.dropWhile p)) :=
    List.perm_middle
  rwa [List.takeWhile_append_dropWhile] at hmid

/-- The place of a new element is that of an ordered insertion. -/
theorem map_place {α β : Type} {r : β → β → Prop} [DecidableRel r] {f : α → β} {p : α → Bool}
    {l : List α} {a : α} (hp : ∀ x ∈ l, p x ↔ ¬ r (f a) (f x)) :
    (l.takeWhile p ++ a::l.dropWhile p).map f = (l.map f).orderedInsert r (f a) := by
  induction l with
  | nil => simp
  | cons x l ih =>
    have hx := hp x List.mem_cons_self
    have hl := ih fun y hy => hp y (List.mem_cons_of_mem x hy)
    by_cases hr : r (f a) (f x)
    · have hpx : p x = false := Bool.eq_false_iff.mpr fun h => hx.mp h hr
      simp [hpx,hr]
    · have hpx : p x = true := hx.mpr hr
      rw [List.takeWhile_cons_of_pos hpx,List.dropWhile_cons_of_pos hpx,List.cons_append,
        List.map_cons,hl,List.map_cons,List.orderedInsert,if_neg hr]

/-! ## The steps -/

omit [DecidableEq E] in
theorem map_deadline_congr {l : List (Node E)} (h : ∀ m ∈ l, s'.timeout m = s.timeout m) :
    l.map s'.deadline = l.map s.deadline := by
  refine List.map_congr_left fun m hm => ?_
  rw [deadline,h m hm,deadline]

omit [DecidableEq E] in
theorem Good.length_le (h : Good s ts ps) : ts.length ≤ s.log.length := by
  have hlen := h.once.length_eq
  have hle : (additions s.log).length ≤ s.log.length := List.length_filterMap_le _ _
  simp only [List.length_append,List.length_map] at hlen
  omega

theorem Good.not_mem (h : Good s ts ps) (hi : Idle s e) : Node.ev e ∉ ps ++ ts := by
  have hc := (h.once.map Prod.fst).count_eq (Node.ev e)
  rw [List.map_append,List.count_append,hi,List.map_map] at hc
  have hid : (Prod.fst ∘ s.deadline : Node E → Node E) = id := rfl
  rw [hid,List.map_id] at hc
  exact List.count_eq_zero.mp (by omega)

theorem Good.timerAdd (h : Good s ts ps) (htv : tv.Normal) (hnow : now.Normal)
    (hclock : s.clock.usecs ≤ now.usecs) (hi : Idle s e) :
    ∃ s' ts', s.rilTimerAdd e (some tv) now = some s' ∧ Good s' ts' ps ∧
      s'.agenda ts' ps = (s.agenda ts ps).add (.ev e,now.usecs + tv.usecs) ∧
      additions s'.log = additions s.log ++ [(.ev e,now.usecs + tv.usecs)] := by
  have hmem := h.not_mem hi
  rw [List.mem_append,not_or] at hmem
  obtain ⟨s',hs',hl,htimeout,hclock',hcur,hlog⟩ :=
    rilTimerAdd_spec tv now h.lists hmem.2 hmem.1 h.length_le
  set n : Node E := .ev e
  set p : Node E → Bool := fun m => timercmpLt (s.timeout m) (timeradd now tv)
  have hself : s'.timeout n = timeradd now tv := by rw [htimeout,Function.update_self]
  have hts : ∀ m ∈ ts, s'.timeout m = s.timeout m := by
    intro m hm
    rw [htimeout,Function.update_of_ne (by rintro rfl; exact hmem.2 hm)]
  have hps : ∀ m ∈ ps, s'.timeout m = s.timeout m := by
    intro m hm
    rw [htimeout,Function.update_of_ne (by rintro rfl; exact hmem.1 hm)]
  have hnew : (s'.timeout n).Normal := hself ▸ timeradd_normal hnow htv
  have hadd : additions s'.log = additions s.log ++ [(n,now.usecs + tv.usecs)] := by
    simp [hlog,additions,Entry.addition]
  have hfire : firings s'.log = firings s.log := by simp [hlog,firings,Entry.firing]
  have hself' : s'.deadline n = (n,now.usecs + tv.usecs) := by
    rw [deadline,hself,timeradd_usecs]
  refine ⟨s',_,hs',⟨⟨hl,?_,?_,?_,?_,?_,?_,?_⟩,?_,?_⟩,?_,hadd⟩
  · refine pairwise_place (f:=fun m => (s'.timeout m).usecs) ?_ ?_
    · refine h.sorted.imp_of_mem fun ha hb hab => ?_
      rwa [hts _ ha,hts _ hb]
    · intro m hm
      rw [hts m hm,hself,timercmpLt_iff (h.normal m hm) (timeradd_normal hnow htv)]
  · have hperm : (ps ++ (ts.takeWhile p ++ n::ts.dropWhile p)).Perm (n::(ps ++ ts)) :=
      ((place_perm p n ts).append_left ps).trans List.perm_middle
    rw [hadd,hfire,← hself']
    have hgoal := (hperm.symm.map s'.deadline).append_left (firings s.log)
    refine List.Perm.trans ?_ hgoal
    rw [List.map_cons,map_deadline_congr (l:=ps ++ ts) fun m hm =>
      (List.mem_append.mp hm).elim (hps m) (hts m)]
    exact ((h.once.append_right _).trans (List.perm_append_singleton _ _)).trans
      List.perm_middle.symm
  · have hmoved : batches s'.log = batches s.log := by simp [hlog,batches,Entry.batch]
    rw [hmoved,hfire,map_deadline_congr hps,h.moved]
  · have hmoved : batches s'.log = batches s.log := by simp [hlog,batches,Entry.batch]
    rw [hmoved]
    exact h.rising
  · intro m timeout clock hm
    rw [hlog] at hm
    exact h.notEarly m timeout clock (by simpa using hm)
  · simp [hlog]
  · rw [hcur]
    exact h.cursor
  · intro m hm
    rcases List.mem_cons.mp ((place_perm p n ts).mem_iff.mp hm) with rfl | hm
    · exact hnew
    · exact hts m hm ▸ h.normal m hm
  · intro m hm
    rw [hps m hm,hclock']
    exact (h.late m hm).trans_le hclock
  · rw [agenda,agenda,Agenda.add,hfire,hcur,map_deadline_congr hps]
    congr 1
    rw [map_place (r:=fun x y => x.2 ≤ y.2),map_deadline_congr hts,hself']
    · intro m hm
      rw [hself',deadline,hts m hm,not_le,timercmpLt_iff (h.normal m hm) (timeradd_normal hnow htv),
        timeradd_usecs]

omit [DecidableEq E] in
/-- The timers that are due are at the start of the list. -/
theorem Good.due (h : Good s ts ps) (hnow : now.Normal) :
    ts.takeWhile (fun m => timercmpGt now (s.timeout m)) =
        ts.filter (fun m => decide ((s.timeout m).usecs < now.usecs)) ∧
      ts.dropWhile (fun m => timercmpGt now (s.timeout m)) =
        ts.filter fun m => !decide ((s.timeout m).usecs < now.usecs) := by
  have hp : ∀ m ∈ ts, timercmpGt now (s.timeout m) = decide ((s.timeout m).usecs < now.usecs) := by
    intro m hm
    rw [Bool.eq_iff_iff,timercmpGt_iff hnow (h.normal m hm),decide_eq_true_eq]
  have hdrop := not_of_mem_dropWhile (p:=fun m => timercmpGt now (s.timeout m)) h.sorted
    fun x hx y hy hxy hpy => by
      rw [hp y hy,decide_eq_true_eq] at hpy
      rw [hp x hx,decide_eq_true_eq]
      exact hxy.trans_lt hpy
  refine ⟨(takeWhile_eq_filter hdrop).trans ?_,(dropWhile_eq_filter hdrop).trans ?_⟩
  · exact List.filter_congr hp
  · exact List.filter_congr fun m hm => by rw [hp m hm]

theorem Good.processTimeouts (h : Good s ts ps) (hnow : now.Normal)
    (hclock : s.clock.usecs ≤ now.usecs) (hcur : s.cursor = none) :
    ∃ s', s.processTimeouts now = some s' ∧
      Good s' (ts.filter fun m => !decide ((s.timeout m).usecs < now.usecs))
        (ps ++ ts.filter fun m => decide ((s.timeout m).usecs < now.usecs)) ∧
      s'.deadline = s.deadline ∧ s'.cursor = none ∧ firings s'.log = firings s.log ∧
      additions s'.log = additions s.log := by
  obtain ⟨s',hs',hl,htimeout,hclock',hcur',hlog⟩ := processTimeouts_spec now h.lists h.length_le
  obtain ⟨htake,hdrop⟩ := h.due hnow
  rw [htake] at hl hlog
  rw [hdrop] at hl
  set q : Node E → Bool := fun m => decide ((s.timeout m).usecs < now.usecs)
  have hdeadline : s'.deadline = s.deadline := by
    funext m
    rw [deadline,htimeout,deadline]
  have hfire : firings s'.log = firings s.log := by simp [hlog,firings,Entry.firing]
  have hadd : additions s'.log = additions s.log := by simp [hlog,additions,Entry.addition]
  have hbatch : batches s'.log = batches s.log ++ [(ts.filter q).map s.deadline] := by
    simp [hlog,batches,Entry.batch,deadline]
  refine ⟨s',hs',⟨⟨hl,?_,?_,?_,?_,?_,?_,?_⟩,?_,?_⟩,hdeadline,hcur'.trans hcur,hfire,hadd⟩
  · rw [htimeout]
    exact h.sorted.sublist List.filter_sublist
  · rw [hadd,hfire,hdeadline]
    refine h.once.trans (((List.Perm.map _ ?_)).append_left _)
    rw [List.append_assoc]
    exact (List.filter_append_perm q ts).symm.append_left ps
  · rw [hbatch,hfire,hdeadline,List.flatten_append,h.moved,List.map_append,List.append_assoc]
    simp
  · intro b hb
    rw [hbatch] at hb
    rcases List.mem_append.mp hb with hb | hb
    · exact h.rising b hb
    · obtain rfl := List.mem_singleton.mp hb
      exact List.pairwise_map.mpr (h.sorted.sublist List.filter_sublist)
  · intro m timeout clock hm
    rw [hlog] at hm
    exact h.notEarly m timeout clock (by simpa using hm)
  · intro now' l hlast m hm
    rw [hlog,List.getLast?_concat] at hlast
    obtain ⟨rfl,-⟩ := Entry.processed.inj (Option.some.inj hlast)
    rw [htimeout]
    simpa [q] using (List.mem_filter.mp hm).2
  · simp [hcur',hcur]
  · intro m hm
    rw [htimeout]
    exact h.normal m (List.mem_filter.mp hm).1
  · intro m hm
    rw [htimeout,hclock']
    rcases List.mem_append.mp hm with hm | hm
    · exact (h.late m hm).trans_le hclock
    · simpa [q] using (List.mem_filter.mp hm).2

omit [DecidableEq E] in
theorem Good.firePending (h : Good s ts ps) : Good s.firePending ts ps := by
  have hfirst : s.next .pendingList = some (Listed.first ps .pendingList) :=
    h.lists.pending.next_head
  refine ⟨⟨⟨h.lists.timers,h.lists.pending,h.lists.apart⟩,h.sorted,h.once,h.moved,h.rising,
    h.notEarly,h.expired,?_⟩,h.normal,h.late⟩
  intro p hp
  rw [← Option.some.inj hp,hfirst]

/-- The first pending event fires. -/
theorem Good.fires (h : Good s ts (n::ps)) (hc : s.cursor = some (some n)) :
    ∃ s', s.fireNext = some s' ∧ Good s' ts ps ∧ s'.timeout = s.timeout ∧
      s'.cursor = some (some (Listed.first ps .pendingList)) ∧
      firings s'.log = firings s.log ++ [s.deadline n] ∧ additions s'.log = additions s.log := by
  obtain ⟨s',hs',hl,htimeout,hclock,hcur,hlog⟩ := fireNext_spec h.lists hc
  have hdeadline : s'.deadline = s.deadline := by
    funext m
    rw [deadline,htimeout,deadline]
  have hfire : firings s'.log = firings s.log ++ [s.deadline n] := by
    simp [hlog,firings,Entry.firing,deadline]
  have hadd : additions s'.log = additions s.log := by simp [hlog,additions,Entry.addition]
  have hbatch : batches s'.log = batches s.log := by simp [hlog,batches,Entry.batch]
  refine ⟨s',hs',⟨⟨hl,?_,?_,?_,?_,?_,?_,?_⟩,?_,?_⟩,htimeout,hcur,hfire,hadd⟩
  · rw [htimeout]
    exact h.sorted
  · rw [hadd,hfire,hdeadline,List.append_assoc]
    exact h.once
  · rw [hbatch,hfire,hdeadline,List.append_assoc]
    exact h.moved
  · rw [hbatch]
    exact h.rising
  · intro m timeout clock hm
    rw [hlog] at hm
    rcases List.mem_append.mp hm with hm | hm
    · exact h.notEarly m timeout clock hm
    · obtain ⟨rfl,rfl,rfl⟩ := Entry.fired.inj (List.mem_singleton.mp hm)
      exact h.late m List.mem_cons_self
  · simp [hlog]
  · rw [hcur]
    rintro p hp
    exact (Option.some.inj hp).symm
  · rw [htimeout]
    exact h.normal
  · intro m hm
    rw [htimeout,hclock]
    exact h.late m (List.mem_cons_of_mem n hm)

omit [DecidableEq E] in
theorem Good.leave (h : Good s ts ps) : Good { s with cursor := none } ts ps :=
  ⟨⟨⟨h.lists.timers,h.lists.pending,h.lists.apart⟩,h.sorted,h.once,h.moved,h.rising,h.notEarly,
    h.expired,by simp⟩,h.normal,h.late⟩

/-- What a step does to the lists. -/
structure Steps (s : EventLoop E) (ts ps : List (Node E)) (op : Op E) (s' : EventLoop E)
    (ts' ps' : List (Node E)) : Prop where
  good : Good s' ts' ps'
  agenda : s'.agenda ts' ps' = (s.agenda ts ps).step op
  additions : additions s'.log = additions s.log ++ op.addition.toList

theorem Good.fireNext (h : Good s ts ps) :
    ∃ s' ps', s.fireNext = some s' ∧ Steps s ts ps .fireNext s' ts ps' := by
  cases hc : s.cursor with
  | none =>
    refine ⟨s,ps,by simp [EventLoop.fireNext,hc],h,?_,by simp [Op.addition]⟩
    simp [EventLoop.agenda,Agenda.step,Agenda.fire,hc]
  | some p =>
    obtain rfl := h.cursor p hc
    cases ps with
    | nil =>
      refine ⟨{ s with cursor := none },[],by simp [EventLoop.fireNext,hc],h.leave,?_,?_⟩
      · rw [EventLoop.agenda,EventLoop.agenda,hc]
        rfl
      · simp [Op.addition]
    | cons n ps =>
      obtain ⟨s',hs',h',htimeout,hcur,hfire,hadd⟩ := h.fires hc
      have hdeadline : s'.deadline = s.deadline := by
        funext m
        rw [deadline,htimeout,deadline]
      refine ⟨s',ps,hs',h',?_,by simp [Op.addition,hadd]⟩
      simp [EventLoop.agenda,Agenda.step,Agenda.fire,hc,hcur,hfire,hdeadline]

theorem step_good (h : Good s ts ps) {op : Op E} (ha : Allowed s op) :
    ∃ s' ts' ps', step s op = some s' ∧ Steps s ts ps op s' ts' ps' := by
  cases op with
  | timerAdd e tv now =>
    cases tv with
    | none => exact ⟨s,ts,ps,rfl,h,rfl,by simp [Op.addition]⟩
    | some tv =>
      obtain ⟨htv,hnow,hclock,hi⟩ := ha
      obtain ⟨s',ts',hs',h',hagenda,hadd⟩ := h.timerAdd htv hnow hclock hi
      exact ⟨s',ts',ps,hs',h',hagenda,hadd⟩
  | processTimeouts now =>
    obtain ⟨hnow,hclock,hcur⟩ := ha
    obtain ⟨s',hs',h',hdeadline,hcur',hfire,hadd⟩ := h.processTimeouts hnow hclock hcur
    refine ⟨s',_,_,hs',h',?_,by simp [Op.addition,hadd]⟩
    rw [EventLoop.agenda,hdeadline,hcur',hfire,EventLoop.agenda,hcur,Agenda.step,Agenda.expire,
      List.filter_map,List.filter_map,List.map_append]
    rfl
  | firePending => exact ⟨_,ts,ps,rfl,h.firePending,rfl,by simp [Op.addition]; rfl⟩
  | fireNext =>
    obtain ⟨s',ps',hs',h'⟩ := h.fireNext
    exact ⟨s',ts,ps',hs',h'⟩

theorem run_good {ops : List (Op E)} (h : Good s ts ps) (ha : Along step Allowed s ops) :
    ∃ s' ts' ps', run step s ops = some s' ∧ Good s' ts' ps' ∧
      s'.agenda ts' ps' = ops.foldl Agenda.step (s.agenda ts ps) ∧
      additions s'.log = additions s.log ++ ops.filterMap Op.addition := by
  induction ops generalizing s ts ps with
  | nil => exact ⟨s,ts,ps,rfl,h,rfl,by simp⟩
  | cons op ops ih =>
    obtain ⟨s₁,ts₁,ps₁,hs₁,h₁,hagenda₁,hadd₁⟩ := step_good h ha.head
    obtain ⟨s₂,ts₂,ps₂,hs₂,h₂,hagenda₂,hadd₂⟩ := ih h₁ (ha.tail hs₁)
    refine ⟨s₂,ts₂,ps₂,run_cons_eq_some.mpr ⟨s₁,hs₁,hs₂⟩,h₂,?_,?_⟩
    · rw [hagenda₂,hagenda₁,List.foldl_cons]
    · rw [hadd₂,hadd₁,List.append_assoc]
      cases ho : op.addition with
      | none => rw [List.filterMap_cons_none ho,Option.toList_none,List.nil_append]
      | some x =>
        rw [List.filterMap_cons_some ho,Option.toList_some,List.singleton_append]

/-! ## The event loop -/

/-- Left alone, `firePending` ends and has fired all that was pending. -/
theorem Good.firesAll (h : Good s ts ps) (hc : s.cursor = some (some (Listed.first ps .pendingList))) :
    ∃ s', run step s (List.replicate (ps.length + 1) .fireNext) = some s' ∧ Good s' ts [] ∧
      s'.cursor = none ∧ firings s'.log = firings s.log ++ ps.map s.deadline := by
  induction ps generalizing s with
  | nil =>
    have hstep : step s .fireNext = some { s with cursor := none } := by
      simp [step,EventLoop.fireNext,hc]
    exact ⟨{ s with cursor := none },by simp [run_cons,hstep],h.leave,rfl,by simp⟩
  | cons n ps ih =>
    obtain ⟨s₁,hs₁,h₁,htimeout,hcur,hfire,-⟩ := h.fires hc
    obtain ⟨s₂,hs₂,h₂,hcur₂,hfire₂⟩ := ih h₁ hcur
    have hdeadline : s₁.deadline = s.deadline := by
      funext m
      rw [deadline,htimeout,deadline]
    refine ⟨s₂,run_cons_eq_some.mpr ⟨s₁,hs₁,hs₂⟩,h₂,hcur₂,?_⟩
    rw [hfire₂,hfire,hdeadline,List.append_assoc]
    rfl

/-- What the event loop does from here: a call of `processTimeouts` moves all that is due and
nothing else, and `firePending`, left alone, ends and has fired all that is pending. -/
structure Serves (s : EventLoop E) (ts ps : List (Node E)) : Prop where
  moves : ∀ now, Allowed s (.processTimeouts now) →
    ∃ s', step s (.processTimeouts now) = some s' ∧
      InOrder s' (ts.filter fun n => !decide ((s.timeout n).usecs < now.usecs))
        (ps ++ ts.filter fun n => decide ((s.timeout n).usecs < now.usecs))
  fires : s.cursor = none →
    ∃ s', run step s (.firePending::List.replicate (ps.length + 1) .fireNext) = some s' ∧
      InOrder s' ts [] ∧ s'.cursor = none ∧
      firings s'.log = firings s.log ++ ps.map s.deadline

theorem Good.serves (h : Good s ts ps) : Serves s ts ps where
  moves now ha := by
    obtain ⟨hnow,hclock,hcur⟩ := ha
    obtain ⟨s',hs',h',-⟩ := h.processTimeouts hnow hclock hcur
    exact ⟨s',hs',h'.toInOrder⟩
  fires hc := by
    have hcur : s.firePending.cursor = some (some (Listed.first ps .pendingList)) :=
      congrArg some h.lists.pending.next_head
    obtain ⟨s',hs',h',hc',hfire⟩ := h.firePending.firesAll hcur
    exact ⟨s',run_cons_eq_some.mpr ⟨s.firePending,rfl,hs'⟩,h'.toInOrder,hc',hfire⟩

/-- Timers fire in the order of their deadlines and never early, over every run: the lists and
what has fired are the agenda of the calls made. -/
theorem timers_inOrder (ops : List (Op E)) (hlog : s.log = []) (hcur : s.cursor = none)
    (ha : Along step Allowed s.rilEventInit ops) :
    ∃ s' ts ps, run step s.rilEventInit ops = some s' ∧ InOrder s' ts ps ∧ Serves s' ts ps ∧
      s'.agenda ts ps = ops.foldl Agenda.step {} ∧
      additions s'.log = ops.filterMap Op.addition := by
  obtain ⟨s',ts,ps,hs',h,hagenda,hadd⟩ := run_good (good_init hlog hcur) ha
  have hinit : s.rilEventInit.log = [] := hlog
  have hnone : s.rilEventInit.cursor = none := hcur
  refine ⟨s',ts,ps,hs',h.toInOrder,h.serves,?_,?_⟩
  · rw [hagenda,EventLoop.agenda,hinit,hnone]
    rfl
  · rw [hadd,hinit]
    rfl

/-- The timer that a callback adds again while the loop of `firePending` runs, with a
sooner one added by another thread. -/
def sampleOps : List (Op ℕ) :=
  [.timerAdd 1 (some ⟨2,0⟩) ⟨10,0⟩,.timerAdd 2 (some ⟨1,500000⟩) ⟨10,0⟩,.processTimeouts ⟨12,1⟩,
    .firePending,.fireNext,.timerAdd 2 (some ⟨0,999999⟩) ⟨12,2⟩,.fireNext,.fireNext,
    .processTimeouts ⟨12,5⟩]

def sampleLoop : EventLoop ℕ where
  next _ := none
  prev _ := none
  fd _ := 0
  timeout _ := ⟨0,0⟩
  clock := ⟨0,0⟩

theorem timers_inOrder_again :
    ∃ s' ts ps, run step sampleLoop.rilEventInit sampleOps = some s' ∧ InOrder s' ts ps ∧
      Serves s' ts ps ∧ s'.agenda ts ps = sampleOps.foldl Agenda.step {} ∧
      additions s'.log = sampleOps.filterMap Op.addition ∧
      firings s'.log = [(.ev 2,11500000),(.ev 1,12000000)] ∧
      ts.map s'.deadline = [(.ev 2,13000001)] ∧ ps = [] := by
  obtain ⟨s',ts,ps,hs',h,hserves,hagenda,hadd⟩ :=
    timers_inOrder (s:=sampleLoop) sampleOps rfl rfl (by decide +kernel)
  have heq : s'.agenda ts ps =
      ⟨[(.ev 2,13000001)],[],false,[(.ev 2,11500000),(.ev 1,12000000)]⟩ := by
    rw [hagenda]
    decide +kernel
  obtain ⟨hts,hps,-,hfired⟩ := Agenda.mk.inj heq
  exact ⟨s',ts,ps,hs',h,hserves,hagenda,hadd,hfired,hts,List.map_eq_nil_iff.mp hps⟩

/-- `calcNextTimeout` waits for the earliest deadline. -/
theorem Good.calcNextTimeout (h : Good s ts ps) (hnow : now.Normal) (hts : ts ≠ []) :
    ∃ tv n, s.calcNextTimeout now = some (some tv) ∧ n ∈ ts ∧
      tv.usecs = max ((s.timeout n).usecs - now.usecs) 0 ∧
      ∀ m ∈ ts, (s.timeout n).usecs ≤ (s.timeout m).usecs := by
  cases ts with
  | nil => exact absurd rfl hts
  | cons n ts =>
    have hn : n ≠ .timerList := by
      rintro rfl
      have := h.lists.timers.nodup
      simp at this
    have hnext : s.next .timerList = some n := h.lists.timers.next_head
    have hfirst : ∀ m ∈ n::ts, (s.timeout n).usecs ≤ (s.timeout m).usecs := by
      intro m hm
      rcases List.mem_cons.mp hm with rfl | hm
      · exact le_refl _
      · exact (List.pairwise_cons.mp h.sorted).1 m hm
    have hiff := timercmpGt_iff (h.normal n List.mem_cons_self) hnow
    cases hgt : timercmpGt (s.timeout n) now with
    | true =>
      refine ⟨timersub (s.timeout n) now,n,?_,List.mem_cons_self,?_,hfirst⟩
      · simp [EventLoop.calcNextTimeout,hnext,hn,hgt]
      · have hlt := hiff.mp hgt
        rw [timersub_usecs]
        omega
    | false =>
      refine ⟨⟨0,0⟩,n,?_,List.mem_cons_self,?_,hfirst⟩
      · simp [EventLoop.calcNextTimeout,hnext,hn,hgt]
      · have hle : ¬ now.usecs < (s.timeout n).usecs := by
          rw [← hiff,hgt]
          simp
        simp only [usecs] at hle ⊢
        omega

end Ril
end Kitakami

import Kitakami.Ril.Timers

/-!
# The two lists

What the list operations of the event loop do to circles of events: adding an
event in front of another, removing one, finding the place of a timer and
moving the expired ones.
-/

namespace Kitakami
namespace Ril

open Links Timeval

variable {E : Type} {s s' : EventLoop E} {c c' n : Node E} {l u v : List (Node E)}

namespace EventLoop

/-- The link fields; the null pointer has none. -/
def links (s : EventLoop E) : Links (Ptr E) where
  next p := p.bind s.next
  prev p := p.bind s.prev

/-- The list with the head `c` consists of the events `l`. -/
def Listed (s : EventLoop E) (c : Node E) (l : List (Node E)) : Prop :=
  s.links.Circle (some c) (l.map some)

/-- Only link fields differ. -/
def Relinked (s s' : EventLoop E) : Prop := s' = { s with next := s'.next, prev := s'.prev }

theorem Relinked.trans {s₁ s₂ s₃ : EventLoop E} (h : Relinked s₁ s₂) (h' : Relinked s₂ s₃) :
    Relinked s₁ s₃ := by
  rw [Relinked,h',h]

theorem links_next (s : EventLoop E) (n : Node E) : s.links.next (some n) = s.next n := rfl

theorem links_prev (s : EventLoop E) (n : Node E) : s.links.prev (some n) = s.prev n := rfl

/-! ## Walking -/

namespace Listed

/-- The event at the start of `l`, or the head of the list. -/
def first (l : List (Node E)) (c : Node E) : Node E := l.head?.getD c

def last (l : List (Node E)) (c : Node E) : Node E := l.getLast?.getD c

@[simp] theorem first_nil (c : Node E) : first [] c = c := rfl

@[simp] theorem first_cons (n : Node E) (l : List (Node E)) (c : Node E) : first (n::l) c = n := rfl

theorem head?_append (l : List (Node E)) (c : Node E) :
    (l.map some ++ [some c]).head? = some (some (first l c)) := by
  cases l <;> rfl

theorem getLast?_cons (l : List (Node E)) (c : Node E) :
    (some c::l.map some).getLast? = some (some (last l c)) := by
  rcases List.eq_nil_or_concat l with rfl | ⟨l,n,rfl⟩
  · rfl
  · rw [List.concat_eq_append,List.map_append,← List.cons_append,List.map_singleton,
      List.getLast?_concat,last,List.getLast?_concat,Option.getD_some]

theorem next_head (h : s.Listed c l) : s.next c = some (first l c) := by
  have hn := h.next_self
  rw [head?_append] at hn
  exact (Option.some.inj hn).symm

theorem next_mid (h : s.Listed c (u ++ n::v)) : s.next n = some (first v c) := by
  have hn := Circle.next_mid (u:=u.map some) (v:=v.map some) (by simpa [Listed] using h)
  rw [head?_append] at hn
  exact (Option.some.inj hn).symm

theorem prev_mid (h : s.Listed c (u ++ n::v)) : s.prev n = some (last u c) := by
  have hp := Circle.prev_mid (u:=u.map some) (v:=v.map some) (by simpa [Listed] using h)
  rw [getLast?_cons] at hp
  exact (Option.some.inj hp).symm

theorem prev_first (h : s.Listed c (u ++ v)) : s.prev (first v c) = some (last u c) := by
  have hj := Circle.joined (u:=u.map some) (v:=v.map some) (by simpa [Listed] using h)
    (getLast?_cons u c) (head?_append v c)
  exact hj.2

theorem nodup (h : s.Listed c l) : (c::l).Nodup :=
  List.Nodup.of_map some (by simpa using h.1)

theorem last_mem (l : List (Node E)) (c : Node E) : last l c ∈ c::l := by
  have hl := getLast?_cons l c
  have hmem := List.mem_of_mem_getLast? hl
  simpa using hmem

theorem first_mem (l : List (Node E)) (c : Node E) : first l c ∈ c::l := by
  cases l with
  | nil => exact List.mem_cons_self
  | cons n l => exact List.mem_cons_of_mem c List.mem_cons_self

/-- A list that has none of the edited events. -/
theorem congr (h : s.Listed c l)
    (hs : ∀ n ∈ c::l, s'.next n = s.next n ∧ s'.prev n = s.prev n) : s'.Listed c l := by
  refine Circle.congr h fun p hp => ?_
  obtain ⟨n,hn,rfl⟩ : ∃ n ∈ c::l, some n = p := by
    rw [← List.map_cons] at hp
    exact List.mem_map.mp hp
  exact hs n hn

end Listed

/-! ## Adding and removing -/

variable [DecidableEq E]

@[simp] theorem links_setNext (s : EventLoop E) (n : Node E) (p : Ptr E) :
    (s.setNext n p).links = ⟨Function.update s.links.next (some n) p,s.links.prev⟩ := by
  ext q r <;> rcases q with _ | m
  · simp [links]
  · by_cases hm : m = n <;> simp [links,setNext,Function.update_apply,hm]
  · simp [links]
  · simp [links,setNext]

@[simp] theorem links_setPrev (s : EventLoop E) (n : Node E) (p : Ptr E) :
    (s.setPrev n p).links = ⟨s.links.next,Function.update s.links.prev (some n) p⟩ := by
  ext q r <;> rcases q with _ | m
  · simp [links]
  · simp [links,setPrev]
  · simp [links]
  · by_cases hm : m = n <;> simp [links,setPrev,Function.update_apply,hm]

theorem addToList_spec (h : s.Listed c (u ++ v)) (hn : n ∉ c::(u ++ v)) :
    ∃ s', s.addToList n (Listed.first v c) = some s' ∧ Relinked s s' ∧ s'.Listed c (u ++ n::v) ∧
      ∀ m, m ∉ n::c::(u ++ v) → s'.next m = s.next m ∧ s'.prev m = s.prev m := by
  have hprev : s.prev (Listed.first v c) = some (Listed.last u c) := h.prev_first
  have hfirst : Listed.first v c ∈ c::(u ++ v) := by
    have := Listed.first_mem v c
    simp only [List.mem_cons,List.mem_append] at this ⊢
    tauto
  have hlast : Listed.last u c ∈ c::(u ++ v) := by
    have := Listed.last_mem u c
    simp only [List.mem_cons,List.mem_append] at this ⊢
    tauto
  have hfn : Listed.first v c ≠ n := fun he => hn (he ▸ hfirst)
  have hln : Listed.last u c ≠ n := fun he => hn (he ▸ hlast)
  refine ⟨(((s.setNext n (some (Listed.first v c))).setPrev n (some (Listed.last u c))).setNext
    (Listed.last u c) (some n)).setPrev (Listed.first v c) (some n),?_,rfl,?_,?_⟩
  · simp [addToList,setNext,setPrev,hprev]
  · have hc := Circle.insertBefore (u:=u.map some) (v:=v.map some) (x:=some n)
      (by simpa [Listed] using h) (by simpa using hn) (Listed.head?_append v c)
    rw [Listed,List.map_append,List.map_cons]
    refine hc.congr fun p _ => ?_
    simp only [links_setNext,links_setPrev,Links.insertBefore,Links.join,links_prev,hprev]
    refine ⟨?_,trivial⟩
    rw [Function.update_comm (by simpa using hln.symm)]
  · intro m hm
    simp only [List.mem_cons,not_or] at hm
    have hmf : m ≠ Listed.first v c := by
      rintro rfl
      simp only [List.mem_cons] at hfirst
      tauto
    have hml : m ≠ Listed.last u c := by
      rintro rfl
      simp only [List.mem_cons] at hlast
      tauto
    simp [setNext,setPrev,hm.1,hmf,hml]

theorem removeFromList_spec (h : s.Listed c (u ++ n::v)) :
    ∃ s', s.removeFromList n = some s' ∧ Relinked s s' ∧ s'.Listed c (u ++ v) ∧
      ∀ m, m ∉ c::(u ++ n::v) → s'.next m = s.next m ∧ s'.prev m = s.prev m := by
  have hnd := h.nodup
  have hnext := h.next_mid
  have hprev := h.prev_mid
  have hfirst : Listed.first v c ∈ c::v := Listed.first_mem v c
  have hlast : Listed.last u c ∈ c::u := Listed.last_mem u c
  have hne : n ∉ c::(u ++ v) := by
    simp only [List.nodup_cons,List.mem_append,List.mem_cons,not_or,List.nodup_append] at hnd
    simp only [List.mem_cons,List.mem_append,not_or]
    exact ⟨Ne.symm hnd.1.2.1,fun hu => hnd.2.2.2 n hu n (Or.inl rfl) rfl,hnd.2.2.1.1⟩
  have hfn : Listed.first v c ≠ n := by
    rintro he
    rw [he] at hfirst
    simp only [List.mem_cons,List.mem_append] at hne hfirst
    tauto
  have hln : Listed.last u c ≠ n := by
    rintro he
    rw [he] at hlast
    simp only [List.mem_cons,List.mem_append] at hne hlast
    tauto
  refine ⟨(((s.setPrev (Listed.first v c) (some (Listed.last u c))).setNext (Listed.last u c)
    (some (Listed.first v c))).setNext n none).setPrev n none,?_,rfl,?_,?_⟩
  · simp [removeFromList,setNext,setPrev,hnext,hprev,hfn.symm]
  · have hc := Circle.unlink (u:=u.map some) (v:=v.map some) (x:=some n)
      (by simpa [Listed] using h)
    rw [Listed,List.map_append]
    refine hc.congr fun p hp => ?_
    have hpn : p ≠ some n := by
      rintro rfl
      simp only [List.mem_cons,List.mem_append,List.mem_map,Option.some.injEq,exists_eq_right] at hp hne
      tauto
    simp only [links_setNext,links_setPrev,Links.unlink,Links.join,links_prev,links_next,hprev,hnext]
    exact ⟨Function.update_of_ne hpn _ _,Function.update_of_ne hpn _ _⟩
  · intro m hm
    simp only [List.mem_cons,List.mem_append,not_or] at hm
    have hmf : m ≠ Listed.first v c := by
      rintro rfl
      simp only [List.mem_cons] at hfirst
      tauto
    have hml : m ≠ Listed.last u c := by
      rintro rfl
      simp only [List.mem_cons] at hlast
      tauto
    simp [setNext,setPrev,hm.2.2.1,hmf,hml]

/-! ## Both lists -/

/-- The timer list and the pending list, which have no event in common. -/
structure Lists (s : EventLoop E) (ts ps : List (Node E)) : Prop where
  timers : s.Listed .timerList ts
  pending : s.Listed .pendingList ps
  apart : List.Disjoint (.timerList::ts) (.pendingList::ps)

variable {ts ps : List (Node E)}

theorem Lists.insert (h : Lists s (u ++ v) ps) (ht : n ∉ Node.timerList::(u ++ v))
    (hp : n ∉ Node.pendingList::ps) :
    ∃ s', s.addToList n (Listed.first v .timerList) = some s' ∧ Relinked s s' ∧
      Lists s' (u ++ n::v) ps := by
  obtain ⟨s',hs',hr,hl,hframe⟩ := addToList_spec h.timers ht
  refine ⟨s',hs',hr,hl,h.pending.congr fun m hm => hframe m ?_,?_⟩
  · intro hm'
    rcases List.mem_cons.mp hm' with rfl | hm'
    · exact hp hm
    · exact h.apart hm' hm
  · intro m hm hm'
    have hmem : m = n ∨ m ∈ Node.timerList::(u ++ v) := by
      simp only [List.mem_cons,List.mem_append] at hm ⊢
      tauto
    rcases hmem with rfl | hmem
    · exact hp hm'
    · exact h.apart hmem hm'

/-- The first pending event is taken out. -/
theorem Lists.takeFirst (h : Lists s ts (n::ps)) :
    ∃ s', s.removeFromList n = some s' ∧ Relinked s s' ∧ Lists s' ts ps := by
  obtain ⟨s',hs',hr,hl,hframe⟩ := removeFromList_spec (u:=[]) h.pending
  refine ⟨s',hs',hr,h.timers.congr fun m hm => hframe m fun hm' => h.apart hm hm',hl,?_⟩
  intro m hm hm'
  refine h.apart hm ?_
  simp only [List.mem_cons] at hm' ⊢
  tauto

/-- The first timer becomes the last pending event. -/
theorem Lists.moveFirst (h : Lists s (n::ts) ps) :
    ∃ s₁ s₂, s.removeFromList n = some s₁ ∧ s₁.addToList n .pendingList = some s₂ ∧
      Relinked s s₂ ∧ Lists s₂ ts (ps ++ [n]) := by
  obtain ⟨s₁,hs₁,hr₁,hl₁,hframe₁⟩ := removeFromList_spec (u:=[]) h.timers
  have hp₁ : s₁.Listed .pendingList ps :=
    h.pending.congr fun m hm => hframe₁ m fun hm' => h.apart hm' hm
  have hnp : n ∉ Node.pendingList::(ps ++ []) := by
    rw [List.append_nil]
    exact fun hn => h.apart (List.mem_cons_of_mem _ List.mem_cons_self) hn
  obtain ⟨s₂,hs₂,hr₂,hl₂,hframe₂⟩ := addToList_spec (u:=ps) (v:=[]) (by simpa using hp₁) hnp
  have hnd := h.timers.nodup
  refine ⟨s₁,s₂,hs₁,hs₂,hr₁.trans hr₂,hl₁.congr fun m hm => hframe₂ m ?_,hl₂,?_⟩
  · intro hm'
    rw [List.append_nil] at hm'
    rcases List.mem_cons.mp hm' with rfl | hm'
    · simp only [List.nodup_cons,List.mem_cons,not_or] at hnd
      simp only [List.nil_append,List.mem_cons] at hm
      rcases hm with hm | hm
      · exact hnd.1.1 hm.symm
      · exact hnd.2.1 hm
    · refine h.apart ?_ hm'
      simp only [List.nil_append,List.mem_cons] at hm ⊢
      tauto
  · intro m hm hm'
    simp only [List.nodup_cons,List.mem_cons,not_or] at hnd
    simp only [List.mem_cons,List.mem_append,List.not_mem_nil,or_false] at hm hm'
    rcases hm' with hm' | hm' | rfl
    · exact h.apart (a:=m) (by simp only [List.mem_cons]; tauto) (by simp [hm'])
    · exact h.apart (a:=m) (by simp only [List.mem_cons]; tauto) (by simp [hm'])
    · rcases hm with hm | hm
      · exact hnd.1.1 hm.symm
      · exact hnd.2.1 hm

/-! ## The loops -/

/-- The walk stops in front of the first timer that is not earlier. -/
theorem sortedPlace_spec {p : Node E → Bool} (fuel : ℕ) (h : s.Listed .timerList (u ++ v))
    (hp : ∀ m ∈ v, timercmpLt (s.timeout m) (s.timeout n) = p m) (hf : v.length < fuel) :
    s.sortedPlace n fuel (some (Listed.first v .timerList)) =
      some (Listed.first (v.dropWhile p) .timerList) := by
  induction fuel generalizing u v with
  | zero => omega
  | succ fuel ih =>
    cases v with
    | nil => simp [sortedPlace]
    | cons m v =>
      have hm : m ≠ .timerList := by
        rintro rfl
        have := h.nodup
        simp at this
      have hpm := hp m List.mem_cons_self
      cases hlt : p m with
      | true =>
        have hnext : s.next m = some (Listed.first v .timerList) := h.next_mid
        have hrest := ih (u:=u ++ [m]) (v:=v) (by simpa using h)
          (fun k hk => hp k (List.mem_cons_of_mem m hk)) (by simpa using hf)
        simpa [sortedPlace,hpm,hlt,hm,hnext] using hrest
      | false => simp [sortedPlace,hpm,hlt]

/-- A new timer goes in front of the first one that is not earlier. -/
theorem rilTimerAdd_spec {e : E} (tv now : Timeval) (h : Lists s ts ps) (ht : Node.ev e ∉ ts)
    (hp : Node.ev e ∉ ps) (hf : ts.length ≤ s.log.length) :
    ∃ s', s.rilTimerAdd e (some tv) now = some s' ∧
      s'.Lists (ts.takeWhile (fun m => timercmpLt (s.timeout m) (timeradd now tv)) ++
        .ev e::ts.dropWhile fun m => timercmpLt (s.timeout m) (timeradd now tv)) ps ∧
      s'.timeout = Function.update s.timeout (.ev e) (timeradd now tv) ∧ s'.clock = now ∧
      s'.cursor = s.cursor ∧ s'.log = s.log ++ [.added (.ev e) now tv] := by
  set n : Node E := .ev e with hn
  set p : Node E → Bool := fun m => timercmpLt (s.timeout m) (timeradd now tv)
  -- the event with its new timeout
  set s₁ : EventLoop E := { s with
    fd := Function.update s.fd n (-1)
    clock := now
    timeout := Function.update s.timeout n (timeradd now tv) }
  have hlists : s₁.Lists (ts.takeWhile p ++ ts.dropWhile p) ps := by
    rw [List.takeWhile_append_dropWhile]
    exact ⟨h.timers,h.pending,h.apart⟩
  have hplace : s₁.sortedPlace n (s.log.length + 1) (some (Listed.first ts .timerList)) =
      some (Listed.first (ts.dropWhile p) .timerList) := by
    refine sortedPlace_spec (u:=[]) _ h.timers ?_ (Nat.lt_succ_of_le hf)
    intro m hm
    have hmn : m ≠ n := fun he => ht (he ▸ hm)
    simp [s₁,p,hmn]
  obtain ⟨s₂,hs₂,hr,hl⟩ := hlists.insert (n:=n)
    (by rw [List.takeWhile_append_dropWhile]; simpa [hn] using ht) (by simpa [hn] using hp)
  refine ⟨{ s₂ with log := s.log ++ [.added n now tv] },?_,⟨hl.timers,hl.pending,hl.apart⟩,
    by simp only; rw [hr],by simp only; rw [hr],by simp only; rw [hr],rfl⟩
  have hlog : s₂.log = s.log := by rw [hr]
  have hfirst : s.next .timerList = some (Listed.first ts .timerList) := h.timers.next_head
  simp only [rilTimerAdd]
  rw [← hn,hfirst]
  show (s₁.sortedPlace n (s.log.length + 1) (some (Listed.first ts .timerList))).bind _ = _
  rw [hplace,Option.bind_some]
  show (s₁.addToList n _).bind _ = _
  rw [hs₂,Option.bind_some,hlog]
  rfl

/-- The expired timers at the start of the list become pending, in their order. -/
theorem moveExpired_spec (now : Timeval) (fuel : ℕ) (h : Lists s ts ps) (hf : ts.length < fuel) :
    ∃ s', moveExpired now fuel (some (Listed.first ts .timerList)) s =
        some ((ts.takeWhile fun n => timercmpGt now (s.timeout n)).map fun n => (n,s.timeout n),s') ∧
      Relinked s s' ∧ Lists s' (ts.dropWhile fun n => timercmpGt now (s.timeout n))
        (ps ++ ts.takeWhile fun n => timercmpGt now (s.timeout n)) := by
  induction fuel generalizing s ts ps with
  | zero => omega
  | succ fuel ih =>
    cases ts with
    | nil => exact ⟨s,by simp [moveExpired],rfl,by simpa using h⟩
    | cons n ts =>
      have hn : n ≠ .timerList := by
        rintro rfl
        have := h.timers.nodup
        simp at this
      cases hgt : timercmpGt now (s.timeout n) with
      | true =>
        have hnext : s.next n = some (Listed.first ts .timerList) :=
          Listed.next_mid (u:=[]) h.timers
        obtain ⟨s₁,s₂,hs₁,hs₂,hr,hl⟩ := h.moveFirst
        have htimeout : s₂.timeout = s.timeout := by rw [hr]
        obtain ⟨s₃,hs₃,hr₃,hl₃⟩ := ih hl (by simpa using hf)
        rw [htimeout] at hs₃ hl₃
        refine ⟨s₃,?_,hr.trans hr₃,?_⟩
        · simp [moveExpired,hn,hgt,hnext,hs₁,hs₂,hs₃]
        · simpa [hgt] using hl₃
      | false =>
        exact ⟨s,by simp [moveExpired,hn,hgt],rfl,by simpa [hgt] using h⟩

theorem processTimeouts_spec (now : Timeval) (h : Lists s ts ps) (hf : ts.length ≤ s.log.length) :
    ∃ s', s.processTimeouts now = some s' ∧
      s'.Lists (ts.dropWhile fun n => timercmpGt now (s.timeout n))
        (ps ++ ts.takeWhile fun n => timercmpGt now (s.timeout n)) ∧
      s'.timeout = s.timeout ∧ s'.clock = now ∧ s'.cursor = s.cursor ∧
      s'.log = s.log ++ [.processed now
        ((ts.takeWhile fun n => timercmpGt now (s.timeout n)).map fun n => (n,s.timeout n))] := by
  have hlists : Lists { s with clock := now } ts ps := ⟨h.timers,h.pending,h.apart⟩
  obtain ⟨s₁,hs₁,hr,hl⟩ := moveExpired_spec now (s.log.length + 1) hlists (Nat.lt_succ_of_le hf)
  have hfirst : s.next .timerList = some (Listed.first ts .timerList) := h.timers.next_head
  have hlog : s₁.log = s.log := by rw [hr]
  refine ⟨{ s₁ with log := s.log ++ [.processed now
      ((ts.takeWhile fun n => timercmpGt now (s.timeout n)).map fun n => (n,s.timeout n))] },?_,
    ⟨hl.timers,hl.pending,hl.apart⟩,by simp only; rw [hr],by simp only; rw [hr],
    by simp only; rw [hr],rfl⟩
  simp [processTimeouts,hfirst,hs₁,hlog]

/-- A round of `firePending` fires the first pending event. -/
theorem fireNext_spec (h : Lists s ts (n::ps)) (hc : s.cursor = some (some n)) :
    ∃ s', s.fireNext = some s' ∧ s'.Lists ts ps ∧ s'.timeout = s.timeout ∧ s'.clock = s.clock ∧
      s'.cursor = some (some (Listed.first ps .pendingList)) ∧
      s'.log = s.log ++ [.fired n (s.timeout n) s.clock] := by
  have hn : n ≠ .pendingList := by
    rintro rfl
    have := h.pending.nodup
    simp at this
  have hnext : s.next n = some (Listed.first ps .pendingList) := Listed.next_mid (u:=[]) h.pending
  obtain ⟨s₁,hs₁,hr,hl⟩ := h.takeFirst
  have hlog : s₁.log = s.log := by rw [hr]
  have hclock : s₁.clock = s.clock := by rw [hr]
  have htimeout : s₁.timeout = s.timeout := by rw [hr]
  refine ⟨{ s₁ with
    cursor := some (some (Listed.first ps .pendingList))
    log := s.log ++ [.fired n (s.timeout n) s.clock] },?_,⟨hl.timers,hl.pending,hl.apart⟩,htimeout,
    hclock,rfl,rfl⟩
  simp [fireNext,hc,hn,hs₁,hnext,hlog,hclock,htimeout]

end EventLoop
end Ril
end Kitakami

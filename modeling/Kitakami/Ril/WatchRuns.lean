import Kitakami.Ril.TimerRuns
import Kitakami.Ril.WatchTable

/-!
# Runs of the RIL event loop

The lists of the loop and its table together, over every order of the steps of
the loop and of the calls by other threads and callbacks: whatever was queued has
fired or is still pending, in the order in which it was queued.
-/

namespace Kitakami
namespace Ril
namespace Watch

open Runs EventLoop Timeval

variable {E : Type} {s s' : Loop E} {l l' : EventLoop E} {ts ps : List (Node E)} {e f : E}
  {n : Node E}

def firedNode : Entry E → Option (Node E)
  | .fired n _ _ => some n
  | _ => none

/-- The events that have fired, in order. -/
def fired (log : List (Entry E)) : List (Node E) := log.filterMap firedNode

/-- What the phase of the loop says of the pending list. -/
def Turn (s : Loop E) (ps : List (Node E)) : Prop :=
  match s.phase with
  | .select => ps = []
  | .processTimeouts rfds n => ps = [] ∧ n = rfds.card
  | .processReadReadies rfds n => (∀ p ∈ ps, s.events.fd p = -1) ∧ n = rfds.card
  | .firePending => True
  | .firing => s.events.cursor = some (some (Listed.first ps .pendingList))

@[simp] theorem fired_append (u v : List (Entry E)) : fired (u ++ v) = fired u ++ fired v :=
  List.filterMap_append

theorem Turn.congr (h : Turn s ps) (hphase : s'.phase = s.phase)
    (hfd : ∀ p ∈ ps, s.events.fd p = -1 → s'.events.fd p = -1)
    (hcursor : s'.events.cursor = s.events.cursor) : Turn s' ps := by
  unfold Turn at h ⊢
  rw [hphase]
  cases hp : s.phase with
  | processReadReadies rfds n =>
    rw [hp] at h
    exact ⟨fun p hp => hfd p hp (h.1 p hp),h.2⟩
  | select => rw [hp] at h; exact h
  | processTimeouts rfds n => rw [hp] at h; exact h
  | firePending => trivial
  | firing =>
    rw [hp] at h
    exact hcursor.trans h

/-- The invariant, with the timers `ts` and the pending events `ps`. -/
structure Watching (s : Loop E) (ts ps : List (Node E)) : Prop where
  table : Table s
  lists : s.events.Lists ts ps
  bound : ts.length ≤ s.events.log.length
  sorted : ts.Pairwise fun m n => (s.events.timeout m).key ≤ (s.events.timeout n).key
  timers : ∀ n ∈ ts, s.events.fd n = -1
  turn : Turn s ps
  queue : s.queued = fired s.events.log ++ ps

/-! ## The lists -/

theorem listed_next {c : Node E} {k : List (Node E)} (h : l.Listed c k) (hn : n ∈ c::k) :
    l.next n ≠ none := by
  rcases List.mem_cons.mp hn with rfl | hn
  · simp [h.next_head]
  · obtain ⟨u,v,rfl⟩ := List.append_of_mem hn
    simp [h.next_mid]

theorem lists_congr (h : l.Lists ts ps)
    (hl : ∀ m, l.next m ≠ none → l'.next m = l.next m ∧ l'.prev m = l.prev m) : l'.Lists ts ps :=
  ⟨h.timers.congr fun m hm => hl m (listed_next h.timers hm),
    h.pending.congr fun m hm => hl m (listed_next h.pending hm),h.apart⟩

theorem sorted_congr (h : ts.Pairwise fun m n => (l.timeout m).key ≤ (l.timeout n).key)
    (hl : ∀ m ∈ ts, l'.timeout m = l.timeout m) :
    ts.Pairwise fun m n => (l'.timeout m).key ≤ (l'.timeout n).key :=
  h.imp_of_mem fun ha hb hab => by rwa [hl _ ha,hl _ hb]

/-- The timers that expire are all those before `now`. -/
theorem Watching.expires (h : Watching s ts ps) (now : Timeval) :
    ts.takeWhile (fun n => timercmpGt now (s.events.timeout n)) =
      ts.filter fun n => timercmpGt now (s.events.timeout n) := by
  refine takeWhile_eq_filter (not_of_mem_dropWhile h.sorted ?_)
  intro m _ n _ hmn hn
  rw [timercmpGt_iff_key] at hn ⊢
  exact hmn.trans_lt hn

theorem Watching.not_timer (h : Watching s ts ps) (he : 0 ≤ s.fd e) : .ev e ∉ ts := by
  intro hmem
  have := h.timers _ hmem
  rw [Loop.fd,this] at he
  omega

theorem idle_not_mem (h : Watching s ts ps) (hi : Idle s e) :
    Node.ev e ∉ Node.timerList::ts ∧ Node.ev e ∉ Node.pendingList::ps :=
  ⟨fun hm => listed_next h.lists.timers hm hi.1,fun hm => listed_next h.lists.pending hm hi.1⟩

theorem Watching.select (h : Watching s ts ps) (hphase : s.phase = .select) (rfds : Finset ℤ) :
    s.select (some rfds) = some { s with phase := .processTimeouts rfds rfds.card } ∧
      Watching { s with phase := .processTimeouts rfds rfds.card } ts ps := by
  have hturn := h.turn
  rw [Turn,hphase] at hturn
  exact ⟨by simp [Loop.select,hphase],h.table.congr rfl rfl (fun _ _ _ => rfl) rfl rfl,h.lists,
    h.bound,h.sorted,h.timers,⟨hturn,rfl⟩,h.queue⟩

theorem Watching.firePending (h : Watching s ts ps) (hphase : s.phase = .firePending) :
    s.firePending = some { s with events := s.events.firePending, phase := .firing } ∧
      Watching { s with events := s.events.firePending, phase := .firing } ts ps := by
  refine ⟨by simp [Loop.firePending,hphase],h.table.congr rfl rfl (fun _ _ _ => rfl) rfl rfl,
    ⟨h.lists.timers,h.lists.pending,h.lists.apart⟩,h.bound,h.sorted,h.timers,?_,h.queue⟩
  show some (s.events.next .pendingList) = _
  rw [h.lists.pending.next_head]

/-! ## Ready slots -/

/-- The event of a slot, if its descriptor is ready. -/
def readyAt (s : Loop E) (rfds : Finset ℤ) (i : Fin maxFdEvents) : Option (Node E) :=
  match s.watchTable i with
  | some rev => if s.fd rev ∈ rfds then some (.ev rev) else none
  | none => none

theorem readyAt_eq_some {rfds : Finset ℤ} {i : Fin maxFdEvents} : readyAt s rfds i = some n ↔
    ∃ rev, s.watchTable i = some rev ∧ s.fd rev ∈ rfds ∧ n = .ev rev := by
  unfold readyAt
  cases s.watchTable i with
  | none => simp
  | some rev =>
    by_cases hr : s.fd rev ∈ rfds <;> simp [hr,eq_comm]

/-- The slot after the walk: a ready event stays only if it is persistent. -/
def keptAt (s : Loop E) (rfds : Finset ℤ) (i : Fin maxFdEvents) : Option E :=
  match s.watchTable i with
  | some rev => if s.fd rev ∈ rfds ∧ s.persist rev = false then none else some rev
  | none => none

/-- As many events of the table are ready as `select` says, or fewer. -/
theorem Table.ready_le (h : Table s) (rfds : Finset ℤ) :
    (((List.finRange maxFdEvents).filterMap (readyAt s rfds)).length : ℤ) ≤ rfds.card := by
  have hmap : ((List.finRange maxFdEvents).filterMap (readyAt s rfds)).map s.events.fd =
      (List.finRange maxFdEvents).filterMap fun i => (readyAt s rfds i).map s.events.fd := by
    rw [List.map_filterMap]
  have hnd : ((List.finRange maxFdEvents).filterMap fun i =>
      (readyAt s rfds i).map s.events.fd).Nodup := by
    refine (List.nodup_finRange _).filterMap fun i j d hi hj => ?_
    simp only [Option.mem_def,Option.map_eq_some_iff,readyAt_eq_some] at hi hj
    obtain ⟨-,⟨e,he,-,rfl⟩,hd⟩ := hi
    obtain ⟨-,⟨f,hf,-,rfl⟩,hd'⟩ := hj
    exact h.own i j e f he hf (hd.trans hd'.symm)
  have hsub : ∀ d ∈ (List.finRange maxFdEvents).filterMap fun i =>
      (readyAt s rfds i).map s.events.fd, d ∈ rfds := by
    intro d hd
    obtain ⟨i,-,hi⟩ := List.mem_filterMap.mp hd
    simp only [Option.map_eq_some_iff,readyAt_eq_some] at hi
    obtain ⟨-,⟨e,-,he,rfl⟩,rfl⟩ := hi
    exact he
  have hcard := Finset.card_le_card (s:=((List.finRange maxFdEvents).filterMap fun i =>
    (readyAt s rfds i).map s.events.fd).toFinset) (t:=rfds) fun d hd => hsub d (List.mem_toFinset.mp hd)
  rw [List.toFinset_card_of_nodup hnd,← hmap,List.length_map] at hcard
  exact_mod_cast hcard

theorem readyAt_congr {rfds : Finset ℤ} {i : Fin maxFdEvents}
    (htable : s'.watchTable i = s.watchTable i) (hfd : s'.events.fd = s.events.fd) :
    readyAt s' rfds i = readyAt s rfds i := by
  unfold readyAt
  rw [htable]
  cases s.watchTable i with
  | none => rfl
  | some rev => exact if_congr (by simp [Loop.fd,hfd]) rfl rfl

theorem keptAt_congr {rfds : Finset ℤ} {i : Fin maxFdEvents}
    (htable : s'.watchTable i = s.watchTable i) (hfd : s'.events.fd = s.events.fd)
    (hpersist : s'.persist = s.persist) : keptAt s' rfds i = keptAt s rfds i := by
  unfold keptAt
  rw [htable]
  cases s.watchTable i with
  | none => rfl
  | some rev => exact if_congr (by simp [Loop.fd,hfd,hpersist]) rfl rfl

variable [DecidableEq E]

/-- An event that is in no list becomes the last pending one. -/
theorem lists_queue (h : l.Lists ts ps) (ht : n ∉ Node.timerList::ts) (hp : n ∉ Node.pendingList::ps) :
    ∃ l', l.addToList n .pendingList = some l' ∧ Relinked l l' ∧ l'.Lists ts (ps ++ [n]) := by
  obtain ⟨l',hl',hr,hlist,hframe⟩ :=
    addToList_spec (u:=ps) (v:=[]) (by simpa using h.pending) (by simpa using hp)
  refine ⟨l',hl',hr,h.timers.congr fun m hm => hframe m ?_,hlist,?_⟩
  · rw [List.append_nil]
    intro hm'
    rcases List.mem_cons.mp hm' with rfl | hm'
    · exact ht hm
    · exact h.apart hm hm'
  · intro m hm hm'
    rw [← List.cons_append] at hm'
    rcases List.mem_append.mp hm' with hm' | hm'
    · exact h.apart hm hm'
    · obtain rfl := List.mem_singleton.mp hm'
      exact ht hm

theorem addToList_fd {c : Node E} (hl : l.addToList n c = some l') : l'.fd = l.fd := by
  simp only [addToList,Option.bind_eq_bind,Option.bind_eq_some_iff,Option.pure_def] at hl
  obtain ⟨p,-,hl⟩ := hl
  rw [← Option.some.inj hl]
  rfl

theorem processTimeouts_fd {now : Timeval} (h : l.Lists ts ps) (hf : ts.length ≤ l.log.length)
    (hl : l.processTimeouts now = some l') : l'.fd = l.fd := by
  have hlists : Lists { l with clock := now } ts ps := ⟨h.timers,h.pending,h.apart⟩
  obtain ⟨l₁,hl₁,hr,-⟩ := moveExpired_spec now (l.log.length + 1) hlists (Nat.lt_succ_of_le hf)
  have hfirst : l.next .timerList = some (Listed.first ts .timerList) := h.timers.next_head
  have hfd : l₁.fd = l.fd := by rw [hr]
  simp only [EventLoop.processTimeouts,hfirst,hl₁,Option.bind_eq_bind,Option.bind_some] at hl
  rw [← Option.some.inj hl]
  exact hfd

theorem fireNext_fd (h : l.Lists ts (n::ps)) (hc : l.cursor = some (some n))
    (hl : l.fireNext = some l') : l'.fd = l.fd := by
  have hn : n ≠ .pendingList := by
    rintro rfl
    have := h.pending.nodup
    simp at this
  obtain ⟨l₁,hl₁,hr,-⟩ := h.takeFirst
  have hfd : l₁.fd = l.fd := by rw [hr]
  simp only [EventLoop.fireNext,hc,Option.some.injEq,hn,if_false,Option.bind_eq_bind,
    Option.bind_some,hl₁] at hl
  rw [← Option.some.inj hl]
  exact hfd

theorem rilTimerAdd_fd {tv now : Timeval} (hl : l.rilTimerAdd e (some tv) now = some l') :
    l'.fd = Function.update l.fd (.ev e) (-1) := by
  simp only [EventLoop.rilTimerAdd,Option.bind_eq_bind,Option.bind_eq_some_iff,Option.pure_def] at hl
  obtain ⟨c,-,l₁,hl₁,hl⟩ := hl
  rw [← Option.some.inj hl]
  exact addToList_fd hl₁

/-! ## The walk of the table -/

/-- One slot: a ready event is queued, and stays in the table only if it is persistent. -/
theorem readSlot_spec {rfds : Finset ℤ} {i : Fin maxFdEvents} {k : ℤ} (ht : Table s)
    (hl : s.events.Lists ts ps) (hout : ∀ n, readyAt s rfds i = some n → n ∉ ts ∧ n ∉ ps) :
    ∃ s', s.readSlot rfds i k = some (k - (readyAt s rfds i).toList.length,s') ∧ Table s' ∧
      s'.events.Lists ts (ps ++ (readyAt s rfds i).toList) ∧ Relinked s.events s'.events ∧
      s'.queued = s.queued ++ (readyAt s rfds i).toList ∧ s'.persist = s.persist ∧
      s'.phase = s.phase ∧
      s'.watchTable = Function.update s.watchTable i (keptAt s rfds i) := by
  unfold Loop.readSlot
  cases hi : s.watchTable i with
  | none =>
    have hready : readyAt s rfds i = none := by simp [readyAt,hi]
    have hkept : keptAt s rfds i = s.watchTable i := by simp [keptAt,hi]
    rw [hready,hkept,Function.update_eq_self]
    exact ⟨s,by simp,ht,by simpa using hl,rfl,by simp,rfl,rfl,rfl⟩
  | some rev =>
    by_cases hr : s.fd rev ∈ rfds
    · have hready : readyAt s rfds i = some (.ev rev) := readyAt_eq_some.mpr ⟨rev,hi,hr,rfl⟩
      obtain ⟨hts,hps⟩ := hout _ hready
      obtain ⟨l,hadd,hrel,hlists⟩ := lists_queue (n:=.ev rev) hl (by simpa using hts) (by simpa using hps)
      have hfd : l.fd = s.events.fd := addToList_fd hadd
      set s₁ : Loop E := { s with events := l, queued := s.queued ++ [.ev rev] } with hs₁
      have ht₁ : Table s₁ := ht.congr rfl rfl (fun j e _ => congrFun hfd _) rfl rfl
      simp only [hr,if_true,hadd,Option.bind_eq_bind,Option.bind_some,hready,Option.toList_some,
        List.length_singleton,Option.pure_def,Option.some.injEq,Prod.mk.injEq]
      cases hp : s.persist rev with
      | true =>
        have hkept : keptAt s rfds i = s.watchTable i := by simp [keptAt,hi,hp]
        rw [hkept,Function.update_eq_self]
        refine ⟨s₁,⟨by simp,by simp [hs₁]⟩,ht₁,hlists,hrel,rfl,rfl,rfl,rfl⟩
      | false =>
        have hkept : keptAt s rfds i = none := by simp [keptAt,hi,hr,hp]
        obtain ⟨hevents,hpersist,hphase,hqueued,htable,-,-⟩ := removeWatch_frame s₁ rev i
        refine ⟨s₁.removeWatch rev i,⟨by simp,by simp [hs₁]⟩,ht₁.removeWatch hi,?_,?_,?_,?_,?_,?_⟩
        · rw [hevents]
          exact hlists
        · rw [hevents]
          exact hrel
        · rw [hqueued]
        · rw [hpersist]
        · rw [hphase]
        · rw [htable,hkept]
    · have hready : readyAt s rfds i = none := by simp [readyAt,hi,hr]
      have hkept : keptAt s rfds i = s.watchTable i := by simp [keptAt,hi,hr]
      rw [hready,hkept,Function.update_eq_self]
      exact ⟨s,by simp [hr],ht,by simpa using hl,rfl,by simp,rfl,rfl,rfl⟩

/-- The walk queues the ready events in the order of their slots. It may end early, when `k` is
used up, and leaves no ready event behind then. -/
theorem readSlots_spec {rfds : Finset ℤ} {is : List (Fin maxFdEvents)} {k : ℤ} (ht : Table s)
    (hl : s.events.Lists ts ps) (hnd : is.Nodup)
    (hout : ∀ i ∈ is, ∀ n, readyAt s rfds i = some n → n ∉ ts ∧ n ∉ ps)
    (hk : ((is.filterMap (readyAt s rfds)).length : ℤ) ≤ k) :
    ∃ s', Loop.readSlots rfds is k s = some s' ∧ Table s' ∧
      s'.events.Lists ts (ps ++ is.filterMap (readyAt s rfds)) ∧ Relinked s.events s'.events ∧
      s'.queued = s.queued ++ is.filterMap (readyAt s rfds) ∧ s'.phase = s.phase ∧
      ∀ i, s'.watchTable i = if i ∈ is then keptAt s rfds i else s.watchTable i := by
  induction is generalizing s ps k with
  | nil => exact ⟨s,rfl,ht,by simpa using hl,rfl,by simp,rfl,by simp⟩
  | cons i is ih =>
    obtain ⟨hi,hnd⟩ := List.nodup_cons.mp hnd
    by_cases hpos : k > 0
    · obtain ⟨s₁,hs₁,ht₁,hl₁,hr₁,hq₁,hp₁,hph₁,htable₁⟩ :=
        readSlot_spec (k:=k) ht hl (hout i List.mem_cons_self)
      have hfd : s₁.events.fd = s.events.fd := by rw [hr₁]
      have htable : ∀ j ∈ is, s₁.watchTable j = s.watchTable j := by
        intro j hj
        rw [htable₁,Function.update_of_ne]
        rintro rfl
        exact hi hj
      have hready : is.filterMap (readyAt s₁ rfds) = is.filterMap (readyAt s rfds) :=
        List.filterMap_congr fun j hj => readyAt_congr (htable j hj) hfd
      have hcons : (i::is).filterMap (readyAt s rfds) =
          (readyAt s rfds i).toList ++ is.filterMap (readyAt s rfds) := by
        cases hi : readyAt s rfds i <;> simp [hi]
      have hout₁ : ∀ j ∈ is, ∀ n, readyAt s₁ rfds j = some n →
          n ∉ ts ∧ n ∉ ps ++ (readyAt s rfds i).toList := by
        intro j hj n hn
        rw [readyAt_congr (htable j hj) hfd] at hn
        obtain ⟨hnts,hnps⟩ := hout j (List.mem_cons_of_mem i hj) n hn
        refine ⟨hnts,fun hmem => ?_⟩
        rcases List.mem_append.mp hmem with hmem | hmem
        · exact hnps hmem
        · obtain ⟨e,he,-,rfl⟩ := readyAt_eq_some.mp hn
          obtain ⟨f,hf,-,hef⟩ := readyAt_eq_some.mp (Option.mem_toList.mp hmem)
          obtain rfl : e = f := by simpa using hef
          exact hi (ht.slot_inj hf he ▸ hj)
      obtain ⟨s₂,hs₂,ht₂,hl₂,hr₂,hq₂,hph₂,htable₂⟩ := ih
        (k:=k - (readyAt s rfds i).toList.length) ht₁ hl₁ hnd hout₁
        (by rw [hcons] at hk; rw [hready]; simp at hk; omega)
      refine ⟨s₂,?_,ht₂,?_,hr₁.trans hr₂,?_,hph₂.trans hph₁,fun j => ?_⟩
      · rw [Loop.readSlots,if_pos hpos,hs₁]
        exact hs₂
      · rw [hcons,← List.append_assoc,← hready]
        exact hl₂
      · rw [hq₂,hq₁,hcons,hready,List.append_assoc]
      · rw [htable₂]
        by_cases hji : j = i
        · subst hji
          rw [if_neg hi,if_pos List.mem_cons_self,htable₁,Function.update_self]
        · by_cases hj : j ∈ is
          · rw [if_pos hj,if_pos (List.mem_cons_of_mem i hj)]
            exact keptAt_congr (htable j hj) hfd hp₁
          · rw [if_neg hj,if_neg (by simp [hji,hj]),htable₁,Function.update_of_ne hji]
    · have hnone : (i::is).filterMap (readyAt s rfds) = [] := by
        refine List.eq_nil_of_length_eq_zero ?_
        omega
      refine ⟨s,if_neg hpos,ht,by simpa [hnone] using hl,rfl,by simp [hnone],rfl,fun j => ?_⟩
      by_cases hj : j ∈ i::is
      · have hj' : readyAt s rfds j = none := List.filterMap_eq_nil_iff.mp hnone j hj
        rw [if_pos hj]
        cases hw : s.watchTable j with
        | none => simp [keptAt,hw]
        | some rev =>
          have : s.fd rev ∉ rfds := by simpa [readyAt,hw] using hj'
          simp [keptAt,hw,this]
      · rw [if_neg hj]

/-! ## The steps -/

theorem Watching.eventSet (h : Watching s ts ps) {fd : ℤ} {persist : Bool} (hi : Idle s e) :
    Watching (s.rilEventSet e fd persist) ts ps := by
  obtain ⟨hts,hps⟩ := idle_not_mem h hi
  have hnot := h.table.not_watched hi.2
  have hfd : ∀ m, m ≠ .ev e → (s.rilEventSet e fd persist).events.fd m = s.events.fd m := by
    intro m hm
    exact Function.update_of_ne hm _ _
  have hindex : (s.rilEventSet e fd persist).index = s.index := by
    show Function.update s.index e (-1) = s.index
    rw [← hi.2,Function.update_eq_self]
  refine ⟨h.table.congr rfl hindex (fun i f hf => hfd _ ?_) rfl rfl,
    lists_congr h.lists fun m hm => ?_,h.bound,sorted_congr h.sorted fun m hm => ?_,
    fun m hm => ?_,?_,h.queue⟩
  · rintro ⟨⟩
    exact hnot i hf
  · have hme : m ≠ .ev e := by
      rintro rfl
      exact hm hi.1
    simp [Loop.rilEventSet,setNext,setPrev,hme]
  · exact Function.update_of_ne (by rintro rfl; exact hts (List.mem_cons_of_mem _ hm)) _ _
  · rw [hfd m (by rintro rfl; exact hts (List.mem_cons_of_mem _ hm))]
    exact h.timers m hm
  · refine h.turn.congr rfl (fun p hp hfdp => ?_) rfl
    rw [hfd p (by rintro rfl; exact hps (List.mem_cons_of_mem _ hp))]
    exact hfdp

theorem Watching.eventAdd (h : Watching s ts ps) (hi : s.index e = -1)
    (hfd : 0 ≤ s.fd e ∧ s.fd e < fdSetSize) (hnew : s.fd e ∉ s.readFds) :
    ∃ s', s.rilEventAdd e = some s' ∧ Watching s' ts ps := by
  rcases rilEventAdd_cases s hfd with ⟨hs,-⟩ | ⟨i,hfree,hs⟩
  · exact ⟨s,hs,h⟩
  · exact ⟨_,hs,h.table.add hfree hi hfd hnew,h.lists,h.bound,h.sorted,h.timers,
      h.turn.congr rfl (fun _ _ => id) rfl,h.queue⟩

theorem Watching.eventDel (h : Watching s ts ps) (e : E) : Watching (s.rilEventDel e) ts ps := by
  unfold Loop.rilEventDel
  split
  · exact h
  case isFalse hin =>
    set i : Fin maxFdEvents := ⟨(s.index e).toNat,by omega⟩
    have hi : s.watchTable i = some e := (h.table.slot i e).mpr (by simp [i]; omega)
    obtain ⟨hevents,-,hphase,hqueued,-⟩ := removeWatch_frame s e i
    exact ⟨h.table.removeWatch hi,hevents ▸ h.lists,hevents ▸ h.bound,hevents ▸ h.sorted,
      hevents ▸ h.timers,
      h.turn.congr hphase (fun _ _ => by rw [hevents]; exact id) (by rw [hevents]),
      by rw [hevents,hqueued]; exact h.queue⟩

theorem Watching.timerAdd (h : Watching s ts ps) (hi : Idle s e) (tv now : Timeval) :
    ∃ s' ts', s.rilTimerAdd e tv now = some s' ∧ Watching s' ts' ps := by
  obtain ⟨hts,hps⟩ := idle_not_mem h hi
  simp only [List.mem_cons,not_or] at hts hps
  obtain ⟨l,hl,hlists,htimeout,-,hcursor,hlog⟩ :=
    rilTimerAdd_spec tv now h.lists hts.2 hps.2 h.bound
  have hfd := rilTimerAdd_fd hl
  refine ⟨{ s with events := l },_,by simp [Loop.rilTimerAdd,hl],
    h.table.congr rfl rfl (fun i f hf => ?_) rfl rfl,hlists,?_,?_,fun m hm => ?_,
    h.turn.congr rfl (fun p _ hp => ?_) hcursor,?_⟩
  · have hfe : f ≠ e := by
      rintro rfl
      exact h.table.not_watched hi.2 i hf
    simp [Loop.fd,hfd,hfe]
  · simp only [hlog,List.length_append,List.length_cons,List.length_nil]
    have := h.bound
    rw [← List.takeWhile_append_dropWhile (p:=fun m => timercmpLt (s.events.timeout m)
      (timeradd now tv)) (l:=ts),List.length_append] at this
    omega
  · have hself : l.timeout (.ev e) = timeradd now tv := by rw [htimeout,Function.update_self]
    have hkeep : ∀ m ∈ ts, l.timeout m = s.events.timeout m := by
      intro m hm
      rw [htimeout,Function.update_of_ne (by rintro rfl; exact hts.2 hm)]
    refine pairwise_place (f:=fun m => (l.timeout m).key) (sorted_congr h.sorted hkeep) ?_
    intro m hm
    rw [timercmpLt_iff_key,hkeep m hm,hself]
  · simp only [hfd]
    by_cases hme : m = .ev e
    · simp [hme]
    · rw [Function.update_of_ne hme]
      simp only [List.mem_append,List.mem_cons] at hm
      rcases hm with hm | rfl | hm
      · exact h.timers m (List.takeWhile_subset _ hm)
      · exact absurd rfl hme
      · exact h.timers m (List.dropWhile_subset _ hm)
  · simp only [hfd]
    by_cases hpe : p = .ev e
    · simp [hpe]
    · rw [Function.update_of_ne hpe]
      exact hp
  · simp [hlog,h.queue,fired,firedNode]

/-- The expired timers become pending. -/
theorem Watching.processTimeouts (h : Watching s ts ps) {rfds : Finset ℤ} {k : ℤ}
    (hphase : s.phase = .processTimeouts rfds k) (now : Timeval) :
    ∃ s', s.processTimeouts now = some s' ∧ s'.phase = .processReadReadies rfds k ∧
      s'.queued = s.queued ++ ts.takeWhile (fun n => timercmpGt now (s.events.timeout n)) ∧
      s'.watchTable = s.watchTable ∧ s'.persist = s.persist ∧ s'.events.fd = s.events.fd ∧
      Watching s' (ts.dropWhile fun n => timercmpGt now (s.events.timeout n))
        (ts.takeWhile fun n => timercmpGt now (s.events.timeout n)) := by
  have hturn := h.turn
  rw [Turn,hphase] at hturn
  obtain ⟨rfl,rfl⟩ := hturn
  obtain ⟨l,hl,hlists,htimeout,-,-,hlog⟩ := processTimeouts_spec now h.lists h.bound
  have hfd := processTimeouts_fd h.lists h.bound hl
  have hmoved : (l.log.drop s.events.log.length).flatMap Entry.moved =
      ts.takeWhile fun n => timercmpGt now (s.events.timeout n) := by
    simp [hlog,Entry.moved,Function.comp_def]
  refine ⟨{ s with
      events := l
      queued := s.queued ++ ts.takeWhile fun n => timercmpGt now (s.events.timeout n)
      phase := .processReadReadies rfds rfds.card },
    by simp [Loop.processTimeouts,hphase,hl,hmoved],rfl,rfl,rfl,rfl,hfd,
    h.table.congr rfl rfl (fun i f _ => congrFun hfd _) rfl rfl,by simpa using hlists,?_,?_,
    fun m hm => ?_,⟨fun p hp => ?_,rfl⟩,?_⟩
  · have := h.bound
    have hle := (List.dropWhile_sublist (l:=ts)
      fun n => timercmpGt now (s.events.timeout n)).length_le
    simp only [hlog,List.length_append,List.length_singleton]
    omega
  · simp only [htimeout]
    exact h.sorted.sublist (List.dropWhile_sublist _)
  · simp only [hfd]
    exact h.timers m (List.dropWhile_subset _ hm)
  · simp only [hfd]
    exact h.timers p (List.takeWhile_subset _ hp)
  · simp [hlog,h.queue,fired,firedNode]

/-- All ready events of the table become pending, in the order of their slots, and only the
persistent ones stay watched. -/
theorem Watching.processReadReadies (h : Watching s ts ps) {rfds : Finset ℤ} {k : ℤ}
    (hphase : s.phase = .processReadReadies rfds k) :
    ∃ s', s.processReadReadies = some s' ∧ s'.phase = .firePending ∧
      s'.queued = s.queued ++ (List.finRange maxFdEvents).filterMap (readyAt s rfds) ∧
      (∀ i, s'.watchTable i = keptAt s rfds i) ∧
      Watching s' ts (ps ++ (List.finRange maxFdEvents).filterMap (readyAt s rfds)) := by
  have hturn := h.turn
  rw [Turn,hphase] at hturn
  obtain ⟨hps,rfl⟩ := hturn
  have hout : ∀ i ∈ List.finRange maxFdEvents, ∀ n, readyAt s rfds i = some n → n ∉ ts ∧ n ∉ ps := by
    intro i _ n hn
    obtain ⟨e,he,-,rfl⟩ := readyAt_eq_some.mp hn
    have hrange := (h.table.range i e he).1
    refine ⟨h.not_timer hrange,fun hmem => ?_⟩
    have := hps _ hmem
    rw [Loop.fd,this] at hrange
    omega
  obtain ⟨s₁,hs₁,ht₁,hl₁,hr₁,hq₁,-,htable₁⟩ :=
    readSlots_spec h.table h.lists (List.nodup_finRange _) hout (h.table.ready_le rfds)
  have hlog : s₁.events.log = s.events.log := by rw [hr₁]
  have hfd : s₁.events.fd = s.events.fd := by rw [hr₁]
  have htimeout : s₁.events.timeout = s.events.timeout := by rw [hr₁]
  refine ⟨{ s₁ with phase := .firePending },?_,rfl,hq₁,fun i => ?_,
    ht₁.congr rfl rfl (fun _ _ _ => rfl) rfl rfl,hl₁,?_,?_,fun m hm => ?_,trivial,?_⟩
  · simp [Loop.processReadReadies,hphase,hs₁]
  · simpa using htable₁ i
  · simp only [hlog]
    exact h.bound
  · simp only [htimeout]
    exact h.sorted
  · simp only [hfd]
    exact h.timers m hm
  · simp only [hq₁,h.queue,hlog,List.append_assoc]

/-- Behind the last pending event `select` is called again. -/
theorem Watching.fireLast (h : Watching s ts []) (hphase : s.phase = .firing) :
    s.fireNext = some { s with events := { s.events with cursor := none }, phase := .select } ∧
      Watching { s with events := { s.events with cursor := none }, phase := .select } ts [] := by
  have hcursor := h.turn
  rw [Turn,hphase] at hcursor
  refine ⟨?_,h.table.congr rfl rfl (fun _ _ _ => rfl) rfl rfl,
    ⟨h.lists.timers,h.lists.pending,h.lists.apart⟩,h.bound,h.sorted,h.timers,rfl,h.queue⟩
  simp [Loop.fireNext,hphase,EventLoop.fireNext,hcursor]

/-- The first pending event fires. -/
theorem Watching.fireFirst (h : Watching s ts (n::ps)) (hphase : s.phase = .firing) :
    ∃ l, s.fireNext = some { s with events := l } ∧ Watching { s with events := l } ts ps := by
  have hcursor := h.turn
  rw [Turn,hphase] at hcursor
  have hn : n ≠ .pendingList := by
    rintro rfl
    have := h.lists.pending.nodup
    simp at this
  obtain ⟨l,hl,hlists,htimeout,-,hc,hlog⟩ := fireNext_spec h.lists hcursor
  have hfd := fireNext_fd h.lists hcursor hl
  refine ⟨l,?_,h.table.congr rfl rfl (fun _ _ _ => congrFun hfd _) rfl rfl,hlists,?_,?_,
    fun m hm => ?_,?_,?_⟩
  · have hne : ¬ s.events.cursor = some (some .pendingList) := by
      rw [hcursor]
      simpa using hn
    simp [Loop.fireNext,hphase,hl,hne]
  · have := h.bound
    simp only [hlog,List.length_append]
    omega
  · simp only [htimeout]
    exact h.sorted
  · simp only [hfd]
    exact h.timers m hm
  · simp only [Turn,hphase]
    exact hc
  · simp [hlog,h.queue,fired,firedNode]

/-- A step that is due goes through and keeps the invariant. -/
theorem step_watching (h : Watching s ts ps) {a : Action E} (ha : Allowed s a) (hd : Due s a) :
    ∃ s' ts' ps', step s a = some s' ∧ Watching s' ts' ps' := by
  cases a with
  | eventSet e fd persist => exact ⟨_,ts,ps,rfl,h.eventSet ha⟩
  | eventAdd e =>
    obtain ⟨hi,hlow,hhigh,hnew⟩ := ha
    obtain ⟨s',hs,h'⟩ := h.eventAdd hi ⟨hlow,hhigh⟩ hnew
    exact ⟨s',ts,ps,hs,h'⟩
  | eventDel e => exact ⟨_,ts,ps,rfl,h.eventDel e⟩
  | timerAdd e tv now =>
    obtain ⟨s',ts',hs,h'⟩ := h.timerAdd ha tv now
    exact ⟨s',ts',ps,hs,h'⟩
  | select ready =>
    have hphase : s.phase = .select := hd
    cases ready with
    | none => exact ⟨s,ts,ps,by simp [step,Loop.select,hphase],h⟩
    | some rfds => exact ⟨_,ts,ps,h.select hphase rfds⟩
  | processTimeouts now =>
    obtain ⟨rfds,k,hphase⟩ := hd
    obtain ⟨s',hs,-,-,-,-,-,h'⟩ := h.processTimeouts hphase now
    exact ⟨s',_,_,hs,h'⟩
  | processReadReadies =>
    obtain ⟨rfds,k,hphase⟩ := hd
    obtain ⟨s',hs,-,-,-,h'⟩ := h.processReadReadies hphase
    exact ⟨s',_,_,hs,h'⟩
  | firePending => exact ⟨_,ts,ps,h.firePending hd⟩
  | fireNext =>
    cases ps with
    | nil => exact ⟨_,ts,[],(h.fireLast hd).1,(h.fireLast hd).2⟩
    | cons n ps =>
      obtain ⟨l,hl,h'⟩ := h.fireFirst hd
      exact ⟨_,ts,ps,hl,h'⟩

theorem due_of_step {a : Action E} (hs : step s a = some s') : Due s a := by
  cases a <;> simp only [Due]
  case select ready =>
    simp only [step,Loop.select] at hs
    split at hs <;> simp_all
  case processTimeouts now =>
    simp only [step,Loop.processTimeouts] at hs
    split at hs
    · exact ⟨_,_,by assumption⟩
    · cases hs
  case processReadReadies =>
    simp only [step,Loop.processReadReadies] at hs
    split at hs
    · exact ⟨_,_,by assumption⟩
    · cases hs
  case firePending =>
    simp only [step,Loop.firePending] at hs
    split at hs
    · assumption
    · cases hs
  case fireNext =>
    simp only [step,Loop.fireNext] at hs
    split at hs
    · assumption
    · cases hs

/-! ## Runs -/

/-- The variables before `ril_event_init`, and events that nobody has added. -/
structure Fresh (s : Loop E) : Prop where
  log : s.events.log = []
  cursor : s.events.cursor = none
  index : ∀ e, s.index e = -1
  nfds : s.nfds = 0
  phase : s.phase = .select
  queued : s.queued = []

theorem watching_init (h : Fresh s) : Watching s.rilEventInit [] [] := by
  have hgood := good_init h.log h.cursor
  refine ⟨⟨fun i e => ?_,fun e => Or.inl (h.index e),fun i e he => ?_,fun i j e f he => ?_,fun d => ?_,
    fun i e he => ?_,?_⟩,hgood.lists,by simp,List.Pairwise.nil,by simp,?_,?_⟩
  · have := h.index e
    simp only [Loop.rilEventInit,reduceCtorEq,false_iff]
    omega
  · simp [Loop.rilEventInit] at he
  · simp [Loop.rilEventInit] at he
  · simp [Loop.rilEventInit]
  · simp [Loop.rilEventInit] at he
  · left
    simp [Loop.rilEventInit,h.nfds]
  · simp [Turn,Loop.rilEventInit,h.phase]
  · show s.queued = fired s.events.log ++ []
    simp [h.log,h.queued,fired]

theorem run_watching {as : List (Action E)} (h : Watching s ts ps) (ha : Along step Allowed s as)
    (hr : run step s as = some s') : ∃ ts' ps', Watching s' ts' ps' := by
  refine run_invariant (I:=fun s => ∃ ts ps, Watching s ts ps) ?_ ⟨ts,ps,h⟩ ha hr
  rintro s a s' ⟨ts,ps,h⟩ ha hs
  obtain ⟨s₁,ts',ps',hs₁,h'⟩ := step_watching h ha (due_of_step hs)
  obtain rfl := Option.some.inj (hs₁.symm.trans hs)
  exact ⟨ts',ps',h'⟩

/-- Over every order of the steps of the loop and of other threads: `select` looks at exactly the
descriptors of the watched events, each of which has one slot; what was queued has fired or is
pending, in order; and no step that is due goes wrong. -/
theorem loop_consistent {s₀ : Loop E} {as : List (Action E)} (h₀ : Fresh s₀)
    (ha : Along step Allowed s₀.rilEventInit as) (hr : run step s₀.rilEventInit as = some s) :
    (∀ d, (d ∈ s.readFds ∧ d < s.nfds) ↔ ∃! i, ∃ e, s.watchTable i = some e ∧ s.fd e = d) ∧
    (∃ ps, s.events.Listed .pendingList ps ∧ s.queued = fired s.events.log ++ ps) ∧
    ∀ a, Allowed s a → Due s a → (step s a).isSome := by
  obtain ⟨ts,ps,h⟩ := run_watching (watching_init h₀) ha hr
  refine ⟨fun d => ⟨?_,?_⟩,⟨ps,h.lists.pending,h.queue⟩,fun a ha hd => ?_⟩
  · rintro ⟨hd,-⟩
    obtain ⟨i,e,he,rfl⟩ := (h.table.readFds d).mp hd
    refine ⟨i,⟨e,he,rfl⟩,?_⟩
    rintro j ⟨f,hf,hfe⟩
    exact h.table.own j i f e hf he hfe
  · rintro ⟨i,⟨e,he,rfl⟩,-⟩
    exact ⟨(h.table.readFds _).mpr ⟨i,e,he,rfl⟩,h.table.below i e he⟩
  · obtain ⟨s',ts',ps',hs,-⟩ := step_watching h ha hd
    simp [hs]

/-- A persistent event, another one and a timer, up to the first call of `select`. -/
def sampleSetup : List (Action ℕ) :=
  [.eventSet 1 3 true,.eventAdd 1,.eventSet 2 5 false,.eventAdd 2,.timerAdd 9 ⟨1,0⟩ ⟨10,0⟩]

def sampleWatch : Loop ℕ where
  events := sampleLoop
  index _ := -1
  persist _ := false

theorem fresh_sample : Fresh sampleWatch := ⟨rfl,rfl,fun _ => rfl,rfl,rfl,rfl⟩

/-- Both descriptors are ready, but the persistent event is removed before the walk of the table. -/
def sampleDisturbed : List (Action ℕ) :=
  sampleSetup ++ [.select (some {3,5}),.processTimeouts ⟨12,0⟩,.eventDel 1,.processReadReadies,
    .eventAdd 1,.firePending,.fireNext]

theorem loop_consistent_sample : ∃ s, run step sampleWatch.rilEventInit sampleDisturbed = some s ∧
    (∀ d, (d ∈ s.readFds ∧ d < s.nfds) ↔ ∃! i, ∃ e, s.watchTable i = some e ∧ s.fd e = d) ∧
    (∃ ps, s.events.Listed .pendingList ps ∧ s.queued = fired s.events.log ++ ps) ∧
    ∀ a, Allowed s a → Due s a → (step s a).isSome := by
  have h : (run step sampleWatch.rilEventInit sampleDisturbed).isSome := by decide +kernel
  have ha : Along step Allowed sampleWatch.rilEventInit sampleDisturbed := by decide +kernel
  exact ⟨_,(Option.some_get h).symm,loop_consistent fresh_sample ha (Option.some_get h).symm⟩

/-- Left alone, `firePending` fires all that is pending. -/
theorem Watching.firesAll (h : Watching s ts ps) (hphase : s.phase = .firing) :
    ∃ s', run step s (List.replicate (ps.length + 1) .fireNext) = some s' ∧ s'.phase = .select ∧
      s'.watchTable = s.watchTable ∧ s'.queued = s.queued ∧ Watching s' ts [] := by
  induction ps generalizing s with
  | nil =>
    obtain ⟨hs,h'⟩ := h.fireLast hphase
    exact ⟨_,run_cons_eq_some.mpr ⟨_,hs,rfl⟩,rfl,rfl,rfl,h'⟩
  | cons n ps ih =>
    obtain ⟨l,hl,h'⟩ := h.fireFirst hphase
    obtain ⟨s',hs',hphase',htable,hqueued,h''⟩ := ih h' hphase
    exact ⟨s',run_cons_eq_some.mpr ⟨_,hl,hs'⟩,hphase',htable,hqueued,h''⟩

/-- A round of the loop that nobody disturbs fires all timers that expire, the earliest first,
and then each watched event whose descriptor is ready, in the order of the slots, and nothing else;
only the events that are not persistent and fired lose their slots. -/
theorem loop_round {s₀ : Loop E} {as : List (Action E)} (h₀ : Fresh s₀)
    (ha : Along step Allowed s₀.rilEventInit as) (hr : run step s₀.rilEventInit as = some s)
    (hphase : s.phase = .select) (rfds : Finset ℤ) (now : Timeval) :
    ∃ ts k s', s.events.Listed .timerList ts ∧
      ts.Pairwise (fun m n => timercmpGt (s.events.timeout m) (s.events.timeout n) = false) ∧
      run step s (.select (some rfds)::.processTimeouts now::.processReadReadies::.firePending::
        List.replicate k .fireNext) = some s' ∧ s'.phase = .select ∧
      fired s'.events.log = fired s.events.log ++
        ts.takeWhile (fun n => timercmpGt now (s.events.timeout n)) ++
        (List.finRange maxFdEvents).filterMap (readyAt s rfds) ∧
      ts.takeWhile (fun n => timercmpGt now (s.events.timeout n)) =
        ts.filter (fun n => timercmpGt now (s.events.timeout n)) ∧
      ∀ i, s'.watchTable i = keptAt s rfds i := by
  obtain ⟨ts,ps,h⟩ := run_watching (watching_init h₀) ha hr
  have hturn := h.turn
  rw [Turn,hphase] at hturn
  subst hturn
  obtain ⟨hs₁,h₁⟩ := h.select hphase rfds
  obtain ⟨s₂,hs₂,hphase₂,hq₂,htable₂,hpersist₂,hfd₂,h₂⟩ := h₁.processTimeouts rfl now
  obtain ⟨s₃,hs₃,hphase₃,hq₃,htable₃,h₃⟩ := h₂.processReadReadies hphase₂
  obtain ⟨hs₄,h₄⟩ := h₃.firePending hphase₃
  obtain ⟨s₅,hs₅,hphase₅,htable₅,hq₅,h₅⟩ := h₄.firesAll rfl
  have hready : ∀ i, readyAt s₂ rfds i = readyAt s rfds i := fun i =>
    readyAt_congr (congrFun htable₂ i) hfd₂
  have hsorted : ts.Pairwise fun m n =>
      timercmpGt (s.events.timeout m) (s.events.timeout n) = false :=
    h.sorted.imp fun hmn => Bool.eq_false_iff.mpr fun hgt => hmn.not_gt (timercmpGt_iff_key.mp hgt)
  refine ⟨ts,_,s₅,h.lists.timers,hsorted,run_cons_eq_some.mpr ⟨_,hs₁,run_cons_eq_some.mpr ⟨_,hs₂,
    run_cons_eq_some.mpr ⟨_,hs₃,run_cons_eq_some.mpr ⟨_,hs₄,hs₅⟩⟩⟩⟩,hphase₅,?_,h.expires now,
    fun i => ?_⟩
  · have hqueue := h.queue
    rw [List.append_nil] at hqueue
    have hqueue₅ := h₅.queue
    rw [List.append_nil] at hqueue₅
    rw [← hqueue₅,hq₅]
    show s₃.queued = _
    rw [hq₃,hq₂,List.filterMap_congr fun i _ => hready i]
    show s.queued ++ _ ++ _ = _
    rw [hqueue]
  · rw [htable₅]
    show s₃.watchTable i = _
    rw [htable₃ i]
    exact keptAt_congr (congrFun htable₂ i) hfd₂ hpersist₂

theorem loop_round_sample : ∃ s, run step sampleWatch.rilEventInit sampleSetup = some s ∧
    ∃ ts k s', s.events.Listed .timerList ts ∧
      ts.Pairwise (fun m n => timercmpGt (s.events.timeout m) (s.events.timeout n) = false) ∧
      run step s (.select (some {3,5})::.processTimeouts ⟨12,0⟩::.processReadReadies::.firePending::
        List.replicate k .fireNext) = some s' ∧ s'.phase = .select ∧
      fired s'.events.log = fired s.events.log ++
        ts.takeWhile (fun n => timercmpGt ⟨12,0⟩ (s.events.timeout n)) ++
        (List.finRange maxFdEvents).filterMap (readyAt s {3,5}) ∧
      ts.takeWhile (fun n => timercmpGt ⟨12,0⟩ (s.events.timeout n)) =
        ts.filter (fun n => timercmpGt ⟨12,0⟩ (s.events.timeout n)) ∧
      ∀ i, s'.watchTable i = keptAt s {3,5} i := by
  have ha : Along step Allowed sampleWatch.rilEventInit sampleSetup := by decide +kernel
  have hrun : (run step sampleWatch.rilEventInit sampleSetup).map (·.phase) = some .select := by
    decide +kernel
  obtain ⟨s,hs,hphase⟩ := Option.map_eq_some_iff.mp hrun
  exact ⟨s,hs,loop_round fresh_sample ha hs hphase {3,5} ⟨12,0⟩⟩

end Watch
end Ril
end Kitakami

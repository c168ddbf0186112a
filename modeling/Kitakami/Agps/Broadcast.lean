import Kitakami.Agps.Notify
import Kitakami.Gps.LinkedListSeq

/-!
# Broadcasts

`notifySubscribers` over the linked list itself: a search whose predicate
notifies, which is started again from the head after each subscriber that it
takes out. It ends, every addressee tells its client the status once, in the order of
the list, and with `postNotifyDelete` the others stay behind in their order. A
receiver that is itself an entry is deleted on the way, and is compared with
those that are left all the same.
-/

namespace Kitakami
namespace Agps

open LinkedList

/-- The callback of `linked_list_search`; its environment is the machine. -/
def notifySubscriber (n : Notification) (m : AgpsStateMachine) (s : Subscriber) :
    Bool × AgpsStateMachine :=
  let r := m.notifyRsrcStatus s n
  (r.1 && n.postNotifyDelete,r.2)

/-- The loop of `notifySubscribers` over the list; it goes on while the search
has written a subscriber to `s`. -/
def notifyListLoop (freed : Subscriber) : ℕ → Notification → ListState Subscriber →
    AgpsStateMachine → Option (ListState Subscriber × AgpsStateMachine)
  | 0, _, _, _ => none
  | fuel+1, n, list, m => do
    let r ← linkedListSearch list true (notifySubscriber n) m true
    match r.2.1.join with
    | some s => notifyListLoop freed fuel (n.afterDelete s freed) r.2.2.2 r.2.2.1
    | none => return (r.2.2.2,r.2.2.1)

def notifyList (freed : Subscriber) (n : Notification) (list : ListState Subscriber)
    (m : AgpsStateMachine) : Option (ListState Subscriber × AgpsStateMachine) :=
  if n.postNotifyDelete then notifyListLoop freed (list.allocs + 1) n list m
  else do
    let r ← linkedListSearch list false (notifySubscriber n) m false
    return (r.2.2.2,r.2.2.1)

namespace AgpsStateMachine

variable {m : AgpsStateMachine} {n : Notification} {freed : Subscriber}

/-! ## The rounds -/

/-- A round is a search in the list. -/
theorem notifyRound_eq_search (n : Notification) (items : List (Item Subscriber))
    (m : AgpsStateMachine) :
    notifyRound n m (items.map Item.dataPtr) =
      ((searchItems (notifySubscriber n) m items).2.1,
        (searchItems (notifySubscriber n) m items).1.map fun i =>
          (i.dataPtr,(searchItems (notifySubscriber n) m items).2.2.map Item.dataPtr)) := by
  induction items generalizing m with
  | nil => rfl
  | cons i items ih =>
    simp only [List.map_cons,notifyRound,searchItems]
    by_cases hm : (notifySubscriber n m i.dataPtr).1
    · have hm' : ((m.notifyRsrcStatus i.dataPtr n).1 && n.postNotifyDelete) = true := hm
      rw [if_pos hm',if_pos hm]
      rfl
    · have hm' : ¬ ((m.notifyRsrcStatus i.dataPtr n).1 && n.postNotifyDelete) = true := hm
      rw [if_neg hm',if_neg hm,ih]
      simp only [Option.map_map]
      rfl

/-- The list itself plays no part in a round. -/
theorem notifyRound_withSubscribers (n : Notification) (k l : List Subscriber)
    (m : AgpsStateMachine) :
    notifyRound n { m with mSubscribers := k } l =
      ({ (notifyRound n m l).1 with mSubscribers := k },(notifyRound n m l).2) := by
  induction l generalizing m with
  | nil => rfl
  | cons s l ih =>
    have hs : ({ m with mSubscribers := k } : AgpsStateMachine).notifyRsrcStatus s n =
        ((m.notifyRsrcStatus s n).1,{ (m.notifyRsrcStatus s n).2 with mSubscribers := k }) := by
      unfold notifyRsrcStatus
      split_ifs with hf
      · cases s <;> cases n.rsrcStatus <;> rfl
      · rfl
    simp only [notifyRound,hs]
    split_ifs
    · rfl
    · rw [ih]

/-- The rounds of the deleting loop that lead from `m` to its end. -/
inductive Rounds (freed : Subscriber) :
    Notification → AgpsStateMachine → AgpsStateMachine → Prop
  | last {n : Notification} {m m' : AgpsStateMachine}
    (h : notifyRound n m m.mSubscribers = (m',none)) : Rounds freed n m m'
  | next {n : Notification} {m m₁ m' : AgpsStateMachine} {s : Subscriber} {l : List Subscriber}
    (h : notifyRound n m m.mSubscribers = (m₁,some (s,l)))
    (hr : Rounds freed (n.afterDelete s freed) { m₁ with mSubscribers := l } m') :
    Rounds freed n m m'

/-- A round takes a subscriber out, so the fuel of the loop does not run out. -/
theorem rounds_notifyLoop (fuel : ℕ) (n : Notification) (m : AgpsStateMachine)
    (h : n.rsrcStatus.known) (hd : n.postNotifyDelete) (hf : m.mSubscribers.length < fuel) :
    Rounds freed n m (notifyLoop freed fuel n m) := by
  induction fuel generalizing n m with
  | zero => omega
  | succ fuel ih =>
    have hround := notifyRound_delete h hd m.mSubscribers m
    rw [notifyLoop]
    cases hs : m.mSubscribers.find? (·.forMe n.receiver) with
    | none =>
      rw [hs] at hround
      rw [hround]
      exact .last hround
    | some s =>
      rw [hs] at hround
      rw [hround]
      obtain ⟨hstatus,hdelete⟩ := afterDelete_kept n s freed
      refine .next hround (ih _ _ (hstatus ▸ h) (hdelete ▸ hd) ?_)
      have hmem := List.mem_of_find?_eq_some hs
      have hfor := List.find?_some hs
      have hlen := List.length_eraseP_of_mem (p:=fun t => t.forMe n.receiver) hmem hfor
      have hpos := List.length_pos_of_mem hmem
      simp only
      omega

theorem searchItems_none {σ D : Type} {equal : σ → D → Bool × σ} {e : σ} {l : List (Item D)}
    (h : (searchItems equal e l).1 = none) : (searchItems equal e l).2.2 = l := by
  induction l generalizing e with
  | nil => rfl
  | cons i l ih =>
    simp only [searchItems] at h ⊢
    split_ifs at h ⊢ with hm
    rw [ih h]

theorem searchItems_some {σ D : Type} {equal : σ → D → Bool × σ} {e : σ} {l : List (Item D)}
    {i : Item D} (h : (searchItems equal e l).1 = some i) :
    (searchItems equal e l).2.2.length + 1 = l.length := by
  induction l generalizing e with
  | nil => cases h
  | cons j l ih =>
    simp only [searchItems] at h ⊢
    split_ifs at h ⊢ with hm
    · rfl
    · simp [← ih h]

/-! ## The list -/

/-- Over the linked list the loop does what it does over the sequence. -/
theorem notifyListLoop_eq (freed : Subscriber) (fuel : ℕ) (n : Notification) {list : ListState Subscriber}
    {as : List Addr} {items : List (Item Subscriber)} (hrep : Represents list as items)
    (m : AgpsStateMachine) (hf : items.length < fuel) :
    ∃ list' as' items' m', notifyListLoop freed fuel n list m = some (list',m') ∧
      Represents list' as' items' ∧
      notifyLoop freed fuel n { m with mSubscribers := items.map Item.dataPtr } =
        { m' with mSubscribers := items'.map Item.dataPtr } := by
  induction fuel generalizing n list as items m with
  | zero => omega
  | succ fuel ih =>
    by_cases hitems : items = []
    · subst hitems
      exact ⟨list,as,[],m,by simp [notifyListLoop,linkedListSearch_nil _ _ _ hrep],hrep,rfl⟩
    · obtain ⟨list₁,as₁,hlist₁,hrep₁,-⟩ :=
        linkedListSearch_spec (notifySubscriber n) true true hrep hitems m
      have hround := notifyRound_eq_search n items m
      rw [if_pos rfl] at hrep₁
      simp only [notifyLoop,notifyRound_withSubscribers,hround]
      cases hfound : (searchItems (notifySubscriber n) m items).1 with
      | none =>
        rw [searchItems_none hfound] at hrep₁
        refine ⟨list₁,as₁,items,_,?_,hrep₁,rfl⟩
        simp [notifyListLoop,hlist₁,hfound]
      | some i =>
        have hlen := searchItems_some hfound
        obtain ⟨list₂,as₂,items₂,m₂,hlist₂,hrep₂,hloop₂⟩ :=
          ih (n.afterDelete i.dataPtr freed) hrep₁ (searchItems (notifySubscriber n) m items).2.1
            (by omega)
        refine ⟨list₂,as₂,items₂,m₂,?_,hrep₂,hloop₂⟩
        simp [notifyListLoop,hlist₁,hfound,hlist₂]

/-- The deleting loop takes as many rounds as the list has subscribers, or fewer. -/
theorem notifyLoop_fuel (fuel fuel' : ℕ) (n : Notification) (m : AgpsStateMachine)
    (h : n.rsrcStatus.known) (hd : n.postNotifyDelete) (hf : m.mSubscribers.length < fuel)
    (hf' : m.mSubscribers.length < fuel') :
    notifyLoop freed fuel n m = notifyLoop freed fuel' n m := by
  induction fuel generalizing fuel' n m with
  | zero => omega
  | succ fuel ih =>
    obtain ⟨fuel',rfl⟩ : ∃ k, fuel' = k + 1 := ⟨fuel' - 1,by omega⟩
    rw [notifyLoop,notifyLoop,notifyRound_delete h hd]
    cases hs : m.mSubscribers.find? (·.forMe n.receiver) with
    | none => rfl
    | some s =>
      obtain ⟨hstatus,hdelete⟩ := afterDelete_kept n s freed
      have hmem := List.mem_of_find?_eq_some hs
      have hfor := List.find?_some hs
      have hlen := List.length_eraseP_of_mem (p:=fun t => t.forMe n.receiver) hmem hfor
      have hpos := List.length_pos_of_mem hmem
      refine ih fuel' _ _ (hstatus ▸ h) (hdelete ▸ hd) ?_ ?_
      · simp only
        omega
      · simp only
        omega

/-- The linked list afterwards holds the subscribers of the machine. -/
theorem notifyList_eq (h : n.rsrcStatus.known) {list : ListState Subscriber} {as : List Addr}
    {items : List (Item Subscriber)} (hrep : Represents list as items)
    (hitems : items.map Item.dataPtr = m.mSubscribers) :
    ∃ list' as' items' m', notifyList freed n list m = some (list',m') ∧
      Represents list' as' items' ∧
      m.notifySubscribers freed n = { m' with mSubscribers := items'.map Item.dataPtr } := by
  cases hd : n.postNotifyDelete with
  | true =>
    have hle : m.mSubscribers.length < list.allocs + 1 := by
      rw [← hitems,List.length_map,← hrep.length_eq]
      exact Nat.lt_succ_of_le hrep.bounded
    obtain ⟨list',as',items',m',hlist',hrep',hloop⟩ := notifyListLoop_eq freed
      (list.allocs + 1) n hrep m (Nat.lt_succ_of_le (hrep.length_eq ▸ hrep.bounded))
    refine ⟨list',as',items',m',by simp [notifyList,hd,hlist'],hrep',?_⟩
    rw [← hloop,hitems,notifySubscribers,if_pos hd]
    exact notifyLoop_fuel _ _ n m h hd (Nat.lt_succ_self _) hle
  | false =>
    have hround := notifyRound_eq_search n items m
    have hself := notifyRound_withSubscribers n m.mSubscribers m.mSubscribers m
    have hm : m.notifySubscribers freed n = (searchItems (notifySubscriber n) m items).2.1 := by
      rw [notifySubscribers,hd,← hitems,hround]
      rfl
    have hsubs : (searchItems (notifySubscriber n) m items).2.1.mSubscribers =
        items.map Item.dataPtr := by
      rw [← hm,notifySubscribers,hd,hitems]
      exact congrArg (fun r => r.1.mSubscribers) hself
    by_cases hempty : items = []
    · subst hempty
      refine ⟨list,as,[],m,?_,hrep,?_⟩
      · simp [notifyList,hd,linkedListSearch_nil _ _ _ hrep]
      · rw [hm,hitems]
        rfl
    · obtain ⟨list₁,as₁,hlist₁,hrep₁,-⟩ :=
        linkedListSearch_spec (notifySubscriber n) false false hrep hempty m
      refine ⟨list₁,as₁,items,_,by simp only [notifyList,hd,hlist₁]; rfl,hrep₁,?_⟩
      rw [hm,← hsubs]

/-! ## Who is reached -/

/-- The notification ends, its addressees and nobody else tell their clients the status, once and
in the order of the list, and they leave the list exactly if the notification says so; over the
linked list as over the sequence. -/
structure ReachesEach (m : AgpsStateMachine) (freed : Subscriber) (n : Notification) : Prop where
  ends : n.postNotifyDelete → Rounds freed n m (m.notifySubscribers freed n)
  told : (m.notifySubscribers freed n).log = m.log ++
    ((m.mSubscribers.filter (·.forMe n.receiver)).flatMap (m.tells n.rsrcStatus)).map .call
  stay : (m.notifySubscribers freed n).mSubscribers =
    if n.postNotifyDelete then m.mSubscribers.filter (!·.forMe n.receiver) else m.mSubscribers
  linked : ∀ list as items, Represents list as items → items.map Item.dataPtr = m.mSubscribers →
    ∃ list' as' items' m', notifyList freed n list m = some (list',m') ∧
      Represents list' as' items' ∧
      m.notifySubscribers freed n = { m' with mSubscribers := items'.map Item.dataPtr }

/-- If the receiver is the entry `e` and gets deleted, those that are left take what its memory is
read as for themselves exactly if they took `e` so. -/
def ReadsAlike (m : AgpsStateMachine) (freed : Subscriber) (n : Notification) : Prop :=
  ∀ e pre post, n.postNotifyDelete → n.receiver = .entry e → m.mSubscribers = pre ++ e::post →
    e ∉ pre → ∀ t ∈ pre.filter (!·.equals e) ++ post, t.equals freed = t.equals e

theorem filter_eq_filter {p q : Subscriber → Bool} {l : List Subscriber}
    (h : l.filter p = l.filter q) : ∀ t ∈ l, p t = q t := by
  intro t ht
  have hp : t ∈ l.filter p ↔ p t = true := by simp [ht]
  have hq : t ∈ l.filter q ↔ q t = true := by simp [ht]
  rw [Bool.eq_iff_iff,← hp,← hq,h]

theorem forMe_entry {e : Subscriber} (hr : n.receiver = .entry e) (t : Subscriber) :
    t.forMe n.receiver = t.equals e := by
  rw [hr]
  rfl

theorem ReadsAlike.of_inside (h : ReadsAlike m freed n) (hd : n.postNotifyDelete)
    (ho : ¬ n.outside m.mSubscribers) : ∃ e pre post, n.receiver = .entry e ∧
      m.mSubscribers = pre ++ e::post ∧ e ∉ pre ∧
      ∀ t ∈ pre.filter (!·.equals e) ++ post, t.equals freed = t.equals e := by
  unfold Notification.outside at ho
  push Not at ho
  obtain ⟨e,he,hr⟩ := ho
  obtain ⟨pre,post,hm,hpre⟩ := List.eq_append_cons_of_mem he
  exact ⟨e,pre,post,hr,hm,hpre,h e pre post hd hr hm hpre⟩

theorem filter_not_equals {e : Subscriber} {pre post : List Subscriber} :
    (pre ++ e::post).filter (!·.equals e) =
      (pre.filter (!·.equals e) ++ post).filter (!·.equals e) := by
  simp [List.filter_append,List.filter_filter,Subscriber.equals_refl]

theorem filter_equals {e : Subscriber} {pre post : List Subscriber} :
    (pre ++ e::post).filter (·.equals e) =
      pre.filter (·.equals e) ++ e::(pre.filter (!·.equals e) ++ post).filter (·.equals e) := by
  simp [List.filter_append,List.filter_filter,Subscriber.equals_refl]

theorem told_notifyAll {l l' told : List Subscriber} (h : told = l) :
    ({ m.notifyAll told n.rsrcStatus with mSubscribers := l' } : AgpsStateMachine).log =
      m.log ++ (l.flatMap (m.tells n.rsrcStatus)).map .call := by
  subst h
  exact log_notifyAll told m n.rsrcStatus

/-- A notification reaches each addressee once and nobody else exactly if, where it deletes its own
receiver, the memory of that one is read like the receiver by those that are left. -/
theorem broadcast_reachesEach_iff (m : AgpsStateMachine) (freed : Subscriber) (n : Notification)
    (h : n.rsrcStatus.known) : ReachesEach m freed n ↔ ReadsAlike m freed n := by
  constructor
  · rintro ⟨-,-,hstay,-⟩ e pre post hd hr hm hpre t ht
    rw [notifySubscribers_entry freed h hd hr hm hpre,if_pos hd,hm] at hstay
    simp only [forMe_entry hr] at hstay
    rw [filter_not_equals] at hstay
    simpa using filter_eq_filter hstay t ht
  · intro hread
    have hends (hd : n.postNotifyDelete) : Rounds freed n m (m.notifySubscribers freed n) := by
      rw [notifySubscribers,if_pos hd]
      exact rounds_notifyLoop _ n m h hd (Nat.lt_succ_self _)
    refine ⟨hends,?_,?_,fun list as items => notifyList_eq h⟩
    · cases hd : n.postNotifyDelete with
      | false =>
        rw [notifySubscribers_keep h hd]
        exact log_notifyAll _ m n.rsrcStatus
      | true =>
        by_cases ho : n.outside m.mSubscribers
        · rw [notifySubscribers_delete h hd ho]
          exact told_notifyAll rfl
        · obtain ⟨e,pre,post,hr,hm,hpre,hsame⟩ := hread.of_inside hd ho
          rw [notifySubscribers_entry freed h hd hr hm hpre]
          simp only [forMe_entry hr]
          refine told_notifyAll ?_
          rw [hm,filter_equals,List.filter_congr hsame]
    · cases hd : n.postNotifyDelete with
      | false =>
        rw [notifySubscribers_keep h hd]
        exact (quiet_notifyAll _ m n.rsrcStatus).same.mSubscribers
      | true =>
        by_cases ho : n.outside m.mSubscribers
        · rw [notifySubscribers_delete h hd ho,if_pos rfl]
        · obtain ⟨e,pre,post,hr,hm,hpre,hsame⟩ := hread.of_inside hd ho
          rw [notifySubscribers_entry freed h hd hr hm hpre,if_pos rfl]
          simp only [forMe_entry hr]
          rw [hm,filter_not_equals]
          exact List.filter_congr fun t ht => congrArg (!·) (hsame t ht)

/-- A release for the one inactive subscriber of two. -/
def sampleMachine : AgpsStateMachine where
  kind := .ds
  mState := .releasing
  mSubscribers := [.ds 2 true,.ds 1 false]

theorem broadcast_reachesEach_inactive :
    (sampleMachine.notifySubscribers (.ds 0 false) ⟨.group .inactive,.released,true⟩).log =
        [.call .closeDataCall] ∧
      (ReachesEach sampleMachine (.ds 0 false) ⟨.group .inactive,.released,true⟩ ↔
        ReadsAlike sampleMachine (.ds 0 false) ⟨.group .inactive,.released,true⟩) :=
  ⟨rfl,broadcast_reachesEach_iff sampleMachine _ ⟨.group .inactive,.released,true⟩ rfl⟩

/-- Two ATL clients, the first of which unsubscribes; the memory of its entry is read as the second
client. That one is told of the close as well, and is gone. -/
theorem not_reachesEach_freed :
    let m : AgpsStateMachine := { mState := .acquired, mSubscribers := [atlWith 5,atlWith 7] }
    let n : Notification := ⟨.entry (atlWith 5),.unsubscribe,true⟩
    (m.notifySubscribers (atlWith 7) n).log =
        [.call (.atlCloseStatus 5),.call (.atlCloseStatus 7)] ∧
      ¬ ReachesEach m (atlWith 7) n := by
  refine ⟨by decide,fun h => ?_⟩
  have hstay := h.stay
  revert hstay
  decide

end AgpsStateMachine
end Agps
end Kitakami

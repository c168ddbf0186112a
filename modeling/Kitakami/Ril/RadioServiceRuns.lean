import Kitakami.Ril.RadioService

/-!
# Whose client is dropped

The trace of a run is judged by what it says of the registrations: a thread may
drop the objects of a service only if its own call to these very objects has
failed, and when its check is over they are no longer kept. The counter that a
thread has noted is compared with the number of the registration that it called.
-/

namespace Kitakami
namespace Ril
namespace Radio

open Runs Monitor

variable {T C : Type}

/-- What the trace says: how many registrations there were, the objects of the last one unless they
were dropped, which registration each thread has called last, and whether this call failed. -/
structure Clients (T C : Type) where
  count : Service → ℤ → ℕ := fun _ _ => 0
  live : Service → ℤ → Option (Callbacks C) := fun _ _ => none
  target : T → Option (Service × ℤ × ℕ) := fun _ => none
  failed : T → Bool := fun _ => false

section

variable [DecidableEq T]

/-- Change what belongs to one service of one slot. -/
def setAt {X : Type} (f : Service → ℤ → X) (v : Service) (slot : ℤ) (x : X) : Service → ℤ → X :=
  Function.update f v (Function.update (f v) slot x)

def Clients.next (m : Clients T C) : Entry T C → Clients T C
  | .registered v slot cb => { m with
      count := setAt m.count v slot (m.count v slot + 1)
      live := setAt m.live v slot (some cb) }
  | .called t v slot _ _ => { m with
      target := Function.update m.target t (some (v,slot,m.count v slot))
      failed := Function.update m.failed t false }
  | .failed t => { m with failed := Function.update m.failed t true }
  | .reset _ v slot => { m with live := setAt m.live v slot none }
  | .checked _ => m

end

/-- The registration that the thread has called is no longer kept. -/
def Clients.Gone (m : Clients T C) (t : T) : Prop :=
  ∃ v slot n, m.target t = some (v,slot,n) ∧
    (n < m.count v slot ∨ n = m.count v slot ∧ m.live v slot = none)

/-- The thread has called the registration that is kept. -/
def Clients.Kept (m : Clients T C) (t : T) (v : Service) (slot : ℤ) : Prop :=
  m.target t = some (v,slot,m.count v slot) ∧ (m.live v slot).isSome

/-- Only objects of the last registration are called, and they are dropped only by a thread whose
call to them has failed. A failed call is checked when they are no longer kept. -/
def Clients.Ok (m : Clients T C) : Entry T C → Prop
  | .registered _ _ _ => True
  | .called _ v slot kind object => ∃ cb, m.live v slot = some cb ∧ cb.get kind = some object
  | .failed t => (m.target t).isSome
  | .reset t v slot => m.Kept t v slot ∧ m.failed t = true
  | .checked t => m.failed t = true ∧ m.Gone t

/-- How the thread holds the lock. -/
def Thread.holds (b : Pending.Build) (k : Lock) : Thread → Option Hold
  | .inside slot hold | .calling _ slot hold | .failed _ slot hold =>
    if getRadioServiceRwlock b slot = k then hold else none
  | _ => none

/-- What a thread knows about the registration that it has called. -/
def Thread.Knows (impls : Service → ℤ → Impl C) (m : Clients T C) (t : T) : Thread → Prop
  | .calling v slot hold => (m.target t).isSome ∧ (hold.isSome → m.Kept t v slot)
  | .failed v slot hold => m.failed t = true ∧ (hold.isSome → m.Kept t v slot)
  | .released v slot counter => m.failed t = true ∧
      ((counter = (impls v slot).counter ∧ m.Kept t v slot) ∨
        (counter < (impls v slot).counter ∧ m.Gone t))
  | .reset _ _ => m.failed t = true ∧ m.Gone t
  | _ => True

variable {b : Pending.Build} {s s' : State T C} {m m' : Clients T C}

structure Served (b : Pending.Build) (s : State T C) (m : Clients T C) : Prop where
  locks : ∀ k, (s.locks k).Agrees fun t => (s.threads t).holds b k
  stored : ∀ v slot, (s.impls v slot).callbacks = (m.live v slot).getD {}
  knows : ∀ t, (s.threads t).Knows s.impls m t

theorem served_start : Served b (start : State T C) {} :=
  ⟨fun _ => RwLock.agrees_free,fun _ _ => rfl,fun _ => trivial⟩

theorem Callbacks.get_empty (kind : Kind) : ({} : Callbacks C).get kind = none := by
  cases kind <;> rfl

@[simp] theorem setAt_self {X : Type} (f : Service → ℤ → X) (v : Service) (slot : ℤ) (x : X) :
    setAt f v slot x v slot = x := by simp [setAt]

theorem setAt_eq_self {X : Type} (f : Service → ℤ → X) (v : Service) (slot : ℤ) :
    setAt f v slot (f v slot) = f := by simp [setAt]

theorem setAt_of_ne {X : Type} {f : Service → ℤ → X} {v w : Service} {slot slot' : ℤ} {x : X}
    (hne : ¬ (w = v ∧ slot' = slot)) : setAt f v slot x w slot' = f w slot' := by
  unfold setAt
  by_cases hw : w = v
  · subst hw
    have hs : slot' ≠ slot := fun hs => hne ⟨rfl,hs⟩
    simp [hs]
  · simp [hw]

theorem increment_eq_some {c c' : ℤ} (h : increment c = some c') : c' = c + 1 := by
  rw [increment] at h
  split at h
  · exact (Option.some.inj h).symm
  · cases h

/-- What a thread knows survives that others, while it does not hold the lock, register new objects
or drop the old ones, since both count. -/
theorem Thread.Knows.bump {impls : Service → ℤ → Impl C} {t : T} {th : Thread} {v : Service}
    {slot : ℤ} {i : Impl C} {n : ℕ} {live : Option (Callbacks C)} (h : th.Knows impls m t)
    (hholds : th.holds b (getRadioServiceRwlock b slot) = none)
    (hi : i.counter = (impls v slot).counter + 1)
    (hn : m.count v slot < n ∨ n = m.count v slot ∧ live = none) :
    th.Knows (setAt impls v slot i)
      { m with count := setAt m.count v slot n, live := setAt m.live v slot live } t := by
  have hgone : m.Gone t → Clients.Gone
      { m with count := setAt m.count v slot n, live := setAt m.live v slot live } t := by
    rintro ⟨w,slot',k,ht,hk⟩
    refine ⟨w,slot',k,ht,?_⟩
    by_cases heq : w = v ∧ slot' = slot
    · obtain ⟨rfl,rfl⟩ := heq
      simp only [setAt_self]
      rcases hk with hk | hk <;> rcases hn with hn | ⟨hn,hlive⟩
      · exact Or.inl (by omega)
      · exact Or.inl (by omega)
      · exact Or.inl (by omega)
      · exact Or.inr ⟨by omega,hlive⟩
    · simpa only [setAt_of_ne heq] using hk
  have hkept : ∀ w slot', ¬ (w = v ∧ slot' = slot) → m.Kept t w slot' → Clients.Kept
      { m with count := setAt m.count v slot n, live := setAt m.live v slot live } t w slot' := by
    rintro w slot' hne ⟨ht,hl⟩
    refine ⟨?_,?_⟩
    · simpa only [setAt_of_ne hne] using ht
    · simpa only [setAt_of_ne hne] using hl
  have hfar : ∀ w slot' hold, (if getRadioServiceRwlock b slot' = getRadioServiceRwlock b slot
      then hold else none) = (none : Option Hold) → hold.isSome → ¬ (w = v ∧ slot' = slot) := by
    rintro w slot' hold hif hsome ⟨-,rfl⟩
    simp [show hold = none from by simpa using hif] at hsome
  cases th with
  | idle => trivial
  | inside slot' hold => trivial
  | calling w slot' hold => exact ⟨h.1,fun hs => hkept w slot' (hfar w slot' hold hholds hs) (h.2 hs)⟩
  | failed w slot' hold => exact ⟨h.1,fun hs => hkept w slot' (hfar w slot' hold hholds hs) (h.2 hs)⟩
  | released w slot' counter =>
    refine ⟨h.1,?_⟩
    by_cases heq : w = v ∧ slot' = slot
    · obtain ⟨rfl,rfl⟩ := heq
      simp only [setAt_self,hi]
      refine Or.inr ?_
      rcases h.2 with ⟨hc,ht,-⟩ | ⟨hc,hg⟩
      · refine ⟨by omega,w,slot',_,ht,?_⟩
        simp only [setAt_self]
        rcases hn with hn | ⟨hn,hlive⟩
        · exact Or.inl hn
        · exact Or.inr ⟨hn.symm,hlive⟩
      · exact ⟨by omega,hgone hg⟩
    · simp only [setAt_of_ne heq]
      exact h.2.imp (fun h => ⟨h.1,hkept w slot' heq h.2⟩) fun h => ⟨h.1,hgone h.2⟩
  | reset w slot' => exact ⟨h.1,hgone h.2⟩

/-- What the others know does not depend on what the trace says of this thread. -/
theorem Thread.Knows.frame {impls : Service → ℤ → Impl C} {u : T} {th : Thread}
    (h : th.Knows impls m u) (hcount : m'.count = m.count) (hlive : m'.live = m.live)
    (htarget : m'.target u = m.target u) (hfailed : m'.failed u = m.failed u) :
    th.Knows impls m' u := by
  have hgone : m.Gone u ↔ m'.Gone u := by simp only [Clients.Gone,hcount,hlive,htarget]
  have hkept : ∀ v slot, m.Kept u v slot ↔ m'.Kept u v slot := fun v slot => by
    simp only [Clients.Kept,hcount,hlive,htarget]
  cases th with
  | idle | inside => trivial
  | calling | failed | released | reset =>
    simpa only [Thread.Knows,hgone,hkept,htarget,hfailed] using h

variable [DecidableEq T]

theorem holds_update (threads : T → Thread) (t : T) (th : Thread) (k : Lock) :
    (fun u => (Function.update threads t th u).holds b k) =
      Function.update (fun u => (threads u).holds b k) t (th.holds b k) := by
  funext u
  by_cases hut : u = t
  · subst hut
    simp
  · simp [hut]

/-- A thread goes on without touching its lock. -/
theorem Served.agrees_same (h : Served b s m) {t : T} {th : Thread}
    (hth : ∀ k, th.holds b k = (s.threads t).holds b k) (k : Lock) :
    (s.locks k).Agrees fun u => (Function.update s.threads t th u).holds b k := by
  rw [holds_update]
  exact (h.locks k).same (hth k).symm

theorem Served.agrees_acquire (h : Served b s m) {t : T} {slot : ℤ} {hold : Hold} {l : RwLock T}
    (hidle : ∀ k, (s.threads t).holds b k = none)
    (hl : (s.locks (getRadioServiceRwlock b slot)).acquire t hold = some l) (k : Lock) :
    (Function.update s.locks (getRadioServiceRwlock b slot) l k).Agrees
      fun u => (Function.update s.threads t (.inside slot (some hold)) u).holds b k := by
  rw [holds_update]
  by_cases hk : k = getRadioServiceRwlock b slot
  · subst hk
    rw [Function.update_self,Thread.holds,if_pos rfl]
    exact (h.locks _).acquire (hidle _) hl
  · rw [Function.update_of_ne hk]
    exact (h.locks k).same (by rw [hidle,Thread.holds,if_neg (Ne.symm hk)])

theorem Served.agrees_release (h : Served b s m) {t : T} {slot : ℤ} {th : Thread} {l : RwLock T}
    (hslot : ∀ k ≠ getRadioServiceRwlock b slot, (s.threads t).holds b k = none)
    (hth : ∀ k, th.holds b k = none)
    (hl : (s.locks (getRadioServiceRwlock b slot)).release t = some l) (k : Lock) :
    (Function.update s.locks (getRadioServiceRwlock b slot) l k).Agrees
      fun u => (Function.update s.threads t th u).holds b k := by
  rw [holds_update,hth]
  by_cases hk : k = getRadioServiceRwlock b slot
  · subst hk
    rw [Function.update_self]
    exact (h.locks _).release hl
  · rw [Function.update_of_ne hk]
    exact (h.locks k).same (hslot k hk)

/-- One thread goes on, and the trace says something new of it only. -/
theorem Served.move (h : Served b s m) {t : T} {th : Thread} {locks : Lock → RwLock T}
    {log : List (Entry T C)}
    (hlocks : ∀ k, (locks k).Agrees fun u => (Function.update s.threads t th u).holds b k)
    (hcount : m'.count = m.count) (hlive : m'.live = m.live)
    (hother : ∀ u ≠ t, m'.target u = m.target u ∧ m'.failed u = m.failed u)
    (hth : th.Knows s.impls m' t) :
    Served b { s with locks := locks, threads := Function.update s.threads t th, log := log } m' := by
  refine ⟨hlocks,?_,fun u => ?_⟩
  · simpa only [hlive] using h.stored
  · by_cases hut : u = t
    · subst hut
      simpa using hth
    · simp only [Function.update_of_ne hut]
      exact (h.knows u).frame hcount hlive (hother u hut).1 (hother u hut).2

/-- What a step logs is fine, and the trace goes on to agree with the state. -/
def Sound (b : Pending.Build) (s s' : State T C) (m : Clients T C) : Prop :=
  ∃ es, s'.log = s.log ++ es ∧ Accepts Clients.next Clients.Ok m es ∧
    Served b s' (watch Clients.next m es)

theorem Served.quiet {t : T} {th : Thread} {locks : Lock → RwLock T} (h : Served b s m)
    (hlocks : ∀ k, (locks k).Agrees fun u => (Function.update s.threads t th u).holds b k)
    (hth : th.Knows s.impls m t) :
    Sound b s { s with locks := locks, threads := Function.update s.threads t th } m :=
  ⟨[],by simp,trivial,h.move hlocks rfl rfl (fun _ _ => ⟨rfl,rfl⟩) hth⟩

theorem Served.register (h : Served b s m) {v : Service} {slot : ℤ} {cb : Callbacks C}
    (hs : s.register b v slot cb = some s') : Sound b s s' m := by
  rw [State.register] at hs
  split at hs
  case isFalse => cases hs
  case isTrue hfree =>
    obtain ⟨c,hc,hs⟩ := Option.bind_eq_some_iff.mp hs
    obtain rfl := Option.some.inj hs
    refine ⟨[.registered v slot cb],rfl,⟨trivial,trivial⟩,h.locks,fun w slot' => ?_,fun t => ?_⟩
    · by_cases heq : w = v ∧ slot' = slot
      · obtain ⟨rfl,rfl⟩ := heq
        simp [State.setImpl,State.enter,Clients.next]
      · have hi : (s.setImpl v slot ⟨cb,c⟩).impls w slot' = s.impls w slot' := setAt_of_ne heq
        simp only [State.enter,hi,watch_cons,watch_nil,Clients.next,setAt_of_ne heq]
        exact h.stored w slot'
    · exact (h.knows t).bump ((h.locks _).free_iff.mp hfree t) (increment_eq_some hc)
        (Or.inl (Nat.lt_succ_self _))

theorem Served.begin (h : Served b s m) {t : T} {slot : ℤ} {hold : Option Hold}
    (hs : s.begin b t slot hold = some s') : Sound b s s' m := by
  unfold State.begin at hs
  split at hs
  case h_1 ht =>
    obtain rfl := Option.some.inj hs
    exact h.quiet (h.agrees_same fun k => by simp [Thread.holds,ht]) trivial
  case h_2 hold ht =>
    obtain ⟨l,hl,hs⟩ := Option.bind_eq_some_iff.mp hs
    obtain rfl := Option.some.inj hs
    exact h.quiet (h.agrees_acquire (fun k => by simp [Thread.holds,ht]) hl) trivial
  case h_3 => cases hs

theorem Served.call (h : Served b s m) {t : T} {v : Service} {kind : Kind}
    (hs : s.call t v kind = some s') : Sound b s s' m := by
  unfold State.call at hs
  split at hs
  case h_2 => cases hs
  case h_1 slot hold ht =>
    obtain ⟨c,hc,hs⟩ := Option.bind_eq_some_iff.mp hs
    obtain rfl := Option.some.inj hs
    have hlive : ∃ cb, m.live v slot = some cb ∧ cb.get kind = some c := by
      rw [h.stored] at hc
      cases hm : m.live v slot with
      | none => simp [hm,Callbacks.get_empty] at hc
      | some cb => exact ⟨cb,rfl,by simpa [hm] using hc⟩
    refine ⟨[.called t v slot kind c],rfl,⟨hlive,trivial⟩,?_⟩
    refine h.move (h.agrees_same fun k => by simp only [Thread.holds,ht]) rfl rfl
      (fun u hu => ?_) ?_
    · simp [Clients.next,hu]
    · obtain ⟨cb,hcb,-⟩ := hlive
      simp [Thread.Knows,Clients.next,Clients.Kept,hcb]

theorem Served.returned (h : Served b s m) {t : T} {isOk : Bool}
    (hs : s.returned t isOk = some s') : Sound b s s' m := by
  unfold State.returned at hs
  split at hs
  case h_2 => cases hs
  case h_1 v slot hold ht =>
    have hk := h.knows t
    rw [ht] at hk
    split at hs
    · obtain rfl := Option.some.inj hs
      exact h.quiet (h.agrees_same fun k => by simp only [Thread.holds,ht]) trivial
    · obtain rfl := Option.some.inj hs
      refine ⟨[.failed t],rfl,⟨hk.1,trivial⟩,?_⟩
      refine h.move (h.agrees_same fun k => by simp only [Thread.holds,ht]) rfl rfl
        (fun u hu => ?_) ?_
      · simp [Clients.next,hu]
      · exact ⟨by simp [Clients.next],hk.2⟩

theorem Served.unlock (h : Served b s m) {t : T} (hs : s.unlock b t = some s') :
    Sound b s s' m := by
  unfold State.unlock at hs
  split at hs
  case h_2 => cases hs
  case h_1 v slot hold ht =>
    obtain ⟨l,hl,hs⟩ := Option.bind_eq_some_iff.mp hs
    obtain rfl := Option.some.inj hs
    have hk := h.knows t
    rw [ht] at hk
    -- only a thread that holds the lock can release it, so the call was made under the lock
    have hheld : hold.isSome := by
      have := ((h.locks (getRadioServiceRwlock b slot)).release_isSome t).mp (by simp [hl])
      simpa [Thread.holds,ht,Option.isSome_iff_ne_none] using this
    exact h.quiet (h.agrees_release (fun k hne => by simp [Thread.holds,ht,Ne.symm hne])
      (fun k => rfl) hl) ⟨hk.1,Or.inl ⟨rfl,hk.2 hheld⟩⟩

theorem Served.resetFunctions (h : Served b s m) {t : T}
    (hs : s.resetFunctions b t = some s') : Sound b s s' m := by
  unfold State.resetFunctions at hs
  split at hs
  case h_2 => cases hs
  case h_1 v slot c ht =>
    split at hs
    case isFalse => cases hs
    case isTrue hfree =>
      have hk := h.knows t
      rw [ht] at hk
      have hsame : ∀ k, (s.locks k).Agrees
          fun u => (Function.update s.threads t (.reset v slot) u).holds b k :=
        h.agrees_same fun k => by simp only [Thread.holds,ht]
      split at hs
      case isFalse hne =>
        obtain rfl := Option.some.inj hs
        rcases hk.2 with ⟨heq,-⟩ | ⟨-,hgone⟩
        · exact absurd heq hne
        · exact h.quiet hsame ⟨hk.1,hgone⟩
      case isTrue heq =>
        obtain ⟨c',hc,hs⟩ := Option.bind_eq_some_iff.mp hs
        obtain rfl := Option.some.inj hs
        have hkept : m.Kept t v slot := by
          rcases hk.2 with ⟨-,hkept⟩ | ⟨hlt,-⟩
          · exact hkept
          · omega
        have hc' : c' = (s.impls v slot).counter + 1 := heq ▸ increment_eq_some hc
        have hfree' := (h.locks _).free_iff.mp hfree
        refine ⟨[.reset t v slot],rfl,⟨⟨hkept,hk.1⟩,trivial⟩,hsame,fun w slot' => ?_,fun u => ?_⟩
        · by_cases he : w = v ∧ slot' = slot
          · obtain ⟨rfl,rfl⟩ := he
            simp [State.setImpl,State.setThread,State.enter,Clients.next]
          · have hi : (s.setImpl v slot ⟨{},c'⟩).impls w slot' = s.impls w slot' := setAt_of_ne he
            simp only [State.enter,State.setThread,hi,watch_cons,watch_nil,Clients.next,setAt_of_ne he]
            exact h.stored w slot'
        · by_cases hut : u = t
          · subst hut
            simp only [State.enter,State.setThread,Function.update_self]
            refine ⟨hk.1,v,slot,_,hkept.1,Or.inr ⟨rfl,?_⟩⟩
            simp [Clients.next]
          · simp only [State.enter,State.setThread,State.setImpl,Function.update_of_ne hut]
            have hu := (h.knows u).bump (i:=⟨{},c'⟩) (hfree' u) hc' (Or.inr ⟨rfl,rfl⟩)
            rw [setAt_eq_self] at hu
            exact hu

theorem Served.relock (h : Served b s m) {t : T} (hs : s.relock b t = some s') :
    Sound b s s' m := by
  unfold State.relock at hs
  split at hs
  case h_2 => cases hs
  case h_1 v slot ht =>
    obtain ⟨l,hl,hs⟩ := Option.bind_eq_some_iff.mp hs
    obtain rfl := Option.some.inj hs
    have hk := h.knows t
    rw [ht] at hk
    exact ⟨[.checked t],rfl,⟨hk,trivial⟩,
      h.move (h.agrees_acquire (fun k => by simp [Thread.holds,ht]) hl) rfl rfl
        (fun _ _ => ⟨rfl,rfl⟩) trivial⟩

theorem Served.finish (h : Served b s m) {t : T} (hs : s.finish b t = some s') :
    Sound b s s' m := by
  unfold State.finish at hs
  split at hs
  case h_1 slot ht =>
    obtain rfl := Option.some.inj hs
    exact h.quiet (h.agrees_same fun k => by simp [Thread.holds,ht]) trivial
  case h_2 slot hold ht =>
    obtain ⟨l,hl,hs⟩ := Option.bind_eq_some_iff.mp hs
    obtain rfl := Option.some.inj hs
    exact h.quiet (h.agrees_release (fun k hne => by simp [Thread.holds,ht,Ne.symm hne])
      (fun k => rfl) hl) trivial
  case h_3 => cases hs

theorem step_sound (h : Served b s m) {x : Action T C} (hs : step b s x = some s') :
    Sound b s s' m := by
  cases x with
  | setResponseFunctions slot r i r' i' =>
    rw [step,State.setResponseFunctions] at hs
    split at hs
    · exact h.register hs
    · exact h.register hs
  | setOemHookFunctions slot r i => exact h.register hs
  | begin t slot hold => exact h.begin hs
  | call t v kind => exact h.call hs
  | returned t isOk => exact h.returned hs
  | unlock t => exact h.unlock hs
  | resetFunctions t => exact h.resetFunctions hs
  | relock t => exact h.relock hs
  | finish t => exact h.finish hs

theorem run_served {as : List (Action T C)} (hr : run (step b) start as = some s) :
    Accepts Clients.next Clients.Ok {} s.log ∧
      Served b s (watch Clients.next {} s.log) := by
  refine run_invariant (G:=fun _ _ => True) (I:=fun s => Accepts Clients.next Clients.Ok {} s.log ∧
    Served b s (watch Clients.next {} s.log)) (fun s x s' hi _ hs => ?_) ⟨accepts_nil _,served_start⟩
    (along_true _ _) hr
  obtain ⟨es,hlog,hes,h⟩ := step_sound hi.2 hs
  rw [hlog,accepts_append,watch_append]
  exact ⟨⟨hi.1,hes⟩,h⟩

/-- Whatever the order of registrations, calls and deaths of clients: a service keeps the objects of
the last registration until a thread drops them whose own call to these objects has failed, and no
thread comes back from the check of a failed call while they are still kept. The lock that a check
gives up is held by its thread, except when `sendErrorResponse` has made the call. -/
theorem clients_kept {as : List (Action T C)} (hr : run (step b) start as = some s) :
    Accepts Clients.next Clients.Ok {} s.log ∧
    (∀ v slot,
      (s.impls v slot).callbacks = ((watch Clients.next {} s.log).live v slot).getD {}) ∧
    (∀ t v slot hold, s.threads t = .failed v slot hold →
      ((step b s (.unlock t)).isSome ↔ hold.isSome)) ∧
    ∀ t slot hold, s.threads t = .inside slot hold → (step b s (.finish t)).isSome := by
  obtain ⟨hok,h⟩ := run_served hr
  refine ⟨hok,h.stored,fun t v slot hold ht => ?_,fun t slot hold ht => ?_⟩
  · have hrel := (h.locks (getRadioServiceRwlock b slot)).release_isSome t
    simp only [Thread.holds,ht,if_true] at hrel
    rw [← Option.isSome_iff_ne_none] at hrel
    simpa [step,State.unlock,ht,Option.isSome_bind] using hrel
  · have hrel := (h.locks (getRadioServiceRwlock b slot)).release_isSome t
    simp only [Thread.holds,ht,if_true] at hrel
    cases hold with
    | none => simp [step,State.finish,ht]
    | some k => simpa [step,State.finish,ht,Option.isSome_bind] using hrel

/-- Two calls to a dead client; the second check comes after a new client has registered. -/
def sampleCalls : List (Action ℕ String) :=
  [.setResponseFunctions 0 (some "response") (some "indication") none none,
    .begin 1 0 (some .read),.call 1 .radio .response,
    .begin 2 0 (some .read),.call 2 .radio .indication,
    .returned 1 false,.returned 2 false,.unlock 1,.unlock 2,
    .resetFunctions 1,
    .setResponseFunctions 0 (some "new response") (some "new indication") none none,
    .resetFunctions 2,.relock 2,.relock 1,.finish 1,.finish 2]

theorem clients_kept_sample : ∃ s : State ℕ String,
    run (step ⟨1,12,150⟩) start sampleCalls = some s ∧
    Accepts Clients.next Clients.Ok {} s.log ∧
    (∀ v slot,
      (s.impls v slot).callbacks = ((watch Clients.next {} s.log).live v slot).getD {}) ∧
    (∀ t v slot hold, s.threads t = .failed v slot hold →
      ((step ⟨1,12,150⟩ s (.unlock t)).isSome ↔ hold.isSome)) ∧
    (∀ t slot hold, s.threads t = .inside slot hold → (step ⟨1,12,150⟩ s (.finish t)).isSome) ∧
    (s.impls .radio 0).callbacks.response = some "new response" := by
  have h : (run (step ⟨1,12,150⟩) start sampleCalls).map
      (fun s => (s.impls .radio 0).callbacks.response) = some (some "new response") := by decide
  obtain ⟨s,hr,hresponse⟩ := Option.map_eq_some_iff.mp h
  obtain ⟨hok,hkept,hunlock,hfinish⟩ := clients_kept hr
  exact ⟨s,hr,hok,hkept,hunlock,hfinish,hresponse⟩

end Radio
end Ril
end Kitakami

import Kitakami.Gps.LocThread

/-!
# The lives of a thread and of its runnable

The count of references agrees with where the two parties are, so the delegate
lives as long as one of them needs it. The trace of a run is judged by what it
says of the runnable: the order of its calls, and that they end.
-/

namespace Kitakami
namespace LocThread

open Runs Monitor

inductive Stage
  | fresh
  | looping
  | over
  | closed
  deriving DecidableEq

/-- What the trace says. `late` is whether the runnable was called after `stopped`. -/
structure Life where
  stage : Stage := .fresh
  started : Option Bool := none
  stopped : Bool := false
  late : Bool := false
  joined : Bool := false
  deleted : Bool := false
  freed : Bool := false

def Life.next (m : Life) : Event → Life
  | .started ok => { m with started := some ok }
  | .prerun => { m with stage := .looping, late := m.stopped }
  | .run again => { m with stage := if again then .looping else .over, late := m.stopped }
  | .postrun => { m with stage := .closed, late := m.stopped }
  | .deleted => { m with deleted := true }
  | .stopped => { m with stopped := true }
  | .joined => { m with joined := true }
  | .freed => { m with freed := true }

/-- The runnable may be called: it exists, it was not called since the stop, and nobody has joined
the thread. -/
def Life.Callable (m : Life) : Prop := m.late = false ∧ m.joined = false ∧ m.deleted = false

/-- `prerun` comes first, then `run` as long as it returns true, and `postrun` after it has returned
false; a stop cuts this off after one more call at most. The runnable and the delegate are deleted
once. -/
def Life.Ok (m : Life) : Event → Prop
  | .started _ => m.started = none ∧ m.stopped = false
  | .prerun => m.stage = .fresh ∧ m.Callable
  | .run _ => m.stage = .looping ∧ m.Callable
  | .postrun => m.stage = .over ∧ m.Callable
  | .deleted => m.deleted = false ∧ m.joined = false
  | .stopped => m.started = some true ∧ m.stopped = false
  | .joined => m.stopped = true ∧ m.joined = false
  | .freed => m.freed = false

/-! ## References -/

def Destroy.refs : Destroy → ℕ
  | .check | .count => 1
  | .delete => 0

/-- The party is about to delete the delegate. -/
def Destroy.deletes : Destroy → ℕ
  | .check | .count => 0
  | .delete => 1

/-- Before the thread is created, the client has the references of both. -/
def Client.refs : Client → ℕ
  | .idle | .refused | .left => 0
  | .constructed => 2
  | .checking | .running | .stopCalled | .stopping | .joining => 1
  | .dropping d | .leaving d => d.refs

def Client.deletes : Client → ℕ
  | .dropping d | .leaving d => d.deletes
  | _ => 0

def Spawned.refs : Spawned → ℕ
  | .unborn | .ended => 0
  | .leaving d => d.refs
  | _ => 1

def Spawned.deletes : Spawned → ℕ
  | .leaving d => d.deletes
  | _ => 0

/-- The delegate exists as long as there are references to it, or one party is about to delete it. -/
structure Balanced (delegate : Option Delegate) (refs deletes : ℕ) : Prop where
  present : delegate.isSome ↔ 0 < refs + deletes
  last : 0 < deletes → refs = 0 ∧ deletes = 1
  count : ∀ d, delegate = some d → d.mRefCount = refs

variable {s s' : State} {m : Life} {at_ : Destroy} {refs deletes : ℕ}

theorem Balanced.delegate {delegate : Option Delegate} (h : Balanced delegate refs deletes)
    (hr : 0 < refs) : ∃ d, delegate = some d ∧ d.mRefCount = refs := by
  obtain ⟨d,hd⟩ := Option.isSome_iff_exists.mp (h.present.mpr (by omega))
  exact ⟨d,hd,h.count d hd⟩

/-- A change of what the delegate holds besides the count. -/
theorem Balanced.set {d d' : Delegate} (h : Balanced (some d) refs deletes)
    (hd : d'.mRefCount = d.mRefCount) : Balanced (some d') refs deletes := by
  refine ⟨by simpa using h.present,h.last,fun e he => ?_⟩
  obtain rfl := Option.some.inj he
  exact hd.trans (h.count d rfl)

def State.isRunning (s : State) : Bool := s.delegate.any (·.mRunnable)

theorem isRunning_some {d : Delegate} (hd : s.delegate = some d) : s.isRunning = d.mRunnable := by
  simp [State.isRunning,hd]

/-- What a step of `destroy` does to the delegate besides the count. -/
def State.Destroys (s : State) (delegate : Option Delegate) (es : List Event) : Prop :=
  s.delegate.isSome ∧
    (es = [] ∧ delegate.any (·.mRunnable) = s.isRunning ∨ es = [.freed] ∧ delegate = none)

/-- Each step of `destroy` takes away the reference of its party. -/
theorem Balanced.destroy (h : Balanced s.delegate (at_.refs + refs) (at_.deletes + deletes)) :
    ∃ delegate es next, s.destroy at_ = some ({ s with delegate := delegate, log := s.log ++ es },next) ∧
      Balanced delegate (next.elim 0 Destroy.refs + refs) (next.elim 0 Destroy.deletes + deletes) ∧
      s.Destroys delegate es := by
  obtain ⟨d,hd⟩ : ∃ d, s.delegate = some d := by
    refine Option.isSome_iff_exists.mp (h.present.mpr ?_)
    cases at_ <;> simp [Destroy.refs,Destroy.deletes]
  have hcount := h.count d hd
  have hlast := h.last
  cases at_ with
  | check =>
    simp only [Destroy.refs] at hcount
    refine ⟨some d,[],some .count,?_,?_,by simp [hd],Or.inl ⟨rfl,(isRunning_some hd).symm⟩⟩
    · have hpos : d.mRefCount > 0 := by omega
      simp only [State.destroy,hd,Option.bind_eq_bind,Option.bind_some,if_pos hpos,
        List.append_nil,Option.pure_def]
      rw [← hd]
    · simpa [hd,Destroy.refs,Destroy.deletes] using h
  | count =>
    simp only [Destroy.refs,Destroy.deletes] at hcount hlast
    refine ⟨some { d with mRefCount := d.mRefCount - 1 },[],
      if d.mRefCount = 1 then some .delete else none,?_,?_,
      by simp [hd],Or.inl ⟨rfl,(isRunning_some hd).symm⟩⟩
    · simp [State.destroy,hd]
    · by_cases hone : d.mRefCount = 1
      · simp only [hone,if_true,Option.elim_some,Destroy.refs,Destroy.deletes]
        refine ⟨by simp,fun _ => by omega,fun e he => ?_⟩
        obtain rfl := Option.some.inj he
        simp only
        omega
      · simp only [hone,if_false,Option.elim_none]
        refine ⟨by simp; omega,fun hdel => by omega,fun e he => ?_⟩
        obtain rfl := Option.some.inj he
        simp only
        omega
  | delete =>
    simp only [Destroy.refs,Destroy.deletes] at hcount hlast
    refine ⟨none,[.freed],none,?_,?_,by simp [hd],Or.inr ⟨rfl,rfl⟩⟩
    · simp [State.destroy,hd,State.enter]
    · simp only [Option.elim_none]
      exact ⟨by simp; omega,fun hdel => by omega,by simp⟩

/-! ## The invariant -/

/-- The runnable is in the hands of the thread or has not been taken by it. -/
def Spawned.keeps : Spawned → Bool
  | .leaving _ | .ended => false
  | _ => true

/-- The thread has not come to the end of the loop. -/
def Spawned.early : Spawned → Bool
  | .unborn | .deleteRunnable | .leaving _ | .ended => false
  | _ => true

/-- Where the thread is and what the trace says of its calls. -/
def Spawned.Fits (running : Bool) (m : Life) : Spawned → Prop
  | .unborn | .entry | .testPrerun | .prerun => m.stage = .fresh ∧ m.late = false
  | .testRun => running = true → m.stage = .looping
  | .run => m.stage = .looping ∧ m.late = false
  | .testPostrun => running = true → m.stage = .over
  | .postrun => m.stage = .over ∧ m.late = false
  | _ => True

/-- Where the client is and what the trace says of it. -/
def Client.Fits (m : Life) : Client → Prop
  | .idle | .constructed | .checking | .dropping _ => m.started = none ∧ m.stopped = false
  | .running | .stopCalled => m.started = some true ∧ m.stopped = false
  | .stopping | .joining => m.stopped = true ∧ m.joined = false
  | .refused => m.stopped = false
  | .leaving _ | .left => True

structure Kept (s : State) (m : Life) : Prop where
  balanced : Balanced s.delegate (s.client.refs + s.spawned.refs)
    (s.client.deletes + s.spawned.deletes)
  unborn : s.client = .idle ∨ s.client = .constructed → s.spawned = .unborn
  runnable : s.spawned.keeps → s.runnable = true
  deleted : m.deleted = !s.runnable
  stopped : s.isRunning → m.stopped = false
  late : m.late → m.stopped
  joined : m.joined → m.stopped ∧ s.spawned = .ended
  freed : m.freed → s.delegate = none ∧ s.client ≠ .idle
  client : s.client.Fits m
  spawned : s.spawned.Fits s.isRunning m
  refused : s.client = .refused ∨ (∃ d, s.client = .dropping d) →
    s.spawned.early = false
  whole : s.client = .constructed → s.isRunning = true
  flag : s.client = .checking → s.isRunning = s.spawned.early

theorem kept_start : Kept {} {} where
  balanced := ⟨by simp [Client.refs,Spawned.refs,Client.deletes,Spawned.deletes],by
    simp [Client.deletes,Spawned.deletes],by simp⟩
  unborn := by simp
  runnable := by simp
  deleted := rfl
  stopped := by simp
  late := by simp
  joined := by simp
  freed := by simp
  client := ⟨rfl,rfl⟩
  spawned := ⟨rfl,rfl⟩
  refused := by simp [Spawned.early]
  whole := by simp
  flag := by simp

/-- What a step logs is fine, and the trace goes on to agree with the state. -/
def Sound (s s' : State) (m : Life) : Prop :=
  ∃ es, s'.log = s.log ++ es ∧ Accepts Life.next Life.Ok m es ∧ Kept s' (watch Life.next m es)

theorem Kept.start (h : Kept s m) {joinable : Bool} (hs : s.start joinable = some s') :
    Sound s s' m := by
  unfold State.start at hs
  split at hs
  case h_2 => cases hs
  case h_1 hc =>
    obtain rfl := Option.some.inj hs
    have hsp := h.unborn (Or.inl hc)
    have hclient := h.client
    have hspawned := h.spawned
    simp only [hc,hsp] at hclient hspawned
    refine ⟨[],by simp,trivial,?_⟩
    exact {
      balanced := by
        refine ⟨by simp [Client.refs],by simp [hsp,Client.deletes,Spawned.deletes],fun d hd => ?_⟩
        obtain rfl := Option.some.inj hd
        simp [hsp,Client.refs,Spawned.refs]
      unborn := fun _ => hsp
      runnable := h.runnable
      deleted := h.deleted
      stopped := fun _ => hclient.2
      late := h.late
      joined := h.joined
      freed := fun hf => absurd hc (h.freed hf).2
      client := hclient
      spawned := by rw [hsp]; exact hspawned
      refused := by simp
      whole := fun _ => rfl
      flag := by simp }

theorem Kept.create (h : Kept s m) {ok : Bool} (hs : s.create ok = some s') : Sound s s' m := by
  unfold State.create at hs
  split at hs
  case h_2 => cases hs
  case h_1 hc =>
    obtain ⟨d,hd,hs⟩ := Option.bind_eq_some_iff.mp hs
    have hsp := h.unborn (Or.inr hc)
    have hclient := h.client
    have hspawned := h.spawned
    have hbal := h.balanced
    have hrun := h.runnable
    have hjoined := h.joined
    have hfreed := h.freed
    have hwhole := h.whole hc
    simp only [hc,hsp] at hclient hspawned hbal hrun hjoined
    refine ⟨[],?_⟩
    split at hs
    · obtain rfl := Option.some.inj hs
      refine ⟨by simp,trivial,?_⟩
      exact {
        balanced := hbal
        unborn := by simp
        runnable := fun _ => hrun rfl
        deleted := h.deleted
        stopped := h.stopped
        late := h.late
        joined := fun hj => absurd (hjoined hj).2 (by simp)
        freed := fun hf => ⟨(hfreed hf).1,by simp⟩
        client := hclient
        spawned := hspawned
        refused := by simp
        whole := by simp
        flag := fun _ => hwhole }
    · obtain rfl := Option.some.inj hs
      refine ⟨by simp,trivial,?_⟩
      exact {
        balanced := by
          refine ⟨by simp [Client.refs],by simp [hsp,Client.deletes,Spawned.deletes],fun e he => ?_⟩
          obtain rfl := Option.some.inj he
          simp [hsp,Client.refs,Spawned.refs]
        unborn := by simp
        runnable := fun _ => hrun rfl
        deleted := h.deleted
        stopped := fun _ => hclient.2
        late := h.late
        joined := fun hj => absurd (hjoined hj).2 (by simp)
        freed := fun hf => absurd (hfreed hf).1 (by simp [hd])
        client := hclient
        spawned := by rw [hsp]; exact hspawned
        refused := by simp
        whole := by simp
        flag := fun _ => by simp [State.isRunning,Spawned.early,hsp] }

theorem Spawned.Fits.mono {r r' : Bool} {sp : Spawned} {m' : Life} (h : sp.Fits r m)
    (hr : r' = true → r = true) (hstage : m'.stage = m.stage) (hlate : m'.late = m.late) :
    sp.Fits r' m' := by
  cases sp with
  | testRun | testPostrun => exact fun hr' => hstage.trans (h (hr hr'))
  | unborn | entry | testPrerun | prerun | run | postrun =>
    exact ⟨hstage.trans h.1,hlate.trans h.2⟩
  | _ => trivial

theorem Client.Fits.congr {c : Client} {m' : Life} (h : c.Fits m) (hstarted : m'.started = m.started)
    (hstopped : m'.stopped = m.stopped) (hjoined : m'.joined = m.joined) : c.Fits m' := by
  cases c with
  | leaving | left => trivial
  | _ => simpa only [Client.Fits,hstarted,hstopped,hjoined] using h

theorem State.Destroys.running {delegate : Option Delegate} {es : List Event}
    (hes : s.Destroys delegate es) (hr : delegate.any (·.mRunnable) = true) :
    s.isRunning = true := by
  rcases hes.2 with ⟨-,hany⟩ | ⟨-,rfl⟩
  · exact hany.symm.trans hr
  · simp at hr

theorem State.Destroys.watch {delegate : Option Delegate} {es : List Event}
    (hes : s.Destroys delegate es) : (watch Life.next m es).started = m.started ∧
      (Monitor.watch Life.next m es).stopped = m.stopped := by
  rcases hes.2 with ⟨rfl,-⟩ | ⟨rfl,-⟩ <;> exact ⟨rfl,rfl⟩

/-- A party takes a step of `destroy`. -/
theorem Kept.destroys (h : Kept s m) {delegate : Option Delegate} {es : List Event} {c : Client}
    {sp : Spawned} (hes : s.Destroys delegate es)
    (hkept : ∀ freed, (freed = true → delegate = none) →
      Kept { s with delegate := delegate, client := c, spawned := sp, log := s.log ++ es }
        { m with freed := freed }) :
    Accepts Life.next Life.Ok m es ∧
      Kept { s with delegate := delegate, client := c, spawned := sp, log := s.log ++ es }
        (watch Life.next m es) := by
  have hfreed : m.freed = false := by
    cases hf : m.freed with
    | false => rfl
    | true => simpa [(h.freed hf).1] using hes.1
  rcases hes.2 with ⟨rfl,-⟩ | ⟨rfl,rfl⟩
  · exact ⟨trivial,hkept m.freed fun hf => by simp [hf] at hfreed⟩
  · exact ⟨⟨hfreed,trivial⟩,hkept true fun _ => rfl⟩

theorem Kept.clientDestroys (h : Kept s m) {delegate : Option Delegate} {es : List Event} {c : Client}
    (hbal : Balanced delegate (c.refs + s.spawned.refs) (c.deletes + s.spawned.deletes))
    (hes : s.Destroys delegate es) (hc : c ≠ .idle ∧ c ≠ .constructed ∧ c ≠ .checking)
    (hfits : c.Fits m)
    (hrefused : c = .refused ∨ (∃ d, c = .dropping d) → s.spawned.early = false) :
    Accepts Life.next Life.Ok m es ∧
      Kept { s with delegate := delegate, client := c, log := s.log ++ es }
        (watch Life.next m es) := by
  refine h.destroys hes fun freed hfreed => ?_
  exact {
    balanced := hbal
    unborn := fun h' => absurd h' (by simp [hc.1,hc.2.1])
    runnable := h.runnable
    deleted := h.deleted
    stopped := fun hr => h.stopped (hes.running hr)
    late := h.late
    joined := h.joined
    freed := fun hf => ⟨hfreed hf,hc.1⟩
    client := hfits.congr rfl rfl rfl
    spawned := h.spawned.mono hes.running rfl rfl
    refused := hrefused
    whole := fun h' => absurd h' hc.2.1
    flag := fun h' => absurd h' hc.2.2 }

theorem Kept.spawnedDestroys (h : Kept s m) {delegate : Option Delegate} {es : List Event}
    {sp : Spawned} (hsp : ∃ at_, s.spawned = .leaving at_) (hsp' : sp = .ended ∨ ∃ at_, sp = .leaving at_)
    (hbal : Balanced delegate (s.client.refs + sp.refs) (s.client.deletes + sp.deletes))
    (hes : s.Destroys delegate es) :
    Accepts Life.next Life.Ok m es ∧
      Kept { s with delegate := delegate, spawned := sp, log := s.log ++ es }
        (watch Life.next m es) := by
  obtain ⟨at_,hsp⟩ := hsp
  have hnew : s.client ≠ .idle ∧ s.client ≠ .constructed := by
    constructor <;> intro hc <;> simpa [hsp] using h.unborn (by simp [hc])
  have hearly : sp.early = false ∧ sp.keeps = false := by
    rcases hsp' with rfl | ⟨d,rfl⟩ <;> exact ⟨rfl,rfl⟩
  refine h.destroys hes fun freed hfreed => ?_
  exact {
    balanced := hbal
    unborn := fun h' => absurd h' (by simp [hnew])
    runnable := fun h' => by simp [hearly.2] at h'
    deleted := h.deleted
    stopped := fun hr => h.stopped (hes.running hr)
    late := h.late
    joined := fun hj => by simpa [hsp] using (h.joined hj).2
    freed := fun hf => ⟨hfreed hf,hnew.1⟩
    client := h.client.congr rfl rfl rfl
    spawned := by rcases hsp' with rfl | ⟨d,rfl⟩ <;> trivial
    refused := fun _ => hearly.1
    whole := fun h' => absurd h' hnew.2
    flag := fun h' => by
      have hflag : s.isRunning = false := by rw [h.flag h',hsp,Spawned.early]
      rw [hearly.1]
      exact Bool.eq_false_iff.mpr fun hr => by simpa [hflag] using hes.running hr }

/-- The client goes on with its references, and leaves the delegate alone. -/
theorem Kept.clientMoves (h : Kept s m) {c : Client} {log : List Event} {m' : Life}
    (hrefs : c.refs = s.client.refs ∧ c.deletes = s.client.deletes)
    (hc : c ≠ .idle ∧ c ≠ .constructed ∧ c ≠ .checking) (hfits : c.Fits m')
    (hrefused : c = .refused ∨ (∃ d, c = .dropping d) → s.spawned.early = false)
    (hstopped : m'.stopped = m.stopped) (hjoined : m'.joined → m'.stopped ∧ s.spawned = .ended)
    (hrest : m'.stage = m.stage ∧ m'.late = m.late ∧ m'.deleted = m.deleted ∧ m'.freed = m.freed) :
    Kept { s with client := c, log := log } m' := by
  obtain ⟨hstage,hlate,hdeleted,hfreed⟩ := hrest
  exact {
    balanced := by simpa only [hrefs.1,hrefs.2] using h.balanced
    unborn := fun h' => absurd h' (by simp [hc.1,hc.2.1])
    runnable := h.runnable
    deleted := hdeleted.trans h.deleted
    stopped := fun hr => hstopped.trans (h.stopped hr)
    late := by rw [hlate,hstopped]; exact h.late
    joined := hjoined
    freed := fun hf => ⟨(h.freed (hfreed ▸ hf)).1,hc.1⟩
    client := hfits
    spawned := h.spawned.mono id hstage hlate
    refused := hrefused
    whole := fun h' => absurd h' hc.2.1
    flag := fun h' => absurd h' hc.2.2 }

theorem Kept.notJoined (h : Kept s m) (hstopped : m.stopped = false) {P : Prop} (hj : m.joined = true) :
    P := by
  simpa [hstopped] using (h.joined hj).1

theorem Kept.check (h : Kept s m) (hc : s.client = .checking) {d : Delegate}
    (hd : s.delegate = some d) :
    Sound s (if d.mRunnable then { s with client := .running }.enter (.started true)
      else { s with client := .dropping .check }) m := by
  have hclient := h.client
  simp only [hc,Client.Fits] at hclient
  have hflag := h.flag hc
  rw [isRunning_some hd] at hflag
  split
  case isTrue hrun =>
    refine ⟨[.started true],rfl,⟨hclient,trivial⟩,?_⟩
    exact h.clientMoves (by simp [hc,Client.refs,Client.deletes]) (by simp) ⟨rfl,hclient.2⟩
      (by simp) rfl (fun hj => h.notJoined hclient.2 hj) ⟨rfl,rfl,rfl,rfl⟩
  case isFalse hrun =>
    refine ⟨[],by simp,trivial,?_⟩
    exact h.clientMoves (by simp [hc,Client.refs,Client.deletes,Destroy.refs,Destroy.deletes])
      (by simp) hclient (fun _ => by simpa [hrun] using hflag.symm) rfl h.joined ⟨rfl,rfl,rfl,rfl⟩

theorem Kept.drop (h : Kept s m) (hc : s.client = .dropping at_) (hs : s.clientStep = some s') :
    Sound s s' m := by
  have hclient := h.client
  have hbal := h.balanced
  have hearly := h.refused (Or.inr ⟨at_,hc⟩)
  simp only [hc,Client.Fits] at hclient
  rw [hc] at hbal
  obtain ⟨delegate,es,next,hdest,hbal',hes⟩ := Balanced.destroy hbal
  simp only [State.clientStep,hc,hdest,Option.bind_eq_bind,Option.bind_some] at hs
  cases next with
  | some next =>
    obtain rfl := Option.some.inj hs
    obtain ⟨hok,hk⟩ := h.clientDestroys (c:=.dropping next) hbal' hes (by simp) hclient
      fun _ => hearly
    exact ⟨es,rfl,hok,hk⟩
  | none =>
    obtain rfl := Option.some.inj hs
    obtain ⟨hok,hk⟩ := h.clientDestroys (c:=.refused) hbal' hes (by simp) hclient.2
      fun _ => hearly
    obtain ⟨hstarted,hstopped⟩ := hes.watch (m:=m)
    refine ⟨es ++ [.started false],by simp [State.enter],?_,?_⟩
    · rw [accepts_append]
      exact ⟨hok,⟨hstarted.trans hclient.1,hstopped.trans hclient.2⟩,trivial⟩
    · rw [watch_append]
      exact hk.clientMoves (by simp [Client.refs,Client.deletes]) (by simp)
        (hstopped.trans hclient.2)
        (fun _ => hearly) rfl hk.joined ⟨rfl,rfl,rfl,rfl⟩

theorem Kept.leave (h : Kept s m) (hc : s.client = .leaving at_) (hs : s.clientStep = some s') :
    Sound s s' m := by
  have hbal := h.balanced
  rw [hc] at hbal
  obtain ⟨delegate,es,next,hdest,hbal',hes⟩ := Balanced.destroy hbal
  simp only [State.clientStep,hc,hdest,Option.bind_eq_bind,Option.bind_some] at hs
  cases next with
  | some next =>
    obtain rfl := Option.some.inj hs
    exact ⟨es,rfl,h.clientDestroys (c:=.leaving next) hbal' hes (by simp) trivial (by simp)⟩
  | none =>
    obtain rfl := Option.some.inj hs
    exact ⟨es,rfl,h.clientDestroys (c:=.left) hbal' hes (by simp) trivial (by simp)⟩

/-- `stop` writes the flag; from here on the runnable is called once more at most. -/
theorem Kept.null (h : Kept s m) (hc : s.client = .stopCalled) {d : Delegate}
    (hd : s.delegate = some d) :
    Sound s ({ s with
      delegate := some { d with mRunnable := false }
      client := .stopping }.enter .stopped) m := by
  have hclient := h.client
  simp only [hc,Client.Fits] at hclient
  have hlate : m.late = false := by
    cases hl : m.late with
    | false => rfl
    | true => simpa [hclient.2] using h.late hl
  refine ⟨[.stopped],rfl,⟨hclient,trivial⟩,?_⟩
  exact {
    balanced := by
      have hbal := h.balanced
      rw [hc,hd] at hbal
      exact hbal.set rfl
    unborn := by simp [State.enter]
    runnable := h.runnable
    deleted := h.deleted
    stopped := by simp [State.enter,State.isRunning]
    late := fun _ => rfl
    joined := fun hj => h.notJoined hclient.2 hj
    freed := fun hf => by simpa [hd] using (h.freed hf).1
    client := by
      refine ⟨rfl,?_⟩
      cases hj : m.joined with
      | false => exact hj
      | true => exact h.notJoined hclient.2 hj
    spawned := h.spawned.mono (by simp [State.enter,State.isRunning]) rfl rfl
    refused := by simp [State.enter]
    whole := by simp [State.enter]
    flag := by simp [State.enter] }

theorem Kept.askJoin (h : Kept s m) (hc : s.client = .stopping) {d : Delegate}
    (hd : s.delegate = some d) :
    Sound s (if d.mJoinable then
        { s with delegate := some { d with mJoinable := false }, client := .joining }
      else { s with client := .leaving .check }) m := by
  have hclient := h.client
  simp only [hc,Client.Fits] at hclient
  split
  · have hrun : s.isRunning = State.isRunning
        { s with delegate := some { d with mJoinable := false }, client := .joining } := by
      simp [State.isRunning,hd]
    refine ⟨[],by simp,trivial,?_⟩
    exact {
      balanced := by
        have hbal := h.balanced
        rw [hc,hd] at hbal
        exact hbal.set rfl
      unborn := by simp
      runnable := h.runnable
      deleted := h.deleted
      stopped := fun hr => h.stopped (hrun ▸ hr)
      late := h.late
      joined := h.joined
      freed := fun hf => by simpa [hd] using (h.freed hf).1
      client := hclient
      spawned := hrun ▸ h.spawned
      refused := by simp
      whole := by simp
      flag := by simp }
  · refine ⟨[],by simp,trivial,?_⟩
    exact h.clientMoves (by simp [hc,Client.refs,Client.deletes,Destroy.refs,Destroy.deletes])
      (by simp) trivial (by simp) rfl h.joined ⟨rfl,rfl,rfl,rfl⟩

theorem Kept.join (h : Kept s m) (hc : s.client = .joining) (hended : s.spawned = .ended) :
    Sound s ({ s with client := .leaving .check }.enter .joined) m := by
  have hclient := h.client
  simp only [hc,Client.Fits] at hclient
  refine ⟨[.joined],rfl,⟨hclient,trivial⟩,?_⟩
  exact h.clientMoves (by simp [hc,Client.refs,Client.deletes,Destroy.refs,Destroy.deletes])
    (by simp) trivial (by simp) rfl (fun _ => ⟨hclient.1,hended⟩) ⟨rfl,rfl,rfl,rfl⟩

theorem Kept.clientStep (h : Kept s m) (hs : s.clientStep = some s') : Sound s s' m := by
  cases hc : s.client with
  | idle | constructed | running | refused | left => simp [State.clientStep,hc] at hs
  | checking =>
    simp only [State.clientStep,hc] at hs
    obtain ⟨d,hd,hs⟩ := Option.bind_eq_some_iff.mp hs
    have := h.check hc hd
    split at hs <;> obtain rfl := Option.some.inj hs <;> simp_all
  | dropping at_ => exact h.drop hc hs
  | stopCalled =>
    simp only [State.clientStep,hc] at hs
    obtain ⟨d,hd,hs⟩ := Option.bind_eq_some_iff.mp hs
    obtain rfl := Option.some.inj hs
    exact h.null hc hd
  | stopping =>
    simp only [State.clientStep,hc] at hs
    obtain ⟨d,hd,hs⟩ := Option.bind_eq_some_iff.mp hs
    have := h.askJoin hc hd
    split at hs <;> obtain rfl := Option.some.inj hs <;> simp_all
  | joining =>
    simp only [State.clientStep,hc] at hs
    split at hs
    · obtain rfl := Option.some.inj hs
      exact h.join hc ‹_›
    · cases hs
  | leaving at_ => exact h.leave hc hs

/-- While the thread has its reference, the client has seen it created and has not joined it. -/
theorem Kept.spawned_pos (h : Kept s m) (hrefs : s.spawned.refs = 1) :
    s.client ≠ .idle ∧ s.client ≠ .constructed ∧ m.joined = false := by
  refine ⟨fun hc => ?_,fun hc => ?_,?_⟩
  · simp [h.unborn (Or.inl hc),Spawned.refs] at hrefs
  · simp [h.unborn (Or.inr hc),Spawned.refs] at hrefs
  · cases hj : m.joined with
    | false => rfl
    | true => simp [(h.joined hj).2,Spawned.refs] at hrefs

theorem Kept.spawnedDelegate (h : Kept s m) (hrefs : s.spawned.refs = 1) :
    ∃ d, s.delegate = some d ∧ s.spawned.deletes = 0 := by
  obtain ⟨d,hd,-⟩ := h.balanced.delegate (by omega)
  refine ⟨d,hd,?_⟩
  cases hsp : s.spawned with
  | leaving at_ => cases at_ <;> simp_all [Spawned.refs,Spawned.deletes,Destroy.refs,Destroy.deletes]
  | _ => rfl

/-- The thread goes on with its reference, and leaves the delegate alone. -/
theorem Kept.spawnedMoves (h : Kept s m) {sp : Spawned} {runnable : Bool} {log : List Event}
    {m' : Life} (hrefs : s.spawned.refs = 1) (hnew : sp.refs = 1 ∧ sp.deletes = 0)
    (hrun : (sp.keeps → runnable = true) ∧ m'.deleted = !runnable)
    (hearly : (s.client = .checking → s.isRunning = sp.early) ∧
      (s.spawned.early = false → sp.early = false))
    (hfits : sp.Fits s.isRunning m') (hlate : m'.late → m'.stopped)
    (hrest : m'.started = m.started ∧ m'.stopped = m.stopped ∧ m'.joined = m.joined ∧
      m'.freed = m.freed) :
    Kept { s with spawned := sp, runnable := runnable, log := log } m' := by
  obtain ⟨hstarted,hstopped,hjoined,hfreed⟩ := hrest
  obtain ⟨hidle,hconstructed,hnot⟩ := h.spawned_pos hrefs
  obtain ⟨d,hd,hdel⟩ := h.spawnedDelegate hrefs
  exact {
    balanced := by
      have hbal := h.balanced
      rw [hrefs,hdel] at hbal
      simpa only [hnew.1,hnew.2] using hbal
    unborn := fun h' => absurd h' (by simp [hidle,hconstructed])
    runnable := hrun.1
    deleted := hrun.2
    stopped := fun hr => hstopped.trans (h.stopped hr)
    late := hlate
    joined := fun hj => by simp [hjoined,hnot] at hj
    freed := fun hf => by simpa [hd] using (h.freed (hfreed ▸ hf)).1
    client := h.client.congr hstarted hstopped hjoined
    spawned := hfits
    refused := fun h' => hearly.2 (h.refused h')
    whole := fun h' => absurd h' hconstructed
    flag := hearly.1 }

/-- The thread goes on without a call. -/
theorem Kept.spawnedTests (h : Kept s m) {sp : Spawned} (hrefs : s.spawned.refs = 1)
    (hnew : sp.refs = 1 ∧ sp.deletes = 0) (hkeeps : s.spawned.keeps)
    (hearly : (s.client = .checking → s.isRunning = sp.early) ∧
      (s.spawned.early = false → sp.early = false))
    (hfits : sp.Fits s.isRunning m) : Sound s { s with spawned := sp } m :=
  ⟨[],by simp,trivial,h.spawnedMoves hrefs hnew ⟨fun _ => h.runnable hkeeps,h.deleted⟩ hearly hfits
    h.late ⟨rfl,rfl,rfl,rfl⟩⟩

/-- The thread calls the runnable. -/
theorem Kept.calls (h : Kept s m) {sp : Spawned} {e : Event} (hrefs : s.spawned.refs = 1)
    (hkeeps : s.spawned.keeps) (hearly : s.spawned.early) (hnew : sp.refs = 1 ∧ sp.deletes = 0)
    (hnew' : sp.early) (hok : m.Callable → Life.Ok m e) (hlate : m.late = false)
    (hfits : sp.Fits s.isRunning (m.next e))
    (he : ∃ stage, m.next e = { m with stage := stage, late := m.stopped }) :
    Sound s ({ s with spawned := sp }.enter e) m := by
  have hrun := h.runnable hkeeps
  refine ⟨[e],rfl,⟨hok ⟨hlate,(h.spawned_pos hrefs).2.2,?_⟩,trivial⟩,?_⟩
  · simp [h.deleted,hrun]
  · obtain ⟨stage,he⟩ := he
    refine h.spawnedMoves hrefs hnew ?_ ?_ hfits ?_ ?_
    · simp [he,h.deleted,hrun]
    · refine ⟨fun hc => ?_,fun hf => by simp [hearly] at hf⟩
      rw [h.flag hc,hearly,hnew']
    · simp [he]
    · simp [he]

/-- The flag says that nobody has stopped the thread, so no call was late. -/
theorem Kept.notLate (h : Kept s m) (hr : s.isRunning = true) : m.late = false := by
  cases hl : m.late with
  | false => rfl
  | true => simpa [h.stopped hr] using h.late hl

/-- The thread reads the flag, and goes one way or the other. -/
theorem Kept.tests (h : Kept s m) {sp sp' : Spawned} {d : Delegate} (hd : s.delegate = some d)
    (hrefs : s.spawned.refs = 1) (hkeeps : s.spawned.keeps) (hearly : s.spawned.early)
    (hnew : sp.refs = 1 ∧ sp.deletes = 0 ∧ sp.early)
    (hnew' : sp'.refs = 1 ∧ sp'.deletes = 0)
    (hfits : s.isRunning = true → sp.Fits s.isRunning m)
    (hfits' : s.isRunning = false → sp'.Fits false m) :
    Sound s { s with spawned := if d.mRunnable then sp else sp' } m := by
  have hrun := isRunning_some hd
  cases hr : d.mRunnable with
  | true =>
    refine h.spawnedTests hrefs ⟨hnew.1,hnew.2.1⟩ hkeeps ⟨fun hc => ?_,fun hf => ?_⟩
      (hfits (hrun.trans hr))
    · rw [h.flag hc,hearly,if_pos rfl,hnew.2.2]
    · simp [hearly] at hf
  | false =>
    refine h.spawnedTests hrefs hnew' hkeeps ⟨fun hc => ?_,fun hf => ?_⟩ ?_
    · have := h.flag hc
      simp [hrun,hr,hearly] at this
    · simp [hearly] at hf
    · rw [hrun,hr]
      exact hfits' (hrun.trans hr)

theorem Kept.clear (h : Kept s m) (hsp : s.spawned = .clear) {d : Delegate}
    (hd : s.delegate = some d) :
    Sound s { s with
      delegate := some { d with mRunnable := false }
      spawned := .deleteRunnable } m := by
  obtain ⟨hidle,hconstructed,hnot⟩ := h.spawned_pos (by simp [hsp,Spawned.refs])
  refine ⟨[],by simp,trivial,?_⟩
  exact {
    balanced := by
      have hbal := h.balanced
      rw [hsp,hd] at hbal
      exact hbal.set rfl
    unborn := fun h' => absurd h' (by simp [hidle,hconstructed])
    runnable := fun _ => h.runnable (by simp [hsp,Spawned.keeps])
    deleted := h.deleted
    stopped := by simp [State.isRunning]
    late := h.late
    joined := fun hj => absurd hj (by simp [hnot])
    freed := fun hf => by simpa [hd] using (h.freed hf).1
    client := h.client
    spawned := trivial
    refused := fun _ => rfl
    whole := fun h' => absurd h' hconstructed
    flag := by simp [State.isRunning,Spawned.early] }

theorem Kept.deleteRunnable (h : Kept s m) (hsp : s.spawned = .deleteRunnable) :
    Sound s ({ s with runnable := false, spawned := .leaving .check }.enter .deleted) m := by
  have hrefs : s.spawned.refs = 1 := by simp [hsp,Spawned.refs]
  have hrun := h.runnable (by simp [hsp,Spawned.keeps])
  refine ⟨[.deleted],rfl,⟨⟨by simp [h.deleted,hrun],(h.spawned_pos hrefs).2.2⟩,trivial⟩,?_⟩
  refine h.spawnedMoves hrefs ⟨rfl,rfl⟩ ⟨by simp [Spawned.keeps],rfl⟩ ⟨fun hc => ?_,fun _ => rfl⟩
    trivial h.late ⟨rfl,rfl,rfl,rfl⟩
  rw [h.flag hc,hsp]
  rfl

theorem Kept.spawnedLeaves (h : Kept s m) (hsp : s.spawned = .leaving at_) {again : Bool}
    (hs : s.spawnedStep again = some s') : Sound s s' m := by
  have hbal := h.balanced
  rw [hsp,add_comm,add_comm s.client.deletes] at hbal
  obtain ⟨delegate,es,next,hdest,hbal',hes⟩ := Balanced.destroy hbal
  rw [add_comm,add_comm _ s.client.deletes] at hbal'
  simp only [State.spawnedStep,hsp,hdest,Option.bind_eq_bind,Option.bind_some] at hs
  cases next with
  | some next =>
    obtain rfl := Option.some.inj hs
    exact ⟨es,rfl,h.spawnedDestroys ⟨at_,hsp⟩ (Or.inr ⟨next,rfl⟩) hbal' hes⟩
  | none =>
    obtain rfl := Option.some.inj hs
    exact ⟨es,rfl,h.spawnedDestroys ⟨at_,hsp⟩ (Or.inl rfl) hbal' hes⟩

theorem Kept.spawnedStep (h : Kept s m) {again : Bool} (hs : s.spawnedStep again = some s') :
    Sound s s' m := by
  have hfits := h.spawned
  have hlate := h.notLate
  cases hsp : s.spawned with
  | unborn | ended => simp [State.spawnedStep,hsp] at hs
  | entry | testPrerun | testRun | testPostrun =>
    simp only [State.spawnedStep,hsp] at hs
    obtain ⟨d,hd,hs⟩ := Option.bind_eq_some_iff.mp hs
    obtain rfl := Option.some.inj hs
    rw [hsp] at hfits
    refine h.tests hd (by simp [hsp,Spawned.refs]) (by simp [hsp,Spawned.keeps])
      (by simp [hsp,Spawned.early]) ⟨rfl,rfl,rfl⟩ ⟨rfl,rfl⟩ (fun hr => ?_) fun hr => ?_
    · first
        | exact hfits
        | exact ⟨hfits hr,hlate hr⟩
    · first
        | trivial
        | exact fun hf => by cases hf
  | prerun | postrun =>
    simp only [State.spawnedStep,hsp] at hs
    rw [hsp] at hfits
    split at hs
    · obtain rfl := Option.some.inj hs
      exact h.calls (by simp [hsp,Spawned.refs]) (by simp [hsp,Spawned.keeps])
        (by simp [hsp,Spawned.early]) ⟨rfl,rfl⟩ rfl (fun hc => ⟨hfits.1,hc⟩) hfits.2
        (by simp [Spawned.Fits,Life.next]) ⟨_,rfl⟩
    · cases hs
  | run =>
    simp only [State.spawnedStep,hsp] at hs
    rw [hsp] at hfits
    split at hs
    · obtain rfl := Option.some.inj hs
      cases again <;> exact h.calls (by simp [hsp,Spawned.refs]) (by simp [hsp,Spawned.keeps])
        (by simp [hsp,Spawned.early]) ⟨rfl,rfl⟩ rfl (fun hc => ⟨hfits.1,hc⟩) hfits.2
        (fun _ => rfl) ⟨_,rfl⟩
    · cases hs
  | clear =>
    simp only [State.spawnedStep,hsp] at hs
    obtain ⟨d,hd,hs⟩ := Option.bind_eq_some_iff.mp hs
    obtain rfl := Option.some.inj hs
    exact h.clear hsp hd
  | deleteRunnable =>
    simp only [State.spawnedStep,hsp] at hs
    split at hs
    · obtain rfl := Option.some.inj hs
      exact h.deleteRunnable hsp
    · cases hs
  | leaving at_ => exact h.spawnedLeaves hsp hs

theorem Kept.stop (h : Kept s m) (hs : s.stop = some s') : Sound s s' m := by
  unfold State.stop at hs
  split at hs
  case h_2 => cases hs
  case h_1 hc =>
    obtain rfl := Option.some.inj hs
    have hclient := h.client
    simp only [hc] at hclient
    exact ⟨[],by simp,trivial,h.clientMoves (by simp [hc,Client.refs,Client.deletes]) (by simp) hclient
      (by simp) rfl h.joined ⟨rfl,rfl,rfl,rfl⟩⟩

theorem Kept.bye (h : Kept s m) (hs : s.bye = some s') : Sound s s' m := by
  unfold State.bye at hs
  split at hs
  case h_2 => cases hs
  case h_1 hc =>
    obtain ⟨d,hd,hs⟩ := Option.bind_eq_some_iff.mp hs
    obtain rfl := Option.some.inj hs
    have hclient := h.client
    simp only [hc] at hclient
    refine ⟨[],by simp,trivial,?_⟩
    cases d.mJoinable with
    | true =>
      exact h.clientMoves (by simp [hc,Client.refs,Client.deletes]) (by simp) hclient (by simp) rfl
        h.joined ⟨rfl,rfl,rfl,rfl⟩
    | false =>
      exact h.clientMoves (by simp [hc,Client.refs,Client.deletes,Destroy.refs,Destroy.deletes])
        (by simp) trivial (by simp) rfl h.joined ⟨rfl,rfl,rfl,rfl⟩

theorem step_sound (h : Kept s m) {a : Action} (hs : step s a = some s') : Sound s s' m := by
  cases a with
  | start joinable => exact h.start hs
  | create ok => exact h.create hs
  | stop => exact h.stop hs
  | bye => exact h.bye hs
  | client => exact h.clientStep hs
  | spawned again => exact h.spawnedStep hs

theorem run_kept {as : List Action} (hr : run step {} as = some s) :
    Accepts Life.next Life.Ok {} s.log ∧ Kept s (watch Life.next {} s.log) := by
  refine run_invariant (G:=fun _ _ => True) (I:=fun s => Accepts Life.next Life.Ok {} s.log ∧
    Kept s (watch Life.next {} s.log)) (fun s a s' hi _ hs => ?_) ⟨accepts_nil _,kept_start⟩
    (along_true _ _) hr
  obtain ⟨es,hlog,hes,h⟩ := step_sound hi.2 hs
  rw [hlog,accepts_append,watch_append]
  exact ⟨⟨hi.1,hes⟩,h⟩

/-! ## Nothing goes wrong -/

theorem Kept.clientDelegate (h : Kept s m) (hc : 0 < s.client.refs + s.client.deletes) :
    ∃ d, s.delegate = some d :=
  Option.isSome_iff_exists.mp (h.balanced.present.mpr (by omega))

theorem destroy_isSome {d : Delegate} (hd : s.delegate = some d) (at_ : Destroy) :
    ∃ r, s.destroy at_ = some r := by
  cases at_ <;> exact ⟨_,by simp only [State.destroy,hd]; rfl⟩

/-- A step that is due finds the objects that it needs. -/
theorem Kept.due (h : Kept s m) {a : Action} (hdue : Due s a) : (step s a).isSome := by
  cases a with
  | start joinable =>
    have hc : s.client = .idle := hdue
    simp [step,State.start,hc]
  | create ok =>
    have hc : s.client = .constructed := hdue
    obtain ⟨d,hd⟩ := h.clientDelegate (by simp [hc,Client.refs])
    cases ok <;> simp [step,State.create,hc,hd]
  | stop =>
    have hc : s.client = .running := hdue
    simp [step,State.stop,hc]
  | bye =>
    have hc : s.client = .running := hdue
    obtain ⟨d,hd⟩ := h.clientDelegate (by simp [hc,Client.refs])
    simp [step,State.bye,hc,hd]
  | client =>
    obtain ⟨hmem,hjoin⟩ := hdue
    cases hc : s.client with
    | idle | constructed | running | refused | left => simp [hc] at hmem
    | checking | stopCalled | stopping =>
      obtain ⟨d,hd⟩ := h.clientDelegate (by simp [hc,Client.refs])
      simp only [step,State.clientStep,hc,hd,Option.bind_eq_bind,Option.bind_some]
      first
        | rfl
        | (split <;> rfl)
    | joining => simp [step,State.clientStep,hc,hjoin hc]
    | dropping at_ | leaving at_ =>
      obtain ⟨d,hd⟩ := h.clientDelegate (by cases at_ <;>
        simp [hc,Client.refs,Client.deletes,Destroy.refs,Destroy.deletes])
      obtain ⟨⟨s₁,next⟩,hr⟩ := destroy_isSome hd at_
      cases next <;> simp [step,State.clientStep,hc,hr]
  | spawned again =>
    cases hsp : s.spawned with
    | unborn | ended => simp [Due,hsp] at hdue
    | entry | testPrerun | testRun | testPostrun | clear =>
      obtain ⟨d,hd,-⟩ := h.spawnedDelegate (by simp [hsp,Spawned.refs])
      simp [step,State.spawnedStep,hsp,hd]
    | prerun | run | postrun | deleteRunnable =>
      have hrun := h.runnable (by simp [hsp,Spawned.keeps])
      simp [step,State.spawnedStep,hsp,hrun]
    | leaving at_ =>
      obtain ⟨d,hd⟩ : ∃ d, s.delegate = some d := by
        refine Option.isSome_iff_exists.mp (h.balanced.present.mpr ?_)
        cases at_ <;> simp [hsp,Spawned.refs,Spawned.deletes,Destroy.refs,Destroy.deletes]
      obtain ⟨⟨s₁,next⟩,hr⟩ := destroy_isSome hd at_
      cases next <;> simp [step,State.spawnedStep,hsp,hr]

/-- Both parties have given up their references. -/
def Through (s : State) : Prop :=
  s.client ∈ [.refused,.left] ∧ s.spawned ∈ [.unborn,.ended]

/-- Whatever the order of the steps of the two threads: the calls on the runnable are in order, at
most one comes after the stop and none after the join, the runnable and the delegate are deleted at
most once, no step finds one of them deleted, and when both parties are through, the delegate is
deleted. -/
theorem thread_lifecycle {as : List Action} (hr : run step {} as = some s) :
    Accepts Life.next Life.Ok {} s.log ∧ (∀ a, Due s a → (step s a).isSome) ∧
      (Through s → s.delegate = none) := by
  obtain ⟨hok,h⟩ := run_kept hr
  refine ⟨hok,fun a hdue => h.due hdue,fun ⟨hc,hsp⟩ => ?_⟩
  have hpresent := h.balanced.present
  cases hd : s.delegate with
  | none => rfl
  | some d =>
    simp only [List.mem_cons,List.not_mem_nil,or_false] at hc hsp
    rcases hc with hc | hc <;> rcases hsp with hsp | hsp <;>
      simp [hd,hc,hsp,Client.refs,Client.deletes,Spawned.refs,Spawned.deletes] at hpresent

/-- A thread that is stopped as soon as it runs, and the run in full. -/
def sampleActions : List Action :=
  [.start true,.create true,.spawned true,.client,.spawned true,.spawned true,.spawned true,
    .spawned true,.stop,.spawned true,.client,.spawned true,.client,.spawned true,.spawned true,
    .spawned true,.spawned true,.spawned true,.spawned true,.client,.client,.client,.client]

theorem thread_lifecycle_sample : ∃ s, run step {} sampleActions = some s ∧
    Accepts Life.next Life.Ok {} s.log ∧ (∀ a, Due s a → (step s a).isSome) ∧
      (Through s → s.delegate = none) := by
  have h : (run step {} sampleActions).isSome := by decide
  exact ⟨_,(Option.some_get h).symm,thread_lifecycle (Option.some_get h).symm⟩

end LocThread
end Kitakami

import Mathlib.Tactic
import Kitakami.Base.Runs
import Kitakami.Base.Monitor

/-!
# Network time without a client

A time that the network sends while no client is registered is kept, and sent
to the client that registers next, with the time at which the last one was
received. Clients register one at a time, on the one thread that serves them;
the vendor library passes on the network's times from a thread of its own.

The kept time is under no lock. It is taken here that its sections do not
overlap: `nitzTimeReceivedInd` with the text it is given, the `free` after it
with the store of `NULL`, the `free` of the keeping thread with its store, and
its `calloc` with the size and the copy are one step each.
-/

namespace Kitakami
namespace Ril
namespace Nitz

open Runs Monitor

/-- Where the registration of a client stands. `sent` says what `nitzTimeReceivedInd` returned and
which time it passed on. -/
inductive Client
  | idle
  | connecting
  | resending
  | sending
  | sent (ret : Bool) (n : Option ℕ)
  deriving DecidableEq

/-- Where `RIL_onUnsolicitedResponse` stands with a time that reached no client. -/
inductive Vendor (D : Type)
  | idle
  | missed (n : ℕ) (data : D)
  | freed (n : ℕ) (data : D)
  deriving DecidableEq

inductive Event
  | received (n : ℕ) (time : ℤ)
  | delivered (n : ℕ) (time : ℤ)
  | missed (n : ℕ)
  | resent (n : ℕ) (time : ℤ)
  deriving DecidableEq

/-- The times are numbered as they are received; `registered` says whether `mRadioIndication` is
set. -/
structure State (D : Type) where
  registered : Bool := false
  nitzTimeReceived : ℤ := 0
  s_lastNITZTimeData : Option (ℕ × D) := none
  client : Client := .idle
  vendor : Vendor D := .idle
  count : ℕ := 0
  log : List Event := []

inductive Action (D : Type)
  | setResponseFunctions (indication : Bool)
  | onNewCommandConnect
  | resendLastNITZTimeData
  | nitzTimeReceivedInd
  | finish
  | dropClient
  | onUnsolicitedResponse (data : D) (time : ℤ)
  | freeLast
  | keep (memory : Bool)

variable {D : Type}

/-- The sections on `s_lastNITZTimeData` are one step each. -/
def step (s : State D) : Action D → Option (State D)
  | .setResponseFunctions indication =>
    match s.client with
    | .idle => some {s with registered := indication, client := .connecting}
    | _ => none
  | .onNewCommandConnect =>
    match s.client with
    | .connecting =>
      some {s with client := if s.s_lastNITZTimeData.isSome then .resending else .idle}
    | _ => none
  | .resendLastNITZTimeData =>
    match s.client with
    | .resending =>
      some {s with client := if s.s_lastNITZTimeData.isSome then .sending else .idle}
    | _ => none
  | .nitzTimeReceivedInd =>
    match s.client with
    | .sending =>
      if s.registered then
        match s.s_lastNITZTimeData with
        | some (n,_) => some {s with
            client := .sent true (some n), log := s.log ++ [.resent n s.nitzTimeReceived]}
        -- no response is invalid, but not refused
        | none => some {s with client := .sent true none}
      else some {s with client := .sent false none}
    | _ => none
  | .finish =>
    match s.client with
    | .sent ret _ => some {s with
        client := .idle
        s_lastNITZTimeData := if ret then none else s.s_lastNITZTimeData}
    | _ => none
  -- a call to the client failed
  | .dropClient => some {s with registered := false}
  | .onUnsolicitedResponse data time =>
    -- the write lock is not to be had while a time is sent again, unless that call has failed
    match s.vendor, s.client with
    | _, .sending => none
    | .idle, _ =>
      let s' := {s with nitzTimeReceived := time, count := s.count + 1}
      some (if s.registered then
        {s' with log := s.log ++ [.received s.count time,.delivered s.count time]}
      else
        {s' with vendor := .missed s.count data
                 log := s.log ++ [.received s.count time,.missed s.count]})
    | _, _ => none
  | .freeLast =>
    match s.vendor with
    | .missed n data => some {s with vendor := .freed n data, s_lastNITZTimeData := none}
    | _ => none
  | .keep memory =>
    match s.vendor with
    | .freed n data => some {s with
        vendor := .idle
        s_lastNITZTimeData := if memory then some (n,data) else none}
    | _ => none

/-- What a step does, and when. -/
inductive Does (s : State D) : Action D → State D → Prop
  | connect (indication : Bool) (hc : s.client = .idle) : Does s (.setResponseFunctions indication)
      {s with registered := indication, client := .connecting}
  | connected (hc : s.client = .connecting) : Does s .onNewCommandConnect
      {s with client := if s.s_lastNITZTimeData.isSome then .resending else .idle}
  | looked (hc : s.client = .resending) : Does s .resendLastNITZTimeData
      {s with client := if s.s_lastNITZTimeData.isSome then .sending else .idle}
  | resent {n : ℕ} {data : D} (hc : s.client = .sending) (hn : s.s_lastNITZTimeData = some (n,data)) :
      Does s .nitzTimeReceivedInd {s with
        client := .sent true (some n), log := s.log ++ [.resent n s.nitzTimeReceived]}
  | nothing (ret : Bool) (hc : s.client = .sending) :
      Does s .nitzTimeReceivedInd {s with client := .sent ret none}
  | finished {ret : Bool} {n : Option ℕ} (hc : s.client = .sent ret n) : Does s .finish {s with
      client := .idle, s_lastNITZTimeData := if ret then none else s.s_lastNITZTimeData}
  | dropped : Does s .dropClient {s with registered := false}
  | delivered (data : D) (time : ℤ) : Does s (.onUnsolicitedResponse data time) {s with
      nitzTimeReceived := time, count := s.count + 1,
      log := s.log ++ [.received s.count time,.delivered s.count time]}
  | missed (data : D) (time : ℤ) : Does s (.onUnsolicitedResponse data time) {s with
      nitzTimeReceived := time, count := s.count + 1, vendor := .missed s.count data,
      log := s.log ++ [.received s.count time,.missed s.count]}
  | freed {n : ℕ} {data : D} (hv : s.vendor = .missed n data) :
      Does s .freeLast {s with vendor := .freed n data, s_lastNITZTimeData := none}
  | kept {n : ℕ} {data : D} (hv : s.vendor = .freed n data) (memory : Bool) :
      Does s (.keep memory) {s with
        vendor := .idle, s_lastNITZTimeData := if memory then some (n,data) else none}

theorem does_of_step {s s' : State D} {a : Action D} (hs : step s a = some s') : Does s a s' := by
  cases a with
  | setResponseFunctions indication =>
    simp only [step] at hs
    split at hs
    case h_1 hc => exact Option.some.inj hs ▸ .connect indication hc
    case h_2 => cases hs
  | onNewCommandConnect =>
    simp only [step] at hs
    split at hs
    case h_1 hc => exact Option.some.inj hs ▸ .connected hc
    case h_2 => cases hs
  | resendLastNITZTimeData =>
    simp only [step] at hs
    split at hs
    case h_1 hc => exact Option.some.inj hs ▸ .looked hc
    case h_2 => cases hs
  | nitzTimeReceivedInd =>
    simp only [step] at hs
    split at hs
    case h_1 hc =>
      split at hs
      · split at hs
        case h_1 n data hn => exact Option.some.inj hs ▸ .resent hc hn
        case h_2 => exact Option.some.inj hs ▸ .nothing true hc
      · exact Option.some.inj hs ▸ .nothing false hc
    case h_2 => cases hs
  | finish =>
    simp only [step] at hs
    split at hs
    case h_1 hc => exact Option.some.inj hs ▸ .finished hc
    case h_2 => cases hs
  | dropClient => exact Option.some.inj hs ▸ .dropped
  | onUnsolicitedResponse data time =>
    simp only [step] at hs
    split at hs
    case h_1 => cases hs
    case h_2 =>
      rw [← Option.some.inj hs]
      split
      · exact .delivered data time
      · exact .missed data time
    case h_3 => cases hs
  | freeLast =>
    simp only [step] at hs
    split at hs
    case h_1 hv => exact Option.some.inj hs ▸ .freed hv
    case h_2 => cases hs
  | keep memory =>
    simp only [step] at hs
    split at hs
    case h_1 hv => exact Option.some.inj hs ▸ .kept hv memory
    case h_2 => cases hs

/-! ## What is delivered -/

/-- Which times came in, which were missed and which reached a client. -/
structure Book where
  count : ℕ := 0
  lastTime : ℤ := 0
  ownTime : ℕ → ℤ := fun _ => 0
  missed : ℕ → Bool := fun _ => false
  delivered : ℕ → Bool := fun _ => false
  lastMissed : Option ℕ := none

def Book.next (m : Book) : Event → Book
  | .received n time => {m with
      count := n + 1, lastTime := time, ownTime := Function.update m.ownTime n time}
  | .delivered n _ => {m with delivered := Function.update m.delivered n true}
  | .missed n => {m with missed := Function.update m.missed n true, lastMissed := some n}
  | .resent n _ => {m with delivered := Function.update m.delivered n true}

/-- No time is delivered twice; a time that is delivered at once comes with the time at which it
was received, a missed one with the time at which the last one was. -/
def Book.Ok (m : Book) : Event → Prop
  | .received n _ => n = m.count
  | .delivered n time => m.delivered n = false ∧ m.missed n = false ∧ time = m.ownTime n
  | .missed n => m.delivered n = false ∧ n + 1 = m.count
  | .resent n time => m.delivered n = false ∧ m.missed n = true ∧ time = m.lastTime ∧
      (n + 1 = m.count → time = m.ownTime n)

/-- The vendor's thread is about to keep time `n`. -/
def Vendor.Keeps (v : Vendor D) (n : ℕ) : Prop := ∃ data, v = .missed n data ∨ v = .freed n data

structure Booked (s : State D) (m : Book) : Prop where
  count : m.count = s.count
  lastTime : m.lastTime = s.nitzTimeReceived
  ownTime : ∀ n, n + 1 = s.count → m.ownTime n = m.lastTime
  fresh : ∀ n, s.count ≤ n → m.missed n = false ∧ m.delivered n = false
  kept : ∀ n data, s.s_lastNITZTimeData = some (n,data) → m.missed n = true ∧
    (m.delivered n = true → s.client = .sent true (some n)) ∧ ¬ s.vendor.Keeps n ∧
    (s.vendor = .idle → m.lastMissed = some n)
  keeps : ∀ n, s.vendor.Keeps n →
    m.lastMissed = some n ∧ m.missed n = true ∧ m.delivered n = false
  freed : ∀ n data, s.vendor = .freed n data → s.s_lastNITZTimeData = none
  sent : ∀ n, s.client = .sent true (some n) → m.delivered n = true

variable {s s' : State D} {m : Book}

/-- What a step adds to the log is entered. -/
def Sound (s s' : State D) (m : Book) : Prop :=
  ∃ es, s'.log = s.log ++ es ∧ Accepts Book.next Book.Ok m es ∧ Booked s' (watch Book.next m es)

/-- Steps of a client that pass nothing on. -/
theorem Booked.client (h : Booked s m) (hc : ∀ n, s.client ≠ .sent true (some n)) {c : Client}
    (hc' : ∀ n, c ≠ .sent true (some n)) (registered : Bool) :
    Sound s {s with registered := registered, client := c} m := by
  refine ⟨[],(List.append_nil _).symm,trivial,?_⟩
  exact { h with kept := fun n data hn =>
                   have hk := h.kept n data hn
                   ⟨hk.1,fun hd => absurd (hk.2.1 hd) (hc n),hk.2.2⟩
                 sent := fun n hn => absurd hn (hc' n) }

theorem Booked.resent (h : Booked s m) (hc : s.client = .sending) {n : ℕ} {data : D}
    (hn : s.s_lastNITZTimeData = some (n,data)) : Sound s {s with
      client := .sent true (some n), log := s.log ++ [.resent n s.nitzTimeReceived]} m := by
  obtain ⟨hmissed,hdelivered,hapart,hlast⟩ := h.kept n data hn
  have hnot : m.delivered n = false := by
    by_contra hd
    rw [Bool.not_eq_false] at hd
    exact absurd (hdelivered hd) (by simp [hc])
  have hlt : n < s.count := by
    by_contra hge
    rw [(h.fresh n (not_lt.mp hge)).1] at hmissed
    cases hmissed
  refine ⟨[_],rfl,⟨⟨hnot,hmissed,h.lastTime.symm,fun hc => ?_⟩,trivial⟩,?_⟩
  · rw [h.ownTime n (hc.trans h.count),h.lastTime]
  · refine { count := h.count, lastTime := h.lastTime, ownTime := h.ownTime, fresh := fun k hk => ?_,
             kept := fun k data' hk => ?_, keeps := fun k hk => ?_, freed := h.freed,
             sent := fun k hk => ?_ }
    · have hk' : s.count ≤ k := hk
      simp only [watch_cons,watch_nil,Book.next,Function.update_of_ne (by omega : k ≠ n)]
      exact h.fresh k hk
    · obtain ⟨rfl,-⟩ := Prod.mk.inj (Option.some.inj (hn.symm.trans hk))
      exact ⟨hmissed,fun _ => rfl,hapart,hlast⟩
    · obtain ⟨hl,hm,hd⟩ := h.keeps k hk
      have hkn : k ≠ n := by
        rintro rfl
        exact hapart hk
      exact ⟨hl,hm,(Function.update_of_ne hkn _ _).trans hd⟩
    · obtain rfl := Option.some.inj (Client.sent.inj hk).2
      exact Function.update_self _ _ _

theorem Booked.finish (h : Booked s m) (ret : Bool) (hr : ∀ n, s.client = .sent true (some n) →
    ret = true) : Sound s {s with
      client := .idle, s_lastNITZTimeData := if ret then none else s.s_lastNITZTimeData} m := by
  refine ⟨[],(List.append_nil _).symm,trivial,?_⟩
  refine { h with kept := fun n data hn => ?_, freed := fun n data hn => ?_,
                  sent := fun n hn => by cases hn }
  · cases ret with
    | true => cases hn
    | false =>
      obtain ⟨hm,hd,hrest⟩ := h.kept n data hn
      exact ⟨hm,fun hdel => absurd (hr n (hd hdel)) (by simp),hrest⟩
  · cases ret with
    | true => rfl
    | false => exact h.freed n data hn

/-- A new time is entered. -/
theorem Booked.received (h : Booked s m) (time : ℤ) :
    Book.Ok m (.received s.count time) ∧ Booked
      {s with nitzTimeReceived := time, count := s.count + 1} (m.next (.received s.count time)) := by
  refine ⟨h.count.symm,{ h with count := rfl, lastTime := rfl, ownTime := fun n hn => ?_,
                                fresh := fun n hn => h.fresh n (by
                                  have hn' : s.count + 1 ≤ n := hn
                                  omega) }⟩
  obtain rfl : n = s.count := Nat.succ.inj hn
  exact Function.update_self _ _ _

theorem Booked.delivers (h : Booked s m) (time : ℤ) : Sound s {s with
    nitzTimeReceived := time, count := s.count + 1,
    log := s.log ++ [.received s.count time,.delivered s.count time]} m := by
  obtain ⟨hok,h'⟩ := h.received time
  obtain ⟨hmissed,hdelivered⟩ := h.fresh s.count le_rfl
  refine ⟨_,rfl,⟨hok,⟨hdelivered,hmissed,?_⟩,trivial⟩,?_⟩
  · exact (Function.update_self (f:=m.ownTime) s.count time).symm
  · have hold : ∀ k, k ≠ s.count → Function.update m.delivered s.count true k = m.delivered k :=
      fun k hk => Function.update_of_ne hk _ _
    refine { count := h'.count, lastTime := h'.lastTime, ownTime := h'.ownTime,
             fresh := fun k hk => ?_, kept := fun k d hk => ?_, keeps := fun k hk => ?_,
             freed := h.freed, sent := fun k hk => ?_ }
    · have hk' : s.count + 1 ≤ k := hk
      exact ⟨(h.fresh k (by omega)).1,(hold k (by omega)).trans (h.fresh k (by omega)).2⟩
    · obtain ⟨hm,hd,hrest⟩ := h.kept k d hk
      have hne : k ≠ s.count := by
        rintro rfl
        rw [hmissed] at hm
        cases hm
      exact ⟨hm,fun hdel => hd ((hold k hne).symm.trans hdel),hrest⟩
    · obtain ⟨hl,hm,hd⟩ := h.keeps k hk
      have hne : k ≠ s.count := by
        rintro rfl
        rw [hmissed] at hm
        cases hm
      exact ⟨hl,hm,(hold k hne).trans hd⟩
    · have hd := h.sent k hk
      have hne : k ≠ s.count := by
        rintro rfl
        rw [hdelivered] at hd
        cases hd
      exact (hold k hne).trans hd

theorem Booked.misses (h : Booked s m) (data : D) (time : ℤ) :
    Sound s {s with
      nitzTimeReceived := time, count := s.count + 1, vendor := .missed s.count data,
      log := s.log ++ [.received s.count time,.missed s.count]} m := by
  obtain ⟨hok,h'⟩ := h.received time
  obtain ⟨hmissed,hdelivered⟩ := h.fresh s.count le_rfl
  refine ⟨_,rfl,⟨hok,⟨hdelivered,rfl⟩,trivial⟩,?_⟩
  have hold : ∀ k, k ≠ s.count → Function.update m.missed s.count true k = m.missed k :=
    fun k hk => Function.update_of_ne hk _ _
  refine { count := h'.count, lastTime := h'.lastTime, ownTime := h'.ownTime,
           fresh := fun k hk => ?_, kept := fun k d hk => ?_, keeps := fun k hk => ?_,
           freed := fun k d hk => ?_, sent := h.sent }
  · have hk' : s.count + 1 ≤ k := hk
    exact ⟨(hold k (by omega)).trans (h.fresh k (by omega)).1,(h.fresh k (by omega)).2⟩
  · obtain ⟨hm,hd,-,-⟩ := h.kept k d hk
    have hne : k ≠ s.count := by
      rintro rfl
      rw [hmissed] at hm
      cases hm
    refine ⟨(hold k hne).trans hm,hd,?_,fun hidle => by cases hidle⟩
    rintro ⟨d',hk' | hk'⟩
    · exact hne (Vendor.missed.inj hk').1.symm
    · cases hk'
  · obtain ⟨d,hk | hk⟩ := hk
    · obtain rfl := (Vendor.missed.inj hk).1
      exact ⟨rfl,Function.update_self _ _ _,hdelivered⟩
    · cases hk
  · cases hk

theorem Booked.frees (h : Booked s m) {n : ℕ} {data : D} (hv : s.vendor = .missed n data) :
    Sound s {s with vendor := .freed n data, s_lastNITZTimeData := none} m := by
  refine ⟨[],(List.append_nil _).symm,trivial,?_⟩
  refine { h with kept := fun k d hk => (by cases hk), keeps := fun k hk => ?_,
                  freed := fun _ _ _ => rfl }
  obtain ⟨d,hk | hk⟩ := hk
  · cases hk
  · obtain rfl := (Vendor.freed.inj hk).1
    exact h.keeps n ⟨data,Or.inl hv⟩

theorem Booked.keep (h : Booked s m) {n : ℕ} {data : D} (hv : s.vendor = .freed n data)
    (memory : Bool) : Sound s {s with
      vendor := .idle, s_lastNITZTimeData := if memory then some (n,data) else none} m := by
  obtain ⟨hl,hm,hd⟩ := h.keeps n ⟨data,Or.inr hv⟩
  refine ⟨[],(List.append_nil _).symm,trivial,?_⟩
  have hidle : ∀ k, ¬ (Vendor.idle : Vendor D).Keeps k := by
    rintro k ⟨d,hk | hk⟩ <;> cases hk
  refine { h with kept := fun k d hk => ?_, keeps := fun k hk => absurd hk (hidle k),
                  freed := fun _ _ hk => by cases hk }
  cases memory with
  | false => cases hk
  | true =>
    obtain ⟨rfl,-⟩ := Prod.mk.inj (Option.some.inj hk)
    refine ⟨hm,fun hdel => ?_,hidle _,fun _ => hl⟩
    exact absurd (hd.symm.trans hdel) (by decide)

theorem Booked.step (h : Booked s m) {a : Action D} (hs : step s a = some s') : Sound s s' m := by
  have hquiet : ∀ c, s.client = c → (∀ n, c ≠ .sent true (some n)) →
      ∀ n, s.client ≠ .sent true (some n) := fun c hc hne n he => hne n (hc.symm.trans he)
  cases does_of_step hs with
  | connect indication hc => exact h.client (hquiet _ hc (by simp)) (by simp) indication
  | connected hc => exact h.client (hquiet _ hc (by simp)) (fun n => by split <;> simp) _
  | looked hc => exact h.client (hquiet _ hc (by simp)) (fun n => by split <;> simp) _
  | resent hc hn => exact h.resent hc hn
  | nothing ret hc => exact h.client (hquiet _ hc (by simp)) (by simp) _
  | finished hc => exact h.finish _ fun n hn => (Client.sent.inj (hc.symm.trans hn)).1
  | dropped => exact ⟨[],(List.append_nil _).symm,trivial,{ h with }⟩
  | delivered data time => exact h.delivers time
  | missed data time => exact h.misses data time
  | freed hv => exact h.frees hv
  | kept hv memory => exact h.keep hv memory

/-- The last time that was missed has been sent since, or will be. -/
def NotLost (s : State D) (m : Book) : Prop :=
  ∀ k, m.lastMissed = some k →
    m.delivered k = true ∨ (∃ data, s.s_lastNITZTimeData = some (k,data)) ∨ s.vendor.Keeps k

/-- There is memory for the time that is kept, and when a registration frees the time it has sent,
no other time has taken its place. -/
def Calm (s : State D) : Action D → Prop
  | .keep memory => ∀ n data, s.vendor = .freed n data → memory = true
  | .finish => ∀ sent k data, s.client = .sent true sent → s.s_lastNITZTimeData = some (k,data) →
      sent = some k ∨ s.vendor ≠ .idle
  | _ => True

theorem NotLost.mono {m' : Book} (hl : NotLost s m) (hlast : m'.lastMissed = m.lastMissed)
    (hd : ∀ k, m.delivered k = true → m'.delivered k = true)
    (hkept : s'.s_lastNITZTimeData = s.s_lastNITZTimeData) (hv : s'.vendor = s.vendor) :
    NotLost s' m' := by
  intro k hk
  rw [hkept,hv]
  exact (hl k (hlast ▸ hk)).imp_left (hd k)

/-- Otherwise the last missed time is lost. -/
theorem Booked.calm (h : Booked s m) {a : Action D}
    (hkeeps : ∀ s', Nitz.step s a = some s' → ∀ es, s'.log = s.log ++ es →
      NotLost s' (watch Book.next m es)) : Calm s a := by
  cases a with
  | keep memory =>
    intro n data hv
    cases memory with
    | true => rfl
    | false =>
      obtain ⟨hlast,-,hd⟩ := h.keeps n ⟨data,Or.inr hv⟩
      have hstep : Nitz.step s (.keep false) =
          some {s with vendor := .idle, s_lastNITZTimeData := none} := by
        simp [Nitz.step,hv]
      rcases hkeeps _ hstep [] (List.append_nil _).symm n hlast with hd' | ⟨d,hk⟩ | ⟨d,hk | hk⟩
      · exact absurd (hd.symm.trans hd') (by decide)
      · cases hk
      · cases hk
      · cases hk
  | finish =>
    intro sent k data hsent hk
    by_contra hno
    obtain ⟨hne,hv⟩ := not_or.mp hno
    rw [not_not] at hv
    obtain ⟨-,hd,-,hlast⟩ := h.kept k data hk
    have hstep : Nitz.step s .finish =
        some {s with client := .idle, s_lastNITZTimeData := none} := by
      simp [Nitz.step,hsent]
    rcases hkeeps _ hstep [] (List.append_nil _).symm k (hlast hv) with hd' | ⟨d,hk'⟩ | ⟨d,hk' | hk'⟩
    · exact hne (Client.sent.inj (hsent.symm.trans (hd hd'))).2
    · cases hk'
    · exact absurd (hv.symm.trans hk') (by simp)
    · exact absurd (hv.symm.trans hk') (by simp)
  | _ => trivial

/-- A time is missed, a client registers, and a second time comes in between. -/
def sampleActions : List (Action String) :=
  [.onUnsolicitedResponse "20/01/01" 5,.freeLast,.keep true,.setResponseFunctions true,
    .onNewCommandConnect,.onUnsolicitedResponse "20/01/02" 9,.resendLastNITZTimeData,
    .nitzTimeReceivedInd,.finish,.dropClient]

end Nitz
end Ril
end Kitakami

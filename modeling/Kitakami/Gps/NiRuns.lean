import Kitakami.Gps.Ni

/-!
# What every run of the NI module keeps

The session record is shared by successive requests and by the threads that
answer for them. `ReqIdInv` ties a stored request to the id in its record; it
needs that no request is accepted while a thread of the session is between its
unlock and its tail. `OwnInv` ties every answer to its own request; it needs
that a request is accepted by a quiescent session only.
-/

namespace Kitakami
namespace Ni

open Runs

@[simp] theorem setSes_ses (s : NiState) (k : Slot) (p : NiSession) :
    (s.setSes k p).ses = Function.update s.ses k p := rfl
@[simp] theorem setSes_threads (s : NiState) (k : Slot) (p : NiSession) :
    (s.setSes k p).threads = s.threads := rfl
@[simp] theorem setThread_ses (s : NiState) (i : ℕ) (t : NiThread) :
    (s.setThread i t).ses = s.ses := rfl
@[simp] theorem setThread_threads (s : NiState) (i : ℕ) (t : NiThread) :
    (s.setThread i t).threads = s.threads.set i t := rfl

/-- The four thread actions, each with the thread it moves and the phase it needs. -/
theorem step_threadStart {s u : NiState} {i : ℕ} (h : step s (.threadStart i) = some u) :
    ∃ t, s.threads[i]? = some t ∧ t.phase = .starting ∧ u = threadStart s i t := by
  cases ht : s.threads[i]? with
  | none => simp [step,ht] at h
  | some t =>
    simp only [step,ht] at h
    split at h
    · exact ⟨t,rfl,‹_›,by simpa using h.symm⟩
    · cases h

theorem step_threadWake {s u : NiState} {i : ℕ} (h : step s (.threadWake i) = some u) :
    ∃ t d, s.threads[i]? = some t ∧ t.phase = .waiting d ∧ (s.ses t.slot).respRecvd = true ∧
      u = lockedSection s i t := by
  cases ht : s.threads[i]? with
  | none => simp [step,ht] at h
  | some t =>
    cases hp : t.phase with
    | waiting d =>
      simp only [step,ht,hp] at h
      split at h
      · exact ⟨t,d,rfl,hp,‹_›,by simpa using h.symm⟩
      · cases h
    | starting | unlocked msg | done => simp [step,ht,hp] at h

theorem step_threadTimeout {s u : NiState} {i : ℕ} (h : step s (.threadTimeout i) = some u) :
    ∃ t d, s.threads[i]? = some t ∧ t.phase = .waiting d ∧ u = threadTimeout s i t d := by
  cases ht : s.threads[i]? with
  | none => simp [step,ht] at h
  | some t =>
    cases hp : t.phase with
    | waiting d => exact ⟨t,d,rfl,hp,by simpa [step,ht,hp] using h.symm⟩
    | starting | unlocked msg | done => simp [step,ht,hp] at h

theorem step_threadTail {s u : NiState} {i : ℕ} (h : step s (.threadTail i) = some u) :
    ∃ t msg, s.threads[i]? = some t ∧ t.phase = .unlocked msg ∧ u = threadTail s i t msg := by
  cases ht : s.threads[i]? with
  | none => simp [step,ht] at h
  | some t =>
    cases hp : t.phase with
    | unlocked msg => exact ⟨t,msg,rfl,hp,by simpa [step,ht,hp] using h.symm⟩
    | starting | waiting d | done => simp [step,ht,hp] at h

/-- The handler either changes nothing or stores a fresh request in one session. -/
theorem request_cases (s : NiState) (notif : GpsNiNotification) (passThrough created : Bool) :
    locEngNiRequestHandler s notif passThrough created = s ∨
    ∃ k, s.niNotifyCb = true ∧ pSession s notif = some k ∧
      locEngNiRequestHandler s notif passThrough created =
        acceptRequest s k notif passThrough created := by
  cases hn : s.niNotifyCb with
  | false => exact .inl (by simp [locEngNiRequestHandler,hn])
  | true =>
    cases hp : pSession s notif with
    | none => exact .inl (by simp [locEngNiRequestHandler,hn,hp])
    | some k => exact .inr ⟨k,rfl,rfl,by simp [locEngNiRequestHandler,hn,hp]⟩

/-- The only new request of an accepting handler is the one it has issued. -/
theorem acceptRequest_raw {s : NiState} {k k' : Slot} {notif : GpsNiNotification}
    {passThrough created : Bool} {r : RawRequest}
    (h : ((acceptRequest s k notif passThrough created).ses k').rawRequest = some r) :
    (k' = k ∧ r = ⟨s.reqIDCounter + 1,respTime notif⟩) ∨
      (k' ≠ k ∧ (s.ses k').rawRequest = some r) := by
  by_cases hk : k' = k
  · subst hk
    cases passThrough with
    | false => simp [acceptRequest,NiSession.save] at h
    | true => exact .inl ⟨rfl,by simpa [acceptRequest,NiSession.save] using h.symm⟩
  · exact .inr ⟨hk,by simpa [acceptRequest,Function.update_of_ne hk] using h⟩

@[simp] theorem acceptRequest_ses_self (s : NiState) (k : Slot) (notif : GpsNiNotification)
    (passThrough created : Bool) :
    (acceptRequest s k notif passThrough created).ses k =
      (s.ses k).save ⟨s.reqIDCounter + 1,respTime notif⟩ passThrough := by
  simp [acceptRequest]

theorem acceptRequest_ses_other {s : NiState} {k k' : Slot} (hk : k' ≠ k)
    (notif : GpsNiNotification) (passThrough created : Bool) :
    (acceptRequest s k notif passThrough created).ses k' = s.ses k' := by
  simp [acceptRequest,Function.update_of_ne hk]

/-- A thread of the new state is an old one or the one just spawned. -/
theorem acceptRequest_threads {s : NiState} {k : Slot} {notif : GpsNiNotification}
    {passThrough created : Bool} {t : NiThread}
    (h : t ∈ (acceptRequest s k notif passThrough created).threads) :
    t ∈ s.threads ∨ t = ⟨k,⟨s.reqIDCounter + 1,respTime notif⟩,.starting⟩ := by
  cases created with
  | false => exact .inl (by simpa [acceptRequest] using h)
  | true => simpa [acceptRequest] using h

/-- The handler picks a session that holds no request. -/
theorem pSession_free {s : NiState} {notif : GpsNiNotification} {k : Slot}
    (h : pSession s notif = some k) : (s.ses k).rawRequest = none := by
  unfold pSession at h
  split_ifs at h with hes hraw hraw
  · obtain rfl : Slot.sessionEs = k := by simpa using h
    exact Option.not_isSome_iff_eq_none.mp hraw
  · obtain rfl : Slot.session = k := by simpa using h
    simp only [Bool.or_eq_true,not_or] at hraw
    exact Option.not_isSome_iff_eq_none.mp hraw.1

/-- The side effect of an accepted emergency request touches answers only. -/
theorem ignoreOrdinary_keeps (s : NiState) (k k' : Slot) (u : GpsUserResponseType) :
    ((ignoreOrdinary s k u).ses k').rawRequest = (s.ses k').rawRequest ∧
      ((ignoreOrdinary s k u).ses k').reqID = (s.ses k').reqID ∧
      ((ignoreOrdinary s k u).ses k').respTimeLeft = (s.ses k').respTimeLeft := by
  unfold ignoreOrdinary
  split
  · by_cases hk : k' = .session
    · subst hk; simp [NiSession.answer]
    · simp [Function.update_of_ne hk]
  · simp

@[simp] theorem record_ses (s : NiState) (notifId : ℤ) (u : GpsUserResponseType) :
    (s.record notifId u).ses = s.ses := rfl

/-- An answer changes no request, id or delay, of any session. -/
theorem respond_keeps (s : NiState) (notifId : ℤ) (u : GpsUserResponseType) (k : Slot) :
    ((locEngNiRespond s notifId u).ses k).rawRequest = (s.ses k).rawRequest ∧
      ((locEngNiRespond s notifId u).ses k).reqID = (s.ses k).reqID ∧
      ((locEngNiRespond s notifId u).ses k).respTimeLeft = (s.ses k).respTimeLeft := by
  unfold locEngNiRespond
  dsimp only
  split_ifs with hn
  · simp
  split
  · simp
  · rename_i k' hk'
    have hi := ignoreOrdinary_keeps (s.record notifId u) k' k u
    by_cases hk : k = k'
    · subst hk
      simpa [NiSession.answer] using hi
    · simpa [Function.update_of_ne hk] using hi

theorem ignoreOrdinary_eq (s : NiState) (k : Slot) (u : GpsUserResponseType) :
    ignoreOrdinary s k u = { s with ses := (ignoreOrdinary s k u).ses } := by
  unfold ignoreOrdinary
  split <;> rfl

/-- Outside the sessions an answer is only recorded. -/
theorem respond_eq (s : NiState) (notifId : ℤ) (u : GpsUserResponseType) :
    locEngNiRespond s notifId u =
      { s.record notifId u with ses := (locEngNiRespond s notifId u).ses } := by
  unfold locEngNiRespond
  dsimp only
  split_ifs
  · rfl
  split
  · rfl
  · rw [ignoreOrdinary_eq]
    rfl

/-- An answer to the id of a stored request reaches the session that holds it. -/
theorem respond_reaches {s : NiState} {k : Slot} {notifId : ℤ} (hn : s.niNotifyCb = true)
    (hk : respondSession s notifId = some k) (u : GpsUserResponseType) :
    ((locEngNiRespond s notifId u).ses k).resp = u ∧
      ((locEngNiRespond s notifId u).ses k).respRecvd = true := by
  simp [locEngNiRespond,hn,hk,NiSession.answer]

@[simp] theorem lockedSection_ses_self (s : NiState) (i : ℕ) (t : NiThread) :
    (lockedSection s i t).ses t.slot =
      { s.ses t.slot with respRecvd := false, rawRequest := none } := by
  simp [lockedSection]

theorem lockedSection_ses_other {s : NiState} {i : ℕ} {t : NiThread} {k : Slot}
    (hk : k ≠ t.slot) : (lockedSection s i t).ses k = s.ses k := by
  simp [lockedSection,Function.update_of_ne hk]

/-- A request still stored after a locked section sits in the other session. -/
theorem lockedSection_raw {s : NiState} {i : ℕ} {t : NiThread} {k : Slot} {r : RawRequest}
    (h : ((lockedSection s i t).ses k).rawRequest = some r) :
    k ≠ t.slot ∧ (s.ses k).rawRequest = some r := by
  by_cases hk : k = t.slot
  · subst hk; simp at h
  · exact ⟨hk,by rwa [lockedSection_ses_other hk] at h⟩

theorem lockedSection_threads {s : NiState} {i : ℕ} {t t' : NiThread}
    (h : t' ∈ (lockedSection s i t).threads) :
    t' ∈ s.threads ∨ t' = { t with phase := .unlocked (s.ses t.slot).message } :=
  List.mem_or_eq_of_mem_set h

/-! ## A stored request keeps its id -/

/-- What the claim asks of a state: a stored request carries the id that was
shown to the framework, and an answer to that id reaches its session. -/
def Answerable (s : NiState) : Prop :=
  ∀ k r, (s.ses k).rawRequest = some r →
    (s.ses k).reqID = r.notificationId ∧ r.notificationId ∈ s.notified ∧
    ∀ u, ((locEngNiRespond s r.notificationId u).ses k).resp = u ∧
      ((locEngNiRespond s r.notificationId u).ses k).respRecvd = true

/-- No request is accepted between the unlock and the tail of a thread of its session. -/
def NoTailPending (s : NiState) : NiAction → Prop
  | .request notif _ _ =>
    ∀ k ∈ pSession s notif, ∀ t ∈ s.threads, t.slot = k → t.phase.inTail = false
  | _ => True

instance (s : NiState) (a : NiAction) : Decidable (NoTailPending s a) := by
  cases a <;> unfold NoTailPending <;> infer_instance

structure ReqIdInv (s : NiState) : Prop where
  inited : ∀ k r, (s.ses k).rawRequest = some r → s.niNotifyCb = true
  reqID : ∀ k r, (s.ses k).rawRequest = some r → (s.ses k).reqID = r.notificationId
  shown : ∀ k r, (s.ses k).rawRequest = some r → r.notificationId ∈ s.notified
  issued : ∀ k r, (s.ses k).rawRequest = some r → r.notificationId ≤ s.reqIDCounter
  apart : ∀ k k' r r', (s.ses k).rawRequest = some r → (s.ses k').rawRequest = some r' →
    r.notificationId = r'.notificationId → k = k'
  tail : ∀ t ∈ s.threads, ∀ msg, t.phase = .unlocked msg → (s.ses t.slot).rawRequest = none

namespace ReqIdInv

theorem zero : ReqIdInv NiState.zero := by
  constructor <;> simp [NiState.zero]

/-- An action that keeps or clears requests keeps the invariant. -/
theorem of_clears {s u : NiState} (h : ReqIdInv s) (hn : s.niNotifyCb = true → u.niNotifyCb = true)
    (hshown : u.notified = s.notified) (hc : u.reqIDCounter = s.reqIDCounter)
    (hraw : ∀ k r, (u.ses k).rawRequest = some r →
      (s.ses k).rawRequest = some r ∧ (u.ses k).reqID = (s.ses k).reqID)
    (htail : ∀ t ∈ u.threads, ∀ msg, t.phase = .unlocked msg →
      (u.ses t.slot).rawRequest = none) : ReqIdInv u where
  inited k r hr := hn (h.inited k r (hraw k r hr).1)
  reqID k r hr := (hraw k r hr).2.trans (h.reqID k r (hraw k r hr).1)
  shown k r hr := hshown ▸ h.shown k r (hraw k r hr).1
  issued k r hr := hc ▸ h.issued k r (hraw k r hr).1
  apart k k' r r' hr hr' := h.apart k k' r r' (hraw k r hr).1 (hraw k' r' hr').1
  tail := htail

/-- Clearing requests never disturbs the threads that are past their unlock. -/
theorem tail_of_clears {s u : NiState} (h : ReqIdInv s) (ht : u.threads = s.threads)
    (hraw : ∀ k r, (u.ses k).rawRequest = some r → (s.ses k).rawRequest = some r) :
    ∀ t ∈ u.threads, ∀ msg, t.phase = .unlocked msg → (u.ses t.slot).rawRequest = none := by
  intro t hmem msg hp
  have hnone := h.tail t (ht ▸ hmem) msg hp
  cases hr : (u.ses t.slot).rawRequest with
  | none => rfl
  | some r => simp [hraw t.slot r hr] at hnone

theorem init {s : NiState} (h : ReqIdInv s) : ReqIdInv (locEngNiInit s) := by
  unfold locEngNiInit
  split
  · exact h
  · exact h.of_clears (by simp) rfl rfl (by simp) (by simp)

theorem request {s : NiState} (h : ReqIdInv s) (notif : GpsNiNotification)
    (passThrough created : Bool)
    (hg : NoTailPending s (.request notif passThrough created)) :
    ReqIdInv (locEngNiRequestHandler s notif passThrough created) := by
  rcases request_cases s notif passThrough created with he | ⟨k,hn,hk,he⟩
  · rwa [he]
  rw [he]
  constructor
  · intro k' r hr
    exact hn
  · intro k' r hr
    rcases acceptRequest_raw hr with ⟨rfl,rfl⟩ | ⟨hkk,ho⟩
    · simp [NiSession.save]
    · rw [acceptRequest_ses_other hkk]
      exact h.reqID k' r ho
  · intro k' r hr
    rcases acceptRequest_raw hr with ⟨rfl,rfl⟩ | ⟨hkk,ho⟩
    · simp [acceptRequest]
    · exact List.mem_append_left _ (h.shown k' r ho)
  · intro k' r hr
    rcases acceptRequest_raw hr with ⟨rfl,rfl⟩ | ⟨hkk,ho⟩
    · simp [acceptRequest]
    · have := h.issued k' r ho
      simp only [acceptRequest]
      omega
  · intro k' k'' r r' hr hr' hid
    rcases acceptRequest_raw hr with ⟨rfl,rfl⟩ | ⟨hkk,ho⟩
    · rcases acceptRequest_raw hr' with ⟨rfl,rfl⟩ | ⟨hkk',ho'⟩
      · rfl
      · have := h.issued k'' r' ho'
        simp only at hid
        omega
    · rcases acceptRequest_raw hr' with ⟨rfl,rfl⟩ | ⟨hkk',ho'⟩
      · have := h.issued k' r ho
        simp only at hid
        omega
      · exact h.apart k' k'' r r' ho ho' hid
  · intro t ht msg hp
    rcases acceptRequest_threads ht with hold | rfl
    · have hne : t.slot ≠ k := by
        intro hs
        have hf := hg k hk t hold hs
        simp [hp,Phase.inTail] at hf
      rw [acceptRequest_ses_other hne]
      exact h.tail t hold msg hp
    · cases hp

end ReqIdInv

namespace ReqIdInv

theorem respond {s : NiState} (h : ReqIdInv s) (notifId : ℤ) (u : GpsUserResponseType) :
    ReqIdInv (locEngNiRespond s notifId u) := by
  have hraw := respond_keeps s notifId u
  have he := respond_eq s notifId u
  have ht : (locEngNiRespond s notifId u).threads = s.threads := by rw [he]; rfl
  refine h.of_clears ?_ ?_ ?_ ?_ (h.tail_of_clears ht ?_)
  · rw [he]; exact fun hn => hn
  · rw [he]; rfl
  · rw [he]; rfl
  · intro k r hr
    exact ⟨(hraw k).1 ▸ hr,(hraw k).2.1⟩
  · intro k r hr
    exact (hraw k).1 ▸ hr

theorem restart {s : NiState} (h : ReqIdInv s) : ReqIdInv (locEngNiResetOnEngineRestart s) := by
  unfold locEngNiResetOnEngineRestart
  split
  · exact h
  have hraw : ∀ k r, ((s.ses k).reset).rawRequest = some r →
      (s.ses k).rawRequest = some r ∧ ((s.ses k).reset).reqID = (s.ses k).reqID := by
    intro k r hr
    unfold NiSession.reset at hr ⊢
    split_ifs at hr ⊢
    exact ⟨hr,rfl⟩
  exact h.of_clears (fun hn => hn) rfl rfl hraw (h.tail_of_clears rfl fun k r hr => (hraw k r hr).1)

/-- The locked section clears the request of its own session before the tail is due. -/
theorem locked {s : NiState} (h : ReqIdInv s) (i : ℕ) (t : NiThread) :
    ReqIdInv (lockedSection s i t) := by
  refine h.of_clears (fun hn => hn) rfl rfl ?_ ?_
  · intro k r hr
    obtain ⟨hk,ho⟩ := lockedSection_raw hr
    exact ⟨ho,by rw [lockedSection_ses_other hk]⟩
  · intro t' ht' msg hp
    by_cases hk : t'.slot = t.slot
    · rw [hk]; simp
    · rw [lockedSection_ses_other hk]
      rcases lockedSection_threads ht' with hold | rfl
      · exact h.tail t' hold msg hp
      · exact absurd rfl hk

theorem start {s : NiState} (h : ReqIdInv s) (i : ℕ) (t : NiThread) :
    ReqIdInv (threadStart s i t) := by
  unfold threadStart
  split
  · exact h.locked i t
  · refine h.of_clears (fun hn => hn) rfl rfl (fun k r hr => ⟨hr,rfl⟩) ?_
    intro t' ht' msg hp
    rcases List.mem_or_eq_of_mem_set ht' with hold | rfl
    · exact h.tail t' hold msg hp
    · cases hp

theorem timeout {s : NiState} (h : ReqIdInv s) (i : ℕ) (t : NiThread) (d : ℤ) :
    ReqIdInv (threadTimeout s i t d) := by
  refine ReqIdInv.locked ?_ i t
  have hraw : ∀ k, (Function.update s.ses t.slot
      { s.ses t.slot with resp := gpsNiResponseNoresp } k).rawRequest = (s.ses k).rawRequest ∧
      (Function.update s.ses t.slot
        { s.ses t.slot with resp := gpsNiResponseNoresp } k).reqID = (s.ses k).reqID := by
    intro k
    by_cases hk : k = t.slot
    · subst hk; simp
    · simp [Function.update_of_ne hk]
  refine h.of_clears (fun hn => hn) rfl rfl ?_ (h.tail_of_clears rfl ?_)
  · intro k r hr
    exact ⟨(hraw k).1 ▸ hr,(hraw k).2⟩
  · intro k r hr
    exact (hraw k).1 ▸ hr

/-- The tail resets the id of its session, which holds no request by then. -/
theorem tail_step {s : NiState} (h : ReqIdInv s) {i : ℕ} {t : NiThread}
    {msg : Option LocEngInformNiResponse} (ht : s.threads[i]? = some t)
    (hp : t.phase = .unlocked msg) : ReqIdInv (threadTail s i t msg) := by
  have hfree := h.tail t (List.mem_of_getElem? ht) msg hp
  have hraw : ∀ k r, ((threadTail s i t msg).ses k).rawRequest = some r →
      k ≠ t.slot ∧ (s.ses k).rawRequest = some r := by
    intro k r hr
    by_cases hk : k = t.slot
    · subst hk
      simp [threadTail,hfree] at hr
    · exact ⟨hk,by simpa [threadTail,Function.update_of_ne hk] using hr⟩
  refine h.of_clears (fun hn => hn) rfl rfl ?_ ?_
  · intro k r hr
    obtain ⟨hk,ho⟩ := hraw k r hr
    exact ⟨ho,by simp [threadTail,Function.update_of_ne hk]⟩
  · intro t' ht' msg' hp'
    rcases List.mem_or_eq_of_mem_set ht' with hold | rfl
    · have hnone := h.tail t' hold msg' hp'
      cases hr : ((threadTail s i t msg).ses t'.slot).rawRequest with
      | none => rfl
      | some r => simp [(hraw t'.slot r hr).2] at hnone
    · cases hp'

theorem step {s u : NiState} {a : NiAction} (h : ReqIdInv s) (hg : NoTailPending s a)
    (hs : Ni.step s a = some u) : ReqIdInv u := by
  cases a with
  | init => obtain rfl : _ = u := by simpa [Ni.step] using hs
            exact h.init
  | request notif passThrough created =>
    obtain rfl : _ = u := by simpa [Ni.step] using hs
    exact h.request notif passThrough created hg
  | respond notifId r =>
    obtain rfl : _ = u := by simpa [Ni.step] using hs
    exact h.respond notifId r
  | restart =>
    obtain rfl : _ = u := by simpa [Ni.step] using hs
    exact h.restart
  | threadStart i =>
    obtain ⟨t,ht,hp,rfl⟩ := step_threadStart hs
    exact h.start i t
  | threadWake i =>
    obtain ⟨t,d,ht,hp,hr,rfl⟩ := step_threadWake hs
    exact h.locked i t
  | threadTimeout i =>
    obtain ⟨t,d,ht,hp,rfl⟩ := step_threadTimeout hs
    exact h.timeout i t d
  | threadTail i =>
    obtain ⟨t,msg,ht,hp,rfl⟩ := step_threadTail hs
    exact h.tail_step ht hp

/-- The id of a stored request selects the session that stores it. -/
theorem respondSession {s : NiState} (h : ReqIdInv s) {k : Slot} {r : RawRequest}
    (hr : (s.ses k).rawRequest = some r) :
    Ni.respondSession s r.notificationId = some k := by
  have hid := h.reqID k r hr
  unfold Ni.respondSession
  cases k with
  | sessionEs => simp [hid,hr]
  | session =>
    rw [if_neg]
    · simp [hid,hr]
    · rintro ⟨he,hes⟩
      obtain ⟨r',hr'⟩ := Option.isSome_iff_exists.mp hes
      have hk := h.apart .session .sessionEs r r' hr hr' (he.trans (h.reqID _ r' hr'))
      cases hk

theorem answerable {s : NiState} (h : ReqIdInv s) : Answerable s := by
  intro k r hr
  exact ⟨h.reqID k r hr,h.shown k r hr,respond_reaches (h.inited k r hr) (h.respondSession hr)⟩

end ReqIdInv

/-- **A stored request stays answerable** in every run that accepts no request
between the unlock and the tail of a thread of the same session. -/
theorem answerable_of_noTailPending (as : List NiAction) {s : NiState}
    (hg : Along step NoTailPending NiState.zero as) (hr : run step NiState.zero as = some s) :
    Answerable s :=
  (run_invariant (fun _ _ _ hs hg hstep => ReqIdInv.step hs hg hstep) ReqIdInv.zero hg hr).answerable

/-- The guard is exact: a request accepted while a tail is pending is left
without its id as soon as that tail runs. -/
theorem not_answerable_of_tailPending {s : NiState} {notif : GpsNiNotification} {created : Bool}
    {i : ℕ} {t : NiThread} {msg : Option LocEngInformNiResponse} (hn : s.niNotifyCb = true)
    (hk : pSession s notif = some t.slot) (ht : s.threads[i]? = some t)
    (hp : t.phase = .unlocked msg) (hc : 0 ≤ s.reqIDCounter) :
    ∃ u, run step s [.request notif true created,.threadTail i] = some u ∧ ¬ Answerable u := by
  have he : locEngNiRequestHandler s notif true created =
      acceptRequest s t.slot notif true created := by
    simp [locEngNiRequestHandler,hn,hk]
  have hi : (acceptRequest s t.slot notif true created).threads[i]? = some t := by
    cases created with
    | false => simpa [acceptRequest] using ht
    | true =>
      obtain ⟨hlt,-⟩ := List.getElem?_eq_some_iff.mp ht
      simpa [acceptRequest,List.getElem?_append_left hlt] using ht
  refine ⟨threadTail (acceptRequest s t.slot notif true created) i t msg,?_,?_⟩
  · simp [run_cons,step,he,hi,hp]
  · intro h
    have hid := (h t.slot ⟨s.reqIDCounter + 1,respTime notif⟩
      (by simp [threadTail,NiSession.save])).1
    simp [threadTail] at hid
    omega

/-- An ordinary request with a non-NULL pointer and a thread of its own. -/
def plainRequest : NiAction := .request ⟨1,1,20⟩ true true

/-- A request answered with ACCEPT, up to the unlock of its thread. -/
def answeredRun : List NiAction :=
  [.init,plainRequest,.threadStart 0,.respond 1 gpsNiResponseAccept,.threadWake 0]

theorem answerable_answeredRun :
    ∃ s, run step NiState.zero (answeredRun ++ [.threadTail 0,plainRequest]) = some s ∧
      Answerable s :=
  ⟨_,rfl,answerable_of_noTailPending (answeredRun ++ [.threadTail 0,plainRequest])
    (by decide) rfl⟩

/-- A request stored before the tail of the previous thread loses its id to it. -/
theorem not_answerable_after_tail :
    ¬ ∀ as s, run step NiState.zero as = some s → Answerable s := by
  intro h
  have hs := h (answeredRun ++ [plainRequest,.threadTail 0]) _ rfl .session ⟨2,25⟩ rfl
  exact absurd hs.1 (by decide)

end Ni
end Kitakami

import Kitakami.Gps.NiRuns

/-!
# Whose answer a raw request gets

`OwnInv` says that a thread still at work on a stored request is the thread
that request spawned, with the delay it was given, and that an answer waiting
in the record was given for the stored request. It is kept as long as a request
is accepted by a quiescent session only: every thread of an earlier request has
finished, and no wake-up of it is left unconsumed.
-/

namespace Kitakami
namespace Ni

open Runs

/-- The message carries the framework's answer to its own id, or the default
after the delay of its own request. -/
def AnswersOwn (s : NiState) (m : LocEngInformNiResponse) : Prop :=
  (m.mPayload.notificationId,m.mResponse) ∈ s.responses ∨
    (m.mResponse = gpsNiResponseNoresp ∧ m.mPayload ∈ s.timeouts)

/-- A request is accepted only by a session with no live thread and no wake-up left. -/
def Quiescent (s : NiState) : NiAction → Prop
  | .request notif _ _ =>
    ∀ k ∈ pSession s notif, (s.ses k).respRecvd = false ∧
      ∀ t ∈ s.threads, t.slot = k → t.phase = .done
  | _ => True

instance (s : NiState) : ∀ a, Decidable (Quiescent s a)
  | .request notif _ _ => inferInstanceAs (Decidable (∀ k ∈ pSession s notif,
      (s.ses k).respRecvd = false ∧ ∀ t ∈ s.threads, t.slot = k → t.phase = .done))
  | .init | .respond _ _ | .restart | .threadStart _ | .threadWake _ | .threadTimeout _
  | .threadTail _ => isTrue trivial

theorem Quiescent.noTailPending {s : NiState} {a : NiAction} (h : Quiescent s a) :
    NoTailPending s a := by
  cases a with
  | request notif passThrough created =>
    intro k hk t ht hs
    rw [(h k hk).2 t ht hs]
    rfl
  | _ => trivial

/-- A thread that has not finished works for the request its session stores. -/
structure WorksFor (p : NiSession) (t : NiThread) (r : RawRequest) : Prop where
  own : t.own = r
  starting : t.phase = .starting → p.respTimeLeft = r.delay
  waiting : ∀ d, t.phase = .waiting d → d = r.delay

structure OwnInv (s : NiState) : Prop where
  thread : ∀ t ∈ s.threads, t.phase ≠ .done → ∀ r, (s.ses t.slot).rawRequest = some r →
    WorksFor (s.ses t.slot) t r
  answer : ∀ k r, (s.ses k).rawRequest = some r → (s.ses k).respRecvd = true →
    (s.ses k).resp = gpsNiResponseIgnore ∨ (r.notificationId,(s.ses k).resp) ∈ s.responses
  pending : ∀ t ∈ s.threads, ∀ m, t.phase = .unlocked (some m) → AnswersOwn s m
  sent : ∀ m ∈ s.sent, AnswersOwn s m

/-- An answer stays an answer while the records of the boundary grow. -/
theorem AnswersOwn.mono {s u : NiState} {m : LocEngInformNiResponse} (h : AnswersOwn s m)
    (hr : s.responses ⊆ u.responses) (ht : s.timeouts ⊆ u.timeouts) : AnswersOwn u m :=
  h.imp (fun hm => hr hm) (fun hm => ⟨hm.1,ht hm.2⟩)

theorem message_eq_some {p : NiSession} {m : LocEngInformNiResponse} (h : p.message = some m) :
    ∃ r, p.rawRequest = some r ∧ p.resp ≠ gpsNiResponseIgnore ∧ m = ⟨p.resp,r⟩ := by
  unfold NiSession.message at h
  split at h
  · rename_i r hr
    split at h
    · exact ⟨r,hr,‹_›,by simpa using h.symm⟩
    · cases h
  · cases h

/-- The session found for an id carries that id. -/
theorem respondSession_reqID {s : NiState} {notifId : ℤ} {k : Slot}
    (h : respondSession s notifId = some k) : (s.ses k).reqID = notifId := by
  unfold respondSession at h
  split_ifs at h with hes hord
  · obtain rfl : Slot.sessionEs = k := by simpa using h
    exact hes.1.symm
  · obtain rfl : Slot.session = k := by simpa using h
    exact hord.1.symm

theorem ignoreOrdinary_ses (s : NiState) (k k' : Slot) (u : GpsUserResponseType) :
    (ignoreOrdinary s k u).ses k' = s.ses k' ∨
      ((ignoreOrdinary s k u).ses k').resp = gpsNiResponseIgnore := by
  unfold ignoreOrdinary
  split
  · by_cases hk : k' = .session
    · subst hk; simp [NiSession.answer]
    · simp [Function.update_of_ne hk]
  · exact .inl rfl

/-- What an answer leaves in each session. -/
theorem respond_ses (s : NiState) (notifId : ℤ) (u : GpsUserResponseType) (k : Slot) :
    (locEngNiRespond s notifId u).ses k = s.ses k ∨
      ((locEngNiRespond s notifId u).ses k).resp = gpsNiResponseIgnore ∨
      (respondSession s notifId = some k ∧ ((locEngNiRespond s notifId u).ses k).resp = u) := by
  unfold locEngNiRespond
  dsimp only
  split_ifs with hn
  · exact .inl rfl
  split
  · exact .inl rfl
  · rename_i k' hk'
    by_cases hk : k = k'
    · subst hk
      exact .inr (.inr ⟨hk',by simp [NiSession.answer]⟩)
    · rw [setSes_ses,Function.update_of_ne hk]
      exact (ignoreOrdinary_ses _ k' k u).imp_right .inl

namespace OwnInv

theorem zero : OwnInv NiState.zero := by
  constructor <;> simp [NiState.zero]

/-- The locked section of one thread, run on a state `v` that differs from `s`
in the answer of that thread's session and in longer records only. -/
theorem locked_of {s v : NiState} {i : ℕ} {t : NiThread} (h : OwnInv s)
    (hthreads : v.threads = s.threads) (hsent : v.sent = s.sent)
    (hother : ∀ k, k ≠ t.slot → v.ses k = s.ses k)
    (hresponses : s.responses ⊆ v.responses) (htimeouts : s.timeouts ⊆ v.timeouts)
    (hmsg : ∀ m, (v.ses t.slot).message = some m → AnswersOwn v m) :
    OwnInv (lockedSection v i t) := by
  constructor
  · intro t' ht' hp r hr
    obtain ⟨hk,ho⟩ := lockedSection_raw hr
    rw [lockedSection_ses_other hk]
    rw [hother _ hk] at ho ⊢
    rcases lockedSection_threads ht' with hold | rfl
    · exact h.thread t' (hthreads ▸ hold) hp r ho
    · exact absurd rfl hk
  · intro k r hr hrecv
    obtain ⟨hk,ho⟩ := lockedSection_raw hr
    rw [lockedSection_ses_other hk,hother k hk] at hrecv ⊢
    rw [hother k hk] at ho
    exact (h.answer k r ho hrecv).imp_right fun hm => hresponses hm
  · intro t' ht' m hp
    rcases lockedSection_threads ht' with hold | rfl
    · exact (h.pending t' (hthreads ▸ hold) m hp).mono hresponses htimeouts
    · exact hmsg m (by simpa using hp)
  · intro m hm
    have ho : m ∈ s.sent := hsent ▸ hm
    exact (h.sent m ho).mono hresponses htimeouts

/-- An awaited answer is delivered to the request it was given for. -/
theorem locked {s : NiState} (h : OwnInv s) (i : ℕ) (t : NiThread)
    (hrecv : (s.ses t.slot).respRecvd = true) : OwnInv (lockedSection s i t) := by
  refine h.locked_of rfl rfl (fun _ _ => rfl) (List.Subset.refl _) (List.Subset.refl _) ?_
  intro m hm
  obtain ⟨r,hr,hne,rfl⟩ := message_eq_some hm
  exact .inl ((h.answer _ r hr hrecv).resolve_left hne)

/-- A thread that times out waited for its own request, with its own delay. -/
theorem timeout {s : NiState} (h : OwnInv s) {i : ℕ} {t : NiThread} {d : ℤ}
    (ht : s.threads[i]? = some t) (hp : t.phase = .waiting d) : OwnInv (threadTimeout s i t d) := by
  refine h.locked_of rfl rfl (fun k hk => by simp [Function.update_of_ne hk])
    (List.Subset.refl _) (List.subset_append_left _ _) ?_
  intro m hm
  obtain ⟨r,hr,hne,rfl⟩ := message_eq_some hm
  have hold : (s.ses t.slot).rawRequest = some r := by simpa using hr
  have hw := h.thread t (List.mem_of_getElem? ht) (by simp [hp]) r hold
  refine .inr ⟨by simp,?_⟩
  simp [hw.own,hw.waiting d hp]

theorem init {s : NiState} (h : OwnInv s) : OwnInv (locEngNiInit s) := by
  unfold locEngNiInit
  split
  · exact h
  · exact ⟨by simp,by simp,h.pending,h.sent⟩

theorem request {s : NiState} (h : OwnInv s) (notif : GpsNiNotification)
    (passThrough created : Bool) (hg : Quiescent s (.request notif passThrough created)) :
    OwnInv (locEngNiRequestHandler s notif passThrough created) := by
  rcases request_cases s notif passThrough created with he | ⟨k,hn,hk,he⟩
  · rwa [he]
  rw [he]
  obtain ⟨hquiet,hdone⟩ := hg k hk
  constructor
  · intro t ht hp r hr
    rcases acceptRequest_threads ht with hold | rfl
    · have hne : t.slot ≠ k := fun hs => hp (hdone t hold hs)
      rw [acceptRequest_ses_other hne] at hr ⊢
      exact h.thread t hold hp r hr
    · rcases acceptRequest_raw hr with ⟨-,rfl⟩ | ⟨hkk,-⟩
      · constructor <;> simp [NiSession.save]
      · exact absurd rfl hkk
  · intro k' r hr hrecv
    rcases acceptRequest_raw hr with ⟨rfl,rfl⟩ | ⟨hkk,ho⟩
    · simp [NiSession.save,hquiet] at hrecv
    · rw [acceptRequest_ses_other hkk] at hrecv ⊢
      exact h.answer k' r ho hrecv
  · intro t ht m hp
    rcases acceptRequest_threads ht with hold | rfl
    · exact h.pending t hold m hp
    · cases hp
  · exact h.sent

theorem respond {s : NiState} (h : OwnInv s) (hid : ReqIdInv s) (notifId : ℤ)
    (u : GpsUserResponseType) : OwnInv (locEngNiRespond s notifId u) := by
  have hkeep := respond_keeps s notifId u
  have he := respond_eq s notifId u
  have hthreads : (locEngNiRespond s notifId u).threads = s.threads := by rw [he]; rfl
  have hresponses : (locEngNiRespond s notifId u).responses =
      if notifId ∈ s.notified then s.responses ++ [(notifId,u)] else s.responses := by
    rw [he]; rfl
  have hgrow : s.responses ⊆ (locEngNiRespond s notifId u).responses := by
    rw [hresponses]
    split
    · exact List.subset_append_left _ _
    · exact List.Subset.refl _
  have htimeouts : s.timeouts ⊆ (locEngNiRespond s notifId u).timeouts := by
    rw [he]; exact List.Subset.refl _
  constructor
  · intro t ht hp r hr
    have hw := h.thread t (hthreads ▸ ht) hp r ((hkeep t.slot).1 ▸ hr)
    exact ⟨hw.own,fun hst => (hkeep t.slot).2.2.trans (hw.starting hst),hw.waiting⟩
  · intro k r hr hrecv
    have hold : (s.ses k).rawRequest = some r := (hkeep k).1 ▸ hr
    rcases respond_ses s notifId u k with hsame | hign | ⟨hk,hu⟩
    · rw [hsame] at hrecv ⊢
      exact (h.answer k r hold hrecv).imp_right fun hm => hgrow hm
    · exact .inl hign
    · have hnotif : r.notificationId = notifId :=
        (hid.reqID k r hold).symm.trans (respondSession_reqID hk)
      have hshown : notifId ∈ s.notified := hnotif ▸ hid.shown k r hold
      exact .inr (by simp [hu,hresponses,hnotif,hshown])
  · intro t ht m hp
    exact (h.pending t (hthreads ▸ ht) m hp).mono hgrow htimeouts
  · intro m hm
    have ho : m ∈ s.sent := by rw [he] at hm; exact hm
    exact (h.sent m ho).mono hgrow htimeouts

theorem restart {s : NiState} (h : OwnInv s) : OwnInv (locEngNiResetOnEngineRestart s) := by
  unfold locEngNiResetOnEngineRestart
  split
  · exact h
  have hreset : ∀ k r, ((s.ses k).reset).rawRequest = some r → (s.ses k).reset = s.ses k := by
    intro k r hr
    unfold NiSession.reset at hr ⊢
    split_ifs at hr ⊢
    rfl
  constructor
  · intro t ht hp r hr
    have he := hreset t.slot r hr
    simp only [he] at hr ⊢
    exact h.thread t ht hp r hr
  · intro k r hr hrecv
    have he := hreset k r hr
    simp only [he] at hr hrecv ⊢
    exact h.answer k r hr hrecv
  · exact h.pending
  · exact h.sent

/-- A thread that starts waiting has read the delay of the request it works for. -/
theorem start {s : NiState} (h : OwnInv s) {i : ℕ} {t : NiThread}
    (ht : s.threads[i]? = some t) (hp : t.phase = .starting) : OwnInv (threadStart s i t) := by
  unfold threadStart
  split
  · rename_i hrecv
    exact h.locked i t hrecv
  · constructor
    · intro t' ht' hp' r hr
      rcases List.mem_or_eq_of_mem_set ht' with hold | rfl
      · exact h.thread t' hold hp' r hr
      · have hw := h.thread t (List.mem_of_getElem? ht) (by simp [hp]) r hr
        exact ⟨hw.own,by simp,fun d hd => by
          obtain rfl : _ = d := by simpa using hd
          exact hw.starting hp⟩
    · exact h.answer
    · intro t' ht' m hp'
      rcases List.mem_or_eq_of_mem_set ht' with hold | rfl
      · exact h.pending t' hold m hp'
      · cases hp'
    · exact h.sent

/-- The tail hands over the message built under the lock. -/
theorem tail_step {s : NiState} (h : OwnInv s) (hid : ReqIdInv s) {i : ℕ} {t : NiThread}
    {msg : Option LocEngInformNiResponse} (ht : s.threads[i]? = some t)
    (hp : t.phase = .unlocked msg) : OwnInv (threadTail s i t msg) := by
  have hmem := List.mem_of_getElem? ht
  have hfree := hid.tail t hmem msg hp
  have hses : ∀ k r, ((threadTail s i t msg).ses k).rawRequest = some r →
      (threadTail s i t msg).ses k = s.ses k := by
    intro k r hr
    by_cases hk : k = t.slot
    · subst hk
      simp [threadTail,hfree] at hr
    · simp [threadTail,Function.update_of_ne hk]
  constructor
  · intro t' ht' hp' r hr
    have he := hses t'.slot r hr
    rw [he] at hr ⊢
    rcases List.mem_or_eq_of_mem_set ht' with hold | rfl
    · exact h.thread t' hold hp' r hr
    · exact absurd rfl hp'
  · intro k r hr hrecv
    have he := hses k r hr
    rw [he] at hr hrecv ⊢
    exact h.answer k r hr hrecv
  · intro t' ht' m hp'
    rcases List.mem_or_eq_of_mem_set ht' with hold | rfl
    · exact h.pending t' hold m hp'
    · cases hp'
  · intro m hm
    rcases List.mem_append.mp hm with hold | hnew
    · exact h.sent m hold
    · refine h.pending t hmem m ?_
      rw [hp,Option.mem_toList.mp hnew]

theorem step {s u : NiState} {a : NiAction} (h : OwnInv s) (hid : ReqIdInv s)
    (hg : Quiescent s a) (hs : Ni.step s a = some u) : OwnInv u := by
  cases a with
  | init =>
    obtain rfl : _ = u := by simpa [Ni.step] using hs
    exact h.init
  | request notif passThrough created =>
    obtain rfl : _ = u := by simpa [Ni.step] using hs
    exact h.request notif passThrough created hg
  | respond notifId r =>
    obtain rfl : _ = u := by simpa [Ni.step] using hs
    exact h.respond hid notifId r
  | restart =>
    obtain rfl : _ = u := by simpa [Ni.step] using hs
    exact h.restart
  | threadStart i =>
    obtain ⟨t,ht,hp,rfl⟩ := step_threadStart hs
    exact h.start ht hp
  | threadWake i =>
    obtain ⟨t,d,ht,hp,hr,rfl⟩ := step_threadWake hs
    exact h.locked i t hr
  | threadTimeout i =>
    obtain ⟨t,d,ht,hp,rfl⟩ := step_threadTimeout hs
    exact h.timeout ht hp
  | threadTail i =>
    obtain ⟨t,msg,ht,hp,rfl⟩ := step_threadTail hs
    exact h.tail_step hid ht hp

end OwnInv

/-- **No request gets somebody else's answer** in a run that accepts requests
in quiescent sessions only: every message sent carries the framework's answer
to its own id, or the default after its own delay. -/
theorem answersOwn_of_quiescent (as : List NiAction) {s : NiState}
    (hg : Along step Quiescent NiState.zero as) (hr : run step NiState.zero as = some s) :
    ∀ m ∈ s.sent, AnswersOwn s m := by
  have hstep : ∀ s a u, ReqIdInv s ∧ OwnInv s → Quiescent s a → step s a = some u →
      ReqIdInv u ∧ OwnInv u := fun s a u hi hq hs =>
    ⟨hi.1.step hq.noTailPending hs,hi.2.step hi.1 hq hs⟩
  exact (run_invariant hstep ⟨ReqIdInv.zero,OwnInv.zero⟩ hg hr).2.sent

/-- Two requests in turn, one answered and one timed out. -/
def quietRun : List NiAction :=
  answeredRun ++ [.threadTail 0,plainRequest,.threadStart 1,.threadTimeout 1,.threadTail 1]

theorem answersOwn_quietRun :
    ∃ s, run step NiState.zero quietRun = some s ∧ s.sent.length = 2 ∧
      ∀ m ∈ s.sent, AnswersOwn s m :=
  ⟨_,rfl,rfl,answersOwn_of_quiescent quietRun (by decide) rfl⟩

/-- A restart wakes the thread of the second request, and the third request
takes its place before it runs: the third is answered with the first's ACCEPT. -/
def staleRun : List NiAction :=
  answeredRun ++ [.threadTail 0,plainRequest,.threadStart 1,.restart,plainRequest,
    .threadWake 1,.threadTail 1]

theorem not_answersOwn_after_restart :
    ¬ ∀ as s, run step NiState.zero as = some s → ∀ m ∈ s.sent, AnswersOwn s m := by
  intro h
  have hs := h staleRun _ rfl ⟨gpsNiResponseAccept,⟨3,25⟩⟩ (by decide)
  exact absurd hs (by unfold AnswersOwn; decide)

end Ni
end Kitakami

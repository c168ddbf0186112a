import Kitakami.Agps.Machine

/-!
# Notifications

What `notifySubscribers` does: every subscriber that a notification is for is
told of the status once, in the order of the list, and with `postNotifyDelete`
these leave the list. A receiver that is the list's own entry is deleted on the
way; who is still on the list is then compared with what its memory is read as.
Beside the list, a notification touches `mRetries` and the history only, and it
neither takes in an event nor sends a request.
-/

namespace Kitakami
namespace Agps

/-- The part of the history that the connectivity service sees: the events it
has raised and the requests it has received. -/
inductive Traffic
  | event (e : RsrcStatus)
  | sent (action : Action)
  deriving DecidableEq

def Entry.traffic : Entry → Option Traffic
  | .event e => some (.event e)
  | .call (.callbackAGps nifRequest) => some (.sent nifRequest.status)
  | .call (.callbackExt action _) => some (.sent action)
  | _ => none

/-- The receiver is not an entry of `l`. -/
def Notification.outside (n : Notification) (l : List Subscriber) : Prop :=
  ∀ e ∈ l, n.receiver ≠ .entry e

namespace AgpsStateMachine

variable {m : AgpsStateMachine} {s : Subscriber} {status : RsrcStatus} {n : Notification}

def traffic (m : AgpsStateMachine) : List Traffic := m.log.filterMap Entry.traffic

/-- Only the history and the retry counter differ. -/
def Same (m m' : AgpsStateMachine) : Prop := m' = { m with mRetries := m'.mRetries, log := m'.log }

namespace Same

variable {m' : AgpsStateMachine} (h : Same m m')

include h

theorem mState : m'.mState = m.mState := by rw [h]

theorem mSubscribers : m'.mSubscribers = m.mSubscribers := by rw [h]

theorem kind : m'.kind = m.kind := by rw [h]

theorem hasActiveSubscribers : m'.hasActiveSubscribers = m.hasActiveSubscribers := by
  rw [AgpsStateMachine.hasActiveSubscribers,search,h.mSubscribers]
  rfl

theorem trans {m'' : AgpsStateMachine} (h' : Same m' m'') : Same m m'' := by
  rw [Same,h',h]

end Same

/-- Nor does the traffic. -/
structure Quiet (m m' : AgpsStateMachine) : Prop where
  same : Same m m'
  log : ∃ l, m'.log = m.log ++ l ∧ ∀ e ∈ l, e.traffic = none

theorem Quiet.refl (m : AgpsStateMachine) : Quiet m m := ⟨rfl,[],by simp,by simp⟩

theorem Quiet.trans {m₁ m₂ m₃ : AgpsStateMachine} (h₁ : Quiet m₁ m₂) (h₂ : Quiet m₂ m₃) :
    Quiet m₁ m₃ := by
  obtain ⟨l₁,g₁,q₁⟩ := h₁.log
  obtain ⟨l₂,g₂,q₂⟩ := h₂.log
  refine ⟨h₁.same.trans h₂.same,l₁ ++ l₂,by rw [g₂,g₁,List.append_assoc],?_⟩
  intro e he
  exact (List.mem_append.mp he).elim (q₁ e) (q₂ e)

theorem Quiet.traffic_eq {m' : AgpsStateMachine} (h : Quiet m m') : m'.traffic = m.traffic := by
  obtain ⟨-,l,hl,hq⟩ := h
  have h0 : l.filterMap Entry.traffic = [] := List.filterMap_eq_nil_iff.mpr hq
  rw [traffic,hl,List.filterMap_append,h0,List.append_nil,traffic]

theorem quiet_informStatus (m : AgpsStateMachine) (status : RsrcStatus) (id : UInt32) :
    Quiet m (m.informStatus status id) := by
  cases status with
  | subscribe => exact Quiet.refl m
  | max => exact Quiet.refl m
  | unsubscribe => exact ⟨rfl,_,rfl,by simp [Entry.traffic]⟩
  | granted => exact ⟨rfl,_,rfl,by simp [Entry.traffic]⟩
  | released => exact ⟨rfl,_,rfl,by simp [Entry.traffic]⟩
  | denied => exact ⟨rfl,_,rfl,by simp [Entry.traffic]⟩

/-! ## One subscriber -/

/-- The answers that the client of a subscriber gets to a status. -/
def tells (m : AgpsStateMachine) (status : RsrcStatus) : Subscriber → List Call
  | .atl id _ mode =>
    let type := if mode then agpsTypeInvalid else m.mType
    match status with
    | .granted => [.atlOpenStatus id true m.mAPN m.mBearer type]
    | .denied => [.atlOpenStatus id false m.mAPN m.mBearer type]
    | .released | .unsubscribe => [.atlCloseStatus id]
    | .subscribe | .max => []
  | .bit _ _ =>
    match status with
    | .granted => [.dataConn .gpsoneDaemon requestSuccess]
    | .denied => [.dataConn .gpsoneDaemon ifFailure]
    | .released | .unsubscribe => [.dataConn .gpsoneDaemon releaseSuccess]
    | .subscribe | .max => []
  | .wifi _ _ senderId _ =>
    match status with
    | .granted => [.dataConn senderId requestSuccess]
    | .denied => [.dataConn senderId ifFailure]
    | .released => [.dataConn senderId releaseSuccess]
    | .unsubscribe | .subscribe | .max => []
  | .ds id _ =>
    match status with
    | .granted => [.atlOpenStatus id true none agpsApnBearerInvalid agpsTypeInvalid]
    -- the client is handed over to a normal ATL
    | .denied => [.requestATL id agpsTypeSupl]
    | .released => [.closeDataCall]
    | .unsubscribe => [.atlCloseStatus id]
    | .subscribe | .max => []

/-- The machine after `s` has handled the status. -/
def answered (m : AgpsStateMachine) (s : Subscriber) (status : RsrcStatus) : AgpsStateMachine :=
  (m.answer s status).getD m

theorem answer_isSome (m : AgpsStateMachine) (s : Subscriber) (status : RsrcStatus) :
    (m.answer s status).isSome = status.known := by
  cases s <;> cases status <;> rfl

/-- A subscriber tells its client the status, and a DS client that is denied sets the counter
back. -/
theorem answered_eq (m : AgpsStateMachine) (s : Subscriber) (status : RsrcStatus) :
    m.answered s status =
      {m with
        mRetries := if s.kind = .ds ∧ status = .denied then 0 else m.mRetries,
        log := m.log ++ (m.tells status s).map .call} := by
  cases s <;> cases status <;> simp [answered,answer,tells,informStatus,emit,Subscriber.kind]

theorem traffic_tells {c : Call} (h : c ∈ m.tells status s) : (Entry.call c).traffic = none := by
  cases s <;> cases status <;> simp [tells] at h <;> subst h <;> rfl

theorem quiet_answered (m : AgpsStateMachine) (s : Subscriber) (status : RsrcStatus) :
    Quiet m (m.answered s status) := by
  rw [answered_eq]
  refine ⟨rfl,_,rfl,fun e he => ?_⟩
  obtain ⟨c,hc,rfl⟩ := List.mem_map.mp he
  exact traffic_tells hc

theorem notifyRsrcStatus_eq (h : n.rsrcStatus.known) :
    m.notifyRsrcStatus s n =
      if s.forMe n.receiver then (true,m.answered s n.rsrcStatus) else (false,m) := by
  unfold notifyRsrcStatus answered
  have hs := answer_isSome m s n.rsrcStatus
  cases ha : m.answer s n.rsrcStatus with
  | none => simp [ha,h] at hs
  | some m' => simp

theorem quiet_notifyRsrcStatus (m : AgpsStateMachine) (s : Subscriber) (n : Notification) :
    Quiet m (m.notifyRsrcStatus s n).2 := by
  unfold notifyRsrcStatus
  split_ifs
  · have hq := quiet_answered m s n.rsrcStatus
    unfold answered at hq
    cases h : m.answer s n.rsrcStatus with
    | none => exact Quiet.refl m
    | some m' => simpa [h] using hq
  · exact Quiet.refl m

/-! ## The whole list -/

/-- Each of `l` handles the status, in order. -/
def notifyAll (m : AgpsStateMachine) (l : List Subscriber) (status : RsrcStatus) :
    AgpsStateMachine :=
  l.foldl (fun m s => m.answered s status) m

theorem quiet_notifyAll (l : List Subscriber) (m : AgpsStateMachine) (status : RsrcStatus) :
    Quiet m (m.notifyAll l status) := by
  induction l generalizing m with
  | nil => exact Quiet.refl m
  | cons s l ih => exact (quiet_answered m s status).trans (ih _)

theorem tells_answered (m : AgpsStateMachine) (s t : Subscriber) (status' : RsrcStatus) :
    (m.answered s status).tells status' t = m.tells status' t := by
  rw [answered_eq]
  rfl

/-- The log after all of `l` have been told. -/
theorem log_notifyAll (l : List Subscriber) (m : AgpsStateMachine) (status : RsrcStatus) :
    (m.notifyAll l status).log = m.log ++ (l.flatMap (m.tells status)).map .call := by
  induction l generalizing m with
  | nil => simp [notifyAll]
  | cons s l ih =>
    show ((m.answered s status).notifyAll l status).log = _
    have htells : (m.answered s status).tells status = m.tells status :=
      funext fun t => tells_answered m s t status
    rw [ih,htells,answered_eq,List.flatMap_cons,List.map_append,List.append_assoc]

theorem answered_withSubscribers (l : List Subscriber) :
    ({ m with mSubscribers := l } : AgpsStateMachine).answered s status =
      { m.answered s status with mSubscribers := l } := by
  rw [answered_eq,answered_eq]
  rfl

theorem notifyAll_withSubscribers (l as : List Subscriber) (m : AgpsStateMachine) :
    ({ m with mSubscribers := l } : AgpsStateMachine).notifyAll as status =
      { m.notifyAll as status with mSubscribers := l } := by
  induction as generalizing m with
  | nil => rfl
  | cons s as ih =>
    show (({ m with mSubscribers := l } : AgpsStateMachine).answered s status).notifyAll as status = _
    rw [answered_withSubscribers,ih]
    rfl

theorem notifyRound_keep (h : n.rsrcStatus.known) (hd : n.postNotifyDelete = false)
    (l : List Subscriber) (m : AgpsStateMachine) :
    notifyRound n m l = (m.notifyAll (l.filter (·.forMe n.receiver)) n.rsrcStatus,none) := by
  induction l generalizing m with
  | nil => rfl
  | cons s l ih =>
    simp only [notifyRound,hd,Bool.and_false,Bool.false_eq_true,if_false,notifyRsrcStatus_eq h,ih]
    by_cases hf : s.forMe n.receiver <;> simp [hf,notifyAll]

/-- A round of the deleting loop takes the first addressee out. -/
theorem notifyRound_delete (h : n.rsrcStatus.known) (hd : n.postNotifyDelete)
    (l : List Subscriber) (m : AgpsStateMachine) :
    notifyRound n m l = match l.find? (·.forMe n.receiver) with
      | some s => (m.answered s n.rsrcStatus,some (s,l.eraseP (·.forMe n.receiver)))
      | none => (m,none) := by
  induction l generalizing m with
  | nil => rfl
  | cons s l ih =>
    simp only [notifyRound,hd,Bool.and_true,notifyRsrcStatus_eq h]
    by_cases hf : s.forMe n.receiver
    · simp [hf]
    · rw [if_neg hf]
      simp only [Bool.false_eq_true,if_false,ih,List.find?_cons,hf,List.eraseP_cons]
      cases l.find? (·.forMe n.receiver) <;> rfl

/-- The first addressee, the list without it, and those that are addressed or stay. -/
theorem eraseP_of_find? {l : List Subscriber} {p : Subscriber → Bool}
    (hs : l.find? p = some s) : ∃ pre post, l = pre ++ s::post ∧ p s = true ∧
      l.eraseP p = pre ++ post ∧ l.filter p = s::(pre ++ post).filter p ∧
      l.filter (!p ·) = (pre ++ post).filter (!p ·) := by
  obtain ⟨hsf,pre,post,rfl,hpre⟩ := List.find?_eq_some_iff_append.mp hs
  have hpre' : ∀ t ∈ pre, ¬ p t := by simpa using hpre
  refine ⟨pre,post,rfl,hsf,?_,?_,?_⟩
  · rw [List.eraseP_append_right _ hpre']
    simp [hsf]
  · rw [List.filter_append,List.filter_append,List.filter_eq_nil_iff.mpr hpre']
    simp [hsf]
  · rw [List.filter_append,List.filter_append]
    simp [hsf]

theorem afterDelete_of_ne {s : Subscriber} (h : n.receiver ≠ .entry s) (freed : Subscriber) :
    n.afterDelete s freed = n := by
  unfold Notification.afterDelete
  split
  · rename_i t ht
    rw [if_neg]
    rintro rfl
    exact h ht
  · rfl

theorem notifyLoop_eq {freed : Subscriber} (h : n.rsrcStatus.known) (hd : n.postNotifyDelete)
    (fuel : ℕ) (m : AgpsStateMachine) (ho : n.outside m.mSubscribers)
    (hf : m.mSubscribers.length < fuel) :
    notifyLoop freed fuel n m =
      { m.notifyAll (m.mSubscribers.filter (·.forMe n.receiver)) n.rsrcStatus with
        mSubscribers := m.mSubscribers.filter (!·.forMe n.receiver) } := by
  induction fuel generalizing m with
  | zero => omega
  | succ fuel ih =>
    rw [notifyLoop,notifyRound_delete h hd]
    cases hs : m.mSubscribers.find? (·.forMe n.receiver) with
    | none =>
      have hn : ∀ s ∈ m.mSubscribers, ¬ s.forMe n.receiver := by
        simpa using List.find?_eq_none.mp hs
      rw [List.filter_eq_nil_iff.mpr hn,List.filter_eq_self.mpr (by simpa using hn)]
      rfl
    | some s =>
      obtain ⟨pre,post,hl,-,herase,hyes,hno⟩ := eraseP_of_find? hs
      have hlen : (pre ++ post).length < fuel := by
        rw [hl] at hf
        simp only [List.length_append,List.length_cons] at hf ⊢
        omega
      have hsame : n.afterDelete s freed = n := afterDelete_of_ne (ho s (by simp [hl])) freed
      have hrest : n.outside (pre ++ post) := fun e he => ho e (by
        rw [hl]
        exact (List.Sublist.append_left (List.sublist_cons_self s post) pre).subset he)
      simp only [herase,hsame]
      rw [ih _ hrest hlen,hyes,hno,notifyAll_withSubscribers]
      rfl

/-- The entry `e` is the receiver. When it has been taken out, those that are left are compared
with what its memory is read as. -/
theorem notifyLoop_entry {freed e : Subscriber} (h : n.rsrcStatus.known) (hd : n.postNotifyDelete)
    (hr : n.receiver = .entry e) (fuel : ℕ) (pre post : List Subscriber) (m : AgpsStateMachine)
    (hm : m.mSubscribers = pre ++ e::post) (hpre : e ∉ pre)
    (hf : m.mSubscribers.length < fuel) :
    let left := pre.filter (!·.equals e) ++ post
    notifyLoop freed fuel n m =
      { m.notifyAll (pre.filter (·.equals e) ++ e::left.filter (·.equals freed)) n.rsrcStatus with
        mSubscribers := left.filter (!·.equals freed) } := by
  induction fuel generalizing pre m with
  | zero => omega
  | succ fuel ih =>
    have hforMe (t : Subscriber) : t.forMe n.receiver = t.equals e := by
      rw [hr]
      rfl
    simp only [notifyLoop,notifyRound_delete h hd,hforMe,hm]
    cases hs : pre.find? (·.equals e) with
    | some t =>
      -- another one that equals the receiver stands in front of it
      obtain ⟨pre₁,pre₂,hp,hte,herase,hyes,hno⟩ := eraseP_of_find? hs
      have hne : e ≠ t := by
        rintro rfl
        exact hpre (hp ▸ by simp)
      have hsame : n.afterDelete t freed = n := by simp [Notification.afterDelete,hr,hne]
      have htp : t ∈ pre := by simp [hp]
      have herase' : (pre ++ e::post).eraseP (·.equals e) = (pre₁ ++ pre₂) ++ e::post := by
        rw [← herase]
        exact List.eraseP_append_left (p:=(·.equals e)) hte _ htp
      have hlen : ((pre₁ ++ pre₂) ++ e::post).length < fuel := by
        rw [hm,hp] at hf
        simp only [List.length_append,List.length_cons] at hf ⊢
        omega
      have hmem : e ∉ pre₁ ++ pre₂ := fun he => hpre (by
        rw [hp]
        rcases List.mem_append.mp he with he | he
        · simp [he]
        · simp [he])
      have hfind : (pre ++ e::post).find? (·.equals e) = some t := by
        rw [List.find?_append,hs]
        rfl
      simp only [hfind,herase',hsame]
      rw [ih (pre₁ ++ pre₂) _ rfl hmem hlen,hyes,hno,notifyAll_withSubscribers]
      rfl
    | none =>
      have hn : ∀ t ∈ pre, ¬ t.equals e := by simpa using List.find?_eq_none.mp hs
      have hfind : (pre ++ e::post).find? (·.equals e) = some e := by
        rw [List.find?_append,hs]
        simp [Subscriber.equals_refl]
      have herase : (pre ++ e::post).eraseP (·.equals e) = pre ++ post := by
        rw [List.eraseP_append_right _ hn]
        simp [Subscriber.equals_refl]
      have hafter : n.afterDelete e freed = {n with receiver := .rcver freed} := by
        simp [Notification.afterDelete,hr]
      have hlen : (pre ++ post).length < fuel := by
        rw [hm] at hf
        simp only [List.length_append,List.length_cons] at hf ⊢
        omega
      have hyes : pre.filter (·.equals e) = [] := List.filter_eq_nil_iff.mpr hn
      have hno : pre.filter (!·.equals e) = pre := List.filter_eq_self.mpr (by simpa using hn)
      have ho : Notification.outside {n with receiver := .rcver freed} (pre ++ post) := by
        rintro t - ⟨⟩
      simp only [hfind,herase,hafter]
      rw [notifyLoop_eq (n:={n with receiver := .rcver freed}) h hd fuel _ ho hlen,hyes,hno,
        notifyAll_withSubscribers]
      rfl

/-- Without `postNotifyDelete`, the addressees handle the status and stay. -/
theorem notifySubscribers_keep {freed : Subscriber} (h : n.rsrcStatus.known)
    (hd : n.postNotifyDelete = false) :
    m.notifySubscribers freed n =
      m.notifyAll (m.mSubscribers.filter (·.forMe n.receiver)) n.rsrcStatus := by
  rw [notifySubscribers,hd,notifyRound_keep h hd]
  rfl

/-- With `postNotifyDelete`, the addressees handle the status and leave. -/
theorem notifySubscribers_delete {freed : Subscriber} (h : n.rsrcStatus.known)
    (hd : n.postNotifyDelete) (ho : n.outside m.mSubscribers) :
    m.notifySubscribers freed n =
      { m.notifyAll (m.mSubscribers.filter (·.forMe n.receiver)) n.rsrcStatus with
        mSubscribers := m.mSubscribers.filter (!·.forMe n.receiver) } := by
  rw [notifySubscribers,if_pos hd]
  exact notifyLoop_eq h hd _ m ho (Nat.lt_succ_self _)

/-- When the receiver is the entry `e`, it is deleted in its turn. Those that are left then are
compared with what its memory is read as. -/
theorem notifySubscribers_entry (freed : Subscriber) {e : Subscriber} {pre post : List Subscriber}
    (h : n.rsrcStatus.known) (hd : n.postNotifyDelete) (hr : n.receiver = .entry e)
    (hm : m.mSubscribers = pre ++ e::post) (hpre : e ∉ pre) :
    let left := pre.filter (!·.equals e) ++ post
    m.notifySubscribers freed n =
      { m.notifyAll (pre.filter (·.equals e) ++ e::left.filter (·.equals freed)) n.rsrcStatus with
        mSubscribers := left.filter (!·.equals freed) } := by
  rw [notifySubscribers,if_pos hd]
  exact notifyLoop_entry h hd hr _ pre post m hm hpre (Nat.lt_succ_self _)

theorem afterDelete_kept (n : Notification) (s freed : Subscriber) :
    (n.afterDelete s freed).rsrcStatus = n.rsrcStatus ∧
      (n.afterDelete s freed).postNotifyDelete = n.postNotifyDelete := by
  unfold Notification.afterDelete
  split
  · split <;> exact ⟨rfl,rfl⟩
  · exact ⟨rfl,rfl⟩

theorem notifyLoop_cases {freed : Subscriber} (fuel : ℕ) (n : Notification) (m : AgpsStateMachine)
    (h : n.rsrcStatus.known) (hd : n.postNotifyDelete) :
    ∃ told left, notifyLoop freed fuel n m =
      { m.notifyAll told n.rsrcStatus with mSubscribers := left } ∧
        left.Sublist m.mSubscribers := by
  induction fuel generalizing n m with
  | zero => exact ⟨[],m.mSubscribers,rfl,List.Sublist.refl _⟩
  | succ fuel ih =>
    rw [notifyLoop,notifyRound_delete h hd]
    cases hs : m.mSubscribers.find? (·.forMe n.receiver) with
    | none => exact ⟨[],m.mSubscribers,rfl,List.Sublist.refl _⟩
    | some s =>
      obtain ⟨hstatus,hdelete⟩ := afterDelete_kept n s freed
      obtain ⟨told,left,heq,hsub⟩ := ih (n.afterDelete s freed)
        { m.answered s n.rsrcStatus with mSubscribers := m.mSubscribers.eraseP (·.forMe n.receiver) }
        (hstatus ▸ h) (hdelete ▸ hd)
      refine ⟨s::told,left,?_,hsub.trans List.eraseP_sublist⟩
      rw [hstatus,notifyAll_withSubscribers] at heq
      exact heq

/-- What a notification leaves, whoever it is for: some of the entries, told of the status, may be
gone. -/
theorem notifySubscribers_cases (m : AgpsStateMachine) (freed : Subscriber)
    (h : n.rsrcStatus.known) :
    ∃ told left, m.notifySubscribers freed n =
      { m.notifyAll told n.rsrcStatus with mSubscribers := left } ∧
        left.Sublist m.mSubscribers := by
  cases hd : n.postNotifyDelete with
  | false =>
    refine ⟨m.mSubscribers.filter (·.forMe n.receiver),m.mSubscribers,?_,List.Sublist.refl _⟩
    rw [notifySubscribers_keep h hd]
    exact notifyAll_withSubscribers _ _ m
  | true =>
    rw [notifySubscribers,if_pos hd]
    exact notifyLoop_cases _ n m h hd

end AgpsStateMachine
end Agps
end Kitakami

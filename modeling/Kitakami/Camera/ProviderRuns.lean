import Kitakami.Camera.ProviderNames

/-!
# What clients of the provider know

A client that registers, then takes the list of names and then goes by the
notifications knows which cameras are present, also if statuses changed while
the list was taken. The names on the list are those that can be opened.
-/

namespace Kitakami
namespace Camera
namespace Provider

open Runs Monitor

variable {T C : Type}

/-! ## The client's side -/

/-- What is known since the last registration: the last notifications, the threads that have begun
to take the list, and the lists they got. -/
structure Mirror (T C : Type) where
  client : Option C := none
  latest : Str → Option ℤ := fun _ => none
  started : T → Bool := fun _ => false
  listed : T → Option (List Str) := fun _ => none

def Mirror.next [DecidableEq T] (m : Mirror T C) : Event T C → Mirror T C
  | .setCallback callback => {client := callback}
  | .listing t => {m with
      started := Function.update m.started t true, listed := Function.update m.listed t none}
  | .listed t names => {m with
      listed := Function.update m.listed t (if m.started t then some names else none)}
  | .cameraDeviceStatusChange _ name status => {m with
      latest := Function.update m.latest name (some status)}
  | .torchModeStatusChange _ _ _ => m

/-- Only the registered client is told, and a list has no name twice. -/
def Mirror.Ok (m : Mirror T C) : Event T C → Prop
  | .listed _ names => names.Nodup
  | .cameraDeviceStatusChange callback _ _ => m.client = some callback
  | .torchModeStatusChange callback _ _ => m.client = some callback
  | _ => True

/-- What the client takes for present: the last notification counts, or else the list. -/
def Mirror.Present (m : Mirror T C) (names : List Str) (name : Str) : Prop :=
  match m.latest name with
  | some status => status = statusPresent
  | none => name ∈ names

variable {c : CameraModule} {s s' : State T C} {m : Mirror T C} {n : ℕ} {p : Str × Str}
  {rest : List (Str × Str)} {found : List Str}

theorem mem_namesOf {id x : Str} :
    x ∈ s.namesOf id ↔ ∃ p ∈ s.mCameraDeviceNames, id = p.1 ∧ p.2 = x := by
  simp [State.namesOf,and_assoc]

/-- A notified name is one of the camera that changed. -/
theorem Named.mem_namesOf_iff (h : Named c s n) {id : Str} (hp : p ∈ s.mCameraDeviceNames) :
    p.2 ∈ s.namesOf id ↔ id = p.1 := by
  rw [mem_namesOf]
  constructor
  · rintro ⟨q,hq,hid,hqp⟩
    rw [hid,h.distinct hq hp hqp]
  · exact fun hid => ⟨p,hp,hid,rfl⟩

theorem isSome_update (f : Str → Option ℤ) (id : Str) (status : ℤ) (x : Str) (h : (f x).isSome) :
    (Function.update f id (some status) x).isSome := by
  by_cases he : x = id
  · simp [he]
  · rwa [Function.update_of_ne he]

section

variable [DecidableEq T]

theorem watch_notified (callback : C) (status : ℤ) (names : List Str) :
    watch Mirror.next m (names.map fun name => .cameraDeviceStatusChange callback name status) =
      {m with latest := fun name => if name ∈ names then some status else m.latest name} := by
  induction names generalizing m with
  | nil => simp
  | cons x names ih =>
    rw [List.map_cons,watch_cons,ih]
    simp only [Mirror.next,Mirror.mk.injEq,true_and,and_true]
    funext name
    by_cases hx : name = x
    · subst hx
      simp
    · simp [hx]

theorem accepts_notified {callback : C} (status : ℤ) (names : List Str)
    (h : m.client = some callback) : Accepts Mirror.next Mirror.Ok m
      (names.map fun name => .cameraDeviceStatusChange callback name status) := by
  induction names generalizing m with
  | nil => trivial
  | cons x names ih => exact ⟨h,ih h⟩

theorem notified_torch {callback : C} (status : ℤ) (names : List Str)
    (h : m.client = some callback) :
    Accepts Mirror.next Mirror.Ok m
      (names.map fun name => .torchModeStatusChange callback name status) ∧
    watch Mirror.next m (names.map fun name => .torchModeStatusChange callback name status) = m := by
  induction names with
  | nil => exact ⟨trivial,rfl⟩
  | cons x names ih => exact ⟨⟨h,ih.1⟩,ih.2⟩

end

/-! ## The invariant -/

/-- Names that were found tell the status of those that were looked at, but for later changes. -/
def Agrees (s : State T C) (m : Mirror T C) (rest : List (Str × Str)) (found : List Str) : Prop :=
  m.client.isSome → ∀ p ∈ s.mCameraDeviceNames, p ∉ rest → m.latest p.2 = none →
    (p.2 ∈ found ↔ s.mCameraStatusMap p.1 = some statusPresent)

/-- A list in the making: the names found are of pairs that were looked at. -/
structure Taking (s : State T C) (rest : List (Str × Str)) (found : List Str) : Prop where
  ahead : rest.Sublist s.mCameraDeviceNames
  behind : ∀ x ∈ found, ∃ p ∈ s.mCameraDeviceNames, p ∉ rest ∧ p.2 = x
  nodup : found.Nodup

structure Mirrors (s : State T C) (m : Mirror T C) : Prop where
  client : m.client = s.mCallbacks
  early : s.phase ≠ .ready → m = {} ∧ s.listings = fun _ => none
  silent : m.client = none → m.latest = fun _ => none
  latest : ∀ p ∈ s.mCameraDeviceNames, ∀ status, m.latest p.2 = some status →
    s.mCameraStatusMap p.1 = some status
  taking : ∀ t rest found, s.listings t = some (rest,found) → Taking s rest found
  agrees : ∀ t rest found, s.listings t = some (rest,found) → m.started t = true →
    Agrees s m rest found
  listed : ∀ t names, m.listed t = some names → Agrees s m [] names ∧
    ∀ x ∈ names, ∃ p ∈ s.mCameraDeviceNames, p.2 = x

/-- The provider and its clients. -/
def Served (c : CameraModule) (s : State T C) (m : Mirror T C) : Prop :=
  (∃ n, Named c s n) ∧ Mirrors s m

theorem Taking.congr (h : Taking s rest found) (hnames : s'.mCameraDeviceNames = s.mCameraDeviceNames) :
    Taking s' rest found where
  ahead := by rw [hnames]; exact h.ahead
  behind := by rw [hnames]; exact h.behind
  nodup := h.nodup

theorem Mirrors.ready (h : Mirrors s m) {callback : C} (hc : s.mCallbacks = some callback) :
    m.client = some callback ∧ s.phase = .ready := by
  have hclient := h.client.trans hc
  refine ⟨hclient,?_⟩
  by_contra hne
  rw [(h.early hne).1] at hclient
  cases hclient

/-- A change of a status without a client. -/
theorem Served.unnoticed (h : Served c s m) (hc : s.mCallbacks = none) (id : Str) (status : ℤ) :
    Served c {s with mCameraStatusMap := Function.update s.mCameraStatusMap id (some status)} m := by
  obtain ⟨⟨n,hn⟩,hm⟩ := h
  have hclient : m.client = none := hm.client.trans hc
  refine ⟨⟨n,hn.congr rfl rfl rfl (isSome_update _ id status)⟩,?_⟩
  exact { client := hm.client
          early := hm.early
          silent := hm.silent
          latest := fun p _ st hst => by simp [hm.silent hclient] at hst
          taking := fun t rest found ht => (hm.taking t rest found ht).congr rfl
          agrees := fun t rest found _ _ hsome => by simp [hclient] at hsome
          listed := fun t names ht => ⟨fun hsome => by simp [hclient] at hsome,
            (hm.listed t names ht).2⟩ }

/-- A change of a status of which the client is told. -/
theorem Served.noticed (h : Served c s m) {callback : C} (hc : s.mCallbacks = some callback)
    (id : Str) (status : ℤ) (log : List (Event T C)) :
    Served c {s with
      mCameraStatusMap := Function.update s.mCameraStatusMap id (some status), log := log}
      {m with latest := fun x => if x ∈ s.namesOf id then some status else m.latest x} := by
  obtain ⟨⟨n,hn⟩,hm⟩ := h
  obtain ⟨hclient,hready⟩ := hm.ready hc
  refine ⟨⟨n,hn.congr rfl rfl rfl (isSome_update _ id status)⟩,?_⟩
  -- a name that was not notified belongs to another camera
  have hother : ∀ p ∈ s.mCameraDeviceNames, p.2 ∉ s.namesOf id →
      Function.update s.mCameraStatusMap id (some status) p.1 = s.mCameraStatusMap p.1 := by
    intro p hp hno
    exact Function.update_of_ne (fun he => hno ((hn.mem_namesOf_iff hp).mpr he.symm)) _ _
  have hagrees : ∀ rest found, Agrees s m rest found → ∀ p ∈ s.mCameraDeviceNames, p ∉ rest →
      (if p.2 ∈ s.namesOf id then some status else m.latest p.2) = none →
      (p.2 ∈ found ↔
        Function.update s.mCameraStatusMap id (some status) p.1 = some statusPresent) := by
    intro rest found ha p hp hrest hnone
    by_cases hin : p.2 ∈ s.namesOf id
    · simp [hin] at hnone
    · rw [if_neg hin] at hnone
      rw [hother p hp hin]
      exact ha (by simp [hclient]) p hp hrest hnone
  exact { client := hm.client
          early := fun hne => absurd hready hne
          silent := fun hnone => by simp [hclient] at hnone
          latest := fun p hp st hst => by
            by_cases hin : p.2 ∈ s.namesOf id
            · have he := (hn.mem_namesOf_iff hp).mp hin
              simp only [hin,if_true] at hst
              simp only [he,Function.update_self,hst]
            · simp only [hin,if_false] at hst
              simp only [hother p hp hin]
              exact hm.latest p hp st hst
          taking := fun t rest found ht => (hm.taking t rest found ht).congr rfl
          agrees := fun t rest found ht hst _ => hagrees rest found (hm.agrees t rest found ht hst)
          listed := fun t names ht => ⟨fun _ => hagrees [] names (hm.listed t names ht).1,
            (hm.listed t names ht).2⟩ }

/-- A camera with a name has a status, so nothing is entered. -/
theorem Named.touch (h : Named c s n) (hp : p ∈ s.mCameraDeviceNames) : s.touch p.1 = s := by
  obtain ⟨i,hi,ho⟩ := (h.names p).mp hp
  obtain ⟨status,hst⟩ := Option.isSome_iff_exists.mp (h.statuses i hi)
  rw [← ho.1] at hst
  rw [State.touch,hst,Option.getD_some,← hst,Function.update_eq_self]

theorem served_start : Served c ({} : State T C) {} := by
  refine ⟨⟨0,?_⟩,?_⟩
  · exact { phase := fun i hi => by cases hi; rfl
            ready := fun hr => by cases hr
            le := Nat.zero_le _
            supported := fun i hi => absurd hi (Nat.not_lt_zero i)
            ids := fun id => by simp
            names := fun p => by simp
            nodup := List.nodup_nil
            statuses := fun i hi => absurd hi (Nat.not_lt_zero i) }
  · exact { client := rfl
            early := fun _ => ⟨rfl,rfl⟩
            silent := fun _ => rfl
            latest := fun p hp => by cases hp
            taking := fun t rest found ht => by cases ht
            agrees := fun t rest found ht => by cases ht
            listed := fun t names ht => by cases ht }

/-- The names found when one more pair was looked at. -/
def lookedAt (s : State T C) (p : Str × Str) (found : List Str) : List Str :=
  if s.mCameraStatusMap p.1 = some statusPresent then found ++ [p.2] else found

theorem Named.lookedAt (h : Named c s n) (ht : Taking s (p::rest) found) :
    Taking s rest (lookedAt s p found) ∧
      (Agrees s m (p::rest) found → Agrees s m rest (lookedAt s p found)) := by
  have hp : p ∈ s.mCameraDeviceNames := ht.ahead.subset List.mem_cons_self
  have hrest : p ∉ rest := (List.nodup_cons.mp (h.nodup.sublist ht.ahead)).1
  have hfresh : p.2 ∉ found := by
    intro hx
    obtain ⟨q,hq,hno,hqp⟩ := ht.behind _ hx
    exact hno (h.distinct hq hp hqp ▸ List.mem_cons_self)
  have hmem : ∀ x, x ∈ Provider.lookedAt s p found ↔
      x ∈ found ∨ s.mCameraStatusMap p.1 = some statusPresent ∧ x = p.2 := by
    intro x
    unfold Provider.lookedAt
    split
    case isTrue hst => simp [hst]
    case isFalse hst => simp [hst]
  refine ⟨⟨(List.sublist_cons_self p rest).trans ht.ahead,fun x hx => ?_,?_⟩,fun ha hsome q hq hno hq0 => ?_⟩
  · rcases (hmem x).mp hx with hx | ⟨-,rfl⟩
    · obtain ⟨q,hq,hno,rfl⟩ := ht.behind x hx
      exact ⟨q,hq,fun hqr => hno (List.mem_cons_of_mem p hqr),rfl⟩
    · exact ⟨p,hp,hrest,rfl⟩
  · unfold Provider.lookedAt
    split
    · exact List.concat_eq_append ▸ (List.nodup_concat found p.2).mpr ⟨hfresh,ht.nodup⟩
    · exact ht.nodup
  · rw [hmem]
    by_cases hqp : q = p
    · subst hqp
      simp [hfresh]
    · have hname : q.2 ≠ p.2 := fun he => hqp (h.distinct hq hp he)
      rw [← ha hsome q hq (by simp [hqp,hno]) hq0]
      simp [hname]

theorem notify_none {event : C → Str → ℤ → Event T C} {id : Str} {status : ℤ}
    (hc : s.mCallbacks = none) : s.notify event id status = s := by
  simp only [State.notify,hc]

theorem notify_some {event : C → Str → ℤ → Event T C} {id : Str} {status : ℤ} {callback : C}
    (hc : s.mCallbacks = some callback) : s.notify event id status =
      {s with log := s.log ++ (s.namesOf id).map fun name => event callback name status} := by
  simp only [State.notify,hc]

variable [DecidableEq T]

/-- What a step adds to the log keeps the client up to date. -/
def Sound (c : CameraModule) (s s' : State T C) (m : Mirror T C) : Prop :=
  ∃ es, s'.log = s.log ++ es ∧ Accepts Mirror.next Mirror.Ok m es ∧
    Served c s' (watch Mirror.next m es)

theorem Served.initializeLoop (hdoc : c.Documented) (h : Served c s m)
    (hs : s.initializeLoop c = some s') : Sound c s s' m := by
  obtain ⟨⟨n,hn⟩,hm⟩ := h
  obtain ⟨hn',⟨i,hi⟩,hcallbacks,hlistings,hlog⟩ := hn.initializeLoop hdoc hs
  obtain ⟨rfl,hnone⟩ := hm.early (by simp [hi])
  refine ⟨[],by simp [hlog],trivial,hn',?_⟩
  exact { client := by rw [hcallbacks]; exact hm.client
          early := fun _ => ⟨rfl,by rw [hlistings,hnone]⟩
          silent := fun _ => rfl
          latest := fun p _ status hst => by cases hst
          taking := fun t rest found ht => by simp [hlistings,hnone] at ht
          agrees := fun t rest found ht => by simp [hlistings,hnone] at ht
          listed := fun t names ht => by cases ht }

theorem Served.sCameraDeviceStatusChange (h : Served c s m) (id : Int32) (status : ℤ) :
    Sound c s (s.sCameraDeviceStatusChange id status) m := by
  cases hc : s.mCallbacks with
  | none =>
    have hs : s.sCameraDeviceStatusChange id status = _ := notify_none hc
    rw [hs]
    exact ⟨[],(List.append_nil _).symm,trivial,h.unnoticed hc _ status⟩
  | some callback =>
    have hs : s.sCameraDeviceStatusChange id status = _ := notify_some hc
    rw [hs]
    refine ⟨_,rfl,accepts_notified _ _ (h.2.ready hc).1,?_⟩
    rw [watch_notified]
    exact h.noticed hc _ status _

/-- Torch modes are passed on and not kept. -/
theorem Served.sTorchModeStatusChange (h : Served c s m) (id : Str) (status : ℤ) :
    Sound c s (s.sTorchModeStatusChange id status) m := by
  cases hc : s.mCallbacks with
  | none =>
    rw [State.sTorchModeStatusChange,notify_none hc]
    exact ⟨[],(List.append_nil _).symm,trivial,h⟩
  | some callback =>
    obtain ⟨⟨n,hn⟩,hm⟩ := h
    obtain ⟨hok,hwatch⟩ := notified_torch status (s.namesOf id) (hm.ready hc).1
    rw [State.sTorchModeStatusChange,notify_some hc]
    refine ⟨_,rfl,hok,⟨n,hn.congr rfl rfl rfl fun _ h => h⟩,?_⟩
    rw [hwatch]
    exact { hm with taking := fun t rest found ht => (hm.taking t rest found ht).congr rfl }

theorem Served.setCallback (h : Served c s m) (callback : Option C) (hr : s.phase = .ready) :
    Sound c s (s.setCallback callback) m := by
  obtain ⟨⟨n,hn⟩,hm⟩ := h
  refine ⟨[.setCallback callback],rfl,⟨trivial,trivial⟩,⟨n,hn.congr rfl rfl rfl fun _ h => h⟩,?_⟩
  exact { client := rfl
          early := fun hne => absurd hr hne
          silent := fun _ => rfl
          latest := fun p _ status hst => by cases hst
          taking := fun t rest found ht => (hm.taking t rest found ht).congr rfl
          agrees := fun t rest found _ hst => by cases hst
          listed := fun t names ht => by cases ht }

/-! ## Taking the list -/

theorem Served.begins (h : Served c s m) (t : T) (hr : s.phase = .ready) (log : List (Event T C)) :
    Served c {s with
      listings := Function.update s.listings t (some (s.mCameraDeviceNames,[])), log := log}
      (Mirror.next m (.listing t)) := by
  obtain ⟨⟨n,hn⟩,hm⟩ := h
  refine ⟨⟨n,hn.congr rfl rfl rfl fun _ h => h⟩,?_⟩
  refine { client := hm.client, early := fun hne => absurd hr hne, silent := hm.silent,
           latest := hm.latest, taking := fun u rest found hu => ?_,
           agrees := fun u rest found hu hst => ?_, listed := fun u names hu => ?_ }
  · by_cases hut : u = t
    · subst hut
      simp only [Function.update_self,Option.some.injEq,Prod.mk.injEq] at hu
      obtain ⟨rfl,rfl⟩ := hu
      exact ⟨List.Sublist.refl _,by simp,List.nodup_nil⟩
    · simp only [Function.update_of_ne hut] at hu
      exact (hm.taking u rest found hu).congr rfl
  · by_cases hut : u = t
    · subst hut
      simp only [Function.update_self,Option.some.injEq,Prod.mk.injEq] at hu
      obtain ⟨rfl,rfl⟩ := hu
      exact fun _ p hp hno => absurd hp hno
    · simp only [Function.update_of_ne hut,Mirror.next] at hu hst
      exact hm.agrees u rest found hu hst
  · by_cases hut : u = t
    · subst hut
      simp [Mirror.next] at hu
    · simp only [Mirror.next,Function.update_of_ne hut] at hu
      exact hm.listed u names hu

theorem Served.looks (h : Served c s m) {t : T} (ht : s.listings t = some (p::rest,found)) :
    Served c {s with
      listings := Function.update s.listings t (some (rest,lookedAt s p found))} m := by
  obtain ⟨⟨n,hn⟩,hm⟩ := h
  obtain ⟨htaking,hagrees⟩ := hn.lookedAt (m:=m) (hm.taking t _ _ ht)
  refine ⟨⟨n,hn.congr rfl rfl rfl fun _ h => h⟩,?_⟩
  refine { hm with early := fun hne => ?_, taking := fun u rest' found' hu => ?_,
                   agrees := fun u rest' found' hu hst => ?_ }
  · have hnone := (hm.early hne).2
    rw [hnone] at ht
    cases ht
  · by_cases hut : u = t
    · subst hut
      simp only [Function.update_self,Option.some.injEq,Prod.mk.injEq] at hu
      obtain ⟨rfl,rfl⟩ := hu
      exact htaking.congr rfl
    · simp only [Function.update_of_ne hut] at hu
      exact (hm.taking u rest' found' hu).congr rfl
  · by_cases hut : u = t
    · subst hut
      simp only [Function.update_self,Option.some.injEq,Prod.mk.injEq] at hu
      obtain ⟨rfl,rfl⟩ := hu
      exact hagrees (hm.agrees u _ _ ht hst)
    · simp only [Function.update_of_ne hut] at hu
      exact hm.agrees u rest' found' hu hst

theorem Served.lists (h : Served c s m) {t : T} (ht : s.listings t = some ([],found))
    (log : List (Event T C)) :
    Served c {s with listings := Function.update s.listings t none, log := log}
      (Mirror.next m (.listed t found)) := by
  obtain ⟨⟨n,hn⟩,hm⟩ := h
  refine ⟨⟨n,hn.congr rfl rfl rfl fun _ h => h⟩,?_⟩
  refine { client := hm.client, early := fun hne => ?_, silent := hm.silent, latest := hm.latest,
           taking := fun u rest found' hu => ?_, agrees := fun u rest found' hu hst => ?_,
           listed := fun u names hu => ?_ }
  · have hnone := (hm.early hne).2
    rw [hnone] at ht
    cases ht
  · by_cases hut : u = t
    · subst hut
      simp at hu
    · simp only [Function.update_of_ne hut] at hu
      exact (hm.taking u rest found' hu).congr rfl
  · by_cases hut : u = t
    · subst hut
      simp at hu
    · simp only [Function.update_of_ne hut,Mirror.next] at hu hst
      exact hm.agrees u rest found' hu hst
  · by_cases hut : u = t
    · subst hut
      simp only [Mirror.next,Function.update_self] at hu
      split at hu
      case isTrue hst =>
        obtain rfl := Option.some.inj hu
        refine ⟨hm.agrees u [] found ht hst,fun x hx => ?_⟩
        obtain ⟨q,hq,-,hqx⟩ := (hm.taking u [] found ht).behind x hx
        exact ⟨q,hq,hqx⟩
      case isFalse => cases hu
    · simp only [Mirror.next,Function.update_of_ne hut] at hu
      exact hm.listed u names hu

theorem Served.getCameraIdList (h : Served c s m) {t : T} (hs : s.getCameraIdList t = some s') :
    Sound c s s' m := by
  unfold State.getCameraIdList at hs
  split at hs
  case h_1 hr ht =>
    obtain rfl := Option.some.inj hs
    exact ⟨[.listing t],rfl,⟨trivial,trivial⟩,h.begins t hr _⟩
  case h_2 p rest names hr ht =>
    obtain rfl := Option.some.inj hs
    obtain ⟨n,hn⟩ := h.1
    have hp : p ∈ s.mCameraDeviceNames :=
      (h.2.taking t _ _ ht).ahead.subset List.mem_cons_self
    rw [hn.touch hp]
    exact ⟨[],(List.append_nil _).symm,trivial,h.looks ht⟩
  case h_3 names hr ht =>
    obtain rfl := Option.some.inj hs
    exact ⟨[.listed t names],rfl,⟨(h.2.taking t _ _ ht).nodup,trivial⟩,h.lists ht _⟩
  case h_4 => cases hs

/-! ## Runs -/

theorem Served.step (hdoc : c.Documented) (h : Served c s m) {a : Action T C}
    (hs : step c s a = some s') : Sound c s s' m := by
  cases a with
  | initializeLoop => exact h.initializeLoop hdoc hs
  | cameraDeviceStatusChange id status =>
    simp only [Provider.step] at hs
    split at hs
    · cases hs
    · obtain rfl := Option.some.inj hs
      exact h.sCameraDeviceStatusChange id status
  | torchModeStatusChange id status =>
    simp only [Provider.step] at hs
    split at hs
    · cases hs
    · obtain rfl := Option.some.inj hs
      exact h.sTorchModeStatusChange id status
  | setCallback callback =>
    simp only [Provider.step] at hs
    split at hs
    case isTrue hr =>
      obtain rfl := Option.some.inj hs
      exact h.setCallback callback hr
    case isFalse => cases hs
  | getCameraIdList t => exact h.getCameraIdList hs

theorem run_served (hdoc : c.Documented) {as : List (Action T C)}
    (hr : run (step c) {} as = some s) :
    Accepts Mirror.next Mirror.Ok {} s.log ∧ Served c s (watch Mirror.next {} s.log) := by
  refine run_invariant (G:=fun _ _ => True) (I:=fun s => Accepts Mirror.next Mirror.Ok {} s.log ∧
    Served c s (watch Mirror.next {} s.log)) ?_ ?_ (along_true _ as) hr
  rotate_left
  · exact ⟨accepts_nil _,served_start⟩
  rintro s a s' ⟨hok,h⟩ - hs
  obtain ⟨es,hlog,hes,h'⟩ := h.step hdoc hs
  rw [hlog,accepts_append,watch_append]
  exact ⟨⟨hok,hes⟩,h'⟩

/-! ## Statuses -/

/-- How many rounds the constructor has made. -/
def rounds : List (Action T C) → ℕ
  | [] => 0
  | .initializeLoop::as => rounds as + 1
  | _::as => rounds as

/-- What has happened since the constructor was at a camera. -/
def since : ℕ → List (Action T C) → List (Action T C)
  | _, [] => []
  | 0, .initializeLoop::as => as
  | i+1, .initializeLoop::as => since i as
  | i, _::as => since i as

/-- The status that an action reports of a camera. -/
def Action.reports (i : ℕ) : Action T C → Option ℤ
  | .cameraDeviceStatusChange id status => if id.toInt = i then some status else none
  | _ => none

/-- The last status reported of a camera since the constructor was at it, which takes it for
present. -/
def lastStatus (i : ℕ) (as : List (Action T C)) : ℤ :=
  ((since i as).filterMap (Action.reports i)).getLast?.getD statusPresent

section

omit [DecidableEq T]

theorem rounds_append (as : List (Action T C)) (a : Action T C) :
    rounds (as ++ [a]) = rounds as + rounds [a] := by
  induction as with
  | nil => simp [rounds]
  | cons b as ih =>
    cases b with
    | initializeLoop => simp only [List.cons_append,rounds,ih]; omega
    | _ => simpa only [List.cons_append,rounds] using ih

theorem since_append {i : ℕ} {as : List (Action T C)} (h : i < rounds as) (a : Action T C) :
    since i (as ++ [a]) = since i as ++ [a] := by
  induction as generalizing i with
  | nil => exact absurd h (Nat.not_lt_zero i)
  | cons b as ih =>
    cases b with
    | initializeLoop =>
      cases i with
      | zero => rfl
      | succ i => exact ih (Nat.lt_of_succ_lt_succ h)
    | _ => cases i <;> exact ih h

/-- A round of the constructor starts anew for the camera it is at. -/
theorem since_rounds (as : List (Action T C)) :
    since (rounds as) (as ++ [.initializeLoop]) = [] := by
  induction as with
  | nil => rfl
  | cons b as ih =>
    cases b with
    | initializeLoop => exact ih
    | _ =>
      simp only [rounds,List.cons_append]
      cases hr : rounds as <;> rw [hr] at ih <;> exact ih

theorem lastStatus_append {i : ℕ} {as : List (Action T C)} (h : i < rounds as) (a : Action T C) :
    lastStatus i (as ++ [a]) = (a.reports i).getD (lastStatus i as) := by
  rw [lastStatus,since_append h,List.filterMap_append]
  cases ha : a.reports i with
  | none => simp [ha,lastStatus]
  | some status => simp [ha]

/-- A number has one text. -/
theorem cameraIdStr_eq_iff (id : Int32) (i : ℕ) (hi : i < 2^31) :
    cameraIdStr id.toInt = cameraIdStr i ↔ id.toInt = i := by
  refine ⟨fun h => ?_,fun h => by rw [h]⟩
  rw [cameraIdStr_natCast hi] at h
  by_cases hneg : id.toInt < 0
  · have hdash : (45 : UInt8) ∈ decimal i := by
      rw [← h,cameraIdStr,printInt,if_pos hneg]
      exact List.mem_cons_self
    exact absurd (isDigit_of_mem hdash) (by decide)
  · obtain ⟨k,hk⟩ := Int.eq_ofNat_of_zero_le (not_lt.mp hneg)
    have hlt : k < 2^31 := by
      have := id.toInt_lt
      omega
    rw [hk,cameraIdStr_natCast hlt] at h
    rw [hk,decimal_injective h]

/-- A round either takes a camera in, which it takes for present, or is the last one. -/
theorem initializeLoop_cases {i : ℕ} (hphase : s.phase = .initializing i)
    (hs : s.initializeLoop c = some s') :
    (i < c.cameras ∧ s'.phase = .initializing (i+1) ∧
      s'.mCameraIds = sortedAdd strLt (cameraIdStr i) s.mCameraIds ∧
      s'.mCameraStatusMap =
        Function.update s.mCameraStatusMap (cameraIdStr i) (some statusPresent)) ∨
    (∀ j, s'.phase ≠ .initializing j) ∧ s'.mCameraIds = s.mCameraIds ∧
      s'.mCameraStatusMap = s.mCameraStatusMap := by
  simp only [State.initializeLoop,hphase,Option.some.injEq] at hs
  subst hs
  split
  case isTrue hi =>
    unfold State.addCamera
    split
    · exact Or.inr ⟨by simp,rfl,rfl⟩
    · split
      · refine Or.inl ⟨CameraModule.lt_cameras.mpr hi,?_,?_,?_⟩ <;> dsimp only <;> split <;> rfl
      · exact Or.inr ⟨by simp,rfl,rfl⟩
  case isFalse => exact Or.inr ⟨by simp,rfl,rfl⟩

theorem notify_frame (s : State T C) (event : C → Str → ℤ → Event T C) (id : Str) (status : ℤ) :
    (s.notify event id status).phase = s.phase ∧
      (s.notify event id status).mCameraIds = s.mCameraIds ∧
      (s.notify event id status).mCameraStatusMap = s.mCameraStatusMap := by
  cases hc : s.mCallbacks with
  | none => rw [notify_none hc]; exact ⟨rfl,rfl,rfl⟩
  | some callback => rw [notify_some hc]; exact ⟨rfl,rfl,rfl⟩

end

/-- A step of a provider that is not one of its constructor changes the status that it reports. -/
theorem Served.status (h : Served c s m) {a : Action T C} (hs : Provider.step c s a = some s')
    (ha : rounds [a] = 0) {i : ℕ} (hi : i < 2^31) :
    s'.phase = s.phase ∧ s'.mCameraIds = s.mCameraIds ∧
      s'.mCameraStatusMap (cameraIdStr i) =
        ((a.reports i).map some).getD (s.mCameraStatusMap (cameraIdStr i)) := by
  cases a with
  | initializeLoop => simp [rounds] at ha
  | cameraDeviceStatusChange id status =>
    simp only [Provider.step] at hs
    split at hs
    · cases hs
    · obtain rfl := Option.some.inj hs
      obtain ⟨hphase,hids,hmap⟩ := notify_frame
        {s with mCameraStatusMap :=
          Function.update s.mCameraStatusMap (cameraIdStr id.toInt) (some status)}
        .cameraDeviceStatusChange (cameraIdStr id.toInt) status
      refine ⟨hphase,hids,(congrFun hmap _).trans ?_⟩
      by_cases hid : id.toInt = i
      · simp [Action.reports,hid]
      · have hne : cameraIdStr i ≠ cameraIdStr id.toInt :=
          fun he => hid ((cameraIdStr_eq_iff id i hi).mp he.symm)
        simp [Action.reports,hid,hne]
  | torchModeStatusChange id status =>
    simp only [Provider.step] at hs
    split at hs
    · cases hs
    · obtain rfl := Option.some.inj hs
      obtain ⟨hphase,hids,hmap⟩ := notify_frame s .torchModeStatusChange id status
      exact ⟨hphase,hids,congrFun hmap _⟩
  | setCallback callback =>
    simp only [Provider.step] at hs
    split at hs
    case isTrue hr =>
      obtain rfl := Option.some.inj hs
      exact ⟨rfl,rfl,rfl⟩
    case isFalse => cases hs
  | getCameraIdList t =>
    simp only [Provider.step,State.getCameraIdList] at hs
    split at hs
    case h_1 hr ht =>
      obtain rfl := Option.some.inj hs
      exact ⟨rfl,rfl,rfl⟩
    case h_2 p rest names hr ht =>
      obtain rfl := Option.some.inj hs
      obtain ⟨n,hn⟩ := h.1
      have hp : p ∈ s.mCameraDeviceNames :=
        (h.2.taking t _ _ ht).ahead.subset List.mem_cons_self
      rw [hn.touch hp]
      exact ⟨rfl,rfl,rfl⟩
    case h_3 names hr ht =>
      obtain rfl := Option.some.inj hs
      exact ⟨rfl,rfl,rfl⟩
    case h_4 => cases hs

/-- The map holds what was reported last. -/
structure Current (s : State T C) (as : List (Action T C)) : Prop where
  phase : ∀ i, s.phase = .initializing i → rounds as = i
  status : ∀ i : ℕ, i < 2^31 → cameraIdStr i ∈ s.mCameraIds → i < rounds as ∧
    s.mCameraStatusMap (cameraIdStr i) = some (lastStatus i as)

omit [DecidableEq T] in
theorem Current.initializeLoop {as : List (Action T C)} (h : Current s as)
    (hs : s.initializeLoop c = some s') : Current s' (as ++ [.initializeLoop]) := by
  obtain ⟨i,hphase⟩ : ∃ i, s.phase = .initializing i := by
    unfold State.initializeLoop at hs
    split at hs
    · exact ⟨_,by assumption⟩
    · cases hs
  obtain rfl := h.phase i hphase
  have hrounds : rounds (as ++ [Action.initializeLoop]) = rounds as + 1 := rounds_append as _
  -- what an earlier camera's status is
  have hold : ∀ j : ℕ, j < 2^31 → cameraIdStr j ∈ s.mCameraIds → j < rounds as ∧
      s.mCameraStatusMap (cameraIdStr j) = some (lastStatus j (as ++ [.initializeLoop])) := by
    intro j hj hid
    obtain ⟨hlt,hst⟩ := h.status j hj hid
    exact ⟨hlt,by rw [hst,lastStatus_append hlt]; rfl⟩
  rcases initializeLoop_cases hphase hs with ⟨hlt,hphase',hids,hmap⟩ | ⟨hphase',hids,hmap⟩
  · refine ⟨fun j hj => ?_,fun j hj hid => ?_⟩
    · rw [hphase'] at hj
      rw [hrounds]
      exact Phase.initializing.inj hj
    · by_cases hji : j = rounds as
      · subst hji
        refine ⟨by omega,?_⟩
        rw [hmap,Function.update_self,lastStatus,since_rounds]
        rfl
      · have hne : cameraIdStr j ≠ cameraIdStr (rounds as) := by
          rw [cameraIdStr_natCast hj,cameraIdStr_natCast (lt_trans hlt CameraModule.cameras_lt)]
          exact fun he => hji (decimal_injective he)
        rw [hids,mem_sortedAdd] at hid
        obtain ⟨hlt',hst⟩ := hold j hj (hid.resolve_left hne)
        rw [hmap,Function.update_of_ne hne]
        exact ⟨by omega,hst⟩
  · refine ⟨fun j hj => absurd hj (hphase' j),fun j hj hid => ?_⟩
    obtain ⟨hlt,hst⟩ := hold j hj (hids ▸ hid)
    rw [hmap]
    exact ⟨by omega,hst⟩

theorem run_current (hdoc : c.Documented) {as : List (Action T C)}
    (hr : run (step c) {} as = some s) : Current s as := by
  induction as using List.reverseRecOn generalizing s with
  | nil =>
    obtain rfl := Option.some.inj hr
    exact ⟨fun i hi => by cases hi; rfl,by simp⟩
  | append_singleton as a ih =>
    rw [run_append,Option.bind_eq_some_iff] at hr
    obtain ⟨s₁,hr₁,hlast⟩ := hr
    obtain ⟨s₂,hs,hend⟩ := run_cons_eq_some.mp hlast
    obtain rfl := Option.some.inj hend
    have h := ih hr₁
    by_cases ha : rounds [a] = 0
    · have hserved := (run_served hdoc hr₁).2
      refine ⟨fun i hi => ?_,fun i hi hid => ?_⟩
      · obtain ⟨hphase,-⟩ := hserved.status hs ha (i:=0) (by decide)
        rw [rounds_append,ha]
        exact h.phase i (hphase ▸ hi)
      · obtain ⟨-,hids,hmap⟩ := hserved.status hs ha hi
        obtain ⟨hlt,hst⟩ := h.status i hi (hids ▸ hid)
        refine ⟨by rwa [rounds_append,ha],?_⟩
        rw [hmap,lastStatus_append hlt,hst]
        cases a.reports i <;> rfl
    · obtain rfl : a = .initializeLoop := by
        cases a with
        | initializeLoop => rfl
        | _ => exact absurd rfl ha
      exact h.initializeLoop hs

/-- What a client goes by is what is: also if statuses change while the list is taken, the list
and the notifications since the registration tell which cameras are present, by what was last
reported of them. -/
theorem clients_mirror (hdoc : c.Documented) {as : List (Action T C)}
    (hr : run (step c) {} as = some s) :
    Accepts Mirror.next Mirror.Ok {} s.log ∧
    (∀ t names, (watch Mirror.next {} s.log).listed t = some names →
      (∀ x ∈ names, ∃ p ∈ s.mCameraDeviceNames, p.2 = x) ∧
      ((watch Mirror.next {} s.log).client.isSome → ∀ p ∈ s.mCameraDeviceNames,
        ((watch Mirror.next {} s.log).Present names p.2 ↔
          s.mCameraStatusMap p.1 = some statusPresent))) ∧
    (∀ p ∈ s.mCameraDeviceNames, ∃ i < c.cameras, p.1 = cameraIdStr i ∧
      s.mCameraStatusMap p.1 = some (lastStatus i as)) ∧
    (s.phase = .ready → ∀ i < c.cameras, ∃ p ∈ s.mCameraDeviceNames, p.1 = cameraIdStr i) := by
  obtain ⟨hok,⟨n,hn⟩,hm⟩ := run_served hdoc hr
  refine ⟨hok,fun t names ht => ⟨(hm.listed t names ht).2,fun hsome p hp => ?_⟩,fun p hp => ?_,
    fun hready i hi => ?_⟩
  · unfold Mirror.Present
    split
    case h_1 status hst =>
      rw [hm.latest p hp status hst,Option.some.injEq]
    case h_2 hst => exact (hm.listed t names ht).1 hsome p hp (by simp) hst
  · obtain ⟨i,hi,ho⟩ := (hn.names p).mp hp
    have hlt : i < c.cameras := hi.trans_le hn.le
    have hid : cameraIdStr i = decimal i :=
      cameraIdStr_natCast (lt_trans hlt CameraModule.cameras_lt)
    have hp₁ : p.1 = cameraIdStr i := ho.1.trans hid.symm
    have hmem : cameraIdStr i ∈ s.mCameraIds := (hn.ids _).mpr ⟨i,hi,hid⟩
    refine ⟨i,hlt,hp₁,?_⟩
    rw [hp₁]
    exact ((run_current hdoc hr).status i (lt_trans hlt CameraModule.cameras_lt) hmem).2
  · have hi' : i < n := (hn.ready hready).symm ▸ hi
    refine ⟨ownPair c i,(hn.names _).mpr ⟨i,hi',offered_iff.mpr (Or.inl rfl)⟩,?_⟩
    exact (cameraIdStr_natCast (lt_trans hi CameraModule.cameras_lt)).symm

/-- Two cameras, the first of which can be opened as an old one too. -/
def sampleModule : CameraModule where
  moduleApiVersion := 0x204
  numberOfCameras := 2
  cameraInfo := fun i => some (if i = 0 then deviceApi3_3 else deviceApi1_0)
  deviceVersion := fun i => if i = 0 then deviceApi3_3 else deviceApi1_0
  isOpenLegacyDefined := true
  openLegacy := fun _ => true
  hal3TrebleMinorVersion := 3
  ashmemAllocator := true
  isInitFailed := fun _ => false

theorem documented_sample : sampleModule.Documented := by
  intro i version h
  simp only [sampleModule,Option.some.injEq] at h
  rw [← h]
  simp [sampleModule,moduleApi2_0]

/-- The second camera leaves too early to be noticed; the first one leaves while a client takes the
list, and comes back. -/
def sampleActions : List (Action ℕ String) :=
  [.initializeLoop,.cameraDeviceStatusChange 1 0,.initializeLoop,.initializeLoop,
    .setCallback (some "client"),.getCameraIdList 7,.getCameraIdList 7,
    .cameraDeviceStatusChange 0 0,.getCameraIdList 7,.getCameraIdList 7,.getCameraIdList 7,
    .cameraDeviceStatusChange 0 1]

theorem clients_mirror_sample : ∃ s : State ℕ String,
    run (step sampleModule) {} sampleActions = some s ∧
    Accepts Mirror.next Mirror.Ok {} s.log ∧
    (∀ t names, (watch Mirror.next {} s.log).listed t = some names →
      (∀ x ∈ names, ∃ p ∈ s.mCameraDeviceNames, p.2 = x) ∧
      ((watch Mirror.next {} s.log).client.isSome → ∀ p ∈ s.mCameraDeviceNames,
        ((watch Mirror.next {} s.log).Present names p.2 ↔
          s.mCameraStatusMap p.1 = some statusPresent))) ∧
    (∀ p ∈ s.mCameraDeviceNames, ∃ i < sampleModule.cameras, p.1 = cameraIdStr i ∧
      s.mCameraStatusMap p.1 = some (lastStatus i sampleActions)) ∧
    (s.phase = .ready → ∀ i < sampleModule.cameras, ∃ p ∈ s.mCameraDeviceNames,
      p.1 = cameraIdStr i) ∧
    lastStatus 0 (sampleActions.take 8) = 0 ∧ lastStatus 0 sampleActions = statusPresent ∧
    lastStatus 1 sampleActions = statusPresent := by
  have h : (run (step sampleModule) {} sampleActions).isSome := by decide +kernel
  obtain ⟨hok,hlisted,hcurrent,hnames⟩ :=
    clients_mirror documented_sample (Option.some_get h).symm
  exact ⟨_,(Option.some_get h).symm,hok,hlisted,hcurrent,hnames,by decide,by decide,
    by decide⟩

end Provider
end Camera
end Kitakami

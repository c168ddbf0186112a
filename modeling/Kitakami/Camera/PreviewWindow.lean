import Mathlib.Data.Finset.Basic
import Kitakami.Base.Runs
import Kitakami.Base.Monitor

/-!
# Buffers of the preview window

A client hands out its preview buffers under ids; the device imports a buffer
when it sees its id for the first time and gives the HAL the address of the
handle. The HAL gives that address back to enqueue or cancel the buffer. All
imported handles are freed when the buffers are to be allocated anew.
-/

namespace Kitakami
namespace Camera
namespace Preview

open Runs Monitor

/-- A `buffer_handle_t *`, the address of a value of `mCirculatingBuffers`. -/
abbrev Ptr := ℕ

/-- What `sHandleImporter` makes of a buffer. -/
abbrev Imported := ℕ

/-- An entry of `mCirculatingBuffers`. -/
structure Buffer where
  bufferId : ℕ
  ptr : Ptr
  importedBuf : Imported
  deriving DecidableEq

/-- Calls of the client; `W` names clients, `B` the buffers they send. -/
inductive Event (W B : Type)
  | dequeued (window : W) (bufferId : ℕ) (buf : B) (ptr : Ptr)
  | enqueued (window : W) (bufferId : ℕ) (ptr : Ptr)
  | canceled (window : W) (bufferId : ℕ) (ptr : Ptr)
  | cleaned
  deriving DecidableEq

/-- `imports` are the handles not yet freed, `content` the buffers they were made of. -/
structure State (W B : Type) where
  mPreviewCallback : Option W := none
  mCirculatingBuffers : List Buffer := []
  mBufferIdMap : Ptr → Option ℕ := fun _ => none
  imports : Finset Imported := ∅
  content : Imported → Option B := fun _ => none
  destroyed : Bool := false
  log : List (Event W B) := []

/-- `freeBuffer` of every handle; a handle that is not imported must not be freed. -/
def freeBuffers : List Buffer → Finset Imported → Option (Finset Imported)
  | [], imports => some imports
  | b::bs, imports =>
    if b.importedBuf ∈ imports then freeBuffers bs (imports.erase b.importedBuf) else none

/-- The answer to `dequeueBuffer`, and what the import and the map make of a new buffer. -/
structure Reply (B : Type) where
  bufferId : ℕ
  buf : B
  ptr : Ptr
  importedBuf : Option Imported

namespace State

variable {W B : Type} (s : State W B)

def find (bufferId : ℕ) : Option Buffer :=
  s.mCirculatingBuffers.find? fun b => b.bufferId == bufferId

/-- New addresses and handles are none in use. -/
def Fresh (reply : Reply B) : Prop :=
  (∀ b ∈ s.mCirculatingBuffers, b.ptr ≠ reply.ptr) ∧ ∀ h ∈ reply.importedBuf, h ∉ s.imports

instance (reply : Reply B) : Decidable (s.Fresh reply) := by
  unfold Fresh
  infer_instance

def cleanUpCirculatingBuffers : Option (State W B) :=
  (freeBuffers s.mCirculatingBuffers s.imports).map fun imports =>
    {s with
      mCirculatingBuffers := [], mBufferIdMap := fun _ => none, imports := imports,
      log := s.log ++ [.cleaned]}

/-- With no reply the client reports an error. -/
def sDequeueBuffer (reply : Option (Reply B)) : Option (State W B) :=
  match s.mPreviewCallback, reply with
  | none, _ => some s
  | some _, none => some s
  | some window, some reply =>
    match s.find reply.bufferId with
    | some b => some {s with log := s.log ++ [.dequeued window reply.bufferId reply.buf b.ptr]}
    | none =>
      if ¬ s.Fresh reply then none
      else match reply.importedBuf with
        | none => some s
        | some h => some {s with
            mCirculatingBuffers := ⟨reply.bufferId,reply.ptr,h⟩::s.mCirculatingBuffers,
            mBufferIdMap := Function.update s.mBufferIdMap reply.ptr (some reply.bufferId),
            imports := insert h s.imports,
            content := Function.update s.content h (some reply.buf),
            log := s.log ++ [.dequeued window reply.bufferId reply.buf reply.ptr]}

/-- `at` throws if there is no entry. -/
def giveBack (event : W → ℕ → Ptr → Event W B) (buffer : Ptr) : Option (State W B) :=
  match s.mPreviewCallback with
  | none => some s
  | some window => (s.mBufferIdMap buffer).map fun bufferId =>
      {s with log := s.log ++ [event window bufferId buffer]}

def sEnqueueBuffer (buffer : Ptr) : Option (State W B) := s.giveBack .enqueued buffer

def sCancelBuffer (buffer : Ptr) : Option (State W B) := s.giveBack .canceled buffer

/-- `sSetBufferCount`, `sSetBuffersGeometry` and `sSetUsage`. -/
def reallocate : Option (State W B) :=
  match s.mPreviewCallback with
  | none => some s
  | some _ => s.cleanUpCirculatingBuffers

end State

inductive Action (W B : Type)
  | setPreviewWindow (window : Option W)
  | dequeueBuffer (reply : Option (Reply B))
  | enqueueBuffer (buffer : Ptr)
  | cancelBuffer (buffer : Ptr)
  | reallocate
  | destroy

variable {W B : Type}

def step (s : State W B) (a : Action W B) : Option (State W B) :=
  if s.destroyed then none
  else match a with
    | .setPreviewWindow window => some {s with mPreviewCallback := window}
    | .dequeueBuffer reply => s.sDequeueBuffer reply
    | .enqueueBuffer buffer => s.sEnqueueBuffer buffer
    | .cancelBuffer buffer => s.sCancelBuffer buffer
    | .reallocate => s.reallocate
    | .destroy => s.cleanUpCirculatingBuffers.map fun s => {s with destroyed := true}

/-! ## What the HAL knows -/

/-- The buffers handed out since the last clean-up: for an address the id, and the buffer that was
sent with it first. -/
abbrev Given (B : Type) := Ptr → Option (ℕ × B)

def Given.next (g : Given B) : Event W B → Given B
  | .dequeued _ bufferId buf ptr => Function.update g ptr (some ((g ptr).getD (bufferId,buf)))
  | .cleaned => fun _ => none
  | _ => g

/-- An address stands for one id and an id for one address, and what is given back goes back under
the id it came with. -/
def Given.Ok (g : Given B) : Event W B → Prop
  | .dequeued _ bufferId _ ptr =>
    ∀ p i b, g p = some (i,b) → (p = ptr ↔ i = bufferId)
  | .enqueued _ bufferId ptr => (g ptr).map Prod.fst = some bufferId
  | .canceled _ bufferId ptr => (g ptr).map Prod.fst = some bufferId
  | .cleaned => True

/-- The maps of the device are inverse to each other and hold what the HAL was given; every handle
that is imported and not freed is the handle of one entry. -/
structure Kept (s : State W B) (g : Given B) : Prop where
  given : ∀ p i b, g p = some (i,b) ↔
    ∃ h, ⟨i,p,h⟩ ∈ s.mCirculatingBuffers ∧ s.content h = some b
  content : ∀ b ∈ s.mCirculatingBuffers, (s.content b.importedBuf).isSome
  back : ∀ p, s.mBufferIdMap p = (g p).map Prod.fst
  ids : (s.mCirculatingBuffers.map Buffer.bufferId).Nodup
  ptrs : (s.mCirculatingBuffers.map Buffer.ptr).Nodup
  handles : (s.mCirculatingBuffers.map Buffer.importedBuf).Nodup
  imports : ∀ h, h ∈ s.imports ↔ ∃ b ∈ s.mCirculatingBuffers, b.importedBuf = h

variable {s s' : State W B} {g : Given B} {p : Ptr}

theorem kept_start : Kept ({} : State W B) fun _ => none where
  given := by simp
  content := by simp
  back := fun _ => rfl
  ids := List.nodup_nil
  ptrs := List.nodup_nil
  handles := List.nodup_nil
  imports := by simp

/-- What is not about the buffers does not matter. -/
theorem Kept.congr (h : Kept s g) (hbuffers : s'.mCirculatingBuffers = s.mCirculatingBuffers)
    (hmap : s'.mBufferIdMap = s.mBufferIdMap) (himports : s'.imports = s.imports)
    (hcontent : s'.content = s.content) : Kept s' g where
  given := by rw [hbuffers,hcontent]; exact h.given
  content := by rw [hbuffers,hcontent]; exact h.content
  back := by rw [hmap]; exact h.back
  ids := by rw [hbuffers]; exact h.ids
  ptrs := by rw [hbuffers]; exact h.ptrs
  handles := by rw [hbuffers]; exact h.handles
  imports := by rw [hbuffers,himports]; exact h.imports

/-- Each handle is freed once, and none is left. -/
theorem freeBuffers_eq {bs : List Buffer} {imports : Finset Imported}
    (hn : (bs.map Buffer.importedBuf).Nodup)
    (h : ∀ i, i ∈ imports ↔ ∃ b ∈ bs, b.importedBuf = i) : freeBuffers bs imports = some ∅ := by
  induction bs generalizing imports with
  | nil => simpa [freeBuffers,Finset.eq_empty_iff_forall_notMem] using h
  | cons b bs ih =>
    rw [List.map_cons,List.nodup_cons] at hn
    rw [freeBuffers,if_pos ((h _).mpr ⟨b,List.mem_cons_self,rfl⟩)]
    refine ih hn.2 fun i => ?_
    rw [Finset.mem_erase,h]
    constructor
    · rintro ⟨hne,c,hc,rfl⟩
      rcases List.mem_cons.mp hc with rfl | hc
      · exact absurd rfl hne
      · exact ⟨c,hc,rfl⟩
    · rintro ⟨c,hc,rfl⟩
      refine ⟨fun he => hn.1 ?_,c,List.mem_cons_of_mem b hc,rfl⟩
      rw [← he]
      exact List.mem_map_of_mem hc

theorem Kept.cleanUp (h : Kept s g) : s.cleanUpCirculatingBuffers = some {s with
    mCirculatingBuffers := [], mBufferIdMap := fun _ => none, imports := ∅,
    log := s.log ++ [.cleaned]} := by
  rw [State.cleanUpCirculatingBuffers,freeBuffers_eq h.handles h.imports]
  rfl

theorem kept_cleaned (s : State W B) (log : List (Event W B)) (destroyed : Bool) : Kept {s with
    mCirculatingBuffers := [], mBufferIdMap := fun _ => none, imports := ∅, log := log,
    destroyed := destroyed} fun _ => none where
  given := by simp
  content := by simp
  back := fun _ => rfl
  ids := List.nodup_nil
  ptrs := List.nodup_nil
  handles := List.nodup_nil
  imports := by simp

/-- The entries of the addresses that were given. -/
theorem Kept.entry (h : Kept s g) {i : ℕ} {x : B} (hp : g p = some (i,x)) :
    ∃ b ∈ s.mCirculatingBuffers, b.ptr = p ∧ b.bufferId = i := by
  obtain ⟨handle,hb,-⟩ := (h.given p i x).mp hp
  exact ⟨_,hb,rfl,rfl⟩

/-- What a step adds to the log is what the HAL may see. -/
def Sound (s s' : State W B) (g : Given B) : Prop :=
  ∃ es, s'.log = s.log ++ es ∧ Accepts Given.next Given.Ok g es ∧
    Kept s' (watch Given.next g es)

theorem Kept.quiet (h : Kept s g) : Sound s s g := ⟨[],(List.append_nil _).symm,trivial,h⟩

/-- A buffer that was seen before is handed out at its old address. -/
theorem Kept.dequeueKnown (h : Kept s g) {reply : Reply B} {b : Buffer} {window : W}
    (hb : b ∈ s.mCirculatingBuffers) (hid : b.bufferId = reply.bufferId) :
    Sound s {s with log := s.log ++ [.dequeued window reply.bufferId reply.buf b.ptr]} g := by
  obtain ⟨buf,hbuf⟩ := Option.isSome_iff_exists.mp (h.content b hb)
  have hg : g b.ptr = some (b.bufferId,buf) := (h.given _ _ _).mpr ⟨b.importedBuf,hb,hbuf⟩
  refine ⟨[_],rfl,⟨?_,trivial⟩,?_⟩
  · intro p i x hp
    obtain ⟨c,hc,rfl,rfl⟩ := h.entry hp
    rw [← hid]
    constructor
    · intro he
      rw [List.inj_on_of_nodup_map h.ptrs hc hb he]
    · intro he
      rw [List.inj_on_of_nodup_map h.ids hc hb he]
  · have hsame : Function.update g b.ptr (some ((g b.ptr).getD (reply.bufferId,reply.buf))) = g := by
      rw [hg,Option.getD_some,← hg,Function.update_eq_self]
    rw [watch_cons,watch_nil,Given.next,hsame]
    exact h.congr rfl rfl rfl rfl

/-- A new buffer is imported and gets an address of its own. -/
theorem Kept.dequeueNew (h : Kept s g) {reply : Reply B} {handle : Imported} {window : W}
    (hnew : ∀ b ∈ s.mCirculatingBuffers, b.bufferId ≠ reply.bufferId) (hfresh : s.Fresh reply)
    (hhandle : reply.importedBuf = some handle) :
    Sound s {s with
      mCirculatingBuffers := ⟨reply.bufferId,reply.ptr,handle⟩::s.mCirculatingBuffers,
      mBufferIdMap := Function.update s.mBufferIdMap reply.ptr (some reply.bufferId),
      imports := insert handle s.imports,
      content := Function.update s.content handle (some reply.buf),
      log := s.log ++ [.dequeued window reply.bufferId reply.buf reply.ptr]} g := by
  obtain ⟨hptr,hunused⟩ := hfresh
  have hout : handle ∉ s.imports := hunused handle hhandle
  have hother : ∀ b ∈ s.mCirculatingBuffers, b.importedBuf ≠ handle := by
    rintro b hb rfl
    exact hout ((h.imports _).mpr ⟨b,hb,rfl⟩)
  have hnone : g reply.ptr = none := by
    by_contra hne
    obtain ⟨⟨i,x⟩,hg⟩ := Option.ne_none_iff_exists'.mp hne
    obtain ⟨b,hb,he,-⟩ := h.entry hg
    exact hptr b hb he
  refine ⟨[_],rfl,⟨?_,trivial⟩,?_⟩
  · intro p i x hp
    obtain ⟨b,hb,rfl,rfl⟩ := h.entry hp
    exact iff_of_false (hptr b hb) (hnew b hb)
  · rw [watch_cons,watch_nil,Given.next,hnone,Option.getD_none]
    refine { given := fun p i x => ?_, content := fun b hb => ?_, back := fun p => ?_,
             ids := ?_, ptrs := ?_, handles := ?_, imports := fun k => ?_ }
    · by_cases hp : p = reply.ptr
      · subst hp
        simp only [Function.update_self,Option.some.injEq,Prod.mk.injEq,List.mem_cons]
        constructor
        · rintro ⟨rfl,rfl⟩
          exact ⟨handle,Or.inl rfl,Function.update_self _ _ _⟩
        · rintro ⟨k,hk | hk,hx⟩
          · obtain ⟨rfl,-,rfl⟩ := Buffer.mk.inj hk
            rw [Function.update_self] at hx
            exact ⟨rfl,Option.some.inj hx⟩
          · exact absurd rfl (hptr _ hk)
      · rw [Function.update_of_ne hp,h.given]
        constructor
        · rintro ⟨k,hk,hx⟩
          exact ⟨k,List.mem_cons_of_mem _ hk,(Function.update_of_ne (hother _ hk) _ _).trans hx⟩
        · rintro ⟨k,hk,hx⟩
          rcases List.mem_cons.mp hk with hk | hk
          · exact absurd (Buffer.mk.inj hk).2.1 hp
          · exact ⟨k,hk,(Function.update_of_ne (hother _ hk) _ _).symm.trans hx⟩
    · rcases List.mem_cons.mp hb with rfl | hb
      · simp
      · simp only [Function.update_of_ne (hother b hb)]
        exact h.content b hb
    · by_cases hp : p = reply.ptr
      · subst hp
        simp
      · simp only [Function.update_of_ne hp]
        exact h.back p
    · refine List.nodup_cons.mpr ⟨fun hm => ?_,h.ids⟩
      obtain ⟨b,hb,he⟩ := List.mem_map.mp hm
      exact hnew b hb he
    · refine List.nodup_cons.mpr ⟨fun hm => ?_,h.ptrs⟩
      obtain ⟨b,hb,he⟩ := List.mem_map.mp hm
      exact hptr b hb he
    · refine List.nodup_cons.mpr ⟨fun hm => ?_,h.handles⟩
      obtain ⟨b,hb,he⟩ := List.mem_map.mp hm
      exact hother b hb he
    · simp only [Finset.mem_insert,h.imports,List.mem_cons,exists_eq_or_imp]
      exact or_congr_left eq_comm

theorem Kept.sDequeueBuffer (h : Kept s g) {reply : Option (Reply B)}
    (hs : s.sDequeueBuffer reply = some s') : Sound s s' g := by
  unfold State.sDequeueBuffer at hs
  split at hs
  case h_1 =>
    obtain rfl := Option.some.inj hs
    exact h.quiet
  case h_2 =>
    obtain rfl := Option.some.inj hs
    exact h.quiet
  case h_3 window reply hw =>
    split at hs
    case h_1 b hfind =>
      obtain rfl := Option.some.inj hs
      exact h.dequeueKnown (List.mem_of_find?_eq_some hfind)
        (by simpa using List.find?_some hfind)
    case h_2 hfind =>
      have hnew : ∀ b ∈ s.mCirculatingBuffers, b.bufferId ≠ reply.bufferId := fun b hb => by
        simpa using List.find?_eq_none.mp hfind b hb
      split at hs
      · cases hs
      · rename_i hfresh
        split at hs
        case h_1 =>
          obtain rfl := Option.some.inj hs
          exact h.quiet
        case h_2 handle hhandle =>
          obtain rfl := Option.some.inj hs
          exact h.dequeueNew hnew (not_not.mp hfresh) hhandle

theorem Kept.giveBack (h : Kept s g) {event : W → ℕ → Ptr → Event W B}
    (hok : ∀ window i p, Given.Ok g (event window i p) ↔ (g p).map Prod.fst = some i)
    (hnext : ∀ window i p, Given.next g (event window i p) = g)
    (hs : s.giveBack event p = some s') : Sound s s' g := by
  unfold State.giveBack at hs
  split at hs
  case h_1 =>
    obtain rfl := Option.some.inj hs
    exact h.quiet
  case h_2 window hw =>
    obtain ⟨i,hi,rfl⟩ := Option.map_eq_some_iff.mp hs
    refine ⟨[_],rfl,⟨(hok window i p).mpr (h.back p ▸ hi),trivial⟩,?_⟩
    rw [watch_cons,watch_nil,hnext]
    exact h.congr rfl rfl rfl rfl

theorem Kept.step (h : Kept s g) {a : Action W B} (hs : step s a = some s') : Sound s s' g := by
  unfold Preview.step at hs
  split at hs
  · cases hs
  cases a with
  | setPreviewWindow window =>
    obtain rfl := Option.some.inj hs
    exact ⟨[],(List.append_nil _).symm,trivial,h.congr rfl rfl rfl rfl⟩
  | dequeueBuffer reply => exact h.sDequeueBuffer hs
  | enqueueBuffer buffer => exact h.giveBack (fun _ _ _ => Iff.rfl) (fun _ _ _ => rfl) hs
  | cancelBuffer buffer => exact h.giveBack (fun _ _ _ => Iff.rfl) (fun _ _ _ => rfl) hs
  | reallocate =>
    simp only [State.reallocate,h.cleanUp] at hs
    split at hs
    · obtain rfl := Option.some.inj hs
      exact h.quiet
    · obtain rfl := Option.some.inj hs
      exact ⟨[.cleaned],rfl,⟨trivial,trivial⟩,kept_cleaned s _ _⟩
  | destroy =>
    simp only [h.cleanUp,Option.map_some,Option.some.injEq] at hs
    subst hs
    exact ⟨[.cleaned],rfl,⟨trivial,trivial⟩,kept_cleaned s _ _⟩

theorem run_kept {as : List (Action W B)} (hr : run step {} as = some s) :
    Accepts Given.next Given.Ok (fun _ => none) s.log ∧
      Kept s (watch Given.next (fun _ => none) s.log) := by
  refine run_invariant (G:=fun _ _ => True) (I:=fun s =>
    Accepts Given.next Given.Ok (fun _ => none) s.log ∧
      Kept s (watch Given.next (fun _ => none) s.log)) ?_ ?_ (along_true _ as) hr
  · rintro s a s' ⟨hok,h⟩ - hs
    obtain ⟨es,hlog,hes,h'⟩ := h.step hs
    rw [hlog,accepts_append,watch_append]
    exact ⟨⟨hok,hes⟩,h'⟩
  · exact ⟨trivial,kept_start⟩

/-- No handle is left, nothing is handed out, and the HAL's addresses are forgotten. -/
structure Cleaned (s s' : State W B) : Prop where
  imports : s'.imports = ∅
  buffers : s'.mCirculatingBuffers = []
  back : ∀ p, s'.mBufferIdMap p = none
  log : s'.log = s.log ++ [.cleaned]

/-- Giving back goes wrong exactly for what the HAL was not given. -/
theorem Kept.giveBack_isSome (h : Kept s g) (event : W → ℕ → Ptr → Event W B)
    (hsome : s.mPreviewCallback.isSome) (p : Ptr) :
    (s.giveBack event p).isSome ↔ (g p).isSome := by
  obtain ⟨window,hw⟩ := Option.isSome_iff_exists.mp hsome
  simp only [State.giveBack,hw,Option.isSome_map,h.back]

/-- Between clean-ups an address always stands for one buffer, and goes back under the id it came
with; giving back an address from before the last clean-up is the one thing that goes wrong. Every
handle that is imported is freed once, and a clean-up leaves none. -/
theorem preview_buffers {as : List (Action W B)} (hr : run step {} as = some s) :
    Accepts Given.next Given.Ok (fun _ => none) s.log ∧
    (∀ p i x, watch Given.next (fun _ => none) s.log p = some (i,x) ↔
      ∃ h, ⟨i,p,h⟩ ∈ s.mCirculatingBuffers ∧ s.content h = some x) ∧
    (∀ h, h ∈ s.imports ↔ ∃! b, b ∈ s.mCirculatingBuffers ∧ b.importedBuf = h) ∧
    (s.destroyed = false → (step s .reallocate).isSome ∧ (step s .destroy).isSome ∧
      (s.mPreviewCallback.isSome → ∃ s', step s .reallocate = some s' ∧ Cleaned s s') ∧
      (∃ s', step s .destroy = some s' ∧ Cleaned s s') ∧
      ∀ p, s.mPreviewCallback.isSome →
        ((step s (.enqueueBuffer p)).isSome ↔
          (watch Given.next (fun _ => none) s.log p).isSome) ∧
        ((step s (.cancelBuffer p)).isSome ↔
          (watch Given.next (fun _ => none) s.log p).isSome)) := by
  obtain ⟨hok,h⟩ := run_kept hr
  refine ⟨hok,h.given,fun k => ?_,fun halive => ?_⟩
  · rw [h.imports]
    constructor
    · rintro ⟨b,hb,rfl⟩
      exact ⟨b,⟨hb,rfl⟩,fun c ⟨hc,he⟩ => List.inj_on_of_nodup_map h.handles hc hb he⟩
    · rintro ⟨b,⟨hb,rfl⟩,-⟩
      exact ⟨b,hb,rfl⟩
  · simp only [Preview.step,halive,Bool.false_eq_true,if_false]
    refine ⟨?_,?_,fun hsome => ?_,?_,fun p hsome => ⟨?_,?_⟩⟩
    · rw [State.reallocate,h.cleanUp]
      split <;> rfl
    · rw [h.cleanUp]
      rfl
    · obtain ⟨window,hw⟩ := Option.isSome_iff_exists.mp hsome
      have hs : s.reallocate = s.cleanUpCirculatingBuffers := by rw [State.reallocate,hw]
      exact ⟨_,hs.trans h.cleanUp,rfl,rfl,fun _ => rfl,rfl⟩
    · exact ⟨_,congrArg (Option.map _) h.cleanUp,rfl,rfl,fun _ => rfl,rfl⟩
    · exact h.giveBack_isSome .enqueued hsome p
    · exact h.giveBack_isSome .canceled hsome p

/-- Two buffers, one of them handed out again after all were freed. -/
def sampleActions : List (Action String String) :=
  [.setPreviewWindow (some "view"),.dequeueBuffer (some ⟨1,"a",100,some 7⟩),
    .dequeueBuffer (some ⟨2,"b",200,some 8⟩),.enqueueBuffer 100,
    .dequeueBuffer (some ⟨1,"",300,some 9⟩),.cancelBuffer 100,.enqueueBuffer 200,.reallocate,
    .dequeueBuffer (some ⟨2,"c",100,some 7⟩),.enqueueBuffer 100]

theorem preview_buffers_sample : ∃ s, run step {} sampleActions = some s ∧
    Accepts Given.next Given.Ok (fun _ => none) s.log ∧
    (∀ p i x, watch Given.next (fun _ => none) s.log p = some (i,x) ↔
      ∃ h, ⟨i,p,h⟩ ∈ s.mCirculatingBuffers ∧ s.content h = some x) ∧
    (∀ h, h ∈ s.imports ↔ ∃! b, b ∈ s.mCirculatingBuffers ∧ b.importedBuf = h) ∧
    (s.destroyed = false → (step s .reallocate).isSome ∧ (step s .destroy).isSome ∧
      (s.mPreviewCallback.isSome → ∃ s', step s .reallocate = some s' ∧ Cleaned s s') ∧
      (∃ s', step s .destroy = some s' ∧ Cleaned s s') ∧
      ∀ p, s.mPreviewCallback.isSome →
        ((step s (.enqueueBuffer p)).isSome ↔
          (watch Given.next (fun _ => none) s.log p).isSome) ∧
        ((step s (.cancelBuffer p)).isSome ↔
          (watch Given.next (fun _ => none) s.log p).isSome)) ∧
    s.log = [.dequeued "view" 1 "a" 100,.dequeued "view" 2 "b" 200,.enqueued "view" 1 100,
      .dequeued "view" 1 "" 100,.canceled "view" 1 100,.enqueued "view" 2 200,.cleaned,
      .dequeued "view" 2 "c" 100,.enqueued "view" 2 100] := by
  have hrun : (run step {} sampleActions).map State.log =
      some [.dequeued "view" 1 "a" 100,.dequeued "view" 2 "b" 200,.enqueued "view" 1 100,
        .dequeued "view" 1 "" 100,.canceled "view" 1 100,.enqueued "view" 2 200,.cleaned,
        .dequeued "view" 2 "c" 100,.enqueued "view" 2 100] := by
    decide
  obtain ⟨s,hs,hlog⟩ := Option.map_eq_some_iff.mp hrun
  obtain ⟨hok,hgiven,himports,halive⟩ := preview_buffers hs
  exact ⟨s,hs,hok,hgiven,himports,halive,hlog⟩

end Preview
end Camera
end Kitakami

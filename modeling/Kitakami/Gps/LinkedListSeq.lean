import Kitakami.Gps.LinkedList

/-!
# Linked lists as sequences

The head, the tail and the links of a list are one circle through the null
pointer. Every operation keeps it and does to the sequence of items what its
name says: `add` puts one in front, `remove` takes the last, a search with
removal takes the first match out, and `flush` leaves nothing.
-/

namespace Kitakami
namespace LinkedList

open Links

variable {D σ : Type} {s s' : ListState D} {as : List Addr} {l : List (Item D)} {a : Addr} {p v : Ptr}

namespace ListState

/-- The link fields; those of the null pointer are the head and the tail. -/
def links (s : ListState D) : Links Ptr where
  next
    | none => s.pHead
    | some a => (s.heap a).bind ListElement.next
  prev
    | none => s.pTail
    | some a => (s.heap a).bind ListElement.prev

def item (s : ListState D) (a : Addr) : Option (Item D) := (s.heap a).map ListElement.toItem

end ListState

/-- The list consists of the elements at `as`, and these are all that are
allocated. -/
structure Represents (s : ListState D) (as : List Addr) (l : List (Item D)) : Prop where
  circle : s.links.Circle none (as.map some)
  items : as.map s.item = l.map some
  allocated : ∀ a, (s.item a).isSome → a ∈ as
  bounded : as.length ≤ s.allocs

theorem represents_empty : Represents ({} : ListState D) [] [] :=
  ⟨circle_nil rfl rfl,rfl,by simp [ListState.item],Nat.le_refl 0⟩

/-! ## Writing links -/

/-- Only the links have changed, to `k`. -/
structure Relinked (s s' : ListState D) (k : Links Ptr) : Prop where
  links : s'.links = k
  item : s'.item = s.item
  allocs : s'.allocs = s.allocs
  dealloced : s'.dealloced = s.dealloced

theorem deref_spec (h : (s.item a).isSome) : ∃ e, s.deref (some a) = some e ∧
    s.links.next (some a) = e.next ∧ s.links.prev (some a) = e.prev ∧ s.item a = some e.toItem := by
  obtain ⟨e,he⟩ : ∃ e, s.heap a = some e := by simpa [ListState.item,Option.isSome_iff_exists] using h
  exact ⟨e,by simp [ListState.deref,he],by simp [ListState.links,he],by simp [ListState.links,he],
    by simp [ListState.item,he]⟩

theorem store_spec {e : ListElement D} (e' : ListElement D) (h : s.heap a = some e) (he : e'.toItem = e.toItem) :
    ∃ s', s.store (some a) e' = some s' ∧ Relinked s s'
      ⟨Function.update s.links.next (some a) e'.next,Function.update s.links.prev (some a) e'.prev⟩ := by
  refine ⟨{ s with heap := Function.update s.heap a (some e') },by simp [ListState.store,h],?_,?_,rfl,rfl⟩
  · ext p q <;> rcases p with _ | b
    · simp [ListState.links]
    · by_cases hb : b = a <;> simp [ListState.links,Function.update_apply,hb]
    · simp [ListState.links]
    · by_cases hb : b = a <;> simp [ListState.links,Function.update_apply,hb]
  · funext b
    by_cases hb : b = a <;> simp [ListState.item,hb,h,he]

theorem setNext_spec (h : (s.item a).isSome) : ∃ s', s.setNext (some a) v = some s' ∧
    Relinked s s' { s.links with next := Function.update s.links.next (some a) v } := by
  obtain ⟨e,he⟩ : ∃ e, s.heap a = some e := by simpa [ListState.item,Option.isSome_iff_exists] using h
  obtain ⟨s',hs,hr⟩ := store_spec { e with next := v } he rfl
  have hprev : s.links.prev (some a) = e.prev := by simp [ListState.links,he]
  refine ⟨s',by simp [ListState.setNext,ListState.deref,he,hs],?_⟩
  rwa [← hprev,Function.update_eq_self] at hr

theorem setPrev_spec (h : (s.item a).isSome) : ∃ s', s.setPrev (some a) v = some s' ∧
    Relinked s s' { s.links with prev := Function.update s.links.prev (some a) v } := by
  obtain ⟨e,he⟩ : ∃ e, s.heap a = some e := by simpa [ListState.item,Option.isSome_iff_exists] using h
  obtain ⟨s',hs,hr⟩ := store_spec { e with prev := v } he rfl
  have hnext : s.links.next (some a) = e.next := by simp [ListState.links,he]
  refine ⟨s',by simp [ListState.setPrev,ListState.deref,he,hs],?_⟩
  rwa [← hnext,Function.update_eq_self] at hr

theorem setHead_relinked : Relinked s { s with pHead := v }
    { s.links with next := Function.update s.links.next none v } := by
  refine ⟨?_,rfl,rfl,rfl⟩
  ext p q <;> cases p <;> simp [ListState.links]

theorem setTail_relinked : Relinked s { s with pTail := v }
    { s.links with prev := Function.update s.links.prev none v } := by
  refine ⟨?_,rfl,rfl,rfl⟩
  ext p q <;> cases p <;> simp [ListState.links]

/-- The field `next` of `p`, or the head where `p` is null. -/
theorem nextOrHead_spec (h : ∀ a, p = some a → (s.item a).isSome) :
    ∃ s', (if p = none then some { s with pHead := v } else s.setNext p v) = some s' ∧
      Relinked s s' { s.links with next := Function.update s.links.next p v } := by
  cases p with
  | none => exact ⟨_,rfl,setHead_relinked⟩
  | some a => simpa using setNext_spec (h a rfl)

/-- The field `prev` of `p`, or the tail where `p` is null. -/
theorem prevOrTail_spec (h : ∀ a, p = some a → (s.item a).isSome) :
    ∃ s', (if p = none then some { s with pTail := v } else s.setPrev p v) = some s' ∧
      Relinked s s' { s.links with prev := Function.update s.links.prev p v } := by
  cases p with
  | none => exact ⟨_,rfl,setTail_relinked⟩
  | some a => simpa using setPrev_spec (h a rfl)

theorem free_spec (h : (s.item a).isSome) : ∃ s', s.free (some a) = some s' ∧
    s'.links = ⟨Function.update s.links.next (some a) none,Function.update s.links.prev (some a) none⟩ ∧
    s'.item = Function.update s.item a none ∧ s'.allocs = s.allocs ∧ s'.dealloced = s.dealloced := by
  have he : (s.heap a).isSome := by simpa [ListState.item] using h
  refine ⟨{ s with heap := Function.update s.heap a none },by simp [ListState.free,he],?_,?_,rfl,rfl⟩
  · ext p q <;> rcases p with _ | b
    · simp [ListState.links]
    · by_cases hb : b = a <;> simp [ListState.links,Function.update_apply,hb]
    · simp [ListState.links]
    · by_cases hb : b = a <;> simp [ListState.links,Function.update_apply,hb]
  · funext b
    by_cases hb : b = a <;> simp [ListState.item,hb]

/-! ## The elements of a list -/

theorem head?_map_some_append (as : List Addr) : (as.map some ++ [none]).head? = some as.head? := by
  cases as <;> rfl

theorem getLast?_none_cons_map_some (as : List Addr) :
    ((none : Ptr)::as.map some).getLast? = some as.getLast? := by
  rcases List.eq_nil_or_concat as with rfl | ⟨as,a,rfl⟩
  · rfl
  · rw [List.concat_eq_append,List.map_append,← List.cons_append,List.map_singleton,
      List.getLast?_concat,List.getLast?_concat]

namespace Represents

theorem length_eq (h : Represents s as l) : as.length = l.length := by
  simpa using congrArg List.length h.items

theorem nodup (h : Represents s as l) : as.Nodup :=
  (List.nodup_cons.mp h.circle.nodup).2.of_map some

theorem isSome_of_mem (h : Represents s as l) (ha : a ∈ as) : (s.item a).isSome := by
  have hmem : s.item a ∈ l.map some := h.items ▸ List.mem_map_of_mem ha
  obtain ⟨i,-,hi⟩ := List.mem_map.mp hmem
  simp [← hi]

theorem pHead_eq (h : Represents s as l) : s.pHead = as.head? := by
  have hn := h.circle.next_self
  rw [head?_map_some_append] at hn
  exact (Option.some.inj hn).symm

theorem pTail_eq (h : Represents s as l) : s.pTail = as.getLast? := by
  have hp := h.circle.prev_self
  rw [getLast?_none_cons_map_some] at hp
  exact (Option.some.inj hp).symm

variable {as₁ as₂ : List Addr}

theorem next_eq (h : Represents s (as₁ ++ a::as₂) l) : s.links.next (some a) = as₂.head? := by
  have hn := Circle.next_mid (u:=as₁.map some) (v:=as₂.map some) (by simpa using h.circle)
  rw [head?_map_some_append] at hn
  exact (Option.some.inj hn).symm

theorem prev_eq (h : Represents s (as₁ ++ a::as₂) l) : s.links.prev (some a) = as₁.getLast? := by
  have hp := Circle.prev_mid (u:=as₁.map some) (v:=as₂.map some) (by simpa using h.circle)
  rw [getLast?_none_cons_map_some] at hp
  exact (Option.some.inj hp).symm

/-- The element at a place of the list. -/
theorem heap_eq (h : Represents s (as₁ ++ a::as₂) l) {l₁ l₂ : List (Item D)} {i : Item D}
    (hl : l = l₁ ++ i::l₂) (hlen : as₁.length = l₁.length) :
    s.heap a = some ⟨i,as₂.head?,as₁.getLast?⟩ := by
  have hitem : s.item a = some i := by
    have hi := h.items
    rw [hl,List.map_append,List.map_append,List.map_cons,List.map_cons] at hi
    have hi' := (List.append_inj hi (by simpa using hlen)).2
    exact (List.cons.inj hi').1
  obtain ⟨e,he,hei⟩ : ∃ e, s.heap a = some e ∧ e.toItem = i := by
    simpa [ListState.item] using hitem
  have hn := h.next_eq
  have hp := h.prev_eq
  simp only [ListState.links,he,Option.bind_some] at hn hp
  obtain ⟨_,next,prev⟩ := e
  subst hei hn hp
  exact he

end Represents

/-- An element that is no longer in the list is freed. -/
theorem represents_free (hc : s.links.Circle none (as.map some)) (hi : as.map s.item = l.map some)
    (ha : a ∉ as) (hsome : (s.item a).isSome) (hall : ∀ b, (s.item b).isSome → b = a ∨ b ∈ as)
    (hb : as.length ≤ s.allocs) :
    ∃ s', s.free (some a) = some s' ∧ Represents s' as l ∧ s'.dealloced = s.dealloced := by
  obtain ⟨s',hs,hlinks,hitem,hallocs,hd⟩ := free_spec hsome
  refine ⟨s',hs,⟨?_,?_,?_,by rwa [hallocs]⟩,hd⟩
  · refine hc.congr fun x hx => ?_
    have hx' : x ≠ some a := by
      rintro rfl
      simp [ha] at hx
    rw [hlinks]
    exact ⟨Function.update_of_ne hx' _ _,Function.update_of_ne hx' _ _⟩
  · rw [← hi]
    refine List.map_congr_left fun b hb => ?_
    rw [hitem,Function.update_of_ne (by rintro rfl; exact ha hb)]
  · intro b hb
    rw [hitem] at hb
    by_cases hba : b = a
    · simp [hba] at hb
    · rw [Function.update_of_ne hba] at hb
      exact (hall b hb).resolve_left hba

/-! ## Adding -/

/-- A new element is the head, and has no links yet. -/
theorem allocHead_spec (a : Addr) (i : Item D) :
    ({ s.alloc a ⟨i,none,none⟩ with pHead := some a } : ListState D).item =
      Function.update s.item a (some i) ∧
    ({ s.alloc a ⟨i,none,none⟩ with pHead := some a } : ListState D).links =
      ⟨Function.update (Function.update s.links.next (some a) none) none (some a),
        Function.update s.links.prev (some a) none⟩ := by
  constructor
  · funext b
    by_cases hb : b = a <;> simp [ListState.item,ListState.alloc,hb]
  · ext p q <;> rcases p with _ | b
    · simp [ListState.links]
    · by_cases hb : b = a <;> simp [ListState.links,ListState.alloc,Function.update_apply,hb]
    · simp [ListState.links,ListState.alloc]
    · by_cases hb : b = a <;> simp [ListState.links,ListState.alloc,Function.update_apply,hb]

theorem linkedListAdd_spec (h : Represents s as l) (ha : s.heap a = none) (d : D) (f : Bool) :
    ∃ s', linkedListAdd s (some d) f (some a) = some (.success,s') ∧
      Represents s' (a::as) (⟨d,f⟩::l) ∧ s'.dealloced = s.dealloced := by
  have hnone : s.item a = none := by simp [ListState.item,ha]
  have hmem : a ∉ as := fun hmem => by simpa [hnone] using h.isSome_of_mem hmem
  -- the state in which the links are written
  set s₀ : ListState D := { s.alloc a ⟨⟨d,f⟩,none,none⟩ with pHead := some a } with hs₀
  obtain ⟨hitem₀,hlinks₀⟩ : s₀.item = _ ∧ s₀.links = _ := allocHead_spec a ⟨d,f⟩
  obtain ⟨s₁,hs₁,hr₁⟩ := setNext_spec (s:=s₀) (a:=a) (v:=s.pHead) (by simp [hitem₀])
  obtain ⟨s₂,hs₂,hr₂⟩ := prevOrTail_spec (s:=s₁) (p:=s.pHead) (v:=some a) (by
    intro b hb
    have hbm : b ∈ as := List.mem_of_mem_head? (h.pHead_eq ▸ hb)
    have hba : b ≠ a := by rintro rfl; exact hmem hbm
    rw [hr₁.item,hitem₀,Function.update_of_ne hba]
    exact h.isSome_of_mem hbm)
  have hrun : linkedListAdd s (some d) f (some a) = some (.success,s₂) := by
    have hpHead : s₁.pHead = some a := by
      have := congrFun (congrArg Links.next hr₁.links) none
      simpa [ListState.links,hs₀] using this
    rw [← hpHead] at hs₂
    show (s₀.setNext s₀.pHead s.pHead).bind _ = _
    rw [show s₀.pHead = some a from rfl,hs₁,Option.bind_some]
    show (if s.pHead = none then some { s₁ with pTail := s₁.pHead }
      else s₁.setPrev s.pHead s₁.pHead).bind _ = _
    rw [hs₂]
    rfl
  refine ⟨s₂,hrun,⟨?_,?_,?_,?_⟩,by rw [hr₂.dealloced,hr₁.dealloced]; rfl⟩
  · have hpHead : s.links.next none = s.pHead := rfl
    have hins := Circle.insertBefore (u:=[]) (x:=some a) h.circle (by simpa using hmem)
      h.circle.next_self
    refine hins.congr fun x _ => ?_
    rw [hr₂.links,hr₁.links,hlinks₀,Links.insertBefore,h.circle.prev_next_self,hpHead]
    simp only [Links.join]
    refine ⟨?_,trivial⟩
    by_cases hx : x = some a <;> by_cases hx' : x = none <;> simp [hx,hx']
  · rw [hr₂.item,hr₁.item,hitem₀,List.map_cons,List.map_cons,Function.update_self,← h.items]
    congr 1
    refine List.map_congr_left fun b hb => ?_
    rw [Function.update_of_ne (by rintro rfl; exact hmem hb)]
  · intro b hb
    rw [hr₂.item,hr₁.item,hitem₀] at hb
    by_cases hba : b = a
    · simp [hba]
    · rw [Function.update_of_ne hba] at hb
      exact List.mem_cons_of_mem a (h.allocated b hb)
  · rw [hr₂.allocs,hr₁.allocs]
    exact Nat.succ_le_succ h.bounded

/-! ## Removing -/

theorem detach_spec {as₁ as₂ : List Addr} (h : Represents s (as₁ ++ a::as₂) l) :
    ∃ s', detach s (some a) = some s' ∧ s'.links.Circle none ((as₁ ++ as₂).map some) ∧
      s'.item = s.item ∧ s'.allocs = s.allocs ∧ s'.dealloced = s.dealloced := by
  have hall : ∀ b ∈ as₁ ++ a::as₂, (s.item b).isSome := fun b => h.isSome_of_mem
  have ha : (s.item a).isSome := hall a (by simp)
  have hnd := h.nodup
  have hprev_ne : as₁.getLast? ≠ some a := fun he =>
    (List.nodup_append.mp hnd).2.2 a (List.mem_of_mem_getLast? he) a List.mem_cons_self rfl
  -- the pointer of the node before
  obtain ⟨e,he,hen,hep,-⟩ := deref_spec ha
  obtain ⟨s₁,hs₁,hr₁⟩ := nextOrHead_spec (s:=s) (p:=e.prev) (v:=e.next) (by
    intro b hb
    rw [← hep,h.prev_eq] at hb
    exact hall b (List.mem_append_left _ (List.mem_of_mem_getLast? hb)))
  -- the pointer of the node after
  obtain ⟨e₁,he₁,hen₁,hep₁,-⟩ := deref_spec (s:=s₁) (a:=a) (by rwa [hr₁.item])
  have hnext₁ : e₁.next = e.next := by
    rw [← hen₁,hr₁.links,← hen]
    exact Function.update_of_ne (by rw [← hep,h.prev_eq]; exact hprev_ne.symm) _ _
  have hprev₁ : e₁.prev = e.prev := by rw [← hep₁,hr₁.links,← hep]
  obtain ⟨s₂,hs₂,hr₂⟩ := prevOrTail_spec (s:=s₁) (p:=e₁.next) (v:=e₁.prev) (by
    intro b hb
    rw [hnext₁,← hen,h.next_eq] at hb
    rw [hr₁.item]
    exact hall b (List.mem_append_right _ (List.mem_cons_of_mem a (List.mem_of_mem_head? hb))))
  -- the element's own pointers
  obtain ⟨s₃,hs₃,hr₃⟩ := setNext_spec (s:=s₂) (a:=a) (v:=none) (by rwa [hr₂.item,hr₁.item])
  obtain ⟨s₄,hs₄,hr₄⟩ := setPrev_spec (s:=s₃) (a:=a) (v:=none) (by
    rwa [hr₃.item,hr₂.item,hr₁.item])
  refine ⟨s₄,?_,?_,by rw [hr₄.item,hr₃.item,hr₂.item,hr₁.item],
    by rw [hr₄.allocs,hr₃.allocs,hr₂.allocs,hr₁.allocs],
    by rw [hr₄.dealloced,hr₃.dealloced,hr₂.dealloced,hr₁.dealloced]⟩
  · simp [detach,he,hs₁,he₁,hs₂,hs₃,hs₄]
  · have hc := Circle.unlink (u:=as₁.map some) (v:=as₂.map some) (by simpa using h.circle)
    rw [← List.map_append] at hc
    refine hc.congr fun x hx => ?_
    have hxa : x ≠ some a := by
      rintro rfl
      rcases List.mem_cons.mp hx with hx | hx
      · cases hx
      · obtain ⟨b,hb,hba⟩ := List.mem_map.mp hx
        exact (List.nodup_cons.mp (List.nodup_middle.mp hnd)).1 (Option.some.inj hba ▸ hb)
    rw [hr₄.links,hr₃.links,hr₂.links,hr₁.links,Links.unlink,hen,hep,hnext₁,hprev₁]
    simp only [Links.join]
    exact ⟨Function.update_of_ne hxa _ _,Function.update_of_ne hxa _ _⟩

/-- The items a deallocation function is called with. -/
def freedBy (l : List (Item D)) : List D := (l.filter Item.deallocFunc).map Item.dataPtr

theorem dealloc_eq (s : ListState D) (i : Item D) :
    s.dealloc i = { s with dealloced := s.dealloced ++ freedBy [i] } := by
  obtain ⟨d,f⟩ := i
  cases f
  · simp [ListState.dealloc,freedBy]
  · simp [ListState.dealloc,freedBy]

theorem linkedListRemove_nil (h : Represents s as []) :
    linkedListRemove s true = some (.unavailableResource,none,s) := by
  obtain rfl : as = [] := List.length_eq_zero_iff.mp h.length_eq
  simp [linkedListRemove,h.pTail_eq]

/-- The element at `a` is out of the circle and can be freed. -/
theorem Represents.free {s₁ : ListState D} {as₁ as₂ : List Addr} {l₁ l₂ : List (Item D)}
    {i : Item D} (h : Represents s (as₁ ++ a::as₂) (l₁ ++ i::l₂)) (hlen : as₁.length = l₁.length)
    (hc : s₁.links.Circle none ((as₁ ++ as₂).map some)) (hitem : s₁.item = s.item)
    (hallocs : s₁.allocs = s.allocs) :
    ∃ s', s₁.free (some a) = some s' ∧ Represents s' (as₁ ++ as₂) (l₁ ++ l₂) ∧
      s'.dealloced = s₁.dealloced := by
  have hi := h.items
  rw [List.map_append,List.map_append,List.map_cons,List.map_cons] at hi
  obtain ⟨hi₁,hi₂⟩ := List.append_inj hi (by simpa using hlen)
  refine represents_free hc ?_ ?_ ?_ ?_ ?_
  · rw [hitem,List.map_append,List.map_append,hi₁,(List.cons.inj hi₂).2]
  · exact (List.nodup_cons.mp (List.nodup_middle.mp h.nodup)).1
  · rw [hitem]
    exact h.isSome_of_mem (by simp)
  · intro b hb
    rw [hitem] at hb
    have hmem := h.allocated b hb
    simp only [List.mem_append,List.mem_cons] at hmem ⊢
    tauto
  · have hle := h.bounded
    rw [hallocs]
    simp only [List.length_append,List.length_cons] at hle ⊢
    omega

/-- The last item is taken. -/
theorem linkedListRemove_concat {i : Item D} (h : Represents s as (l ++ [i])) :
    ∃ s' as', linkedListRemove s true = some (.success,some i.dataPtr,s') ∧
      Represents s' as' l ∧ s'.dealloced = s.dealloced := by
  rcases List.eq_nil_or_concat as with rfl | ⟨as',a,rfl⟩
  · simpa using h.length_eq
  rw [List.concat_eq_append] at h
  have hlen : as'.length = l.length := by simpa using h.length_eq
  have htail : s.pTail = some a := by rw [h.pTail_eq,List.getLast?_concat]
  have hheap := h.heap_eq rfl hlen
  have hprev_ne : as'.getLast? ≠ some a := fun he =>
    (List.nodup_append.mp h.nodup).2.2 a (List.mem_of_mem_getLast? he) a List.mem_cons_self rfl
  set s₀ : ListState D := { s with pTail := as'.getLast? } with hs₀
  have hr₀ : Relinked s s₀ _ := setTail_relinked
  obtain ⟨s₁,hs₁,hr₁⟩ := nextOrHead_spec (s:=s₀) (p:=as'.getLast?) (v:=none) (by
    intro b hb
    rw [hr₀.item]
    exact h.isSome_of_mem (List.mem_append_left _ (List.mem_of_mem_getLast? hb)))
  have hs₁' : (if as'.getLast? = none then some { s₀ with pHead := as'.getLast? }
      else s₀.setNext as'.getLast? none) = some s₁ := by
    rw [← hs₁]
    by_cases hn : as'.getLast? = none <;> simp [hn]
  have hitem : s₁.item = s.item := hr₁.item.trans hr₀.item
  obtain ⟨e,he,-,-,hei⟩ := deref_spec (s:=s₁) (a:=a) (by rw [hitem]; exact h.isSome_of_mem (by simp))
  have hei' : e.dataPtr = i.dataPtr := by
    rw [hitem] at hei
    simp only [ListState.item,hheap,Option.map_some,Option.some.injEq] at hei
    rw [← hei]
  have hc : s₁.links.Circle none ((as' ++ []).map some) := by
    have hc := Circle.unlink (u:=as'.map some) (v:=[]) (by simpa using h.circle)
    have hn : s.links.next (some a) = none := h.next_eq
    rw [← List.map_nil (f:=some),← List.map_append] at hc
    refine hc.congr fun x _ => ?_
    rw [hr₁.links,hr₀.links,Links.unlink,hn,h.prev_eq]
    exact ⟨rfl,rfl⟩
  obtain ⟨s₂,hs₂,hrep,hd⟩ := h.free hlen hc hitem (hr₁.allocs.trans hr₀.allocs)
  refine ⟨s₂,as' ++ [],?_,by simpa using hrep,by rw [hd,hr₁.dealloced,hr₀.dealloced]⟩
  simp only [linkedListRemove,htail,Bool.not_true,Bool.false_eq_true,if_false,reduceCtorEq]
  show (s.deref (some a)).bind _ = _
  rw [show s.deref (some a) = some _ from hheap,Option.bind_some]
  show (if as'.getLast? = none then some { s₀ with pHead := as'.getLast? }
      else s₀.setNext as'.getLast? none).bind _ = _
  rw [hs₁',Option.bind_some]
  simp [he,hs₂,hei']

/-! ## Searching -/

/-- The first item that the predicate takes, the environment that the predicate
leaves, and the list without that item. -/
def searchItems (equal : σ → D → Bool × σ) :
    σ → List (Item D) → Option (Item D) × σ × List (Item D)
  | e, [] => (none,e,[])
  | e, i::l =>
    if (equal e i.dataPtr).1 then (some i,(equal e i.dataPtr).2,l)
    else
      let r := searchItems equal (equal e i.dataPtr).2 l
      (r.1,r.2.1,i::r.2.2)

/-- A predicate without effect finds the first match. -/
theorem searchItems_pure (p : D → Bool) (e : σ) (l : List (Item D)) :
    searchItems (fun e d => (p d,e)) e l =
      (l.find? fun i => p i.dataPtr,e,l.eraseP fun i => p i.dataPtr) := by
  induction l with
  | nil => rfl
  | cons i l ih =>
    by_cases hp : p i.dataPtr
    · simp [searchItems,hp]
    · simp [searchItems,hp,ih]

/-- A match is taken out and freed, with its data if that is not handed out. -/
theorem Represents.remove {as₁ as₂ : List Addr} {l₁ l₂ : List (Item D)} {i : Item D}
    (h : Represents s (as₁ ++ a::as₂) (l₁ ++ i::l₂)) (hlen : as₁.length = l₁.length)
    (dataP : Bool) :
    ∃ s₁ s₂, detach s (some a) = some s₁ ∧
      (if dataP then s₁ else s₁.dealloc i).free (some a) = some s₂ ∧
      Represents s₂ (as₁ ++ as₂) (l₁ ++ l₂) ∧
      s₂.dealloced = s.dealloced ++ if dataP then [] else freedBy [i] := by
  obtain ⟨s₁,hs₁,hc,hitem,hallocs,hd⟩ := detach_spec h
  cases dataP with
  | false =>
    simp only [Bool.false_eq_true,if_false,dealloc_eq]
    let freed : ListState D := { s₁ with dealloced := s₁.dealloced ++ freedBy [i] }
    have hc' : freed.links.Circle none ((as₁ ++ as₂).map some) := hc
    obtain ⟨s₂,hs₂,hrep,hd₂⟩ := h.free hlen hc' hitem hallocs
    exact ⟨s₁,s₂,hs₁,hs₂,hrep,hd ▸ hd₂⟩
  | true =>
    obtain ⟨s₂,hs₂,hrep,hd₂⟩ := h.free hlen hc hitem hallocs
    exact ⟨s₁,s₂,hs₁,hs₂,hrep,by simp [hd₂,hd]⟩

variable (equal : σ → D → Bool × σ) (dataP rmIfFound : Bool)

/-- What the items after the current element make of the search. -/
theorem searchLoop_spec (fuel : ℕ) (e : σ) (as₁ as₂ : List Addr) (l₁ l₂ : List (Item D))
    (h : Represents s (as₁ ++ as₂) (l₁ ++ l₂)) (hlen : as₁.length = l₁.length)
    (hf : as₂.length < fuel) :
    ∃ s' as', searchLoop equal dataP rmIfFound fuel as₂.head? e s =
        some ((searchItems equal e l₂).1.map Item.dataPtr,(searchItems equal e l₂).2.1,s') ∧
      Represents s' as' (l₁ ++ if rmIfFound then (searchItems equal e l₂).2.2 else l₂) ∧
      s'.dealloced = s.dealloced ++
        if rmIfFound && !dataP then freedBy (searchItems equal e l₂).1.toList else [] := by
  induction fuel generalizing e as₁ as₂ l₁ l₂ with
  | zero => omega
  | succ fuel ih =>
    cases as₂ with
    | nil =>
      obtain rfl : l₂ = [] := by
        have := h.length_eq
        simp only [List.length_append,List.length_nil] at this
        exact List.length_eq_zero_iff.mp (by omega)
      refine ⟨s,as₁ ++ [],rfl,?_,?_⟩
      · simpa [searchItems] using h
      · simp [searchItems,freedBy]
    | cons a as₂ =>
      cases l₂ with
      | nil =>
        have := h.length_eq
        simp only [List.length_append,List.length_cons,List.length_nil] at this
        omega
      | cons i l₂ =>
        have hheap := h.heap_eq rfl hlen
        have hderef : s.deref (some a) = some ⟨i,as₂.head?,as₁.getLast?⟩ := hheap
        by_cases hm : (equal e i.dataPtr).1
        · simp only [searchItems,if_pos hm,Option.map_some,Option.toList_some]
          cases rmIfFound with
          | false =>
            refine ⟨s,as₁ ++ a::as₂,?_,by simpa using h,by simp⟩
            simp [searchLoop,hderef,hm]
          | true =>
            obtain ⟨s₁,s₂,hs₁,hs₂,hrep,hd⟩ := h.remove hlen dataP
            refine ⟨s₂,as₁ ++ as₂,?_,by simpa using hrep,?_⟩
            · simp [searchLoop,hderef,hm,hs₁,hs₂]
            · rw [hd]
              cases dataP <;> simp
        · have hnext := ih (equal e i.dataPtr).2 (as₁ ++ [a]) as₂ (l₁ ++ [i]) l₂ (by simpa using h)
            (by simpa using hlen) (by simpa using hf)
          obtain ⟨s',as',hs',hrep,hd⟩ := hnext
          refine ⟨s',as',?_,?_,?_⟩
          · simp [searchLoop,hderef,hm,searchItems,hs']
          · simp only [searchItems,if_neg hm]
            cases rmIfFound <;> simpa using hrep
          · simpa only [searchItems,if_neg hm] using hd

/-- A search in a list that is not empty. -/
theorem linkedListSearch_spec (h : Represents s as l) (hl : l ≠ []) (e : σ) :
    ∃ s' as', linkedListSearch s dataP equal e rmIfFound =
        some (.success,if dataP then some ((searchItems equal e l).1.map Item.dataPtr) else none,
          (searchItems equal e l).2.1,s') ∧
      Represents s' as' (if rmIfFound then (searchItems equal e l).2.2 else l) ∧
      s'.dealloced = s.dealloced ++
        if rmIfFound && !dataP then freedBy (searchItems equal e l).1.toList else [] := by
  have has : as ≠ [] := by
    rintro rfl
    exact hl (List.length_eq_zero_iff.mp h.length_eq.symm)
  obtain ⟨s',as',hs',hrep,hd⟩ := searchLoop_spec equal dataP rmIfFound (s.allocs + 1) e [] as [] l h
    rfl (Nat.lt_succ_of_le h.bounded)
  refine ⟨s',as',?_,by simpa using hrep,hd⟩
  have htail : s.pTail ≠ none := by simpa [h.pTail_eq] using has
  simp [linkedListSearch,htail,h.pHead_eq,hs']

theorem linkedListSearch_nil (h : Represents s as []) (e : σ) :
    linkedListSearch s dataP equal e rmIfFound = some (.unavailableResource,none,e,s) := by
  obtain rfl : as = [] := List.length_eq_zero_iff.mp h.length_eq
  simp [linkedListSearch,h.pTail_eq]

/-! ## Flushing -/

/-- What is left of a list while it is flushed: the way from the head on. -/
structure Forward (s : ListState D) (as : List Addr) (l : List (Item D)) : Prop where
  pHead : s.pHead = as.head?
  next : ∀ as₁ a as₂, as = as₁ ++ a::as₂ → s.links.next (some a) = as₂.head?
  nodup : as.Nodup
  items : as.map s.item = l.map some
  allocated : ∀ a, (s.item a).isSome → a ∈ as

theorem Represents.forward (h : Represents s as l) : Forward s as l where
  pHead := h.pHead_eq
  next := by
    rintro as₁ a as₂ rfl
    exact h.next_eq
  nodup := h.nodup
  items := h.items
  allocated := h.allocated

/-- The first item is freed and the head moved on. -/
theorem Forward.free {i : Item D} (h : Forward s (a::as) (i::l)) :
    ∃ e s₁, s.deref (some a) = some e ∧ (s.dealloc e.toItem).free (some a) = some s₁ ∧
      Forward { s₁ with pHead := e.next } as l ∧ s₁.dealloced = s.dealloced ++ freedBy [i] := by
  obtain ⟨hi,his⟩ := List.cons.inj h.items
  obtain ⟨hna,hnd⟩ := List.nodup_cons.mp h.nodup
  obtain ⟨e,he,hen,-,hei⟩ := deref_spec (s:=s) (a:=a) (by simp [hi])
  obtain rfl : e.toItem = i := Option.some.inj (hei.symm.trans hi)
  have hsome : ((s.dealloc e.toItem).item a).isSome := by
    rw [dealloc_eq]
    simpa [ListState.item] using congrArg Option.isSome hi
  obtain ⟨s₁,hs₁,hlinks,hitem,-,hd⟩ := free_spec hsome
  have hitem₁ : s₁.item = Function.update s.item a none := by
    rw [hitem,dealloc_eq]
    rfl
  have hlinks₁ : s₁.links.next = Function.update s.links.next (some a) none := by
    rw [hlinks,dealloc_eq]
    rfl
  refine ⟨e,s₁,he,hs₁,⟨?_,?_,hnd,?_,?_⟩,by rw [hd,dealloc_eq]⟩
  · show e.next = as.head?
    rw [← hen,h.next [] a as rfl]
  · rintro as₁ b as₂ rfl
    have hba : b ≠ a := by
      rintro rfl
      exact hna (by simp)
    show s₁.links.next (some b) = _
    rw [hlinks₁,Function.update_of_ne (by simpa using hba)]
    exact h.next (a::as₁) b as₂ rfl
  · rw [← his]
    refine List.map_congr_left fun b hb => ?_
    show s₁.item b = _
    rw [hitem₁,Function.update_of_ne (by rintro rfl; exact hna hb)]
  · intro b hb
    have hb' : (s₁.item b).isSome := hb
    rw [hitem₁] at hb'
    by_cases hba : b = a
    · simp [hba] at hb'
    · rw [Function.update_of_ne hba] at hb'
      exact (List.mem_cons.mp (h.allocated b hb')).resolve_left hba

theorem flushLoop_spec (fuel : ℕ) (h : Forward s as l) (hf : as.length < fuel) :
    ∃ s', flushLoop fuel s = some s' ∧ s'.pHead = none ∧ (∀ a, s'.item a = none) ∧
      s'.dealloced = s.dealloced ++ freedBy l := by
  induction fuel generalizing s as l with
  | zero => omega
  | succ fuel ih =>
    cases as with
    | nil =>
      obtain rfl : l = [] := by simpa using h.items.symm
      refine ⟨s,by simp [flushLoop,h.pHead],h.pHead,?_,by simp [freedBy]⟩
      intro a
      have hn : ¬ (s.item a).isSome := fun ha => by simpa using h.allocated a ha
      simpa using hn
    | cons a as =>
      cases l with
      | nil => simpa using h.items
      | cons i l =>
        obtain ⟨e,s₁,he,hs₁,hfwd,hd⟩ := h.free
        obtain ⟨s',hs',hhead,hnone,hd'⟩ := ih hfwd (by simpa using hf)
        refine ⟨s',?_,hhead,hnone,?_⟩
        · simp [flushLoop,h.pHead,he,hs₁,hs']
        · have hd₁ : { s₁ with pHead := e.next }.dealloced = s.dealloced ++ freedBy [i] := hd
          rw [hd',hd₁,List.append_assoc]
          congr 1
          simp only [freedBy,← List.map_append,← List.filter_append,List.singleton_append]

/-- The whole list is deallocated, from the head on. -/
theorem linkedListFlush_spec (h : Represents s as l) :
    ∃ s', linkedListFlush s = some (.success,s') ∧ Represents s' [] [] ∧
      s'.dealloced = s.dealloced ++ freedBy l := by
  obtain ⟨s₁,hs₁,hhead,hnone,hd⟩ := flushLoop_spec (s.allocs + 1) h.forward
    (Nat.lt_succ_of_le h.bounded)
  refine ⟨{ s₁ with pTail := none },by simp [linkedListFlush,hs₁],⟨?_,rfl,?_,Nat.zero_le _⟩,hd⟩
  · exact circle_nil hhead rfl
  · intro a ha
    have hn : s₁.item a = none := hnone a
    have ha' : (s₁.item a).isSome := ha
    simp [hn] at ha'

theorem linkedListEmpty_eq (h : Represents s as l) : linkedListEmpty s = l.isEmpty := by
  rw [linkedListEmpty,h.pHead_eq]
  cases as with
  | nil =>
    obtain rfl : l = [] := List.length_eq_zero_iff.mp h.length_eq.symm
    rfl
  | cons a as =>
    cases l with
    | nil => simpa using h.length_eq
    | cons i l => rfl

end LinkedList
end Kitakami

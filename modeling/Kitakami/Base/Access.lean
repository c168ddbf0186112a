import Kitakami.Base.Bytes
import Kitakami.Base.Runs

/-!
# Operations that stay inside a buffer

`Accesses n P f` says that on buffers of `n` bytes the operation `f` is inside
the buffer, and so succeeds, exactly under the condition `P`. The rules follow
the shape of an operation, so the condition of a compound one is collected from
those of its parts.
-/

namespace Kitakami
namespace Bytes

theorem bind_of_eq_some {α β : Type} {x : Option α} {a : α} (h : x = some a) (f : α → Option β) :
    (x >>= f) = f a := by rw [h,Option.bind_eq_bind,Option.bind_some]

/-- On a buffer of `n` bytes the operation succeeds exactly if `P`, and it keeps the size. -/
structure Accesses (n : ℕ) (P : Prop) (f : Bytes → Option Bytes) : Prop where
  ok : ∀ b, b.size = n → ((f b).isSome ↔ P)
  size : ∀ b b', b.size = n → f b = some b' → b'.size = n

variable {n : ℕ} {P Q : Prop} {f g : Bytes → Option Bytes} {inp : Bytes}

theorem Accesses.congr (h : Accesses n P f) (hPQ : P ↔ Q) : Accesses n Q f :=
  ⟨fun b hb => (h.ok b hb).trans hPQ,h.size⟩

theorem Accesses.pure : Accesses n True fun b => Pure.pure b :=
  ⟨fun _ _ => iff_of_true rfl trivial,fun b b' hb h => by
    obtain rfl : b = b' := by simpa using h
    exact hb⟩

theorem Accesses.bind (hf : Accesses n P f) (hg : P → Accesses n Q g) :
    Accesses n (P ∧ Q) fun b => f b >>= g := by
  constructor
  · intro b hb
    have hok := hf.ok b hb
    cases hr : f b with
    | none =>
      have : ¬ P := fun hp => by simpa [hr] using hok.mpr hp
      simp [this]
    | some c =>
      have hp : P := hok.mp (by simp [hr])
      simpa [hp] using (hg hp).ok c (hf.size b c hb hr)
  · intro b b' hb h
    obtain ⟨c,hc,hr⟩ := Option.bind_eq_some_iff.mp h
    exact (hg ((hf.ok b hb).mp (by simp [hc]))).size c b' (hf.size b c hb hc) hr

/-- A read of another buffer. -/
theorem Accesses.rd {o : ℕ} {f : ℕ → Bytes → Option Bytes}
    (h : o + 4 ≤ inp.size → Accesses n P (f (inp.word o))) :
    Accesses n (o + 4 ≤ inp.size ∧ P) fun b => inp.rd o >>= fun v => f v b := by
  by_cases ho : o + 4 ≤ inp.size
  · simpa [rd_of_le ho,ho] using h ho
  · have hnone : inp.rd o = none := if_neg ho
    simp only [ho,false_and,hnone]
    exact ⟨fun _ _ => by simp,fun _ _ _ h => by simp at h⟩

theorem Accesses.store (o m : ℕ) (v : ℕ → UInt8) :
    Accesses n (m = 0 ∨ o + m ≤ n) fun b => b.store o m v := by
  constructor
  · rintro b rfl
    simp [Option.isSome_iff_exists,store_eq_some]
  · rintro b b' rfl h
    obtain ⟨-,rfl⟩ := store_eq_some.mp h
    rfl

theorem Accesses.wr (o v : ℕ) : Accesses n (o + 4 ≤ n) fun b => b.wr o v :=
  (Accesses.store o 4 (byteOf v)).congr (by simp)

theorem Accesses.memcpy (o : ℕ) (src : Bytes) (p m : ℕ) :
    Accesses n (m = 0 ∨ p + m ≤ src.size ∧ o + m ≤ n) fun b => b.memcpy o src p m := by
  constructor
  · rintro b rfl
    simp [Option.isSome_iff_exists,memcpy_eq_some]
  · rintro b b' rfl h
    exact (memcpy_frame h).size

theorem Accesses.memmove (o p m : ℕ) :
    Accesses n (m = 0 ∨ p + m ≤ n ∧ o + m ≤ n) fun b => b.memmove o p m := by
  constructor
  · rintro b rfl
    simp [Option.isSome_iff_exists,Bytes.memmove,memcpy_eq_some]
  · rintro b b' rfl h
    exact (memcpy_frame h).size

theorem Accesses.ite {c : Prop} [Decidable c] (hf : c → Accesses n P f)
    (hg : ¬ c → Accesses n Q g) :
    Accesses n ((c → P) ∧ (¬ c → Q)) fun b => if c then f b else g b := by
  by_cases hc : c
  · simpa [hc] using hf hc
  · simpa [hc] using hg hc

/-- A loop over a fixed list. -/
theorem Accesses.run {A : Type} {step : Bytes → A → Option Bytes} {G : A → Prop} {as : List A}
    (h : ∀ a ∈ as, Accesses n (G a) fun b => step b a) :
    Accesses n (∀ a ∈ as, G a) fun b => Runs.run step b as := by
  induction as with
  | nil => exact Accesses.pure.congr (by simp)
  | cons a as ih =>
    have hrest := ih fun c hc => h c (List.mem_cons_of_mem a hc)
    exact ((h a List.mem_cons_self).bind fun _ => hrest).congr (by simp)

/-- Where the condition of what follows depends on the bytes. -/
theorem Accesses.bind_isSome {α : Type} {g : Bytes → Option α} (hf : Accesses n P f) {b : Bytes}
    (hb : b.size = n) : (f b >>= g).isSome ↔ P ∧ ∀ c, f b = some c → (g c).isSome := by
  have hok := hf.ok b hb
  cases hr : f b with
  | none => simpa [hr] using hok
  | some c =>
    have hp : P := hok.mp (by simp [hr])
    simp [hp]

/-! ## What an operation may change -/

/-- The operation changes the buffer only inside `R`. -/
def Within (R : ℕ → Prop) (f : Bytes → Option Bytes) : Prop :=
  ∀ b b', f b = some b' → Frame R b b'

variable {R : ℕ → Prop} {α : Type}

theorem Within.pure : Within R fun b => Pure.pure b := by
  intro b b' h
  obtain rfl : b = b' := by simpa using h
  exact Frame.refl R b

theorem Within.bind (hf : Within R f) (hg : Within R g) : Within R fun b => f b >>= g := by
  intro b b' h
  obtain ⟨c,hc,hr⟩ := Option.bind_eq_some_iff.mp h
  exact (hf b c hc).trans (hg c b' hr)

/-- A value that is read, from this buffer or another one. -/
theorem Within.read {x : Bytes → Option α} {f : α → Bytes → Option Bytes}
    (h : ∀ v, Within R (f v)) : Within R fun b => x b >>= fun v => f v b := by
  intro b b' hr
  obtain ⟨v,-,hr⟩ := Option.bind_eq_some_iff.mp hr
  exact h v b b' hr

theorem Within.rd {o : ℕ} {f : ℕ → Bytes → Option Bytes} (h : Within R (f (inp.word o))) :
    Within R fun b => inp.rd o >>= fun v => f v b := by
  intro b b' hr
  obtain ⟨v,hv,hr⟩ := Option.bind_eq_some_iff.mp hr
  obtain ⟨-,rfl⟩ := rd_eq_some.mp hv
  exact h b b' hr

theorem Within.ite {c : Bytes → Prop} [∀ b, Decidable (c b)] (hf : Within R f) (hg : Within R g) :
    Within R fun b => if c b then f b else g b := by
  intro b b' h
  simp only at h
  split at h
  · exact hf b b' h
  · exact hg b b' h

theorem Within.run {A : Type} {step : Bytes → A → Option Bytes} {as : List A}
    (h : ∀ a ∈ as, Within R fun b => step b a) : Within R fun b => Runs.run step b as := by
  induction as with
  | nil => exact Within.pure
  | cons a as ih =>
    exact (h a List.mem_cons_self).bind (ih fun c hc => h c (List.mem_cons_of_mem a hc))

theorem Within.store {o m : ℕ} {v : ℕ → UInt8} (h : ∀ i, o ≤ i ∧ i < o + m → R i) :
    Within R fun b => b.store o m v := by
  intro b b' hr
  obtain ⟨-,rfl⟩ := store_eq_some.mp hr
  exact (frame_put b o m v).mono h

theorem Within.wr {o v : ℕ} (h : ∀ i, o ≤ i ∧ i < o + 4 → R i) : Within R fun b => b.wr o v :=
  Within.store h

theorem Within.memcpy {o p m : ℕ} {src : Bytes} (h : ∀ i, o ≤ i ∧ i < o + m → R i) :
    Within R fun b => b.memcpy o src p m :=
  fun _ _ hr => (memcpy_frame hr).mono h

theorem Within.memmove {o p m : ℕ} (h : ∀ i, o ≤ i ∧ i < o + m → R i) :
    Within R fun b => b.memmove o p m :=
  fun _ _ hr => (memcpy_frame hr).mono h

/-! ## Words written one after the other -/

/-- Write a word, given with its offset. -/
def writeWord (b : Bytes) (cell : ℕ × ℕ) : Option Bytes := b.wr cell.1 cell.2

/-- The bytes of the words that are written. -/
def Covered (cells : List (ℕ × ℕ)) (x : ℕ) : Prop := ∃ c ∈ cells, c.1 ≤ x ∧ x < c.1 + 4

theorem frame_of_writes {cells : List (ℕ × ℕ)} {b b' : Bytes}
    (h : Runs.run writeWord b cells = some b') : Frame (Covered cells) b b' :=
  Within.run (fun c hc => Within.wr fun _ hx => ⟨c,hc,hx⟩) b b' h

/-- Of words that lie apart each is read back as it was written. -/
theorem word_of_writes {cells : List (ℕ × ℕ)} {b b' : Bytes}
    (hapart : cells.Pairwise fun c d => c.1 + 4 ≤ d.1 ∨ d.1 + 4 ≤ c.1)
    (h : Runs.run writeWord b cells = some b') : ∀ c ∈ cells, b'.word c.1 = u32 c.2 := by
  induction cells generalizing b with
  | nil => simp
  | cons c cs ih =>
    obtain ⟨b₁,hb₁,hrest⟩ := Runs.run_cons_eq_some.mp h
    obtain ⟨hhead,htail⟩ := List.pairwise_cons.mp hapart
    intro d hd
    rcases List.mem_cons.mp hd with rfl | hd
    · have hkept : b'.word d.1 = b₁.word d.1 := (frame_of_writes hrest).word fun k hk => by
        rintro ⟨e,he,hx⟩
        have := hhead e he
        omega
      obtain ⟨-,rfl⟩ := wr_eq_some.mp hb₁
      rw [hkept,word_put_byteOf]
    · exact ih htail hrest d hd

end Bytes
end Kitakami

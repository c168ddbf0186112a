import Kitakami.Base.Runs

/-!
# Monitors of a trace

A property of the order of events is stated by a monitor: it reads the events
of a trace one by one, keeps in `M` what it has to remember of them, and must
accept each event in the state that the earlier ones have left. A system keeps
its trace in its state; the rules say what its steps must satisfy so that the
monitor accepts the trace of a whole run.
-/

namespace Kitakami
namespace Monitor

open Runs

variable {M E : Type} {next : M → E → M} {ok : M → E → Prop}

/-- What the monitor remembers after some events. -/
def watch (next : M → E → M) (m : M) (es : List E) : M := es.foldl next m

/-- The monitor accepts every one of the events. -/
def Accepts (next : M → E → M) (ok : M → E → Prop) : M → List E → Prop
  | _, [] => True
  | m, e :: es => ok m e ∧ Accepts next ok (next m e) es

@[simp] theorem watch_nil (m : M) : watch next m [] = m := rfl

@[simp] theorem watch_cons (m : M) (e : E) (es : List E) :
    watch next m (e :: es) = watch next (next m e) es := rfl

@[simp] theorem watch_append (m : M) (es fs : List E) :
    watch next m (es ++ fs) = watch next (watch next m es) fs := List.foldl_append

@[simp] theorem accepts_nil (m : M) : Accepts next ok m [] := trivial

@[simp] theorem accepts_cons (m : M) (e : E) (es : List E) :
    Accepts next ok m (e :: es) ↔ ok m e ∧ Accepts next ok (next m e) es := Iff.rfl

@[simp] theorem accepts_append (m : M) (es fs : List E) :
    Accepts next ok m (es ++ fs) ↔
      Accepts next ok m es ∧ Accepts next ok (watch next m es) fs := by
  induction es generalizing m with
  | nil => simp
  | cons e es ih => rw [List.cons_append,accepts_cons,accepts_cons,ih,and_assoc,watch_cons]

/-- Events that are fine whatever is remembered. -/
theorem accepts_of_forall {es : List E} (h : ∀ e ∈ es, ∀ m, ok m e) (m : M) :
    Accepts next ok m es := by
  induction es generalizing m with
  | nil => trivial
  | cons e es ih =>
    exact ⟨h e List.mem_cons_self m,ih (fun f hf => h f (List.mem_cons_of_mem e hf)) _⟩

/-- Every event of an accepted trace is fine after the ones before it. -/
theorem Accepts.mid {m : M} {es fs : List E} {e : E} (h : Accepts next ok m (es ++ e :: fs)) :
    ok (watch next m es) e := ((accepts_append m es (e :: fs)).mp h).2.1

variable {S A : Type} {step : S → A → Option S} {m : M} {I : S → M → Prop} {G : S → A → Prop}

/-- A guarded run whose steps extend the trace by accepted events has an accepted trace. -/
theorem accepts_run (trace : S → List E)
    (hstep : ∀ s a t, I s (watch next m (trace s)) → G s a → step s a = some t →
      ∃ es, trace t = trace s ++ es ∧ Accepts next ok (watch next m (trace s)) es ∧
        I t (watch next m (trace t)))
    {s u : S} {as : List A} (hs : I s (watch next m (trace s)))
    (hok : Accepts next ok m (trace s)) (hg : Along step G s as) (hr : run step s as = some u) :
    Accepts next ok m (trace u) := by
  refine (run_invariant (I:=fun s => I s (watch next m (trace s)) ∧ Accepts next ok m (trace s))
    (fun s a t hs hg ht => ?_) ⟨hs,hok⟩ hg hr).2
  obtain ⟨es,htrace,hes,hi⟩ := hstep s a t hs.1 hg ht
  exact ⟨hi,by rw [htrace,accepts_append]; exact ⟨hs.2,hes⟩⟩

/-- If `G` says exactly when the events of a step are accepted, the trace of a run is accepted
exactly if `G` holds along it. -/
theorem accepts_run_iff (trace : S → List E)
    (hstep : ∀ s a t, I s (watch next m (trace s)) → step s a = some t →
      ∃ es, trace t = trace s ++ es ∧ (Accepts next ok (watch next m (trace s)) es ↔ G s a) ∧
        I t (watch next m (trace t)))
    {s u : S} {as : List A} (hs : I s (watch next m (trace s)))
    (hok : Accepts next ok m (trace s)) (hr : run step s as = some u) :
    Accepts next ok m (trace u) ↔ Along step G s as := by
  have hprefix : ∀ {as s}, I s (watch next m (trace s)) → run step s as = some u →
      ∃ es, trace u = trace s ++ es ∧
        (Accepts next ok (watch next m (trace s)) es ↔ Along step G s as) := by
    intro as
    induction as with
    | nil =>
      intro s _ hr
      obtain rfl : s = u := by simpa using hr
      exact ⟨[],by simp,by simp [Along]⟩
    | cons a as ih =>
      intro s hs hr
      obtain ⟨t,ht,hu⟩ := run_cons_eq_some.mp hr
      obtain ⟨es,htrace,hes,hi⟩ := hstep s a t hs ht
      obtain ⟨fs,htrace',hfs⟩ := ih hi hu
      refine ⟨es ++ fs,by rw [htrace',htrace,List.append_assoc],?_⟩
      rw [accepts_append,hes,← watch_append,← htrace,hfs]
      exact ⟨fun h => Along.cons h.1 ht h.2,fun h => ⟨h.head,h.tail ht⟩⟩
  obtain ⟨es,htrace,hes⟩ := hprefix hs hr
  rw [htrace,accepts_append,hes]
  exact and_iff_right hok

end Monitor
end Kitakami

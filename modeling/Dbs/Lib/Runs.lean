/-
  File:      Dbs/Lib/Runs.lean
  Subject:   RUNS OF A STATE MACHINE whose step refuses an action that cannot be taken.

  * `run` -- the actions one after another; `run_append_eq_some` -- a run in two parts;
  * `run_invariant` -- what every step keeps holds after the run; `Reachable.invariant` -- and of
    every state that can be reached;
  * `Along` -- a condition on each action of a run, at the state it is taken in;
    `run_invariant_along` -- what every step meeting it keeps;
  * `map_set_same` -- a part of a state that changes, and a field that it keeps.
-/
import Mathlib.Data.List.Basic

namespace Runs

variable {σ α : Type} {step : σ → α → Option σ} {s t u : σ} {a : α} {as bs : List α}

def run (step : σ → α → Option σ) : σ → List α → Option σ
  | s, [] => some s
  | s, a :: as => (step s a).bind fun t => run step t as

@[simp] theorem run_nil : run step s [] = some s := rfl

theorem run_cons_eq_some :
    run step s (a :: as) = some u ↔ ∃ t, step s a = some t ∧ run step t as = some u :=
  Option.bind_eq_some_iff

theorem run_append_eq_some :
    run step s (as ++ bs) = some u ↔ ∃ t, run step s as = some t ∧ run step t bs = some u := by
  induction as generalizing s with
  | nil => exact ⟨fun h => ⟨s, rfl, h⟩, fun ⟨_, h1, h2⟩ => Option.some.inj h1 ▸ h2⟩
  | cons a as ih =>
    rw [List.cons_append, run_cons_eq_some]
    constructor
    · rintro ⟨m, hm, h⟩
      obtain ⟨t, h1, h2⟩ := ih.mp h
      exact ⟨t, run_cons_eq_some.mpr ⟨m, hm, h1⟩, h2⟩
    · rintro ⟨t, h1, h2⟩
      obtain ⟨m, hm, h⟩ := run_cons_eq_some.mp h1
      exact ⟨m, hm, ih.mpr ⟨t, h, h2⟩⟩

variable {I : σ → Prop}

theorem run_invariant (hstep : ∀ s a t, step s a = some t → I s → I t)
    (h : run step s as = some t) (hs : I s) : I t := by
  induction as generalizing s with
  | nil => exact Option.some.inj h ▸ hs
  | cons a as ih =>
    obtain ⟨m, hm, h⟩ := run_cons_eq_some.mp h
    exact ih h (hstep s a m hm hs)

/-! ## Reachable states -/

def Reachable (step : σ → α → Option σ) (s t : σ) : Prop := ∃ as, run step s as = some t

theorem Reachable.refl : Reachable step s s := ⟨[], rfl⟩

theorem Reachable.next (h : Reachable step s t) (ht : step t a = some u) : Reachable step s u := by
  obtain ⟨as, has⟩ := h
  exact ⟨as ++ [a], run_append_eq_some.mpr ⟨t, has, run_cons_eq_some.mpr ⟨u, ht, rfl⟩⟩⟩

/-- **An invariant holds of every reachable state.** -/
theorem Reachable.invariant (hstep : ∀ s a t, step s a = some t → I s → I t)
    (h : Reachable step s t) (hs : I s) : I t := by
  obtain ⟨as, has⟩ := h
  exact run_invariant hstep has hs

/-! ## Runs that meet a condition -/

/-- Each action of the run meets the condition in the state it is taken in. -/
def Along (step : σ → α → Option σ) (C : σ → α → Prop) : σ → List α → Prop
  | _, [] => True
  | s, a :: as => C s a ∧ ∀ t ∈ step s a, Along step C t as

instance decidableAlong {C : σ → α → Prop} [∀ s a, Decidable (C s a)] :
    ∀ s as, Decidable (Along step C s as)
  | _, [] => inferInstanceAs (Decidable True)
  | s, a :: as =>
    haveI : DecidablePred fun t => Along step C t as := fun t => decidableAlong t as
    inferInstanceAs (Decidable (C s a ∧ ∀ t ∈ step s a, Along step C t as))

variable {C : σ → α → Prop}

/-- Actions that meet the condition in every state. -/
theorem along_of_forall (h : ∀ a ∈ as, ∀ s, C s a) : Along step C s as := by
  induction as generalizing s with
  | nil => trivial
  | cons a as ih =>
    exact ⟨h a List.mem_cons_self s, fun t _ => ih fun a ha => h a (List.mem_cons_of_mem _ ha)⟩

theorem Along.mono {C D : σ → α → Prop} (h : Along step C s as) (hd : ∀ s a, C s a → D s a) :
    Along step D s as := by
  induction as generalizing s with
  | nil => trivial
  | cons a as ih => exact ⟨hd s a h.1, fun t ht => ih (h.2 t ht)⟩

/-- A condition on a run in two parts. -/
theorem along_append :
    Along step C s (as ++ bs) ↔ Along step C s as ∧ ∀ t, run step s as = some t →
      Along step C t bs := by
  induction as generalizing s with
  | nil => exact ⟨fun h => ⟨trivial, fun _ ht => Option.some.inj ht ▸ h⟩, fun h => h.2 s rfl⟩
  | cons a as ih =>
    constructor
    · intro ⟨hc, h⟩
      refine ⟨⟨hc, fun t ht => (ih.mp (h t ht)).1⟩, fun u hu => ?_⟩
      obtain ⟨t, ht, hrest⟩ := run_cons_eq_some.mp hu
      exact (ih.mp (h t ht)).2 u hrest
    · intro ⟨⟨hc, h⟩, hbs⟩
      exact ⟨hc, fun t ht => ih.mpr ⟨h t ht, fun u hu => hbs u (run_cons_eq_some.mpr ⟨t, ht, hu⟩)⟩⟩

theorem run_invariant_along
    (hstep : ∀ s a t, step s a = some t → C s a → I s → I t)
    (h : run step s as = some t) (hc : Along step C s as) (hs : I s) : I t := by
  induction as generalizing s with
  | nil => exact Option.some.inj h ▸ hs
  | cons a as ih =>
    obtain ⟨m, hm, h⟩ := run_cons_eq_some.mp h
    exact ih h (hc.2 m hm) (hstep s a m hm hc.1 hs)

/-! ## A part that changes -/

section Parts

variable {β : Type} {f : α → β} {l : List α} {i : Nat} {b : α}

theorem map_set_same (h : l[i]? = some a) (hf : f b = f a) : (l.set i b).map f = l.map f := by
  rw [List.map_set, hf]
  refine List.ext_getElem? fun j => ?_
  rw [List.getElem?_set]
  split
  · next hij =>
    subst hij
    rw [List.getElem?_map, h, List.length_map, if_pos (List.getElem?_eq_some_iff.mp h).1]
    rfl
  · rfl

end Parts

end Runs

/-
  File:      Dbs/Lib/Caching.lean
  Subject:   A CACHE WHOSE ENTRIES MAY BE GONE AT ANY MOMENT: every entry that is made has a life of its
             own, so that a later entry under the same key is another one.

  * `set` -- a new entry, over what was there; `add` -- only if nothing was; `modify` -- the same entry
    with another value; `remove` -- by a call, or because it expired;
  * `Wf` -- no entry lives that was not made; `Wf.set`, … -- every operation keeps it.
-/
import Mathlib.Logic.Function.Basic

namespace Caching

/-- A value, and which of the entries made so far it belongs to. -/
structure Entry (β : Type) where
  life : Nat
  value : β

/-- What lives under each key. -/
structure Cache (κ β : Type) where
  entries : κ → Option (Entry β)
  /-- How many entries were made. -/
  lives : Nat

namespace Cache

variable {κ β : Type} [DecidableEq κ] (c : Cache κ β) (k : κ)

/-- Nothing was made yet. -/
def empty : Cache κ β := ⟨fun _ => none, 0⟩

/-- A new entry under the key. -/
def set (v : β) : Cache κ β := ⟨Function.update c.entries k (some ⟨c.lives, v⟩), c.lives + 1⟩

/-- A new entry, where none lives. -/
def add (v : β) : Cache κ β := if c.entries k = none then c.set k v else c

/-- Another value for the living entry. -/
def modify (f : β → β) : Cache κ β :=
  ⟨Function.update c.entries k ((c.entries k).map fun e => ⟨e.life, f e.value⟩), c.lives⟩

/-- The entry's life ends. -/
def remove : Cache κ β := ⟨Function.update c.entries k none, c.lives⟩

variable {c k} {j : κ} {v : β} {f : β → β}

@[simp] theorem set_self : (c.set k v).entries k = some ⟨c.lives, v⟩ := Function.update_self ..

@[simp] theorem set_of_ne (h : j ≠ k) : (c.set k v).entries j = c.entries j :=
  Function.update_of_ne h ..

@[simp] theorem set_lives : (c.set k v).lives = c.lives + 1 := rfl

@[simp] theorem modify_self :
    (c.modify k f).entries k = (c.entries k).map fun e => ⟨e.life, f e.value⟩ :=
  Function.update_self ..

@[simp] theorem modify_of_ne (h : j ≠ k) : (c.modify k f).entries j = c.entries j :=
  Function.update_of_ne h ..

@[simp] theorem modify_lives : (c.modify k f).lives = c.lives := rfl

@[simp] theorem remove_self : (c.remove k).entries k = none := Function.update_self ..

@[simp] theorem remove_of_ne (h : j ≠ k) : (c.remove k).entries j = c.entries j :=
  Function.update_of_ne h ..

@[simp] theorem remove_lives : (c.remove k).lives = c.lives := rfl

theorem modify_eq_none : (c.modify k f).entries j = none ↔ c.entries j = none := by
  by_cases h : j = k
  · rw [h, modify_self, Option.map_eq_none_iff]
  · rw [modify_of_ne h]

theorem modify_eq_self (h : c.entries k = none) : c.modify k f = c := by
  rw [modify, h, Option.map_none, ← h, Function.update_eq_self]

/-- What a removal leaves was there. -/
theorem entries_of_remove {e : Entry β} (h : (c.remove k).entries j = some e) :
    c.entries j = some e := by
  by_cases hj : j = k
  · rw [hj, remove_self] at h
    cases h
  · rwa [remove_of_ne hj] at h

/-- An entry and then another value is the other value from the start. -/
theorem modify_set : (c.set k v).modify k f = c.set k (f v) := by
  simp only [modify, set_self, Option.map_some]
  rw [set, set, Function.update_idem]

/-! ## Lives -/

/-- Every entry's life is one that was given out. -/
def Wf (c : Cache κ β) : Prop := ∀ k, ∀ e ∈ c.entries k, e.life < c.lives

omit [DecidableEq κ] in
theorem Wf.empty : Wf (empty : Cache κ β) := nofun

theorem Wf.set (h : c.Wf) : (c.set k v).Wf := by
  intro j e he
  by_cases hj : j = k
  · rw [hj, set_self] at he
    exact Option.some.inj he ▸ Nat.lt_succ_self c.lives
  · rw [set_of_ne hj] at he
    exact Nat.lt_succ_of_lt (h j e he)

theorem Wf.modify (h : c.Wf) : (c.modify k f).Wf := by
  intro j e he
  by_cases hj : j = k
  · rw [hj, modify_self] at he
    obtain ⟨e', he', rfl⟩ := Option.map_eq_some_iff.mp he
    exact h k e' he'
  · rw [modify_of_ne hj] at he
    exact h j e he

theorem Wf.remove (h : c.Wf) : (c.remove k).Wf :=
  fun j e he => h j e (entries_of_remove he)

end Cache

end Caching

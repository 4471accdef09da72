/-
  File:      Dbs/Lib/Cells.lean
  Subject:   CHANGES OF ONE CELL EACH. A state is a function of cells; a change reads and writes one.

  * `changed` -- the changes of a list, one after another; `changed_append` -- of a list in two parts;
  * `changed_of_mem`, `changed_of_notMem` -- where no cell is changed twice, each change finds its
    cell as it was at the beginning;
  * `changed_eq_iff` -- two ways to change have one outcome when they have so in every cell;
    `changed_twice_iff` -- and when the changes may be made once more.
-/
import Mathlib.Data.List.Nodup

namespace Cells

variable {ι α F : Type} [DecidableEq ι] {key : α → ι} {act other : α → F → F} {s t : ι → F}
  {l l' : List α} {a : α} {i : ι}

def changed (key : α → ι) (act : α → F → F) (s : ι → F) (l : List α) : ι → F :=
  l.foldl (fun s a => Function.update s (key a) (act a (s (key a)))) s

theorem changed_append : changed key act s (l ++ l') = changed key act (changed key act s l) l' :=
  List.foldl_append

theorem changed_of_notMem (h : i ∉ l.map key) : changed key act s l i = s i := by
  induction l generalizing s with
  | nil => rfl
  | cons a l ih =>
    rw [List.map_cons, List.mem_cons, not_or] at h
    rw [changed, List.foldl_cons]
    exact (ih h.2).trans (Function.update_of_ne h.1 _ _)

/-- **Each change finds its cell as it was.** -/
theorem changed_of_mem (hn : (l.map key).Nodup) (ha : a ∈ l) :
    changed key act s l (key a) = act a (s (key a)) := by
  induction l generalizing s with
  | nil => cases ha
  | cons b l ih =>
    obtain ⟨hb, hn⟩ := List.nodup_cons.mp hn
    rw [changed, List.foldl_cons]
    rcases List.mem_cons.mp ha with rfl | ha
    · exact (changed_of_notMem hb).trans (Function.update_self _ _ _)
    · have hne : key a ≠ key b := fun heq => hb (heq ▸ List.mem_map_of_mem ha)
      exact (ih hn ha).trans (congrArg (act a) (Function.update_of_ne hne _ _))

/-- Two runs over states that are the same elsewhere. -/
theorem changed_congr_iff (hn : (l.map key).Nodup) (hs : ∀ i, i ∉ l.map key → s i = t i) :
    changed key act s l = changed key other t l ↔
      ∀ a ∈ l, act a (s (key a)) = other a (t (key a)) := by
  constructor
  · intro h a ha
    have hcell := congrFun h (key a)
    rwa [changed_of_mem hn ha, changed_of_mem hn ha] at hcell
  · intro h
    funext i
    by_cases hi : i ∈ l.map key
    · obtain ⟨a, ha, rfl⟩ := List.mem_map.mp hi
      rw [changed_of_mem hn ha, changed_of_mem hn ha, h a ha]
    · rw [changed_of_notMem hi, changed_of_notMem hi, hs i hi]

theorem changed_eq_iff (hn : (l.map key).Nodup) :
    changed key act s l = changed key other s l ↔
      ∀ a ∈ l, act a (s (key a)) = other a (s (key a)) := changed_congr_iff hn fun _ _ => rfl

theorem changed_twice_iff (hn : (l.map key).Nodup) :
    changed key act (changed key act s l) l = changed key act s l ↔
      ∀ a ∈ l, act a (act a (s (key a))) = act a (s (key a)) := by
  rw [changed_congr_iff hn fun _ hi => changed_of_notMem hi]
  exact forall₂_congr fun a ha => by rw [changed_of_mem hn ha]

end Cells

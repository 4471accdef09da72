/-
  File:      Dbs/Lib/Folder.lean
  Subject:   A FOLDER: names, each with what stands under it.

  * `find`, `remove`, `put` -- what a name has, the name taken out, another thing under it;
  * `find_put`, `find_remove` -- what every name has afterwards;
  * `mem_names_iff` -- the names that have something;
  * `find_map_names`, `find_mapValues`, `find_filter`, `find_filterMap_names`, `find_append`,
    `find_foldr_put` -- folders made from a list of names, or from others;
  * `Distinct` -- no name stands there twice; `find_of_mem` -- then every entry is found.
-/
import Mathlib.Data.List.Basic

namespace Folder

variable {ν β : Type} [DecidableEq ν] {dir : List (ν × β)} {n m : ν} {b : β}

def find (n : ν) (dir : List (ν × β)) : Option β := dir.lookup n

def names (dir : List (ν × β)) : List ν := dir.map Prod.fst

def remove (n : ν) (dir : List (ν × β)) : List (ν × β) := dir.filter fun e => e.1 ≠ n

/-- Whatever stood under the name before. -/
def put (n : ν) (b : β) (dir : List (ν × β)) : List (ν × β) := (n, b) :: remove n dir

@[simp] theorem find_nil : find n ([] : List (ν × β)) = none := rfl

theorem find_cons (e : ν × β) : find n (e :: dir) = if n = e.1 then some e.2 else find n dir := by
  rw [find, List.lookup_cons]
  by_cases h : n = e.1
  · rw [if_pos h, h, BEq.rfl]
  · rw [if_neg h, beq_eq_false_iff_ne.mpr h]
    rfl

theorem find_remove : find m (remove n dir) = if m = n then none else find m dir := by
  induction dir with
  | nil => simp [remove]
  | cons e dir ih =>
    by_cases he : e.1 = n
    · rw [remove, List.filter_cons_of_neg (by simpa using he), ← remove, ih, find_cons]
      by_cases hm : m = n
      · rw [if_pos hm, if_pos hm]
      · rw [if_neg hm, if_neg hm, if_neg fun h => hm (h.trans he)]
    · rw [remove, List.filter_cons_of_pos (by simpa using he), ← remove, find_cons, find_cons, ih]
      by_cases hm : m = e.1
      · rw [if_pos hm, if_pos hm, if_neg fun h => he (hm.symm.trans h)]
      · rw [if_neg hm, if_neg hm]

theorem find_put : find m (put n b dir) = if m = n then some b else find m dir := by
  rw [put, find_cons, find_remove]
  by_cases h : m = n
  · rw [if_pos h, if_pos h]
  · rw [if_neg h, if_neg h, if_neg h]

@[simp] theorem find_put_self : find n (put n b dir) = some b := by rw [find_put, if_pos rfl]

theorem find_put_ne (h : m ≠ n) : find m (put n b dir) = find m dir := by rw [find_put, if_neg h]

@[simp] theorem find_remove_self : find n (remove n dir) = none := by rw [find_remove, if_pos rfl]

theorem find_remove_ne (h : m ≠ n) : find m (remove n dir) = find m dir := by rw [find_remove, if_neg h]

theorem mem_names_iff : n ∈ names dir ↔ (find n dir).isSome = true := by
  induction dir with
  | nil => simp [names]
  | cons e dir ih =>
    rw [names, List.map_cons, List.mem_cons, ← names, ih, find_cons]
    by_cases h : n = e.1 <;> simp [h]

theorem mem_of_find (h : find n dir = some b) : (n, b) ∈ dir := by
  induction dir with
  | nil => cases h
  | cons e dir ih =>
    rw [find_cons] at h
    split at h
    · rename_i he
      cases h
      exact List.mem_cons.mpr (.inl (Prod.ext he rfl))
    · exact List.mem_cons_of_mem e (ih h)

/-! ## Lists of names and parts of a folder -/

theorem find_map_names {l : List ν} {f : ν → β} :
    find n (l.map fun m => (m, f m)) = if n ∈ l then some (f n) else none := by
  induction l with
  | nil => simp
  | cons m l ih =>
    rw [List.map_cons, find_cons, ih]
    by_cases h : n = m <;> simp [h]

theorem find_mapValues {γ : Type} {f : ν → β → γ} :
    find n (dir.map fun e => (e.1, f e.1 e.2)) = (find n dir).map (f n) := by
  induction dir with
  | nil => rfl
  | cons e dir ih =>
    rw [List.map_cons, find_cons, find_cons, ih]
    by_cases h : n = e.1
    · simp [h]
    · simp [h]

theorem find_filter {p : ν → Bool} :
    find n (dir.filter fun e => p e.1) = if p n then find n dir else none := by
  induction dir with
  | nil => simp
  | cons e dir ih =>
    by_cases he : p e.1 = true
    · have hkept : (e :: dir).filter (fun e => p e.1) = e :: dir.filter fun e => p e.1 :=
        List.filter_cons_of_pos he
      rw [hkept, find_cons, find_cons, ih]
      by_cases h : n = e.1
      · simp [h, he]
      · simp [h]
    · have hleft : (e :: dir).filter (fun e => p e.1) = dir.filter fun e => p e.1 :=
        List.filter_cons_of_neg he
      rw [hleft, ih, find_cons]
      by_cases h : n = e.1
      · simp [h, he]
      · simp [h]

theorem find_append {dir' : List (ν × β)} : find n (dir ++ dir') = (find n dir).or (find n dir') := by
  induction dir with
  | nil => rfl
  | cons e dir ih =>
    rw [List.cons_append, find_cons, find_cons, ih]
    by_cases h : n = e.1 <;> simp [h]

/-- Those of the names that have something. -/
theorem find_filterMap_names {l : List ν} :
    find n (l.filterMap fun m => (find m dir).map fun b => (m, b)) = if n ∈ l then find n dir
      else none := by
  induction l with
  | nil => simp
  | cons m l ih =>
    cases hm : find m dir with
    | none =>
      rw [List.filterMap_cons_none (by rw [hm]; rfl), ih]
      by_cases h : n = m <;> simp [h, hm]
    | some b =>
      rw [List.filterMap_cons_some (by rw [hm]; rfl), find_cons, ih]
      by_cases h : n = m <;> simp [h, hm]

/-- One name after the other. -/
theorem find_foldr_put {l : List ν} {f : ν → β} :
    find n (l.foldr (fun m dir => put m (f m) dir) dir) = if n ∈ l then some (f n) else find n dir := by
  induction l with
  | nil => simp
  | cons m l ih =>
    rw [List.foldr_cons, find_put, ih]
    by_cases h : n = m <;> simp [h]

/-! ## Every name once -/

def Distinct (dir : List (ν × β)) : Prop := (names dir).Nodup

omit [DecidableEq ν] in
theorem Distinct.nil : Distinct ([] : List (ν × β)) := List.nodup_nil

theorem Distinct.remove (h : Distinct dir) : Distinct (remove n dir) :=
  h.sublist (List.filter_sublist.map Prod.fst)

theorem Distinct.put (h : Distinct dir) : Distinct (put n b dir) := by
  refine List.nodup_cons.mpr ⟨?_, h.remove⟩
  rw [← names, mem_names_iff, find_remove_self]
  simp

theorem find_of_mem (h : Distinct dir) (hmem : (n, b) ∈ dir) : find n dir = some b := by
  induction dir with
  | nil => cases hmem
  | cons e dir ih =>
    obtain ⟨hnot, hrest⟩ := List.nodup_cons.mp h
    rw [find_cons]
    rcases List.mem_cons.mp hmem with rfl | hmem
    · rw [if_pos rfl]
    · rw [if_neg, ih hrest hmem]
      rintro rfl
      exact hnot (List.mem_map.mpr ⟨_, hmem, rfl⟩)

end Folder

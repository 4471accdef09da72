/-
  File:      Dbs/Lib/Rows.lean
  Subject:   ROWS OF A TABLE AND THE STATEMENTS ON THEM.

  * `update` -- the rows of a filter are changed, in their places; `mem_update`, `map_update` --
    what is then found, and that a column the change keeps is kept;
  * `delete` -- the rows of a filter go;
  * `find?_of_key`, `foldl_update` -- a row by its key; a loop that changes row after row by their keys;
  * `orderBy` -- the rows in the order of a key; `orderBy_eq` -- a list of the same rows in strictly
    growing order is it;
  * `orderBy_filter`, `filter_mergeSort` -- a filter before an ordering is one behind it;
  * `rank` -- how many rows come before one; `mem_take_iff` -- the first rows by their ranks.
-/
import Mathlib.Data.List.Sort

namespace Rows

variable {α β : Type} {p : α → Bool} {f : α → α} {rows : List α} {r : α}

def update (p : α → Bool) (f : α → α) (rows : List α) : List α :=
  rows.map fun r => if p r then f r else r

def delete (p : α → Bool) (rows : List α) : List α := rows.filter fun r => !p r

theorem mem_update : r ∈ update p f rows ↔
    (∃ old ∈ rows, p old = true ∧ f old = r) ∨ (r ∈ rows ∧ p r = false) := by
  rw [update, List.mem_map]
  constructor
  · rintro ⟨old, hold, h⟩
    by_cases hp : p old = true
    · rw [if_pos hp] at h
      exact Or.inl ⟨old, hold, hp, h⟩
    · rw [if_neg hp] at h
      subst h
      exact Or.inr ⟨hold, by rwa [Bool.not_eq_true] at hp⟩
  · rintro (⟨old, hold, hp, h⟩ | ⟨h, hp⟩)
    · exact ⟨old, hold, by rw [if_pos hp]; exact h⟩
    · exact ⟨r, h, by rw [hp]; rfl⟩

/-- A column that the change keeps is kept. -/
theorem map_update (g : α → β) (hf : ∀ r ∈ rows, p r = true → g (f r) = g r) :
    (update p f rows).map g = rows.map g := by
  rw [update, List.map_map]
  refine List.map_congr_left fun r hr => ?_
  show g (if p r then f r else r) = g r
  by_cases hp : p r = true
  · rw [if_pos hp]
    exact hf r hr hp
  · rw [if_neg hp]

theorem update_eq_self (h : ∀ r ∈ rows, p r = false) : update p f rows = rows := by
  conv_rhs => rw [← List.map_id rows]
  refine List.map_congr_left fun r hr => ?_
  rw [h r hr]
  rfl

theorem mem_delete : r ∈ delete p rows ↔ r ∈ rows ∧ p r = false := by
  rw [delete, List.mem_filter, Bool.not_eq_true']

theorem delete_eq_self (h : ∀ r ∈ rows, p r = false) : delete p rows = rows := by
  rw [delete, List.filter_eq_self]
  intro r hr
  rw [h r hr]
  rfl

variable {g : α → β}

/-- Two rows with one value in a column without repetition are one row. -/
theorem eq_of_key (hn : (rows.map g).Nodup) {r q : α} (hr : r ∈ rows) (hq : q ∈ rows)
    (h : g r = g q) : r = q := List.inj_on_of_nodup_map hn hr hq h

theorem find?_of_key [DecidableEq β] (hn : (rows.map g).Nodup) (hr : r ∈ rows) :
    (rows.find? fun q => g q = g r) = some r := by
  cases h : rows.find? fun q => decide (g q = g r) with
  | none => exact absurd (decide_eq_true rfl) (List.find?_eq_none.mp h r hr)
  | some q =>
    have hkey : g q = g r := by simpa using List.find?_some h
    rw [eq_of_key hn (List.mem_of_find?_eq_some h) hr hkey]

/-- A loop over rows of different keys, each turn a change of the row with its key. -/
theorem foldl_update [DecidableEq β] {f : α → α → α} (hf : ∀ a r, g (f a r) = g r)
    {loop : List α} (hn : (loop.map g).Nodup) :
    loop.foldl (fun rows a => update (fun r => g r = g a) (f a) rows) rows =
      rows.map fun r => (loop.find? fun a => g a = g r).elim r fun a => f a r := by
  induction loop generalizing rows with
  | nil => simp
  | cons a loop ih =>
    obtain ⟨hnot, hrest⟩ := List.nodup_cons.mp hn
    rw [List.foldl_cons, ih hrest, update, List.map_map]
    refine List.map_congr_left fun r _ => ?_
    simp only [Function.comp_apply, decide_eq_true_eq, List.find?_cons]
    by_cases h : g r = g a
    · -- no later turn is for the key of this one
      have hnone : (loop.find? fun b => g b = g (f a r)) = none := by
        refine List.find?_eq_none.mpr fun b hb hkey => hnot ?_
        rw [← h, ← hf a r, ← of_decide_eq_true hkey]
        exact List.mem_map_of_mem hb
      rw [if_pos h, hnone, decide_eq_true h.symm]
      rfl
    · rw [if_neg h, decide_eq_false fun heq => h heq.symm]

/-- A filter on a key finds one row at most. -/
theorem countP_eq_one (hn : (rows.map g).Nodup) (hp : ∀ q, p q = true → g q = g r)
    (hr : r ∈ rows) (hpr : p r = true) : rows.countP p = 1 := by
  refine Nat.le_antisymm ?_ (List.countP_pos_iff.mpr ⟨r, hr, hpr⟩)
  induction rows with
  | nil => exact Nat.zero_le 1
  | cons q rows ih =>
    rw [List.map_cons, List.nodup_cons] at hn
    rw [List.countP_cons]
    by_cases hq : p q = true
    · have hrest : rows.countP p = 0 := List.countP_eq_zero.mpr fun x hx hpx =>
        hn.1 ((hp q hq).trans (hp x hpx).symm ▸ List.mem_map_of_mem hx)
      rw [if_pos hq, hrest]
    · rw [if_neg hq]
      rcases List.mem_cons.mp hr with rfl | hr
      · exact absurd hpr hq
      · exact ih hn.2 hr

/-- An update that finds one row, up to the order of the rows. -/
theorem update_perm (hn : (rows.map g).Nodup) (hp : ∀ q, p q = true → g q = g r)
    (hr : r ∈ rows) (hpr : p r = true) : ∃ rest, rows.Perm (r :: rest) ∧
      (update p f rows).Perm (f r :: rest) := by
  obtain ⟨a, b, rfl⟩ := List.append_of_mem hr
  rw [List.map_append, List.map_cons, List.nodup_append, List.nodup_cons] at hn
  obtain ⟨-, ⟨hb, -⟩, ha⟩ := hn
  have hua : update p f a = a := update_eq_self fun q hq => by
    rw [← Bool.not_eq_true]
    exact fun hpq => ha (g q) (List.mem_map_of_mem hq) (g r) List.mem_cons_self (hp q hpq)
  have hub : update p f b = b := update_eq_self fun q hq => by
    rw [← Bool.not_eq_true]
    exact fun hpq => hb (hp q hpq ▸ List.mem_map_of_mem hq)
  have hu : update p f (a ++ r :: b) = a ++ f r :: b := by
    have hcons : update p f (r :: b) = f r :: update p f b := by
      show (if p r = true then f r else r) :: update p f b = _
      rw [if_pos hpr]
    show List.map _ _ = _
    rw [List.map_append]
    show update p f a ++ update p f (r :: b) = _
    rw [hua, hcons, hub]
  refine ⟨a ++ b, List.perm_middle, ?_⟩
  rw [hu]
  exact List.perm_middle

/-! ## Order -/

section Order

variable {κ : Type} [LinearOrder κ] {key : α → κ}

def orderBy (key : α → κ) (rows : List α) : List α := rows.insertionSort fun a b => key a ≤ key b

theorem orderBy_perm (key : α → κ) (rows : List α) : (orderBy key rows).Perm rows :=
  List.perm_insertionSort _ rows

theorem orderBy_pairwise (key : α → κ) (rows : List α) :
    (orderBy key rows).Pairwise fun a b => key a ≤ key b :=
  @List.pairwise_insertionSort _ (fun a b => key a ≤ key b) _ ⟨fun a b => le_total (key a) (key b)⟩
    ⟨fun _ _ _ => le_trans⟩ rows

theorem pairwise_orderBy (hkeys : (rows.map key).Nodup) :
    (orderBy key rows).Pairwise fun a b => key a < key b := by
  have hnodup : ((orderBy key rows).map key).Nodup :=
    ((orderBy_perm key rows).map key).nodup_iff.mpr hkeys
  refine (List.Pairwise.and (orderBy_pairwise key rows) (List.pairwise_map.mp hnodup)).imp ?_
  exact fun h => lt_of_le_of_ne h.1 h.2

variable {l : List α}

theorem orderBy_eq (h : rows.Perm l) (hl : l.Pairwise fun a b => key a < key b) :
    orderBy key rows = l := by
  have hn : (l.map key).Nodup := List.pairwise_map.mpr (hl.imp fun h => ne_of_lt h)
  have hp := (orderBy_perm key rows).trans h
  refine List.Perm.eq_of_pairwise (fun a b ha hb h1 h2 => ?_) (orderBy_pairwise key rows)
    (hl.imp fun h => le_of_lt h) hp
  exact List.inj_on_of_nodup_map hn (hp.mem_iff.mp ha) hb (le_antisymm h1 h2)

/-! ## Ranks -/

/-- How many rows come before one. -/
def rank (key : α → κ) (rows : List α) (a : α) : Nat := rows.countP fun b => key b < key a

theorem rank_perm (h : rows.Perm l) (a : α) : rank key rows a = rank key l a :=
  h.countP_eq _

theorem rank_le_of_sublist (h : l.Sublist rows) (a : α) :
    rank key l a ≤ rank key rows a := h.countP_le

theorem rank_lt_length (a : α) (h : a ∈ rows) : rank key rows a < rows.length := by
  refine Nat.lt_of_le_of_ne List.countP_le_length fun he => ?_
  have hall := List.countP_eq_length.mp he a h
  exact absurd (of_decide_eq_true hall) (lt_irrefl _)

section

variable (hl : l.Pairwise fun a b => key a < key b)

include hl

/-- The place of a row in a list in strict order is its rank. -/
theorem rank_of_getElem? {i : Nat} {a : α} (ha : l[i]? = some a) : rank key l a = i := by
  induction l generalizing i with
  | nil => cases ha
  | cons b l ih =>
    obtain ⟨hb, hl⟩ := List.pairwise_cons.mp hl
    cases i with
    | zero =>
      cases ha
      refine List.countP_eq_zero.mpr fun c hc => ?_
      rw [decide_eq_true_eq, not_lt]
      rcases List.mem_cons.mp hc with rfl | hc
      · exact le_refl _
      · exact le_of_lt (hb c hc)
    | succ i =>
      have hlt : key b < key a := hb a (List.mem_of_getElem? ha)
      have hrest : rank key l a = i := ih hl ha
      rw [rank, List.countP_cons, if_pos (decide_eq_true hlt)]
      exact congrArg Nat.succ hrest

theorem mem_take_iff {k : Nat} {a : α} : a ∈ l.take k ↔ a ∈ l ∧ rank key l a < k := by
  constructor
  · intro ha
    obtain ⟨i, hi⟩ := List.mem_iff_getElem?.mp ha
    have hk : i < k := by
      have := (List.getElem?_eq_some_iff.mp hi).1
      rw [List.length_take] at this
      omega
    rw [List.getElem?_take_of_lt hk] at hi
    exact ⟨List.mem_of_getElem? hi, (rank_of_getElem? hl hi).symm ▸ hk⟩
  · rintro ⟨ha, hk⟩
    obtain ⟨i, hi⟩ := List.mem_iff_getElem?.mp ha
    rw [rank_of_getElem? hl hi] at hk
    exact List.mem_of_getElem? ((List.getElem?_take_of_lt hk).trans hi)

/-- The first row that a filter finds comes before the others. -/
theorem find?_first {a : α}
    (ha : l.find? p = some a) {b : α} (hb : b ∈ l) (hpb : p b = true) : key a ≤ key b := by
  obtain ⟨-, l₁, l₂, rfl, hnone⟩ := List.find?_eq_some_iff_append.mp ha
  rcases List.mem_append.mp hb with hb | hb
  · exact absurd hpb (by simpa using hnone b hb)
  · rcases List.mem_cons.mp hb with rfl | hb
    · exact le_refl _
    · have hcons := (List.pairwise_append.mp hl).2.1
      exact le_of_lt ((List.pairwise_cons.mp hcons).1 b hb)

end

/-- Rows of a filter in order are the ordered rows of the filter. -/
theorem orderBy_filter (hkeys : (rows.map key).Nodup) (p : α → Bool) :
    orderBy key (rows.filter p) = (orderBy key rows).filter p := by
  have hperm : (rows.filter p).Perm ((orderBy key rows).filter p) :=
    (orderBy_perm key rows).symm.filter p
  exact orderBy_eq hperm ((pairwise_orderBy hkeys).filter p)

/-- Sorting by the ranks of kinds leaves the rows of one kind as they stood. -/
theorem filter_mergeSort {rank : α → ℕ} {k : ℕ} (hp : ∀ r, p r = true → rank r = k) :
    (rows.mergeSort fun a b => rank a ≤ rank b).filter p = rows.filter p := by
  have hkind : (rows.filter p).Pairwise fun a b => decide (rank a ≤ rank b) = true := by
    refine List.pairwise_of_forall_mem_list fun a ha b hb => decide_eq_true ?_
    rw [hp a (List.mem_filter.mp ha).2, hp b (List.mem_filter.mp hb).2]
  have hsub : (rows.filter p).Sublist (rows.mergeSort fun a b => rank a ≤ rank b) := by
    refine List.sublist_mergeSort (fun a b c hab hbc => ?_) (fun a b => ?_) hkind List.filter_sublist
    · exact decide_eq_true ((of_decide_eq_true hab).trans (of_decide_eq_true hbc))
    · simpa using Nat.le_total (rank a) (rank b)
  have hfilter : (rows.filter p).Sublist ((rows.mergeSort fun a b => rank a ≤ rank b).filter p) := by
    simpa [List.filter_filter] using hsub.filter p
  exact (hfilter.eq_of_length ((List.mergeSort_perm _ _).filter p).length_eq.symm).symm

end Order

/-! ## Results for every row -/

section Results

variable {l : List α}

theorem mapM_eq_some_map {f : α → Option β} {g : α → β}
    (h : ∀ a ∈ l, f a = some (g a)) : l.mapM f = some (l.map g) := by
  induction l with
  | nil => rfl
  | cons a l ih =>
    rw [List.mapM_cons, h a List.mem_cons_self, ih fun b hb => h b (List.mem_cons_of_mem _ hb)]
    rfl

theorem mapM_congr {f g : α → Option β} (h : ∀ a ∈ l, f a = g a) : l.mapM f = l.mapM g := by
  induction l with
  | nil => rfl
  | cons a l ih =>
    rw [List.mapM_cons, List.mapM_cons, h a List.mem_cons_self,
      ih fun b hb => h b (List.mem_cons_of_mem _ hb)]

theorem mapM_eq_none {f : α → Option β} {a : α} (ha : a ∈ l)
    (h : f a = none) : l.mapM f = none := by
  induction l with
  | nil => cases ha
  | cons b l ih =>
    rw [List.mapM_cons]
    rcases List.mem_cons.mp ha with rfl | hl
    · rw [h]
      rfl
    · rw [ih hl]
      cases f b <;> rfl

theorem exists_of_mapM_eq_none {f : α → Option β} (h : l.mapM f = none) : ∃ a ∈ l, f a = none := by
  induction l with
  | nil => exact absurd h nofun
  | cons a l ih =>
    cases ha : f a with
    | none => exact ⟨a, List.mem_cons_self, ha⟩
    | some b =>
      rw [List.mapM_cons, ha] at h
      cases hl : l.mapM f with
      | none =>
        obtain ⟨c, hc, hnone⟩ := ih hl
        exact ⟨c, List.mem_cons_of_mem _ hc, hnone⟩
      | some bs => rw [hl] at h; exact absurd h nofun

end Results

end Rows

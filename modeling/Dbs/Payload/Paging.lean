/-
  File:      Dbs/Payload/Paging.lean
  Subject:   PAGES BY KEY (serialize.py, Pages) from a table that stands in no order: each page is one
             query, for the rows behind the last key, and its size is what was measured until then.

  * `Pages`, `measured`, `next` -- the generator between two of its turns;
  * `readPages` -- whoever reads the pages may measure as often as they like after each;
  * `fetch_eq` -- a query sees the table in key order;
  * `pages_complete` -- every row once, in key order, and the reading ends.
-/
import Dbs.Lib.Rows
import Dbs.Payload.Records

namespace Dbs.Paging

open Payload (after measured fetchBytesTarget)

/-! ## 1. The generator -/

/-- The object, with where its iteration stands. -/
structure Pages (κ : Type) where
  rows : Nat
  size : Nat
  last : Option κ := none
  ended : Bool := false

variable {ρ κ : Type} [LinearOrder κ] (pk : ρ → κ) (table : List ρ)

def Pages.start (rows : Nat) (adaptive heavy : Bool) : Pages κ :=
  { rows, size := if adaptive && heavy then 1 else rows }

def Pages.measured (p : Pages κ) (report : Nat × Nat) : Pages κ :=
  { p with size := Payload.measured p.rows p.size report.1 report.2 }

/-- `list(page[:size])`, where `page` is the rows behind `last` ordered by key. -/
def fetch (last : Option κ) (size : Nat) : List ρ := (Rows.orderBy pk (after pk table last)).take size

/-- To the next `yield`, with the page; no page where the generator returns. -/
def Pages.next (p : Pages κ) : List ρ × Pages κ :=
  if p.ended then ([], p)
  else
    let chunk := fetch pk table p.last p.size
    match chunk.getLast? with
    | none => ([], { p with ended := true })
    | some row => (chunk, { p with last := some (pk row), ended := chunk.length < p.size })

/-- Reading all pages; `reports` are the measurements after each, encoded bytes and rows. -/
def readPages (reports : Nat → List ρ → List (Nat × Nat)) :
    (fuel index : Nat) → Pages κ → Option (List (List ρ))
  | 0, _, _ => none
  | fuel + 1, index, p =>
    match p.next pk table with
    | ([], _) => some []
    | (chunk, p) =>
      (readPages reports fuel (index + 1) ((reports index chunk).foldl Pages.measured p)).map
        (chunk :: ·)

/-! ## 2. One page -/

section Page

variable {pk table}

/-- **A query sees the table in key order.** -/
theorem fetch_eq (hkeys : (table.map pk).Nodup) (last : Option κ) (size : Nat) :
    fetch pk table last size = (after pk (Rows.orderBy pk table) last).take size := by
  cases last with
  | none => rfl
  | some last => exact congrArg (List.take size) (Rows.orderBy_filter hkeys _)

omit [LinearOrder κ] in
theorem size_pos {p : Pages κ} (hsize : 0 < p.size) (reports : List (Nat × Nat)) :
    0 < (reports.foldl Pages.measured p).size := by
  induction reports generalizing p with
  | nil => exact hsize
  | cons report reports ih => exact ih (Nat.lt_of_lt_of_le Nat.zero_lt_one (Nat.le_max_left _ _))

omit [LinearOrder κ] in
theorem foldl_measured (p : Pages κ) (reports : List (Nat × Nat)) :
    (reports.foldl Pages.measured p).last = p.last ∧
      (reports.foldl Pages.measured p).ended = p.ended := by
  induction reports generalizing p with
  | nil => exact ⟨rfl, rfl⟩
  | cons report reports ih => exact ih (p.measured report)

end Page

/-! ## 3. All pages -/

section Reading

variable {pk table}

/-- **The reading, from any page on**: the rows behind the last key are left, in key order; by
    induction on the fuel. -/
theorem readPages_run (hkeys : (table.map pk).Nodup) (reports : Nat → List ρ → List (Nat × Nat))
    (fuel index : Nat) (p : Pages κ) (done : List ρ) {rest : List ρ}
    (hsplit : Rows.orderBy pk table = done ++ rest)
    (hafter : after pk (Rows.orderBy pk table) p.last = rest) (hended : p.ended = true → rest = [])
    (hfuel : rest.length < fuel) (hsize : 0 < p.size) :
    ∃ pages, readPages pk table reports fuel index p = some pages ∧ pages.flatten = rest := by
  induction fuel generalizing index p done rest with
  | zero => exact absurd hfuel (Nat.not_lt_zero _)
  | succ fuel ih =>
    rw [readPages, Pages.next]
    by_cases hend : p.ended = true
    · rw [if_pos hend]
      exact ⟨[], rfl, (hended hend).symm⟩
    rw [if_neg hend, fetch_eq hkeys, hafter]
    dsimp only
    cases hlast : (rest.take p.size).getLast? with
    | none =>
      refine ⟨[], rfl, ?_⟩
      have hnil := List.getLast?_eq_none_iff.mp hlast
      exact ((List.take_eq_nil_iff.mp hnil).resolve_left (Nat.pos_iff_ne_zero.mp hsize)).symm
    | some row =>
      have hne : rest.take p.size ≠ [] := by
        intro hnil
        rw [hnil] at hlast
        cases hlast
      obtain ⟨first, chunk, hchunk⟩ := List.exists_cons_of_ne_nil hne
      have hsplit' : Rows.orderBy pk table = done ++ (rest.take p.size ++ rest.drop p.size) := by
        rw [List.take_append_drop, hsplit]
      set p' : Pages κ := (reports index (rest.take p.size)).foldl Pages.measured
        { p with last := some (pk row), ended := (rest.take p.size).length < p.size } with hp'
      obtain ⟨hlast', hended'⟩ := foldl_measured { p with
        last := some (pk row), ended := (rest.take p.size).length < p.size }
        (reports index (rest.take p.size))
      rw [← hp'] at hlast' hended'
      have hdrop : after pk (Rows.orderBy pk table) p'.last = rest.drop p.size := by
        rw [hlast']
        exact Payload.after_last pk hsplit' (Rows.pairwise_orderBy hkeys) hlast
      have hnone : p'.ended = true → rest.drop p.size = [] := by
        intro h
        rw [hended'] at h
        have hshort : (rest.take p.size).length < p.size := of_decide_eq_true h
        rw [List.length_take] at hshort
        exact List.drop_eq_nil_of_le (by omega)
      have hleft : (rest.drop p.size).length < fuel := by
        have hpos : 0 < (rest.take p.size).length := List.length_pos_iff.mpr hne
        rw [List.length_take] at hpos
        rw [List.length_drop]
        omega
      have hsize' : 0 < p'.size := size_pos (p := { p with
        last := some (pk row), ended := (rest.take p.size).length < p.size }) hsize _
      obtain ⟨pages, hpages, hflatten⟩ := ih (index + 1) p' (done ++ rest.take p.size)
        (by rw [List.append_assoc]; exact hsplit') hdrop hnone hleft hsize'
      refine ⟨rest.take p.size :: pages, ?_, ?_⟩
      · rw [hchunk] at hp' ⊢
        show (readPages pk table reports fuel (index + 1) _).map _ = _
        rw [← hp', hpages]
        rfl
      · rw [List.flatten_cons, hflatten, List.take_append_drop]

/-- **The pages are the table in key order, every row once, and they end**, whatever is measured between
    them; `rows` is not zero in any call. -/
theorem pages_complete (hkeys : (table.map pk).Nodup) {rows : Nat} (hrows : 0 < rows)
    (adaptive heavy : Bool) (reports : Nat → List ρ → List (Nat × Nat)) :
    ∃ pages, readPages pk table reports (table.length + 1) 0 (Pages.start rows adaptive heavy) =
        some pages ∧
      pages.flatten.Perm table ∧ pages.flatten.Pairwise fun a b => pk a < pk b := by
  have hsize : 0 < (Pages.start rows adaptive heavy : Pages κ).size := by
    show 0 < if _ then 1 else rows
    split
    · exact Nat.zero_lt_one
    · exact hrows
  have hfuel : (Rows.orderBy pk table).length < table.length + 1 := by
    rw [(Rows.orderBy_perm pk table).length_eq]
    exact Nat.lt_succ_self _
  obtain ⟨pages, hpages, hflatten⟩ := readPages_run hkeys reports (table.length + 1) 0
    (Pages.start rows adaptive heavy) [] rfl rfl nofun hfuel hsize
  refine ⟨pages, hpages, ?_, ?_⟩
  · rw [hflatten]
    exact Rows.orderBy_perm pk table
  · rw [hflatten]
    exact Rows.pairwise_orderBy hkeys

/-- Three rows out of order, pages of two, and what was measured lets the size fall to one. -/
theorem pages_complete_three :
    ∃ pages, readPages id [5, 1, 3] (fun _ _ => [(2 ^ 30, 1)]) 4 0 (Pages.start 2 false false) =
        some pages ∧
      pages.flatten.Perm [5, 1, 3] ∧ pages.flatten.Pairwise fun a b => id a < id b :=
  pages_complete (by decide) (by decide) false false _

example : readPages id [5, 1, 3] (fun _ _ => [(2 ^ 30, 1)]) 4 0 (Pages.start 2 false false) =
    some [[1, 3], [5]] := by decide

end Reading

end Dbs.Paging

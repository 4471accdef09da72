/-
  File:      Dbs/Retention.lean
  Subject:   WHICH BACKUPS RETENTION REMOVES (retention.py), over any order of moments and of names.

  * `StoredBackup`, `newestFirst` -- what the server keeps, and the order that decides;
  * `staleStoredBackups`, `staleBeyondLimit` -- the two lists of the source;
  * `Stale`, `mem_staleOf` -- which backups the first names, said without its lists;
  * `retention_spares` -- what both spare, in which order they name the others, and that what is left is
    not cut down again; `Stale.younger` -- what is named and younger than a backup that is spared.
-/
import Dbs.Lib.Rows
import Mathlib.Data.Prod.Lex
import Mathlib.Data.String.Basic

namespace Dbs.Retention

open Rows

/-! ## 1. The lists -/

inductive Verification
  | passed
  | failed
  | unknown
deriving DecidableEq

/-- Its name comes from a folder and matches the pattern of backup names, so it is not empty. -/
structure StoredBackup (ν τ : Type) [Inhabited ν] where
  name : ν
  moment : τ
  verification : Verification := .unknown
  named : name ≠ default

variable {ν τ : Type} [Inhabited ν] [LinearOrder ν] [LinearOrder τ]

namespace StoredBackup

/-- The newest comes first; names decide within a moment. -/
def key (b : StoredBackup ν τ) : (Lex (τ × ν))ᵒᵈ := OrderDual.toDual (toLex (b.moment, b.name))

def hasPassed (b : StoredBackup ν τ) : Bool := b.verification = .passed

/-- A backup that failed verification takes no place. -/
def counts (b : StoredBackup ν τ) : Bool := b.verification ≠ .failed

end StoredBackup

open StoredBackup

def newestFirst (backups : List (StoredBackup ν τ)) : List (StoredBackup ν τ) := orderBy key backups

def newestPassed (backups : List (StoredBackup ν τ)) : Option (StoredBackup ν τ) :=
  (newestFirst backups).find? hasPassed

def kept (backups : List (StoredBackup ν τ)) (keep : Nat) : List ν :=
  (((newestFirst backups).filter counts).take keep).map name ++
    ((newestPassed backups).map name).toList

def staleStoredBackups (backups : List (StoredBackup ν τ)) (keep : Nat) : Except String (List ν) :=
  if keep < 1 then .error "Retention must keep at least one backup."
  else
    let stale := (newestFirst backups).zipIdx.filter fun x =>
      !(kept backups keep).contains x.1.name && (x.1.counts || decide (keep ≤ x.2))
    .ok (stale.reverse.map fun x => x.1.name)

/-- `protected`; an empty name counts as none. -/
def spared (backups : List (StoredBackup ν τ)) (protect : List ν) : List ν :=
  protect ++ (((newestPassed backups).map name).filter fun verified => verified ≠ default).toList

/-- The loop over the backups that remain, from the oldest, while there is a surplus. -/
def surplus (guarded : List ν) : Nat → List ν → List ν
  | 0, _ => []
  | _, [] => []
  | n + 1, name :: rest =>
    if guarded.contains name then surplus guarded (n + 1) rest
    else name :: surplus guarded n rest

def staleBeyondLimit (backups : List (StoredBackup ν τ)) (keep : Nat) (protect : List ν) :
    Except String (List ν) := do
  let newest := newestFirst backups
  let guarded := spared backups protect
  let stale := (← staleStoredBackups backups keep).filter fun n => !guarded.contains n
  let remaining := (newest.map name).filter fun n => !stale.contains n
  let more := surplus guarded (remaining.length - keep) remaining.reverse
  return (newest.reverse.filter fun b => (stale ++ more).contains b.name).map name

/-- What is there when the named backups are gone. -/
def survivors (backups : List (StoredBackup ν τ)) (names : List ν) : List (StoredBackup ν τ) :=
  backups.filter fun b => !names.contains b.name

/-! ## 2. Which backups are stale -/

section Stale

variable {backups rest : List (StoredBackup ν τ)} {b c : StoredBackup ν τ} {keep : Nat}

/-- The newest of the backups that passed. -/
structure IsNewestPassed (backups : List (StoredBackup ν τ)) (b : StoredBackup ν τ) : Prop where
  mem : b ∈ backups
  passed : b.hasPassed = true
  newest : ∀ c ∈ backups, c.hasPassed = true → b.key ≤ c.key

/-- **A stale backup** is not the newest that passed; if it did not fail, enough that did not fail are
    newer, and if it failed, enough of any kind. -/
structure Stale (backups : List (StoredBackup ν τ)) (keep : Nat) (b : StoredBackup ν τ) : Prop where
  mem : b ∈ backups
  notNewest : ¬ IsNewestPassed backups b
  counted : b.counts = true → keep ≤ rank key (backups.filter counts) b
  failed : b.counts = false → keep ≤ rank key backups b

omit [LinearOrder ν] [LinearOrder τ] in
theorem key_injective {b c : StoredBackup ν τ} (h : b.key = c.key) : b.name = c.name :=
  (Prod.mk.inj (toLex.injective (OrderDual.toDual.injective h))).2

omit [LinearOrder ν] [LinearOrder τ] in
theorem eq_of_name (hn : (backups.map name).Nodup) (hb : b ∈ backups) (hc : c ∈ backups)
    (h : b.name = c.name) : b = c := eq_of_key hn hb hc h

theorem newestFirst_perm (backups : List (StoredBackup ν τ)) : (newestFirst backups).Perm backups :=
  orderBy_perm key backups

theorem mem_newestFirst : b ∈ newestFirst backups ↔ b ∈ backups :=
  (newestFirst_perm backups).mem_iff

/-- With distinct names the order is strict. -/
theorem newestFirst_strict (hn : (backups.map name).Nodup) :
    (newestFirst backups).Pairwise fun a b => a.key < b.key := by
  have hnames : ((newestFirst backups).map name).Nodup :=
    ((newestFirst_perm backups).map name).nodup_iff.mpr hn
  refine ((orderBy_pairwise key backups).and (List.pairwise_map.mp hnames)).imp ?_
  intro a b ⟨hle, hne⟩
  exact lt_of_le_of_ne hle fun h => hne (key_injective h)

theorem newestPassed_iff (hn : (backups.map name).Nodup) :
    newestPassed backups = some b ↔ IsNewestPassed backups b := by
  constructor
  · intro h
    exact ⟨mem_newestFirst.mp (List.mem_of_find?_eq_some h), List.find?_some h, fun c hc hp =>
      find?_first (newestFirst_strict hn) h (mem_newestFirst.mpr hc) hp⟩
  · intro h
    cases hfound : newestPassed backups with
    | none =>
      have hnone := List.find?_eq_none.mp hfound b (mem_newestFirst.mpr h.mem)
      exact absurd h.passed hnone
    | some v =>
      have hv : v.key ≤ b.key :=
        find?_first (newestFirst_strict hn) hfound (mem_newestFirst.mpr h.mem) h.passed
      have hmem : v ∈ backups := mem_newestFirst.mp (List.mem_of_find?_eq_some hfound)
      have hb := h.newest v hmem (List.find?_some hfound)
      rw [eq_of_name hn hmem h.mem (key_injective (le_antisymm hv hb))]

theorem mem_kept (hn : (backups.map name).Nodup) (hb : b ∈ backups) :
    b.name ∈ kept backups keep ↔
      b.counts = true ∧ rank key (backups.filter counts) b < keep ∨ IsNewestPassed backups b := by
  have hstrict := (newestFirst_strict hn).filter counts
  have hperm : ((newestFirst backups).filter counts).Perm (backups.filter counts) :=
    (newestFirst_perm backups).filter counts
  rw [kept, List.mem_append]
  refine or_congr ?_ ?_
  · rw [← rank_perm hperm]
    constructor
    · intro h
      obtain ⟨c, hc, hname⟩ := List.mem_map.mp h
      obtain ⟨hc, hr⟩ := (mem_take_iff hstrict).mp hc
      obtain ⟨hc, hcounts⟩ := List.mem_filter.mp hc
      obtain rfl := eq_of_name hn (mem_newestFirst.mp hc) hb hname
      exact ⟨hcounts, hr⟩
    · rintro ⟨hcounts, hr⟩
      refine List.mem_map_of_mem ((mem_take_iff hstrict).mpr ⟨?_, hr⟩)
      exact List.mem_filter.mpr ⟨mem_newestFirst.mpr hb, hcounts⟩
  · rw [← newestPassed_iff hn, Option.mem_toList, Option.map_eq_some_iff]
    constructor
    · rintro ⟨c, hc, hname⟩
      rw [hc, eq_of_name hn ((newestPassed_iff hn).mp hc).mem hb hname]
    · exact fun h => ⟨b, h, rfl⟩

/-- The backups that `staleStoredBackups` names, the newest first. -/
def staleOf (backups : List (StoredBackup ν τ)) (keep : Nat) : List (StoredBackup ν τ) :=
  ((newestFirst backups).zipIdx.filter fun x =>
    !(kept backups keep).contains x.1.name && (x.1.counts || decide (keep ≤ x.2))).map Prod.fst

theorem staleStoredBackups_eq (hk : 1 ≤ keep) :
    staleStoredBackups backups keep = .ok ((staleOf backups keep).reverse.map name) := by
  rw [staleStoredBackups, if_neg (by omega), staleOf, ← List.map_reverse, List.map_map]
  rfl

theorem staleOf_sublist : (staleOf backups keep).Sublist (newestFirst backups) := by
  have h : (staleOf backups keep).Sublist ((newestFirst backups).zipIdx.map Prod.fst) :=
    List.filter_sublist.map Prod.fst
  rwa [List.zipIdx_map_fst] at h

/-- **The stale backups** are the ones that are listed. -/
theorem mem_staleOf (hn : (backups.map name).Nodup) :
    b ∈ staleOf backups keep ↔ Stale backups keep b := by
  have hstrict := newestFirst_strict hn
  rw [staleOf, List.mem_map]
  constructor
  · rintro ⟨⟨c, i⟩, hx, rfl⟩
    obtain ⟨hx, hc⟩ := List.mem_filter.mp hx
    rw [List.mem_zipIdx_iff_getElem?] at hx
    have hmem : c ∈ backups := mem_newestFirst.mp (List.mem_of_getElem? hx)
    obtain ⟨hkept, hpos⟩ := Bool.and_eq_true_iff.mp hc
    have hkept : c.name ∉ kept backups keep := by simpa using hkept
    rw [mem_kept hn hmem, not_or, not_and, not_lt] at hkept
    refine ⟨hmem, hkept.2, hkept.1, fun hfailed => ?_⟩
    rw [← rank_perm (newestFirst_perm backups), rank_of_getElem? hstrict hx]
    simpa [hfailed] using hpos
  · intro h
    obtain ⟨i, hi⟩ := List.mem_iff_getElem?.mp (mem_newestFirst.mpr h.mem)
    refine ⟨(b, i), List.mem_filter.mpr ⟨List.mem_zipIdx_iff_getElem?.mpr hi, ?_⟩, rfl⟩
    have hkept : b.name ∉ kept backups keep := by
      rw [mem_kept hn h.mem, not_or, not_and, not_lt]
      exact ⟨h.counted, h.notNewest⟩
    cases hcounts : b.counts with
    | true => simp [hkept]
    | false =>
      have hrank := h.failed hcounts
      rw [← rank_perm (newestFirst_perm backups), rank_of_getElem? hstrict hi] at hrank
      simp [hkept, hrank]

/-- Among fewer backups no other one is stale. -/
theorem Stale.of_sublist (h : rest.Sublist backups) (hs : Stale rest keep b) :
    Stale backups keep b where
  mem := h.subset hs.mem
  notNewest := fun hb => hs.notNewest ⟨hs.mem, hb.passed, fun c hc => hb.newest c (h.subset hc)⟩
  counted := fun hc => (hs.counted hc).trans (rank_le_of_sublist (h.filter counts) b)
  failed := fun hc => (hs.failed hc).trans (rank_le_of_sublist h b)

/-- Where no more than `keep` are left none is stale. -/
theorem Stale.keep_lt (hs : Stale backups keep b) : keep < backups.length := by
  cases hc : b.counts with
  | true =>
    have hmem : b ∈ backups.filter counts := List.mem_filter.mpr ⟨hs.mem, hc⟩
    have hlt : rank key (backups.filter counts) b < _ := rank_lt_length b hmem
    exact ((hs.counted hc).trans_lt hlt).trans_le (List.length_filter_le _ _)
  | false => exact (hs.failed hc).trans_lt (rank_lt_length b hs.mem)

end Stale

/-! ## 3. What is spared, and in which order the others are named -/

section Spares

variable {backups rest : List (StoredBackup ν τ)} {b c : StoredBackup ν τ} {keep : Nat}
  {protect guarded names : List ν}

/-- The names are of backups in the order of their age, the oldest first. -/
def OldestFirst (backups : List (StoredBackup ν τ)) (names : List ν) : Prop :=
  ∃ l, l ⊆ backups ∧ names = l.map name ∧ l.Pairwise fun a b => b.key < a.key

theorem oldestFirst_of_sublist {l : List (StoredBackup ν τ)} (hn : (backups.map name).Nodup)
    (h : l.Sublist (newestFirst backups)) : OldestFirst backups (l.reverse.map name) := by
  refine ⟨l.reverse, fun b hb => ?_, rfl, ?_⟩
  · exact mem_newestFirst.mp (h.subset (List.mem_reverse.mp hb))
  · exact List.pairwise_reverse.mpr ((newestFirst_strict hn).sublist h)

omit [LinearOrder τ] in
theorem mem_survivors : b ∈ survivors backups names ↔ b ∈ backups ∧ b.name ∉ names := by
  rw [survivors, List.mem_filter]
  simp

omit [LinearOrder τ] in
theorem survivors_sublist : (survivors backups names).Sublist backups := List.filter_sublist

omit [LinearOrder τ] in
theorem nodup_survivors (hn : (backups.map name).Nodup) :
    ((survivors backups names).map name).Nodup := hn.sublist (survivors_sublist.map name)

theorem mem_staleNames (hn : (backups.map name).Nodup) (hb : b ∈ backups) :
    b.name ∈ (staleOf backups keep).reverse.map name ↔ Stale backups keep b := by
  rw [List.map_reverse, List.mem_reverse, List.mem_map]
  constructor
  · rintro ⟨c, hc, hname⟩
    have hc := (mem_staleOf hn).mp hc
    exact eq_of_name hn hc.mem hb hname ▸ hc
  · exact fun h => ⟨b, (mem_staleOf hn).mpr h, rfl⟩

theorem staleOf_eq_nil (hn : (backups.map name).Nodup) (h : ∀ b, ¬ Stale backups keep b) :
    staleOf backups keep = [] :=
  List.eq_nil_iff_forall_not_mem.mpr fun b hb => h b ((mem_staleOf hn).mp hb)

/-- **The rest is not cut down again**. -/
theorem staleStoredBackups_survivors (hn : (backups.map name).Nodup) (hk : 1 ≤ keep) :
    staleStoredBackups (survivors backups ((staleOf backups keep).reverse.map name)) keep = .ok [] := by
  rw [staleStoredBackups_eq hk, staleOf_eq_nil (nodup_survivors hn)]
  · rfl
  · intro b hb
    obtain ⟨hmem, hname⟩ := mem_survivors.mp hb.mem
    exact hname ((mem_staleNames hn hmem).mpr (hb.of_sublist survivors_sublist))

/-! ## 4. The limit -/

omit [Inhabited ν] in
theorem surplus_eq (guarded : List ν) (n : Nat) (l : List ν) :
    surplus guarded n l = (l.filter fun x => !guarded.contains x).take n := by
  induction l generalizing n with
  | nil => cases n <;> simp [surplus]
  | cons x l ih =>
    cases n with
    | zero => simp [surplus]
    | succ n =>
      rw [surplus]
      by_cases hx : guarded.contains x = true
      · rw [if_pos hx, ih, List.filter_cons_of_neg (by simpa using hx)]
      · rw [if_neg hx, ih, List.filter_cons_of_pos (by simpa using hx), List.take_succ_cons]

omit [Inhabited ν] in
/-- Taking away names that are there. -/
theorem length_without {more : List ν} (hn : names.Nodup) (hmore : more.Nodup) (h : more ⊆ names) :
    (names.filter fun n => !more.contains n).length = names.length - more.length := by
  have hperm : (names.filter fun n => more.contains n).Perm more := by
    refine (List.perm_ext_iff_of_nodup (hn.filter _) hmore).mpr fun n => ?_
    rw [List.mem_filter, List.contains_iff_mem]
    exact ⟨And.right, fun hm => ⟨h hm, hm⟩⟩
  have hall := (List.filter_append_perm (fun n => more.contains n) names).length_eq
  rw [List.length_append, hperm.length_eq] at hall
  omega

omit [Inhabited ν] in
/-- **The loop** leaves no more than the limit, or nothing that may be taken. -/
theorem surplus_cases (guarded : List ν) (keep : Nat) (hn : names.Nodup) :
    (names.filter fun n => !(surplus guarded (names.length - keep) names.reverse).contains n).length ≤
      keep ∨
    ∀ n ∈ names, n ∉ surplus guarded (names.length - keep) names.reverse → n ∈ guarded := by
  rw [surplus_eq]
  generalize hfree : names.reverse.filter (fun x => !guarded.contains x) = free
  by_cases hs : names.length - keep ≤ free.length
  · refine .inl ?_
    have hsub : (free.take (names.length - keep)).Sublist names.reverse := by
      rw [← hfree]
      exact (List.take_sublist _ _).trans List.filter_sublist
    rw [length_without hn ((List.nodup_reverse.mpr hn).sublist hsub)
      fun n hm => List.mem_reverse.mp (hsub.subset hm), List.length_take]
    omega
  · refine .inr fun n hmem hfree' => ?_
    rw [List.take_of_length_le (by omega), ← hfree, List.mem_filter, List.mem_reverse] at hfree'
    by_contra hg
    exact hfree' ⟨hmem, by simpa using hg⟩

/-- The stale backups that are not spared. -/
def limitStale (backups : List (StoredBackup ν τ)) (keep : Nat) (protect : List ν) : List ν :=
  ((staleOf backups keep).reverse.map name).filter fun n => !(spared backups protect).contains n

def remainingNames (backups : List (StoredBackup ν τ)) (keep : Nat) (protect : List ν) : List ν :=
  ((newestFirst backups).map name).filter fun n => !(limitStale backups keep protect).contains n

theorem mem_remainingNames {n : ν} : n ∈ remainingNames backups keep protect ↔
    (∃ b ∈ backups, b.name = n) ∧ n ∉ limitStale backups keep protect := by
  rw [remainingNames, List.mem_filter, List.mem_map]
  simp only [mem_newestFirst, List.contains_iff_mem, Bool.not_eq_true', ← Bool.not_eq_true]

theorem nodup_remainingNames (keep : Nat) (protect : List ν) (hn : (backups.map name).Nodup) :
    (remainingNames backups keep protect).Nodup :=
  (((newestFirst_perm backups).map name).nodup_iff.mpr hn).filter _

/-- What the limit takes beyond the stale ones. -/
def beyond (backups : List (StoredBackup ν τ)) (keep : Nat) (protect : List ν) : List ν :=
  surplus (spared backups protect) ((remainingNames backups keep protect).length - keep)
    (remainingNames backups keep protect).reverse

/-- What goes, the newest first. -/
def beyondLimitOf (backups : List (StoredBackup ν τ)) (keep : Nat) (protect : List ν) :
    List (StoredBackup ν τ) :=
  (newestFirst backups).filter fun b =>
    (limitStale backups keep protect ++ beyond backups keep protect).contains b.name

theorem staleBeyondLimit_eq (hk : 1 ≤ keep) : staleBeyondLimit backups keep protect =
    .ok ((beyondLimitOf backups keep protect).reverse.map name) := by
  rw [staleBeyondLimit, staleStoredBackups_eq hk, beyondLimitOf, ← List.filter_reverse]
  rfl

theorem mem_beyond {n : ν} (h : n ∈ beyond backups keep protect) :
    n ∈ remainingNames backups keep protect ∧ n ∉ spared backups protect := by
  rw [beyond, surplus_eq] at h
  obtain ⟨hmem, hg⟩ := List.mem_filter.mp (List.mem_of_mem_take h)
  exact ⟨List.mem_reverse.mp hmem, by simpa using hg⟩

theorem mem_beyondLimitNames (hb : b ∈ backups) :
    b.name ∈ (beyondLimitOf backups keep protect).reverse.map name ↔
      b.name ∈ limitStale backups keep protect ∨ b.name ∈ beyond backups keep protect := by
  rw [List.map_reverse, List.mem_reverse, ← List.mem_append, List.mem_map]
  constructor
  · rintro ⟨c, hc, hname⟩
    obtain ⟨-, hc⟩ := List.mem_filter.mp hc
    exact hname ▸ List.contains_iff_mem.mp hc
  · exact fun h => ⟨b, List.mem_filter.mpr ⟨mem_newestFirst.mpr hb, List.contains_iff_mem.mpr h⟩, rfl⟩

/-- **Nothing that is spared goes**. -/
theorem not_mem_beyondLimit {n : ν} (h : n ∈ spared backups protect) :
    n ∉ (beyondLimitOf backups keep protect).reverse.map name := by
  intro hn
  rw [List.map_reverse, List.mem_reverse, List.mem_map] at hn
  obtain ⟨c, hc, rfl⟩ := hn
  obtain ⟨-, hc⟩ := List.mem_filter.mp hc
  rcases List.mem_append.mp (List.contains_iff_mem.mp hc) with hc | hc
  · have hg := (List.mem_filter.mp hc).2
    simp [h] at hg
  · exact (mem_beyond hc).2 h

/-- No name is empty. -/
theorem spared_eq (backups : List (StoredBackup ν τ)) (protect : List ν) :
    spared backups protect = protect ++ ((newestPassed backups).map name).toList := by
  rw [spared]
  cases newestPassed backups with
  | none => rfl
  | some b => rw [Option.map_some, Option.filter_some, if_pos (decide_eq_true b.named)]

theorem mem_spared_of_newest (hn : (backups.map name).Nodup) (h : IsNewestPassed backups b) :
    b.name ∈ spared backups protect := by
  rw [spared_eq, (newestPassed_iff hn).mpr h]
  exact List.mem_append_right _ (List.mem_singleton.mpr rfl)

/-- The names that are left. -/
theorem leftNames_perm (keep : Nat) (protect : List ν) (hn : (backups.map name).Nodup) :
    ((survivors backups ((beyondLimitOf backups keep protect).reverse.map name)).map name).Perm
      ((remainingNames backups keep protect).filter fun n =>
        !(beyond backups keep protect).contains n) := by
  have hnames := (nodup_remainingNames keep protect hn).filter fun n =>
    !(beyond backups keep protect).contains n
  refine (List.perm_ext_iff_of_nodup (nodup_survivors hn) hnames).mpr fun n => ?_
  rw [List.mem_map, List.mem_filter, mem_remainingNames]
  constructor
  · rintro ⟨b, hb, rfl⟩
    obtain ⟨hmem, hname⟩ := mem_survivors.mp hb
    rw [mem_beyondLimitNames hmem, not_or] at hname
    exact ⟨⟨⟨b, hmem, rfl⟩, hname.1⟩, by simpa using hname.2⟩
  · rintro ⟨⟨⟨b, hmem, rfl⟩, h1⟩, h2⟩
    refine ⟨b, mem_survivors.mpr ⟨hmem, ?_⟩, rfl⟩
    rw [mem_beyondLimitNames hmem, not_or]
    exact ⟨h1, by simpa using h2⟩

/-- **What the limit leaves**: no more than `keep`, or nothing but what is spared. -/
theorem left_cases (keep : Nat) (protect : List ν) (hn : (backups.map name).Nodup) :
    (survivors backups ((beyondLimitOf backups keep protect).reverse.map name)).length ≤ keep ∨
    ∀ b ∈ survivors backups ((beyondLimitOf backups keep protect).reverse.map name),
      b.name ∈ spared backups protect := by
  have hnames := nodup_remainingNames keep protect hn
  have hperm := leftNames_perm keep protect hn
  rcases surplus_cases (spared backups protect) keep hnames with h | h
  · refine .inl ?_
    have hlength := hperm.length_eq
    rw [List.length_map] at hlength
    exact hlength.trans_le h
  · refine .inr fun b hb => ?_
    obtain ⟨hmem, hmore⟩ := List.mem_filter.mp (hperm.mem_iff.mp (List.mem_map_of_mem hb))
    have hmore : b.name ∉ beyond backups keep protect := by simpa using hmore
    exact h b.name hmem hmore

theorem length_left_le (keep : Nat) (protect : List ν) (hn : (backups.map name).Nodup) :
    (survivors backups ((beyondLimitOf backups keep protect).reverse.map name)).length ≤
      max keep (backups.filter fun b => (spared backups protect).contains b.name).length := by
  rcases left_cases keep protect hn with h | h
  · exact h.trans (Nat.le_max_left _ _)
  · refine le_trans ?_ (Nat.le_max_right _ _)
    refine (List.Sublist.length_le ?_)
    have hfilter : (survivors backups ((beyondLimitOf backups keep protect).reverse.map name)).Sublist
        backups := survivors_sublist
    have hself := hfilter.filter fun b => (spared backups protect).contains b.name
    rwa [List.filter_eq_self.mpr fun b hb => List.contains_iff_mem.mpr (h b hb)] at hself

/-- The newest backup that passed is the same one among those that are left. -/
theorem spared_left (keep : Nat) (protect : List ν) (hn : (backups.map name).Nodup) :
    spared (survivors backups ((beyondLimitOf backups keep protect).reverse.map name)) protect =
      spared backups protect := by
  have hnewest : newestPassed
      (survivors backups ((beyondLimitOf backups keep protect).reverse.map name)) =
        newestPassed backups := by
    refine Option.ext fun b => ?_
    rw [newestPassed_iff (nodup_survivors hn), newestPassed_iff hn]
    have hleft : ∀ {v}, IsNewestPassed backups v →
        v ∈ survivors backups ((beyondLimitOf backups keep protect).reverse.map name) := fun hv =>
      mem_survivors.mpr ⟨hv.mem, not_mem_beyondLimit (mem_spared_of_newest hn hv)⟩
    constructor
    · intro h
      cases hfound : newestPassed backups with
      | none =>
        have hnone := List.find?_eq_none.mp hfound b
          (mem_newestFirst.mpr (survivors_sublist.subset h.mem))
        exact absurd h.passed hnone
      | some v =>
        have hv := (newestPassed_iff hn).mp hfound
        have h1 := h.newest v (hleft hv) hv.passed
        have h2 := hv.newest b (survivors_sublist.subset h.mem) h.passed
        rw [eq_of_name hn (survivors_sublist.subset h.mem) hv.mem (key_injective (le_antisymm h1 h2))]
        exact hv
    · exact fun h => ⟨hleft h, h.passed, fun c hc => h.newest c (survivors_sublist.subset hc)⟩
  rw [spared_eq, spared_eq, hnewest]

/-- **What the limit leaves is not cut down again**. -/
theorem staleBeyondLimit_survivors (keep : Nat) (protect : List ν) (hn : (backups.map name).Nodup)
    (hk : 1 ≤ keep) :
    staleBeyondLimit (survivors backups ((beyondLimitOf backups keep protect).reverse.map name))
      keep protect = .ok [] := by
  have hspared := spared_left keep protect hn
  have hcases := left_cases keep protect hn
  have hnodup : ((survivors backups ((beyondLimitOf backups keep protect).reverse.map name)).map
      name).Nodup := nodup_survivors hn
  generalize survivors backups ((beyondLimitOf backups keep protect).reverse.map name) = left
    at hspared hcases hnodup ⊢
  have hnone : ∀ b ∈ left, b.name ∉ limitStale left keep protect ∧
    b.name ∉ beyond left keep protect := by
    intro b hb
    rcases hcases with h | h
    · have hstale : staleOf left keep = [] :=
        staleOf_eq_nil hnodup fun c hc => absurd hc.keep_lt (by omega)
      have hlength : (remainingNames left keep protect).length ≤ keep :=
        ((List.length_filter_le _ _).trans_eq
          ((List.length_map _).trans (newestFirst_perm left).length_eq)).trans h
      refine ⟨?_, ?_⟩
      · rw [limitStale, hstale]
        exact List.not_mem_nil
      · rw [beyond, Nat.sub_eq_zero_of_le hlength]
        cases (remainingNames left keep protect).reverse <;> exact List.not_mem_nil
    · refine ⟨fun hs => ?_, fun hm => ?_⟩
      · have hg := (List.mem_filter.mp hs).2
        rw [hspared] at hg
        simp [h b hb] at hg
      · refine (mem_beyond hm).2 ?_
        rw [hspared]
        exact h b hb
  rw [staleBeyondLimit_eq hk, beyondLimitOf, List.filter_eq_nil_iff.mpr]
  · rfl
  · intro b hb
    have := hnone b (mem_newestFirst.mp hb)
    simpa using this

end Spares

/-! ## 5. Both lists -/

section Both

variable {backups : List (StoredBackup ν τ)} {b c : StoredBackup ν τ} {keep : Nat} {protect : List ν}

/-- **Retention never costs the last good backup**. Of the stored ones: the newest that passed and the
    newest `keep` that did not fail are spared, and a failed one among the newest `keep` alone. Beyond
    the limit: no protected one and not the newest that passed is named, and what is left is no more
    than the limit or than what has to be spared. Both name the older before the newer, and name
    nothing of what they leave. -/
theorem retention_spares (hn : (backups.map name).Nodup) (hk : 1 ≤ keep) :
    ∃ stale limited, staleStoredBackups backups keep = .ok stale ∧
      staleBeyondLimit backups keep protect = .ok limited ∧
      (∀ b, IsNewestPassed backups b → b.name ∉ stale) ∧
      (∀ b ∈ backups, b.counts = true → rank key (backups.filter counts) b < keep → b.name ∉ stale) ∧
      (∀ b ∈ backups, b.counts = false → b.name ∉ stale → rank key backups b < keep) ∧
      OldestFirst backups stale ∧
      staleStoredBackups (survivors backups stale) keep = .ok [] ∧
      (∀ n ∈ protect, n ∉ limited) ∧
      (∀ b, IsNewestPassed backups b → b.name ∉ limited) ∧
      (survivors backups limited).length ≤
        max keep (backups.filter fun b => (spared backups protect).contains b.name).length ∧
      OldestFirst backups limited ∧
      staleBeyondLimit (survivors backups limited) keep protect = .ok [] := by
  refine ⟨_, _, staleStoredBackups_eq hk, staleBeyondLimit_eq hk, ?_, ?_, ?_,
    oldestFirst_of_sublist hn staleOf_sublist, staleStoredBackups_survivors hn hk, ?_, ?_,
    length_left_le keep protect hn, oldestFirst_of_sublist hn List.filter_sublist,
    staleBeyondLimit_survivors keep protect hn hk⟩
  · intro b hb hs
    exact ((mem_staleNames hn hb.mem).mp hs).notNewest hb
  · intro b hb hc hr hs
    exact absurd (((mem_staleNames hn hb).mp hs).counted hc) (by omega)
  · intro b hb hc hs
    rw [mem_staleNames hn hb] at hs
    by_contra hr
    refine hs ⟨hb, fun hnewest => ?_, fun hc' => ?_, fun _ => not_lt.mp hr⟩
    · have hpassed := of_decide_eq_true hnewest.passed
      rw [counts, hpassed] at hc
      cases hc
    · rw [hc] at hc'
      cases hc'
  · exact fun n h => not_mem_beyondLimit (List.mem_append_left _ h)
  · exact fun b hb => not_mem_beyondLimit (mem_spared_of_newest hn hb)

/-- The newest backup passed nothing, the one before it failed, and the oldest passed. -/
def fourBackups : List (StoredBackup String Nat) :=
  [⟨"a", 0, .passed, by decide⟩, ⟨"b", 1, .unknown, by decide⟩, ⟨"c", 2, .failed, by decide⟩,
    ⟨"d", 3, .unknown, by decide⟩]

theorem retention_spares_four : ∃ stale limited, staleStoredBackups fourBackups 2 = .ok stale ∧
    staleBeyondLimit fourBackups 2 ["b"] = .ok limited ∧ "b" ∉ limited ∧
    OldestFirst fourBackups stale := by
  obtain ⟨stale, limited, h1, h2, -, -, -, horder, -, hprotect, -⟩ :=
    @retention_spares String Nat _ _ _ fourBackups 2 ["b"] (by decide) (by decide)
  exact ⟨stale, limited, h1, h2, hprotect "b" (List.mem_singleton.mpr rfl), horder⟩

/-- A younger backup has no larger rank. -/
theorem rank_le_of_key (h : b.key < c.key) : rank key backups b ≤ rank key backups c :=
  List.countP_mono_left fun _ _ ha => decide_eq_true ((of_decide_eq_true ha).trans h)

/-- **What is named and younger than a backup that is spared** failed, or that one is the newest that
    passed. -/
theorem Stale.younger (hb : Stale backups keep b) (hc : c ∈ backups) (hs : ¬ Stale backups keep c)
    (hyounger : b.key < c.key) : IsNewestPassed backups c ∨ b.counts = false := by
  by_contra hno
  rw [not_or, Bool.not_eq_false] at hno
  obtain ⟨hnewest, hcounts⟩ := hno
  have hrank := hb.counted hcounts
  refine hs ⟨hc, hnewest, fun _ => hrank.trans (rank_le_of_key hyounger), fun _ => ?_⟩
  have hall : rank key (backups.filter counts) b ≤ rank key backups b :=
    rank_le_of_sublist List.filter_sublist b
  exact (hrank.trans hall).trans (rank_le_of_key hyounger)

/-- What the loop may take, the oldest first. -/
def takable (backups : List (StoredBackup ν τ)) (keep : Nat) (protect : List ν) :
    List (StoredBackup ν τ) :=
  ((newestFirst backups).filter fun b => !(limitStale backups keep protect).contains b.name &&
    !(spared backups protect).contains b.name).reverse

theorem mem_takable : b ∈ takable backups keep protect ↔
    b ∈ backups ∧ b.name ∉ limitStale backups keep protect ∧ b.name ∉ spared backups protect := by
  rw [takable, List.mem_reverse, List.mem_filter, mem_newestFirst]
  simp

theorem beyond_eq (backups : List (StoredBackup ν τ)) (keep : Nat) (protect : List ν) :
    ∃ n, beyond backups keep protect = ((takable backups keep protect).take n).map name := by
  have hlist : (remainingNames backups keep protect).reverse.filter
      (fun n => !(spared backups protect).contains n) = (takable backups keep protect).map name := by
    rw [takable, List.map_reverse, List.filter_reverse, remainingNames, List.filter_filter,
      List.filter_map]
    congr 3
    funext b
    exact Bool.and_comm _ _
  exact ⟨_, by rw [beyond, surplus_eq, hlist, List.map_take]⟩

/-- The same beyond the limit, where the protected ones are spared as well. -/
theorem beyondLimit_younger (hn : (backups.map name).Nodup) (hb : b ∈ backups) (hc : c ∈ backups)
    (hgone : b.name ∈ (beyondLimitOf backups keep protect).reverse.map name)
    (hleft : c.name ∉ (beyondLimitOf backups keep protect).reverse.map name)
    (hyounger : b.key < c.key) : c.name ∈ spared backups protect ∨ b.counts = false := by
  rw [mem_beyondLimitNames hc, not_or] at hleft
  by_cases hspared : c.name ∈ spared backups protect
  · exact .inl hspared
  have hstale : ¬ Stale backups keep c := fun hs => hleft.1
    (List.mem_filter.mpr ⟨(mem_staleNames hn hc).mpr hs, by simpa using hspared⟩)
  rcases (mem_beyondLimitNames hb).mp hgone with h | h
  · have hb' := (mem_staleNames hn hb).mp (List.mem_filter.mp h).1
    rcases hb'.younger hc hstale hyounger with h | h
    · exact absurd (mem_spared_of_newest hn h) hspared
    · exact .inr h
  · -- the loop takes the older one first
    refine absurd ?_ hleft.2
    obtain ⟨n, hbeyond⟩ := beyond_eq backups keep protect
    have hstrict : (takable backups keep protect).Pairwise fun a b =>
        OrderDual.toDual a.key < OrderDual.toDual b.key :=
      List.pairwise_reverse.mpr ((newestFirst_strict hn).filter _)
    rw [hbeyond] at h ⊢
    obtain ⟨b', hb', hname⟩ := List.mem_map.mp h
    have hmem := (mem_takable.mp (List.mem_of_mem_take hb')).1
    obtain rfl := eq_of_name hn hmem hb hname
    refine List.mem_map_of_mem ((mem_take_iff hstrict).mpr ⟨mem_takable.mpr ⟨hc, hleft.1, hspared⟩, ?_⟩)
    refine lt_of_le_of_lt ?_ ((mem_take_iff hstrict).mp hb').2
    exact List.countP_mono_left fun _ _ ha =>
      decide_eq_true ((of_decide_eq_true ha).trans (OrderDual.toDual_lt_toDual.mpr hyounger))

end Both

end Dbs.Retention

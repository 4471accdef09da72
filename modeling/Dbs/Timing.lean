/-
  File:      Dbs/Timing.lean
  Subject:   THE MOMENTS OF A SCHEDULE (manager/backups/timing.py): from an anchor on, every so many
             minutes, or every so many days at the anchor's time of day in the schedule's zone.

  A time zone is what `astimezone` and `combine` need of it; dates and hours may be skipped or repeated.

  * `nextOnGrid`, `planned` -- the functions; `search` -- the loop over the days, with fuel;
  * `Grid` -- the moments of the schedule;
  * `search_spec` -- the loop ends at the first step, from where it starts, that is later;
  * `Passed` -- no moment of the steps that the division leaves out is still ahead;
  * `next_on_grid_planned` -- exactly then the next moment is the least of the grid that is later; and a
    chain of runs increases, on the grid;
  * `moment_skipped` -- a zone whose clocks go forward across midnight.
-/
import Mathlib.Tactic.Linarith
import Mathlib.Data.List.Chain
import Mathlib.Data.Int.ConditionallyCompleteOrder

namespace Dbs.Timing

/-! ## 1. Time -/

/-- Microseconds. -/
abbrev Instant := Int

/-- Days. -/
abbrev Date := Int

def minute : Instant := 60000000

def dayMinutes : Int := 24 * 60

def day : Instant := dayMinutes * minute

/-- `datetime.time`: microseconds since midnight, and `fold`. -/
abbrev TimeOfDay := { x : Int // 0 ≤ x ∧ x < day } × Bool

/-- A zone: the date and the time of day of an instant, and the instant of a date and a time. At a fixed
    time of day later dates are no earlier. -/
structure Zone where
  date : Instant → Date
  time : Instant → TimeOfDay
  combine : Date → TimeOfDay → Instant
  combine_self : ∀ t, combine (date t) (time t) = t
  combine_mono : ∀ x, Monotone fun d => combine d x
  combine_unbounded : ∀ x t, ∃ d, t < combine d x

/-- `ZoneInfo("UTC")`. -/
def Zone.utc : Zone where
  date t := t / day
  time t := (⟨t % day, Int.emod_nonneg t (by decide), Int.emod_lt_of_pos t (by decide)⟩, false)
  combine d x := d * day + x.1
  combine_self t := Int.ediv_mul_add_emod t day
  combine_mono x := by
    intro a b hab
    have : a * day ≤ b * day := Int.mul_le_mul_of_nonneg_right hab (by decide)
    exact Int.add_le_add_right this _
  combine_unbounded x t := by
    refine ⟨t / day + 1, ?_⟩
    have hlt := Int.lt_ediv_add_one_mul_self t (show 0 < day by decide)
    exact lt_of_lt_of_le hlt (Int.le_add_of_nonneg_right x.1.2.1)

/-! ## 2. The functions -/

/-- The moment of a step of so many days. -/
def candidate (zone : Zone) (anchor : Instant) (days : Int) (step : Nat) : Instant :=
  zone.combine (zone.date anchor + step * days) (zone.time anchor)

/-- `while True`; nothing when the fuel runs out. -/
def search (zone : Zone) (anchor : Instant) (days : Int) (after : Instant) :
    (fuel step : Nat) → Option Instant
  | 0, _ => none
  | fuel + 1, step =>
    if after < candidate zone anchor days step then some (candidate zone anchor days step)
    else search zone anchor days after fuel (step + 1)

/-- `max(elapsed // days, 0)`. -/
def firstStep (zone : Zone) (anchor : Instant) (days : Int) (after : Instant) : Nat :=
  ((zone.date after - zone.date anchor) / days).toNat

/-- `zones` is `zone(name)`, which knows no zone of some names. -/
def nextOnGrid (zones : String → Option Zone) (fuel : Nat) (anchor : Instant) (intervalMinutes : Int)
    (zoneName : String) (after : Instant) : Option Instant :=
  if after < anchor then some anchor
  else if intervalMinutes % dayMinutes = 0 then
    let zone := (zones zoneName).getD .utc
    let days := intervalMinutes / dayMinutes
    search zone anchor days after fuel (firstStep zone anchor days after)
  else
    let interval := intervalMinutes * minute
    some (anchor + ((after - anchor) / interval + 1) * interval)

/-- `anchor_at` and `next_run_at`, at the moment `now`. -/
def planned (zones : String → Option Zone) (fuel : Nat) (intervalMinutes : Option Int)
    (enabled : Bool) (zoneName : String) (anchor : Option Instant) (now : Instant) :
    Option (Option Instant × Option Instant) :=
  match intervalMinutes with
  | none => some (anchor, none)
  | some intervalMinutes =>
    let anchor := anchor.getD (now + intervalMinutes * minute)
    if enabled then
      (nextOnGrid zones fuel anchor intervalMinutes zoneName now).map fun following =>
        (some anchor, some following)
    else some (some anchor, none)

/-! ## 3. The grid -/

/-- The moments of a schedule, the anchor the first. -/
def gridMoment (zone : Zone) (anchor : Instant) (intervalMinutes : Int) (k : Nat) : Instant :=
  if intervalMinutes % dayMinutes = 0 then candidate zone anchor (intervalMinutes / dayMinutes) k
  else anchor + k * (intervalMinutes * minute)

def Grid (zone : Zone) (anchor : Instant) (intervalMinutes : Int) : Set Instant :=
  Set.range (gridMoment zone anchor intervalMinutes)

variable {zone : Zone} {anchor after : Instant} {days intervalMinutes : Int}

theorem candidate_zero : candidate zone anchor days 0 = anchor := by
  simp [candidate, zone.combine_self]

theorem candidate_mono (hdays : 0 ≤ days) {j k : Nat} (h : j ≤ k) :
    candidate zone anchor days j ≤ candidate zone anchor days k := by
  refine zone.combine_mono (zone.time anchor) ?_
  have hle : (j : Int) * days ≤ k * days :=
    Int.mul_le_mul_of_nonneg_right (Int.ofNat_le.mpr h) hdays
  exact Int.add_le_add_left hle _

theorem exists_candidate (hdays : 0 < days) (anchor after : Instant) :
    ∃ k, after < candidate zone anchor days k := by
  obtain ⟨d, hd⟩ := zone.combine_unbounded (zone.time anchor) after
  refine ⟨(d - zone.date anchor).toNat, lt_of_lt_of_le hd ?_⟩
  refine zone.combine_mono (zone.time anchor) ?_
  have hle : ((d - zone.date anchor).toNat : Int) * 1 ≤ (d - zone.date anchor).toNat * days :=
    Int.mul_le_mul_of_nonneg_left hdays (Int.natCast_nonneg _)
  have hself := Int.self_le_toNat (d - zone.date anchor)
  linarith

theorem lt_firstStep (hdays : 0 < days) (k : Nat) : k < firstStep zone anchor days after ↔
    (k + 1) * days ≤ zone.date after - zone.date anchor := by
  rw [firstStep, Int.lt_toNat, ← Int.le_ediv_iff_mul_le hdays]
  exact Int.add_one_le_iff.symm

/-! ## 4. The loop over the days -/

theorem search_eq {k step fuel : Nat} (hstep : step ≤ k) (hk : after < candidate zone anchor days k)
    (hbefore : ∀ j, step ≤ j → j < k → candidate zone anchor days j ≤ after)
    (hfuel : k - step < fuel) :
    search zone anchor days after fuel step = some (candidate zone anchor days k) := by
  induction fuel generalizing step with
  | zero => omega
  | succ fuel ih =>
    rw [search]
    rcases Nat.eq_or_lt_of_le hstep with rfl | hlt
    · rw [if_pos hk]
    · rw [if_neg (hbefore step le_rfl hlt).not_gt]
      exact ih hlt (fun j hj => hbefore j (by omega)) (by omega)

/-- **The loop ends**, at the first step from where it starts that is later. -/
theorem search_spec (hdays : 0 < days) (zone : Zone) (anchor after : Instant) (step : Nat) :
    ∃ k, step ≤ k ∧ after < candidate zone anchor days k ∧
      (∀ j, step ≤ j → j < k → candidate zone anchor days j ≤ after) ∧
      ∃ enough, ∀ fuel, enough ≤ fuel →
        search zone anchor days after fuel step = some (candidate zone anchor days k) := by
  have hexists : ∃ k, step ≤ k ∧ after < candidate zone anchor days k := by
    obtain ⟨k, hk⟩ : ∃ k, after < candidate zone anchor days k :=
      exists_candidate hdays anchor after
    exact ⟨max step k, le_max_left step k,
      lt_of_lt_of_le hk (candidate_mono hdays.le (le_max_right step k))⟩
  obtain ⟨hstep, hlater⟩ := Nat.find_spec hexists
  have hbefore : ∀ j, step ≤ j → j < Nat.find hexists → candidate zone anchor days j ≤ after :=
    fun j hj hlt => not_lt.mp fun h => Nat.find_min hexists hlt ⟨hj, h⟩
  refine ⟨Nat.find hexists, hstep, hlater, hbefore, Nat.find hexists - step + 1, fun fuel hfuel => ?_⟩
  exact search_eq hstep hlater hbefore (by omega)

/-! ## 5. The least moment that is later -/

/-- The function ends, and this is what it returns. -/
def Returns (zones : String → Option Zone) (anchor : Instant) (intervalMinutes : Int)
    (zoneName : String) (after moment : Instant) : Prop :=
  ∃ enough, ∀ fuel, enough ≤ fuel →
    nextOnGrid zones fuel anchor intervalMinutes zoneName after = some moment

variable {zones : String → Option Zone} {zoneName : String}

theorem Returns.unique {m n : Instant} (hm : Returns zones anchor intervalMinutes zoneName after m)
    (hn : Returns zones anchor intervalMinutes zoneName after n) : m = n := by
  obtain ⟨a, ha⟩ := hm
  obtain ⟨b, hb⟩ := hn
  exact Option.some.inj ((ha (max a b) (le_max_left a b)).symm.trans (hb _ (le_max_right a b)))

/-- The moments of the grid that are later. -/
def Ahead (zone : Zone) (anchor : Instant) (intervalMinutes : Int) (after : Instant) : Set Instant :=
  { m | m ∈ Grid zone anchor intervalMinutes ∧ after < m }

theorem anchor_le_gridMoment (hpos : 0 < intervalMinutes) (k : Nat) :
    anchor ≤ gridMoment zone anchor intervalMinutes k := by
  unfold gridMoment
  split
  · have hdays : 0 ≤ intervalMinutes / dayMinutes := Int.ediv_nonneg hpos.le (by decide)
    exact candidate_zero.symm.le.trans (candidate_mono hdays (Nat.zero_le k))
  · exact Int.le_add_of_nonneg_right
      (Int.mul_nonneg (Int.natCast_nonneg k) (Int.mul_nonneg hpos.le (by decide)))

theorem gridMoment_zero : gridMoment zone anchor intervalMinutes 0 = anchor := by
  unfold gridMoment
  split
  · exact candidate_zero
  · simp

theorem least_anchor (hpos : 0 < intervalMinutes) (h : after < anchor) :
    IsLeast (Ahead zone anchor intervalMinutes after) anchor := by
  refine ⟨⟨⟨0, gridMoment_zero⟩, h⟩, ?_⟩
  rintro _ ⟨⟨k, rfl⟩, -⟩
  exact anchor_le_gridMoment hpos k

/-- **The condition**: each moment whose next one has no later date than `after` is over, or the next
    one is the same (its date was skipped). -/
def Passed (zone : Zone) (anchor : Instant) (intervalMinutes : Int) (after : Instant) : Prop :=
  anchor ≤ after → intervalMinutes % dayMinutes = 0 → ∀ k : Nat,
    (k + 1) * (intervalMinutes / dayMinutes) ≤ zone.date after - zone.date anchor →
      gridMoment zone anchor intervalMinutes k ≤ after ∨
        gridMoment zone anchor intervalMinutes k = gridMoment zone anchor intervalMinutes (k + 1)

/-- A moment ahead in front of the step where the loop starts is that of this step. -/
theorem candidate_eq_first {first j : Nat} (hj : j ≤ first)
    (hpassed : ∀ k < first, candidate zone anchor days k ≤ after ∨
      candidate zone anchor days k = candidate zone anchor days (k + 1))
    (hlater : after < candidate zone anchor days j) :
    candidate zone anchor days j = candidate zone anchor days first := by
  induction hj using Nat.decreasingInduction with
  | self => rfl
  | of_succ k hk ih =>
    have hsame := (hpassed k hk).resolve_left hlater.not_ge
    rw [hsame] at hlater ⊢
    exact ih hlater

theorem least_days_iff (hpos : 0 < intervalMinutes) (hday : intervalMinutes % dayMinutes = 0)
    (hanchor : anchor ≤ after) (zone : Zone) :
    ∃ moment ∈ Ahead zone anchor intervalMinutes after,
      (IsLeast (Ahead zone anchor intervalMinutes after) moment ↔
        Passed zone anchor intervalMinutes after) ∧
      ∃ enough, ∀ fuel, enough ≤ fuel →
        search zone anchor (intervalMinutes / dayMinutes) after fuel
          (firstStep zone anchor (intervalMinutes / dayMinutes) after) = some moment := by
  have hdays : 0 < intervalMinutes / dayMinutes :=
    Int.ediv_pos_of_pos_of_dvd hpos (by decide) (Int.dvd_of_emod_eq_zero hday)
  have hgrid : gridMoment zone anchor intervalMinutes =
      candidate zone anchor (intervalMinutes / dayMinutes) := funext fun k => if_pos hday
  obtain ⟨k, hstep, hlater, hbefore, hsearch⟩ := search_spec hdays zone anchor after
    (firstStep zone anchor (intervalMinutes / dayMinutes) after)
  refine ⟨_, ⟨⟨k, congrFun hgrid k⟩, hlater⟩, ⟨fun hleast _ _ j hj => ?_, fun hpassed => ?_⟩, hsearch⟩
  · -- a moment that is left out is not less than the one returned
    rw [hgrid]
    rw [← lt_firstStep hdays] at hj
    refine (le_or_gt _ after).imp id fun hahead =>
      le_antisymm (candidate_mono hdays.le (Nat.le_succ j)) ?_
    exact (candidate_mono hdays.le (by omega)).trans (hleast.2 ⟨⟨j, congrFun hgrid j⟩, hahead⟩)
  · refine ⟨⟨⟨k, congrFun hgrid k⟩, hlater⟩, ?_⟩
    rintro _ ⟨⟨j, rfl⟩, hj⟩
    rw [hgrid] at hj ⊢
    rcases Nat.lt_or_ge j (firstStep zone anchor (intervalMinutes / dayMinutes) after) with hlt | hge
    · -- the loop's first step is the same moment, and so it stops there
      have hsame := candidate_eq_first hlt.le (fun i hi => by
        simpa only [hgrid] using hpassed hanchor hday i ((lt_firstStep hdays i).mp hi)) hj
      rw [hsame] at hj ⊢
      refine candidate_mono hdays.le (not_lt.mp fun hk => ?_)
      exact (hbefore _ le_rfl hk).not_gt hj
    · refine candidate_mono hdays.le (not_lt.mp fun hk => ?_)
      exact (hbefore j hge hk).not_gt hj

theorem least_minutes (hpos : 0 < intervalMinutes) (hday : intervalMinutes % dayMinutes ≠ 0)
    (h : anchor ≤ after) : IsLeast (Ahead zone anchor intervalMinutes after)
      (anchor + ((after - anchor) / (intervalMinutes * minute) + 1) * (intervalMinutes * minute)) := by
  obtain ⟨interval, hinterval⟩ : ∃ n, n = intervalMinutes * minute := ⟨_, rfl⟩
  have hstep : 0 < interval := hinterval ▸ Int.mul_pos hpos (by decide)
  have hgrid : ∀ k : Nat, gridMoment zone anchor intervalMinutes k = anchor + k * interval :=
    fun k => hinterval ▸ if_neg hday
  rw [← hinterval]
  obtain ⟨q, hq⟩ := Int.eq_ofNat_of_zero_le
    (Int.ediv_nonneg (by linarith : 0 ≤ after - anchor) hstep.le)
  have hlt := Int.lt_ediv_add_one_mul_self (after - anchor) hstep
  refine ⟨⟨⟨q + 1, ?_⟩, by linarith⟩, ?_⟩
  · rw [hgrid, hq]
    rfl
  · rintro _ ⟨⟨j, rfl⟩, hj⟩
    rw [hgrid] at hj ⊢
    have hdiv : (after - anchor) / interval < j := Int.ediv_lt_of_lt_mul hstep (by linarith)
    have hmul : ((after - anchor) / interval + 1) * interval ≤ j * interval :=
      Int.mul_le_mul_of_nonneg_right hdiv hstep.le
    linarith

/-- **What `next_on_grid` returns** is a moment of the grid that is later, and the least one exactly
    where the moments left out are over. -/
theorem returns_least_iff (zones : String → Option Zone) (anchor : Instant) (zoneName : String)
    (after : Instant) (hpos : 0 < intervalMinutes) :
    ∃ moment, Returns zones anchor intervalMinutes zoneName after moment ∧
      moment ∈ Ahead ((zones zoneName).getD .utc) anchor intervalMinutes after ∧
      (IsLeast (Ahead ((zones zoneName).getD .utc) anchor intervalMinutes after) moment ↔
        Passed ((zones zoneName).getD .utc) anchor intervalMinutes after) := by
  by_cases hanchor : after < anchor
  · have hleast := @least_anchor ((zones zoneName).getD .utc) _ _ _ hpos hanchor
    exact ⟨anchor, ⟨0, fun fuel _ => if_pos hanchor⟩, hleast.1,
      iff_of_true hleast fun hle => absurd hanchor hle.not_gt⟩
  · by_cases hday : intervalMinutes % dayMinutes = 0
    · obtain ⟨moment, hahead, hiff, enough, hsearch⟩ :=
        least_days_iff hpos hday (not_lt.mp hanchor) ((zones zoneName).getD .utc)
      refine ⟨moment, ⟨enough, fun fuel hfuel => ?_⟩, hahead, hiff⟩
      rw [nextOnGrid, if_neg hanchor, if_pos hday]
      exact hsearch fuel hfuel
    · have hleast := @least_minutes ((zones zoneName).getD .utc) _ _ _ hpos hday (not_lt.mp hanchor)
      refine ⟨_, ⟨0, fun fuel _ => ?_⟩, hleast.1, iff_of_true hleast fun _ h => absurd h hday⟩
      rw [nextOnGrid, if_neg hanchor, if_neg hday]

theorem search_later {moment : Instant} {fuel step : Nat}
    (h : search zone anchor days after fuel step = some moment) : after < moment := by
  induction fuel generalizing step with
  | zero => cases h
  | succ fuel ih =>
    rw [search] at h
    split at h
    · rename_i hlater
      cases h
      exact hlater
    · exact ih h

/-- With whatever fuel, what is returned is later. -/
theorem nextOnGrid_later {fuel : Nat} {moment : Instant} (hpos : 0 < intervalMinutes)
    (h : nextOnGrid zones fuel anchor intervalMinutes zoneName after = some moment) :
    after < moment := by
  by_cases hanchor : after < anchor
  · rw [nextOnGrid, if_pos hanchor] at h
    exact Option.some.inj h ▸ hanchor
  · rw [nextOnGrid, if_neg hanchor] at h
    by_cases hday : intervalMinutes % dayMinutes = 0
    · rw [if_pos hday] at h
      exact search_later h
    · rw [if_neg hday] at h
      have hleast := @least_minutes .utc _ _ _ hpos hday (not_lt.mp hanchor)
      exact Option.some.inj h ▸ hleast.1.2

theorem planned_later {fuel : Nat} {interval : Option Int} {enabled : Bool}
    {anchor' anchor'' : Option Instant} {now moment : Instant} (hpos : ∀ n ∈ interval, 0 < n)
    (h : planned zones fuel interval enabled zoneName anchor' now = some (anchor'', some moment)) :
    now < moment := by
  cases interval with
  | none => cases h
  | some n =>
    rw [planned] at h
    cases enabled with
    | false => cases h
    | true =>
      obtain ⟨following, hfollowing, hsame⟩ := Option.map_eq_some_iff.mp h
      obtain rfl : following = moment := Option.some.inj (Prod.mk.inj hsame).2
      exact nextOnGrid_later (hpos n rfl) hfollowing

/-! ## 6. Chains of runs -/

/-- A run is planned: at `now`, for `next`. -/
structure Planned where
  now : Instant
  next : Instant

/-- Each run is planned when the one before it is due. -/
def Chain (zones : String → Option Zone) (anchor : Instant) (intervalMinutes : Int)
    (zoneName : String) (runs : List Planned) : Prop :=
  (∀ r ∈ runs, Returns zones anchor intervalMinutes zoneName r.now r.next) ∧
    runs.IsChain fun r r' => r.next ≤ r'.now

/-- **`next_on_grid` gives the next planned moment**: it ends, with a moment of the grid that is
    strictly later, and the runs of a chain are on the grid, each later than the one before it; and
    that moment is the least one, and no moment of the grid lies between the planning of a run and the
    run, exactly where no moment that the division leaves out is still ahead. -/
theorem next_on_grid_planned (zones : String → Option Zone) (anchor : Instant) (intervalMinutes : Int)
    (zoneName : String) (hpos : 0 < intervalMinutes) :
    (∀ after, ∃ moment, Returns zones anchor intervalMinutes zoneName after moment ∧
      moment ∈ Ahead ((zones zoneName).getD .utc) anchor intervalMinutes after ∧
      (IsLeast (Ahead ((zones zoneName).getD .utc) anchor intervalMinutes after) moment ↔
        Passed ((zones zoneName).getD .utc) anchor intervalMinutes after)) ∧
    ∀ runs, Chain zones anchor intervalMinutes zoneName runs →
      (runs.map Planned.next).Pairwise (· < ·) ∧
      ∀ r ∈ runs, r.next ∈ Grid ((zones zoneName).getD .utc) anchor intervalMinutes ∧
        ((∀ m ∈ Grid ((zones zoneName).getD .utc) anchor intervalMinutes, r.now < m → r.next ≤ m) ↔
          Passed ((zones zoneName).getD .utc) anchor intervalMinutes r.now) := by
  refine ⟨fun after => returns_least_iff zones anchor zoneName after hpos, fun runs hchain => ?_⟩
  obtain ⟨hreturns, hchain⟩ := hchain
  have hahead : ∀ r ∈ runs,
      r.next ∈ Ahead ((zones zoneName).getD .utc) anchor intervalMinutes r.now ∧
      (IsLeast (Ahead ((zones zoneName).getD .utc) anchor intervalMinutes r.now) r.next ↔
        Passed ((zones zoneName).getD .utc) anchor intervalMinutes r.now) := by
    intro r hr
    obtain ⟨moment, hmoment, h⟩ := returns_least_iff zones anchor zoneName r.now hpos
    exact (hreturns r hr).unique hmoment ▸ h
  refine ⟨?_, fun r hr => ⟨(hahead r hr).1.1, ?_⟩⟩
  · have hnexts : (runs.map Planned.next).IsChain (· < ·) := by
      rw [List.isChain_map]
      exact hchain.imp_of_mem_imp fun r r' _ hr' hle => lt_of_le_of_lt hle (hahead r' hr').1.2
    exact List.isChain_iff_pairwise.mp hnexts
  · rw [← (hahead r hr).2]
    exact ⟨fun h => ⟨(hahead r hr).1, fun m hm => h m hm.1 hm.2⟩, fun h m hm hlater => h.2 ⟨hm, hlater⟩⟩

/-- Daily at half past six, universal time: after a moment three days and an hour on it is the fourth
    day's turn. -/
theorem next_on_grid_planned_daily :
    ∃ moment, Returns (fun _ => none) (390 * minute) 1440 "UTC" (390 * minute + 3 * day + 60 * minute)
        moment ∧
      nextOnGrid (fun _ => none) 2 (390 * minute) 1440 "UTC" (390 * minute + 3 * day + 60 * minute) =
        some (390 * minute + 4 * day) := by
  obtain ⟨moment, hreturns, -⟩ :=
    (next_on_grid_planned (fun _ => none) (390 * minute) 1440 "UTC" (by decide)).1
      (390 * minute + 3 * day + 60 * minute)
  exact ⟨moment, hreturns, by decide⟩

/-- How far the local time is behind, in microseconds: two hours up to an instant, then one. -/
def behind (t : Int) : Int := if t < 90000000000 then 7200000000 else 3600000000

/-- The instant of a local time; of one that was skipped (23:00 to 24:00) `fold` tells the offset. -/
def instantOf (l : Int) (fold : Bool) : Int :=
  if l < 82800000000 ∨ l < 86400000000 ∧ fold = false then l + 7200000000 else l + 3600000000

theorem instantOf_behind (t : Int) : instantOf (t - behind t) false = t := by
  unfold instantOf behind
  split_ifs <;> omega

theorem instantOf_mono {l m : Int} (fold : Bool) (h : l + 86400000000 ≤ m) :
    instantOf l fold ≤ instantOf m fold := by
  unfold instantOf
  split_ifs <;> omega

theorem lt_instantOf (l : Int) (fold : Bool) : l < instantOf l fold := by
  unfold instantOf
  split_ifs <;> omega

/-- The clocks go from 23:00 of day 0 to 24:00. -/
def Zone.nuuk : Zone where
  date t := (t - behind t) / day
  time t := (⟨(t - behind t) % day,
    Int.emod_nonneg _ (by decide), Int.emod_lt_of_pos _ (by decide)⟩, false)
  combine d x := instantOf (d * day + x.1) x.2
  combine_self t := by
    have hsplit : (t - behind t) / day * day + (t - behind t) % day = t - behind t :=
      Int.ediv_mul_add_emod _ day
    exact (congrArg (instantOf · false) hsplit).trans (instantOf_behind t)
  combine_mono x d e hde := by
    rcases eq_or_lt_of_le hde with rfl | hlt
    · exact le_rfl
    · have hday := Int.mul_le_mul_of_nonneg_right hlt (show 0 ≤ day by decide)
      rw [Int.add_mul, Int.one_mul] at hday
      have hstep : d * day + x.1 + day ≤ e * day + x.1 := by linarith
      exact instantOf_mono x.2 hstep
  combine_unbounded x t := by
    have hlt := Int.lt_ediv_add_one_mul_self t (show 0 < day by decide)
    have hx := lt_instantOf ((t / day + 1) * day + x.1) x.2
    exact ⟨t / day + 1, lt_trans (lt_of_lt_of_le hlt (Int.le_add_of_nonneg_right x.1.2.1)) hx⟩

/-- **A moment skipped**: daily at 23:30. At ten past one of day 1, universal time, it is day 1 there,
    and the search starts at that date; the moment of day 0, whose time was skipped, is still
    ahead. -/
theorem moment_skipped :
    Returns (fun _ => some .nuuk) (90 * minute) 1440 "America/Nuuk" (1510 * minute) (2910 * minute) ∧
      1530 * minute ∈ Ahead .nuuk (90 * minute) 1440 (1510 * minute) ∧
      1530 * minute < 2910 * minute := by
  refine ⟨⟨1, fun fuel hfuel => ?_⟩, ⟨⟨1, by decide⟩, by decide⟩, by decide⟩
  obtain ⟨n, rfl⟩ := Nat.exists_eq_add_of_le' hfuel
  rfl

end Dbs.Timing

/-
  File:      Dbs/Dispatch.lean
  Subject:   SCHEDULED RUNS (dispatch_due of backup_schedule_service.py; update, reschedule, pause and
             resume of backup_plan_service.py): one plan, whose stored moment says when it is due.

  Any number of dispatches and edits, one look at the row or the clock, or one statement, of one of
  them at a time. A dispatch holds the row's lock until it commits or rolls back; a statement of an
  edit waits for it. A search for the next moment that gets too little fuel is not over yet.

  * `dispatched`, `Edit.written` -- what each of them stores;
  * `step` -- the calls; `World.runs` -- the runs that were started, and for which moment;
  * `Kept` -- one run for a moment, the stored moment behind every dispatch, none of a paused plan;
  * `paused_spared` -- the last holds in every run;
  * `Undisturbed` -- no moment is stored that a dispatch has reached since it was computed;
  * `one_run_a_moment` -- then all of it holds; `moment_started_twice` -- otherwise it need not.
-/
import Dbs.Lib.Runs
import Dbs.Timing

namespace Dbs.Dispatch

open Runs Timing

/-! ## 1. Plans -/

/-- `INTERVALS` -/
def intervals : List Int := [60, 180, 360, 720, 1440, 10080]

/-- Minutes. -/
abbrev Interval := { n : Int // n ∈ intervals }

theorem Interval.pos (n : Interval) : 0 < n.1 := by
  have hall : ∀ n ∈ intervals, 0 < n := by decide
  exact hall n.1 n.2

/-- What the dispatcher reads of a plan. -/
structure Plan where
  enabled : Bool
  interval : Option Interval
  timeZone : String
  anchorAt : Option Instant
  nextRunAt : Option Instant
  deleted : Bool

/-- The fields of the schedule in a request to change a plan, those that are there. -/
structure Data where
  interval : Option (Option Interval) := none
  enabled : Option Bool := none
  timeZone : Option String := none
  anchorAt : Option (Option Instant) := none

/-- The fields that a statement stores. -/
structure Written extends Data where
  nextRunAt : Option (Option Instant) := none

def Plan.store (p : Plan) (written : Written) : Plan :=
  { p with
    enabled := written.enabled.getD p.enabled
    interval := written.interval.getD p.interval
    timeZone := written.timeZone.getD p.timeZone
    anchorAt := written.anchorAt.getD p.anchorAt
    nextRunAt := written.nextRunAt.getD p.nextRunAt }

/-- The condition of `lock_scheduled_by`, on the plan. -/
structure Plan.Due (p : Plan) (moment : Instant) : Prop where
  alive : p.deleted = false
  enabled : p.enabled = true
  interval : p.interval.isSome = true
  reached : ∃ m ∈ p.nextRunAt, m ≤ moment

instance (p : Plan) (moment : Instant) : Decidable (p.Due moment) :=
  decidable_of_iff (p.deleted = false ∧ p.enabled = true ∧ p.interval.isSome = true ∧
      p.nextRunAt.any (· ≤ moment) = true) <| by
    rw [Option.any_eq_true]
    constructor
    · rintro ⟨halive, henabled, hinterval, m, hm, hle⟩
      exact ⟨halive, henabled, hinterval, m, hm, of_decide_eq_true hle⟩
    · rintro ⟨halive, henabled, hinterval, m, hm, hle⟩
      exact ⟨halive, henabled, hinterval, m, hm, decide_eq_true hle⟩

/-! ## 2. What is stored -/

/-- What a user does to a plan. -/
inductive Edit
  | update (data : Data)
  | reschedule (nextRunAt : Instant)
  | pause
  | resume

def farthestAhead : Instant := 366 * day

def withinReach (now moment : Instant) : Bool := now < moment && moment ≤ now + farthestAhead

/-- `changes`: the fields that are there and differ. -/
def Data.changes (data : Data) (p : Plan) : Data where
  interval := data.interval.filter (· ≠ p.interval)
  enabled := data.enabled.filter (· ≠ p.enabled)
  timeZone := data.timeZone.filter (· ≠ p.timeZone)
  anchorAt := data.anchorAt.filter (· ≠ p.anchorAt)

def Data.any (data : Data) : Bool :=
  data.interval.isSome || data.enabled.isSome || data.timeZone.isSome || data.anchorAt.isSome

variable (zones : String → Option Zone)

/-- What is validated of a request before its statement: the zone is known, the moment within reach. -/
def Edit.valid (now : Instant) : Edit → Bool
  | .update data => data.timeZone.all (fun name => (zones name).isSome) &&
      data.anchorAt.join.all (withinReach now)
  | .reschedule nextRunAt => withinReach now nextRunAt
  | .pause | .resume => true

/-- `planned`, as fields. -/
def timing (fuel : Nat) (interval : Option Interval) (enabled : Bool) (timeZone : String)
    (anchor : Option Instant) (now : Instant) (data : Data) : Option Written :=
  (planned zones fuel (interval.map (·.1)) enabled timeZone anchor now).map fun t =>
    { data with anchorAt := some t.1, nextRunAt := some t.2 }

/-- What an edit stores, of the plan it read, at the moment it looks at the clock. -/
def Edit.written (fuel : Nat) (p : Plan) (now : Instant) : Edit → Option Written
  | .update data =>
    let changes := data.changes p
    if changes.any then
      let kept := if changes.interval.isSome then none else p.anchorAt
      timing zones fuel (changes.interval.getD p.interval) (changes.enabled.getD p.enabled)
        (changes.timeZone.getD p.timeZone) (changes.anchorAt.getD kept) now changes
    else some { changes with }
  | .reschedule nextRunAt => timing zones fuel p.interval p.enabled p.timeZone (some nextRunAt) now {}
  | .pause => some { enabled := some false, nextRunAt := some none }
  | .resume => timing zones fuel p.interval true p.timeZone p.anchorAt now { enabled := some true }

/-- What a dispatch stores, at the moment it looked at the clock. -/
def dispatched (fuel : Nat) (p : Plan) (now : Instant) : Option Instant :=
  (p.anchorAt <|> p.nextRunAt).bind fun anchor => p.interval.bind fun n =>
    nextOnGrid zones fuel anchor n.1 p.timeZone now

/-! ## 3. Calls -/

/-- Where a call is. -/
inductive Call
  /-- An edit, in front of its validation, which looks at the clock. -/
  | validating (edit : Edit) (read : Plan)
  /-- In front of `planned`, which looks at the clock. -/
  | planning (edit : Edit) (read : Plan)
  /-- In front of its statement; `looked`: when it looked at the clock. -/
  | writing (written : Written) (looked : Instant)
  /-- A dispatch, in front of `lock_scheduled_by`. -/
  | selecting (now : Instant)

/-- A dispatch that holds the row. `paused`: a pause was committed, and nothing has enabled the plan
    since. -/
structure Locked where
  now : Instant
  paused : Bool

/-- A run that was started: for a moment, by a dispatch that looked at the clock at another. -/
structure Run where
  moment : Instant
  now : Instant
  paused : Bool

/-- The plan, the calls and the clock. -/
structure World where
  now : Instant
  plan : Plan
  applicationDeleted : Bool
  locked : Option Locked
  calls : List Call
  runs : List Run
  paused : Bool

def World.start (now : Instant) (plan : Plan) : World := ⟨now, plan, false, none, [], [], false⟩

inductive Action
  /-- An edit reads the plan. -/
  | edit (edit : Edit)
  /-- A dispatch looks at the clock. -/
  | dispatch
  /-- What a call does next. -/
  | next (i fuel : Nat)
  /-- A call raises. -/
  | raise (i : Nat)
  /-- The dispatch that holds the row stores its next moment and commits. -/
  | commit (fuel : Nat)
  | rollback
  | delete
  | deleteApplication
  | tick (microseconds : Nat)

/-- The edits of `_scheduled`. -/
def Edit.scheduled : Edit → Bool
  | .update _ => false
  | .reschedule _ | .pause | .resume => true

def Edit.first (read : Plan) : Edit → Call
  | .update data => .validating (.update data) read
  | .reschedule nextRunAt => .validating (.reschedule nextRunAt) read
  | .pause => .planning .pause read
  | .resume => .planning .resume read

namespace World

variable (w : World) (i : Nat)

def ended : World := { w with calls := w.calls.eraseIdx i }

def moved (call : Call) : World := { w with calls := w.calls.set i call }

def begun (call : Call) : World := { w with calls := call :: w.calls }

/-- An edit goes on with what it read, if it is there and, for `_scheduled`, has an interval. -/
def edited (edit : Edit) : World :=
  if w.plan.deleted = true ∨ edit.scheduled = true ∧ w.plan.interval = none then w
  else w.begun (edit.first w.plan)

def stored (written : Written) : World :=
  { w with
    plan := w.plan.store written
    calls := w.calls.eraseIdx i
    paused := match written.enabled with
      | some enabled => !enabled
      | none => w.paused }

/-- The dispatch locks the row, if it is due and no other one holds it. -/
def selected (now : Instant) : World :=
  if w.locked = none ∧ w.applicationDeleted = false ∧ w.plan.Due now then
    { w with locked := some ⟨now, w.paused⟩, calls := w.calls.eraseIdx i }
  else w.ended i

def nextOf (fuel : Nat) : Call → Option World
  | .validating edit read =>
    some (if edit.valid zones w.now then w.moved i (.planning edit read) else w.ended i)
  | .planning edit read =>
    (edit.written zones fuel read w.now).map fun written => w.moved i (.writing written w.now)
  | .writing written _ => if w.locked = none then some (w.stored i written) else none
  | .selecting now => some (w.selected i now)

def started (l : Locked) (moment next : Instant) : World :=
  { w with
    plan := { w.plan with nextRunAt := some next }
    locked := none
    runs := ⟨moment, l.now, l.paused⟩ :: w.runs }

end World

/-- One statement. -/
def step (w : World) : Action → Option World
  | .edit edit => some (w.edited edit)
  | .dispatch => some (w.begun (.selecting w.now))
  | .next i fuel => (w.calls[i]?).bind (w.nextOf zones i fuel)
  | .raise i => (w.calls[i]?).map fun _ => w.ended i
  | .commit fuel => w.locked.bind fun l => w.plan.nextRunAt.bind fun moment =>
      (dispatched zones fuel w.plan l.now).map fun next => w.started l moment next
  | .rollback => w.locked.map fun _ => { w with locked := none }
  | .delete => if w.locked = none then some { w with plan := { w.plan with deleted := true } } else none
  | .deleteApplication => some { w with applicationDeleted := true }
  | .tick microseconds => some { w with now := w.now + microseconds }

/-! ## 4. What is promised -/

/-- `once`: no moment has two runs; `later`: the stored moment, if any, is later than the clock of every
    dispatch; `spared`: no run was started of a plan that was paused when it was locked. -/
structure World.Kept (w : World) : Prop where
  once : (w.runs.map (·.moment)).Nodup
  later : ∀ r ∈ w.runs, ∀ m ∈ w.plan.nextRunAt, r.now < m
  spared : ∀ r ∈ w.runs, r.paused = false

/-- No dispatch that looked at the clock since the edit did has reached the moment that is stored. -/
def Fits (w : World) : Call → Prop
  | .writing written looked => ∀ m ∈ written.nextRunAt.join, ∀ r ∈ w.runs, looked ≤ r.now → r.now < m
  | _ => True

instance (w : World) : ∀ call, Decidable (Fits w call)
  | .writing written looked => inferInstanceAs
      (Decidable (∀ m ∈ written.nextRunAt.join, ∀ r ∈ w.runs, looked ≤ r.now → r.now < m))
  | .validating .. | .planning .. | .selecting .. => inferInstanceAs (Decidable True)

def Undisturbed (w : World) : Action → Prop
  | .next i _ => ∀ call ∈ w.calls[i]?, Fits w call
  | _ => True

instance (w : World) : ∀ a, Decidable (Undisturbed w a)
  | .next i _ => inferInstanceAs (Decidable (∀ call ∈ w.calls[i]?, Fits w call))
  | .edit .. | .dispatch | .raise .. | .commit .. | .rollback | .delete | .deleteApplication |
    .tick .. =>
    inferInstanceAs (Decidable True)

/-! ## 5. What is computed lies ahead -/

section Computed

variable {zones : String → Option Zone} {fuel : Nat} {p : Plan} {interval : Option Interval}
    {enabled : Bool}
  {timeZone : String} {anchor : Option Instant} {now m : Instant} {data : Data} {written : Written}

theorem timing_eq_some (h :
    timing zones fuel interval enabled timeZone anchor now data = some written) :
    written.toData = { data with anchorAt := written.anchorAt } ∧
      ∀ m ∈ written.nextRunAt.join, now < m := by
  obtain ⟨t, ht, rfl⟩ := Option.map_eq_some_iff.mp h
  refine ⟨rfl, fun m hm => ?_⟩
  have hnext : t = (t.1, some m) := Prod.ext rfl hm
  rw [hnext] at ht
  refine planned_later (fun n hn => ?_) ht
  obtain ⟨n', -, rfl⟩ := Option.map_eq_some_iff.mp hn
  exact n'.pos

/-- **The moment that an edit stores is later than when it looked at the clock.** -/
theorem Edit.written_later {edit : Edit} (h : edit.written zones fuel p now = some written) :
    ∀ m ∈ written.nextRunAt.join, now < m := by
  cases edit with
  | update data =>
    by_cases hany : (data.changes p).any = true
    · rw [Edit.written, if_pos hany] at h
      exact (timing_eq_some h).2
    · rw [Edit.written, if_neg hany] at h
      cases h
      exact nofun
  | reschedule nextRunAt => exact (timing_eq_some h).2
  | pause =>
    cases h
    exact nofun
  | resume => exact (timing_eq_some h).2

theorem dispatched_later (h : dispatched zones fuel p now = some m) : now < m := by
  obtain ⟨anchor, -, h⟩ := Option.bind_eq_some_iff.mp h
  obtain ⟨n, -, h⟩ := Option.bind_eq_some_iff.mp h
  exact nextOnGrid_later n.pos h

end Computed

/-! ## 6. What every step keeps -/

/-- A moment that is about to be stored is later than when it was computed. -/
def CallFits : Call → Prop
  | .writing written looked => ∀ m ∈ written.nextRunAt.join, looked < m
  | _ => True

/-- What holds in every run. -/
structure Spared (w : World) : Prop where
  runs : ∀ r ∈ w.runs, r.paused = false
  locked : ∀ l ∈ w.locked, w.plan.Due l.now ∧ l.paused = false
  paused : w.paused = true → w.plan.enabled = false

/-- And what holds in undisturbed ones. -/
structure Sound (w : World) : Prop where
  calls : ∀ call ∈ w.calls, CallFits call
  due : ∀ r ∈ w.runs, r.moment ≤ r.now
  later : ∀ r ∈ w.runs, ∀ m ∈ w.plan.nextRunAt, r.now < m
  once : (w.runs.map (·.moment)).Nodup

section Steps

variable {zones : String → Option Zone} {w w' : World} {a : Action} {i fuel : Nat} {call : Call}
  {written : Written} {l : Locked} {now looked moment following : Instant} {plan : Plan}

theorem spared_start : Spared (World.start now plan) := ⟨nofun, nofun, nofun⟩

theorem sound_start : Sound (World.start now plan) where
  calls := List.forall_mem_nil _
  due := List.forall_mem_nil _
  later := List.forall_mem_nil _
  once := List.nodup_nil

/-! ### Pauses -/

/-- The pause is over where the plan is enabled. -/
theorem Spared.stored (hs : Spared w) (i : Nat) (hfree : w.locked = none) :
    Spared (w.stored i written) where
  runs := hs.runs
  locked := fun l hl => by
    rw [World.stored, hfree] at hl
    cases hl
  paused := fun hpaused => by
    show written.enabled.getD w.plan.enabled = false
    cases henabled : written.enabled with
    | none =>
        rw [World.stored, henabled] at hpaused
        exact hs.paused hpaused
    | some enabled =>
        rw [World.stored, henabled] at hpaused
        exact Bool.not_eq_true' enabled ▸ hpaused

theorem Spared.selected (hs : Spared w) (i : Nat) (now : Instant) : Spared (w.selected i now) := by
  by_cases hdue : w.locked = none ∧ w.applicationDeleted = false ∧ w.plan.Due now
  · rw [World.selected, if_pos hdue]
    have hpaused : w.paused = false := by
      by_contra hpaused
      have hdisabled := hs.paused (Bool.eq_true_of_not_eq_false hpaused)
      rw [hdue.2.2.enabled] at hdisabled
      cases hdisabled
    refine ⟨hs.runs, fun l hl => ?_, hs.paused⟩
    cases hl
    exact ⟨hdue.2.2, hpaused⟩
  · rw [World.selected, if_neg hdue]
    exact { hs with }

theorem Spared.next (hs : Spared w) (hstep : w.nextOf zones i fuel call = some w') : Spared w' := by
  cases call with
  | validating edit read =>
    cases hstep
    split
    · exact { hs with }
    · exact { hs with }
  | planning edit read =>
    obtain ⟨written, -, rfl⟩ := Option.map_eq_some_iff.mp hstep
    exact { hs with }
  | writing written looked =>
    obtain ⟨hfree, hw⟩ := Option.ite_none_right_eq_some.mp hstep
    cases hw
    exact hs.stored i hfree
  | selecting now =>
    cases hstep
    exact hs.selected i now

theorem edited_eq_or (edit : Edit) : w.edited edit = w ∨
    w.edited edit = w.begun (edit.first w.plan) := by
  unfold World.edited
  split
  · exact .inl rfl
  · exact .inr rfl

/-- **Every step keeps it.** -/
theorem step_spared (hs : Spared w) (hstep : step zones w a = some w') : Spared w' := by
  cases a with
  | edit edit =>
    cases hstep
    rcases edited_eq_or (w := w) edit with heq | heq
    · rwa [heq]
    · rw [heq]
      exact { hs with }
  | next i fuel =>
    obtain ⟨call, -, hstep⟩ := Option.bind_eq_some_iff.mp hstep
    exact hs.next hstep
  | raise i =>
    obtain ⟨call, -, rfl⟩ := Option.map_eq_some_iff.mp hstep
    exact { hs with }
  | commit fuel =>
    obtain ⟨l, hl, hstep⟩ := Option.bind_eq_some_iff.mp hstep
    obtain ⟨moment, -, hstep⟩ := Option.bind_eq_some_iff.mp hstep
    obtain ⟨following, -, rfl⟩ := Option.map_eq_some_iff.mp hstep
    exact ⟨List.forall_mem_cons.mpr ⟨(hs.locked l hl).2, hs.runs⟩, nofun, hs.paused⟩
  | rollback =>
    obtain ⟨l, -, rfl⟩ := Option.map_eq_some_iff.mp hstep
    exact ⟨hs.runs, nofun, hs.paused⟩
  | delete =>
    obtain ⟨hfree, hw⟩ := Option.ite_none_right_eq_some.mp hstep
    cases hw
    refine ⟨hs.runs, fun l hl => ?_, hs.paused⟩
    rw [hfree] at hl
    cases hl
  | dispatch | deleteApplication | tick microseconds =>
    cases hstep
    exact { hs with }

/-! ### Moments -/

section

variable (hs : Sound w)

include hs

/-- Where only calls, the clock or the application change. -/
theorem Sound.of_calls {now : Instant} {deleted : Bool} {locked : Option Locked}
    {calls : List Call} (hcalls : ∀ call ∈ calls, call ∈ w.calls ∨ CallFits call) :
    Sound { w with now, applicationDeleted := deleted, locked, calls } where
  __ := hs
  calls := fun call hcall => (hcalls call hcall).elim (hs.calls call) id

theorem Sound.ended (i : Nat) : Sound (w.ended i) :=
  hs.of_calls fun _ hcall => .inl (List.mem_of_mem_eraseIdx hcall)

theorem Sound.moved (i : Nat) (hfits : CallFits call) : Sound (w.moved i call) := by
  refine hs.of_calls fun other hother => ?_
  rcases List.mem_or_eq_of_mem_set hother with hmem | rfl
  · exact .inl hmem
  · exact .inr hfits

theorem Sound.begun (hfits : CallFits call) : Sound (w.begun call) := by
  refine hs.of_calls fun other hother => ?_
  rcases List.mem_cons.mp hother with rfl | hmem
  · exact .inr hfits
  · exact .inl hmem

/-- The moment is stored behind every dispatch, of before it was computed and since. -/
theorem Sound.stored (i : Nat) (hfits : CallFits (.writing written looked))
    (hin : Fits w (.writing written looked)) : Sound (w.stored i written) where
  __ := hs
  calls := fun call hcall => hs.calls call (List.mem_of_mem_eraseIdx hcall)
  later := fun r hr m hm => by
    cases hnext : written.nextRunAt with
    | none =>
        rw [World.stored, Plan.store, hnext] at hm
        exact hs.later r hr m hm
    | some next =>
        rw [World.stored, Plan.store, hnext] at hm
        have hmem : m ∈ written.nextRunAt.join := hnext ▸ hm
        rcases lt_or_ge r.now looked with hbefore | hsince
        · exact lt_trans hbefore (hfits m hmem)
        · exact hin m hmem r hr hsince

theorem Sound.selected (i : Nat) (now : Instant) : Sound (w.selected i now) := by
  unfold World.selected
  split
  · exact hs.of_calls fun _ hcall => .inl (List.mem_of_mem_eraseIdx hcall)
  · exact hs.ended i

/-- **The moment of a run is later than those of all runs before.** -/
theorem Sound.started (hdue : w.plan.Due l.now) (hmoment : w.plan.nextRunAt = some moment)
    (hnext : l.now < following) : Sound (w.started l moment following) := by
  have hreached : moment ≤ l.now := by
    obtain ⟨m, hm, hle⟩ := hdue.reached
    obtain rfl := Option.some.inj (hmoment.symm.trans hm)
    exact hle
  have hbefore : ∀ r ∈ w.runs, r.moment < moment := fun r hr =>
    lt_of_le_of_lt (hs.due r hr) (hs.later r hr moment hmoment)
  refine ⟨hs.calls, List.forall_mem_cons.mpr ⟨hreached, hs.due⟩, fun r hr m hm => ?_, ?_⟩
  · cases hm
    rcases List.mem_cons.mp hr with rfl | hr
    · exact hnext
    · exact lt_trans (lt_of_lt_of_le (hs.later r hr moment hmoment) hreached) hnext
  · refine List.nodup_cons.mpr ⟨fun hmem => ?_, hs.once⟩
    obtain ⟨r, hr, hsame⟩ := List.mem_map.mp hmem
    exact absurd hsame (hbefore r hr).ne

theorem Sound.next (hfits : CallFits call) (hin : Fits w call)
    (hstep : w.nextOf zones i fuel call = some w') : Sound w' := by
  cases call with
  | validating edit read =>
    cases hstep
    split
    · exact hs.moved i trivial
    · exact hs.ended i
  | planning edit read =>
    obtain ⟨written, hwritten, rfl⟩ := Option.map_eq_some_iff.mp hstep
    exact hs.moved i (Edit.written_later hwritten)
  | writing written looked =>
    obtain ⟨-, ⟨⟩⟩ := Option.ite_none_right_eq_some.mp hstep
    exact hs.stored i hfits hin
  | selecting now =>
    cases hstep
    exact hs.selected i now

end

theorem callFits_first (edit : Edit) : CallFits (edit.first plan) := by
  cases edit <;> trivial

/-- **Every undisturbed step keeps it.** -/
theorem step_sound (hp : Spared w) (hs : Sound w) (hin : Undisturbed w a)
    (hstep : step zones w a = some w') :
    Sound w' := by
  cases a with
  | edit edit =>
    cases hstep
    rcases edited_eq_or (w := w) edit with heq | heq
    · rwa [heq]
    · rw [heq]
      exact hs.begun (callFits_first edit)
  | dispatch =>
    cases hstep
    exact hs.begun trivial
  | next i fuel =>
    obtain ⟨call, hcall, hstep⟩ := Option.bind_eq_some_iff.mp hstep
    exact hs.next (hs.calls call (List.mem_of_getElem? hcall)) (hin call hcall) hstep
  | raise i =>
    obtain ⟨call, -, rfl⟩ := Option.map_eq_some_iff.mp hstep
    exact hs.ended i
  | commit fuel =>
    obtain ⟨l, hl, hstep⟩ := Option.bind_eq_some_iff.mp hstep
    obtain ⟨moment, hmoment, hstep⟩ := Option.bind_eq_some_iff.mp hstep
    obtain ⟨following, hnext, rfl⟩ := Option.map_eq_some_iff.mp hstep
    exact hs.started (hp.locked l hl).1 hmoment (dispatched_later hnext)
  | rollback =>
    obtain ⟨l, -, rfl⟩ := Option.map_eq_some_iff.mp hstep
    exact hs.of_calls fun _ hcall => .inl hcall
  | delete =>
    obtain ⟨-, ⟨⟩⟩ := Option.ite_none_right_eq_some.mp hstep
    exact { hs with }
  | deleteApplication | tick microseconds =>
    cases hstep
    exact hs.of_calls fun _ hcall => .inl hcall

end Steps

/-! ## 7. Runs -/

variable {zones} {now : Instant} {plan : Plan} {as : List Action} {w : World}

/-- **No run is started of a plan that was paused**, in every run of the system. -/
theorem paused_spared (hrun : run (step zones) (World.start now plan) as = some w) :
    ∀ r ∈ w.runs, r.paused = false :=
  (run_invariant (fun _ _ _ hstep hs => step_spared hs hstep) hrun spared_start).runs

/-- **Each moment starts one run**, in every undisturbed run of the system. -/
theorem one_run_a_moment (hrun : run (step zones) (World.start now plan) as = some w)
    (hin : Along (step zones) Undisturbed (World.start now plan) as) : w.Kept := by
  have hsound : Spared w ∧ Sound w := run_invariant_along (I := fun w => Spared w ∧ Sound w)
    (fun _ _ _ hstep hin hs => ⟨step_spared hs.1 hstep, step_sound hs.1 hs.2 hin hstep⟩) hrun hin
    ⟨spared_start, sound_start⟩
  exact ⟨hsound.2.once, hsound.2.later, paused_spared hrun⟩

section Examples

/-- Every name is one of universal time. -/
def oneZone : String → Option Zone := fun _ => some .utc

/-- Hourly, next at ten. -/
def hourly : Plan := ⟨true, some ⟨60, by decide⟩, "UTC", some (600 * minute), some (600 * minute),
    false⟩

/-- The plan runs at ten, its zone is changed, it runs at eleven, and it is paused. -/
def changedBetween : List Action :=
  [.dispatch, .next 0 1, .commit 1, .edit (.update { timeZone := some "Asia/Tokyo" }), .next 0 1,
    .next 0 1,
    .next 0 1, .tick 3600000000, .dispatch, .next 0 1, .commit 1, .edit .pause, .next 0 1, .next 0 1,
    .tick 3600000000, .dispatch, .next 0 1]

theorem one_run_a_moment_changedBetween : ∃ w,
    run (step oneZone) (World.start (600 * minute) hourly) changedBetween = some w ∧
      w.runs.map (·.moment) = [660 * minute, 600 * minute] ∧ w.Kept := by
  have hrun : (run (step oneZone) (World.start (600 * minute) hourly) changedBetween).map
      (fun w => w.runs.map (·.moment)) = some [660 * minute, 600 * minute] := by decide +kernel
  obtain ⟨w, hw, hmoments⟩ := Option.map_eq_some_iff.mp hrun
  exact ⟨w, hw, hmoments, one_run_a_moment hw (by decide +kernel)⟩

/-- A minute before ten a change of the zone computes ten as the next moment; the plan is dispatched at
    ten; then the change is stored, and the plan is dispatched again. -/
def changedAcross : List Action :=
  [.edit (.update { timeZone := some "Asia/Tokyo" }), .next 0 1, .next 0 1, .tick 60000000, .dispatch,
    .next 0 1, .commit 1, .next 0 1, .tick 60000000, .dispatch, .next 0 1, .commit 1]

/-- **Ten o'clock starts two runs.** -/
theorem moment_started_twice : ∃ w,
    run (step oneZone) (World.start (599 * minute) hourly) changedAcross = some w ∧ ¬ w.Kept := by
  have hrun : (run (step oneZone) (World.start (599 * minute) hourly) changedAcross).map
      (fun w => w.runs.map (·.moment)) = some [600 * minute, 600 * minute] := by decide +kernel
  obtain ⟨w, hw, hmoments⟩ := Option.map_eq_some_iff.mp hrun
  refine ⟨w, hw, fun hkept => ?_⟩
  have honce := hkept.once
  rw [hmoments] at honce
  exact absurd honce (by decide)

end Examples

end Dbs.Dispatch

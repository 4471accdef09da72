/-
  File:      Dbs/Schedule.lean
  Subject:   THE BACKUP SCHEDULE: a due backup is tried, and tried once more when its process ended
             before it did.

  * `isDue`, `resumed`, `attempted`, `closed` -- what a run reads and writes of the schedule's row;
  * `step` -- any number of calls of `run_due` at once, statement by statement, among them the take of
    the runner lease, which is also granted when it has run out, and a crash behind any statement;
  * `alone` -- the lease is granted only when no other run is under way;
  * `Bounded` -- what every such step keeps: the status tells how many attempts there were at most
    since the next run was moved on;
  * `attempts_at_most_two` -- two attempts, and then the schedule waits for its interval;
  * `third_attempt` -- a run that is overtaken: three attempts, and the next run was not moved on.
-/
import Dbs.Runners

namespace Dbs.Schedule

open Leases Runners

/-! ## 1. The row -/

/-- The values of `last_status`; a new row has none of them. -/
inductive ScheduleStatus where
  | never
  | running
  | retrying
  | interrupted
  | succeeded
  | failed
deriving DecidableEq, Repr

/-- What the panel shows before the retry. -/
def interruptedOnce : String :=
  "The last scheduled backup stopped before it finished; it is taken again now."

/-- What it shows when the retry was interrupted too. -/
def interruptedTwice : String :=
  "Two scheduled backups in a row stopped before they finished; the next one runs " ++
    "at the usual time."

/-- The row of the schedule. The interval is none where its text cannot be read. -/
structure BackupSchedule where
  enabled : Bool
  intervalSeconds : Option Nat
  nextRunAt : Option Time
  lastRunAt : Option Time
  lastStatus : ScheduleStatus
  lastError : String
deriving DecidableEq, Repr

/-- A row without a next run is due at once. -/
def isDue (s : BackupSchedule) (now : Time) : Bool :=
  match s.nextRunAt with
  | none => true
  | some moment => decide (moment ≤ now)

/-- `now + timedelta(seconds=schedule.interval_seconds)`, which raises where the interval does. -/
def following (s : BackupSchedule) (now : Time) : Option Time :=
  s.intervalSeconds.map fun n => now + seconds n

/-- The update that `_resume` makes of the row, and of the object it has read (where only `last_error`
    stays); none where it raises. -/
def resumed (s : BackupSchedule) (now : Time) : Option (BackupSchedule → BackupSchedule) :=
  match s.lastStatus with
  | .running => some fun row =>
    { row with lastStatus := .interrupted, lastError := interruptedOnce }
  | .retrying => (following s now).map fun next row =>
    { row with lastStatus := .failed, lastError := interruptedTwice, nextRunAt := some next }
  | _ => some id

/-- The answer of `_resume`. -/
def proceeds (s : BackupSchedule) : Bool := s.lastStatus ≠ .retrying

/-- The status that `_run` writes before the backup. -/
def attempt (s : BackupSchedule) : ScheduleStatus :=
  if s.lastStatus = .interrupted then .retrying else .running

/-- What `_run` writes before the backup. -/
def attempted (status : ScheduleStatus) (moment : Time) (s : BackupSchedule) : BackupSchedule :=
  { s with lastStatus := status, lastRunAt := some moment }

/-- What `_run` writes behind the backup; `error` is the text of the exception it raised. -/
def closed (error : Option String) (next moment : Time) (s : BackupSchedule) : BackupSchedule :=
  { s with
    lastRunAt := some moment
    lastStatus := if error.isSome then .failed else .succeeded
    lastError := String.ofList ((error.getD "").toList.take 4000)
    nextRunAt := some next }

/-! ## 2. Runs -/

/-- How far a call of `run_due` has come; `read`, `resumed` and `loaded` carry the schedule object it
    goes by. -/
inductive Stage where
  /-- The schedule was due; the take of the runner lease is next. -/
  | looked
  /-- The lease was granted. -/
  | taken
  /-- Behind `refresh_from_db`. -/
  | read (schedule : BackupSchedule)
  /-- Behind `_resume`, with its answer. -/
  | resumed (schedule : BackupSchedule) (proceed : Bool)
  /-- Handed to an isolated process, which reads the row itself. -/
  | handed
  /-- `_run` has its schedule. -/
  | loaded (schedule : BackupSchedule)
  /-- In the backup. -/
  | attempting (next : Time)
  /-- Behind it, with the text of the exception it raised. -/
  | ended (next : Time) (error : Option String)
  /-- Refused, through, or killed. -/
  | over
deriving DecidableEq

/-- A call of `run_due`, under an owner of its own. -/
structure Run where
  owner : Owner
  now : Time
  force : Bool
  stage : Stage

/-- From the grant of the lease to its end. -/
def Run.underWay (r : Run) : Bool :=
  match r.stage with
  | .looked => false
  | .over => false
  | _ => true

/-- The clock, the leases, the row, the runs in the order they looked, and how many attempts there were
    since the next run was last moved on. -/
structure World where
  clock : Time
  table : List Lease
  row : BackupSchedule
  runs : List Run
  attempts : Nat

/-- A schedule, and nothing runs. -/
def World.start (clock : Time) (enabled : Bool) (intervalSeconds : Option Nat)
    (nextRunAt : Option Time) : World :=
  ⟨clock, [], ⟨enabled, intervalSeconds, nextRunAt, none, .never, ""⟩, [], 0⟩

/-- The next statement of one run. A take, a renewal and a release have read the clock before. -/
inductive Move where
  | take (now : Time)
  | refresh
  | resume
  | decide (isolated : Bool)
  | load
  | start (moment : Time)
  | backup (error : Option String)
  | close (moment : Time)
  | renew (now : Time)
  | release (now : Time)
  | crash

/-- What may happen next. -/
inductive Action where
  | tick (passed : Nat)
  | look (owner : Owner) (now : Time) (force : Bool)
  | move (i : Nat) (m : Move)

/-- The run goes on, and the row stays. -/
def World.goTo (w : World) (i : Nat) (r : Run) (stage : Stage) : World :=
  { w with runs := w.runs.set i { r with stage } }

/-- The acquire of the runner lease. -/
def World.acquired (w : World) (r : Run) (now : Time) : Bool × List Lease :=
  acquire runnerLease r.owner.name leaseSeconds now w.table

/-- The lease is asked for. -/
def World.take (w : World) (i : Nat) (r : Run) (now : Time) : World :=
  { w.goTo i r (if (w.acquired r now).1 then .taken else .over) with
    table := (w.acquired r now).2 }

/-- `_resume`. -/
def World.resume (w : World) (i : Nat) (r : Run) (s : BackupSchedule) : World :=
  match resumed s r.now with
  | none => w.goTo i r .over
  | some f =>
    { w.goTo i r (.resumed (f s) (proceeds s)) with
      row := f w.row
      attempts := if proceeds s then w.attempts else 0 }

/-- Due, and not to wait for its retry. -/
def World.decide (w : World) (i : Nat) (r : Run) (s : BackupSchedule) (proceed isolated : Bool) :
    World :=
  if !proceed && !r.force then w.goTo i r .over
  else if !r.force && !isDue s r.now then w.goTo i r .over
  else w.goTo i r (if isolated then .handed else .loaded s)

/-- `_run` up to the backup. -/
def World.begin (w : World) (i : Nat) (r : Run) (s : BackupSchedule) (moment : Time) : World :=
  match following s r.now with
  | none => w.goTo i r .over
  | some next =>
    { w.goTo i r (.attempting next) with
      row := attempted (attempt s) moment w.row
      attempts := w.attempts + 1 }

/-- The state and the next run are written. -/
def World.close (w : World) (i : Nat) (r : Run) (error : Option String) (next moment : Time) : World :=
  { w.goTo i r .over with row := closed error next moment w.row, attempts := 0 }

/-- The next statement of a run. -/
def World.move (w : World) (i : Nat) (r : Run) : Move → Option World
  | .take now => if r.stage = .looked ∧ now ≤ w.clock then some (w.take i r now) else none
  | .refresh => if r.stage = .taken then some (w.goTo i r (.read w.row)) else none
  | .resume =>
    match r.stage with
    | .read s => some (w.resume i r s)
    | _ => none
  | .decide isolated =>
    match r.stage with
    | .resumed s proceed => some (w.decide i r s proceed isolated)
    | _ => none
  | .load => if r.stage = .handed then some (w.goTo i r (.loaded w.row)) else none
  | .start moment =>
    match r.stage with
    | .loaded s => some (w.begin i r s moment)
    | _ => none
  | .backup error =>
    match r.stage with
    | .attempting next => some (w.goTo i r (.ended next error))
    | _ => none
  | .close moment =>
    match r.stage with
    | .ended next error => some (w.close i r error next moment)
    | _ => none
  | .renew now =>
    if r.underWay ∧ now ≤ w.clock then
      some { w with table := (renew runnerLease r.owner.name leaseSeconds now w.table).2 }
    else none
  | .release now =>
    if r.stage ≠ .looked ∧ now ≤ w.clock then
      some { w with table := release runnerLease r.owner.name now w.table }
    else none
  | .crash => some (w.goTo i r .over)

/-- One statement, of any run. -/
def step (w : World) : Action → Option World
  | .tick passed => some { w with clock := w.clock + passed }
  | .look owner now force =>
    if ((w.row.enabled || force) && (force || isDue w.row now)) ∧ ∀ r ∈ w.runs, r.owner ≠ owner then
      some { w with runs := w.runs ++ [⟨owner, now, force, .looked⟩] }
    else none
  | .move i m => (w.runs[i]?).bind fun r => w.move i r m

/-- **The condition**: the lease is granted only when no other run is under way, as it is while it does
    not run out before the run that holds it is over. -/
def alone (w : World) : Action → Bool
  | .move i (.take now) =>
    (w.runs[i]?).all fun r => !(w.acquired r now).1 || w.runs.all fun q => !q.underWay
  | _ => true

/-! ## 3. What every step keeps -/

/-- How many attempts a status stands for. -/
def allowance : ScheduleStatus → Nat
  | .running => 1
  | .interrupted => 1
  | .retrying => 2
  | _ => 0

/-- No attempt is open in the row. -/
def Settled (row : BackupSchedule) : Prop :=
  row.lastStatus ≠ .running ∧ row.lastStatus ≠ .retrying

/-- The run was asked for, or is due. -/
def Run.wanted (r : Run) (row : BackupSchedule) : Prop := r.force = true ∨ isDue row r.now = true

/-- What a run knows of the row. -/
def Knows (row : BackupSchedule) (r : Run) : Prop :=
  match r.stage with
  | .read s => s = row
  | .resumed s _ => s = row ∧ Settled row
  | .handed => Settled row ∧ r.wanted row
  | .loaded s => s = row ∧ Settled row ∧ r.wanted row
  | .attempting next => following row r.now = some next
  | .ended next _ => following row r.now = some next
  | _ => True

/-- **What every step keeps** where the lease is granted to one run after another. -/
structure Bounded (w : World) : Prop where
  attempts : w.attempts ≤ allowance w.row.lastStatus
  knows : ∀ r ∈ w.runs, Knows w.row r
  sole : ∀ (i j : Nat) (r q : Run), w.runs[i]? = some r → w.runs[j]? = some q →
    r.underWay = true → q.underWay = true → i = j

theorem bounded_start (clock : Time) (enabled : Bool) (intervalSeconds : Option Nat)
    (nextRunAt : Option Time) : Bounded (World.start clock enabled intervalSeconds nextRunAt) :=
  ⟨Nat.le_refl 0, fun _ h => (List.not_mem_nil h).elim, fun i _ _ _ h => by
    rw [World.start, List.getElem?_nil] at h
    cases h⟩

/-- The next run is moved on by the interval, from the moment of the run that does it. -/
def Advances (w w' : World) : Prop :=
  w'.attempts = 0 ∧ ∃ r ∈ w.runs, r.underWay = true ∧ ∃ next,
    following w.row r.now = some next ∧ w'.row.nextRunAt = some next

/-- An attempt begins, and it was due or asked for. -/
def Attempts (w w' : World) : Prop :=
  w'.attempts = w.attempts + 1 ∧ ∃ r ∈ w.runs, r.wanted w.row

/-- What a step does to the next run: it leaves it, without a new attempt; moves it on by the interval;
    or begins an attempt. -/
def Change (w w' : World) : Prop :=
  w'.attempts = w.attempts ∧ w'.row.nextRunAt = w.row.nextRunAt ∨ Advances w w' ∨ Attempts w w'

variable {w w' : World} {i : Nat} {r : Run} {stage : Stage} {row : BackupSchedule}
  {table : List Lease} {attempts : Nat}

theorem knows_of_idle (h : r.underWay = false) (row : BackupSchedule) : Knows row r := by
  obtain ⟨owner, now, force, stage⟩ := r
  cases stage <;> trivial

/-- **One run goes on.** Whoever else is under way would have to be that run, or the row stays and the
    run ends. -/
theorem Bounded.goTo (h : Bounded w) (hr : w.runs[i]? = some r)
    (hothers : ∀ (j : Nat) (q : Run), w.runs[j]? = some q → q.underWay = true →
      j = i ∨ row = w.row ∧ ({ r with stage } : Run).underWay = false)
    (ha : attempts ≤ allowance row.lastStatus) (hk : Knows row { r with stage }) :
    Bounded ⟨w.clock, table, row, w.runs.set i { r with stage }, attempts⟩ := by
  have hlt := (List.getElem?_eq_some_iff.mp hr).1
  have hget : ∀ j q, (w.runs.set i { r with stage })[j]? = some q →
      j = i ∧ q = { r with stage } ∨ j ≠ i ∧ w.runs[j]? = some q := by
    intro j q hq
    rcases eq_or_ne i j with rfl | hij
    · rw [List.getElem?_set_self hlt] at hq
      exact .inl ⟨rfl, (Option.some.inj hq).symm⟩
    · rw [List.getElem?_set_ne hij] at hq
      exact .inr ⟨hij.symm, hq⟩
  -- a run that is under way beside the changed one
  have hbeside : ∀ j q, j ≠ i → w.runs[j]? = some q → q.underWay = true →
      row = w.row ∧ ({ r with stage } : Run).underWay = false :=
    fun j q hj hq hu => (hothers j q hq hu).resolve_left hj
  refine ⟨ha, fun q hq => ?_, fun a b p q hp hq hpu hqu => ?_⟩
  · obtain ⟨j, hj⟩ := List.mem_iff_getElem?.mp hq
    rcases hget j q hj with ⟨-, rfl⟩ | ⟨hji, hj⟩
    · exact hk
    · cases hu : q.underWay with
      | false => exact knows_of_idle hu row
      | true =>
        show Knows row q
        rw [(hbeside j q hji hj hu).1]
        exact h.knows q (List.mem_of_getElem? hj)
  · rcases hget a p hp with ⟨rfl, rfl⟩ | ⟨hai, ha'⟩ <;> rcases hget b q hq with ⟨rfl, rfl⟩ | ⟨hbi, hb⟩
    · rfl
    · rw [(hbeside b q hbi hb hqu).2] at hpu
      cases hpu
    · rw [(hbeside a p hai ha' hpu).2] at hqu
      cases hqu
    · exact h.sole a b p q ha' hb hpu hqu

/-- The run that is under way goes on. -/
theorem Bounded.goOn (h : Bounded w) (hr : w.runs[i]? = some r) (hu : r.underWay = true)
    (ha : attempts ≤ allowance row.lastStatus) (hk : Knows row { r with stage }) :
    Bounded ⟨w.clock, table, row, w.runs.set i { r with stage }, attempts⟩ :=
  h.goTo hr (fun j q hq hqu => .inl (h.sole j i q r hq hr hqu hu)) ha hk

/-- Any run may end. -/
theorem Bounded.stop (h : Bounded w) (hr : w.runs[i]? = some r) (table : List Lease) :
    Bounded ⟨w.clock, table, w.row, w.runs.set i { r with stage := .over }, w.attempts⟩ :=
  h.goTo hr (fun _ _ _ _ => .inr ⟨rfl, rfl⟩) h.attempts trivial

/-- The leases change. -/
theorem Bounded.leases (h : Bounded w) (table : List Lease) : Bounded { w with table } :=
  { h with }

theorem underWay_of_stage (h : r.stage = stage) (hl : stage ≠ .looked) (ho : stage ≠ .over) :
    r.underWay = true := by
  unfold Run.underWay
  rw [h]
  cases stage <;> first | rfl | exact absurd rfl hl | exact absurd rfl ho

/-! ## 4. One lemma for each move -/

theorem Bounded.take (h : Bounded w) (hr : w.runs[i]? = some r) {now : Time}
    (halone : alone w (.move i (.take now)) = true) : Bounded (w.take i r now) := by
  unfold World.take
  cases hg : (w.acquired r now).1 with
  | false => exact h.stop hr _
  | true =>
    have hidle : ∀ q ∈ w.runs, q.underWay = false := by
      rw [alone, hr] at halone
      simpa [hg] using halone
    refine h.goTo hr (fun j q hq hu => ?_) h.attempts trivial
    rw [hidle q (List.mem_of_getElem? hq)] at hu
    cases hu

variable {s : BackupSchedule}

section

variable (h : Bounded w)

include h

/-- **`_resume`** notes the first interruption; after the second it moves the next run on. -/
theorem Bounded.resume (hr : w.runs[i]? = some r)
    (hs : r.stage = .read s) : Bounded (w.resume i r s) ∧ Change w (w.resume i r s) := by
  have hu : r.underWay = true := underWay_of_stage hs nofun nofun
  have hk : Knows w.row r := h.knows r (List.mem_of_getElem? hr)
  obtain rfl : s = w.row := by simpa only [Knows, hs] using hk
  have ha := h.attempts
  cases hstatus : w.row.lastStatus with
  | running =>
    -- the first attempt was cut off
    simp only [World.resume, resumed, proceeds, hstatus]
    rw [hstatus] at ha
    exact ⟨h.goOn hr hu ha ⟨rfl, nofun, nofun⟩, .inl ⟨rfl, rfl⟩⟩
  | retrying =>
    -- the second one too
    cases hf : following w.row r.now with
    | none =>
      simp only [World.resume, resumed, hstatus, hf, Option.map_none]
      exact ⟨h.stop hr _, .inl ⟨rfl, rfl⟩⟩
    | some next =>
      simp only [World.resume, resumed, proceeds, hstatus, hf, Option.map_some]
      exact ⟨h.goOn hr hu (Nat.le_refl 0) ⟨rfl, nofun, nofun⟩,
        .inr (.inl ⟨rfl, r, List.mem_of_getElem? hr, hu, next, hf, rfl⟩)⟩
  | never | interrupted | succeeded | failed =>
    have hsettled : Settled w.row := by
      constructor <;> rw [hstatus] <;> nofun
    simp only [World.resume, resumed, proceeds, hstatus]
    exact ⟨h.goOn hr hu ha ⟨rfl, hsettled⟩, .inl ⟨rfl, rfl⟩⟩

/-- The run stops where it is neither due nor asked for. -/
theorem Bounded.decide (hr : w.runs[i]? = some r)
    {proceed : Bool} (hs : r.stage = .resumed s proceed) (isolated : Bool) :
    Bounded (w.decide i r s proceed isolated) := by
  have hu : r.underWay = true := underWay_of_stage hs nofun nofun
  have hk : Knows w.row r := h.knows r (List.mem_of_getElem? hr)
  obtain ⟨rfl, hsettled⟩ : s = w.row ∧ Settled w.row := by simpa only [Knows, hs] using hk
  unfold World.decide
  split
  · exact h.stop hr _
  · split
    · exact h.stop hr _
    · next hdue =>
      have hwanted : r.wanted w.row := by
        unfold Run.wanted
        cases hforce : r.force <;> cases hd : isDue w.row r.now <;> simp [hforce, hd] at hdue ⊢
      cases isolated with
      | true => exact h.goOn hr hu h.attempts ⟨hsettled, hwanted⟩
      | false => exact h.goOn hr hu h.attempts ⟨rfl, hsettled, hwanted⟩

/-- **An attempt** is the first, or the retry of an interrupted one. -/
theorem Bounded.begin (hr : w.runs[i]? = some r) (hs : r.stage = .loaded s) (moment : Time) :
    Bounded (w.begin i r s moment) ∧ Change w (w.begin i r s moment) := by
  have hu : r.underWay = true := underWay_of_stage hs nofun nofun
  have hk : Knows w.row r := h.knows r (List.mem_of_getElem? hr)
  obtain ⟨rfl, ⟨hrunning, hretrying⟩, hwanted⟩ : s = w.row ∧ Settled w.row ∧ r.wanted w.row := by
    simpa only [Knows, hs] using hk
  have ha := h.attempts
  unfold World.begin
  cases hf : following w.row r.now with
  | none => exact ⟨h.stop hr _, .inl ⟨rfl, rfl⟩⟩
  | some next =>
    refine ⟨h.goOn hr hu ?_ hf, .inr (.inr ⟨rfl, r, List.mem_of_getElem? hr, hwanted⟩)⟩
    show w.attempts + 1 ≤ allowance (attempt w.row)
    unfold attempt
    cases hstatus : w.row.lastStatus with
    | running => exact absurd hstatus hrunning
    | retrying => exact absurd hstatus hretrying
    | interrupted | never | succeeded | failed =>
      rw [hstatus] at ha
      exact Nat.succ_le_succ ha

/-- The end of an attempt moves the next run on. -/
theorem Bounded.close (hr : w.runs[i]? = some r) {next : Time}
    {error : Option String} (hs : r.stage = .ended next error) (moment : Time) :
    Bounded (w.close i r error next moment) ∧ Change w (w.close i r error next moment) := by
  have hu : r.underWay = true := underWay_of_stage hs nofun nofun
  have hk : Knows w.row r := h.knows r (List.mem_of_getElem? hr)
  have hf : following w.row r.now = some next := by simpa only [Knows, hs] using hk
  exact ⟨h.goOn hr hu (Nat.zero_le _) trivial,
    .inr (.inl ⟨rfl, r, List.mem_of_getElem? hr, hu, next, hf, rfl⟩)⟩

theorem Bounded.move (hr : w.runs[i]? = some r) {m : Move}
    (halone : alone w (.move i m) = true) (hm : w.move i r m = some w') :
    Bounded w' ∧ Change w w' := by
  have hk : Knows w.row r := h.knows r (List.mem_of_getElem? hr)
  cases m with
  | take now =>
    obtain ⟨-, ⟨⟩⟩ := Option.ite_none_right_eq_some.mp hm
    exact ⟨h.take hr halone, .inl ⟨rfl, rfl⟩⟩
  | refresh =>
    obtain ⟨hs, hm⟩ := Option.ite_none_right_eq_some.mp hm
    cases hm
    exact ⟨h.goOn hr (underWay_of_stage hs nofun nofun) h.attempts rfl, .inl ⟨rfl, rfl⟩⟩
  | resume =>
    simp only [World.move] at hm
    split at hm <;> cases hm
    exact h.resume hr ‹_›
  | decide isolated =>
    simp only [World.move] at hm
    split at hm <;> cases hm
    refine ⟨h.decide hr ‹_› isolated, .inl ?_⟩
    unfold World.decide
    split
    · exact ⟨rfl, rfl⟩
    · split <;> exact ⟨rfl, rfl⟩
  | load =>
    obtain ⟨hs, hm⟩ := Option.ite_none_right_eq_some.mp hm
    cases hm
    rw [Knows, hs] at hk
    exact ⟨h.goOn hr (underWay_of_stage hs nofun nofun) h.attempts ⟨rfl, hk⟩, .inl ⟨rfl, rfl⟩⟩
  | start moment =>
    simp only [World.move] at hm
    split at hm <;> cases hm
    exact h.begin hr ‹_› moment
  | backup error =>
    simp only [World.move] at hm
    split at hm <;> cases hm
    next next hs =>
    rw [Knows, hs] at hk
    exact ⟨h.goOn hr (underWay_of_stage hs nofun nofun) h.attempts hk, .inl ⟨rfl, rfl⟩⟩
  | close moment =>
    simp only [World.move] at hm
    split at hm <;> cases hm
    exact h.close hr ‹_› moment
  | renew now | release now =>
    obtain ⟨-, ⟨⟩⟩ := Option.ite_none_right_eq_some.mp hm
    exact ⟨h.leases _, .inl ⟨rfl, rfl⟩⟩
  | crash =>
    cases hm
    exact ⟨h.stop hr _, .inl ⟨rfl, rfl⟩⟩

/-- A new run has not taken the lease. -/
theorem Bounded.look (owner : Owner) (now : Time) (force : Bool) :
    Bounded { w with runs := w.runs ++ [⟨owner, now, force, .looked⟩] } := by
  have hget : ∀ (j : Nat) (q : Run), (w.runs ++ [⟨owner, now, force, .looked⟩])[j]? = some q →
      q.underWay = true → w.runs[j]? = some q := by
    intro j q hq hu
    rw [List.getElem?_append] at hq
    split at hq
    · exact hq
    · obtain rfl := List.mem_singleton.mp (List.mem_of_getElem? hq)
      cases hu
  refine ⟨h.attempts, fun q hq => ?_, fun i j r q hr hq hru hqu =>
    h.sole i j r q (hget i r hr hru) (hget j q hq hqu) hru hqu⟩
  rcases List.mem_append.mp hq with hq | hq
  · exact h.knows q hq
  · obtain rfl := List.mem_singleton.mp hq
    trivial

theorem Bounded.step {a : Action} (halone : alone w a = true)
    (hstep : step w a = some w') : Bounded w' ∧ Change w w' := by
  cases a with
  | tick passed =>
    cases hstep
    exact ⟨{ h with }, .inl ⟨rfl, rfl⟩⟩
  | look owner now force =>
    obtain ⟨-, ⟨⟩⟩ := Option.ite_none_right_eq_some.mp hstep
    exact ⟨h.look owner now force, .inl ⟨rfl, rfl⟩⟩
  | move i m =>
    obtain ⟨r, hr, hm⟩ := Option.bind_eq_some_iff.mp hstep
    exact h.move hr halone hm

end

theorem allowance_le (s : ScheduleStatus) : allowance s ≤ 2 := by cases s <;> decide

/-! ## 5. Two attempts -/

/-- **At most two attempts** from one advance of the next run to the next, whatever ticks come and
    wherever a process ends, in every run in which the lease is granted only when no other run is
    under way; an attempt that nobody asked for begins only when the run is due; and from every state
    reached such a step leaves the next run where it is, moves it on by the interval, or begins an
    attempt, which it does not where two were made. -/
theorem attempts_at_most_two {clock : Time} {enabled : Bool} {intervalSeconds : Option Nat}
    {nextRunAt : Option Time} {as : List Action}
    (hrun : Runs.run step (World.start clock enabled intervalSeconds nextRunAt) as = some w)
    (halone : Runs.Along step (fun w a => alone w a = true)
      (World.start clock enabled intervalSeconds nextRunAt) as) :
    w.attempts ≤ 2 ∧ ∀ a w', alone w a = true → step w a = some w' →
      (w'.attempts = w.attempts ∧ w'.row.nextRunAt = w.row.nextRunAt ∨ Advances w w' ∨
        w.attempts < 2 ∧ Attempts w w') := by
  have hb : Bounded w := Runs.run_invariant_along (fun _ _ _ hstep ha hb => (hb.step ha hstep).1)
    hrun halone (bounded_start clock enabled intervalSeconds nextRunAt)
  refine ⟨Nat.le_trans hb.attempts (allowance_le _), fun a w' ha hstep => ?_⟩
  obtain ⟨hb', hsame | hadvances | hattempts⟩ := hb.step ha hstep
  · exact .inl hsame
  · exact .inr (.inl hadvances)
  · have hle := Nat.le_trans hb'.attempts (allowance_le _)
    rw [hattempts.1] at hle
    exact .inr (.inr ⟨hle, hattempts⟩)

/-- A run takes the lease and reads the row. -/
def taking (i : Nat) (now : Time) : List Action := [.move i (.take now), .move i .refresh]

/-- It goes on to the backup, in which its process ends. -/
def crashing (i : Nat) : List Action :=
  [.move i .resume, .move i (.decide false), .move i (.start 0), .move i .crash]

/-- Two processes end in the middle of the backup, the second one when the lease of the first has run
    out. -/
def twoCrashes : List Action :=
  [.look ⟨"a", nofun⟩ 0 false] ++ taking 0 0 ++ crashing 0 ++
  [.tick 121000000, .look ⟨"b", nofun⟩ (seconds 121) false] ++ taking 1 (seconds 121) ++ crashing 1

/-- No attempt follows on them. -/
theorem attempts_at_most_two_crashes : ∃ w,
    Runs.run step (World.start 0 true (some 3600) none) twoCrashes = some w ∧ w.attempts = 2 ∧
    ∀ a w', alone w a = true → step w a = some w' → ¬ Attempts w w' := by
  have hreached : ∃ w, Runs.run step (World.start 0 true (some 3600) none) twoCrashes = some w ∧
      w.attempts = 2 := ⟨_, rfl, rfl⟩
  obtain ⟨w, hrun, htwo⟩ := hreached
  refine ⟨w, hrun, htwo, fun a w' ha hstep hattempts => ?_⟩
  have hnew := hattempts.1
  rcases (attempts_at_most_two hrun (by decide +kernel)).2 a w' ha hstep with h | h | h
  · have hsame := h.1
    omega
  · have hzero := h.1
    omega
  · have hless := h.1
    omega

/-- The first run has read the row when its lease runs out. -/
def overtaken : List Action :=
  [.look ⟨"a", nofun⟩ 0 false] ++ taking 0 0 ++
  [.tick 121000000, .look ⟨"b", nofun⟩ (seconds 121) false] ++ taking 1 (seconds 121) ++
  crashing 1 ++ crashing 0 ++
  [.tick 379000000, .look ⟨"c", nofun⟩ (seconds 500) false] ++ taking 2 (seconds 500) ++ crashing 2

/-- **A third attempt**: the second run crashes, the overtaken one writes its first attempt over that
    and crashes, and the third run retries; the next run was never moved on. -/
theorem third_attempt : ∃ w,
    Runs.run step (World.start 0 true (some 3600) none) overtaken = some w ∧ w.attempts = 3 ∧
    w.row.nextRunAt = none := ⟨_, rfl, rfl, rfl⟩

end Dbs.Schedule

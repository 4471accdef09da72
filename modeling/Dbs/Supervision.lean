/-
  File:      Dbs/Supervision.lean
  Subject:   NO JOB STAYS UNFINISHED (jobs.py, Job.begin, tracked and recover; job_process.py,
             settle): the event of a job and its lease are two rows, written and removed in statements
             of their own.

  * `JobRun`, `Stage` -- a process that works on a job, and the statement it has come to;
  * `step` -- the statements of any number of jobs, recoveries and supervisors, each of which may
    fail, and processes killed between them;
  * `kept` -- no process ends between the event and its lease, and no lease is dropped whose event is
    open;
  * `Held` -- what every such step keeps; `none_forgotten` -- an unfinished event is worked on, or a
    recovery finds it; `forgotten` -- two runs after which nothing finds it.
-/
import Dbs.Jobs

namespace Dbs.Supervision

open Jobs Runs

/-! ## 1. Jobs, recoveries and supervisors -/

inductive Stage
  /-- `Job.begin` has recorded the event. -/
  | recorded
  /-- `acquire` has read the clock. -/
  | acquiring (now : Time)
  /-- The row of the lease is there. -/
  | created (now : Time)
  /-- The lease is taken; the work is under way. -/
  | working
  /-- The event is to be closed: behind the work, or because it could not be handed to its process. -/
  | closing (tracked : Bool)
  /-- The lease is to be dropped; whether the event was closed. -/
  | dropping (closed : Bool)
  | over (closed : Bool)
deriving DecidableEq

/-- A process of the owner that works on the job of an event. -/
structure JobRun where
  eventId : Nat
  owner : Owner
  stage : Stage
deriving DecidableEq

/-- Between the event and the row of its lease. -/
def Stage.unleased : Stage → Bool
  | .recorded => true
  | .acquiring _ => true
  | _ => false

/-- Inside `Job.begin`. -/
def Stage.begins : Stage → Bool
  | .created _ => true
  | s => s.unleased

/-- Alive and not done with the event. -/
def JobRun.works (j : JobRun) : Bool :=
  match j.stage with
  | .dropping _ => false
  | .over _ => false
  | _ => true

/-- A supervisor in `settle`, and the leases whose events it has still to close. -/
structure Settle where
  owner : Owner
  returncode : Int
  detail : String
  waiting : List String
deriving DecidableEq

structure World where
  clock : Time
  events : List AuditEvent
  table : List Lease
  jobs : List JobRun
  recoveries : List Recovery
  settles : List Settle

def World.start (clock : Time) : World := ⟨clock, [], [], [], [], []⟩

/-- `REASONS.get(returncode, KILLED)`. -/
def reasonOf (returncode : Int) : String :=
  if returncode = 3 then "time_limit"
  else if returncode = 4 then "memory_limit"
  else if returncode = 5 then "lease_lost"
  else "killed"

/-- `_explained`, of a detail that has been stripped. -/
def explained (returncode : Int) (detail : String) : String :=
  let ended := s!"The process running the job ended with status {returncode}."
  if returncode = 3 then "The job ran longer than DBS_JOB_TIME_LIMIT and was stopped."
  else if returncode = 4 then "The job used more memory than DBS_JOB_MEMORY_LIMIT and was stopped."
  else if returncode = 5 then "Another process took this job over, so this one stopped."
  else if detail = "" then ended else ended ++ " " ++ detail

/-- How `_close` is called. -/
inductive Closing
  | succeed (data : Audit.Data)
  | fail (errorCode : String) (data : Audit.Data) (detail : String)

/-- What the process of a job does next. -/
inductive Move
  | acquire
  | create
  | take
  /-- A renewal of the heartbeat that has read the clock. -/
  | beat (now : Time)
  /-- `Job.adopt`, by the child process. -/
  | adopt
  | leave
  | launchFails
  | close (c : Closing) (moment : DateTime)
  | drop
  /-- The statement raises. -/
  | fails
  | kill

inductive Action
  | tick (passed : Nat)
  | record (eventId : Nat) (owner : Owner) (r : Audit.Recording) (now createdAt : DateTime)
  | job (j : JobRun) (m : Move)
  | recover
  | list (r : Recovery)
  | mark (r : Recovery) (moment : DateTime)
  | clear (r : Recovery)
  | settle (owner : Owner) (returncode : Int) (detail : String)
  | settleFail (s : Settle) (moment : DateTime)
  | settleDelete (s : Settle)

/-- The process goes on. -/
def World.put (w : World) (j : JobRun) (stage : Stage) : World :=
  { w with jobs := { j with stage } :: w.jobs.erase j }

def applyClosing (eventId : Nat) (c : Closing) (moment : DateTime) (events : List AuditEvent) :
    List AuditEvent :=
  match c with
  | .succeed data => Audit.finish eventId (some data) moment events
  | .fail errorCode data detail => Audit.fail eventId errorCode (some data) detail moment events

def leaseSeconds : Int := 120

def jobStep (w : World) (j : JobRun) : Move → Option World
  | .acquire =>
    match j.stage with
    | .recorded => some (w.put j (.acquiring w.clock))
    | _ => none
  | .create =>
    match j.stage with
    | .acquiring now =>
      some { w.put j (.created now) with
        table := Leases.getOrCreate (jobLease j.eventId) now w.table }
    | _ => none
  | .take =>
    match j.stage with
    | .created now =>
      some { w.put j .working with
        table := (Leases.take (jobLease j.eventId) j.owner.name leaseSeconds now w.table).2 }
    | _ => none
  | .beat now =>
    match j.stage with
    | .working =>
      some { w with
        table := (Leases.renew (jobLease j.eventId) j.owner.name leaseSeconds now w.table).2 }
    | _ => none
  | .adopt =>
    match j.stage with
    | .working => some { w with jobs := j :: w.jobs }
    | _ => none
  | .leave =>
    match j.stage with
    | .working => some (w.put j (.closing true))
    | _ => none
  | .launchFails =>
    match j.stage with
    | .working => some (w.put j (.closing false))
    | _ => none
  | .close c moment =>
    match j.stage with
    | .closing _ =>
      some { w.put j (.dropping true) with events := applyClosing j.eventId c moment w.events }
    | _ => none
  | .drop =>
    match j.stage with
    | .dropping closed =>
      some { w.put j (.over closed) with
        table := Leases.drop (jobLease j.eventId) j.owner.name w.table }
    | _ => none
  | .fails =>
    match j.stage with
    | .acquiring _ => some (w.put j (.over false))
    | .created _ => some (w.put j (.over false))
    -- `finally: self.close()` comes behind a failing update too
    | .closing true => some (w.put j (.dropping false))
    | .closing false => some (w.put j (.over false))
    | .dropping _ => some (w.put j (.over false))
    | _ => none
  | .kill =>
    match j.stage with
    | .over _ => none
    | _ => some (w.put j (.over false))

/-- `audit.fail(int(event_id), …)`, where the name ends in digits. -/
def failNamed (name reason detail : String) (moment : DateTime) (events : List AuditEvent) :
    List AuditEvent :=
  match eventOf name with
  | some eventId => Audit.fail eventId reason none detail moment events
  | none => events

/-- The names that `settle` finds. -/
def heldNames (owner : String) (table : List Lease) : List String :=
  (table.filter fun l => l.owner == owner && isJobLease l.name).map Lease.name

/-- The child process of the owner has ended: with status 0, behind a job that was closed. -/
def World.ended (w : World) (owner : Owner) (returncode : Int) : Bool :=
  w.jobs.all (fun j => j.owner ≠ owner || !j.stage.begins) &&
    (returncode ≠ 0 || w.jobs.any (fun j => j.owner = owner && j.stage = .over true))

def step (w : World) : Action → Option World
  | .tick passed => some { w with clock := w.clock + passed }
  | .record eventId owner r now createdAt =>
    if w.events.any (fun e => e.pk = eventId) || w.jobs.any (fun j => j.owner = owner) ||
        w.settles.any (fun s => s.owner = owner) then none
    else some { w with
      events := Audit.record eventId { r with status := .running } now createdAt w.events
      jobs := ⟨eventId, owner, .recorded⟩ :: w.jobs }
  | .job j m => if j ∈ w.jobs then jobStep w j m else none
  | .recover => some { w with recoveries := .begun w.clock :: w.recoveries }
  | .list r =>
    match r with
    | .begun now =>
      if r ∈ w.recoveries then
        let expired := listExpired now w.table
        let rest := w.recoveries.erase r
        some { w with recoveries := if expired.isEmpty then rest else .listed now expired :: rest }
      else none
    | _ => none
  | .mark r moment =>
    match r with
    | .listed now expired =>
      if r ∈ w.recoveries then
        some { w with
          events := Audit.interrupt none [] (some (eventsOf expired)) moment w.events
          recoveries := .marked now expired :: w.recoveries.erase r }
      else none
    | _ => none
  | .clear r =>
    match r with
    | .marked now expired =>
      if r ∈ w.recoveries then
        some { w with
          table := dropExpired now expired w.table
          recoveries := w.recoveries.erase r }
      else none
    | _ => none
  | .settle owner returncode detail =>
    if w.ended owner returncode then
      let held := if returncode = 0 then [] else heldNames owner.name w.table
      some { w with settles := ⟨owner, returncode, detail, held⟩ :: w.settles }
    else none
  | .settleFail s moment =>
    if s ∈ w.settles then
      match s.waiting with
      | [] => none
      | name :: waiting =>
        some { w with
          events := failNamed name (reasonOf s.returncode) (explained s.returncode s.detail)
            moment w.events
          settles := { s with waiting } :: w.settles.erase s }
    else none
  | .settleDelete s =>
    if s ∈ w.settles ∧ s.waiting = [] then
      some { w with
        table := Rows.delete (fun l => l.owner == s.owner.name && isJobLease l.name) w.table
        settles := w.settles.erase s }
    else none

/-! ## 2. The condition -/

/-- No event of the number is open. -/
def closedAt (events : List AuditEvent) (eventId : Nat) : Bool :=
  events.all fun e => e.pk ≠ eventId || !e.isUnfinished

/-- **Kept**: no process ends between the event and the row of its lease, and a lease is dropped by
    its job when the event has been closed. -/
def kept (w : World) : Action → Bool
  | .job j .kill => !j.stage.unleased
  | .job j .fails => !j.stage.unleased
  | .job j .drop => closedAt w.events j.eventId
  | _ => true

/-! ## 3. Events that are closed stay closed -/

def Known (events : List AuditEvent) (n : Nat) : Prop := ∃ e ∈ events, e.pk = n

def Finished (events : List AuditEvent) (n : Nat) : Prop :=
  ∀ e ∈ events, e.pk = n → e.isUnfinished = false

def HasLease (table : List Lease) (n : Nat) : Prop := ∃ l ∈ table, l.name = jobLease n

variable {w w' : World} {j k : JobRun} {events : List AuditEvent} {table : List Lease} {n m : Nat}

theorem closedAt_iff : closedAt events n = true ↔ Finished events n := by
  simp only [closedAt, List.all_eq_true, Finished, Bool.or_eq_true, decide_eq_true_eq,
    Bool.not_eq_true']
  refine forall₂_congr fun e _ => ?_
  rw [← imp_iff_not_or]

theorem jobLease_inj (h : jobLease n = jobLease m) : n = m := by
  have hevent := congrArg eventOf h
  rwa [eventOf_jobLease, eventOf_jobLease, Option.some.injEq] at hevent

section Update

variable {p : AuditEvent → Bool} {f : AuditEvent → AuditEvent}

theorem known_update (hpk : ∀ e, (f e).pk = e.pk) (h : Known events n) :
    Known (Rows.update p f events) n := by
  obtain ⟨e, he, hn⟩ := h
  have hmem : n ∈ (Rows.update p f events).map AuditEvent.pk := by
    rw [Rows.map_update _ fun e _ _ => hpk e]
    exact hn ▸ List.mem_map_of_mem he
  exact List.mem_map.mp hmem

/-- What an update that closes leaves open was open, and is not among its rows. -/
theorem open_update (hf : ∀ e, (f e).isUnfinished = false) {e : AuditEvent}
    (he : e ∈ Rows.update p f events) (hopen : e.isUnfinished = true) :
    e ∈ events ∧ p e = false := by
  rcases Rows.mem_update.mp he with ⟨old, -, -, rfl⟩ | h
  · rw [hf] at hopen
    cases hopen
  · exact h

theorem finished_update (hf : ∀ e, (f e).isUnfinished = false) (h : Finished events n) :
    Finished (Rows.update p f events) n := by
  intro e he hn
  by_contra hopen
  rw [Bool.not_eq_false] at hopen
  exact Bool.noConfusion ((h e (open_update hf he hopen).1 hn).symm.trans hopen)

end Update

variable {errorCode detail : String} {data : Option Audit.Data} {status : AuditStatus}

theorem closed_finished (hs : status = .succeeded ∨ status = .failed)
    {moment : DateTime} (e : AuditEvent) :
    (Audit.closed status data errorCode detail moment e).isUnfinished = false := by
  rcases hs with rfl | rfl <;> rfl

/-- An open event of the number is among the rows of `_close`. -/
theorem finished_close (hs : status = .succeeded ∨ status = .failed) {moment : DateTime} :
    Finished (Audit.close n status data errorCode detail moment events) n := by
  intro e he hn
  by_contra hopen
  rw [Bool.not_eq_false] at hopen
  have hrow := (open_update (closed_finished hs) he hopen).2
  rw [Audit.isOpen, hopen, Bool.and_true, beq_eq_false_iff_ne] at hrow
  exact hrow hn

theorem finished_interrupt {names : List String} {moment : DateTime} (h : jobLease n ∈ names) :
    Finished (Audit.interrupt none [] (some (eventsOf names)) moment events) n := by
  intro e he hn
  by_contra hopen
  rw [Bool.not_eq_false] at hopen
  have hrow := (open_update (fun _ => rfl) he hopen).2
  have hevent : eventOf (jobLease n) = some e.pk := by rw [eventOf_jobLease, hn]
  have hmem : e.pk ∈ eventsOf names := List.mem_filterMap.mpr ⟨_, h, hevent⟩
  have hidle : (e.status == AuditStatus.queued.value || e.status == AuditStatus.running.value) =
    true := by
    simpa [AuditEvent.isUnfinished, Audit.unfinished, Bool.or_comm] using hopen
  rw [Audit.interruptible, List.contains_iff_mem.mpr hmem] at hrow
  simp only [hidle, List.contains_nil, Bool.not_false, Bool.and_true] at hrow
  cases hrow

/-! ## 4. What every such step keeps -/

/-- What a recovery has listed. -/
def names : Recovery → List String
  | .begun _ => []
  | .listed _ expired => expired
  | .marked _ expired => expired

/-- **The invariant.** -/
structure Held (w : World) : Prop where
  rows : ∀ l ∈ w.table, ∃ n, Known w.events n ∧ l.name = jobLease n
  jobs : ∀ j ∈ w.jobs, Known w.events j.eventId
  leased : ∀ e ∈ w.events, e.isUnfinished = true →
    HasLease w.table e.pk ∨ ∃ j ∈ w.jobs, j.eventId = e.pk ∧ j.stage.unleased = true
  closed : ∀ j ∈ w.jobs, j.stage = .dropping true ∨ j.stage = .over true → Finished w.events j.eventId
  owners : ∀ j ∈ w.jobs, ∀ k ∈ w.jobs, j.owner = k.owner → j.eventId = k.eventId
  rowOwner : ∀ l ∈ w.table, l.owner ≠ "" →
    ∃ j ∈ w.jobs, l.owner = j.owner.name ∧ l.name = jobLease j.eventId
  listed : ∀ r ∈ w.recoveries, ∀ n, jobLease n ∈ names r → Known w.events n
  marked : ∀ now expired, .marked now expired ∈ w.recoveries → ∀ n, jobLease n ∈ expired →
    Finished w.events n
  settles : ∀ s ∈ w.settles, ∀ l ∈ w.table, l.owner = s.owner.name → ∀ n, l.name = jobLease n →
    l.name ∈ s.waiting ∨ Finished w.events n
  settled : ∀ s ∈ w.settles, ∀ j ∈ w.jobs, j.owner = s.owner → j.stage.begins = false

theorem held_start (clock : Time) : Held (World.start clock) where
  rows := fun _ h => (List.not_mem_nil h).elim
  jobs := fun _ h => (List.not_mem_nil h).elim
  leased := fun _ h => (List.not_mem_nil h).elim
  closed := fun _ h => (List.not_mem_nil h).elim
  owners := fun _ h => (List.not_mem_nil h).elim
  rowOwner := fun _ h => (List.not_mem_nil h).elim
  listed := fun _ h => (List.not_mem_nil h).elim
  marked := fun _ _ h => (List.not_mem_nil h).elim
  settles := fun _ h => (List.not_mem_nil h).elim
  settled := fun _ h => (List.not_mem_nil h).elim

/-- **Events are closed.** -/
theorem Held.update (h : Held w) {p : AuditEvent → Bool} {f : AuditEvent → AuditEvent}
    (hpk : ∀ e, (f e).pk = e.pk) (hf : ∀ e, (f e).isUnfinished = false) :
    Held { w with events := Rows.update p f w.events } where
  __ := h
  rows := fun l hl => by
    obtain ⟨n, hn, hname⟩ := h.rows l hl
    exact ⟨n, known_update hpk hn, hname⟩
  jobs := fun j hj => known_update hpk (h.jobs j hj)
  leased := fun e he hopen => h.leased e (open_update hf he hopen).1 hopen
  closed := fun j hj hstage => finished_update hf (h.closed j hj hstage)
  listed := fun r hr n hn => known_update hpk (h.listed r hr n hn)
  marked := fun now expired hr n hn => finished_update hf (h.marked now expired hr n hn)
  settles := fun s hs l hl howner n hn => (h.settles s hs l hl howner n hn).imp_right
    (finished_update hf)

/-- **The leases change.** Rows are new for a job that begins, or keep their name and owner; a row that
    goes is that of an event that is closed. -/
theorem Held.leases (h : Held w) {table : List Lease}
    (hrows : ∀ l ∈ table, (∃ old ∈ w.table, old.name = l.name ∧ old.owner = l.owner) ∨
      ∃ j ∈ w.jobs, l.name = jobLease j.eventId ∧
        (l.owner = "" ∨ l.owner = j.owner.name ∧ j.stage.begins = true))
    (hkeep : ∀ n, HasLease w.table n → HasLease table n ∨ Finished w.events n) :
    Held { w with table } where
  __ := h
  rows := fun l hl => by
    rcases hrows l hl with ⟨old, hold, hname, -⟩ | ⟨j, hj, hname, -⟩
    · exact hname ▸ h.rows old hold
    · exact ⟨j.eventId, h.jobs j hj, hname⟩
  leased := fun e he hopen => by
    rcases h.leased e he hopen with hlease | hjob
    · refine .inl ((hkeep e.pk hlease).resolve_right fun hfin => ?_)
      exact Bool.noConfusion ((hfin e he rfl).symm.trans hopen)
    · exact .inr hjob
  rowOwner := fun l hl howner => by
    rcases hrows l hl with ⟨old, hold, hname, ho⟩ | ⟨j, hj, hname, ho⟩
    · rw [← hname, ← ho]
      exact h.rowOwner old hold (ho ▸ howner)
    · exact ⟨j, hj, (ho.resolve_left howner).1, hname⟩
  settles := fun s hs l hl howner n hn => by
    rcases hrows l hl with ⟨old, hold, hname, ho⟩ | ⟨j, hj, hname, ho⟩
    · rw [← hname]
      exact h.settles s hs old hold (ho.trans howner) n (hname.trans hn)
    · rcases ho with ho | ⟨ho, hbegins⟩
      · exact absurd (howner.symm.trans ho) s.owner.named
      · have hsame : j.owner = s.owner := Owner.ext (ho.symm.trans howner)
        rw [h.settled s hs j hj hsame] at hbegins
        cases hbegins

theorem mem_put {stage : Stage} (h : k ∈ (w.put j stage).jobs) : k = { j with stage } ∨ k ∈ w.jobs := by
  rcases List.mem_cons.mp h with h | h
  · exact .inl h
  · exact .inr (List.mem_of_mem_erase h)

theorem mem_put_of_ne {stage : Stage} (h : k ∈ w.jobs) (hne : k ≠ j) : k ∈ (w.put j stage).jobs :=
  List.mem_cons_of_mem _ ((List.mem_erase_of_ne hne).mpr h)

/-- **A process goes on.** -/
theorem Held.put (h : Held w) (hj : j ∈ w.jobs) {stage : Stage}
    (hunleased : j.stage.unleased = true → stage.unleased = true ∨ HasLease w.table j.eventId)
    (hclosed : stage = .dropping true ∨ stage = .over true → Finished w.events j.eventId)
    (hbegins : stage.begins = true → j.stage.begins = true) : Held (w.put j stage) where
  __ := h
  jobs := fun k hk => by
    rcases mem_put hk with rfl | hk
    · exact h.jobs j hj
    · exact h.jobs k hk
  leased := fun e he hopen => by
    rcases h.leased e he hopen with hlease | ⟨k, hk, hpk, hstage⟩
    · exact .inl hlease
    · by_cases hkj : k = j
      · subst hkj
        rcases hunleased hstage with hstage | hlease
        · exact .inr ⟨_, List.mem_cons_self, hpk, hstage⟩
        · exact .inl (hpk ▸ hlease)
      · exact .inr ⟨k, mem_put_of_ne hk hkj, hpk, hstage⟩
  closed := fun k hk hstage => by
    rcases mem_put hk with rfl | hk
    · exact hclosed hstage
    · exact h.closed k hk hstage
  owners := fun k hk i hi howner => by
    rcases mem_put hk with rfl | hk <;> rcases mem_put hi with rfl | hi
    · rfl
    · exact h.owners j hj i hi howner
    · exact h.owners k hk j hj howner
    · exact h.owners k hk i hi howner
  rowOwner := fun l hl howner => by
    obtain ⟨k, hk, ho, hname⟩ := h.rowOwner l hl howner
    by_cases hkj : k = j
    · subst hkj
      exact ⟨_, List.mem_cons_self, ho, hname⟩
    · exact ⟨k, mem_put_of_ne hk hkj, ho, hname⟩
  settled := fun s hs k hk howner => by
    rcases mem_put hk with rfl | hk
    · have hnot := h.settled s hs j hj howner
      by_contra hstage
      rw [hbegins (by rwa [Bool.not_eq_false] at hstage)] at hnot
      cases hnot
    · exact h.settled s hs k hk howner

theorem known_append {new : List AuditEvent} (h : Known events n) : Known (events ++ new) n := by
  obtain ⟨e, he, hn⟩ := h
  exact ⟨e, List.mem_append_left _ he, hn⟩

/-- An event of a new number does not open another. -/
theorem finished_append {e : AuditEvent} (h : Finished events n) (hn : Known events n)
    (hfresh : ¬ Known events e.pk) : Finished (events ++ [e]) n := by
  intro d hd hdn
  rcases List.mem_append.mp hd with hd | hd
  · exact h d hd hdn
  · obtain rfl := List.mem_singleton.mp hd
    exact absurd (hdn ▸ hn) hfresh

/-- **An event is recorded.** -/
theorem Held.record (h : Held w) {e : AuditEvent} {owner : Owner} (hfresh : ¬ Known w.events e.pk)
    (hjobs : ∀ j ∈ w.jobs, j.owner ≠ owner) (hsettles : ∀ s ∈ w.settles, s.owner ≠ owner) :
    Held { w with events := w.events ++ [e], jobs := ⟨e.pk, owner, .recorded⟩ :: w.jobs } where
  rows := fun l hl => by
    obtain ⟨n, hn, hname⟩ := h.rows l hl
    exact ⟨n, known_append hn, hname⟩
  jobs := fun j hj => by
    rcases List.mem_cons.mp hj with rfl | hj
    · exact ⟨e, List.mem_append_right _ (List.mem_singleton_self e), rfl⟩
    · exact known_append (h.jobs j hj)
  leased := fun d hd hopen => by
    rcases List.mem_append.mp hd with hd | hd
    · rcases h.leased d hd hopen with hlease | ⟨j, hj, hpk, hstage⟩
      · exact .inl hlease
      · exact .inr ⟨j, List.mem_cons_of_mem _ hj, hpk, hstage⟩
    · obtain rfl := List.mem_singleton.mp hd
      exact .inr ⟨_, List.mem_cons_self, rfl, rfl⟩
  closed := fun j hj hstage => by
    rcases List.mem_cons.mp hj with rfl | hj
    · rcases hstage with hstage | hstage <;> cases hstage
    · exact finished_append (h.closed j hj hstage) (h.jobs j hj) hfresh
  owners := fun j hj k hk howner => by
    rcases List.mem_cons.mp hj with rfl | hj <;> rcases List.mem_cons.mp hk with rfl | hk
    · rfl
    · exact absurd howner.symm (hjobs k hk)
    · exact absurd howner (hjobs j hj)
    · exact h.owners j hj k hk howner
  rowOwner := fun l hl howner => by
    obtain ⟨j, hj, ho, hname⟩ := h.rowOwner l hl howner
    exact ⟨j, List.mem_cons_of_mem _ hj, ho, hname⟩
  listed := fun r hr n hn => known_append (h.listed r hr n hn)
  marked := fun now expired hr n hn =>
    finished_append (h.marked now expired hr n hn) (h.listed _ hr n hn) hfresh
  settles := fun s hs l hl howner n hn => by
    refine (h.settles s hs l hl howner n hn).imp_right fun hfin => ?_
    obtain ⟨m, hm, hname⟩ := h.rows l hl
    obtain rfl := jobLease_inj (hn.symm.trans hname)
    exact finished_append hfin hm hfresh
  settled := fun s hs j hj howner => by
    rcases List.mem_cons.mp hj with rfl | hj
    · exact absurd howner.symm (hsettles s hs)
    · exact h.settled s hs j hj howner

/-- **The recoveries go on.** -/
theorem Held.recoveries (h : Held w) {recoveries : List Recovery}
    (hlisted : ∀ r ∈ recoveries, ∀ n, jobLease n ∈ names r → Known w.events n)
    (hmarked : ∀ now expired, .marked now expired ∈ recoveries → ∀ n, jobLease n ∈ expired →
      Finished w.events n) : Held { w with recoveries } :=
  ⟨h.rows, h.jobs, h.leased, h.closed, h.owners, h.rowOwner, hlisted, hmarked, h.settles, h.settled⟩

/-- **The supervisors go on.** -/
theorem Held.settling (h : Held w) {settles : List Settle}
    (hsettles : ∀ s ∈ settles, ∀ l ∈ w.table, l.owner = s.owner.name → ∀ n, l.name = jobLease n →
      l.name ∈ s.waiting ∨ Finished w.events n)
    (hsettled : ∀ s ∈ settles, ∀ j ∈ w.jobs, j.owner = s.owner → j.stage.begins = false) :
    Held { w with settles } :=
  ⟨h.rows, h.jobs, h.leased, h.closed, h.owners, h.rowOwner, h.listed, h.marked, hsettles, hsettled⟩

/-- The rows that a delete leaves, where it takes those of closed events. -/
theorem Held.delete (h : Held w) {p : Lease → Bool}
    (hp : ∀ l ∈ w.table, p l = true → ∀ n, l.name = jobLease n → Finished w.events n) :
    Held { w with table := Rows.delete p w.table } := by
  refine h.leases (fun l hl => .inl ⟨l, (Rows.mem_delete.mp hl).1, rfl, rfl⟩) ?_
  rintro n ⟨l, hl, hname⟩
  by_cases hpl : p l = true
  · exact .inr (hp l hl hpl n hname)
  · exact .inl ⟨l, Rows.mem_delete.mpr ⟨hl, by rwa [Bool.not_eq_true] at hpl⟩, hname⟩

/-- An update of rows under their names. -/
theorem hasLease_update {p : Lease → Bool} {f : Lease → Lease} (hf : ∀ l, (f l).name = l.name)
    (h : HasLease table n) : HasLease (Rows.update p f table) n := by
  obtain ⟨l, hl, hname⟩ := h
  have hmem : jobLease n ∈ (Rows.update p f table).map Lease.name := by
    rw [Rows.map_update _ fun l _ _ => hf l]
    exact hname ▸ List.mem_map_of_mem hl
  exact List.mem_map.mp hmem

variable {now : Time}

theorem mem_getOrCreate {name : String} {l : Lease}
    (h : l ∈ Leases.getOrCreate name now table) : l ∈ table ∨ l = ⟨name, "", now, now⟩ := by
  unfold Leases.getOrCreate at h
  split at h
  · exact .inl h
  · rcases List.mem_append.mp h with h | h
    · exact .inl h
    · exact .inr (List.mem_singleton.mp h)

theorem hasLease_getOrCreate {name : String} (h : HasLease table n) :
    HasLease (Leases.getOrCreate name now table) n := by
  obtain ⟨l, hl, hname⟩ := h
  unfold Leases.getOrCreate
  split
  · exact ⟨l, hl, hname⟩
  · exact ⟨l, List.mem_append_left _ hl, hname⟩

theorem getOrCreate_hasLease (now : Time) :
    HasLease (Leases.getOrCreate (jobLease n) now table) n := by
  unfold Leases.getOrCreate
  split
  · rename_i hany
    obtain ⟨l, hl, hname⟩ := List.any_eq_true.mp hany
    exact ⟨l, hl, beq_iff_eq.mp hname⟩
  · exact ⟨_, List.mem_append_right _ (List.mem_singleton_self _), rfl⟩

section

variable (h : Held w)

include h

/-- The row is made, or is there. -/
theorem Held.create (hj : j ∈ w.jobs) :
    Held { w with table := Leases.getOrCreate (jobLease j.eventId) now w.table } := by
  refine h.leases (fun l hl => ?_) fun n hn => .inl (hasLease_getOrCreate hn)
  rcases mem_getOrCreate hl with hl | rfl
  · exact .inl ⟨l, hl, rfl, rfl⟩
  · exact .inr ⟨j, hj, rfl, .inl rfl⟩

/-- The row is given to the job that begins. -/
theorem Held.take (hj : j ∈ w.jobs) (hbegins : j.stage.begins = true) :
    Held { w with
      table := (Leases.take (jobLease j.eventId) j.owner.name leaseSeconds now w.table).2 } := by
  refine h.leases (fun l hl => ?_) fun n hn => .inl (hasLease_update (fun _ => rfl) hn)
  rcases Rows.mem_update.mp hl with ⟨old, hold, hp, rfl⟩ | ⟨hl, -⟩
  · exact .inr ⟨j, hj, Leases.mayTake_name old hp, .inr ⟨rfl, hbegins⟩⟩
  · exact .inl ⟨l, hl, rfl, rfl⟩

theorem Held.beat {name owner : String} :
    Held { w with table := (Leases.renew name owner leaseSeconds now w.table).2 } := by
  refine h.leases (fun l hl => ?_) fun n hn => .inl (hasLease_update (fun _ => rfl) hn)
  rcases Rows.mem_update.mp hl with ⟨old, hold, -, rfl⟩ | ⟨hl, -⟩
  · exact .inl ⟨old, hold, rfl, rfl⟩
  · exact .inl ⟨l, hl, rfl, rfl⟩

theorem Held.adopt (hj : j ∈ w.jobs) : Held { w with jobs := j :: w.jobs } := by
  have hmem : ∀ k ∈ j :: w.jobs, k ∈ w.jobs := fun k hk => by
    rcases List.mem_cons.mp hk with rfl | hk
    · exact hj
    · exact hk
  refine ⟨h.rows, fun k hk => h.jobs k (hmem k hk), fun e he hopen => ?_,
    fun k hk => h.closed k (hmem k hk), fun k hk i hi => h.owners k (hmem k hk) i (hmem i hi),
    fun l hl howner => ?_, h.listed, h.marked, h.settles, fun s hs k hk => h.settled s hs k (hmem k hk)⟩
  · rcases h.leased e he hopen with hlease | ⟨k, hk, hrest⟩
    · exact .inl hlease
    · exact .inr ⟨k, List.mem_cons_of_mem _ hk, hrest⟩
  · obtain ⟨k, hk, hrest⟩ := h.rowOwner l hl howner
    exact ⟨k, List.mem_cons_of_mem _ hk, hrest⟩

/-- An event is closed. -/
theorem Held.close (n : Nat) (hs : status = .succeeded ∨ status = .failed) {moment : DateTime} :
    Held { w with events := Audit.close n status data errorCode detail moment w.events } :=
  h.update (f := Audit.closed status data errorCode detail moment) (fun _ => rfl) (closed_finished hs)

/-- **Every kept step of a process.** -/
theorem Held.job (hj : j ∈ w.jobs) {m : Move} (hstep : jobStep w j m = some w')
    (hkept : kept w (.job j m) = true) : Held w' := by
  rcases j with ⟨eventId, owner, stage⟩
  cases m with
  | acquire =>
    cases stage <;> try cases hstep
    exact h.put hj (fun _ => .inl rfl) (by simp) fun _ => rfl
  | create =>
    cases stage <;> try cases hstep
    exact (h.create hj).put hj (fun _ => .inr (getOrCreate_hasLease _)) (by simp) fun _ => rfl
  | take =>
    cases stage <;> try cases hstep
    exact (h.take hj rfl).put hj nofun (by simp) nofun
  | beat now =>
    cases stage <;> try cases hstep
    exact h.beat
  | adopt =>
    cases stage <;> try cases hstep
    exact h.adopt hj
  | leave | launchFails =>
    cases stage <;> try cases hstep
    exact h.put hj nofun (by simp) nofun
  | close c moment =>
    cases stage <;> try cases hstep
    cases c with
    | succeed data =>
      have hclosed : Held { w with
          events := Audit.close eventId .succeeded (some data) "" "" moment w.events } :=
        h.close eventId (.inl rfl)
      exact hclosed.put hj nofun (fun _ => finished_close (.inl rfl)) nofun
    | fail errorCode data detail =>
      have hclosed : Held { w with
          events := Audit.close eventId .failed (some data) errorCode detail moment w.events } :=
        h.close eventId (.inr rfl)
      exact hclosed.put hj nofun (fun _ => finished_close (.inr rfl)) nofun
  | drop =>
    cases stage <;> try cases hstep
    have hfin : Finished w.events eventId := closedAt_iff.mp hkept
    refine (h.delete fun l _ hp n hname => ?_).put hj nofun (fun _ => hfin) nofun
    obtain rfl := jobLease_inj (hname.symm.trans (Leases.heldBy_name l hp))
    exact hfin
  | fails =>
    cases stage with
    | closing tracked =>
      cases tracked <;> cases hstep <;> exact h.put hj nofun (by simp) nofun
    | created _ | dropping _ =>
      cases hstep
      exact h.put hj nofun (by simp) nofun
    | acquiring now => cases hkept
    | recorded => cases hstep
    | working => cases hstep
    | «over» closed => cases hstep
  | kill =>
    cases stage with
    | recorded => cases hkept
    | acquiring now => cases hkept
    | «over» closed => cases hstep
    | _ =>
      cases hstep
      exact h.put hj nofun (by simp) nofun

theorem Held.list : ∀ n, jobLease n ∈ listExpired now w.table → Known w.events n := by
  intro n hn
  obtain ⟨-, l, hl, hname⟩ := mem_listExpired hn
  obtain ⟨m, hm, hrow⟩ := h.rows l hl
  rwa [jobLease_inj (hname.symm.trans hrow)]

/-- The events of what was listed are marked. -/
theorem Held.mark {expired : List String} {moment : DateTime}
    (hr : .listed now expired ∈ w.recoveries) :
    Held { w with
      events := Audit.interrupt none [] (some (eventsOf expired)) moment w.events
      recoveries := .marked now expired :: w.recoveries.erase (.listed now expired) } := by
  have hclosed : Held { w with
      events := Audit.interrupt none [] (some (eventsOf expired)) moment w.events } :=
    h.update (f := Audit.stopped moment) (fun _ => rfl) fun _ => rfl
  refine hclosed.recoveries (fun r hmem n hn => ?_) fun now' expired' hmem n hn => ?_
  · rcases List.mem_cons.mp hmem with rfl | hmem
    · exact hclosed.listed _ hr n hn
    · exact hclosed.listed r (List.mem_of_mem_erase hmem) n hn
  · rcases List.mem_cons.mp hmem with hmem | hmem
    · obtain ⟨-, rfl⟩ := Recovery.marked.inj hmem
      exact finished_interrupt hn
    · exact hclosed.marked now' expired' (List.mem_of_mem_erase hmem) n hn

/-- A supervisor of a process that ended with status 0 finds no lease of an open event. -/
theorem Held.settle_zero {owner : Owner}
    (hclean : w.jobs.any (fun j => j.owner = owner && j.stage = .over true) = true) {l : Lease}
    (hl : l ∈ w.table) (howner : l.owner = owner.name) (hname : l.name = jobLease n) :
    Finished w.events n := by
  obtain ⟨j, hj, hjo⟩ := List.any_eq_true.mp hclean
  obtain ⟨hjo, hstage⟩ := Bool.and_eq_true_iff.mp hjo
  obtain ⟨k, hk, hko, hkname⟩ := h.rowOwner l hl (howner ▸ owner.named)
  have hsame : k.owner = j.owner :=
    (Owner.ext (hko.symm.trans howner)).trans (of_decide_eq_true hjo).symm
  have hn : n = j.eventId := (jobLease_inj (hname.symm.trans hkname)).trans (h.owners k hk j hj hsame)
  exact hn ▸ h.closed j hj (.inr (of_decide_eq_true hstage))

/-- **A supervisor begins to settle.** -/
theorem Held.settle {owner : Owner} {returncode : Int} {detail : String}
    (hended : w.ended owner returncode = true) :
    Held { w with settles :=
      ⟨owner, returncode, detail, if returncode = 0 then [] else heldNames owner.name w.table⟩ ::
        w.settles } := by
  obtain ⟨hall, hclean⟩ := Bool.and_eq_true_iff.mp hended
  refine h.settling (fun s hs l hl howner n hname => ?_) fun s hs j hj howner => ?_
  · rcases List.mem_cons.mp hs with rfl | hs
    · by_cases hzero : returncode = 0
      · simp only [hzero, ne_eq, not_true_eq_false, decide_false, Bool.false_or] at hclean
        exact .inr (h.settle_zero hclean hl howner hname)
      · left
        show l.name ∈ if returncode = 0 then [] else heldNames owner.name w.table
        rw [if_neg hzero]
        refine List.mem_map_of_mem (List.mem_filter.mpr ⟨hl, Bool.and_eq_true_iff.mpr ⟨?_, ?_⟩⟩)
        · exact beq_iff_eq.mpr howner
        · rw [hname, isJobLease, jobLease_toList]
          exact List.isPrefixOf_iff_prefix.mpr (List.prefix_append _ _)
    · exact h.settles s hs l hl howner n hname
  · rcases List.mem_cons.mp hs with rfl | hs
    · have hj := List.all_eq_true.mp hall j hj
      rw [Bool.or_eq_true, decide_eq_true_eq, Bool.not_eq_true'] at hj
      exact hj.resolve_left fun hne => hne howner
    · exact h.settled s hs j hj howner

/-- The event of a name that `settle` found is closed. -/
theorem Held.explain (name : String) {reason detail : String} {moment : DateTime} :
    Held { w with events := failNamed name reason detail moment w.events } ∧
      ∀ n, name = jobLease n → Finished (failNamed name reason detail moment w.events) n := by
  unfold failNamed
  cases hevent : eventOf name with
  | none =>
    refine ⟨h, fun n hn => ?_⟩
    rw [hn, eventOf_jobLease] at hevent
    cases hevent
  | some eventId =>
    refine ⟨h.close eventId (.inr rfl), fun n hn => ?_⟩
    rw [hn, eventOf_jobLease, Option.some.injEq] at hevent
    exact hevent ▸ finished_close (.inr rfl)

/-- **A supervisor closes an event.** -/
theorem Held.settleFail {s : Settle} (hs : s ∈ w.settles) {name : String}
    {waiting : List String} (hw : s.waiting = name :: waiting) {reason detail : String}
    {moment : DateTime} :
    Held { w with
      events := failNamed name reason detail moment w.events
      settles := { s with waiting } :: w.settles.erase s } := by
  obtain ⟨hclosed, hfin⟩ := @Held.explain w h name reason detail moment
  refine hclosed.settling (fun s' hs' l hl howner n hname => ?_) fun s' hs' j hj howner => ?_
  · rcases List.mem_cons.mp hs' with rfl | hs'
    · rcases hclosed.settles s hs l hl howner n hname with hwait | hdone
      · rw [hw] at hwait
        rcases List.mem_cons.mp hwait with hhead | hrest
        · exact .inr (hfin n (hhead.symm.trans hname))
        · exact .inl hrest
      · exact .inr hdone
    · exact hclosed.settles s' (List.mem_of_mem_erase hs') l hl howner n hname
  · rcases List.mem_cons.mp hs' with rfl | hs'
    · exact h.settled s hs j hj howner
    · exact h.settled s' (List.mem_of_mem_erase hs') j hj howner

end

/-- **Every kept step.** -/
theorem step_held {a : Action} (hstep : step w a = some w') (hkept : kept w a = true) (h : Held w) :
    Held w' := by
  cases a with
  | tick passed =>
    cases hstep
    exact { h with }
  | record eventId owner r now createdAt =>
    obtain ⟨hguard, hw⟩ := Option.ite_none_left_eq_some.mp hstep
    cases hw
    rw [Bool.or_eq_true, Bool.or_eq_true, not_or, not_or] at hguard
    obtain ⟨⟨hevents, hjobs⟩, hsettles⟩ := hguard
    refine h.record (e := Audit.recorded eventId { r with status := .running } now createdAt) ?_ ?_ ?_
    · rintro ⟨e, he, hpk⟩
      exact hevents (List.any_eq_true.mpr ⟨e, he, decide_eq_true hpk⟩)
    · exact fun j hj ho => hjobs (List.any_eq_true.mpr ⟨j, hj, decide_eq_true ho⟩)
    · exact fun s hs ho => hsettles (List.any_eq_true.mpr ⟨s, hs, decide_eq_true ho⟩)
  | job j m =>
    obtain ⟨hj, hstep⟩ := Option.ite_none_right_eq_some.mp hstep
    exact h.job hj hstep hkept
  | recover =>
    cases hstep
    refine h.recoveries (fun r hr n hn => ?_) fun now expired hr => ?_
    · rcases List.mem_cons.mp hr with rfl | hr
      · exact (List.not_mem_nil hn).elim
      · exact h.listed r hr n hn
    · rcases List.mem_cons.mp hr with hr | hr
      · cases hr
      · exact h.marked now expired hr
  | list r =>
    cases r with
    | begun now =>
      obtain ⟨-, ⟨⟩⟩ := Option.ite_none_right_eq_some.mp hstep
      have hmem : ∀ r ∈ (if (listExpired now w.table).isEmpty then w.recoveries.erase (.begun now)
          else .listed now (listExpired now w.table) :: w.recoveries.erase (.begun now)),
          r = .listed now (listExpired now w.table) ∨ r ∈ w.recoveries := fun r hr => by
        split at hr
        · exact .inr (List.mem_of_mem_erase hr)
        · rcases List.mem_cons.mp hr with hr | hr
          · exact .inl hr
          · exact .inr (List.mem_of_mem_erase hr)
      refine h.recoveries (fun r hr n hn => ?_) fun now' expired hr => ?_
      · rcases hmem r hr with rfl | hr
        · exact h.list n hn
        · exact h.listed r hr n hn
      · rcases hmem _ hr with hr | hr
        · cases hr
        · exact h.marked now' expired hr
    | listed now expired => cases hstep
    | marked now expired => cases hstep
  | mark r moment =>
    cases r with
    | begun now => cases hstep
    | listed now expired =>
      obtain ⟨hr, hstep⟩ := Option.ite_none_right_eq_some.mp hstep
      cases hstep
      exact h.mark hr
    | marked now expired => cases hstep
  | clear r =>
    cases r with
    | begun now => cases hstep
    | listed now expired => cases hstep
    | marked now expired =>
      obtain ⟨hr, hstep⟩ := Option.ite_none_right_eq_some.mp hstep
      cases hstep
      refine (h.delete fun l _ hp n hname => ?_).recoveries
        (fun r hmem => h.listed r (List.mem_of_mem_erase hmem))
        fun now' expired' hmem => h.marked now' expired' (List.mem_of_mem_erase hmem)
      have hnames := List.contains_iff_mem.mp (Bool.and_eq_true_iff.mp hp).1
      exact h.marked now expired hr n (hname ▸ hnames)
  | settle owner returncode detail =>
    obtain ⟨hended, hstep⟩ := Option.ite_none_right_eq_some.mp hstep
    cases hstep
    exact h.settle hended
  | settleFail s moment =>
    obtain ⟨hs, hstep⟩ := Option.ite_none_right_eq_some.mp hstep
    split at hstep
    · cases hstep
    · rename_i name waiting hw
      cases hstep
      exact h.settleFail hs hw
  | settleDelete s =>
    obtain ⟨⟨hs, hnone⟩, hstep⟩ := Option.ite_none_right_eq_some.mp hstep
    cases hstep
    have hkeep := h.delete (p := fun l => l.owner == s.owner.name && isJobLease l.name)
      fun l hl hp n hname => by
        have howner : l.owner = s.owner.name := beq_iff_eq.mp (Bool.and_eq_true_iff.mp hp).1
        refine (h.settles s hs l hl howner n hname).resolve_left fun hwait => ?_
        rw [hnone] at hwait
        exact List.not_mem_nil hwait
    exact hkeep.settling (fun s' hs' => hkeep.settles s' (List.mem_of_mem_erase hs'))
      fun s' hs' => hkeep.settled s' (List.mem_of_mem_erase hs')

/-! ## 5. No job stays unfinished -/

/-- A process works on the event, or its lease is there, and a recovery after its end marks it
    interrupted. -/
def Remembered (w : World) (e : AuditEvent) : Prop :=
  (∃ j ∈ w.jobs, j.eventId = e.pk ∧ j.works = true) ∨
    ∃ l ∈ w.table, l.name = jobLease e.pk ∧ ∀ now moment, l.expiresAt ≤ now →
      ∃ d ∈ Audit.interrupt none [] (some (eventsOf (listExpired now w.table))) moment w.events,
        d.pk = e.pk ∧ d.status = AuditStatus.failed.value ∧ d.errorCode = Audit.interrupted

/-- **A recovery finds the lease** when it has run out. -/
theorem lease_marks {e : AuditEvent} {l : Lease} (he : e ∈ events)
    (hopen : e.isUnfinished = true) (hl : l ∈ table) (hname : l.name = jobLease e.pk)
    (hlate : l.expiresAt ≤ now) (moment : DateTime) :
    Audit.stopped moment e ∈
      Audit.interrupt none [] (some (eventsOf (listExpired now table))) moment events := by
  have hjob : isJobLease l.name = true := by
    rw [hname, isJobLease, jobLease_toList]
    exact List.isPrefixOf_iff_prefix.mpr (List.prefix_append _ _)
  have hlisted : jobLease e.pk ∈ listExpired now table :=
    List.mem_map.mpr ⟨l, List.mem_filter.mpr ⟨hl, by rw [hjob, decide_eq_true hlate]; rfl⟩, hname⟩
  have hfound : Audit.interruptible none [] (some (eventsOf (listExpired now table))) e = true := by
    by_contra hnot
    rw [Bool.not_eq_true] at hnot
    have hmem : e ∈ Audit.interrupt none [] (some (eventsOf (listExpired now table))) moment events :=
      Rows.mem_update.mpr (.inr ⟨he, hnot⟩)
    exact Bool.noConfusion ((finished_interrupt hlisted e hmem rfl).symm.trans hopen)
  exact Rows.mem_update.mpr (.inl ⟨e, he, hfound, rfl⟩)

/-- **No job stays unfinished for ever**: in every run whose steps are kept, an event that is not
    finished is worked on, or a recovery after the end of its lease marks it interrupted. -/
theorem none_forgotten {clock : Time} {as : List Action}
    (hrun : run step (World.start clock) as = some w)
    (hkept : Along step (fun w a => kept w a = true) (World.start clock) as) :
    ∀ e ∈ w.events, e.isUnfinished = true → Remembered w e := by
  have h : Held w :=
    run_invariant_along (fun _ _ _ hstep hk hs => step_held hstep hk hs) hrun hkept (held_start clock)
  intro e he hopen
  rcases h.leased e he hopen with ⟨l, hl, hname⟩ | ⟨j, hj, hpk, hstage⟩
  · exact .inr ⟨l, hl, hname, fun now moment hlate =>
      ⟨_, lease_marks he hopen hl hname hlate moment, rfl, rfl, rfl⟩⟩
  · refine .inl ⟨j, hj, hpk, ?_⟩
    cases hs : j.stage <;> simp_all [Stage.unleased, JobRun.works]

def worker : Owner := Jobs.worker

def begin : Action := .record 7 worker { action := "backup.create" } Audit.noon Audit.noon

def does (stage : Stage) (m : Move) : Action := .job ⟨7, worker, stage⟩ m

/-- A job whose process is killed at its work, and the supervisor whose update of the event fails. -/
def killedAtWork : List Action :=
  [begin, does .recorded .acquire, does (.acquiring 0) .create, does (.created 0) .take,
    does .working .adopt, does .working .kill, .settle worker (-9) ""]

theorem none_forgotten_killed : ∃ w, run step (World.start 0) killedAtWork = some w ∧
    w.settles.length = 1 ∧ ∀ e ∈ w.events, e.isUnfinished = true → Remembered w e := by
  obtain ⟨w, hw⟩ : ∃ w, run step (World.start 0) killedAtWork = some w := ⟨_, rfl⟩
  have hsettles : (run step (World.start 0) killedAtWork).map (fun w => w.settles.length) = some 1 := by
    decide +kernel
  rw [hw, Option.map_some, Option.some.injEq] at hsettles
  exact ⟨w, hw, hsettles, none_forgotten hw (by decide +kernel)⟩

/-- The process is killed between the event and its lease. -/
def killedBeforeLease : List Action := [begin, does .recorded .kill]

/-- The update that closes the event fails, and `close` drops the lease behind it. -/
def closedInVain : List Action :=
  [begin, does .recorded .acquire, does (.acquiring 0) .create, does (.created 0) .take,
    does .working .leave, does (.closing true) .fails, does (.dropping false) .drop]

theorem forgotten :
    (∃ w, run step (World.start 0) killedBeforeLease = some w ∧
      ∃ e ∈ w.events, e.isUnfinished = true ∧ ¬ Remembered w e) ∧
    ∃ w, run step (World.start 0) closedInVain = some w ∧
      ∃ e ∈ w.events, e.isUnfinished = true ∧ ¬ Remembered w e := by
  constructor
  · refine ⟨_, rfl, _, List.mem_cons_self, rfl, ?_⟩
    rintro (⟨j, hj, -, hworks⟩ | ⟨l, hl, -⟩)
    · obtain rfl := List.mem_singleton.mp hj
      cases hworks
    · exact List.not_mem_nil hl
  · refine ⟨_, rfl, _, List.mem_cons_self, rfl, ?_⟩
    rintro (⟨j, hj, -, hworks⟩ | ⟨l, hl, -⟩)
    · obtain rfl := List.mem_singleton.mp hj
      cases hworks
    · exact List.not_mem_nil hl

end Dbs.Supervision

/-
  File:      Dbs/Interrupts.lean
  Subject:   THE MANAGER'S INTERRUPTS (activity_service.py, job_leases.py, processes.py): a process that
             starts, and an hourly sweep, fail the events of jobs whose process is gone.

  Any number of processes, jobs and interrupts, one statement or look at the clock of one of them at a
  time. A process dies whenever it likes; of the processes of its own host each sees which ones run.

  * `activityOf`, `abandoned` -- what is read from a lease's name and owner;
  * `live`, `renewedSince`, `Event.idle` -- which events are kept, and which are looked for;
  * `step` -- `queue`, `start`, `succeed` and `fail` of jobs, and `interrupt`, call by call;
  * `Steady` -- the bound of a job's heartbeats; a job is `late` when it once went past it;
  * `World.Kept` -- no event of a job that its process has queued or runs, and is not late, is marked;
  * `Undisturbed` -- every such job whose event is looked for held its lease when the leases were read;
  * `live_spared` -- then none is marked; `queued_marked`, a job between two steps, is otherwise.
-/
import Dbs.Leases
import Dbs.Audit.Events

namespace Dbs.Interrupts

open Runs

/-! ## 1. Names -/

structure Process where
  host : String
  pid : Nat
deriving DecidableEq

/-- `process_owner` -/
def Process.owner (p : Process) : String := p.host ++ ":" ++ toString p.pid

/-- `PREFIX` -/
def leasePrefix : String := "dbs.manager.job:"

def leaseName (activityId : Nat) : String := leasePrefix ++ toString activityId

def isDigits (text : List Char) : Bool := !text.isEmpty && text.all Char.isDigit

/-- `int(lease.name.removeprefix(PREFIX))` of the leases with the prefix. -/
def activityOf (name : String) : Option Nat :=
  if leasePrefix.toList.isPrefixOf name.toList then
    let digits := name.toList.drop leasePrefix.length
    if isDigits digits then some (Nat.ofDigitChars 10 digits 0) else none
  else none

/-- `str.rpartition`, what stands before and behind the last separator. -/
def rpartition (separator : Char) (text : List Char) : List Char × List Char :=
  ((text.reverse.dropWhile (· ≠ separator)).tail.reverse,
    (text.reverse.takeWhile (· ≠ separator)).reverse)

/-- Whether an owner is a process of the observer's host, and not the observer, that does not run. -/
def abandoned (alive : List Process) (observer : Process) (owner : String) : Bool :=
  let (host, pid) := rpartition ':' owner.toList
  if host ≠ observer.host.toList ∨ isDigits pid = false then false
  else
    let pid := Nat.ofDigitChars 10 pid 0
    pid ≠ observer.pid && !alive.contains ⟨observer.host, pid⟩

theorem isDigits_toString (n : Nat) : isDigits (toString n).toList = true := by
  rw [show (toString n).toList = Nat.toDigits 10 n from Nat.toList_repr, isDigits,
    List.isEmpty_eq_false_iff.mpr Nat.toDigits_ne_nil]
  exact List.all_eq_true.mpr fun c hc => Json.digits_isDigit hc

theorem ofDigitChars_toString (n : Nat) : Nat.ofDigitChars 10 (toString n).toList 0 = n := by
  rw [show (toString n).toList = Nat.toDigits 10 n from Nat.toList_repr]
  exact Nat.ofDigitChars_ten_toDigits

theorem activityOf_leaseName (n : Nat) : activityOf (leaseName n) = some n := by
  have hlist : (leaseName n).toList = leasePrefix.toList ++ (toString n).toList := String.toList_append
  have hdrop : (leaseName n).toList.drop leasePrefix.length = (toString n).toList := by
    rw [hlist]
    exact List.drop_left' rfl
  have hprefix : leasePrefix.toList.isPrefixOf (leaseName n).toList = true := by
    rw [hlist]
    exact List.isPrefixOf_iff_prefix.mpr (List.prefix_append _ _)
  rw [activityOf, if_pos hprefix, hdrop]
  exact (if_pos (isDigits_toString n)).trans (congrArg some (ofDigitChars_toString n))

theorem leaseName_inj {n m : Nat} (h : leaseName n = leaseName m) : n = m := by
  have hsame := congrArg activityOf h
  rw [activityOf_leaseName, activityOf_leaseName] at hsame
  exact Option.some.inj hsame

theorem rpartition_append {separator : Char} {before behind : List Char} (h : separator ∉ behind) :
    rpartition separator (before ++ separator :: behind) = (before, behind) := by
  have hback : (before ++ separator :: behind).reverse = behind.reverse ++
    separator :: before.reverse := by
    rw [List.reverse_append, List.reverse_cons, List.append_assoc]
    rfl
  have hall : ∀ c ∈ behind.reverse, decide (c ≠ separator) = true := fun c hc =>
    decide_eq_true fun heq => h (heq ▸ List.mem_reverse.mp hc)
  rw [rpartition, hback, List.dropWhile_append_of_pos hall, List.takeWhile_append_of_pos hall]
  simp

/-- **A process that runs is not taken for one that does not**, by anybody. -/
theorem abandoned_of_alive {alive : List Process} {observer p : Process} (h : p ∈ alive) :
    abandoned alive observer p.owner = false := by
  have hcolon : ':' ∉ (toString p.pid).toList := by
    rw [show (toString p.pid).toList = Nat.toDigits 10 p.pid from Nat.toList_repr]
    exact fun hmem => absurd (Json.digits_isDigit hmem) (by decide)
  have hlist : p.owner.toList = p.host.toList ++ ':' :: (toString p.pid).toList := by
    rw [Process.owner, String.toList_append, String.toList_append, List.append_assoc]
    rfl
  rw [abandoned, hlist, rpartition_append hcolon]
  by_cases hother : p.host.toList ≠ observer.host.toList ∨ isDigits (toString p.pid).toList = false
  · exact if_pos hother
  · have hhost : p.host = observer.host := String.toList_inj.mp (not_not.mp (not_or.mp hother).1)
    have hruns : alive.contains ⟨observer.host, p.pid⟩ = true := by
      rw [← hhost]
      exact List.contains_iff_mem.mpr h
    simp only [if_neg hother, ofDigitChars_toString, hruns, Bool.not_true, Bool.and_false]

theorem owner_ne_empty (p : Process) : p.owner ≠ "" := by
  intro h
  have hlist := congrArg String.toList h
  rw [Process.owner, String.toList_append, String.toList_append] at hlist
  exact absurd hlist (by simp)

/-! ## 2. Events and leases -/

/-- `BACKUP_TASK_TIME_LIMIT`, in seconds. -/
def timeLimit : Int := 25 * 60 * 60

/-- `STALE_AFTER_LIMIT` -/
def staleAfterLimit : Time := seconds 3600

/-- What the interrupts read of an event. -/
structure Event where
  pk : Nat
  status : AuditStatus
  createdAt : Time
  startedAt : Option Time

/-- `status__in=UNFINISHED` -/
def Event.unfinished (e : Event) : Bool := e.status == .queued || e.status == .running

/-- Whether `audit.interrupt` looks for the event, but for those it keeps. -/
def Event.idle (since : Option Time) (e : Event) : Bool :=
  (e.status == .queued && since.all (e.createdAt < ·)) ||
    (e.status == .running && since.all fun moment => e.startedAt.any (· < moment))

/-- The leases that stand, and whose owners are not known to be gone. -/
def live (alive : List Process) (observer : Process) (now : Time) (table : List Lease) : List Nat :=
  (table.filter fun l => decide (now < l.expiresAt) && l.owner != "" &&
    !abandoned alive observer l.owner).filterMap
    fun l => activityOf l.name

def renewedSince (alive : List Process) (observer : Process) (moment now : Time) (table : List Lease) :
    List Nat :=
  live alive observer now (table.filter fun l => moment < l.renewedAt)

/-! ## 3. Jobs and interrupts -/

/-- Where a job is. -/
inductive Stage
  | queued
  /-- Its event runs; in front of the look at the clock of `hold`. -/
  | starting
  /-- In front of the statements of `leases.acquire`. -/
  | holding (now : Time)
  | running
  /-- Its event is closed; in front of `let_go`. -/
  | closed
deriving DecidableEq

/-- A job of a process that runs. `leased`: when it last took its lease; `late`: whether its heartbeats
    were once out of their bound. -/
structure Job where
  process : Process
  stage : Stage
  started : Option Time := none
  leased : Option Time := none
  late : Bool := false

/-- The bound of the heartbeats: the lease has not run out, and of a job older than a lease and an hour
    it was taken within the hour. -/
def Steady (clock started leased : Time) : Prop :=
  clock < leased + seconds timeLimit ∧
    (clock ≤ started + seconds timeLimit + staleAfterLimit ∨ clock < leased + staleAfterLimit)

instance (clock started leased : Time) : Decidable (Steady clock started leased) :=
  inferInstanceAs (Decidable (_ ∧ _))

/-- A job at a moment: late from here on, where it holds its lease and is out of the bound. -/
def Job.at (clock : Time) (job : Job) : Job :=
  { job with late := job.late || job.leased.any fun leased => job.started.any fun started =>
      !decide (Steady clock started leased) }

/-- A call of `interrupt`. `sweep`: the moment of `sweep_stale_jobs`, if it comes from there; `holding`:
    the jobs that held their lease when the leases were read. -/
inductive Interrupt
  | begun (observer : Process) (sweep : Option Time)
  | listed (sweep : Option Time) (keep holding : List Nat)

/-- `idle_since` -/
def idleSince (sweep : Option Time) : Option Time :=
  sweep.map fun now => now - seconds timeLimit - staleAfterLimit

/-- An event that was marked, and whether its job was live. -/
structure Mark where
  pk : Nat
  live : Bool
deriving DecidableEq

/-- The tables and the processes. -/
structure World where
  clock : Time
  alive : List Process
  events : List Event
  leases : List Lease
  jobs : Nat → Option Job
  interrupts : List Interrupt
  marks : List Mark

def World.start (clock : Time) : World := ⟨clock, [], [], [], fun _ => none, [], []⟩

inductive Action
  | spawn (p : Process)
  | die (p : Process)
  /-- A process queues a job for itself. -/
  | queue (p : Process)
  /-- What the job of an event does next. -/
  | next (pk : Nat)
  /-- A job takes its lease again. -/
  | beat (pk : Nat)
  /-- `succeed` or `fail` -/
  | close (pk : Nat) (succeeded : Bool)
  /-- A job ends without closing its event. -/
  | raise (pk : Nat)
  | interrupt (p : Process) (sweep : Bool)
  /-- What a call of `interrupt` does next. -/
  | nextInterrupt (i : Nat)
  | tick (microseconds : Nat)

namespace World

variable (w : World) (pk : Nat) (job : Job) (i : Nat)

def put : World := { w with jobs := Function.update w.jobs pk (some job) }

def gone : World := { w with jobs := Function.update w.jobs pk none }

/-- `filter(pk=event_id, status__in=UNFINISHED).update(…)` -/
def updated (change : Event → Event) : List Event :=
  Rows.update (fun e => e.pk == pk && e.unfinished) change w.events

def queued (p : Process) : World :=
  { w with
    events := w.events ++ [⟨w.events.length, .queued, w.clock, none⟩]
    jobs := Function.update w.jobs w.events.length (some { process := p, stage := .queued }) }

/-- `audit.start`; a job whose event is finished returns. -/
def begun : World :=
  if w.events.any fun e => e.pk == pk && e.unfinished then
    { w.put pk { job with stage := .starting, started := some w.clock } with
      events := w.updated pk fun e => { e with status := .running, startedAt := some w.clock } }
  else w.gone pk

/-- `leases.acquire`, whose answer `hold` does not look at. -/
def held (now : Time) : World :=
  let (taken, leases) := Leases.acquire (leaseName pk) job.process.owner timeLimit now w.leases
  { w.put pk (Job.at w.clock { job with
      stage := .running
      leased := if taken then some now else job.leased }) with leases }

def closed (succeeded : Bool) : World :=
  { w.put pk { job with stage := .closed } with
    events := w.updated pk fun e => { e with status := if succeeded then .succeeded else .failed } }

def letGo : World :=
  { w.gone pk with leases := Rows.delete (fun l => l.name == leaseName pk) w.leases }

def nextOf : Option World :=
  match job.stage with
  | .queued => some (w.begun pk job)
  | .starting => some (w.put pk { job with stage := .holding w.clock })
  | .holding now => some (w.held pk job now)
  | .running => none
  | .closed => some (w.letGo pk)

/-- The jobs that hold their lease. -/
def holding : List Nat :=
  (List.range w.events.length).filter fun pk => (w.jobs pk).any (·.leased.isSome)

def keep (observer : Process) : Option Time → List Nat
  | none => live w.alive observer w.clock w.leases
  | some now => renewedSince w.alive observer (now - staleAfterLimit) w.clock w.leases

/-- Whether the event is one of a job that its process has queued or runs, and that is not late. -/
def isLive : Bool := (w.jobs pk).any fun job => !job.late

/-- `audit.interrupt` -/
def marked (sweep : Option Time) (keep : List Nat) : World :=
  let lost := fun e : Event => e.idle (idleSince sweep) && !keep.contains e.pk
  { w with
    events := Rows.update lost (fun e => { e with status := .failed }) w.events
    interrupts := w.interrupts.eraseIdx i
    marks := (w.events.filter lost).map (fun e => ⟨e.pk, w.isLive e.pk⟩) ++ w.marks }

def interruptNext : Interrupt → World
  | .begun observer sweep =>
    { w with interrupts := w.interrupts.set i (.listed sweep (w.keep observer sweep) w.holding) }
  | .listed sweep keep _ => w.marked i sweep keep

end World

/-- One statement of one process. -/
def step (w : World) : Action → Option World
  | .spawn p => if p ∈ w.alive then none else some { w with alive := p :: w.alive }
  | .die p =>
    some { w with alive := w.alive.erase p, jobs := fun pk => (w.jobs pk).filter (·.process ≠ p) }
  | .queue p => if p ∈ w.alive then some (w.queued p) else none
  | .next pk => (w.jobs pk).bind (w.nextOf pk)
  | .beat pk => (w.jobs pk).bind fun job =>
      if job.stage = .running then some (w.put pk { job with stage := .holding w.clock }) else none
  | .close pk succeeded => (w.jobs pk).bind fun job =>
      if job.stage = .closed then none else some (w.closed pk job succeeded)
  | .raise pk => (w.jobs pk).map fun _ => w.gone pk
  | .interrupt p sweep =>
    if p ∈ w.alive then
      some { w with interrupts := .begun p (if sweep then some w.clock else none) :: w.interrupts }
    else none
  | .nextInterrupt i => (w.interrupts[i]?).map (w.interruptNext i)
  | .tick microseconds =>
    some { w with
      clock := w.clock + microseconds
      jobs := fun pk => (w.jobs pk).map (Job.at (w.clock + microseconds)) }

/-! ## 4. What is promised -/

/-- No event of a live job was marked. -/
def World.Kept (w : World) : Prop := ∀ m ∈ w.marks, m.live = false

/-- Every live job whose event is looked for held its lease when the leases were read. -/
def Fits (w : World) : Interrupt → Prop
  | .begun _ _ => True
  | .listed sweep _ holding => ∀ e ∈ w.events, e.idle (idleSince sweep) = true →
      ∀ job ∈ w.jobs e.pk, job.late = false → e.pk ∈ holding

instance (w : World) : ∀ it, Decidable (Fits w it)
  | .begun _ _ => inferInstanceAs (Decidable True)
  | .listed sweep _ holding => inferInstanceAs (Decidable (∀ e ∈ w.events,
      e.idle (idleSince sweep) = true → ∀ job ∈ w.jobs e.pk, job.late = false → e.pk ∈ holding))

def Undisturbed (w : World) : Action → Prop
  | .nextInterrupt i => ∀ it ∈ w.interrupts[i]?, Fits w it
  | _ => True

instance (w : World) : ∀ a, Decidable (Undisturbed w a)
  | .nextInterrupt i => inferInstanceAs (Decidable (∀ it ∈ w.interrupts[i]?, Fits w it))
  | .spawn .. | .die .. | .queue .. | .next .. | .beat .. | .close .. | .raise .. | .interrupt .. |
    .tick .. =>
    inferInstanceAs (Decidable True)

/-! ## 5. What every step keeps -/

/-- A job's event and lease are as the job left them. -/
structure JobFits (w : World) (pk : Nat) (job : Job) : Prop where
  number : pk < w.events.length
  alive : job.process ∈ w.alive
  queued : job.stage = .queued → job.started = none
  begun : job.started = none → job.leased = none ∧ (job.stage = .queued ∨ job.stage = .closed)
  event : ∀ s ∈ job.started, ∀ e ∈ w.events, e.pk = pk → e.unfinished = true →
    e.status = .running ∧ e.startedAt = some s
  free : job.leased = none → ∀ l ∈ w.leases, l.name ≠ leaseName pk
  row : ∀ t ∈ job.leased, ∃ l ∈ w.leases, l.name = leaseName pk ∧ l.owner = job.process.owner ∧
    l.expiresAt = t + seconds timeLimit ∧ l.renewedAt = t
  steady : job.late = false → ∀ t ∈ job.leased, ∀ s ∈ job.started, Steady w.clock s t

/-- What held its lease when the leases were read is kept, or has not been running for so long. -/
def InterruptFits (w : World) : Interrupt → Prop
  | .begun _ sweep => ∀ now ∈ sweep, now ≤ w.clock
  | .listed sweep keep holding => ∀ pk ∈ holding, pk < w.events.length ∧
      ∀ job ∈ w.jobs pk, job.late = false →
        pk ∈ keep ∨ ∃ since ∈ idleSince sweep, ∃ s ∈ job.started, since ≤ s

/-- The invariant. -/
structure Sound (w : World) : Prop where
  names : (w.leases.map Lease.name).Nodup
  named : ∀ l ∈ w.leases, ∃ pk < w.events.length, l.name = leaseName pk
  numbered : ∀ e ∈ w.events, e.pk < w.events.length
  jobs : ∀ pk, ∀ job ∈ w.jobs pk, JobFits w pk job
  interrupts : ∀ it ∈ w.interrupts, InterruptFits w it
  kept : w.Kept

section Steps

variable {w w' : World} {pk other i : Nat} {job : Job} {p : Process} {it : Interrupt} {now clock : Time}

theorem sound_start : Sound (World.start clock) where
  names := List.nodup_nil
  named := List.forall_mem_nil _
  numbered := List.forall_mem_nil _
  jobs := nofun
  interrupts := List.forall_mem_nil _
  kept := List.forall_mem_nil _

theorem JobFits.started_ne_none (h : JobFits w pk job) (hqueued : job.stage ≠ .queued)
    (hclosed : job.stage ≠ .closed) : job.started ≠ none :=
  fun hnone => (h.begun hnone).2.elim hqueued hclosed

/-- A job whose event and lease a step leaves alone. -/
theorem JobFits.frame (h : JobFits w pk job) (hlength : w.events.length ≤ w'.events.length)
    (halive : job.process ∈ w.alive → job.process ∈ w'.alive) (hclock : w'.clock = w.clock)
    (hevents : ∀ e ∈ w'.events, e.pk = pk → e.unfinished = true → e ∈ w.events)
    (hleases : ∀ l, l.name = leaseName pk → (l ∈ w'.leases ↔ l ∈ w.leases)) : JobFits w' pk job where
  __ := h
  number := Nat.lt_of_lt_of_le h.number hlength
  alive := halive h.alive
  event := fun s hs e he hpk hopen => h.event s hs e (hevents e he hpk hopen) hpk hopen
  free := fun hnone l hl hname => h.free hnone l ((hleases l hname).mp hl) hname
  row := fun t ht => by
    obtain ⟨l, hl, hname, hrest⟩ := h.row t ht
    exact ⟨l, (hleases l hname).mpr hl, hname, hrest⟩
  steady := fun hlate t ht s hs => hclock ▸ h.steady hlate t ht s hs

/-- The clock does not go back, and a job that was there before started no later and was no later. -/
structure Follows (w w' : World) : Prop where
  clock : w.clock ≤ w'.clock
  length : w.events.length ≤ w'.events.length
  jobs : ∀ pk, ∀ job' ∈ w'.jobs pk, w.events.length ≤ pk ∨
    ∃ job ∈ w.jobs pk, (job'.late = false → job.late = false) ∧ ∀ s ∈ job.started, s ∈ job'.started

theorem InterruptFits.later (h : InterruptFits w it) (hf : Follows w w') : InterruptFits w' it := by
  cases it with
  | begun observer sweep => exact fun now hnow => Int.le_trans (h now hnow) hf.clock
  | listed sweep keep holding =>
    intro pk hpk
    obtain ⟨hnumber, hjobs⟩ := h pk hpk
    refine ⟨Nat.lt_of_lt_of_le hnumber hf.length, fun job' hjob' hlate => ?_⟩
    rcases hf.jobs pk job' hjob' with hnew | ⟨job, hjob, hlate', hstarted⟩
    · exact absurd hnumber (Nat.not_lt.mpr hnew)
    · refine (hjobs job hjob (hlate' hlate)).imp id ?_
      rintro ⟨since, hsince, s, hs, hle⟩
      exact ⟨since, hsince, s, hstarted s hs, hle⟩

/-- Where no job changes. -/
theorem Follows.of_jobs (hclock : w.clock ≤ w'.clock) (hlength : w.events.length ≤ w'.events.length)
    (hjobs : w'.jobs = w.jobs) : Follows w w' :=
  ⟨hclock, hlength, fun _ job hjob => .inr ⟨job, hjobs ▸ hjob, id, fun _ hs => hs⟩⟩

/-- A job in its place, which started no later and was no later, or none. -/
def Succeeds (w : World) (pk : Nat) (job : Job) (found : Option Job) : Prop :=
  ∀ job' ∈ found, JobFits w pk job' ∧ (job'.late = false → job.late = false) ∧
    ∀ s ∈ job.started, s ∈ job'.started

variable {found : Option Job}

theorem mem_update {jobs : Nat → Option Job} (h : job ∈ Function.update jobs pk found other) :
    other = pk ∧ job ∈ found ∨ other ≠ pk ∧ job ∈ jobs other := by
  by_cases hother : other = pk
  · rw [hother, Function.update_self] at h
    exact .inl ⟨hother, h⟩
  · rw [Function.update_of_ne hother] at h
    exact .inr ⟨hother, h⟩

theorem Follows.of_update (hjob : w.jobs pk = some job) (hclock : w.clock ≤ w'.clock)
    (hlength : w.events.length ≤ w'.events.length) (hjobs : w'.jobs = Function.update w.jobs pk found)
    (hfound : Succeeds w' pk job found) : Follows w w' := by
  refine ⟨hclock, hlength, fun other job' hjob' => .inr ?_⟩
  rw [hjobs] at hjob'
  rcases mem_update hjob' with ⟨rfl, hmem⟩ | ⟨-, hmem⟩
  · exact ⟨job, hjob, (hfound job' hmem).2⟩
  · exact ⟨job', hmem, id, fun _ hs => hs⟩

/-- Where jobs only go. -/
theorem Follows.of_gone (hclock : w.clock ≤ w'.clock) (hlength : w.events.length ≤ w'.events.length)
    (hjobs : ∀ pk, ∀ job ∈ w'.jobs pk, job ∈ w.jobs pk) : Follows w w' :=
  ⟨hclock, hlength, fun pk job hjob => .inr ⟨job, hjobs pk job hjob, id, fun _ hs => hs⟩⟩

/-! ### One job -/

/-- A step of one job, which changes its event and its lease only. -/
theorem Sound.changed (hs : Sound w) (hjob : w.jobs pk = some job) {events : List Event}
    {leases : List Lease} (hpks : events.map Event.pk = w.events.map Event.pk)
    (hevents : ∀ e ∈ events, e.pk ≠ pk → e ∈ w.events) (hnames : (leases.map Lease.name).Nodup)
    (hleases : ∀ l, l.name ≠ leaseName pk → (l ∈ leases ↔ l ∈ w.leases))
    (hfound : Succeeds { w with events, leases, jobs := Function.update w.jobs pk found }
      pk job found) :
    Sound { w with events, leases, jobs := Function.update w.jobs pk found } := by
  have hlength : events.length = w.events.length := by
    rw [← List.length_map, hpks, List.length_map]
  have hf : Follows w { w with events, leases, jobs := Function.update w.jobs pk found } :=
    .of_update hjob (Int.le_refl _) hlength.ge rfl hfound
  refine ⟨hnames, fun l hl => ?_, fun e he => ?_, fun other job' hjob' => ?_,
    fun it hit => (hs.interrupts it hit).later hf, hs.kept⟩
  · by_cases hname : l.name = leaseName pk
    · exact ⟨pk, hlength ▸ (hs.jobs pk job hjob).number, hname⟩
    · obtain ⟨other, hother, hname⟩ := hs.named l ((hleases l hname).mp hl)
      exact ⟨other, hlength ▸ hother, hname⟩
  · obtain ⟨e', he', hpk⟩ := List.mem_map.mp (hpks ▸ List.mem_map_of_mem (f := Event.pk) he)
    exact hpk ▸ hlength ▸ hs.numbered e' he'
  · rcases mem_update hjob' with ⟨rfl, hmem⟩ | ⟨hother, hmem⟩
    · exact (hfound job' hmem).1
    · refine (hs.jobs other job' hmem).frame hlength.ge id rfl ?_ ?_
      · exact fun e he hpk _ => hevents e he (hpk ▸ hother)
      · exact fun l hname => hleases l fun h => hother (leaseName_inj (hname.symm.trans h))

/-- Where only the job changes. -/
theorem Sound.replaced (hs : Sound w) (hjob : w.jobs pk = some job)
    (hfound : Succeeds { w with jobs := Function.update w.jobs pk found } pk job found) :
    Sound { w with jobs := Function.update w.jobs pk found } :=
  hs.changed hjob rfl (fun _ he _ => he) hs.names (fun _ _ => Iff.rfl) hfound

theorem Sound.gone (hs : Sound w) (hjob : w.jobs pk = some job) : Sound (w.gone pk) :=
  hs.replaced hjob nofun

theorem Sound.letGo (hs : Sound w) (hjob : w.jobs pk = some job) : Sound (w.letGo pk) := by
  refine hs.changed hjob rfl (fun _ he _ => he) (hs.names.sublist (List.filter_sublist.map _)) ?_ nofun
  intro l hname
  rw [Rows.mem_delete, beq_eq_false_iff_ne.mpr hname]
  exact and_iff_left rfl

/-- A job goes on to take its lease. -/
theorem Sound.holds (hs : Sound w) (hjob : w.jobs pk = some job) (hstarted : job.started ≠ none)
    (now : Time) :
    Sound (w.put pk { job with stage := .holding now }) := by
  have hfits := hs.jobs pk job hjob
  refine hs.replaced hjob ?_
  intro job' hjob'
  cases hjob'
  exact ⟨⟨hfits.number, hfits.alive, nofun, fun hnone => absurd hnone hstarted, hfits.event, hfits.free,
    hfits.row, hfits.steady⟩, id, fun _ h => h⟩

/-! ### Events -/

variable {change : Event → Event}

theorem pks_updated (hchange : ∀ e, (change e).pk = e.pk) :
    (w.updated pk change).map Event.pk = w.events.map Event.pk :=
  Rows.map_update _ fun e _ _ => hchange e

variable {e : Event}

theorem mem_updated_of_ne (he : e ∈ w.updated pk change)
    (hpk : e.pk ≠ pk) (hchange : ∀ e, (change e).pk = e.pk) : e ∈ w.events := by
  rcases Rows.mem_update.mp he with ⟨old, -, hold, rfl⟩ | ⟨he, -⟩
  · exact absurd ((hchange old).trans (beq_iff_eq.mp (Bool.and_eq_true_iff.mp hold).1)) hpk
  · exact he

/-- The event of a job runs from here on, if it is not finished. -/
theorem unfinished_updated (he : e ∈ w.updated pk change)
    (hpk : e.pk = pk) (hopen : e.unfinished = true) : ∃ old ∈ w.events, old.unfinished = true ∧
    change old = e := by
  rcases Rows.mem_update.mp he with ⟨old, hold, hfound, rfl⟩ | ⟨he, hnot⟩
  · exact ⟨old, hold, (Bool.and_eq_true_iff.mp hfound).2, rfl⟩
  · rw [hpk, beq_self_eq_true, hopen] at hnot
    cases hnot

theorem Sound.begun (hs : Sound w) (hjob : w.jobs pk = some job) (hqueued : job.stage = .queued) :
    Sound (w.begun pk job) := by
  have hfits := hs.jobs pk job hjob
  have hunstarted := hfits.queued hqueued
  obtain ⟨hunleased, -⟩ := hfits.begun hunstarted
  unfold World.begun
  split
  · refine hs.changed hjob (pks_updated fun _ => rfl)
      (fun _ he hpk => mem_updated_of_ne he hpk fun _ => rfl) hs.names
      (fun _ _ => Iff.rfl) ?_
    intro job' hjob'
    cases hjob'
    refine ⟨⟨?_, hfits.alive, nofun, nofun, ?_, hfits.free, hfits.row, ?_⟩, id, ?_⟩
    · rw [World.updated, Rows.update, List.length_map]
      exact hfits.number
    · rintro s hs e he hpk hopen
      cases hs
      obtain ⟨old, -, -, rfl⟩ := unfinished_updated he hpk hopen
      exact ⟨rfl, rfl⟩
    · intro _ t ht
      rw [hunleased] at ht
      cases ht
    · intro s hs
      rw [hunstarted] at hs
      cases hs
  · exact hs.gone hjob

theorem Sound.closed (hs : Sound w) (hjob : w.jobs pk = some job) (succeeded : Bool) :
    Sound (w.closed pk job succeeded) := by
  have hfits := hs.jobs pk job hjob
  refine hs.changed hjob (pks_updated fun _ => rfl)
    (fun _ he hpk => mem_updated_of_ne he hpk fun _ => rfl) hs.names
    (fun _ _ => Iff.rfl) ?_
  intro job' hjob'
  cases hjob'
  refine ⟨⟨?_, hfits.alive, nofun, fun hnone => ⟨(hfits.begun hnone).1, .inr rfl⟩, ?_, hfits.free,
    hfits.row,
    hfits.steady⟩, id, fun _ h => h⟩
  · rw [World.updated, Rows.update, List.length_map]
    exact hfits.number
  · rintro s - e he hpk hopen
    obtain ⟨old, -, -, rfl⟩ := unfinished_updated he hpk hopen
    cases succeeded <;> exact absurd hopen Bool.false_ne_true

/-! ### Leases -/

/-- Nobody else holds the lease of a job. -/
theorem JobFits.acquires (h : JobFits w pk job) (hs : Sound w) (now : Time) :
    ∀ l ∈ w.leases, l.name = leaseName pk → l.expiresAt ≤ now ∨ l.owner = job.process.owner := by
  intro l hl hname
  cases hleased : job.leased with
  | none => exact absurd hname (h.free hleased l hl)
  | some t =>
    obtain ⟨r, hr, hrname, howner, -⟩ := h.row t hleased
    rw [Rows.eq_of_key hs.names hl hr (hname.trans hrname.symm)]
    exact .inr howner

theorem late_at : (Job.at clock job).late = false ↔
    job.late = false ∧ ∀ t ∈ job.leased, ∀ s ∈ job.started, Steady clock s t := by
  rw [Job.at, Bool.or_eq_false_iff]
  refine and_congr_right fun _ => ?_
  cases job.leased with
  | none => exact ⟨nofun, fun _ => rfl⟩
  | some t =>
    cases job.started with
    | none => exact ⟨nofun, fun _ => rfl⟩
    | some s =>
      rw [Option.any_some, Option.any_some, Bool.not_eq_false', decide_eq_true_iff]
      constructor
      · intro h t' ht' s' hs'
        rwa [← Option.some.inj ht', ← Option.some.inj hs']
      · exact fun h => h t rfl s rfl

theorem Sound.held (hs : Sound w) (hjob : w.jobs pk = some job) (hstage : job.stage = .holding now) :
    Sound (w.held pk job now) := by
  have hfits := hs.jobs pk job hjob
  obtain ⟨htaken, hrow, hothers⟩ :=
    @Leases.acquire_free w.leases (leaseName pk) job.process.owner timeLimit
    now hs.names (hfits.acquires hs now)
  have hstarted : job.started ≠ none :=
    hfits.started_ne_none (by rw [hstage]; nofun) (by rw [hstage]; nofun)
  unfold World.held
  simp only [htaken, if_true]
  refine hs.changed hjob rfl (fun _ he _ => he) (Leases.names_acquire hs.names) hothers ?_
  intro job' hjob'
  cases hjob'
  refine ⟨⟨hfits.number, hfits.alive, nofun, fun hnone => absurd hnone hstarted, hfits.event, nofun,
    ?_, ?_⟩,
    fun hlate => (late_at.mp hlate).1, fun _ h => h⟩
  · intro t ht
    cases ht
    exact hrow
  · exact fun hlate => (late_at.mp hlate).2

/-! ### Processes and the clock -/

theorem Sound.queued (hs : Sound w) (hp : p ∈ w.alive) : Sound (w.queued p) := by
  have hlength : (w.queued p).events.length = w.events.length + 1 := List.length_append
  have hgrows : w.events.length ≤ (w.queued p).events.length := hlength ▸ Nat.le_succ _
  have hf : Follows w (w.queued p) := by
    refine ⟨Int.le_refl _, hgrows, fun pk job hjob => ?_⟩
    rcases mem_update hjob with ⟨rfl, -⟩ | ⟨-, hjob⟩
    · exact .inl (Nat.le_refl _)
    · exact .inr ⟨job, hjob, id, fun _ h => h⟩
  refine ⟨hs.names, fun l hl => ?_, fun e he => ?_, fun pk job hjob => ?_,
    fun it hit => (hs.interrupts it hit).later hf, hs.kept⟩
  · obtain ⟨pk, hpk, hname⟩ := hs.named l hl
    exact ⟨pk, Nat.lt_of_lt_of_le hpk hgrows, hname⟩
  · rw [hlength]
    rcases List.mem_append.mp he with he | he
    · exact Nat.lt_succ_of_lt (hs.numbered e he)
    · obtain rfl := List.mem_singleton.mp he
      exact Nat.lt_succ_self _
  · rcases mem_update hjob with ⟨rfl, hnew⟩ | ⟨-, hold⟩
    · cases hnew
      refine ⟨hlength ▸ Nat.lt_succ_self _, hp, fun _ => rfl, fun _ => ⟨rfl, .inl rfl⟩, nofun, ?_,
        nofun, nofun⟩
      intro _ l hl hname
      obtain ⟨pk, hpk, hpkname⟩ := hs.named l hl
      exact absurd (leaseName_inj (hpkname.symm.trans hname)) hpk.ne
    · refine (hs.jobs pk job hold).frame hgrows id rfl (fun e he hpk _ => ?_) fun _ _ => Iff.rfl
      rcases List.mem_append.mp he with he | he
      · exact he
      · obtain rfl := List.mem_singleton.mp he
        exact absurd hpk (hs.jobs pk job hold).number.ne'

theorem Sound.died (hs : Sound w) (p : Process) :
    Sound { w with
      alive := w.alive.erase p, jobs := fun pk => (w.jobs pk).filter (·.process ≠ p) } := by
  have hf : Follows w { w with
      alive := w.alive.erase p, jobs := fun pk => (w.jobs pk).filter (·.process ≠ p) } :=
    .of_gone (Int.le_refl _) (Nat.le_refl _) fun pk job hjob => (Option.filter_eq_some_iff.mp hjob).1
  refine ⟨hs.names, hs.named, hs.numbered, fun pk job hjob => ?_,
    fun it hit => (hs.interrupts it hit).later hf, hs.kept⟩
  obtain ⟨hjob, hother⟩ := Option.filter_eq_some_iff.mp hjob
  exact (hs.jobs pk job hjob).frame (Nat.le_refl _)
    (fun halive => (List.mem_erase_of_ne (of_decide_eq_true hother)).mpr halive) rfl
    (fun _ he _ _ => he) fun _ _ => Iff.rfl

theorem Sound.ticked (hs : Sound w) (microseconds : Nat) :
    Sound { w with
      clock := w.clock + microseconds
      jobs := fun pk => (w.jobs pk).map (Job.at (w.clock + microseconds)) } := by
  have hf : Follows w { w with
      clock := w.clock + microseconds
      jobs := fun pk => (w.jobs pk).map (Job.at (w.clock + microseconds)) } := by
    refine ⟨Int.le_add_of_nonneg_right (Int.natCast_nonneg _), Nat.le_refl _,
      fun pk job' hjob' => .inr ?_⟩
    obtain ⟨job, hjob, rfl⟩ := Option.map_eq_some_iff.mp hjob'
    exact ⟨job, hjob, fun hlate => (late_at.mp hlate).1, fun _ h => h⟩
  refine ⟨hs.names, hs.named, hs.numbered, fun pk job' hjob' => ?_,
    fun it hit => (hs.interrupts it hit).later hf, hs.kept⟩
  obtain ⟨job, hjob, rfl⟩ := Option.map_eq_some_iff.mp hjob'
  have hfits := hs.jobs pk job hjob
  exact ⟨hfits.number, hfits.alive, hfits.queued, hfits.begun, hfits.event, hfits.free, hfits.row,
    fun hlate => (late_at.mp hlate).2⟩

/-! ### Interrupts -/

/-- A job that took its lease before the hour is not older than a lease and an hour. -/
theorem started_since {clock now started leased limit stale : Int} (hnow : now ≤ clock)
    (hbefore : ¬ now - stale < leased)
    (hyoung : clock ≤ started + limit + stale ∨ clock < leased + stale) :
    now - limit - stale ≤ started := by
  omega

variable {sweep : Option Time}

/-- **Whoever holds its lease is kept**, or has not been running for so long. -/
theorem JobFits.kept (h : JobFits w pk job) (observer : Process)
    (hsweep : ∀ now ∈ sweep, now ≤ w.clock) {leased : Time} (hleased : job.leased = some leased)
    (hlate : job.late = false) :
    pk ∈ w.keep observer sweep ∨ ∃ since ∈ idleSince sweep, ∃ s ∈ job.started, since ≤ s := by
  obtain ⟨started, hstarted⟩ : ∃ s, job.started = some s := by
    cases hstarted : job.started with
    | none =>
      rw [(h.begun hstarted).1] at hleased
      cases hleased
    | some s => exact ⟨s, rfl⟩
  obtain ⟨hlives, hyoung⟩ := h.steady hlate leased hleased started hstarted
  obtain ⟨l, hl, hname, howner, hexpires, hrenewed⟩ := h.row leased hleased
  have hstands : (decide (w.clock < l.expiresAt) && l.owner != "" &&
      !abandoned w.alive observer l.owner) = true := by
    rw [howner, abandoned_of_alive h.alive, bne_iff_ne.mpr (owner_ne_empty job.process), hexpires,
      decide_eq_true hlives]
    rfl
  have hpk : activityOf l.name = some pk := hname ▸ activityOf_leaseName pk
  cases sweep with
  | none => exact .inl (List.mem_filterMap.mpr ⟨l, List.mem_filter.mpr ⟨hl, hstands⟩, hpk⟩)
  | some now =>
    by_cases hrecent : now - staleAfterLimit < l.renewedAt
    · refine .inl (List.mem_filterMap.mpr ⟨l, List.mem_filter.mpr ⟨?_, hstands⟩, hpk⟩)
      exact List.mem_filter.mpr ⟨hl, decide_eq_true hrecent⟩
    · rw [hrenewed] at hrecent
      exact .inr ⟨_, rfl, started, hstarted, started_since (hsweep now rfl) hrecent hyoung⟩

theorem Sound.listed (hs : Sound w) {observer : Process} (hsweep : ∀ now ∈ sweep, now ≤ w.clock) :
    InterruptFits w (.listed sweep (w.keep observer sweep) w.holding) := by
  intro pk hpk
  obtain ⟨hnumber, hheld⟩ := List.mem_filter.mp hpk
  refine ⟨List.mem_range.mp hnumber, fun job hjob hlate => ?_⟩
  rw [show w.jobs pk = some job from hjob, Option.any_some] at hheld
  obtain ⟨leased, hleased⟩ := Option.isSome_iff_exists.mp hheld
  exact (hs.jobs pk job hjob).kept observer hsweep hleased hlate

theorem unfinished_of_idle {since : Option Time} (h : e.idle since = true) : e.unfinished = true := by
  rw [Event.idle, Bool.or_eq_true_iff, Bool.and_eq_true_iff, Bool.and_eq_true_iff] at h
  rw [Event.unfinished, Bool.or_eq_true_iff]
  exact h.imp (·.1) (·.1)

/-- **An undisturbed interrupt marks no live job's event.** -/
theorem JobFits.spared (h : JobFits w pk job) (he : e ∈ w.events) (hpk : e.pk = pk)
    {keep : List Nat} (hidle : e.idle (idleSince sweep) = true)
    (hkeep : pk ∈ keep ∨ ∃ since ∈ idleSince sweep, ∃ s ∈ job.started, since ≤ s) : pk ∈ keep := by
  refine hkeep.resolve_right ?_
  rintro ⟨since, hsince, s, hs, hle⟩
  obtain ⟨hstatus, hstarted⟩ := h.event s hs e he hpk (unfinished_of_idle hidle)
  rw [show idleSince sweep = some since from hsince, Event.idle, hstatus, hstarted] at hidle
  exact absurd (of_decide_eq_true hidle) (Int.not_lt.mpr hle)

theorem Sound.marked (hs : Sound w) {keep holding : List Nat}
    (hfits : InterruptFits w (.listed sweep keep holding)) (hin : Fits w (.listed sweep keep holding)) :
    Sound (w.marked i sweep keep) := by
  have hlength : (w.marked i sweep keep).events.length = w.events.length := List.length_map ..
  have hf : Follows w (w.marked i sweep keep) := .of_jobs (Int.le_refl _) hlength.ge rfl
  refine ⟨hs.names, fun l hl => ?_, fun e he => ?_, fun pk job hjob => ?_, fun it hit => ?_,
    fun m hm => ?_⟩
  · rw [hlength]
    exact hs.named l hl
  · rw [hlength]
    rcases Rows.mem_update.mp he with ⟨old, hold, -, rfl⟩ | ⟨he, -⟩
    · exact hs.numbered old hold
    · exact hs.numbered e he
  · refine (hs.jobs pk job hjob).frame hlength.ge id rfl (fun e he _ hopen => ?_) fun _ _ => Iff.rfl
    rcases Rows.mem_update.mp he with ⟨old, -, -, rfl⟩ | ⟨he, -⟩
    · exact absurd hopen Bool.false_ne_true
    · exact he
  · exact (hs.interrupts it (List.mem_of_mem_eraseIdx hit)).later hf
  · rcases List.mem_append.mp hm with hm | hm
    · obtain ⟨e, he, rfl⟩ := List.mem_map.mp hm
      obtain ⟨hmem, hlost⟩ := List.mem_filter.mp he
      obtain ⟨hidle, hnot⟩ := Bool.and_eq_true_iff.mp hlost
      cases hjob : w.jobs e.pk with
      | none =>
        show (w.jobs e.pk).any _ = false
        rw [hjob, Option.any_none]
      | some job =>
        show (w.jobs e.pk).any _ = false
        rw [hjob, Option.any_some]
        cases hlate : job.late with
        | true => rfl
        | false =>
          have hheld := hin e hmem hidle job hjob hlate
          have hkept := (hs.jobs e.pk job hjob).spared hmem rfl hidle
            ((hfits e.pk hheld).2 job hjob hlate)
          rw [List.contains_iff_mem.mpr hkept] at hnot
          cases hnot
    · exact hs.kept m hm

/-! ### Steps -/

theorem Sound.next (hs : Sound w) (hjob : w.jobs pk = some job) (hstep : w.nextOf pk job = some w') :
    Sound w' := by
  unfold World.nextOf at hstep
  cases hstage : job.stage with
  | queued =>
    rw [hstage] at hstep
    cases hstep
    exact hs.begun hjob hstage
  | starting =>
    rw [hstage] at hstep
    cases hstep
    have hfits := hs.jobs pk job hjob
    exact hs.holds hjob (hfits.started_ne_none (by rw [hstage]; nofun) (by rw [hstage]; nofun)) w.clock
  | holding now =>
    rw [hstage] at hstep
    cases hstep
    exact hs.held hjob hstage
  | running =>
    rw [hstage] at hstep
    cases hstep
  | closed =>
    rw [hstage] at hstep
    cases hstep
    exact hs.letGo hjob

/-- Where a process or an interrupt comes. -/
theorem Sound.extended (hs : Sound w) {alive : List Process} {interrupts : List Interrupt}
    (halive : ∀ p ∈ w.alive, p ∈ alive)
    (hinterrupts : ∀ it ∈ interrupts, it ∈ w.interrupts ∨ InterruptFits w it) :
    Sound { w with alive, interrupts } := by
  have hf : Follows w { w with alive, interrupts } := .of_jobs (Int.le_refl _) (Nat.le_refl _) rfl
  refine ⟨hs.names, hs.named, hs.numbered, fun pk job hjob => ?_, fun it hit => ?_, hs.kept⟩
  · exact (hs.jobs pk job hjob).frame (Nat.le_refl _) (halive _) rfl (fun _ he _ _ => he) fun _ _ =>
      Iff.rfl
  · exact ((hinterrupts it hit).elim (hs.interrupts it) id).later hf

theorem Sound.interrupted (hs : Sound w) (hit : w.interrupts[i]? = some it) (hin : Fits w it) :
    Sound (w.interruptNext i it) := by
  have hfits := hs.interrupts it (List.mem_of_getElem? hit)
  cases it with
  | begun observer sweep =>
    refine hs.extended (fun _ hp => hp) fun other hother => ?_
    rcases List.mem_or_eq_of_mem_set hother with hmem | rfl
    · exact .inl hmem
    · exact .inr (hs.listed hfits)
  | listed sweep keep holding => exact hs.marked hfits hin

/-- **Every undisturbed step keeps it.** -/
theorem step_sound {a : Action} (hs : Sound w) (hin : Undisturbed w a) (hstep : step w a = some w') :
    Sound w' := by
  cases a with
  | spawn p =>
    obtain ⟨-, ⟨⟩⟩ := Option.ite_none_left_eq_some.mp hstep
    exact hs.extended (fun _ => List.mem_cons_of_mem p) fun _ => .inl
  | die p =>
    cases hstep
    exact hs.died p
  | queue p =>
    obtain ⟨hp, hw⟩ := Option.ite_none_right_eq_some.mp hstep
    cases hw
    exact hs.queued hp
  | next pk =>
    obtain ⟨job, hjob, hstep⟩ := Option.bind_eq_some_iff.mp hstep
    exact hs.next hjob hstep
  | beat pk =>
    obtain ⟨job, hjob, hstep⟩ := Option.bind_eq_some_iff.mp hstep
    obtain ⟨hstage, hw⟩ := Option.ite_none_right_eq_some.mp hstep
    cases hw
    have hfits := hs.jobs pk job hjob
    exact hs.holds hjob (hfits.started_ne_none (by rw [hstage]; nofun) (by rw [hstage]; nofun)) w.clock
  | close pk succeeded =>
    obtain ⟨job, hjob, hstep⟩ := Option.bind_eq_some_iff.mp hstep
    obtain ⟨-, ⟨⟩⟩ := Option.ite_none_left_eq_some.mp hstep
    exact hs.closed hjob succeeded
  | raise pk =>
    obtain ⟨job, hjob, rfl⟩ := Option.map_eq_some_iff.mp hstep
    exact hs.gone hjob
  | interrupt p sweep =>
    obtain ⟨-, ⟨⟩⟩ := Option.ite_none_right_eq_some.mp hstep
    refine hs.extended (fun _ hp => hp) fun it hit => ?_
    rcases List.mem_cons.mp hit with rfl | hmem
    · refine .inr fun now hnow => ?_
      cases sweep with
      | false => cases hnow
      | true => exact (Option.some.inj hnow).ge
    · exact .inl hmem
  | nextInterrupt i =>
    obtain ⟨it, hit, rfl⟩ := Option.map_eq_some_iff.mp hstep
    exact hs.interrupted hit (hin it hit)
  | tick microseconds =>
    cases hstep
    exact hs.ticked microseconds

end Steps

/-! ## 6. Runs -/

/-- **No live job's event is marked**, in every undisturbed run. -/
theorem live_spared {clock : Time} {as : List Action} {w : World}
    (hrun : run step (World.start clock) as = some w)
    (hin : Along step Undisturbed (World.start clock) as) : w.Kept :=
  (run_invariant_along (fun _ _ _ hstep hin hs => step_sound hs hin hstep) hrun hin sound_start).kept

section Examples

def terminal : Process := ⟨"web", 7⟩

def crashed : Process := ⟨"web", 8⟩

def manager : Process := ⟨"web", 9⟩

/-- A terminal runs a job and another process has died over one when the manager starts. -/
def startedBeside : List Action :=
  [.spawn terminal, .queue terminal, .next 0, .next 0, .next 0, .spawn crashed, .queue crashed,
    .die crashed,
    .spawn manager, .interrupt manager false, .nextInterrupt 0, .nextInterrupt 0]

theorem live_spared_startedBeside : ∃ w, run step (World.start 0) startedBeside = some w ∧
    w.marks = [⟨1, false⟩] ∧ w.Kept := by
  have hrun : (run step (World.start 0) startedBeside).map (·.marks) =
    some [⟨1, false⟩] := by decide +kernel
  obtain ⟨w, hw, hmarks⟩ := Option.map_eq_some_iff.mp hrun
  exact ⟨w, hw, hmarks, live_spared hw (by decide +kernel)⟩

/-- A terminal has queued a job for itself and started another one, which has not taken its lease yet,
    when the manager starts. -/
def startedBetween : List Action :=
  [.spawn terminal, .queue terminal, .queue terminal, .next 0, .spawn manager, .interrupt manager false,
    .nextInterrupt 0, .nextInterrupt 0]

/-- **Both are marked interrupted**, and go on in a process that lives. -/
theorem queued_marked : ∃ w, run step (World.start 0) startedBetween = some w ∧ ¬ w.Kept := by
  have hrun : (run step (World.start 0) startedBetween).map (·.marks) =
    some [⟨0, true⟩, ⟨1, true⟩] := by
    decide +kernel
  obtain ⟨w, hw, hmarks⟩ := Option.map_eq_some_iff.mp hrun
  refine ⟨w, hw, fun hkept => ?_⟩
  have hfalse := hkept ⟨0, true⟩ (hmarks ▸ List.mem_cons_self)
  cases hfalse

end Examples

end Dbs.Interrupts

/-
  File:      Dbs/Relocation.lean
  Subject:   THE MOVE OF A SERVER (relocation/services.py and steps.py): phases of steps, each attempt
             resuming the one before it.

  * `Step`, `Phase`, `stepKey` -- the plan as the event's detail holds it;
  * `applicationSteps`, `prepareSteps`, `plannedPhases` -- what `step_inventory` plans;
  * `counted` -- the steps that `start` takes over as done before;
  * `Move`, `goOn`, `work` -- the process, statement by statement; `step` -- the chain of attempts, each
    ending by itself, by an exception or by the death of its process;
  * `comesPast` -- an attempt is broken off behind all that it took over, and with nothing unstored;
  * `finished_remembered` -- then no attempt forgets; `early_failure_forgets` -- one that fails in its
    first step does.
-/
import Dbs.Activity
import Dbs.Lib.Runs

namespace Dbs.Relocation

open Activity Runs

/-! ## 1. Steps and phases -/

/-- What a step does. -/
inductive StepName
  | connect | inventory | evaluate
  | sudoCheck | repositories | packages | engineSetup | services | users | recheck
  | sourceBackup | carryFolder | carryExtra | carryBind | carryImage | carryVolume | rewriteEnv
  | backupDir | python | databaseCreate | networks | start | register | migrate | restore
  | installUnits | installSites | finalCheck | copyPlans
deriving DecidableEq

/-- What is recorded of a step. -/
inductive Status
  | pending
  | running
  | succeeded
  | failed
  | skipped
deriving DecidableEq

inductive Reason
  | doneBefore
deriving DecidableEq

/-- A step and its state. -/
structure Step where
  step : StepName
  key : String := ""
  bytes : Option Nat := none
  status : Status := .pending
  reason : Option Reason := none
  warning : Option String := none

/-- The parts of a move. -/
inductive PhaseName
  | plan
  | prepare
  | application
deriving DecidableEq

def PhaseName.value : PhaseName → String
  | .plan => "plan"
  | .prepare => "prepare"
  | .application => "application"

/-- A part and its steps. -/
structure Phase where
  phase : PhaseName
  application : String := ""
  name : String := ""
  targetName : String := ""
  status : Status := .pending
  steps : List Step
  backup : String := ""
  targetApplication : String := ""

/-- What tells one phase from another. -/
structure Head where
  phase : PhaseName
  application : String

def Phase.head (p : Phase) : Head := ⟨p.phase, p.application⟩

/-- `phase.get("application") or phase["phase"]`. -/
def Head.label (h : Head) : String :=
  if h.application = "" then h.phase.value else h.application

abbrev Key := String × StepName × String

def keyOf (h : Head) (s : Step) : Key := (h.label, s.step, s.key)

def stepKey (p : Phase) (s : Step) : Key := keyOf p.head s

def planSteps : List StepName := [.connect, .inventory, .evaluate]

def prepareNames : List StepName :=
  [.sudoCheck, .repositories, .packages, .engineSetup, .services, .users, .recheck]

def planPhase : Phase where
  phase := .plan
  steps := planSteps.map fun step => { step }

/-! ## 2. The plan -/

inductive Kind
  | host
  | compose
  | container
deriving DecidableEq

/-- A folder, a file or a volume on its way, as far as the steps name it. -/
structure Load where
  target : String
  bytes : Option Nat := none
  selected : Bool := true
  onTarget : Bool := false

/-- The plan of an application, as far as its steps depend on it. -/
structure Plan where
  application : String
  name : String
  targetName : String
  kind : Kind
  folderPath : String := ""
  folder : Load := { target := "" }
  extras : List Load := []
  binds : List Load := []
  images : List Load := []
  volumes : List Load := []
  rewriteEnv : String := ""
  backupDir : Option String := none
  placement : String := ""
  action : String := ""
  networks : List String := []
  units : List String := []
  sites : List String := []
  users : List String := []
  copyPlans : Bool := true
  blockers : List String := []

/-- What `Survey.collect` finds. -/
structure Found where
  repositories : List String := []
  packages : List String := []
  modules : List String := []
  services : List String := []
  needs : List String := []
  targetSudo : Bool := false
  sourceSudo : Bool := false
  applications : List Plan
  blockers : List String := []

/-- The step, where the plan asks for it. -/
def wanted (c : Bool) (s : Step) : List Step := if c then [s] else []

def carried (step : StepName) (loads : List Load) : List Step :=
  loads.map fun l => { step, key := l.target, bytes := l.bytes }

def pendingIf (c : Bool) : Status := if c then .pending else .skipped

/-- The steps of an application, as planned. -/
def applicationSteps (plan : Plan) : List Step :=
  let host := plan.kind = .host
  let shared := plan.action = "shared"
  [{ step := .sourceBackup }] ++
  wanted (plan.folderPath ≠ "")
    { step := .carryFolder, key := plan.folder.target, bytes := plan.folder.bytes } ++
  carried .carryExtra plan.extras ++
  carried .carryBind (plan.binds.filter Load.selected) ++
  carried .carryImage (plan.images.filter fun image => !image.onTarget) ++
  carried .carryVolume (plan.volumes.filter Load.selected) ++
  wanted (plan.rewriteEnv ≠ "") { step := .rewriteEnv, key := plan.rewriteEnv } ++
  wanted plan.backupDir.isSome { step := .backupDir, key := plan.backupDir.getD "" } ++
  wanted host { step := .python } ++
  wanted (host ∧ plan.placement = "host_package") { step := .databaseCreate } ++
  wanted (plan.kind = .container ∧ plan.networks ≠ []) { step := .networks } ++
  wanted (¬ host) { step := .start } ++
  [{ step := .register }] ++
  [{ step := .migrate, status := pendingIf (¬ shared) }] ++
  [{ step := .restore, status := pendingIf (¬ shared) }] ++
  wanted (host ∧ plan.units ≠ []) { step := .installUnits } ++
  wanted (host ∧ plan.sites ≠ []) { step := .installSites } ++
  [{ step := .finalCheck }] ++
  [{ step := .copyPlans, status := pendingIf plan.copyPlans }]

/-- Whether the target needs the step of the preparation. -/
def Found.runs (found : Found) : StepName → Bool
  | .sudoCheck => found.targetSudo || found.sourceSudo
  | .repositories => !found.repositories.isEmpty
  | .packages => !found.packages.isEmpty || !found.modules.isEmpty
  | .engineSetup => found.needs.contains "docker" || found.needs.contains "podman"
  | .services => !found.services.isEmpty
  | .users => found.applications.any fun plan => !plan.users.isEmpty
  | .recheck => !found.packages.isEmpty
  | _ => false

/-- The steps in front of all applications. -/
def prepareSteps (found : Found) : List Step :=
  prepareNames.map fun step => { step, status := pendingIf (found.runs step) }

def preparePhase (found : Found) : Phase := { phase := .prepare, steps := prepareSteps found }

/-- The phase of the attempt before that the application had; the last of that name. -/
def previousOf (previous : List Phase) (application : String) : Option Phase :=
  previous.reverse.find? fun p => p.head.label = application

def applicationPhase (previous : List Phase) (plan : Plan) : Phase where
  phase := .application
  application := plan.application
  name := plan.name
  targetName := plan.targetName
  steps := applicationSteps plan
  backup := ((previousOf previous plan.application).map Phase.backup).getD ""
  targetApplication := ((previousOf previous plan.application).map Phase.targetApplication).getD ""

/-- The phases of `step_inventory`, behind the one it is a step of. -/
def plannedPhases (first : Phase) (previous : List Phase) (found : Found) : List Phase :=
  first :: preparePhase found :: found.applications.map (applicationPhase previous)

def resumedBlockers : List String :=
  ["target_folder_not_empty", "file_exists_on_target", "image_exists_on_target",
    "volume_exists_on_target", "unit_exists_on_target", "site_exists_on_target",
    "container_exists_on_target", "name_taken", "port_in_use"]

def blocked (found : Found) : List String :=
  found.blockers ++ found.applications.flatMap Plan.blockers

def stillBlocking (code : String) (done : List Key) : Bool :=
  if resumedBlockers.contains code then done.isEmpty else true

/-! ## 3. The detail, and an attempt that resumes another -/

/-- What the user asked for. -/
structure Choice where
  application : String
  name : String
  folder : String
  skipVolumes : List String := []
  copyPlans : Bool := true

/-- Where a step stands: the phase as it is shown, the step and its key. -/
abbrev Spot := String × StepName × String

/-- What the event stores. -/
structure Detail where
  sourceServer : String
  targetServer : String
  rehearsal : Bool
  choices : List Choice
  phases : List Phase := [planPhase]
  previousPhases : List Phase := []
  doneBefore : List Key := []
  inventory : Option Found := none
  blockers : List String := []
  current : Option Spot := none
  failedStep : Option Spot := none

def action : String := "relocation.move"

/-- A step that `start` takes over as done before. -/
def Step.isDone (s : Step) : Bool := s.status = .succeeded || s.reason = some .doneBefore

def countedOf (p : Phase) : List Key :=
  if p.phase = .plan then [] else (p.steps.filter Step.isDone).map (stepKey p)

def counted (phases : List Phase) : List Key := phases.flatMap countedOf

/-- `_resumable`. -/
def resumable (earlier : JobEvent Detail) (source target : String) : Bool :=
  earlier.action = action && earlier.status = .failed && !earlier.data.rehearsal &&
    earlier.data.sourceServer = source && earlier.data.targetServer = target &&
    !earlier.data.choices.isEmpty

/-- The detail that `start` queues the job with. -/
def resumed (earlier : Detail) (rehearsal : Bool) : Detail where
  sourceServer := earlier.sourceServer
  targetServer := earlier.targetServer
  rehearsal := rehearsal
  choices := earlier.choices
  previousPhases := earlier.phases
  doneBefore := counted earlier.phases

def queued (detail : Detail) : JobEvent Detail := ⟨action, .queued, detail⟩

/-! ## 4. The process of an attempt -/

/-- The result of a step that did something. -/
structure Outcome where
  warning : Option String := none
deriving DecidableEq

/-- Where the process is: in `Move.__init__`, at the head of one of the loops, before or behind a
    `progress`, in the work of a step, or on its way out. -/
inductive Place
  | starting
  | phases (i : Nat)
  | entered (i : Nat)
  | steps (i j : Nat)
  | marked (i j : Nat)
  | holding (i j : Nat)
  | working (i j : Nat)
  | returned (i j : Nat) (outcome : Option Outcome)
  | worked (i j : Nat)
  | over (i : Nat)
  | finished (i : Nat)
  | failing
deriving DecidableEq

/-- `stale`: a step was closed, or another detail stored, since the detail was stored last. -/
structure Move where
  detail : Detail
  done : List Key
  place : Place := .starting
  stale : Bool := false

/-- What the work of a step brings back. -/
inductive Answer
  | found (f : Found)
  | file (backup : String)
  | created (application : String)
  | outcome (o : Option Outcome)

/-- The step at a place, with what tells its phase. -/
def stepAt (phases : List Phase) (i j : Nat) : Option (Head × Step) :=
  phases[i]?.bind fun p => p.steps[j]?.map fun s => (p.head, s)

def setStep (i j : Nat) (f : Step → Step) (phases : List Phase) : List Phase :=
  phases.modify i fun p => { p with steps := p.steps.modify j f }

def setStatus (i : Nat) (status : Status) (phases : List Phase) : List Phase :=
  phases.modify i fun p => { p with status }

/-- Every step that waited is closed. -/
def closePending (phases : List Phase) : List Phase :=
  phases.map fun p => { p with
    steps := p.steps.map fun s => if s.status = .pending then { s with status := .skipped } else s }

def Detail.spot (d : Detail) (i j : Nat) : Option Spot :=
  d.phases[i]?.bind fun p => p.steps[j]?.map fun s =>
    (if p.name = "" then p.phase.value else p.name, s.step, s.key)

/-- The function of a step on the detail; `none`, where it cannot end so. -/
def work (d : Detail) (done : List Key) (i : Nat) (step : StepName) (a : Answer) :
    Option (Detail × Option Outcome) :=
  match step, a with
  | .inventory, .found f =>
    match d.phases with
    | [] => none
    | first :: _ => some ({ d with
        inventory := some f
        phases := plannedPhases first d.previousPhases f }, some {})
  | .evaluate, .outcome _ =>
    match d.inventory with
    | none => none
    | some f =>
      let blockers := (blocked f).filter fun b => stillBlocking b done
      if blockers = [] then some ({ d with blockers }, some {}) else none
  | .sourceBackup, .file backup =>
    some ({ d with phases := d.phases.modify i fun p => { p with backup } }, some {})
  | .register, .created application =>
    some ({ d with phases := d.phases.modify i fun p =>
      if p.targetApplication = "" then { p with targetApplication := application } else p }, some {})
  | .inventory, _ => none
  | .evaluate, _ => none
  | .sourceBackup, _ => none
  | .register, _ => none
  | _, .outcome o => some (d, o)
  | _, _ => none

/-- A step that was done in an earlier attempt. -/
def Step.recall (s : Step) : Step := { s with status := .skipped, reason := some .doneBefore }

/-- A step whose work has come back. -/
def Step.finish (outcome : Option Outcome) (s : Step) : Step :=
  { s with
    status := if outcome.isNone then .skipped else .succeeded
    warning := (outcome.bind Outcome.warning).or s.warning }

/-- The statements that touch the memory of the process only. -/
def Move.goOn (m : Move) : Option Move :=
  match m.place with
  | .starting => some { m with place := .phases 0 }
  | .phases i =>
    match m.detail.phases[i]? with
    | none => some { m with place := .finished i }
    | some p =>
      if m.detail.rehearsal ∧ p.phase ≠ .plan then some { m with place := .finished i }
      else some { m with
        detail := { m.detail with phases := setStatus i .running m.detail.phases }
        place := .entered i }
  | .steps i j =>
    match stepAt m.detail.phases i j with
    | none => some { m with
        detail := { m.detail with
          phases := setStatus i .succeeded m.detail.phases
          current := none }
        place := .over i }
    | some (h, s) =>
      if s.status = .skipped then some { m with place := .steps i (j + 1) }
      else if keyOf h s ∈ m.done then some { m with
        detail := { m.detail with phases := setStep i j Step.recall m.detail.phases }
        stale := true
        place := .steps i (j + 1) }
      else some { m with
        detail := { m.detail with
          phases := setStep i j (fun s => { s with status := .running }) m.detail.phases
          current := m.detail.spot i j }
        place := .marked i j }
  | .holding i j => some { m with place := .working i j }
  | .returned i j outcome => some { m with
      detail := { m.detail with phases := setStep i j (Step.finish outcome) m.detail.phases }
      stale := true
      place := .worked i j }
  | _ => none

/-- The step that ends as done with the next statement, one of the plan apart. -/
def Move.ends (m : Move) : List Key :=
  match m.place with
  | .returned i j (some _) =>
    match stepAt m.detail.phases i j with
    | some (h, s) => if h.phase = .plan then [] else [keyOf h s]
    | none => []
  | _ => []

/-- `progress`: the detail is stored, at the head of a phase only where it has not been for a while. -/
def Move.afterProgress (m : Move) (stored : Bool) : Option Place :=
  match m.place with
  | .entered i => some (.steps i 0)
  | .marked i j => if stored then some (.holding i j) else none
  | .worked i j => if stored then some (.steps i (j + 1)) else none
  | .over i => if stored then some (.phases (i + 1)) else none
  | _ => none

/-- An exception in the work of a step. -/
def Move.failStep (m : Move) (i j : Nat) : Move :=
  { m with
    detail := { m.detail with
      phases := closePending (setStatus i .failed
        (setStep i j (fun s => { s with status := .failed }) m.detail.phases))
      failedStep := m.detail.spot i j
      current := none }
    place := .failing }

/-- An exception, where the process is. -/
def Move.raise (m : Move) : Option Move :=
  match m.place with
  | .working i j => some (m.failStep i j)
  | .returned i j _ => some (m.failStep i j)
  | .starting => some { m with place := .failing }
  | .entered _ => some { m with place := .failing }
  | .marked _ _ => some { m with place := .failing }
  | .holding _ _ => some { m with place := .failing }
  | .worked _ _ => some { m with place := .failing }
  | .over _ => some { m with place := .failing }
  | _ => none

/-- What the backup of the source stores on its way: the detail as it was when the job began, whose plan
    is the one phase that every attempt begins with. -/
def Detail.asBegun (d : Detail) : Detail :=
  { d with
    phases := d.phases.take 1
    inventory := none
    blockers := []
    current := none
    failedStep := none }

/-! ## 5. The chain of attempts -/

/-- The event of the attempt at hand and its process; `ended` is what has ended as done in this attempt,
    `earlier` what had in those before it, the steps of the plan phase apart, which every attempt takes
    again. -/
structure Chain where
  event : JobEvent Detail
  move : Option Move := none
  ended : List Key := []
  earlier : List Key := []

/-- The first attempt. -/
def Chain.first (source target : String) (rehearsal : Bool) (choices : List Choice) : Chain where
  event := queued { sourceServer := source, targetServer := target, rehearsal, choices }

/-- What may happen next. -/
inductive Action
  /-- `start`, of the event that is at hand. -/
  | resume (rehearsal : Bool)
  /-- The runner does not take the job. -/
  | unsent
  | launch
  | goOn
  | progress (stored : Bool)
  /-- The progress of a carrier. -/
  | carried (stored : Bool)
  /-- The progress of the backup of the source. -/
  | backupProgress
  | answer (a : Answer)
  | raise
  /-- `jobs.succeed` or `jobs.fail`. -/
  | close
  | die
  | sweep

/-- Without a process. -/
def Chain.idle (c : Chain) : Action → Option Chain
  | .resume rehearsal =>
    if resumable c.event c.event.data.sourceServer c.event.data.targetServer then
      some {
        event := queued (resumed c.event.data rehearsal)
        earlier := c.earlier ++ c.ended }
    else none
  | .unsent =>
    if c.event.status = .queued then some { c with event := c.event.fail none } else none
  | .launch =>
    if c.event.status = .queued then
      c.event.start.map fun event => { c with
        event
        move := some { detail := event.data, done := event.data.doneBefore } }
    else none
  | .sweep => some { c with event := c.event.interrupt }
  | _ => none

def Chain.stored (c : Chain) (m : Move) (place : Place) : Chain :=
  { c with event := c.event.progress m.detail, move := some { m with place, stale := false } }

/-- With one. -/
def Chain.act (c : Chain) (m : Move) : Action → Option Chain
  | .goOn => m.goOn.map fun m' => { c with move := some m', ended := c.ended ++ m.ends }
  | .progress stored =>
    (m.afterProgress stored).map fun place =>
      if stored then c.stored m place else { c with move := some { m with place } }
  | .carried stored =>
    match m.place with
    | .working _ _ => if stored then some (c.stored m m.place) else some c
    | _ => none
  | .backupProgress =>
    match m.place with
    | .working i j =>
      match stepAt m.detail.phases i j with
      | some (_, s) =>
        if s.step = .sourceBackup then
          some { c with
            event := c.event.progress m.detail.asBegun
            move := some { m with stale := true } }
        else none
      | none => none
    | _ => none
  | .answer a =>
    match m.place with
    | .working i j =>
      match stepAt m.detail.phases i j with
      | some (_, s) =>
        (work m.detail m.done i s.step a).map fun r =>
          { c with move := some { m with detail := r.1, place := .returned i j r.2 } }
      | none => none
    | _ => none
  | .raise => m.raise.map fun m' => { c with move := some m' }
  | .close =>
    match m.place with
    | .finished _ => some { c with event := c.event.succeed m.detail, move := none }
    | .failing => some { c with event := c.event.fail (some m.detail), move := none }
    | _ => none
  | .die => some { c with move := none }
  | _ => none

/-- One statement of the attempt. -/
def step (c : Chain) (a : Action) : Option Chain :=
  match c.move with
  | none => c.idle a
  | some m => c.act m a

/-! ## 6. Where an attempt may be broken off -/

def plannedOf (d : Detail) : List Phase :=
  match d.inventory with
  | none => [planPhase]
  | some found => plannedPhases planPhase d.previousPhases found

/-- The first step that the process has not come past. -/
def Place.front : Place → Nat × Nat
  | .starting => (0, 0)
  | .phases i => (i, 0)
  | .entered i => (i, 0)
  | .steps i j => (i, j)
  | .marked i j => (i, j + 1)
  | .holding i j => (i, j + 1)
  | .working i j => (i, j + 1)
  | .returned i j _ => (i, j + 1)
  | .worked i j => (i, j + 1)
  | .over i => (i + 1, 0)
  | .finished i => (i, 0)
  | .failing => (0, 0)

/-- The keys of the steps to be taken, those of the plan phase apart. -/
def pendingOf (p : Phase) : List Key :=
  if p.phase = .plan then [] else (p.steps.filter fun s => s.status = .pending).map (stepKey p)

/-- Those before a place. -/
def pendingBefore (phases : List Phase) (i j : Nat) : List Key :=
  (phases.take i).flatMap pendingOf ++
    (phases[i]?.toList).flatMap fun p => pendingOf { p with steps := p.steps.take j }

/-- The inventory of this attempt plans every step that was taken over as done, as one to be taken, and
    the process has come past them all. -/
def Move.isPast (m : Move) : Bool :=
  m.done.all fun k =>
    (pendingBefore (plannedOf m.detail) m.place.front.1 m.place.front.2).contains k

/-- **The condition**: an attempt is broken off behind what it took over, and its process does not die
    before what it did is stored. -/
def comesPast (c : Chain) : Action → Bool
  | .raise => c.move.all Move.isPast
  | .die => c.move.all fun m => (m.place = .failing || m.isPast) && !m.stale
  | .unsent => c.event.data.doneBefore.isEmpty
  | .sweep => c.event.status ≠ .queued || c.event.data.doneBefore.isEmpty
  | _ => true

/-! ## 7. The steps by their places -/

variable {ps qs : List Phase} {i j i' j' : Nat} {h : Head} {s : Step} {k : Key}

theorem stepAt_eq_some : stepAt ps i j = some (h, s) ↔
    ∃ p, ps[i]? = some p ∧ p.steps[j]? = some s ∧ p.head = h := by
  unfold stepAt
  constructor
  · intro hat
    obtain ⟨p, hp, hat⟩ := Option.bind_eq_some_iff.mp hat
    obtain ⟨t, ht, he⟩ := Option.map_eq_some_iff.mp hat
    cases he
    exact ⟨p, hp, ht, rfl⟩
  · rintro ⟨p, hp, hs, rfl⟩
    rw [hp, Option.bind_some, hs, Option.map_some]

/-- A phase is changed and keeps its head; its steps are changed one by one. -/
theorem stepAt_modify {g : Phase → Phase} {f : Nat → Step → Step} (hhead : ∀ p, (g p).head = p.head)
    (hsteps : ∀ p j, (g p).steps[j]? = p.steps[j]?.map (f j)) :
    stepAt (ps.modify i g) i' j' =
      (stepAt ps i' j').map fun x => if i = i' then (x.1, f j' x.2) else x := by
  unfold stepAt
  rw [List.getElem?_modify]
  cases ps[i']? with
  | none => rfl
  | some p =>
    by_cases hi : i = i'
    · simp only [hi, if_true, Option.map_eq_map, Option.map_some, Option.bind_some, hhead, hsteps,
        Option.map_map]
      rfl
    · simp only [hi, if_false, Option.map_eq_map, Option.map_some, Option.bind_some,
        Option.map_id_fun', id]

theorem stepAt_setStep {f : Step → Step} : stepAt (setStep i j f ps) i' j' =
    (stepAt ps i' j').map fun x => if i = i' ∧ j = j' then (x.1, f x.2) else x := by
  rw [setStep, stepAt_modify (g := fun p => { p with steps := p.steps.modify j f })
    (f := fun j' s => if j = j' then f s else s) (fun _ => rfl)
    (fun p j' => List.getElem?_modify f j p.steps j')]
  congr 1
  funext x
  by_cases hi : i = i' <;> by_cases hj : j = j' <;> simp [hi, hj]

/-- What is not of a step leaves the steps alone. -/
theorem stepAt_keep {g : Phase → Phase} (hhead : ∀ p, (g p).head = p.head)
    (hsteps : ∀ p, (g p).steps = p.steps) : stepAt (ps.modify i g) i' j' = stepAt ps i' j' := by
  rw [stepAt_modify (f := fun _ s => s) hhead (fun p j => by rw [hsteps]; simp)]
  simp

theorem stepAt_setStatus {status : Status} :
    stepAt (setStatus i status ps) i' j' = stepAt ps i' j' :=
  stepAt_keep (fun _ => rfl) (fun _ => rfl)

theorem stepAt_closePending : stepAt (closePending ps) i j =
    (stepAt ps i j).map fun x =>
      (x.1, if x.2.status = .pending then { x.2 with status := .skipped } else x.2) := by
  unfold stepAt closePending
  rw [List.getElem?_map]
  cases ps[i]? with
  | none => rfl
  | some p =>
    simp only [Option.map_some, Option.bind_some, List.getElem?_map, Option.map_map]
    rfl

/-- Behind the last step of a phase there is none. -/
theorem stepAt_none_of_le (hn : stepAt ps i j = none) (hj : j ≤ j') : stepAt ps i j' = none := by
  unfold stepAt at hn ⊢
  cases hp : ps[i]? with
  | none => rfl
  | some p =>
    rw [hp, Option.bind_some, Option.map_eq_none_iff, List.getElem?_eq_none_iff] at hn
    rw [Option.bind_some, Option.map_eq_none_iff, List.getElem?_eq_none_iff]
    exact hn.trans hj

theorem mem_counted : k ∈ counted ps ↔
    ∃ i j h s, stepAt ps i j = some (h, s) ∧ h.phase ≠ .plan ∧ s.isDone = true ∧ keyOf h s = k := by
  unfold counted countedOf
  rw [List.mem_flatMap]
  constructor
  · rintro ⟨p, hp, hk⟩
    obtain ⟨i, hi⟩ := List.mem_iff_getElem?.mp hp
    by_cases hplan : p.phase = .plan
    · rw [if_pos hplan] at hk
      cases hk
    · rw [if_neg hplan] at hk
      obtain ⟨s, hs, rfl⟩ := List.mem_map.mp hk
      obtain ⟨hs, hd⟩ := List.mem_filter.mp hs
      obtain ⟨j, hj⟩ := List.mem_iff_getElem?.mp hs
      exact ⟨i, j, p.head, s, stepAt_eq_some.mpr ⟨p, hi, hj, rfl⟩, hplan, hd, rfl⟩
  · rintro ⟨i, j, h, s, hat, hplan, hd, rfl⟩
    obtain ⟨p, hp, hs, rfl⟩ := stepAt_eq_some.mp hat
    refine ⟨p, List.mem_of_getElem? hp, ?_⟩
    rw [if_neg (show p.phase ≠ .plan from hplan)]
    exact List.mem_map.mpr ⟨s, List.mem_filter.mpr ⟨List.mem_of_getElem? hs, hd⟩, rfl⟩

/-- The place of a step before another. -/
def Before (i j : Nat) (f : Nat × Nat) : Prop := i < f.1 ∨ i = f.1 ∧ j < f.2

theorem mem_pendingOf {p : Phase} : k ∈ pendingOf p ↔
    p.phase ≠ .plan ∧ ∃ s ∈ p.steps, s.status = .pending ∧ stepKey p s = k := by
  unfold pendingOf
  by_cases hplan : p.phase = .plan
  · simp [hplan]
  · simp [hplan, and_assoc]

theorem mem_pendingBefore (hk : k ∈ pendingBefore qs i j) :
    ∃ i' j' h s, Before i' j' (i, j) ∧ stepAt qs i' j' = some (h, s) ∧ h.phase ≠ .plan ∧
      s.status = .pending ∧ keyOf h s = k := by
  rcases List.mem_append.mp hk with hk | hk
  · obtain ⟨p, hp, hk⟩ := List.mem_flatMap.mp hk
    obtain ⟨i', hi', hp⟩ := List.mem_take_iff_getElem.mp hp
    obtain ⟨hplan, s, hs, hpend, rfl⟩ := mem_pendingOf.mp hk
    obtain ⟨j', hj'⟩ := List.mem_iff_getElem?.mp hs
    exact ⟨i', j', p.head, s, .inl (by omega),
      stepAt_eq_some.mpr ⟨p, List.getElem?_eq_some_iff.mpr ⟨by omega, hp⟩, hj', rfl⟩, hplan, hpend, rfl⟩
  · obtain ⟨p, hp, hk⟩ := List.mem_flatMap.mp hk
    obtain ⟨hplan, s, hs, hpend, rfl⟩ := mem_pendingOf.mp hk
    obtain ⟨j', hj', hs⟩ := List.mem_take_iff_getElem.mp hs
    exact ⟨i, j', p.head, s, .inr ⟨rfl, by omega⟩,
      stepAt_eq_some.mpr ⟨p, Option.mem_toList.mp hp,
        List.getElem?_eq_some_iff.mpr ⟨by omega, hs⟩, rfl⟩, hplan, hpend, rfl⟩

/-! ## 8. The plan, and how far the process has come -/

/-- What a step of a plan is like that nothing has touched; only the plan phase looks at the servers. -/
structure Untouched (s : Step) : Prop where
  reason : s.reason = none
  status : s.status = .pending ∨ s.status = .skipped
  step : s.step ≠ .inventory

theorem untouched_wanted {c : Bool} (hs : Untouched s) : ∀ t ∈ wanted c s, Untouched t := by
  intro t ht
  unfold wanted at ht
  split at ht
  · exact List.mem_singleton.mp ht ▸ hs
  · cases ht

theorem untouched_carried {step : StepName} {loads : List Load} (hs : step ≠ .inventory) :
    ∀ t ∈ carried step loads, Untouched t := by
  intro t ht
  obtain ⟨l, -, rfl⟩ := List.mem_map.mp ht
  exact ⟨rfl, .inl rfl, hs⟩

theorem pendingIf_cases (c : Bool) : pendingIf c = .pending ∨ pendingIf c = .skipped := by
  cases c with
  | true => exact .inl rfl
  | false => exact .inr rfl

theorem untouched_applicationSteps (plan : Plan) : ∀ s ∈ applicationSteps plan, Untouched s := by
  unfold applicationSteps
  repeat' refine List.forall_mem_append.mpr ⟨?_, ?_⟩
  all_goals first
    | exact untouched_wanted ⟨rfl, .inl rfl, nofun⟩
    | exact untouched_carried nofun
    | exact List.forall_mem_singleton.mpr ⟨rfl, .inl rfl, nofun⟩
    | exact List.forall_mem_singleton.mpr ⟨rfl, pendingIf_cases _, nofun⟩

theorem untouched_prepareSteps (found : Found) : ∀ s ∈ prepareSteps found, Untouched s := by
  intro s hs
  obtain ⟨step, hstep, rfl⟩ := List.mem_map.mp hs
  refine ⟨rfl, pendingIf_cases _, ?_⟩
  rintro rfl
  revert hstep
  decide

/-- Behind the plan phase. -/
theorem planned_succ {first : Phase} {previous : List Phase} {found : Found}
    (hat : stepAt (plannedPhases first previous found) (i + 1) j = some (h, s)) :
    Untouched s ∧ h.phase ≠ .plan := by
  obtain ⟨p, hp, hs, rfl⟩ := stepAt_eq_some.mp hat
  have hmem := List.mem_of_getElem? hs
  rw [plannedPhases, List.getElem?_cons_succ] at hp
  rcases List.mem_cons.mp (List.mem_of_getElem? hp) with rfl | hp
  · exact ⟨untouched_prepareSteps found s hmem, nofun⟩
  · obtain ⟨plan, -, rfl⟩ := List.mem_map.mp hp
    exact ⟨untouched_applicationSteps plan s hmem, nofun⟩

theorem plan_zero (hat : stepAt [planPhase] i j = some (h, s)) : i = 0 := by
  cases i with
  | zero => rfl
  | succ i => cases hat

variable {d : Detail}

theorem planned_looks (hat : stepAt (plannedOf d) i j = some (h, s)) (hi : 0 < i) :
    s.step ≠ .inventory := by
  unfold plannedOf at hat
  cases hd : d.inventory with
  | none =>
    rw [hd] at hat
    exact absurd (plan_zero hat) hi.ne'
  | some found =>
    rw [hd] at hat
    obtain ⟨i, rfl⟩ := Nat.exists_eq_succ_of_ne_zero hi.ne'
    exact (planned_succ hat).1.step

theorem planned_status (hat : stepAt (plannedOf d) i j = some (h, s)) :
    s.reason = none ∧ (s.status = .pending ∨ s.status = .skipped) := by
  have hplan : ∀ s ∈ planPhase.steps, s.reason = none ∧ s.status = .pending := by decide
  have hzero : stepAt [planPhase] 0 j = some (h, s) →
      s.reason = none ∧ (s.status = .pending ∨ s.status = .skipped) := by
    intro hat
    obtain ⟨p, hp, hs, -⟩ := stepAt_eq_some.mp hat
    cases hp
    obtain ⟨hr, hst⟩ := hplan s (List.mem_of_getElem? hs)
    exact ⟨hr, .inl hst⟩
  unfold plannedOf at hat
  cases hd : d.inventory with
  | none =>
    rw [hd] at hat
    obtain rfl := plan_zero hat
    exact hzero hat
  | some found =>
    rw [hd] at hat
    cases i with
    | zero => exact hzero hat
    | succ i =>
      have hu := (planned_succ hat).1
      exact ⟨hu.reason, hu.status⟩

/-- What no statement changes of a step. -/
def skeleton (x : Head × Step) : Head × StepName × String := (x.1, x.2.step, x.2.key)

theorem keyOf_skeleton {x y : Head × Step} (hxy : skeleton x = skeleton y) :
    x.1 = y.1 ∧ keyOf x.1 x.2 = keyOf y.1 y.2 := by
  obtain ⟨h1, h2⟩ := Prod.mk.inj hxy
  obtain ⟨h2, h3⟩ := Prod.mk.inj h2
  exact ⟨h1, by rw [keyOf, keyOf, h1, h2, h3]⟩

/-- **How far the process has come**: from the front on the steps are as planned; before it, each step
    that was to be taken and had been done before is marked so. -/
structure Walked (planned phases : List Phase) (done : List Key) (f : Nat × Nat) : Prop where
  same : ∀ i j, (stepAt phases i j).map skeleton = (stepAt planned i j).map skeleton
  ahead : ∀ i j, ¬ Before i j f → stepAt phases i j = stepAt planned i j
  behind : ∀ i j h t, stepAt planned i j = some (h, t) → Before i j f → t.status = .pending →
    keyOf h t ∈ done → h.phase ≠ .plan →
    ∃ s, stepAt phases i j = some (h, s) ∧ s.reason = some .doneBefore

/-- A change of a step that keeps its name and its key. -/
def Steady (f : Step → Step) : Prop := ∀ s, (f s).step = s.step ∧ (f s).key = s.key

variable {done : List Key} {f : Step → Step}

theorem skeleton_setStep (hf : Steady f) :
    (stepAt (setStep i j f ps) i' j').map skeleton = (stepAt ps i' j').map skeleton := by
  rw [stepAt_setStep, Option.map_map]
  congr 1
  funext x
  by_cases hc : i = i' ∧ j = j'
  · simp only [Function.comp, if_pos hc, skeleton, (hf x.2).1, (hf x.2).2]
  · simp only [Function.comp, if_neg hc]

theorem stepAt_setStep_ne (hne : ¬ (i = i' ∧ j = j')) :
    stepAt (setStep i j f ps) i' j' = stepAt ps i' j' := by
  rw [stepAt_setStep]
  simp only [if_neg hne]
  exact Option.map_id_fun' ▸ rfl

theorem stepAt_setStep_self (hat : stepAt ps i j = some (h, s)) :
    stepAt (setStep i j f ps) i j = some (h, f s) := by
  rw [stepAt_setStep, hat]
  simp

variable {g : Nat × Nat}

theorem Walked.congr {rs : List Phase} (hw : Walked qs ps done g)
    (hrs : ∀ i j, stepAt rs i j = stepAt ps i j) : Walked qs rs done g :=
  ⟨fun i j => hrs i j ▸ hw.same i j, fun i j hb => (hrs i j).trans (hw.ahead i j hb),
    fun i j h t ht hb hp hk hplan => hrs i j ▸ hw.behind i j h t ht hb hp hk hplan⟩

/-- The step at the front is come past. -/
theorem Walked.advance (hw : Walked qs ps done (i, j)) (hf : Steady f)
    (hreason : ∀ h s, stepAt ps i j = some (h, s) → s.status = .pending → keyOf h s ∈ done →
      h.phase ≠ .plan → (f s).reason = some .doneBefore) :
    Walked qs (setStep i j f ps) done (i, j + 1) := by
  refine ⟨fun i' j' => (skeleton_setStep hf).trans (hw.same i' j'), ?_, ?_⟩
  · intro i' j' hb
    have hne : ¬ (i = i' ∧ j = j') := by
      rintro ⟨rfl, rfl⟩
      exact hb (.inr ⟨rfl, Nat.lt_succ_self j⟩)
    rw [stepAt_setStep_ne hne]
    refine hw.ahead i' j' fun hb' => hb ?_
    rcases hb' with hb' | ⟨rfl, hb'⟩
    · exact .inl hb'
    · exact .inr ⟨rfl, Nat.lt_succ_of_lt hb'⟩
  · intro i' j' h t ht hb hp hk hplan
    by_cases he : i = i' ∧ j = j'
    · obtain ⟨rfl, rfl⟩ := he
      have hat := (hw.ahead i j (by unfold Before; omega)).trans ht
      exact ⟨f t, stepAt_setStep_self hat, hreason h t hat hp hk hplan⟩
    · rw [stepAt_setStep_ne he]
      refine hw.behind i' j' h t ht ?_ hp hk hplan
      rcases hb with hb | ⟨hi, hb⟩
      · exact .inl hb
      · exact .inr ⟨hi, by simp only at hi hb ⊢; omega⟩

/-- A step before the front is changed, not its reason. -/
theorem Walked.amend (hw : Walked qs ps done g) (hf : Steady f)
    (hreason : ∀ s, (f s).reason = s.reason) (hb : Before i j g) :
    Walked qs (setStep i j f ps) done g := by
  refine ⟨fun i' j' => (skeleton_setStep hf).trans (hw.same i' j'), ?_, ?_⟩
  · intro i' j' hb'
    have hne : ¬ (i = i' ∧ j = j') := by
      rintro ⟨rfl, rfl⟩
      exact hb' hb
    rw [stepAt_setStep_ne hne]
    exact hw.ahead i' j' hb'
  · intro i' j' h t ht hb' hp hk hplan
    obtain ⟨s, hs, hr⟩ := hw.behind i' j' h t ht hb' hp hk hplan
    by_cases he : i = i' ∧ j = j'
    · obtain ⟨rfl, rfl⟩ := he
      exact ⟨f s, stepAt_setStep_self hs, (hreason s).trans hr⟩
    · exact ⟨s, (stepAt_setStep_ne he).trans hs, hr⟩

/-- A phase is at its end. -/
theorem Walked.nextPhase (hw : Walked qs ps done (i, j)) (hn : stepAt ps i j = none) :
    Walked qs ps done (i + 1, 0) := by
  refine ⟨hw.same, ?_, ?_⟩
  · intro i' j' hb
    refine hw.ahead i' j' fun hb' => hb ?_
    rcases hb' with hb' | ⟨rfl, -⟩
    · exact .inl (Nat.lt_succ_of_lt hb')
    · exact .inl (Nat.lt_succ_self _)
  · intro i' j' h t ht hb hp hk hplan
    refine hw.behind i' j' h t ht ?_ hp hk hplan
    unfold Before at hb ⊢
    by_cases hi : i' < i
    · exact .inl hi
    · have hi : i' = i := by simp only at hb; omega
      subst hi
      refine .inr ⟨rfl, ?_⟩
      refine Nat.lt_of_not_le fun hj => ?_
      have hnone := (hw.ahead i' j' (by unfold Before; simp only; omega)).symm.trans
        (stepAt_none_of_le hn hj)
      rw [ht] at hnone
      cases hnone

/-- What was taken over and come past is counted. -/
theorem Walked.counted (hw : Walked qs ps done g) (hk : k ∈ done)
    (hpast : k ∈ pendingBefore qs g.1 g.2) : k ∈ counted ps := by
  obtain ⟨i, j, h, t, hb, ht, hplan, hp, rfl⟩ := mem_pendingBefore hpast
  obtain ⟨s, hs, hr⟩ := hw.behind i j h t ht hb hp hk hplan
  have hsame := hw.same i j
  rw [hs, ht] at hsame
  refine mem_counted.mpr ⟨i, j, h, s, hs, hplan, ?_, ?_⟩
  · rw [Step.isDone, hr]
    exact Bool.or_true _
  · exact (keyOf_skeleton (Option.some.inj hsame)).2

/-! ## 9. What the next attempt counts -/

theorem isDone_eq_false (hr : s.reason = none) (hs : s.status ≠ .succeeded) : s.isDone = false := by
  rw [Step.isDone, hr]
  simp [hs]

theorem counted_subset
    (hsub : ∀ i j h s, stepAt ps i j = some (h, s) → s.isDone = true →
      ∃ t, stepAt qs i j = some (h, t) ∧ t.isDone = true ∧ keyOf h t = keyOf h s) :
    counted ps ⊆ counted qs := by
  intro k hk
  obtain ⟨i, j, h, s, hat, hplan, hd, rfl⟩ := mem_counted.mp hk
  obtain ⟨t, ht, htd, hkey⟩ := hsub i j h s hat hd
  exact mem_counted.mpr ⟨i, j, h, t, ht, hplan, htd, hkey⟩

theorem counted_congr (hrs : ∀ i j, stepAt ps i j = stepAt qs i j) : counted ps ⊆ counted qs :=
  counted_subset fun i j _ s hat hd => ⟨s, (hrs i j).symm.trans hat, hd, rfl⟩

theorem keyOf_steady (hf : Steady f) : keyOf h (f s) = keyOf h s := by
  rw [keyOf, keyOf, (hf s).1, (hf s).2]

theorem counted_setStep (hf : Steady f)
    (hdone : ∀ h s, stepAt ps i j = some (h, s) → s.isDone = true → (f s).isDone = true) :
    counted ps ⊆ counted (setStep i j f ps) := by
  refine counted_subset fun i' j' h s hat hd => ?_
  by_cases he : i = i' ∧ j = j'
  · obtain ⟨rfl, rfl⟩ := he
    exact ⟨f s, stepAt_setStep_self hat, hdone h s hat hd, keyOf_steady hf⟩
  · exact ⟨s, (stepAt_setStep_ne he).trans hat, hd, rfl⟩

theorem counted_of_setStep (hf : Steady f)
    (hdone : ∀ h s, stepAt ps i j = some (h, s) → (f s).isDone = true → s.isDone = true) :
    counted (setStep i j f ps) ⊆ counted ps := by
  refine counted_subset fun i' j' h s hat hd => ?_
  by_cases he : i = i' ∧ j = j'
  · obtain ⟨rfl, rfl⟩ := he
    rw [stepAt_setStep] at hat
    obtain ⟨⟨h', t⟩, ht, hx⟩ := Option.map_eq_some_iff.mp hat
    rw [if_pos ⟨rfl, rfl⟩] at hx
    cases hx
    exact ⟨t, ht, hdone _ t ht hd, (keyOf_steady hf).symm⟩
  · exact ⟨s, (stepAt_setStep_ne he).symm.trans hat, hd, rfl⟩

/-- A step that waited is closed. -/
def Step.closed (s : Step) : Step := if s.status = .pending then { s with status := .skipped } else s

theorem closed_isDone : s.closed.isDone = s.isDone := by
  unfold Step.closed
  by_cases hp : s.status = .pending
  · simp [hp, Step.isDone]
  · simp [hp]

theorem closed_key : keyOf h s.closed = keyOf h s := by
  unfold Step.closed
  by_cases hp : s.status = .pending
  · simp [hp, keyOf]
  · simp [hp]

theorem counted_closePending : counted ps ⊆ counted (closePending ps) :=
  counted_subset fun i j h s hat hd =>
    ⟨s.closed, by rw [stepAt_closePending, hat]; rfl, closed_isDone.trans hd, closed_key⟩

theorem counted_of_closePending : counted (closePending ps) ⊆ counted ps := by
  refine counted_subset fun i j h s hat hd => ?_
  rw [stepAt_closePending] at hat
  obtain ⟨⟨h', t⟩, ht, hx⟩ := Option.map_eq_some_iff.mp hat
  cases hx
  exact ⟨t, ht, closed_isDone.symm.trans hd, closed_key.symm⟩

/-! ## 10. What every statement keeps -/

/-- The step at work. -/
def Place.current : Place → Option (Nat × Nat)
  | .marked i j => some (i, j)
  | .holding i j => some (i, j)
  | .working i j => some (i, j)
  | .returned i j _ => some (i, j)
  | _ => none

/-- The steps stand as the place says. -/
structure Walking (m : Move) : Prop where
  walked : Walked (plannedOf m.detail) m.detail.phases m.done m.place.front
  present : ∀ i j, m.place.current = some (i, j) →
    ∃ h s, stepAt m.detail.phases i j = some (h, s) ∧ s.status = .running ∧ s.reason = none

variable {c c' : Chain} {m m' : Move}

/-- A process and the event of its job. -/
structure Working (c : Chain) (m : Move) : Prop where
  running : c.event.status = .running
  begun : m.detail.doneBefore = c.event.data.doneBefore
  done : m.done = m.detail.doneBefore
  kept : c.ended ⊆ counted m.detail.phases
  planning : m.place ≠ .failing → m.place.front.1 = 0 → c.ended = []
  stored : m.stale = false → counted m.detail.phases ⊆ counted c.event.data.phases
  walking : m.place ≠ .failing → Walking m
  past : m.place = .failing → m.done ⊆ counted m.detail.phases

/-- The step at work is not counted. -/
theorem Walking.not_done (hw : Walking m) (hc : m.place.current = some (i, j))
    (hat : stepAt m.detail.phases i j = some (h, s)) : s.isDone = false := by
  obtain ⟨h', s', hat', hrun, hr⟩ := hw.present i j hc
  rw [hat] at hat'
  cases hat'
  exact isDone_eq_false hr (by rw [hrun]; nofun)

theorem planned_zero (hat : stepAt (plannedOf d) 0 j = some (h, s)) : h.phase = .plan := by
  unfold plannedOf at hat
  cases hd : d.inventory with
  | none | some _ =>
    rw [hd] at hat
    obtain ⟨p, hp, -, rfl⟩ := stepAt_eq_some.mp hat
    cases hp
    rfl

/-- A step as it is and as it was planned. -/
theorem Walked.planned (hw : Walked (plannedOf d) ps done g) (hat : stepAt ps i j = some (h, s)) :
    ∃ t, stepAt (plannedOf d) i j = some (h, t) ∧ t.step = s.step := by
  have hsame := hw.same i j
  rw [hat] at hsame
  obtain ⟨⟨h', t⟩, ht, hx⟩ := Option.map_eq_some_iff.mp hsame.symm
  obtain ⟨hh, hx⟩ := Prod.mk.inj hx
  obtain rfl : h' = h := hh
  exact ⟨t, ht, (Prod.mk.inj hx).1⟩

theorem steady_recall : Steady Step.recall := fun _ => ⟨rfl, rfl⟩

variable {o : Option Outcome}

theorem steady_finish : Steady (Step.finish o) := fun _ => ⟨rfl, rfl⟩

theorem steady_status {status : Status} : Steady fun s => { s with status } := fun _ => ⟨rfl, rfl⟩

theorem steady_id : Steady id := fun _ => ⟨rfl, rfl⟩

theorem stepAt_setStep_id : stepAt (setStep i j id ps) i' j' = stepAt ps i' j' := by
  rw [stepAt_setStep]
  have hid : (fun x : Head × Step => if i = i' ∧ j = j' then (x.1, id x.2) else x) = id := by
    funext x
    exact ite_self x
  rw [hid, Option.map_id]
  rfl

/-- The next state of a process that stays on its way. -/
theorem Working.next (hw : Working c m) (hplace : m'.place ≠ .failing) (hbefore : m.place ≠ .failing)
    {new : List Key} (hdone : m'.done = m.done) (hbegun : m'.detail.doneBefore = m.detail.doneBefore)
    (hfront : m.place.front.1 ≤ m'.place.front.1)
    (hkept : counted m.detail.phases ⊆ counted m'.detail.phases)
    (hnew : new ⊆ counted m'.detail.phases) (hplan : m'.place.front.1 = 0 → new = [])
    (hstored : m'.stale = false →
      m.stale = false ∧ counted m'.detail.phases ⊆ counted m.detail.phases)
    (hwalking : Walking m') : Working { c with move := some m', ended := c.ended ++ new } m' where
  running := hw.running
  begun := hbegun.trans hw.begun
  done := by rw [hdone, hbegun, hw.done]
  kept := List.append_subset.mpr ⟨List.Subset.trans hw.kept hkept, hnew⟩
  planning := fun _ h0 => by
    rw [hw.planning hbefore (by omega), hplan h0]
    rfl
  stored := fun hs => List.Subset.trans (hstored hs).2 (hw.stored (hstored hs).1)
  walking := fun _ => hwalking
  past := fun hf => absurd hf hplace

theorem Move.ends_of_ne (hp : ∀ i j o, m.place ≠ .returned i j o) : m.ends = [] := by
  unfold Move.ends
  cases hm : m.place with
  | returned i j o => exact absurd hm (hp i j o)
  | _ => rfl

/-- A step that is looked at is as it was planned. -/
theorem Walking.ahead (hw : Walking m) (hp : m.place = .steps i j)
    (hat : stepAt m.detail.phases i j = some (h, s)) :
    s.reason = none ∧ (s.status = .pending ∨ s.status = .skipped) := by
  have hwalked := hw.walked
  rw [hp] at hwalked
  have hb : ¬ Before i j (i, j) := by
    unfold Before
    omega
  exact planned_status ((hwalked.ahead i j hb).symm.trans hat)

/-- No process goes on at a place where it ends a step, but where the work of one has returned. -/
theorem Working.moved {place : Place} (hw : Working c m) (hplace : place ≠ .failing)
    (hbefore : m.place ≠ .failing) (hends : m.ends = []) (hfront : m.place.front.1 ≤ place.front.1)
    (hwalking : Walking { m with place }) :
    Working { c with move := some { m with place }, ended := c.ended ++ m.ends } { m with place } := by
  refine hw.next hplace hbefore rfl rfl hfront (List.Subset.refl _) ?_ (fun _ => hends)
    (fun hs => ⟨hs, List.Subset.refl _⟩) hwalking
  rw [hends]
  exact List.nil_subset _

section GoOn

variable (hw : Working c m) (hm : m.goOn = some m')

include hw hm

theorem goOn_starting (hp : m.place = .starting) :
    Working { c with move := some m', ended := c.ended ++ m.ends } m' := by
  have hnofail : m.place ≠ .failing := by rw [hp]; nofun
  have hwalked := (hw.walking hnofail).walked
  rw [Move.goOn, hp] at hm
  rw [hp] at hwalked
  cases hm
  exact hw.moved nofun hnofail (Move.ends_of_ne (by rw [hp]; nofun))
    (by rw [hp]; exact Nat.le_refl _)
    ⟨hwalked, by intro _ _ hc; cases hc⟩

theorem goOn_holding (hp : m.place = .holding i j) :
    Working { c with move := some m', ended := c.ended ++ m.ends } m' := by
  have hnofail : m.place ≠ .failing := by rw [hp]; nofun
  have hwalk := hw.walking hnofail
  have hwalked := hwalk.walked
  have hpresent := hwalk.present
  rw [Move.goOn, hp] at hm
  rw [hp] at hwalked hpresent
  cases hm
  exact hw.moved nofun hnofail (Move.ends_of_ne (by rw [hp]; nofun)) (by rw [hp]; exact Nat.le_refl _)
    ⟨hwalked, hpresent⟩

/-- The next phase begins, or there is none that has to be worked. -/
theorem goOn_phases (hp : m.place = .phases i) :
    Working { c with move := some m', ended := c.ended ++ m.ends } m' := by
  have hnofail : m.place ≠ .failing := by rw [hp]; nofun
  have hends : m.ends = [] := Move.ends_of_ne (by rw [hp]; nofun)
  have hwalked := (hw.walking hnofail).walked
  rw [hp] at hwalked
  have hfinished : Working
      { c with move := some { m with place := .finished i }, ended := c.ended ++ m.ends }
      { m with place := .finished i } :=
    hw.moved nofun hnofail hends (by rw [hp]; exact Nat.le_refl _) ⟨hwalked, by intro _ _ hc; cases hc⟩
  rw [Move.goOn, hp] at hm
  cases hphase : m.detail.phases[i]? with
  | none =>
    simp only [hphase, Option.some.injEq] at hm
    subst hm
    exact hfinished
  | some p =>
    simp only [hphase] at hm
    split at hm
    · cases hm
      exact hfinished
    · cases hm
      refine hw.next (by intro hf; cases hf) hnofail rfl rfl (by rw [hp]; exact Nat.le_refl _)
        (counted_congr fun _ _ => stepAt_setStatus.symm) ?_ (fun _ => hends)
        (fun hs => ⟨hs, counted_congr fun _ _ => stepAt_setStatus⟩)
        ⟨hwalked.congr fun _ _ => stepAt_setStatus, by intro _ _ hc; cases hc⟩
      rw [hends]
      exact List.nil_subset _

/-- A step is looked at: it is left out, recalled, or begun; or the phase has none left. -/
theorem goOn_steps (hp : m.place = .steps i j) :
    Working { c with move := some m', ended := c.ended ++ m.ends } m' := by
  have hnofail : m.place ≠ .failing := by rw [hp]; nofun
  have hwalk := hw.walking hnofail
  have hwalked := hwalk.walked
  have hends : m.ends = [] := Move.ends_of_ne (by rw [hp]; nofun)
  have hnew : ∀ ps : List Phase, m.ends ⊆ counted ps := by
    intro ps
    rw [hends]
    exact List.nil_subset _
  have hfront : m.place.front.1 = i := by rw [hp]; rfl
  rw [Move.goOn, hp] at hm
  rw [hp] at hwalked
  cases hat : stepAt m.detail.phases i j with
  | none =>
    simp only [hat, Option.some.injEq] at hm
    subst hm
    exact hw.next (by intro hf; cases hf) hnofail rfl rfl (by rw [hfront]; exact Nat.le_succ i)
      (counted_congr fun _ _ => stepAt_setStatus.symm) (hnew _) (fun _ => hends)
      (fun hs => ⟨hs, counted_congr fun _ _ => stepAt_setStatus⟩)
      ⟨(hwalked.congr fun _ _ => stepAt_setStatus).nextPhase (stepAt_setStatus.trans hat),
        by intro _ _ hc; cases hc⟩
  | some x =>
    obtain ⟨h, s⟩ := x
    obtain ⟨hr, hs⟩ := hwalk.ahead hp hat
    simp only [hat] at hm
    have hundone : s.isDone = false :=
      isDone_eq_false hr (by rcases hs with hs | hs <;> rw [hs] <;> nofun)
    split at hm
    · -- the plan leaves the step out
      rename_i hskipped
      cases hm
      refine hw.next (by intro hf; cases hf) hnofail rfl rfl (by rw [hfront]; exact Nat.le_refl i)
        (List.Subset.refl _) (hnew _) (fun _ => hends) (fun hs => ⟨hs, List.Subset.refl _⟩)
        ⟨?_, by intro _ _ hc; cases hc⟩
      refine (hwalked.advance steady_id ?_).congr fun _ _ => stepAt_setStep_id.symm
      intro h' s' hat' hpending
      rw [hat] at hat'
      cases hat'
      rw [hskipped] at hpending
      cases hpending
    · split at hm
      · cases hm
        exact hw.next (by intro hf; cases hf) hnofail rfl rfl (by rw [hfront]; exact Nat.le_refl i)
          (counted_setStep steady_recall fun _ _ _ _ => rfl) (hnew _) (fun _ => hends)
          (by intro hs; cases hs)
          ⟨hwalked.advance steady_recall fun _ _ _ _ _ _ => rfl, by intro _ _ hc; cases hc⟩
      · rename_i hnew'
        cases hm
        refine hw.next (by intro hf; cases hf) hnofail rfl rfl (by rw [hfront]; exact Nat.le_refl i)
          (counted_setStep steady_status ?_) (hnew _) (fun _ => hends)
          (fun hs => ⟨hs, counted_of_setStep steady_status ?_⟩) ⟨?_, ?_⟩
        · intro h' s' hat' hd
          rw [hat] at hat'
          cases hat'
          rw [hundone] at hd
          cases hd
        · intro h' s' hat' hd
          rw [hat] at hat'
          cases hat'
          rw [Step.isDone, hr] at hd
          cases hd
        · refine hwalked.advance steady_status ?_
          intro h' s' hat' _ hk
          rw [hat] at hat'
          cases hat'
          exact absurd hk hnew'
        · intro i' j' hc
          cases hc
          exact ⟨h, _, stepAt_setStep_self hat, rfl, hr⟩

/-- The work of a step has returned, and ends it. -/
theorem goOn_returned {outcome : Option Outcome} (hp : m.place = .returned i j outcome) :
    Working { c with move := some m', ended := c.ended ++ m.ends } m' := by
  have hnofail : m.place ≠ .failing := by rw [hp]; nofun
  have hwalk := hw.walking hnofail
  have hwalked := hwalk.walked
  have hcurrent : m.place.current = some (i, j) := by rw [hp]; rfl
  obtain ⟨h, s, hat, -, -⟩ := hwalk.present i j hcurrent
  rw [Move.goOn, hp] at hm
  rw [hp] at hwalked
  cases hm
  refine hw.next (by intro hf; cases hf) hnofail rfl rfl (by rw [hp]; exact Nat.le_refl _)
    (counted_setStep steady_finish ?_) ?_ ?_ (by intro hs; cases hs)
    ⟨hwalked.amend steady_finish (fun _ => rfl) (.inr ⟨rfl, Nat.lt_succ_self j⟩),
      by intro _ _ hc; cases hc⟩
  · intro h' s' hat' hd
    rw [hwalk.not_done hcurrent hat'] at hd
    cases hd
  · intro k hk
    rw [Move.ends, hp] at hk
    cases outcome with
    | none => cases hk
    | some o =>
      simp only [hat] at hk
      split at hk
      · cases hk
      · rename_i hplan
        rw [List.mem_singleton.mp hk]
        exact mem_counted.mpr ⟨i, j, h, _, stepAt_setStep_self hat, hplan, rfl, rfl⟩
  · intro h0
    obtain rfl : i = 0 := h0
    obtain ⟨t, ht, -⟩ := hwalked.planned hat
    have hplan := planned_zero ht
    rw [Move.ends, hp]
    cases outcome with
    | none => rfl
    | some o => simp only [hat, if_pos hplan]

/-- **A statement in memory**: the process comes past steps, and what was counted stays so. -/
theorem goOn_working : Working { c with move := some m', ended := c.ended ++ m.ends } m' := by
  cases hp : m.place with
  | starting => exact goOn_starting hw hm hp
  | phases i => exact goOn_phases hw hm hp
  | steps i j => exact goOn_steps hw hm hp
  | holding i j => exact goOn_holding hw hm hp
  | returned i j outcome => exact goOn_returned hw hm hp
  | _ => rw [Move.goOn, hp] at hm; cases hm

end GoOn

/-! ## 11. The work of a step, and an exception in it -/

/-- What the work of a step does to the plan: it makes it anew, or it touches no step. -/
theorem work_cases {d d' : Detail} {step : StepName} {a : Answer}
    (hwork : work d done i step a = some (d', o)) :
    d'.doneBefore = d.doneBefore ∧
    ((step = .inventory ∧ ∃ f first rest, d.phases = first :: rest ∧ d'.inventory = some f ∧
        d'.previousPhases = d.previousPhases ∧
        d'.phases = plannedPhases first d.previousPhases f) ∨
      (plannedOf d' = plannedOf d ∧ ∀ i j, stepAt d'.phases i j = stepAt d.phases i j)) := by
  have hkeep : ∀ {g : Phase → Phase}, (∀ p, (g p).head = p.head ∧ (g p).steps = p.steps) →
      ∀ i' j', stepAt (d.phases.modify i g) i' j' = stepAt d.phases i' j' :=
    fun hg i' j' => stepAt_keep (fun p => (hg p).1) fun p => (hg p).2
  unfold work at hwork
  split at hwork
  · rename_i f
    split at hwork
    · cases hwork
    · rename_i first rest hphases
      cases hwork
      exact ⟨rfl, .inl ⟨rfl, f, first, rest, hphases, rfl, rfl, rfl⟩⟩
  · split at hwork
    · cases hwork
    · simp only at hwork
      split at hwork
      · cases hwork
        exact ⟨rfl, .inr ⟨rfl, fun _ _ => rfl⟩⟩
      · cases hwork
  · cases hwork
    exact ⟨rfl, .inr ⟨rfl, hkeep fun p => ⟨rfl, rfl⟩⟩⟩
  · cases hwork
    refine ⟨rfl, .inr ⟨rfl, hkeep fun p => ?_⟩⟩
    by_cases ht : p.targetApplication = ""
    · rw [if_pos ht]
      exact ⟨rfl, rfl⟩
    · rw [if_neg ht]
      exact ⟨rfl, rfl⟩
  · cases hwork
  · cases hwork
  · cases hwork
  · cases hwork
  · cases hwork
    exact ⟨rfl, .inr ⟨rfl, fun _ _ => rfl⟩⟩
  · cases hwork

/-- Nothing of a plan made anew is counted. -/
theorem counted_planned {first : Phase} {previous : List Phase} {found : Found}
    (hfirst : first.phase = .plan) : counted (plannedPhases first previous found) = [] := by
  refine List.eq_nil_iff_forall_not_mem.mpr fun k hk => ?_
  obtain ⟨i, j, h, s, hat, hplan, hd, -⟩ := mem_counted.mp hk
  cases i with
  | zero =>
    obtain ⟨p, hp, -, rfl⟩ := stepAt_eq_some.mp hat
    cases hp
    exact hplan hfirst
  | succ i =>
    have hu := (planned_succ hat).1
    rw [isDone_eq_false hu.reason (by rcases hu.status with h | h <;> rw [h] <;> nofun)] at hd
    cases hd

/-- The inventory in the plan phase: behind it the new plan lies ahead. -/
theorem Walked.replanned {first : Phase} {rest : List Phase} {found : Found}
    (hw : Walked (plannedOf d) d.phases done (0, j)) (hphases : d.phases = first :: rest) :
    Walked (plannedPhases planPhase d.previousPhases found)
      (plannedPhases first d.previousPhases found) done (0, j) := by
  have hzero : ∀ j, stepAt (plannedOf d) 0 j =
      stepAt (plannedPhases planPhase d.previousPhases found) 0 j := by
    intro j
    unfold plannedOf
    cases d.inventory <;> rfl
  have hfirst : ∀ j, stepAt d.phases 0 j =
      stepAt (plannedPhases first d.previousPhases found) 0 j := by
    intro j
    rw [hphases]
    rfl
  refine ⟨?_, ?_, ?_⟩
  · intro i' j'
    cases i' with
    | zero => rw [← hzero, ← hfirst, hw.same]
    | succ i' => rfl
  · intro i' j' hb
    cases i' with
    | zero => rw [← hzero, ← hfirst, hw.ahead 0 j' hb]
    | succ i' => rfl
  · intro i' j' h t ht hb _ _ hplan
    cases i' with
    | zero => exact absurd (planned_zero ((hzero j').trans ht)) hplan
    | succ i' =>
      unfold Before at hb
      simp only at hb
      omega

/-- **The work of a step**. -/
theorem answer_working {a : Answer} (hw : Working c m)
    (hp : m.place = .working i j) (hat : stepAt m.detail.phases i j = some (h, s))
    (hwork : work m.detail m.done i s.step a = some (d, o)) :
    Working { c with move := some { m with detail := d, place := .returned i j o } }
      { m with detail := d, place := .returned i j o } := by
  have hnofail : m.place ≠ .failing := by rw [hp]; nofun
  have hwalk := hw.walking hnofail
  have hwalked := hwalk.walked
  have hcurrent : m.place.current = some (i, j) := by rw [hp]; rfl
  obtain ⟨h', s', hat', hrun, hr⟩ := hwalk.present i j hcurrent
  rw [hat] at hat'
  cases hat'
  rw [hp] at hwalked
  obtain ⟨hbegun, ⟨hstep, f, first, rest, hphases, hinv, hprev, hnew⟩ | ⟨hplan, hsame⟩⟩ :=
    work_cases hwork
  · -- only the plan phase has the step
    obtain ⟨t, ht, htstep⟩ := hwalked.planned hat
    have hi : i = 0 := by
      refine Nat.eq_zero_of_not_pos fun hpos => ?_
      exact planned_looks ht hpos (htstep.trans hstep)
    subst hi
    have hended : c.ended = [] := hw.planning hnofail (by rw [hp]; rfl)
    have hfirst : first.phase = .plan := by
      rw [hphases] at hat
      obtain ⟨p, hp, -, rfl⟩ := stepAt_eq_some.mp hat
      cases hp
      exact planned_zero ht
    refine ⟨hw.running, hbegun.trans hw.begun, hw.done.trans hbegun.symm, ?_, fun _ _ => hended, ?_,
      fun _ => ⟨?_, ?_⟩, by intro hf; cases hf⟩
    · show c.ended ⊆ _
      rw [hended]
      exact List.nil_subset _
    · intro _
      show counted d.phases ⊆ _
      rw [hnew, counted_planned hfirst]
      exact List.nil_subset _
    · show Walked (plannedOf d) d.phases _ _
      rw [hnew, plannedOf, hinv, hprev]
      exact hwalked.replanned hphases
    · intro i' j' hc
      cases hc
      refine ⟨h, s, ?_, hrun, hr⟩
      show stepAt d.phases 0 j = _
      rw [hnew, ← hat, hphases]
      rfl
  · refine ⟨hw.running, hbegun.trans hw.begun, hw.done.trans hbegun.symm, ?_, ?_, ?_,
      fun _ => ⟨?_, ?_⟩, by intro hf; cases hf⟩
    · exact List.Subset.trans hw.kept (counted_congr fun i j => (hsame i j).symm)
    · intro _ h0
      exact hw.planning hnofail (by rw [hp]; exact h0)
    · intro hs
      exact List.Subset.trans (counted_congr hsame) (hw.stored hs)
    · show Walked (plannedOf d) d.phases _ _
      rw [hplan]
      exact hwalked.congr hsame
    · intro i' j' hc
      cases hc
      exact ⟨h, s, (hsame i j).trans hat, hrun, hr⟩

/-- What was taken over is counted, where the process has come past it. -/
theorem Working.counts (hw : Working c m) (hpast : m.isPast = true) (hp : m.place ≠ .failing) :
    m.done ⊆ counted m.detail.phases := fun k hk =>
  (hw.walking hp).walked.counted hk (List.contains_iff_mem.mp (List.all_eq_true.mp hpast k hk))

/-- A step that fails is not one that is counted, nor is one that waited. -/
theorem counted_failStep (hw : Walking m) (hc : m.place.current = some (i, j)) :
    counted m.detail.phases ⊆ counted (m.failStep i j).detail.phases := by
  refine List.Subset.trans ?_ counted_closePending
  refine List.Subset.trans ?_ (counted_congr fun _ _ => stepAt_setStatus.symm)
  refine counted_setStep steady_status fun h s hat hd => ?_
  rw [hw.not_done hc hat] at hd
  cases hd

theorem counted_of_failStep : counted (m.failStep i j).detail.phases ⊆ counted m.detail.phases := by
  refine List.Subset.trans counted_of_closePending ?_
  refine List.Subset.trans (counted_congr fun _ _ => stepAt_setStatus) ?_
  refine counted_of_setStep steady_status fun h s _ hd => ?_
  rcases Bool.or_eq_true_iff.mp hd with hd | hd
  · cases hd
  · exact Bool.or_eq_true_iff.mpr (.inr hd)

/-- **An exception** behind all that was taken over. -/
theorem raise_working (hw : Working c m) (hpast : m.isPast = true) (hm : m.raise = some m') :
    Working { c with move := some m' } m' := by
  have hstay : m.place ≠ .failing →
      Working { c with move := some { m with place := .failing } } { m with place := .failing } :=
    fun hp => ⟨hw.running, hw.begun, hw.done, hw.kept, fun hf => absurd rfl hf, hw.stored,
      fun hf => absurd rfl hf, fun _ => hw.counts hpast hp⟩
  have hfail : ∀ i j, m.place.current = some (i, j) →
      Working { c with move := some (m.failStep i j) } (m.failStep i j) := by
    intro i j hc
    have hp : m.place ≠ .failing := by
      intro hf
      rw [hf] at hc
      cases hc
    have hmore := counted_failStep (hw.walking hp) hc
    refine ⟨hw.running, hw.begun, hw.done, List.Subset.trans hw.kept hmore,
      fun hf => absurd rfl hf, ?_, fun hf => absurd rfl hf,
      fun _ => List.Subset.trans (hw.counts hpast hp) hmore⟩
    exact fun hs => List.Subset.trans (counted_of_failStep) (hw.stored hs)
  unfold Move.raise at hm
  cases hp : m.place with
  | working i j | returned i j _ =>
    rw [hp] at hm
    cases hm
    exact hfail i j (by rw [hp]; rfl)
  | phases _ | steps _ _ | finished _ | failing => rw [hp] at hm; cases hm
  | _ =>
    rw [hp] at hm
    cases hm
    exact hstay (by rw [hp]; nofun)

/-! ## 12. Along a chain -/

/-- A detail that no process has worked on. -/
def Detail.IsNew (d : Detail) : Prop := d.phases = [planPhase] ∧ d.inventory = none

/-- **The invariant**: what had ended in an earlier attempt is taken over in this one; and the detail
    that an attempt without a process has left counts all that. -/
structure Sound (c : Chain) : Prop where
  earlier : c.earlier ⊆ c.event.data.doneBefore
  process : ∀ m, c.move = some m → Working c m
  unsent : c.move = none → c.event.status = .queued → c.ended = [] ∧ c.event.data.IsNew
  left : c.move = none → c.event.status = .running ∨ c.event.status = .failed →
    c.event.data.doneBefore ++ c.ended ⊆ counted c.event.data.phases

/-- Without a process. -/
theorem Sound.of_idle (hm : c.move = none) (hearlier : c.earlier ⊆ c.event.data.doneBefore)
    (hunsent : c.event.status = .queued → c.ended = [] ∧ c.event.data.IsNew)
    (hleft : c.event.status = .running ∨ c.event.status = .failed →
      c.event.data.doneBefore ++ c.ended ⊆ counted c.event.data.phases) : Sound c where
  earlier := hearlier
  process := fun m h => by rw [hm] at h; cases h
  unsent := fun _ => hunsent
  left := fun _ => hleft

theorem sound_queued {earlier : List Key} (hd : d.IsNew)
    (hearlier : earlier ⊆ d.doneBefore) : Sound { event := queued d, earlier } :=
  .of_idle rfl hearlier (fun _ => ⟨rfl, hd⟩) fun h => by rcases h with h | h <;> cases h

theorem sound_first {source target : String} {rehearsal : Bool} {choices : List Choice} :
    Sound (Chain.first source target rehearsal choices) :=
  sound_queued ⟨rfl, rfl⟩ (List.Subset.refl _)

theorem afterProgress_front {stored : Bool} {place : Place}
    (h : m.afterProgress stored = some place) :
    place.front = m.place.front ∧ (∀ i j, place.current = some (i, j) → m.place.current = some (i, j)) ∧
      m.place ≠ .failing ∧ place ≠ .failing := by
  unfold Move.afterProgress at h
  cases hp : m.place with
  | entered i =>
    rw [hp] at h
    cases h
    exact ⟨rfl, nofun, nofun, nofun⟩
  | marked i j =>
    rw [hp] at h
    simp only at h
    split at h <;> cases h
    exact ⟨rfl, fun _ _ hc => hc, nofun, nofun⟩
  | worked _ _ | «over» _ =>
    rw [hp] at h
    simp only at h
    split at h <;> cases h
    exact ⟨rfl, nofun, nofun, nofun⟩
  | _ => rw [hp] at h; cases h

/-- A process at another place of the same front, its detail stored or not. -/
theorem Working.move {place : Place} (hw : Working c m) (hfront : place.front = m.place.front)
    (hcurrent : ∀ i j, place.current = some (i, j) → m.place.current = some (i, j))
    (hp : m.place ≠ .failing) (hplace : place ≠ .failing) :
    Working { c with move := some { m with place } } { m with place } ∧
      Working (c.stored m place) { m with place, stale := false } := by
  have hwalk : Walking { m with place } := by
    refine ⟨?_, fun i j hc => (hw.walking hp).present i j (hcurrent i j hc)⟩
    have hwalked := (hw.walking hp).walked
    rw [← hfront] at hwalked
    exact hwalked
  have hplan : place.front.1 = 0 → c.ended = [] := fun h0 => hw.planning hp (hfront ▸ h0)
  refine ⟨⟨hw.running, hw.begun, hw.done, hw.kept, fun _ => hplan, hw.stored, fun _ => hwalk,
    fun hf => absurd hf hplace⟩, ?_⟩
  unfold Chain.stored
  rw [JobEvent.progress_of_running hw.running]
  exact ⟨hw.running, rfl, hw.done, hw.kept, fun _ => hplan, fun _ => List.Subset.refl _,
    fun _ => ⟨hwalk.walked, hwalk.present⟩, fun hf => absurd hf hplace⟩

section

variable (hs : Sound c)

include hs

/-- A chain whose process goes on. -/
theorem Sound.goes (hw : Working c' m) (hm : c'.move = some m)
    (hdata : c'.event.data.doneBefore = c.event.data.doneBefore) (hearlier : c'.earlier = c.earlier) :
    Sound c' where
  earlier := by rw [hearlier, hdata]; exact hs.earlier
  process := fun m' hm' => by
    rw [hm] at hm'
    cases hm'
    exact hw
  unsent := fun hn => by rw [hm] at hn; cases hn
  left := fun hn => by rw [hm] at hn; cases hn

theorem act_sound {a : Action} (hm : c.move = some m) (ha : comesPast c a = true)
    (hact : c.act m a = some c') : Sound c' := by
  have hw := hs.process m hm
  cases a with
  | goOn =>
    obtain ⟨m', hgo, rfl⟩ := Option.map_eq_some_iff.mp hact
    exact hs.goes (goOn_working hw hgo) rfl rfl rfl
  | progress stored =>
    obtain ⟨place, hplace, rfl⟩ := Option.map_eq_some_iff.mp hact
    obtain ⟨hfront, hcurrent, hp, hp'⟩ := afterProgress_front hplace
    obtain ⟨hmoved, hstored⟩ := hw.move hfront hcurrent hp hp'
    cases stored with
    | false => exact hs.goes hmoved rfl rfl rfl
    | true =>
      refine hs.goes hstored rfl ?_ rfl
      rw [if_pos rfl, Chain.stored, JobEvent.progress_of_running hw.running]
      exact hw.begun
  | carried stored =>
    simp only [Chain.act] at hact
    split at hact
    · rename_i i j hp
      split at hact
      · cases hact
        have hne : m.place ≠ .failing := by rw [hp]; nofun
        refine hs.goes (hw.move rfl (fun _ _ h => h) hne hne).2 rfl ?_ rfl
        rw [Chain.stored, JobEvent.progress_of_running hw.running]
        exact hw.begun
      · cases hact
        exact hs
    · cases hact
  | backupProgress =>
    simp only [Chain.act] at hact
    split at hact
    · rename_i i j hp
      split at hact
      · split at hact
        · cases hact
          have hne : m.place ≠ .failing := by rw [hp]; nofun
          refine hs.goes ?_ rfl ?_ rfl
          · rw [JobEvent.progress_of_running hw.running]
            exact ⟨hw.running, rfl, hw.done, hw.kept, hw.planning, nofun,
              fun _ => ⟨(hw.walking hne).walked, (hw.walking hne).present⟩, fun hf => absurd hf hne⟩
          · rw [JobEvent.progress_of_running hw.running]
            exact hw.begun
        · cases hact
      · cases hact
    · cases hact
  | answer a =>
    simp only [Chain.act] at hact
    split at hact
    · rename_i i j hp
      split at hact
      · rename_i h s hat
        obtain ⟨⟨d, o⟩, hwork, rfl⟩ := Option.map_eq_some_iff.mp hact
        exact hs.goes (answer_working hw hp hat hwork) rfl rfl rfl
      · cases hact
    · cases hact
  | raise =>
    obtain ⟨m', hraise, rfl⟩ := Option.map_eq_some_iff.mp hact
    rw [comesPast, hm] at ha
    exact hs.goes (raise_working hw ha hraise) rfl rfl rfl
  | close =>
    simp only [Chain.act] at hact
    split at hact
    · cases hact
      rw [JobEvent.succeed, JobEvent.close_of_running hw.running]
      refine .of_idle rfl ?_ nofun fun h => by rcases h with h | h <;> cases h
      exact hw.begun ▸ hs.earlier
    · rename_i hp
      cases hact
      rw [JobEvent.fail, JobEvent.close_of_running hw.running]
      refine .of_idle rfl ?_ nofun fun _ => ?_
      · exact hw.begun ▸ hs.earlier
      · exact List.append_subset.mpr ⟨hw.done ▸ hw.past hp, hw.kept⟩
    · cases hact
  | die =>
    cases hact
    rw [comesPast, hm] at ha
    obtain ⟨hpast, hstale⟩ := Bool.and_eq_true_iff.mp ha
    have hstored := hw.stored (by simpa using hstale)
    have hdone : m.done ⊆ counted m.detail.phases := by
      by_cases hp : m.place = .failing
      · exact hw.past hp
      · refine hw.counts ?_ hp
        simpa [hp] using hpast
    refine .of_idle rfl hs.earlier (fun hq => ?_) fun _ => ?_
    · rw [hw.running] at hq
      cases hq
    · rw [hw.done, hw.begun] at hdone
      exact List.Subset.trans (List.append_subset.mpr ⟨hdone, hw.kept⟩) hstored
  | resume _ | unsent | launch | sweep => cases hact

/-- A job that is closed before its process began. -/
theorem Sound.unbegun (hm : c.move = none) (hq : c.event.status = .queued)
    (hd : c.event.data.doneBefore = []) :
    Sound { c with event := { c.event with status := .failed } } := by
  refine .of_idle hm hs.earlier nofun fun _ => ?_
  rw [(hs.unsent hm hq).1]
  show c.event.data.doneBefore ++ [] ⊆ _
  rw [hd]
  exact List.nil_subset _

theorem resume_sound {rehearsal : Bool} (hm : c.move = none) (hfailed : c.event.status = .failed) :
    Sound { event := queued (resumed c.event.data rehearsal), earlier := c.earlier ++ c.ended } := by
  refine sound_queued ⟨rfl, rfl⟩ ?_
  have hleft := List.append_subset.mp (hs.left hm (.inr hfailed))
  exact List.append_subset.mpr ⟨List.Subset.trans hs.earlier hleft.1, hleft.2⟩

/-- A process at its first statement. -/
theorem launch_working {e : JobEvent Detail} (hm : c.move = none)
    (hq : c.event.status = .queued) (he : c.event.start = some e) :
    Working { c with event := e, move := some { detail := e.data, done := e.data.doneBefore } }
      { detail := e.data, done := e.data.doneBefore } := by
  obtain ⟨hrun, hdata⟩ := JobEvent.start_eq_some he
  obtain ⟨hended, hphases, hinv⟩ := hs.unsent hm hq
  have hplanned : plannedOf e.data = e.data.phases := by
    rw [plannedOf, hdata, hinv, hphases]
  refine ⟨hrun, rfl, rfl, ?_, fun _ _ => hended, fun _ => List.Subset.refl _, fun _ => ⟨?_, ?_⟩,
    nofun⟩
  · show c.ended ⊆ _
    rw [hended]
    exact List.nil_subset _
  · show Walked (plannedOf e.data) e.data.phases _ (0, 0)
    rw [hplanned]
    refine ⟨fun _ _ => rfl, fun _ _ _ => rfl, fun i j h t _ hb => ?_⟩
    unfold Before at hb
    simp only at hb
    omega
  · intro i j hc
    cases hc

theorem idle_sound {a : Action} (hm : c.move = none) (ha : comesPast c a = true)
    (hidle : c.idle a = some c') : Sound c' := by
  cases a with
  | resume rehearsal =>
    simp only [Chain.idle] at hidle
    split at hidle
    · rename_i hres
      cases hidle
      simp only [resumable, Bool.and_eq_true, decide_eq_true_eq] at hres
      exact resume_sound hs hm hres.1.1.1.1.2
    · cases hidle
  | unsent =>
    simp only [Chain.idle] at hidle
    split at hidle
    · rename_i hq
      cases hidle
      have he : c.event.fail none = { c.event with status := .failed } := by
        rw [JobEvent.fail, JobEvent.close, if_pos (by rw [JobEvent.isUnfinished, hq]; rfl)]
        rfl
      rw [he]
      exact hs.unbegun hm hq (List.isEmpty_iff.mp ha)
    · cases hidle
  | launch =>
    simp only [Chain.idle] at hidle
    split at hidle
    · rename_i hq
      obtain ⟨e, he, rfl⟩ := Option.map_eq_some_iff.mp hidle
      exact hs.goes (launch_working hs hm hq he) rfl
        (congrArg Detail.doneBefore (JobEvent.start_eq_some he).2) rfl
    · cases hidle
  | sweep =>
    cases hidle
    by_cases hq : c.event.status = .queued
    · have he : c.event.interrupt = { c.event with status := .failed } := by
        rw [JobEvent.interrupt, if_pos (by rw [JobEvent.isUnfinished, hq]; rfl)]
      have hd : c.event.data.doneBefore = [] := by simpa [comesPast, hq] using ha
      rw [he]
      exact hs.unbegun hm hq hd
    · have hdata : c.event.interrupt.data = c.event.data := by
        unfold JobEvent.interrupt
        split <;> rfl
      have hstatus : c.event.interrupt.status = .running ∨ c.event.interrupt.status = .failed →
          c.event.status = .running ∨ c.event.status = .failed := by
        unfold JobEvent.interrupt
        split
        · rename_i hu
          rcases Bool.or_eq_true_iff.mp hu with hu | hu
          · exact absurd (eq_of_beq hu) hq
          · exact fun _ => .inl (eq_of_beq hu)
        · exact id
      refine .of_idle hm ?_ ?_ ?_
      · exact hdata ▸ hs.earlier
      · intro hq'
        refine absurd ?_ hq
        revert hq'
        show c.event.interrupt.status = .queued → _
        unfold JobEvent.interrupt
        split
        · intro h
          cases h
        · exact id
      · intro h
        rw [hdata]
        exact hs.left hm (hstatus h)
  | _ => cases hidle

end

theorem step_sound {a : Action} (hstep : step c a = some c') (ha : comesPast c a = true)
    (hs : Sound c) : Sound c' := by
  unfold step at hstep
  cases hm : c.move with
  | none =>
    rw [hm] at hstep
    exact idle_sound hs hm ha hstep
  | some m =>
    rw [hm] at hstep
    exact act_sound hs hm ha hstep

/-- **No attempt forgets**: along a chain of attempts, each broken off only behind what it took over and
    with nothing unstored, a step that ended as done in an attempt is counted as done before in every
    later one. -/
theorem finished_remembered {source target : String} {rehearsal : Bool} {choices : List Choice}
    {as : List Action} (h : run step (Chain.first source target rehearsal choices) as = some c)
    (hc : Along step (fun c a => comesPast c a = true)
      (Chain.first source target rehearsal choices) as) :
    c.earlier ⊆ c.event.data.doneBefore ∧ ∀ m ∈ c.move, c.earlier ⊆ m.done := by
  have hs : Sound c := run_invariant_along (fun _ _ _ => step_sound) h hc sound_first
  refine ⟨hs.earlier, fun m hm => ?_⟩
  have hw := hs.process m hm
  rw [hw.done, hw.begun]
  exact hs.earlier

/-! ## 13. Runs -/

def shop : Plan where
  application := "a"
  name := "shop"
  targetName := "shop-new"
  kind := .host
  action := "shared"

/-- A step that is taken. -/
def turn (a : Answer) : List Action :=
  [.goOn, .progress true, .goOn, .answer a, .goOn, .progress true]

/-- An attempt as far as the first step of the application. -/
def planning : List Action :=
  [.launch, .goOn, .goOn, .progress false] ++ turn (.outcome (some {})) ++
    turn (.found { applications := [shop] }) ++ turn (.outcome (some {})) ++
    [.goOn, .progress true, .goOn, .progress false] ++ List.replicate 8 .goOn ++
    [.progress true, .goOn, .progress false]

/-- A step that fails. -/
def breaking : List Action := [.goOn, .progress true, .goOn, .raise, .close]

def firstMove : Chain :=
  .first "old" "new" false [{ application := "a", name := "shop-new", folder := "" }]

/-- The source is backed up, the next step fails. -/
def firstAttempt : List Action := planning ++ turn (.file "b") ++ breaking

/-- The second attempt comes past the backup. -/
def secondAttempt : List Action :=
  .resume false :: planning ++ .goOn :: turn (.outcome (some {})) ++ breaking

set_option maxRecDepth 4000 in
theorem finished_remembered_twice : ∃ c, run step firstMove
    (firstAttempt ++ secondAttempt ++ [.resume false]) = some c ∧ c.earlier.length = 2 ∧
      c.earlier ⊆ c.event.data.doneBefore := by
  have hc : Along step (fun c a => comesPast c a = true) firstMove
      (firstAttempt ++ secondAttempt ++ [.resume false]) := by decide +kernel
  exact ⟨_, rfl, rfl, (finished_remembered rfl hc).1⟩

/-- **An attempt that fails early forgets**: the second one does not reach the old server, and the third
    counts nothing as done before. -/
theorem early_failure_forgets : ∃ c, run step firstMove
    (firstAttempt ++ [.resume false, .launch, .goOn, .goOn, .progress false] ++ breaking ++
      [.resume false]) = some c ∧ ¬ c.earlier ⊆ c.event.data.doneBefore := by
  refine ⟨_, rfl, ?_⟩
  decide

end Dbs.Relocation

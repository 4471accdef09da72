/-
  File:      Dbs/Catalogue.lean
  Subject:   WHAT MAY STAND IN A COMMAND (redeploy/catalogue.py; the patterns and `matched` of
             relocation/catalogue.py): the deploy steps an application may have and the commands they
             become, and the names that a move puts into commands.

  A word of a command is marked by where it comes from: it is the catalogue's own, or the text of an
  option. `app` stands for what `validated` reads of the application.

  * `patternOf`, `namePattern` -- the patterns, as they are written;
  * `validated`, `runCommand`, `matched` -- the two catalogues;
  * `Clean` -- characters of the pattern, and no break, space, shell character, dash in front or `..`
    segment;
  * `options_clean_iff` -- what is accepted is clean exactly when no text ends in a line break, no
    remote or branch has a `..` segment, and no name what its pattern admits of these (`Avoids`);
  * `break_smuggled` -- a branch with a line break behind it is accepted.
-/
import Dbs.Lib.Regex

namespace Dbs.Catalogue

open Regex

/-! ## 1. Patterns -/

def alnum : List (Char × Char) := [('A', 'Z'), ('a', 'z'), ('0', '9')]

/-- A letter or a digit, and up to so many more characters of which some others may be. -/
def word (others : String) (more : Nat) : Pattern :=
  .seq (.one (among alnum)) (.times (.one (among (alnum ++ singles others))) 0 (some more))

def gitName : Pattern := word "._/-" 99

def serviceName : Pattern := word "_.-" 99

def unitName : Pattern := .seq (word "@._-" 99) (.literal (points ".service"))

/-- `\.\.(/|$)` -/
def climb : Pattern := .seq (.literal (points "..")) (.alt (.literal (points "/")) .stop)

/-- `(.*/)?\.\.(/|$)` -/
def climbInFile : Pattern :=
  .seq (.maybe (.seq (.times (.one any) 0 none) (.literal (points "/")))) climb

/-- `(?!-)(?!/)(?!(.*/)?\.\.(/|$))`, and up to 200 characters. -/
def relativeFile : Pattern :=
  .seq (.notAhead (.literal (points "-"))) <|
  .seq (.notAhead (.literal (points "/"))) <|
  .seq (.notAhead climbInFile)
  (.times (.one (among (alnum ++ singles "._/-"))) 1 (some 200))

/-- The options that become words. -/
inductive OptionName
  | remote
  | branch
  | services
  | unit
  | requirements
deriving DecidableEq

/-- Between `^` and `$`. -/
def patternOf : OptionName → Pattern
  | .remote | .branch => gitName
  | .services => serviceName
  | .unit => unitName
  | .requirements => relativeFile

/-- The patterns of relocation/catalogue.py and those it takes from elsewhere; `NETWORK` is `VOLUME`. -/
inductive NameKind
  | imageRef
  | volume
  | container
  | unit
  | site
  | user
  | numeric
  | mode
  | folderMode
  | moduleStream
  | relative
  | containerUser
  | labelKey
  | package
  | service
deriving DecidableEq

def digit : List (Char × Char) := [('0', '9')]

/-- `[A-Za-z0-9_.-]{1,64}` -/
def account : Pattern := .times (.one (among (alnum ++ singles "_.-"))) 1 (some 64)

/-- `.*(?:^|/)\.\.(?:/|$)` -/
def climbInPath : Pattern :=
  .seq (.times (.one any) 0 none) (.seq (.alt .start (.literal (points "/"))) climb)

/-- `(?!-)(?!.*(?:^|/)\.\.(?:/|$))[^*?\[\]\n\0]{1,1024}` -/
def relative : Pattern :=
  .seq (.notAhead (.literal (points "-"))) <|
  .seq (.notAhead climbInPath)
  (.times (.one (except (singles "*?[]\n\x00"))) 1 (some 1024))

/-- The pattern of each kind. -/
def namePattern : NameKind → Pattern
  | .imageRef =>
    .alt (.seq (.literal (points "sha256:"))
      (.times (.one (among [('0', '9'), ('a', 'f')])) 64 (some 64)))
      (word "._/:@-" 254)
  | .volume => word "_.-" 254
  | .container => word "_.-" 254
  | .unit =>
    .seq (word "@._-" 99) <| .seq (.literal (points ".")) <|
    .alt (.literal (points "service")) <| .alt (.literal (points "socket")) (.literal (points "timer"))
  | .site => word "._-" 99
  | .user =>
    .seq (.one (among (('a', 'z') :: singles "_"))) <|
    .seq (.times (.one (among (('a', 'z') :: ('0', '9') :: singles "_-"))) 0 (some 31))
    (.maybe (.literal (points "$")))
  | .numeric => .times (.one (among digit)) 1 (some 10)
  | .mode => .seq (.literal (points "0")) (.times (.one (among [('0', '7')])) 3 (some 3))
  | .folderMode => .times (.one (among [('0', '7')])) 3 (some 4)
  | .moduleStream =>
    .seq (.times (.one (among (('a', 'z') :: ('0', '9') :: singles "-"))) 1 none) <|
    .seq (.literal (points ":")) (.times (.one (among digit)) 1 none)
  | .relative => relative
  | .containerUser => .seq account (.maybe (.seq (.literal (points ":")) account))
  | .labelKey => word "._/-" 254
  | .package =>
    .seq (.one (among [('a', 'z'), ('0', '9')]))
      (.times (.one (among (('a', 'z') :: ('0', '9') :: singles "+._-"))) 0 (some 99))
  | .service => serviceName

/-! ## 2. Values -/

/-- What JSON gives; of a number with a point only whether it is zero is read. -/
inductive Value
  | null
  | bool (b : Bool)
  | int (n : Int)
  | float (zero : Bool)
  | str (text : Text)
  | list (values : List Value)
  | dict (members : List (Text × Value))

namespace Value

/-- `bool(value)`. -/
def truthy : Value → Bool
  | null => false
  | bool b => b
  | int n => n != 0
  | float zero => !zero
  | str text => !text.isEmpty
  | list values => !values.isEmpty
  | dict members => !members.isEmpty

/-- `isinstance(value, int)`, a truth value among them. -/
def int? : Value → Option Int
  | int n => some n
  | bool b => some (if b then 1 else 0)
  | null | float _ | str _ | list _ | dict _ => none

/-- The text, if it is one and the pattern matches it. -/
def accepted (p : Pattern) : Value → Option Text
  | str text => if (p.anchored).Matches text then some text else none
  | null | bool _ | int _ | float _ | list _ | dict _ => none

end Value

abbrev Members := List (Text × Value)

/-- `options.get(name)`, which is `None` for a name that is not there. -/
def Members.get (members : Members) (name : String) : Value :=
  (members.lookup (points name)).getD .null

/-! ## 3. Steps -/

/-- The steps the manager offers. -/
inductive Kind
  | gitPull
  | composePull
  | composeBuild
  | composeUp
  | restart
  | systemdUserRestart
  | pipInstall
  | migrate
  | collectstatic
deriving DecidableEq

namespace Kind

/-- As they are stored. -/
def name : Kind → String
  | gitPull => "git_pull"
  | composePull => "compose_pull"
  | composeBuild => "compose_build"
  | composeUp => "compose_up"
  | restart => "restart"
  | systemdUserRestart => "systemd_user_restart"
  | pipInstall => "pip_install"
  | migrate => "migrate"
  | collectstatic => "collectstatic"

/-- `KINDS`. -/
def every : List Kind :=
  [gitPull, composePull, composeBuild, composeUp, restart, systemdUserRestart, pipInstall, migrate,
    collectstatic]

/-- `COMPOSE_KINDS`. -/
def isCompose (k : Kind) : Bool := [composePull, composeBuild, composeUp].contains k

/-- The options of a kind. -/
def allowed : Kind → List String
  | gitPull => ["remote", "branch"]
  | composePull => ["services"]
  | composeBuild => ["services", "pull"]
  | composeUp => ["services"]
  | systemdUserRestart => ["unit"]
  | pipInstall => ["requirements"]
  | restart | migrate | collectstatic => []

end Kind

/-- A text and its code. -/
structure ErrorDetail where
  text : String
  code : String
deriving DecidableEq

def unknownKind : ErrorDetail := ⟨"Choose one of the steps the manager offers.", "unknown_step"⟩
def tooMany : ErrorDetail := ⟨"An application runs at most 12 deploy steps.", "too_many_steps"⟩
def needsFolder : ErrorDetail :=
  ⟨"This step runs in the application's folder on the server; set it first.", "project_dir_required"⟩
def needsCompose : ErrorDetail :=
  ⟨"This step runs for an application in a Compose service.", "compose_required"⟩
def needsContainer : ErrorDetail :=
  ⟨"This step restarts the application's container or Compose service.", "container_required"⟩
def onHostOnly : ErrorDetail :=
  ⟨"This step runs for an application on the server itself.", "host_required"⟩
def badGitName : ErrorDetail :=
  ⟨"Use letters, digits, dots, dashes, underscores and slashes.", "invalid_name"⟩
def badService : ErrorDetail :=
  ⟨"Name Compose services with letters, digits, dots, dashes and underscores.", "invalid_service"⟩
def badUnit : ErrorDetail := ⟨"Name a user unit that ends in .service.", "invalid_unit"⟩
def badRequirements : ErrorDetail :=
  ⟨"Name a file inside the application's folder, such as requirements.txt.", "invalid_requirements"⟩
def badTimeout : ErrorDetail := ⟨"Allow 1 to 120 minutes.", "invalid_timeout"⟩
def unknownOption : ErrorDetail := ⟨"This step takes no such option.", "unknown_option"⟩
def remoteNeedsBranch : ErrorDetail := ⟨"Name the branch together with its remote.", "branch_required"⟩
def branchNeedsRemote : ErrorDetail :=
  ⟨"Name the remote the branch comes from, such as origin.", "remote_required"⟩

def stepsMax : Nat := 12
def timeoutMin : Int := 1
def timeoutMax : Int := 120
def timeoutDefault : Int := 10
def servicesMax : Nat := 20

/-- What an application runs in. -/
inductive AppKind
  | host
  | compose
  | container
deriving DecidableEq

/-- What a step asks of it. -/
structure Application where
  kind : AppKind
  projectDir : Text

/-- The cleaned options: a key that is not there is nothing. -/
structure Options where
  remote : Option Text := none
  branch : Option Text := none
  services : Option (List Text) := none
  pull : Option Bool := none
  unit : Option Text := none
  requirements : Option Text := none
deriving DecidableEq

/-- A step that was accepted. -/
structure Step where
  kind : Kind
  options : Options
  timeoutMinutes : Int
deriving DecidableEq

/-- `_fits`. -/
def fits (kind : Kind) (app : Application) : List ErrorDetail :=
  (if (kind = .gitPull ∨ kind = .pipInstall) ∧ app.projectDir = [] then [needsFolder] else []) ++
  (if kind.isCompose ∧ app.kind ≠ .compose then [needsCompose] else []) ++
  (if kind = .restart ∧ app.kind = .host then [needsContainer] else []) ++
  (if kind = .pipInstall ∧ app.kind ≠ .host then [onHostOnly] else [])

/-- One of `remote` and `branch`: an empty one is left out. -/
def gitOption (value : Value) : List ErrorDetail × Option Text :=
  if value.truthy then
    match value.accepted gitName with
    | some text => ([], some text)
    | none => ([badGitName], none)
  else ([], none)

/-- Both, or neither. -/
def gitOptions (options : Members) : List ErrorDetail × Options :=
  let remote := gitOption (options.get "remote")
  let branch := gitOption (options.get "branch")
  (remote.1 ++ branch.1 ++
    (if remote.2.isSome ∧ branch.2 = none then [remoteNeedsBranch] else []) ++
    (if branch.2.isSome ∧ remote.2 = none then [branchNeedsRemote] else []),
    { remote := remote.2, branch := branch.2 })

/-- A value that is empty or false is an empty list; of equal names the first is kept. -/
def servicesOption (value : Value) : List ErrorDetail × Option (List Text) :=
  if value.truthy then
    match value with
    | .list values =>
      if values.length ≤ servicesMax then
        match values.mapM (·.accepted serviceName) with
        | some names => ([], some names.eraseDups)
        | none => ([badService], none)
      else ([badService], none)
    | .null | .bool _ | .int _ | .float _ | .str _ | .dict _ => ([badService], none)
  else ([], some [])

/-- An option that must be there. -/
def required (p : Pattern) (bad : ErrorDetail) (value : Value) : List ErrorDetail × Option Text :=
  match value.accepted p with
  | some text => ([], some text)
  | none => ([bad], none)

/-- `_options`. -/
def optionsOf (kind : Kind) (options : Members) : List ErrorDetail × Options :=
  if ∃ member ∈ options, ∀ name ∈ kind.allowed, member.1 ≠ points name then ([unknownOption], {})
  else match kind with
    | .gitPull => gitOptions options
    | .composePull | .composeUp =>
      let services := servicesOption (options.get "services")
      (services.1, { services := services.2 })
    | .composeBuild =>
      let services := servicesOption (options.get "services")
      (services.1, { services := services.2, pull := some (options.get "pull").truthy })
    | .systemdUserRestart =>
      let unit := required unitName badUnit (options.get "unit")
      (unit.1, { unit := unit.2 })
    | .pipInstall =>
      let requirements := required relativeFile badRequirements (options.get "requirements")
      (requirements.1, { requirements := requirements.2 })
    | .restart | .migrate | .collectstatic => ([], {})

/-- `step.get("kind")`, if it is one of them. -/
def kindOf (members : Members) : Option Kind :=
  match members.get "kind" with
  | .str text => Kind.every.find? fun kind => points kind.name = text
  | .null | .bool _ | .int _ | .float _ | .list _ | .dict _ => none

/-- `step.get("options") or {}`, if it is a mapping. -/
def optionMembers (members : Members) : Option Members :=
  let value := members.get "options"
  if value.truthy then
    match value with
    | .dict options => some options
    | .null | .bool _ | .int _ | .float _ | .str _ | .list _ => none
  else some []

/-- `step.get("timeout_minutes", TIMEOUT_DEFAULT)`, if it is within its bounds. -/
def timeoutOf (members : Members) : Option Int :=
  match ((members.lookup (points "timeout_minutes")).getD (.int timeoutDefault)).int? with
  | some minutes => if timeoutMin ≤ minutes ∧ minutes ≤ timeoutMax then some minutes else none
  | none => none

/-- `_step`: the problems, or the step when there is none. -/
def stepOf (app : Application) : Value → Except (List ErrorDetail) Step
  | .dict members =>
    match kindOf members with
    | none => .error [unknownKind]
    | some kind =>
      match optionMembers members with
      | none => .error [unknownOption]
      | some options =>
        let (problems, cleaned) := optionsOf kind options
        match (timeoutOf members, fits kind app ++ problems) with
        | (some minutes, []) => .ok ⟨kind, cleaned, minutes⟩
        | (some _, problems) => .error problems
        | (none, problems) => .error (badTimeout :: problems)
  | .null | .bool _ | .int _ | .float _ | .str _ | .list _ => .error [unknownKind]

/-- The fields with problems, or the steps. -/
def validatedFrom (app : Application) :
    Nat → List Value → Except (List (String × List ErrorDetail)) (List Step)
  | _, [] => .ok []
  | index, value :: values =>
    match stepOf app value, validatedFrom app (index + 1) values with
    | .ok step, .ok steps => .ok (step :: steps)
    | .ok _, .error errors => .error errors
    | .error problems, .ok _ => .error [("steps." ++ toString index, problems)]
    | .error problems, .error errors => .error (("steps." ++ toString index, problems) :: errors)

/-- All steps, or the errors by their places. -/
def validated (app : Application) : Value → Except (List (String × List ErrorDetail)) (List Step)
  | .list values =>
    if stepsMax < values.length then .error [("steps", [tooMany])]
    else validatedFrom app 0 values
  | .null | .bool _ | .int _ | .float _ | .str _ | .dict _ =>
    .error [("steps", [{ unknownKind with code := "invalid" }])]

/-! ## 4. Commands -/

/-- A word of a command: the catalogue's or the application's own, or the text of an option. -/
inductive Word
  | own (text : Text)
  | option (name : OptionName) (text : Text)
deriving DecidableEq

def own (words : List String) : List Word := words.map fun w => .own (points w)

/-- The engine and the Compose files. -/
structure ContainerTarget where
  engine : Text
  files : List Text
  project : Text

/-- `ContainerTarget.argv`. -/
def ContainerTarget.argv (target : ContainerTarget) (arguments : List Word) : List Word :=
  [.own target.engine] ++ own ["compose"] ++
    target.files.flatMap (fun path => own ["-f"] ++ [.own path]) ++
    (if target.project = [] then [] else own ["-p"] ++ [.own target.project]) ++ arguments

/-- Where a command runs. -/
structure Place where
  projectDir : Text
  python : Text
  compose : Option ContainerTarget
  engine : Text
  container : Text
  service : Text

/-- What is run there. -/
structure Command where
  argv : List Word
  cwd : Option Text := none
  env : List (String × String) := []
  manage : Bool := false

/-- `_compose`, which raises where the application is in no Compose service. -/
def composeCommand (place : Place) (arguments : List Word) : Option Command :=
  place.compose.map fun target =>
    { argv := target.argv arguments
      cwd := if place.projectDir = [] then none else some place.projectDir }

def servicesWords (options : Options) : List Word :=
  (options.services.getD []).map (.option .services)

/-- Nothing where an option is missing or `_compose` raises. -/
def runCommand (step : Step) (place : Place) : Option Command :=
  match step.kind with
  | .gitPull =>
    some {
      argv := own ["git", "-C"] ++ [.own place.projectDir] ++ own ["pull", "--ff-only", "--no-rebase"] ++
        step.options.remote.toList.map (.option .remote) ++
        step.options.branch.toList.map (.option .branch)
      env := [("GIT_TERMINAL_PROMPT", "0")] }
  | .composePull => composeCommand place (own ["pull"] ++ servicesWords step.options)
  | .composeBuild =>
    composeCommand place (own ["build"] ++
      (if step.options.pull = some true then own ["--pull"] else []) ++ servicesWords step.options)
  | .composeUp => composeCommand place (own ["up", "-d"] ++ servicesWords step.options)
  | .restart =>
    if place.compose.isSome then composeCommand place (own ["restart"] ++ [.own place.service])
    else some { argv := [.own place.engine] ++ own ["restart"] ++ [.own place.container] }
  | .systemdUserRestart =>
    step.options.unit.map fun unit =>
      { argv := own ["systemctl", "--user", "restart"] ++ [.option .unit unit] }
  | .pipInstall =>
    step.options.requirements.map fun requirements =>
      { argv := [.own place.python] ++ own ["-m", "pip", "install", "-r"] ++
          [.option .requirements requirements]
        cwd := some place.projectDir }
  | .migrate => some { argv := own ["migrate", "--noinput"], manage := true }
  | .collectstatic => some { argv := own ["collectstatic", "--noinput"], manage := true }

/-- `matched` of relocation/catalogue.py, which raises `ValueError`. -/
def matched (kind : NameKind) (value : Value) : Option Text := value.accepted (namePattern kind)

/-! ## 5. Clean words -/

/-- Spaces, line breaks, and what means something to a shell. -/
def shellMeta : Text := points " \t\n\r|&;<>()$`\\\"'*?[]#~=%!{}^\x00"

def isShellMeta (c : Nat) : Bool := shellMeta.contains c

/-- A segment `..`, between slashes or the ends. -/
def Climbs (t : Text) : Prop := points ".." ∈ t.splitOn '/'.toNat

/-- What is promised of a text that a pattern accepts. -/
structure Clean (p : Pattern) (t : Text) : Prop where
  admitted : ∀ c ∈ t, p.admits c = true
  plain : ∀ c ∈ t, isShellMeta c = false
  noDash : t.head? ≠ some '-'.toNat
  noClimb : ¬ Climbs t

/-- Where the pattern admits what is not clean, the name has none of it. -/
def Avoids (t : Text) : NameKind → Prop
  | .imageRef | .labelKey => ¬ Climbs t
  | .containerUser => t.head? ≠ some '-'.toNat ∧ ¬ Climbs t
  | .moduleStream => t.head? ≠ some '-'.toNat
  | .relative => ∀ c ∈ t, isShellMeta c = false
  | .user => '$'.toNat ∉ t
  | .volume | .container | .unit | .site | .numeric | .mode | .folderMode | .package | .service => True

/-- The texts of an option, one or a list of them. -/
def Value.texts : Value → List Text
  | .str text => if text = [] then [] else [text]
  | .list values => values.filterMap fun
    | .str text => some text
    | .null | .bool _ | .int _ | .float _ | .list _ | .dict _ => none
  | .null | .bool _ | .int _ | .float _ | .dict _ => []

def OptionName.key : OptionName → String
  | .remote => "remote"
  | .branch => "branch"
  | .services => "services"
  | .unit => "unit"
  | .requirements => "requirements"

/-- The options of a step, if it has any. -/
def Value.options : Value → Members
  | .dict members => match Members.get members "options" with
    | .dict options => options
    | .null | .bool _ | .int _ | .float _ | .str _ | .list _ => []
  | .null | .bool _ | .int _ | .float _ | .str _ | .list _ => []

/-- The texts that the steps have under an option. -/
def optionTexts (name : OptionName) : Value → List Text
  | .list steps => steps.flatMap fun step => (step.options.get name.key).texts
  | .null | .bool _ | .int _ | .float _ | .str _ | .dict _ => []

/-! ## 6. What the patterns keep out -/

section Patterns

variable {t pre post whole : Text} {p : Pattern} {name : OptionName} {kind : NameKind}

theorem around_of_mem (sep : Nat) {segments : List Text} {segment : Text} (h : segment ∈ segments) :
    ∃ pre post, [sep].intercalate segments = pre ++ (segment ++ post) ∧
      (pre = [] ∨ ∃ p, pre = p ++ [sep]) ∧ (post = [] ∨ ∃ q, post = sep :: q) := by
  induction segments with
  | nil => exact absurd h List.not_mem_nil
  | cons first segments ih =>
    cases segments with
    | nil =>
      obtain rfl := List.mem_singleton.mp h
      exact ⟨[], [], by simp, Or.inl rfl, Or.inl rfl⟩
    | cons second segments =>
      rw [List.intercalate_cons_cons]
      rcases List.mem_cons.mp h with rfl | hrest
      · exact ⟨[], [sep] ++ [sep].intercalate (second :: segments), by simp, Or.inl rfl,
          Or.inr ⟨_, rfl⟩⟩
      · obtain ⟨pre, post, heq, hpre, hpost⟩ := ih hrest
        refine ⟨first ++ [sep] ++ pre, post, by rw [heq]; simp, Or.inr ?_, hpost⟩
        rcases hpre with rfl | ⟨p, rfl⟩
        · exact ⟨first, by simp⟩
        · exact ⟨first ++ [sep] ++ p, by simp⟩

/-- **A segment `..`** stands at the beginning or behind a slash, and at the end or before one. -/
theorem climbs_cases (h : Climbs t) :
    ∃ pre post, t = pre ++ (points ".." ++ post) ∧
      (pre = [] ∨ ∃ p, pre = p ++ ['/'.toNat]) ∧ (post = [] ∨ ∃ q, post = '/'.toNat :: q) := by
  obtain ⟨pre, post, heq, hpre, hpost⟩ := around_of_mem '/'.toNat h
  rw [List.intercalate_splitOn] at heq
  exact ⟨pre, post, heq, hpre, hpost⟩

theorem exists_mem_ends_climb (whole : Text) (h : post = [] ∨ ∃ q, post = '/'.toNat :: q) :
    ∃ rest, rest ∈ climb.ends whole (points ".." ++ post) := by
  rcases h with rfl | ⟨q, rfl⟩
  · exact ⟨[], by simp [climb]⟩
  · exact ⟨q, by simp [climb, points]⟩

/-- Only the last character is a line break. -/
theorem any_of_prefix (hbreak : p.admits lineBreak = false) (h : (p.anchored).Matches t)
    (ht : t = pre ++ post) (hpost : post ≠ []) : ∀ c ∈ pre, Regex.any c = true := by
  intro c hc
  obtain ⟨u, hu, hcases⟩ := anchored_cases h
  have hdrop : c ∈ t.dropLast := by
    rw [ht, List.dropLast_append_of_ne_nil hpost]
    exact List.mem_append_left _ hc
  have hmem : c ∈ u := by
    rcases hcases with rfl | rfl
    · exact List.dropLast_subset _ hdrop
    · rwa [List.dropLast_concat] at hdrop
  rw [Regex.any, bne_iff_ne]
  rintro rfl
  exact Bool.noConfusion (hbreak.symm.trans (hu _ hmem))

theorem not_climbs_relativeFile (h : (relativeFile.anchored).Matches t) : ¬ Climbs t := by
  intro hclimb
  obtain ⟨pre, post, ht, hpre, hpost⟩ := climbs_cases hclimb
  have hany := any_of_prefix (by decide) h ht (by simp [points])
  obtain ⟨rest, hrest⟩ := exists_mem_ends_climb t hpost
  obtain ⟨_, hends, -⟩ := anchored_iff.mp h
  simp only [relativeFile, mem_ends_seq, mem_ends_notAhead] at hends
  obtain ⟨_, ⟨rfl, -⟩, _, ⟨rfl, -⟩, _, ⟨rfl, hnone⟩, -⟩ := hends
  refine List.ne_nil_of_mem (a := rest) ?_ hnone
  refine mem_ends_seq.mpr ⟨points ".." ++ post, mem_ends_maybe.mpr ?_, hrest⟩
  rcases hpre with rfl | ⟨q, rfl⟩
  · exact Or.inl ht.symm
  · refine Or.inr (mem_ends_seq.mpr ⟨'/'.toNat :: (points ".." ++ post), ?_, by simp [points]⟩)
    exact mem_ends_times_one.mpr ⟨q, by simp [ht], fun c hc => hany c (List.mem_append_left _ hc),
      Nat.zero_le _, by simp⟩

theorem not_climbs_relative (h : (relative.anchored).Matches t) : ¬ Climbs t := by
  intro hclimb
  obtain ⟨pre, post, ht, hpre, hpost⟩ := climbs_cases hclimb
  have hany := any_of_prefix (by decide) h ht (by simp [points])
  obtain ⟨rest, hrest⟩ := exists_mem_ends_climb t hpost
  obtain ⟨_, hends, -⟩ := anchored_iff.mp h
  simp only [relative, mem_ends_seq, mem_ends_notAhead] at hends
  obtain ⟨_, ⟨rfl, -⟩, _, ⟨rfl, hnone⟩, -⟩ := hends
  refine List.ne_nil_of_mem (a := rest) ?_ hnone
  rcases hpre with rfl | ⟨q, rfl⟩
  · refine mem_ends_seq.mpr ⟨_, mem_ends_times_one.mpr ⟨[], rfl, by simp⟩, mem_ends_seq.mpr
      ⟨_, mem_ends_alt.mpr (Or.inl (mem_ends_start.mpr ⟨ht.symm, rfl⟩)), hrest⟩⟩
  · refine mem_ends_seq.mpr ⟨'/'.toNat :: (points ".." ++ post), ?_, mem_ends_seq.mpr
      ⟨_, mem_ends_alt.mpr (Or.inr (by simp [points])), hrest⟩⟩
    exact mem_ends_times_one.mpr ⟨q, by simp [ht], fun c hc => hany c (List.mem_append_left _ hc),
      Nat.zero_le _, by simp⟩

/-- Without a slash, the whole text would be the segment. -/
theorem not_climbs_of_begins (hnull : p.nullable = false) (hdot : p.begins '.'.toNat = false)
    (hslash : p.admits '/'.toNat = false) (h : (p.anchored).Matches t) : ¬ Climbs t := by
  intro hclimb
  have hnone : '/'.toNat ∉ t := by
    intro hmem
    obtain ⟨u, hu, hcases⟩ := anchored_cases h
    have hmem : '/'.toNat ∈ u := by
      rcases hcases with rfl | rfl
      · exact hmem
      · simpa [lineBreak] using hmem
    exact Bool.noConfusion (hslash.symm.trans (hu _ hmem))
  rw [Climbs, List.splitOn_eq_singleton hnone, List.mem_singleton] at hclimb
  rw [← hclimb] at h
  exact Bool.noConfusion (hdot.symm.trans (begins_of_matches hnull h))

theorem head?_ne_of_begins (hnull : p.nullable = false) {c : Nat} (hc : p.begins c = false)
    (h : (p.anchored).Matches t) : t.head? ≠ some c := by
  intro hhead
  obtain ⟨u, rfl⟩ := List.head?_eq_some_iff.mp hhead
  exact Bool.noConfusion (hc.symm.trans (begins_of_matches hnull h))

theorem head?_ne_of_notAhead {q : Pattern} {c : Nat}
    (h : ((Pattern.seq (.notAhead (.literal [c])) q).anchored).Matches t) : t.head? ≠ some c := by
  intro hhead
  obtain ⟨u, rfl⟩ := List.head?_eq_some_iff.mp hhead
  obtain ⟨_, hends, -⟩ := anchored_iff.mp h
  simp only [mem_ends_seq, mem_ends_notAhead] at hends
  obtain ⟨_, ⟨-, hnone⟩, -⟩ := hends
  exact List.ne_nil_of_mem (mem_ends_literal.mpr (rfl : c :: u = [c] ++ u)) hnone

theorem ne_nil_of_matches (hnull : p.nullable = false) (h : (p.anchored).Matches t) : t ≠ [] := by
  rintro rfl
  obtain ⟨rest, hrest, -⟩ := anchored_iff.mp h
  obtain ⟨u, hu, -⟩ := consumed hrest
  obtain rfl := (List.append_eq_nil_iff.mp hu.symm).2
  exact Bool.noConfusion (hnull.symm.trans (nullable_of_mem_ends hrest))

/-! ### The options -/

theorem patternOf_lineBreak : (patternOf name).admits lineBreak = false := by cases name <;> decide

theorem patternOf_meta : ∀ c, isShellMeta c = true → (patternOf name).admits c = false := by
  intro c hc
  have hall : ∀ c ∈ shellMeta, (patternOf name).admits c = false := by
    cases name <;> decide
  exact hall c (List.contains_iff_mem.mp hc)

section

variable (h : ((patternOf name).anchored).Matches t)

include h

theorem patternOf_noDash : t.head? ≠ some '-'.toNat := by
  cases name with
  | remote | branch | services | unit => exact head?_ne_of_begins (by decide) (by decide) h
  | requirements => exact head?_ne_of_notAhead h

/-- Remotes and branches may have slashes, and what is between them is not looked at. -/
theorem patternOf_noClimb (hremote : name ≠ .remote) (hbranch : name ≠ .branch) : ¬ Climbs t := by
  cases name with
  | remote => exact absurd rfl hremote
  | branch => exact absurd rfl hbranch
  | services | unit => exact not_climbs_of_begins (by decide) (by decide) (by decide) h
  | requirements => exact not_climbs_relativeFile h

/-- **An accepted text is clean** exactly when it does not end in a line break, and as a remote or
    branch has no segment `..`. -/
theorem clean_iff :
    Clean (patternOf name) t ↔
      t.getLast? ≠ some lineBreak ∧ (name = .remote ∨ name = .branch → ¬ Climbs t) := by
  rw [← forall_admits_iff patternOf_lineBreak h]
  constructor
  · exact fun hclean => ⟨hclean.admitted, fun _ => hclean.noClimb⟩
  · rintro ⟨hadmitted, hgit⟩
    refine ⟨hadmitted, fun c hc => ?_, patternOf_noDash h, fun hclimb => ?_⟩
    · by_contra hmeta
      rw [Bool.not_eq_false] at hmeta
      exact Bool.noConfusion ((patternOf_meta c hmeta).symm.trans (hadmitted c hc))
    · by_cases hname : name = .remote ∨ name = .branch
      · exact hgit hname hclimb
      · rw [not_or] at hname
        exact patternOf_noClimb h hname.1 hname.2 hclimb

end

/-! ### The names -/

theorem namePattern_lineBreak : (namePattern kind).admits lineBreak = false := by
  cases kind <;> decide

/-- **An accepted name is clean** exactly when it does not end in a line break and avoids what else its
    pattern admits. -/
theorem cleanName_iff (h : ((namePattern kind).anchored).Matches t) :
    Clean (namePattern kind) t ↔ t.getLast? ≠ some lineBreak ∧ Avoids t kind := by
  rw [← forall_admits_iff namePattern_lineBreak h]
  constructor
  · intro hclean
    refine ⟨hclean.admitted, ?_⟩
    cases kind with
    | imageRef | labelKey => exact hclean.noClimb
    | containerUser => exact ⟨hclean.noDash, hclean.noClimb⟩
    | moduleStream => exact hclean.noDash
    | relative => exact hclean.plain
    | user => exact fun hmem => absurd (hclean.plain _ hmem) (by decide)
    | _ => trivial
  · rintro ⟨hadmitted, havoids⟩
    refine ⟨hadmitted, fun c hc => ?_, ?_, ?_⟩
    · by_cases hrelative : kind = .relative
      · subst hrelative
        exact havoids c hc
      · by_contra hmeta
        rw [Bool.not_eq_false] at hmeta
        have hall : ∀ c ∈ shellMeta, (namePattern kind).admits c = true →
            kind = .user ∧ c = '$'.toNat := by
          cases kind with
          | relative => exact absurd rfl hrelative
          | _ => decide
        obtain ⟨rfl, rfl⟩ := hall c (List.contains_iff_mem.mp hmeta) (hadmitted c hc)
        exact havoids hc
    · cases kind with
      | moduleStream => exact havoids
      | containerUser => exact havoids.1
      | relative => exact head?_ne_of_notAhead h
      | _ => exact head?_ne_of_begins (by decide) (by decide) h
    · cases kind with
      | imageRef | labelKey => exact havoids
      | containerUser => exact havoids.2
      | relative => exact not_climbs_relative h
      | _ => exact not_climbs_of_begins (by decide) (by decide) (by decide) h

end Patterns

/-! ## 7. From the options to the words -/

def Options.texts (options : Options) : OptionName → List Text
  | .remote => options.remote.toList
  | .branch => options.branch.toList
  | .services => options.services.getD []
  | .unit => options.unit.toList
  | .requirements => options.requirements.toList

section Steps

variable {app : Application} {value : Value} {text : Option Text} {names : List Text} {t : Text}
  {p : Pattern} {kind : Kind} {options : Members} {cleaned : Options} {name : OptionName} {step : Step}
  {place : Place} {command : Command}

theorem accepted_eq_some : value.accepted p = some t ↔ value = .str t ∧ (p.anchored).Matches t := by
  constructor
  · intro h
    cases value with
    | str u =>
      obtain ⟨hmatches, ⟨⟩⟩ := Option.ite_none_right_eq_some.mp h
      exact ⟨rfl, hmatches⟩
    | _ => exact nomatch h
  · rintro ⟨rfl, h⟩
    exact if_pos h

theorem texts_of_not_truthy (h : value.truthy = false) : value.texts = [] := by
  cases value with
  | str text => simpa [Value.texts, Value.truthy] using h
  | list values =>
    obtain rfl : values = [] := by simpa [Value.truthy] using h
    rfl
  | _ => rfl

theorem texts_str (h : t ≠ []) : (Value.str t).texts = [t] := if_neg h

/-- What an option's text is: that of the value, matched by its pattern. -/
def Taken (p : Pattern) (value : Value) (names : List Text) : Prop :=
  (∀ t, t ∈ names ↔ t ∈ value.texts) ∧ ∀ t ∈ names, (p.anchored).Matches t

theorem taken_of_accepted (hnull : p.nullable = false) (h : value.accepted p = some t) :
    Taken p value [t] := by
  obtain ⟨rfl, hmatches⟩ := accepted_eq_some.mp h
  refine ⟨fun u => by rw [texts_str (ne_nil_of_matches hnull hmatches)], fun u hu => ?_⟩
  rwa [List.mem_singleton.mp hu]

theorem taken_gitOption (h : gitOption value = ([], text)) : Taken gitName value text.toList := by
  rw [gitOption] at h
  split at h
  · split at h
    · next u hu =>
        obtain rfl := (Prod.mk.inj h).2
        exact taken_of_accepted (by decide) hu
    · exact absurd (Prod.mk.inj h).1 (List.cons_ne_nil _ _)
  · next hfalse =>
      obtain rfl := (Prod.mk.inj h).2
      rw [Taken, texts_of_not_truthy (by simpa using hfalse)]
      simp

variable {values : List Value}

theorem mapM_accepted (h : values.mapM (·.accepted p) = some names) :
    values = names.map .str ∧ ∀ t ∈ names, (p.anchored).Matches t := by
  induction values generalizing names with
  | nil =>
    cases h
    exact ⟨rfl, List.forall_mem_nil _⟩
  | cons value values ih =>
    rw [List.mapM_cons] at h
    obtain ⟨first, hfirst, h⟩ := Option.bind_eq_some_iff.mp h
    obtain ⟨others, hothers, h⟩ := Option.bind_eq_some_iff.mp h
    cases h
    obtain ⟨rfl, hmatches⟩ := accepted_eq_some.mp hfirst
    obtain ⟨rfl, hall⟩ := ih hothers
    exact ⟨rfl, List.forall_mem_cons.mpr ⟨hmatches, hall⟩⟩

theorem texts_list : (Value.list (names.map .str)).texts = names := by
  rw [Value.texts, List.filterMap_map]
  exact List.filterMap_some

theorem taken_servicesOption {services : Option (List Text)}
    (h : servicesOption value = ([], services)) :
    Taken serviceName value (services.getD []) := by
  unfold servicesOption at h
  split at h
  · split at h
    · next values =>
        split at h
        · split at h
          · next found hfound =>
              obtain rfl := (Prod.mk.inj h).2
              obtain ⟨rfl, hall⟩ := mapM_accepted hfound
              refine ⟨fun t => ?_, fun t ht => hall t (List.mem_eraseDups.mp ht)⟩
              rw [texts_list, Option.getD_some, List.mem_eraseDups]
          · exact absurd (Prod.mk.inj h).1 (List.cons_ne_nil _ _)
        · exact absurd (Prod.mk.inj h).1 (List.cons_ne_nil _ _)
    all_goals exact absurd (Prod.mk.inj h).1 (List.cons_ne_nil _ _)
  · next hfalse =>
      obtain rfl := (Prod.mk.inj h).2
      rw [Taken, texts_of_not_truthy (by simpa using hfalse)]
      simp

theorem taken_required {bad : ErrorDetail} (hnull : p.nullable = false)
    (h : required p bad value = ([], text)) : Taken p value text.toList := by
  rw [required] at h
  split at h
  · next u hu =>
      obtain rfl := (Prod.mk.inj h).2
      exact taken_of_accepted hnull hu
  · exact absurd (Prod.mk.inj h).1 (List.cons_ne_nil _ _)

/-- A name that the kind does not allow is not there. -/
theorem get_of_not_allowed {key : String}
    (hall : ∀ member ∈ options, ∃ name ∈ kind.allowed, member.1 = points name)
    (hkey : key ∉ kind.allowed) : options.get key = .null := by
  have hnone : options.lookup (points key) = none := by
    refine List.lookup_eq_none_iff.mpr fun member hmember => ?_
    obtain ⟨name, hname, hsame⟩ := hall member hmember
    rw [hsame]
    have hne : points key ≠ points name := fun heq => hkey (by rwa [points_inj heq])
    exact bne_iff_ne.mpr hne
  rw [Members.get, hnone]
  rfl

theorem taken_nothing (h : value = .null) : Taken p value [] := by
  rw [h]
  exact ⟨fun t => Iff.rfl, List.forall_mem_nil _⟩

theorem taken_gitOptions (h : gitOptions options = ([], cleaned)) :
    Taken gitName (options.get "remote") cleaned.remote.toList ∧
      Taken gitName (options.get "branch") cleaned.branch.toList ∧
      cleaned = { remote := cleaned.remote, branch := cleaned.branch } := by
  obtain ⟨hproblems, rfl⟩ := Prod.mk.inj h
  simp only [List.append_eq_nil_iff] at hproblems
  obtain ⟨⟨⟨hremote, hbranch⟩, -⟩, -⟩ := hproblems
  exact ⟨taken_gitOption (Prod.ext hremote rfl), taken_gitOption (Prod.ext hbranch rfl), rfl⟩

section

variable (h : optionsOf kind options = ([], cleaned))

include h

/-- Every member has a name that the kind allows. -/
theorem allowed_of_optionsOf :
    ∀ member ∈ options, ∃ name ∈ kind.allowed, member.1 = points name := by
  intro member hmember
  by_contra hnone
  have hunknown : ∃ member ∈ options, ∀ name ∈ kind.allowed, member.1 ≠ points name :=
    ⟨member, hmember, fun name hname hsame => hnone ⟨name, hname, hsame⟩⟩
  unfold optionsOf at h
  rw [if_pos hunknown] at h
  exact absurd (Prod.mk.inj h).1 (List.cons_ne_nil _ _)

/-- **The cleaned options** are the texts of the options, each matched by its pattern. -/
theorem taken_optionsOf (name : OptionName) :
    Taken (patternOf name) (options.get name.key) (cleaned.texts name) := by
  have hall := allowed_of_optionsOf h
  unfold optionsOf at h
  split at h
  · exact absurd (Prod.mk.inj h).1 (List.cons_ne_nil _ _)
  · cases kind with
      | gitPull =>
        obtain ⟨hremote, hbranch, heq⟩ := taken_gitOptions h
        rw [heq]
        cases name with
        | remote => exact hremote
        | branch => exact hbranch
        | _ => exact taken_nothing (get_of_not_allowed hall (by decide))
      | composePull | composeUp | composeBuild =>
        obtain ⟨hproblems, rfl⟩ := Prod.mk.inj h
        cases name with
        | services => exact taken_servicesOption (Prod.ext hproblems rfl)
        | _ => exact taken_nothing (get_of_not_allowed hall (by decide))
      | systemdUserRestart =>
        obtain ⟨hproblems, rfl⟩ := Prod.mk.inj h
        cases name with
        | unit => exact taken_required (by decide) (Prod.ext hproblems rfl)
        | _ => exact taken_nothing (get_of_not_allowed hall (by decide))
      | pipInstall =>
        obtain ⟨hproblems, rfl⟩ := Prod.mk.inj h
        cases name with
        | requirements => exact taken_required (by decide) (Prod.ext hproblems rfl)
        | _ => exact taken_nothing (get_of_not_allowed hall (by decide))
      | restart | migrate | collectstatic =>
        obtain ⟨-, rfl⟩ := Prod.mk.inj h
        cases name <;> exact taken_nothing (get_of_not_allowed hall (by decide))

theorem key_allowed (ht : t ∈ cleaned.texts name) : name.key ∈ kind.allowed := by
  by_contra hkey
  have hnull := get_of_not_allowed (allowed_of_optionsOf h) hkey
  have hmem := ((taken_optionsOf h name).1 t).mp ht
  rw [hnull] at hmem
  exact absurd hmem List.not_mem_nil

end

@[simp] theorem option_mem_own {words : List String} : Word.option name t ∉ own words := by
  simp [own]

@[simp] theorem option_mem_argv {target : ContainerTarget} {arguments : List Word} :
    .option name t ∈ target.argv arguments ↔ .option name t ∈ arguments := by
  rw [ContainerTarget.argv]
  split <;> simp

@[simp] theorem option_mem_servicesWords :
    .option name t ∈ servicesWords cleaned ↔ name = .services ∧ t ∈ cleaned.services.getD [] := by
  simp [servicesWords, and_comm, eq_comm]

theorem option_mem_composeCommand {arguments : List Word}
    (h : composeCommand place arguments = some command) :
    .option name t ∈ command.argv ↔ .option name t ∈ arguments := by
  obtain ⟨target, -, rfl⟩ := Option.map_eq_some_iff.mp h
  exact option_mem_argv

/-- **A word from an option is one of its texts.** -/
theorem mem_texts_of_mem_argv (h : runCommand step place = some command)
    (hword : .option name t ∈ command.argv) : t ∈ step.options.texts name := by
  unfold runCommand at h
  cases hkind : step.kind with
  | gitPull =>
    simp only [hkind, Option.some.injEq] at h
    subst h
    have hboth : step.options.remote = some t ∧ .remote = name ∨
        step.options.branch = some t ∧ .branch = name := by simpa using hword
    rcases hboth with ⟨htext, rfl⟩ | ⟨htext, rfl⟩
    · exact Option.mem_toList.mpr htext
    · exact Option.mem_toList.mpr htext
  | composePull | composeUp | composeBuild =>
    simp only [hkind] at h
    rw [option_mem_composeCommand h] at hword
    have hservices : name = .services ∧ t ∈ step.options.services.getD [] := by
      simpa using hword
    obtain ⟨rfl, ht⟩ := hservices
    exact ht
  | restart =>
    simp only [hkind] at h
    split at h
    · rw [option_mem_composeCommand h] at hword
      simp at hword
    · cases h
      simp at hword
  | systemdUserRestart =>
    simp only [hkind, Option.map_eq_some_iff] at h
    obtain ⟨unit, hunit, rfl⟩ := h
    have hboth : name = .unit ∧ t = unit := by simpa using hword
    obtain ⟨rfl, rfl⟩ := hboth
    exact Option.mem_toList.mpr hunit
  | pipInstall =>
    simp only [hkind, Option.map_eq_some_iff] at h
    obtain ⟨requirements, hrequirements, rfl⟩ := h
    have hboth : name = .requirements ∧ t = requirements := by simpa using hword
    obtain ⟨rfl, rfl⟩ := hboth
    exact Option.mem_toList.mpr hrequirements
  | migrate | collectstatic =>
    simp only [hkind, Option.some.injEq] at h
    subst h
    simp at hword

/-- In a Compose service every command can be built. -/
def somePlace : Place := ⟨[], [], some ⟨[], [], []⟩, [], [], []⟩

/-- **Each text of the options is a word of the command.** -/
theorem exists_word (h : optionsOf step.kind options = ([], step.options))
    (ht : t ∈ step.options.texts name) :
    ∃ command, runCommand step somePlace = some command ∧ .option name t ∈ command.argv := by
  have hkey := key_allowed h ht
  unfold runCommand
  cases hkind : step.kind with
  | gitPull =>
    rw [hkind] at hkey
    refine ⟨_, rfl, ?_⟩
    cases name with
    | remote => simpa using Option.mem_toList.mp ht
    | branch => simpa using Option.mem_toList.mp ht
    | _ => exact absurd hkey (by decide)
  | composePull | composeUp | composeBuild =>
    rw [hkind] at hkey
    refine ⟨_, rfl, ?_⟩
    cases name with
    | services =>
      rw [option_mem_argv]
      exact List.mem_append_right _ (option_mem_servicesWords.mpr ⟨rfl, ht⟩)
    | _ => exact absurd hkey (by decide)
  | systemdUserRestart =>
    rw [hkind] at hkey
    cases name with
    | unit =>
      have hunit : step.options.unit = some t := Option.mem_toList.mp ht
      rw [hunit]
      exact ⟨_, rfl, by simp⟩
    | _ => exact absurd hkey (by decide)
  | pipInstall =>
    rw [hkind] at hkey
    cases name with
    | requirements =>
      have hrequirements : step.options.requirements = some t := Option.mem_toList.mp ht
      rw [hrequirements]
      exact ⟨_, rfl, by simp⟩
    | _ => exact absurd hkey (by decide)
  | restart | migrate | collectstatic =>
    rw [hkind] at hkey
    exact absurd hkey List.not_mem_nil

/-! ## 8. What is accepted -/

theorem options_of_optionMembers {members : Members} (h : optionMembers members = some options) :
    (Value.dict members).options = options := by
  unfold optionMembers at h
  rw [Value.options]
  cases hvalue : Members.get members "options" with
  | dict found =>
    cases found with
    | nil | cons _ _ => exact Option.some.inj (by simpa [hvalue, Value.truthy] using h)
  | _ =>
    rw [hvalue] at h
    dsimp only at h
    split at h
    · exact nomatch h
    · exact Option.some.inj h

/-- **An accepted step** has the options that are left of those it came with. -/
theorem optionsOf_of_stepOf (h : stepOf app value = .ok step) :
    optionsOf step.kind value.options = ([], step.options) := by
  cases value with
  | dict members =>
    unfold stepOf at h
    cases hkind : kindOf members with
    | none => simp [hkind] at h
    | some kind =>
      cases hoptions : optionMembers members with
      | none => simp [hkind, hoptions] at h
      | some options =>
        rw [options_of_optionMembers hoptions]
        simp only [hkind, hoptions] at h
        split at h
        · next minutes heq =>
            cases h
            obtain ⟨-, hproblems⟩ := Prod.mk.inj heq
            exact Prod.ext (List.append_eq_nil_iff.mp hproblems).2 rfl
        all_goals exact nomatch h
  | _ => exact nomatch h

variable {steps : List Step}

theorem validatedFrom_ok {index : Nat} (h : validatedFrom app index values = .ok steps) :
    List.Forall₂ (fun value step => stepOf app value = .ok step) values steps := by
  induction values generalizing index steps with
  | nil =>
    cases h
    exact .nil
  | cons value values ih =>
    unfold validatedFrom at h
    split at h
    · next step rest hstep hrest =>
        cases h
        exact .cons hstep (ih hrest)
    all_goals exact nomatch h

theorem exists_of_forall₂
    (h : List.Forall₂ (fun value step => stepOf app value = .ok step) values steps) :
    (∃ value ∈ values, t ∈ (value.options.get name.key).texts) ↔
      ∃ step ∈ steps, t ∈ step.options.texts name := by
  induction h with
  | nil => simp
  | cons hstep _ ih =>
    rw [List.exists_mem_cons_iff, List.exists_mem_cons_iff, ih,
      (taken_optionsOf (optionsOf_of_stepOf hstep) name).1]

section

variable (h : validated app value = .ok steps)

include h

theorem validated_ok :
    ∃ values, value = .list values ∧
      List.Forall₂ (fun value step => stepOf app value = .ok step) values steps := by
  cases value with
  | list values =>
    simp only [validated] at h
    split at h
    · exact nomatch h
    · exact ⟨values, rfl, validatedFrom_ok h⟩
  | _ => exact nomatch h

/-- **The texts of accepted steps** are those of their options. -/
theorem mem_optionTexts_iff :
    t ∈ optionTexts name value ↔ ∃ step ∈ steps, t ∈ step.options.texts name := by
  obtain ⟨values, rfl, hsteps⟩ := validated_ok h
  rw [optionTexts, List.mem_flatMap]
  exact exists_of_forall₂ hsteps

/-- Every accepted step has options its kind allows. -/
theorem exists_options :
    ∀ step ∈ steps, ∃ options, optionsOf step.kind options = ([], step.options) := by
  obtain ⟨values, -, hsteps⟩ := validated_ok h
  clear h
  induction hsteps with
  | nil => exact List.forall_mem_nil _
  | cons hstep _ ih => exact List.forall_mem_cons.mpr ⟨⟨_, optionsOf_of_stepOf hstep⟩, ih⟩

end

/-- **Nothing gets into a command but what the patterns admit**, whenever steps are accepted and
    whatever they hold: the words that come from options are clean exactly when no text of an option
    ends in a line break, and no remote or branch has a segment `..`; and a name that `matched`
    accepts is clean exactly when it does not end in a line break and avoids what else its pattern
    admits. -/
theorem options_clean_iff {steps : List Step} (h : validated app value = .ok steps) :
    ((∀ step ∈ steps, ∀ place command, runCommand step place = some command →
        ∀ name t, .option name t ∈ command.argv → Clean (patternOf name) t) ↔
      ∀ name, ∀ t ∈ optionTexts name value,
        t.getLast? ≠ some lineBreak ∧ (name = .remote ∨ name = .branch → ¬ Climbs t)) ∧
    ∀ kind t, matched kind (.str t) = some t →
      (Clean (namePattern kind) t ↔ t.getLast? ≠ some lineBreak ∧ Avoids t kind) := by
  refine ⟨⟨fun hclean name t ht => ?_, fun hall step hstep place command hcommand name t hword => ?_⟩,
    fun kind t ht => cleanName_iff (accepted_eq_some.mp ht).2⟩
  · obtain ⟨step, hstep, ht⟩ := (mem_optionTexts_iff h).mp ht
    obtain ⟨options, hoptions⟩ := exists_options h step hstep
    obtain ⟨command, hcommand, hword⟩ := exists_word hoptions ht
    exact (clean_iff ((taken_optionsOf hoptions name).2 t ht)).mp
      (hclean step hstep _ command hcommand name t hword)
  · have ht := mem_texts_of_mem_argv hcommand hword
    obtain ⟨options, hoptions⟩ := exists_options h step hstep
    exact (clean_iff ((taken_optionsOf hoptions name).2 t ht)).mpr
      (hall name t ((mem_optionTexts_iff h).mpr ⟨step, hstep, ht⟩))

end Steps

/-- A pull of a branch, as `validated` reads it. -/
def pullOf (remote branch : String) : Value :=
  .list [.dict [(points "kind", .str (points "git_pull")),
    (points "options", .dict [(points "remote", .str (points remote)),
      (points "branch", .str (points branch))])]]

def shop : Application := ⟨.host, points "/srv/shop"⟩

/-- The branch `main` of `origin` is accepted, and clean. -/
theorem options_clean_iff_main :
    ∃ steps, validated shop (pullOf "origin" "main") = .ok steps ∧
      ∀ step ∈ steps, ∀ place command, runCommand step place = some command →
        ∀ name t, .option name t ∈ command.argv → Clean (patternOf name) t := by
  have hsteps : validated shop (pullOf "origin" "main") = .ok [⟨.gitPull,
      { remote := some (points "origin"), branch := some (points "main") }, 10⟩] := by
    decide +kernel
  refine ⟨_, hsteps, (options_clean_iff hsteps).1.mpr fun name t ht => ?_⟩
  have htexts : ∀ t ∈ optionTexts name (pullOf "origin" "main"),
      t = points "origin" ∨ t = points "main" := by
    cases name <;> decide +kernel
  have hslash : '/'.toNat ∉ t ∧ points ".." ≠ t ∧ t.getLast? ≠ some lineBreak := by
    rcases htexts t ht with rfl | rfl <;> decide
  refine ⟨hslash.2.2, fun _ hclimb => hslash.2.1 ?_⟩
  rwa [Climbs, List.splitOn_eq_singleton hslash.1, List.mem_singleton] at hclimb

/-- **A branch with a line break behind it is accepted**, and stands so in the command; so is the name
    of a volume. -/
theorem break_smuggled :
    ∃ step command, validated shop (pullOf "origin" "main\n") = .ok [step] ∧
      runCommand step somePlace = some command ∧
      .option .branch (points "main\n") ∈ command.argv ∧ ¬ Clean gitName (points "main\n") ∧
      matched .volume (.str (points "data\n")) = some (points "data\n") ∧
      ¬ Clean (namePattern .volume) (points "data\n") := by
  have hsteps : validated shop (pullOf "origin" "main\n") = .ok [⟨.gitPull,
      { remote := some (points "origin"), branch := some (points "main\n") }, 10⟩] := by
    decide +kernel
  refine ⟨_, _, hsteps, rfl, by decide +kernel, fun hclean => ?_, by decide +kernel, fun hclean => ?_⟩
  · exact absurd (hclean.admitted lineBreak (by decide)) (by decide)
  · exact absurd (hclean.admitted lineBreak (by decide)) (by decide)

end Dbs.Catalogue

/-
  File:      Dbs/Release.lean
  Subject:   WHICH BACKUPS A RUN REMOVES FROM THE SERVER (dbs_runs.py, DbsRun;
             backup_file_repository.py, recorded_at, server_copies; backup_run_service.py,
             _retain_dbs, _verify): backups are collected with their digests, and released by their
             path and size.

  * `ServerBackup`, `BackupFile` -- what the server lists and what the manager records;
  * `held`, `problem`, `installed`, `serverCopies`, `stale` -- what a run asks of its records;
  * `Stage`, `step` -- any number of runs, one query, one transfer or one removal at a time, among
    deletions, verifications and whatever happens to the files of the server;
  * `readBefore` -- the file that is removed is one that was read for a verified record of its path;
  * `Faithful`, `Sound` -- what a record says of the file it was read from, along every run;
  * `release_verified` -- then its digest is that of such a record; `release_takes` -- two files that
    were put in the place of a backup, of its size.
-/
import Dbs.Lib.Folder
import Dbs.Lib.Octets
import Dbs.Naming

namespace Dbs.Release

open Octets Naming Runs Folder Rows

/-! ## 1. Backups on the server and their records -/

/-- A folder of the server and a name in it. -/
structure Path where
  folder : Name
  name : Name
deriving DecidableEq

structure ServerBackup where
  name : Name
  path : Path
  size : Nat

/-- A file of the server, with a number for every time that one is put under a path. -/
structure File where
  content : Bytes
  number : Nat

abbrev Server := List (Path × File)

inductive Validation
  | structureOk
  | verified
  | failed
deriving DecidableEq

/-- A moment with its microseconds. -/
abbrev Moment := List Nat

/-- A record of the kind DBS. -/
structure BackupFile (δ : Type) where
  pk : Nat
  application : Nat
  plan : Option Nat
  name : Name
  size : Nat
  sha256 : δ
  validation : Validation
  failure : Name
  remotePath : Option Path
  remoteSize : Option Nat
  createdAt : Moment
  deleted : Bool
  /-- The file of the server that it was read from, when it arrived as it was announced. -/
  source : Option Nat

variable {δ : Type} [DecidableEq δ]

namespace BackupFile

/-- `_remote_size`. -/
def sizeThere (f : BackupFile δ) : Nat := f.remoteSize.getD f.size

/-- `moment_of`. -/
def momentOf (f : BackupFile δ) : Moment × Moment :=
  let named := parseBackupMoment ((f.remotePath.map Path.name).getD f.name)
  ((named.map fun second => second ++ [0]).getD f.createdAt, f.createdAt)

/-- Of an application, and of one of its plans or of none. -/
def isOf (f : BackupFile δ) (application : Nat) (plan : Option Nat) : Bool :=
  f.application = application && f.plan = plan

end BackupFile

open BackupFile

/-- The settings of a run. -/
structure Job where
  application : Nat
  plan : Option Nat
  folder : Name
  stem : Name
  keepRemote : Nat
  keep : Nat

/-- What the manager is set up with: its runs, the digest, and what `validate_backup` says of a file
    in a run (`ok and decrypted_ok`, and the summary). -/
structure Manager (δ : Type) where
  jobs : Nat → Job
  sha256 : Bytes → δ
  validate : Nat → Bytes → Bool × Name

/-- `folder_files`. -/
def folderFiles (server : Server) (folder : Name) : List ServerBackup :=
  (server.filter fun e => e.1.folder = folder).map fun e => ⟨e.1.name, e.1, e.2.content.length⟩

def waitingBackups (server : Server) (j : Job) : List ServerBackup :=
  if j.folder = [] then []
  else
    orderBy (fun b => toLex ((parseBackupMoment b.name).getD [], b.name))
      ((folderFiles server j.folder).filter fun b => isBackupName b.name (some j.stem))

def recordedAt (records : List (BackupFile δ)) (application : Nat) (paths : List Path) :
    List (BackupFile δ) :=
  records.filter fun f => f.application = application && f.remotePath.any paths.contains

/-- `server_copies`: deleted records too. -/
def serverCopies (records : List (BackupFile δ)) (j : Job) : List (BackupFile δ) :=
  records.filter fun f =>
    f.isOf j.application j.plan && f.validation = .verified && f.remotePath.isSome

/-- The records of one path and size, of which the digest decides. -/
def sameSize (recorded : List (BackupFile δ)) (found : ServerBackup) : List (BackupFile δ) :=
  recorded.filter fun f => f.remotePath = some found.path && f.sizeThere = found.size

def newestFirst (files : List (BackupFile δ)) : List (BackupFile δ) :=
  orderBy (fun f => OrderDual.toDual (toLex f.momentOf)) files

/-- The copies that the server need not keep. -/
def surplusCopies (records : List (BackupFile δ)) (j : Job) : List (BackupFile δ) :=
  (newestFirst (serverCopies records j)).drop j.keepRemote

/-- What the command says when it begins. -/
structure Started where
  name : Name
  partialName : Name

/-- `_installed`: the finished backup among the files of the folder. -/
def installed (records : List (BackupFile δ)) (j : Job) (listed : List ServerBackup) (name : Name) :
    Option ServerBackup :=
  let recorded := (recordedAt records j.application (listed.map ServerBackup.path)).map remotePath
  let candidates := listed.filter fun b =>
    !recorded.contains (some b.path) && isBackupName b.name (some j.stem) &&
      parseBackupMoment b.name = parseBackupMoment name
  match candidates.find? fun b => b.name = name with
  | some b => some b
  | none => candidates.head?

/-- Bytes that have arrived and are to be registered; `source`: the file they were read from. -/
structure Arrival (δ : Type) where
  name : Name
  path : Option Path
  size : Nat
  expected : Option δ
  bytes : Bytes
  source : Option Nat

def shortArrival (received expected : Nat) : Name :=
  Nat.toDigits 10 received ++ " of ".toList ++ Nat.toDigits 10 expected ++ " bytes arrived.".toList

def changedArrival : Name := "The bytes that arrived are not the ones the server sent.".toList

def failureMaxLength : Nat := 500

namespace Arrival

/-- They are what the server announced, if it did. -/
def asAnnounced (M : Manager δ) (a : Arrival δ) : Bool := a.expected.all fun d => M.sha256 a.bytes = d

def problem (M : Manager δ) (j : Nat) (a : Arrival δ) : Name :=
  if a.bytes.length ≠ a.size then shortArrival a.bytes.length a.size
  else if a.asAnnounced M = false then changedArrival
  else if (M.validate j a.bytes).1 then []
  else (M.validate j a.bytes).2

/-- `_register`, under the name that the storage gives it. -/
def record (M : Manager δ) (j pk : Nat) (stored : Name) (createdAt : Moment) (a : Arrival δ) :
    BackupFile δ where
  pk := pk
  application := (M.jobs j).application
  plan := (M.jobs j).plan
  name := stored
  size := a.bytes.length
  sha256 := M.sha256 a.bytes
  validation := if a.problem M j = [] then .verified else .failed
  failure := (a.problem M j).take failureMaxLength
  remotePath := a.path
  remoteSize := some a.size
  createdAt := createdAt
  deleted := false
  source := if a.asAnnounced M then a.source else none

end Arrival

def keepMax : Nat := 5

/-- `good_backups` and `quarantined`, and what `_retain_dbs` deletes of them. -/
def stale (records : List (BackupFile δ)) (j : Job) (arrived : Option Nat) : List (BackupFile δ) :=
  let active := records.filter fun f => !f.deleted && f.isOf j.application j.plan
  let good := orderBy (fun f =>
    OrderDual.toDual (toLex (decide (some f.pk = arrived), toLex f.momentOf)))
    (active.filter fun f => f.validation ≠ .failed)
  let quarantined := newestFirst (active.filter fun f => f.validation = .failed && f.failure ≠ [])
  good.drop (max j.keep 1) ++ quarantined.drop keepMax

/-! ## 2. Runs -/

/-- What is left of a run when an arrival is registered: the records and backups still to be collected,
    or the end. -/
abbrev Rest (δ : Type) := Option (List (BackupFile δ) × List ServerBackup)

inductive Stage (δ : Type)
  | idle
  /-- The waiting backups are listed. -/
  | looking (waiting : List ServerBackup)
  | collecting (recorded : List (BackupFile δ)) (waiting : List ServerBackup)
  | pulling (rest : Rest δ) (found : ServerBackup)
  | arrived (rest : Rest δ) (a : Arrival δ)
  /-- The stream broke, and the finished backup was found. -/
  | resuming (found : ServerBackup) (incoming : Bytes)
  | resumed (found : ServerBackup) (incoming : Bytes)
  | streamed (pk : Nat)
  /-- The copies that may go, not listed yet. -/
  | choosing (pk : Nat) (copies : List (BackupFile δ))
  | releasing (pk : Nat) (copies : List (BackupFile δ)) (listed : List ServerBackup)
  /-- The first copy is gone; its record still has the path. -/
  | removed (pk : Nat) (copies : List (BackupFile δ)) (listed : List ServerBackup)
  | retaining (arrived : Option Nat)

/-- A file that a run removed from the server, and the records at that moment. -/
structure Removal (δ : Type) where
  path : Path
  content : Bytes
  records : List (BackupFile δ)

/-- The rows, the server and the runs. -/
structure World (δ : Type) where
  server : Server
  number : Nat
  records : List (BackupFile δ)
  stages : Nat → Stage δ
  removals : List (Removal δ)

inductive Move
  /-- `waiting_backups` of `_collect`. -/
  | begin
  | queryRecorded
  /-- `_held`. -/
  | compare
  | pull
  | register (stored : Name) (createdAt : Moment)
  /-- The command streams its backup, installs it under the name and reports it. -/
  | stream (name : Name) (content arrived : Bytes)
  /-- The stream broke, and the run does not resume. -/
  | keep
  /-- `_finished`, at its last listing. -/
  | resume (started : Started) (incoming : Bytes)
  | pullRest
  | digest
  | queryCopies
  | list
  | release
  | forget
  | retain
  /-- An exception leaves the run, or its process is killed. -/
  | abort

inductive Action
  | job (j : Nat) (m : Move)
  /-- A file is put on the server, in the place of what was there. -/
  | put (path : Path) (content : Bytes)
  | take (path : Path)
  | delete (pk : Nat)
  | undoDelete (pk : Nat)
  | verify (pk : Nat) (intact : Bool)

namespace World

variable (w : World δ)

def stage (j : Nat) (s : Stage δ) : World δ :=
  { w with stages := Function.update w.stages j s }

def install (path : Path) (content : Bytes) : World δ :=
  { w with server := Folder.put path ⟨content, w.number⟩ w.server, number := w.number + 1 }

/-- The records with the key are changed. -/
def change (pk : Nat) (f : BackupFile δ → BackupFile δ) : World δ :=
  { w with records := update (fun r => r.pk = pk) f w.records }

/-- A run goes on behind an arrival. -/
def resume (j pk : Nat) : Rest δ → World δ
  | some (recorded, waiting) => w.stage j (.collecting recorded waiting)
  | none => w.stage j (.streamed pk)

end World

open World

/-- A copy is gone that the server does not list any more. -/
def forgetPath (f : BackupFile δ) : BackupFile δ := { f with remotePath := none }

def moveStep (M : Manager δ) (w : World δ) (j : Nat) : Move → Option (World δ)
  | .begin =>
    match w.stages j with
    | .idle => some (w.stage j (.looking (waitingBackups w.server (M.jobs j))))
    | _ => none
  | .queryRecorded =>
    match w.stages j with
    | .looking waiting =>
      let recorded := recordedAt w.records (M.jobs j).application (waiting.map ServerBackup.path)
      some (w.stage j (.collecting recorded waiting))
    | _ => none
  | .compare =>
    match w.stages j with
    | .collecting recorded (found :: waiting) =>
      if sameSize recorded found = [] then
        some (w.stage j (.pulling (some (recorded, waiting)) found))
      else
        (find found.path w.server).map fun file =>
          if (sameSize recorded found).any fun f => f.sha256 = M.sha256 file.content then
            w.stage j (.collecting recorded waiting)
          else w.stage j (.pulling (some (recorded, waiting)) found)
    | _ => none
  | .pull =>
    match w.stages j with
    | .pulling rest found =>
      match find found.path w.server, rest with
      | some file, _ =>
        let a : Arrival δ :=
          ⟨found.name, some found.path, found.size, none, file.content, some file.number⟩
        some (w.stage j (.arrived rest a))
      | none, some (recorded, waiting) => some (w.stage j (.collecting recorded waiting))
      -- `BackupLostOnServer`
      | none, none => some (w.stage j .idle)
    | _ => none
  | .register stored createdAt =>
    match w.stages j with
    | .arrived rest a =>
      let pk := w.records.length
      some ({ w with records := w.records ++ [a.record M j pk stored createdAt] }.resume j pk rest)
    | _ => none
  | .stream name content arrived =>
    match w.stages j with
    | .collecting _ [] =>
      let d := M.sha256 content
      if (M.jobs j).folder = [] then
        -- the backup is kept in no folder of the server
        some (w.stage j (.arrived none ⟨name, none, content.length, some d, arrived, none⟩))
      else
        let path : Path := ⟨(M.jobs j).folder, name⟩
        if find path w.server = none then
          let a : Arrival δ := ⟨name, some path, content.length, some d, arrived, some w.number⟩
          some ((w.install path content).stage j (.arrived none a))
        else none
    | _ => none
  | .keep =>
    match w.stages j with
    | .collecting _ [] => some (w.stage j (.retaining none))
    | _ => none
  | .resume started incoming =>
    match w.stages j with
    | .collecting _ [] =>
      let listed := folderFiles w.server (M.jobs j).folder
      if (M.jobs j).folder = [] ∨ listed.any (fun b => b.name = started.partialName) then none
      else
        (installed w.records (M.jobs j) listed started.name).map fun found =>
          w.stage j (.resuming found incoming)
    | _ => none
  | .pullRest =>
    match w.stages j with
    | .resuming found incoming =>
      if incoming.length < found.size then
        (find found.path w.server).map fun file =>
          w.stage j (.resumed found (incoming ++ file.content.drop incoming.length))
      else some (w.stage j (.resumed found incoming))
    | _ => none
  | .digest =>
    match w.stages j with
    | .resumed found incoming =>
      (find found.path w.server).map fun file =>
        let d := M.sha256 file.content
        if incoming.length = found.size ∧ M.sha256 incoming = d then
          let a : Arrival δ :=
            ⟨found.name, some found.path, found.size, some d, incoming, some file.number⟩
          w.stage j (.arrived none a)
        else w.stage j (.pulling none found)
    | _ => none
  | .queryCopies =>
    match w.stages j with
    | .streamed pk =>
      match surplusCopies w.records (M.jobs j) with
      | [] => some (w.stage j (.retaining (some pk)))
      | copies => some (w.stage j (.choosing pk copies))
    | _ => none
  | .list =>
    match w.stages j with
    | .choosing pk copies =>
      some (w.stage j (.releasing pk copies (waitingBackups w.server (M.jobs j))))
    | _ => none
  | .release =>
    match w.stages j with
    | .releasing pk [] _ => some (w.stage j (.retaining (some pk)))
    | .releasing pk (f :: copies) listed =>
      match listed.find? fun b => f.remotePath = some b.path with
      | none =>
        if f.remotePath.any fun p => p.folder = (M.jobs j).folder then
          some ((w.change f.pk forgetPath).stage j (.releasing pk copies listed))
        else some (w.stage j (.releasing pk copies listed))
      | some found =>
        if found.size ≠ f.sizeThere then some (w.stage j (.releasing pk copies listed))
        else
          some { w.stage j (.removed pk (f :: copies) listed) with
            server := Folder.remove found.path w.server
            removals :=
              match find found.path w.server with
              | some file => ⟨found.path, file.content, w.records⟩ :: w.removals
              | none => w.removals }
    | _ => none
  | .forget =>
    match w.stages j with
    | .removed pk (f :: copies) listed =>
      some ((w.change f.pk forgetPath).stage j (.releasing pk copies listed))
    | _ => none
  | .retain =>
    match w.stages j with
    | .retaining arrived =>
      let pks := (stale w.records (M.jobs j) arrived).map pk
      some { w.stage j .idle with
        records := update (fun r => pks.contains r.pk) (fun r => { r with deleted := true }) w.records }
    | _ => none
  | .abort => some (w.stage j .idle)

/-- One statement of one run. -/
def step (M : Manager δ) (w : World δ) : Action → Option (World δ)
  | .job j m => moveStep M w j m
  | .put path content => some (w.install path content)
  | .take path => some { w with server := Folder.remove path w.server }
  | .delete pk => some (w.change pk fun r => { r with deleted := true })
  | .undoDelete pk => some (w.change pk fun r => { r with deleted := false })
  | .verify pk intact =>
    some (w.change pk fun r => { r with validation := if intact then .verified else .failed })

/-- Nothing is there; the files of the server are put one after another. -/
def World.start (δ : Type) : World δ := ⟨[], 0, [], fun _ => .idle, []⟩

/-! ## 3. The condition -/

/-- The file that stands under a path now was read for a record of that path which is verified, and
    arrived as it was announced. -/
def World.wasRead (w : World δ) (path : Path) : Bool :=
  (find path w.server).all fun file => w.records.any fun r =>
    r.validation = .verified && r.remotePath = some path && r.source = some file.number

/-- **Read before**: when a run is about to remove a file, this very file was read for a verified
    record of its path; it was not put there later. -/
def readBefore (w : World δ) : Action → Bool
  | .job j .release =>
    match w.stages j with
    | .releasing _ (f :: _) listed =>
      (listed.find? fun b => f.remotePath = some b.path).all fun found =>
        found.size ≠ f.sizeThere || w.wasRead found.path
    | _ => true
  | _ => true

/-! ## 4. What a record says of the file it was read from -/

variable {M : Manager δ} {w w' : World δ} {path : Path} {file : File} {j : Nat}

/-- **Faithful**: a file with that number has the digest, and no later one gets the number. -/
def Faithful (M : Manager δ) (w : World δ) (source : Option Nat) (d : δ) : Prop :=
  ∀ n, source = some n → n < w.number ∧
    ∀ path file, find path w.server = some file → file.number = n → M.sha256 file.content = d

/-- Files are removed, and others get later numbers. -/
structure Later (w w' : World δ) : Prop where
  number : w.number ≤ w'.number
  kept : ∀ path file, find path w'.server = some file → file.number < w.number →
    find path w.server = some file

omit [DecidableEq δ] in
theorem Faithful.later {source : Option Nat} {d : δ} (h : Faithful M w source d) (hl : Later w w') :
    Faithful M w' source d := by
  intro n hn
  obtain ⟨hlt, hfiles⟩ := h n hn
  exact ⟨Nat.lt_of_lt_of_le hlt hl.number, fun path file hfile heq =>
    hfiles path file (hl.kept path file hfile (heq ▸ hlt)) heq⟩

omit [DecidableEq δ] in
theorem faithful_none {d : δ} : Faithful M w none d := nofun

/-- **The invariant.** -/
structure Sound (M : Manager δ) (w : World δ) : Prop where
  numbers : ∀ path file, find path w.server = some file → file.number < w.number
  distinct : ∀ p q f g, find p w.server = some f → find q w.server = some g →
    f.number = g.number → f = g
  records : ∀ r ∈ w.records, Faithful M w r.source r.sha256
  arrivals : ∀ j rest a, w.stages j = .arrived rest a → a.asAnnounced M = true →
    Faithful M w a.source (M.sha256 a.bytes)
  removals : ∀ r ∈ w.removals, ∃ b ∈ r.records, b.validation = .verified ∧
    b.remotePath = some r.path ∧ b.sha256 = M.sha256 r.content

theorem sound_start : Sound M (World.start δ) where
  numbers := nofun
  distinct := nofun
  records := nofun
  arrivals := nofun
  removals := nofun

/-- The file that is read now. -/
theorem Sound.faithful (h : Sound M w) (hf : find path w.server = some file) :
    Faithful M w (some file.number) (M.sha256 file.content) := by
  intro n hn
  cases hn
  refine ⟨h.numbers path file hf, fun q g hg heq => ?_⟩
  rw [h.distinct q path g file hg hf heq]

/-- The files change. -/
theorem Sound.moved {server : Server} {number : Nat} (h : Sound M w)
    (hl : Later w { w with server, number })
    (hnumbers : ∀ path file, find path server = some file → file.number < number)
    (hdistinct : ∀ p q f g, find p server = some f → find q server = some g → f.number = g.number →
      f = g) :
    Sound M { w with server, number } where
  numbers := hnumbers
  distinct := hdistinct
  records := fun r hr => (h.records r hr).later hl
  arrivals := fun j rest a ha hannounced => (h.arrivals j rest a ha hannounced).later hl
  removals := h.removals

theorem Sound.install (h : Sound M w) (path : Path) (content : Bytes) :
    Sound M (w.install path content) := by
  have hfind : ∀ q f, find q (w.install path content).server = some f →
      f = ⟨content, w.number⟩ ∨ find q w.server = some f := by
    intro q f hf
    rw [World.install, find_put] at hf
    split at hf
    · exact .inl (Option.some.inj hf).symm
    · exact .inr hf
  refine h.moved ⟨Nat.le_succ _, ?_⟩ ?_ ?_
  · intro q f hf hlt
    rcases hfind q f hf with rfl | hf
    · exact absurd hlt (Nat.lt_irrefl _)
    · exact hf
  · intro q f hf
    rcases hfind q f hf with rfl | hf
    · exact Nat.lt_succ_self _
    · exact Nat.lt_succ_of_lt (h.numbers q f hf)
  · intro p q f g hf hg heq
    rcases hfind p f hf with rfl | hf <;> rcases hfind q g hg with rfl | hg
    · rfl
    · exact absurd (heq ▸ h.numbers q g hg) (Nat.lt_irrefl _)
    · exact absurd (heq ▸ h.numbers p f hf) (Nat.lt_irrefl _)
    · exact h.distinct p q f g hf hg heq

theorem Sound.take (h : Sound M w) (path : Path) :
    Sound M { w with server := Folder.remove path w.server } := by
  have hfind : ∀ q f, find q (Folder.remove path w.server) = some f → find q w.server = some f := by
    intro q f hf
    rw [find_remove] at hf
    exact (Option.ite_none_left_eq_some.mp hf).2
  exact h.moved ⟨Nat.le_refl _, fun q f hf _ => hfind q f hf⟩
    (fun q f hf => h.numbers q f (hfind q f hf))
    fun p q f g hf hg => h.distinct p q f g (hfind p f hf) (hfind q g hg)

/-- A run goes on. -/
theorem Sound.stage {s : Stage δ} (h : Sound M w)
    (hs : ∀ rest a, s = .arrived rest a → a.asAnnounced M = true →
      Faithful M w a.source (M.sha256 a.bytes)) : Sound M (w.stage j s) where
  __ := h
  arrivals := by
    intro i rest a ha
    simp only [World.stage] at ha
    by_cases hi : i = j
    · rw [hi, Function.update_self] at ha
      exact hs rest a ha
    · rw [Function.update_of_ne hi] at ha
      exact h.arrivals i rest a ha

/-- Records change, but neither what was read nor its digest. -/
theorem Sound.recorded {p : BackupFile δ → Bool} {f : BackupFile δ → BackupFile δ} (h : Sound M w)
    (hf : ∀ r, (f r).source = r.source ∧ (f r).sha256 = r.sha256) :
    Sound M { w with records := update p f w.records } where
  __ := h
  records := by
    intro r hr
    rcases mem_update.mp hr with ⟨old, hold, -, rfl⟩ | ⟨hr, -⟩
    · rw [(hf old).1, (hf old).2]
      exact h.records old hold
    · exact h.records r hr

theorem Sound.resume {pk : Nat} {rest : Rest δ} (h : Sound M w) : Sound M (w.resume j pk rest) := by
  rcases rest with _ | ⟨recorded, waiting⟩
  · exact h.stage nofun
  · exact h.stage nofun

/-- **A record is made** of what arrived. -/
theorem Sound.register {rest : Rest δ} {a : Arrival δ} {pk : Nat} {stored : Name} {createdAt : Moment}
    (h : Sound M w) (ha : w.stages j = .arrived rest a) :
    Sound M { w with records := w.records ++ [a.record M j pk stored createdAt] } where
  __ := h
  records := by
    intro r hr
    rcases List.mem_append.mp hr with hr | hr
    · exact h.records r hr
    · obtain rfl := List.mem_singleton.mp hr
      show Faithful M w (if a.asAnnounced M then a.source else none) (M.sha256 a.bytes)
      split
      · rename_i hannounced
        exact h.arrivals j rest a ha hannounced
      · exact faithful_none

/-- **A copy is released** whose file was read before. -/
theorem Sound.release {found : ServerBackup} {s : Stage δ} (h : Sound M w)
    (hs : ∀ rest a, s ≠ .arrived rest a) (hread : w.wasRead found.path = true) :
    Sound M { w.stage j s with
      server := Folder.remove found.path w.server
      removals :=
        match find found.path w.server with
        | some file => ⟨found.path, file.content, w.records⟩ :: w.removals
        | none => w.removals } := by
  have hnext := (h.stage (j := j) fun rest a ha => absurd ha (hs rest a)).take found.path
  refine ⟨hnext.numbers, hnext.distinct, hnext.records, hnext.arrivals, ?_⟩
  intro r hr
  rcases hfile : find found.path w.server with _ | file
  · simp only [hfile] at hr
    exact h.removals r hr
  · simp only [hfile] at hr
    rcases List.mem_cons.mp hr with rfl | hr
    · rw [World.wasRead, hfile] at hread
      obtain ⟨b, hb, hall⟩ := List.any_eq_true.mp hread
      simp only [Bool.and_eq_true, decide_eq_true_eq] at hall
      obtain ⟨⟨hverified, hpath⟩, hsource⟩ := hall
      have hdigest := (h.records b hb _ hsource).2 found.path file hfile rfl
      exact ⟨b, hb, hverified, hpath, hdigest.symm⟩
    · exact h.removals r hr

/-! ## 5. Every step of a run -/

section Move

variable (h : Sound M w)

include h

theorem Sound.moveCompare (hstep : moveStep M w j .compare = some w') : Sound M w' := by
  simp only [moveStep] at hstep
  split at hstep
  · split at hstep
    · cases hstep
      exact h.stage (by simp)
    · obtain ⟨file, -, rfl⟩ := Option.map_eq_some_iff.mp hstep
      split
      · exact h.stage (by simp)
      · exact h.stage (by simp)
  · cases hstep

/-- What is read of a file of the server is the file's own. -/
theorem Sound.movePull (hstep : moveStep M w j .pull = some w') : Sound M w' := by
  simp only [moveStep] at hstep
  split at hstep
  · rename_i rest found _
    split at hstep
    · rename_i _ file hfile _
      cases hstep
      refine h.stage fun _ _ ha _ => ?_
      cases ha
      exact h.faithful hfile
    · cases hstep
      exact h.stage (by simp)
    · cases hstep
      exact h.stage (by simp)
  · cases hstep

/-- A streamed backup has the digest announced for it, or its record tells no source. -/
theorem Sound.moveStream {name : Name} {content arrived : Bytes}
    (hstep : moveStep M w j (.stream name content arrived) = some w') : Sound M w' := by
  simp only [moveStep] at hstep
  split at hstep
  · split at hstep
    · cases hstep
      refine h.stage fun _ _ ha _ => ?_
      cases ha
      exact faithful_none
    · obtain ⟨-, ⟨⟩⟩ := Option.ite_none_right_eq_some.mp hstep
      have hinstalled := h.install ⟨(M.jobs j).folder, name⟩ content
      refine hinstalled.stage fun _ _ ha hannounced => ?_
      cases ha
      have hd : M.sha256 arrived = M.sha256 content := of_decide_eq_true hannounced
      have hfile := hinstalled.faithful find_put_self
      rwa [← hd] at hfile
  · cases hstep

theorem Sound.moveResume {started : Started} {incoming : Bytes}
    (hstep : moveStep M w j (.resume started incoming) = some w') : Sound M w' := by
  simp only [moveStep] at hstep
  split at hstep
  · obtain ⟨-, hw⟩ := Option.ite_none_left_eq_some.mp hstep
    obtain ⟨found, -, rfl⟩ := Option.map_eq_some_iff.mp hw
    exact h.stage nofun
  · cases hstep

theorem Sound.movePullRest (hstep : moveStep M w j .pullRest = some w') : Sound M w' := by
  simp only [moveStep] at hstep
  split at hstep
  · split at hstep
    · obtain ⟨file, -, rfl⟩ := Option.map_eq_some_iff.mp hstep
      exact h.stage (by simp)
    · cases hstep
      exact h.stage (by simp)
  · cases hstep

/-- What was resumed is taken when it has the size and the digest of the server's file. -/
theorem Sound.moveDigest (hstep : moveStep M w j .digest = some w') : Sound M w' := by
  simp only [moveStep] at hstep
  split at hstep
  · obtain ⟨file, hfile, rfl⟩ := Option.map_eq_some_iff.mp hstep
    split
    · rename_i hsame
      refine h.stage fun _ _ ha _ => ?_
      cases ha
      rw [hsame.2]
      exact h.faithful hfile
    · exact h.stage (by simp)
  · cases hstep

theorem Sound.moveQueryCopies (hstep : moveStep M w j .queryCopies = some w') : Sound M w' := by
  simp only [moveStep] at hstep
  split at hstep
  · split at hstep
    · cases hstep
      exact h.stage nofun
    · cases hstep
      exact h.stage nofun
  · cases hstep

/-- A copy that is gone is forgotten, one of another size stays, and one of its size is removed. -/
theorem Sound.moveRelease (hstep : moveStep M w j .release = some w')
    (hread : readBefore w (.job j .release) = true) : Sound M w' := by
  simp only [moveStep] at hstep
  split at hstep
  · cases hstep
    exact h.stage (by simp)
  · rename_i pk f copies listed hstage
    split at hstep
    · split at hstep
      · cases hstep
        refine Sound.stage (h.recorded fun _ => ⟨rfl, rfl⟩) ?_
        simp
      · cases hstep
        exact h.stage (by simp)
    · rename_i found hfound
      split at hstep
      · cases hstep
        exact h.stage (by simp)
      · rename_i hsize
        cases hstep
        simp only [readBefore, hstage, hfound, Option.all_some, Bool.or_eq_true,
          decide_eq_true_eq] at hread
        exact h.release (by simp) (hread.resolve_left hsize)
  · cases hstep

/-- **Every step of a run** keeps the invariant, if the file it removes was read before. -/
theorem Sound.move {m : Move} (hstep : moveStep M w j m = some w')
    (hread : readBefore w (.job j m) = true) : Sound M w' := by
  cases m with
  | compare => exact h.moveCompare hstep
  | pull => exact h.movePull hstep
  | stream name content arrived => exact h.moveStream hstep
  | resume started incoming => exact h.moveResume hstep
  | pullRest => exact h.movePullRest hstep
  | digest => exact h.moveDigest hstep
  | queryCopies => exact h.moveQueryCopies hstep
  | release => exact h.moveRelease hstep hread
  | begin | queryRecorded | keep | list =>
    simp only [moveStep] at hstep
    split at hstep
    · cases hstep
      exact h.stage nofun
    · cases hstep
  | register stored createdAt =>
    simp only [moveStep] at hstep
    split at hstep
    · rename_i rest a ha
      cases hstep
      exact (h.register ha).resume
    · cases hstep
  | forget =>
    simp only [moveStep] at hstep
    split at hstep
    · cases hstep
      refine Sound.stage (h.recorded fun _ => ⟨rfl, rfl⟩) ?_
      exact nofun
    · cases hstep
  | retain =>
    simp only [moveStep] at hstep
    split at hstep
    · cases hstep
      refine Sound.recorded (h.stage ?_) fun _ => ⟨rfl, rfl⟩
      exact nofun
    · cases hstep
  | abort =>
    cases hstep
    exact h.stage nofun

end Move

theorem step_sound {a : Action} (hstep : step M w a = some w') (hread : readBefore w a = true)
    (h : Sound M w) : Sound M w' := by
  cases a with
  | job j m => exact h.move hstep hread
  | put path content =>
    cases hstep
    exact h.install path content
  | take path =>
    cases hstep
    exact h.take path
  | delete _ | undoDelete _ | verify _ _ =>
    cases hstep
    exact h.recorded fun _ => ⟨rfl, rfl⟩

/-! ## 6. What is removed was verified -/

/-- **What is removed was verified**: in every run that removes only files that were read before, a
    file is removed when its content has the digest of a record of its path that is verified. -/
theorem release_verified {as : List Action} (hrun : run (step M) (World.start δ) as = some w)
    (hread : Along (step M) (fun w a => readBefore w a = true) (World.start δ) as) :
    ∀ r ∈ w.removals, ∃ b ∈ r.records, b.validation = .verified ∧ b.remotePath = some r.path ∧
      b.sha256 = M.sha256 r.content :=
  (run_invariant_along (fun _ _ _ hstep hread hs => step_sound hstep hread hs) hrun hread
    sound_start).removals

/-- Two runs of one plan; while the first one is the last, the server keeps a copy. -/
def twoRuns : Manager Bytes where
  jobs := fun j => ⟨0, some 0, ['b'], ['n'], if j = 0 then 1 else 0, 5⟩
  sha256 := id
  validate := fun _ bytes => (bytes.head? = some 1, ['?'])

def firstName : Name := "n-20260102-120000Z.dbs".toList

def secondName : Name := "n-20260103-120000Z.dbs".toList

/-- A run that collects nothing and streams a backup. -/
def streams (j : Nat) (name : Name) (content : Bytes) (createdAt : Moment) : List Action :=
  [.job j .begin, .job j .queryRecorded, .job j (.stream name content content),
    .job j (.register name createdAt)]

/-- It ends with the copies that are released. -/
def releases (j : Nat) : List Action := [.job j .queryCopies, .job j .list, .job j .release]

def streamed : List Action := streams 1 firstName [1, 2] [2026, 1, 2, 12, 0, 1, 0] ++ releases 1

theorem release_verified_streamed : ∃ w, run (step twoRuns) (World.start Bytes) streamed = some w ∧
    w.removals.length = 1 ∧ ∀ r ∈ w.removals, ∃ b ∈ r.records, b.validation = .verified ∧
      b.remotePath = some r.path ∧ b.sha256 = r.content := by
  obtain ⟨w, hw⟩ : ∃ w, run (step twoRuns) (World.start Bytes) streamed = some w := by
    rw [← Option.isSome_iff_exists]
    decide +kernel
  have hone : (run (step twoRuns) (World.start Bytes) streamed).map (fun w => w.removals.length) =
      some 1 := by decide +kernel
  rw [hw, Option.map_some, Option.some.injEq] at hone
  exact ⟨w, hw, hone, release_verified (M := twoRuns) hw (by decide +kernel)⟩

/-- Another file of its size is put in the place of the backup before it is released. -/
def replacedLate : List Action :=
  streams 1 firstName [1, 2] [2026, 1, 2, 12, 0, 1, 0] ++
    .put ⟨['b'], firstName⟩ [3, 4] :: releases 1

/-- Another file of its size is in the place of the first backup when the second run collects: it is
    pulled, does not pass, and is released by the record of the first one. -/
def replacedBetween : List Action :=
  streams 0 firstName [1, 2] [2026, 1, 2, 12, 0, 1, 0] ++
    [.job 0 .queryCopies, .put ⟨['b'], firstName⟩ [3, 4], .job 1 .begin, .job 1 .queryRecorded,
      .job 1 .compare, .job 1 .pull, .job 1 (.register firstName [2026, 1, 3, 12, 0, 0, 0]),
      .job 1 (.stream secondName [1, 5] [1, 5]),
      .job 1 (.register secondName [2026, 1, 3, 12, 0, 1, 0])] ++
    releases 1 ++ [.job 1 .forget, .job 1 .release]

/-- The content of a file that is removed has not the digest of a verified record of its path. -/
def Removal.unverified (r : Removal Bytes) : Bool :=
  r.records.all fun b => b.validation ≠ .verified || b.remotePath ≠ some r.path || b.sha256 ≠ r.content

theorem release_takes :
    (∃ w, run (step twoRuns) (World.start Bytes) replacedLate = some w ∧
      ∃ r ∈ w.removals, r.unverified = true) ∧
    ∃ w, run (step twoRuns) (World.start Bytes) replacedBetween = some w ∧
      ∃ r ∈ w.removals, r.unverified = true := by
  have hlate : (run (step twoRuns) (World.start Bytes) replacedLate).any
      (fun w => w.removals.any Removal.unverified) = true := by decide +kernel
  have hbetween : (run (step twoRuns) (World.start Bytes) replacedBetween).any
      (fun w => w.removals.any Removal.unverified) = true := by decide +kernel
  obtain ⟨w, hw, hr⟩ := (Option.any_eq_true _ _).mp hlate
  obtain ⟨v, hv, hs⟩ := (Option.any_eq_true _ _).mp hbetween
  exact ⟨⟨w, hw, List.any_eq_true.mp hr⟩, ⟨v, hv, List.any_eq_true.mp hs⟩⟩

end Dbs.Release

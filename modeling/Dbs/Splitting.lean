/-
  File:      Dbs/Splitting.lean
  Subject:   SERVERS AND APPLICATIONS: what was one table before 0.8 is split by the migrations 0008 to
             0010, and by `SplitServers` in legacy.py where an old export is imported.

  The old tables are those of migration 0007. A row's columns are a folder of names; of plans, files and
  env versions only the link to the server is looked at. Indexes and constraints are left out, and the
  columns that later migrations add.

  * `Old`, `Database` -- the tables before and after;
  * `migrate` -- 0008, the loop of `split` in 0009, 0010; `rejoin` -- the same backwards, with `join`;
  * `records`, `labels` -- an export's records and the order of its models, translated;
  * `importOld`, `importOrdered` -- their loading, as they come or in that order;
  * `SameRow` -- the same columns, up to the time of the last update; `sameRow_server`,
    `sameRow_application`, `sameRow_restored` -- what becomes of one server;
  * `split_run`, `rejoin_run`, `foldlM_load` -- what the loops make of all of them;
  * `import_matches` -- both ways give the same tables up to the ids of the new servers, and the way
    back the old ones.
-/
import Dbs.Lib.Folder
import Dbs.Lib.Rows
import Mathlib.Data.List.Perm.Basic

namespace Dbs.Splitting

open Folder (find put remove names)
open Rows (update)

/-! ## 1. Rows -/

abbrev Id := Nat

/-- Columns; `other`: of a plan, a file or an env version. -/
inductive Name
  | name
  | createdBy
  | createdAt
  | updatedAt
  | deletedAt
  | host
  | port
  | username
  | authMethod
  | privateKeySealed
  | keyPassphraseSealed
  | passwordSealed
  | hostKey
  | hostKeyFingerprint
  | timeoutOnHost
  | connectionState
  | lastSeenAt
  | lastConnectionError
  | runtime
  | projectDir
  | pythonPath
  | managePath
  | settingsModule
  | remoteBackupDir
  | backupPassphraseSealed
  | fileRoots
  | envPath
  | lastCheckStatus
  | lastCheckError
  | lastCheckedAt
  | lastCheckReport
  | lastHealth
  | composeFiles
  | composeService
  | timeoutInContainer
  | engines
  | server
  | application
  | kind
  | engine
  | composeProject
  | containerName
  | workdir
  | mounts
  | envLocation
  | deploySteps
  | discoveredAt
  | other (column : String)
deriving DecidableEq

/-- What a column holds. -/
inductive Value
  | null
  | bool (b : Bool)
  | number (n : Int)
  | text (s : String)
  | bytes (data : List UInt8)
  | time (microseconds : Int)
  | json (s : String)
  | id (id : Id)
deriving DecidableEq

abbrev Fields := List (Name × Value)

/-- A key and its columns. -/
structure Row where
  pk : Id
  fields : Fields

/-- `getattr`, of a column that is there. -/
def Row.get (row : Row) (n : Name) : Value := (find n row.fields).getD .null

def sharedFields : List Name := [.name, .createdBy, .createdAt, .updatedAt, .deletedAt]

def sshFields : List Name :=
  [.host, .port, .username, .authMethod, .privateKeySealed, .keyPassphraseSealed, .passwordSealed,
    .hostKey, .hostKeyFingerprint, .timeoutOnHost, .connectionState, .lastSeenAt, .lastConnectionError]

/-- Of the old `Server`, in the order of 0001, 0003 and 0007. -/
def oldColumns : List Name :=
  [.createdAt, .updatedAt, .deletedAt, .name, .host, .port, .username, .authMethod, .privateKeySealed,
    .keyPassphraseSealed, .passwordSealed, .hostKey, .hostKeyFingerprint, .projectDir, .pythonPath,
    .managePath, .settingsModule, .remoteBackupDir, .backupPassphraseSealed, .fileRoots, .envPath,
    .lastCheckStatus, .lastCheckError, .lastCheckedAt, .lastCheckReport, .lastHealth, .createdBy,
    .composeFiles, .composeService, .runtime, .connectionState, .lastConnectionError, .lastSeenAt,
    .timeoutInContainer, .timeoutOnHost]

/-- `compose`: its runtime is a Compose service; the other choice is the host. -/
structure OldServer where
  pk : Id
  value : Name → Value
  compose : Bool

def OldServer.fields (o : OldServer) : Fields :=
  oldColumns.map fun n =>
    (n, if n = .runtime then .text (if o.compose then "compose" else "host") else o.value n)

def OldServer.row (o : OldServer) : Row := ⟨o.pk, o.fields⟩

/-- A plan, a file or an env version. -/
structure Pointing where
  pk : Id
  server : Id
  columns : List (String × Value)

def Pointing.row (p : Pointing) : Row :=
  ⟨p.pk, (.server, .id p.server) :: p.columns.map fun c => (.other c.1, c.2)⟩

/-- The tables before 0.8. -/
structure Old where
  servers : List OldServer
  plans : List Pointing
  files : List Pointing
  envVersions : List Pointing
  distinct : (servers.map (·.pk)).Nodup

/-- The tables behind the migrations. -/
structure Database where
  servers : List Row
  applications : List Row
  plans : List Row
  files : List Row
  envVersions : List Row

/-! ## 2. The migrations -/

/-- `RenameField` from one to the other. -/
def renamed (before after : Name) (row : Row) : Row :=
  { row with fields := row.fields.map fun c => (if c.1 = before then after else c.1, c.2) }

/-- What 0008 adds to an application. -/
def added : Fields :=
  [(.server, .null), (.kind, .text "host"), (.engine, .text ""), (.composeProject, .text ""),
    (.containerName, .text ""), (.workdir, .text ""), (.mounts, .json "[]"),
    (.envLocation, .text "host"),
    (.deploySteps, .json "[]"), (.discoveredAt, .null)]

/-- `Server` in 0008, each column with its default; `now`: of those that the time is put into. -/
def serverColumns (now : Value) : Fields :=
  [(.createdAt, now), (.updatedAt, now), (.deletedAt, .null), (.name, .text ""), (.host, .text ""),
    (.port, .number 22), (.username, .text ""), (.authMethod, .text ""), (.privateKeySealed, .null),
    (.keyPassphraseSealed, .null), (.passwordSealed, .null), (.hostKey, .text ""),
    (.hostKeyFingerprint, .text ""), (.engines, .json "{}"), (.lastCheckStatus, .text "unknown"),
    (.lastCheckError, .text ""), (.lastCheckedAt, .null), (.lastCheckReport, .json "{}"),
    (.timeoutOnHost, .null), (.connectionState, .text "unknown"), (.lastSeenAt, .null),
    (.lastConnectionError, .text ""), (.createdBy, .null)]

/-- Columns with the values that are given, else with their defaults. -/
def filled (columns given : Fields) : Fields :=
  columns.map fun c => (c.1, (find c.1 given).getD c.2)

def applied0008 (old : Old) : Database where
  servers := []
  applications := old.servers.map fun o => ⟨o.pk, o.fields ++ added⟩
  plans := old.plans.map fun p => renamed .server .application p.row
  files := old.files.map fun p => renamed .server .application p.row
  envVersions := old.envVersions.map fun p => renamed .server .application p.row

section Code

variable (earlier : Value → Value → Bool) (now : Value) (uuid : Id → Id)

/-- `Server._base_manager.create` and the `update` behind it. -/
def made (application : Row) : Row :=
  let given := [.name, .createdBy, .deletedAt] ++ sshFields
  ⟨uuid application.pk, put .createdAt (application.get .createdAt)
    (filled (serverColumns now) (given.map fun n => (n, application.get n)))⟩

/-- `application.save(update_fields=["server", "kind", "engine"])`, on the application's own row. -/
def assigned (application row : Row) : Row :=
  let compose := application.get .runtime = .text "compose"
  let kind := if compose then .text "compose" else application.get .kind
  let engine := if compose then .text "docker" else application.get .engine
  { row with
    fields := put .server (.id (uuid application.pk)) (put .kind kind (put .engine engine row.fields)) }

/-- A turn of the loop in `split`. -/
def splitOne (db : Database) (application : Row) : Database :=
  { db with
    servers := db.servers ++ [made now uuid application]
    applications :=
      update (fun row => row.pk = application.pk) (assigned uuid application) db.applications }

/-- Every application gets its server. -/
def split (db : Database) : Database :=
  (db.applications.mergeSort fun a b => earlier (a.get .createdAt) (b.get .createdAt)).foldl
    (splitOne now uuid) db

/-- `MOVED` -/
def moved : List Name := sshFields ++ [.runtime]

/-- `RemoveField` of each. -/
def without (columns : List Name) (row : Row) : Row :=
  { row with fields := row.fields.filter fun c => c.1 ∉ columns }

def applied0010 (db : Database) : Database :=
  { db with applications := db.applications.map (without moved) }

/-- All three migrations. -/
def migrate (old : Old) : Database := applied0010 (split earlier now uuid (applied0008 old))

/-! ## 3. Backwards -/

/-- What the reverse of 0010 adds to an application. -/
def refilled : Fields :=
  [(.host, .text ""), (.port, .number 22), (.username, .text ""), (.authMethod, .text "key"),
    (.privateKeySealed, .null), (.keyPassphraseSealed, .null), (.passwordSealed, .null),
    (.hostKey, .text ""), (.hostKeyFingerprint, .text ""), (.timeoutOnHost, .null),
    (.connectionState, .text "unknown"), (.lastSeenAt, .null), (.lastConnectionError, .text ""),
    (.runtime, .text "host")]

/-- An application as `join` saves it. -/
def joined (application server : Row) : Row :=
  let runtime := if application.get .kind ≠ .text "host" then "compose" else "host"
  let fields := sshFields.foldr (fun n fields => put n (server.get n) fields) application.fields
  { application with
    fields := put .updatedAt now (put .server .null (put .runtime (.text runtime) fields)) }

/-- A turn of the loop in `join`; nothing where `get` raises. -/
def joinOne (servers : List Row) (application : Row) : Option Row :=
  match application.get .server with
  | .id id => (servers.find? fun row => row.pk = id).map (joined now application)
  | _ => some application

/-- The way back. -/
def join (db : Database) : Option Database :=
  (db.applications.mapM (joinOne now db.servers)).map fun applications =>
    { db with applications, servers := [] }

/-- The tables of 0007 as the reverse of 0008 leaves them. -/
structure Restored where
  servers : List Row
  plans : List Row
  files : List Row
  envVersions : List Row

def refill (row : Row) : Row := { row with fields := row.fields ++ refilled }

def rejoin (db : Database) : Option Restored :=
  (join now { db with applications := db.applications.map refill }).map fun db => {
    servers := db.applications.map (without (names added))
    plans := db.plans.map (renamed .application .server)
    files := db.files.map (renamed .application .server)
    envVersions := db.envVersions.map (renamed .application .server) }

/-! ## 4. An old export -/

inductive Model
  | server
  | application
  | backupPlan
  | backupFile
  | envVersion
deriving DecidableEq

/-- A row of the stream. -/
structure Record where
  model : Model
  pk : Id
  fields : Fields

def pointingAtServer : List Model := [.backupPlan, .backupFile, .envVersion]

def projectFields : List Name := [.runtime, .pythonPath, .remoteBackupDir]

/-- `split` in legacy.py. -/
def splitRecord (record : Record) : List Record :=
  let serverId := uuid record.pk
  let inCompose := find .runtime record.fields = some (.text "compose")
  let serverFields := (sharedFields ++ sshFields).filterMap fun n =>
    (find n record.fields).map fun value => (n, value)
  let applicationFields := record.fields.filter fun c => c.1 ∉ sshFields ∧ c.1 ≠ .runtime
  [⟨.server, serverId, serverFields⟩,
    { record with
      model := .application
      fields := put .server (.id serverId)
        (put .kind (.text (if inCompose then "compose" else "host"))
          (put .engine (.text (if inCompose then "docker" else "")) applicationFields)) }]

/-- `SplitServers.records` -/
def records (record : Record) : List Record :=
  if record.model = .server ∧ projectFields.any (fun n => (find n record.fields).isSome) then
    splitRecord uuid record
  else match find .server record.fields with
    | some server =>
      if record.model ∈ pointingAtServer then
        [{ record with fields := put .application server (remove .server record.fields) }]
      else [record]
    | none => [record]

/-- `Application`, each column with its default. -/
def applicationColumns : Fields :=
  [(.createdAt, now), (.updatedAt, now), (.deletedAt, .null), (.createdBy, .null), (.server, .null),
    (.name, .text ""), (.kind, .text "host"), (.engine, .text ""), (.composeProject, .text ""),
    (.composeService, .text ""), (.composeFiles, .json "[]"), (.containerName, .text ""),
    (.projectDir, .text ""), (.workdir, .text ""), (.pythonPath, .text "python3"),
    (.managePath, .text "manage.py"), (.settingsModule, .text ""),
    (.remoteBackupDir, .text "/var/backups/dbs"), (.mounts, .json "[]"),
    (.backupPassphraseSealed, .null), (.fileRoots, .json "[]"), (.envPath, .text ""),
    (.envLocation, .text "host"), (.deploySteps, .json "[]"), (.lastCheckStatus, .text "unknown"),
    (.lastCheckError, .text ""), (.lastCheckedAt, .null), (.lastCheckReport, .json "{}"),
    (.lastHealth, .null), (.timeoutInContainer, .null), (.discoveredAt, .null)]

/-- Those of plans, files and env versions are taken as they are. -/
def columnsOf : Model → Option Fields
  | .server => some (serverColumns now)
  | .application => some (applicationColumns now)
  | _ => none

/-- A record as a row; nothing where the model has no such column. -/
def loadedRow (record : Record) : Option Row :=
  match columnsOf now record.model with
  | some columns =>
    if ∀ n ∈ names record.fields, n ∈ names columns then
      some ⟨record.pk, filled columns record.fields⟩
    else none
  | none => some ⟨record.pk, record.fields⟩

def Database.add (db : Database) (model : Model) (row : Row) : Database :=
  match model with
  | .server => { db with servers := db.servers ++ [row] }
  | .application => { db with applications := db.applications ++ [row] }
  | .backupPlan => { db with plans := db.plans ++ [row] }
  | .backupFile => { db with files := db.files ++ [row] }
  | .envVersion => { db with envVersions := db.envVersions ++ [row] }

/-- A record is stored. -/
def load (db : Database) (record : Record) : Option Database :=
  (loadedRow now record).map (db.add record.model)

def record (model : Model) (row : Row) : Record := ⟨model, row.pk, row.fields⟩

/-- The records of an export. -/
def exported (old : Old) : List Record :=
  old.servers.map (fun o => record .server o.row)
    ++ old.plans.map (fun p => record .backupPlan p.row) ++
    old.files.map (fun p => record .backupFile p.row) ++
    old.envVersions.map fun p => record .envVersion p.row

/-- `SplitServers.labels` -/
def labels (order : List Model) : List Model :=
  if .server ∉ order ∨ .application ∈ order then order
  else
    let after := order.idxOf .server + 1
    order.take after ++ .application :: order.drop after

/-- `ordered_records` in restore.py; `targetOrder`: by the links between the models. -/
def orderedRecords (targetOrder : List Record → List Model) (order : List Model) (found : List Record) :
    List Record :=
  let order := if order = [] then targetOrder found else order
  let rank := order.zipIdx.foldl (fun rank c => put c.1 c.2 rank) []
  let place (record : Record) := (find record.model rank).getD rank.length
  found.mergeSort fun a b => place a ≤ place b

/-- An import into no rows. -/
def loadAll (found : List Record) : Option Database := found.foldlM (load now) ⟨[], [], [], [], []⟩

/-- Record after record, as the stream of format 2 brings them. -/
def importOld (old : Old) : Option Database := loadAll now ((exported old).flatMap (records uuid))

/-- Format 1 brings them in an order of its own. -/
def importOrdered (targetOrder : List Record → List Model) (order : List Model) (old : Old) :
    Option Database :=
  loadAll now (orderedRecords targetOrder (labels order) ((exported old).flatMap (records uuid)))

end Code

/-! ## 5. One server -/

/-- The same row, but for the time of its last update. -/
def SameRow (a b : Row) : Prop :=
  a.pk = b.pk ∧ ∀ n, n ≠ .updatedAt → find n a.fields = find n b.fields

/-- Other ids of servers, where a column links to one. -/
def relabelled (σ : Id → Id) : Name → Value → Value
  | .server, .id id => .id (σ id)
  | _, value => value

def relabelLink (σ : Id → Id) (row : Row) : Row :=
  { row with fields := row.fields.map fun c => (c.1, relabelled σ c.1 c.2) }

section Server

variable (now now' : Value) (uuid σ : Id → Id) (o : OldServer) (n : Name)

theorem find_filled (columns given : Fields) :
    find n (filled columns given) = (find n columns).map fun d => (find n given).getD d :=
  Folder.find_mapValues (f := fun m d => (find m given).getD d)

theorem find_without (columns : List Name) (row : Row) :
    find n (without columns row).fields = if n ∈ columns then none else find n row.fields := by
  rw [without, Folder.find_filter (p := fun m => decide (m ∉ columns))]
  by_cases h : n ∈ columns <;> simp [h]

theorem find_relabelLink (row : Row) :
    find n (relabelLink σ row).fields = (find n row.fields).map (relabelled σ n) :=
  Folder.find_mapValues

/-- What an old column has. -/
def OldServer.column : Value :=
  if n = .runtime then .text (if o.compose then "compose" else "host") else o.value n

theorem find_old : find n o.fields = if n ∈ oldColumns then some (o.column n) else none :=
  Folder.find_map_names

def application0008 : Row := ⟨o.pk, o.fields ++ added⟩

theorem get_application0008 :
    (application0008 o).get n =
      if n ∈ oldColumns then o.column n else (find n added).getD .null := by
  rw [Row.get, application0008, Folder.find_append, find_old]
  split <;> rfl

theorem find_made :
    find n (made now uuid (application0008 o)).fields =
      if n = .createdAt then some (o.value .createdAt)
      else (find n (serverColumns now)).map fun d =>
        if n ∈ [.name, .createdBy, .deletedAt] ++ sshFields then (application0008 o).get n else d := by
  have hcreated : (application0008 o).get .createdAt = o.value .createdAt := get_application0008 o _
  unfold made
  rw [hcreated, Folder.find_put, find_filled, Folder.find_map_names]
  refine if_congr Iff.rfl rfl (congrArg (Option.map · _) (funext fun d => ?_))
  split <;> rfl

def migratedApplication : Row := without moved (assigned uuid (application0008 o) (application0008 o))

theorem find_migrated :
    find n (migratedApplication uuid o).fields =
      if n ∈ moved then none
      else if n = .server then some (.id (uuid o.pk))
      else if n = .kind then some (.text (if o.compose then "compose" else "host"))
      else if n = .engine then some (.text (if o.compose then "docker" else ""))
      else if n ∈ oldColumns then some (o.value n)
      else find n added := by
  have hruntime : (application0008 o).get .runtime = .text (if o.compose then "compose" else "host") :=
    get_application0008 o _
  have hkind : (application0008 o).get .kind = .text "host" := get_application0008 o _
  have hengine : (application0008 o).get .engine = .text "" := get_application0008 o _
  rw [migratedApplication, find_without]
  by_cases h : n ∈ moved
  · rw [if_pos h, if_pos h]
  · have hcolumn : o.column n = o.value n := by
      rw [OldServer.column, if_neg]
      rintro rfl
      exact h (by decide)
    simp only [assigned]
    rw [if_neg h, if_neg h, Folder.find_put, Folder.find_put, Folder.find_put, hruntime, hkind, hengine,
      application0008, Folder.find_append, find_old, hcolumn]
    obtain ⟨pk, value, compose⟩ := o
    cases compose <;> (split; rfl; split; rfl; split; rfl; split <;> rfl)

/-- The fields that a server's record is translated to. -/
def serverFields : Fields :=
  (sharedFields ++ sshFields).filterMap fun n => (find n o.fields).map fun value => (n, value)

def applicationFields : Fields :=
  put .server (.id (uuid o.pk)) (put .kind (.text (if o.compose then "compose" else "host"))
    (put .engine (.text (if o.compose then "docker" else ""))
      (o.fields.filter fun c => c.1 ∉ sshFields ∧ c.1 ≠ .runtime)))

theorem records_server :
    records uuid (record .server o.row) =
      [⟨.server, uuid o.pk, serverFields o⟩, ⟨.application, o.pk, applicationFields uuid o⟩] := by
  obtain ⟨pk, value, compose⟩ := o
  cases compose <;> rfl

def importedServer : Row := ⟨uuid o.pk, filled (serverColumns now) (serverFields o)⟩

def importedApplication : Row := ⟨o.pk, filled (applicationColumns now) (applicationFields uuid o)⟩

theorem find_importedServer :
    find n (importedServer now uuid o).fields = (find n (serverColumns now)).map fun d =>
      if n ∈ sharedFields ++ sshFields then (find n o.fields).getD d else d := by
  rw [importedServer, find_filled, serverFields, Folder.find_filterMap_names]
  refine congrArg (Option.map · _) (funext fun d => ?_)
  split <;> rfl

theorem find_importedApplication :
    find n (importedApplication now uuid o).fields = (find n (applicationColumns now)).map fun d =>
      if n = .server then .id (uuid o.pk)
      else if n = .kind then .text (if o.compose then "compose" else "host")
      else if n = .engine then .text (if o.compose then "docker" else "")
      else if n ∉ sshFields ∧ n ≠ .runtime then (find n o.fields).getD d else d := by
  rw [importedApplication, find_filled, applicationFields, Folder.find_put, Folder.find_put,
    Folder.find_put, Folder.find_filter (p := fun m => decide (m ∉ sshFields ∧ m ≠ .runtime))]
  refine congrArg (Option.map · _) (funext fun d => ?_)
  split
  · rfl
  split
  · rfl
  split
  · rfl
  by_cases h : n ∉ sshFields ∧ n ≠ .runtime
  · rw [if_pos h, if_pos (decide_eq_true h)]
  · rw [if_neg h, if_neg (by simpa using h)]
    rfl

/-- **One new server**: the columns it is imported with are those that `split` creates it with. -/
theorem sameRow_server :
    SameRow { importedServer now uuid o with pk := σ (uuid o.pk) }
      (made now' (σ ∘ uuid) (application0008 o)) := by
  refine ⟨rfl, fun n hn => ?_⟩
  rw [find_made, find_importedServer, get_application0008, find_old]
  cases n <;> first | rfl | exact absurd rfl hn

/-- **One application**, linked to it. -/
theorem sameRow_application :
    SameRow (relabelLink σ (importedApplication now uuid o)) (migratedApplication (σ ∘ uuid) o) := by
  refine ⟨rfl, fun n _ => ?_⟩
  rw [find_relabelLink, find_importedApplication, find_migrated, find_old]
  cases n <;> rfl

theorem find_joined (application server : Row) :
    find n (joined now application server).fields =
      if n = .updatedAt then some now
      else if n = .server then some .null
      else if n = .runtime then
        some (.text (if application.get .kind ≠ .text "host" then "compose" else "host"))
      else if n ∈ sshFields then some (server.get n)
      else find n application.fields := by
  rw [joined, Folder.find_put, Folder.find_put, Folder.find_put, Folder.find_foldr_put]

/-- What the way back makes of an application and its server. -/
def restoredServer : Row :=
  without (names added)
    (joined now (refill (migratedApplication uuid o)) (made now' uuid (application0008 o)))

theorem sameRow_restored : SameRow (restoredServer now now' uuid o) o.row := by
  refine ⟨rfl, fun n hn => ?_⟩
  have hkind : (refill (migratedApplication uuid o)).get .kind =
      .text (if o.compose then "compose" else "host") := by
    rw [Row.get, refill, Folder.find_append, find_migrated]
    rfl
  rw [restoredServer, find_without, find_joined, hkind, Row.get, find_made, get_application0008, refill,
    Folder.find_append, find_migrated]
  show _ = find n o.fields
  rw [find_old]
  obtain ⟨pk, value, compose⟩ := o
  cases compose <;> cases n <;> first | rfl | exact absurd rfl hn

end Server

/-! ## 6. Runs -/

section Split

variable (earlier : Value → Value → Bool) (now : Value) (uuid : Id → Id)

theorem foldl_splitOne (loop : List Row) (db : Database) :
    loop.foldl (splitOne now uuid) db =
      { db with
        servers := db.servers ++ loop.map (made now uuid)
        applications := loop.foldl
          (fun rows a => update (fun row => row.pk = a.pk) (assigned uuid a) rows)
            db.applications } := by
  induction loop generalizing db with
  | nil => simp
  | cons a loop ih =>
    rw [List.foldl_cons, ih]
    simp [splitOne]

/-- **The loop of `split`**: every application is assigned the server that is made of it. -/
theorem split_run (db : Database) (hn : (db.applications.map (·.pk)).Nodup) :
    ∃ loop : List Row, loop.Perm db.applications ∧
      split earlier now uuid db =
        { db with
          servers := db.servers ++ loop.map (made now uuid)
          applications := db.applications.map fun row => assigned uuid row row } := by
  have hperm := List.mergeSort_perm db.applications
    fun a b => earlier (a.get .createdAt) (b.get .createdAt)
  refine ⟨_, hperm, ?_⟩
  have hloop := (hperm.map (·.pk)).nodup_iff.mpr hn
  rw [split, foldl_splitOne, Rows.foldl_update (g := Row.pk) (f := assigned uuid) (fun _ _ => rfl)
    hloop]
  congr 1
  refine List.map_congr_left fun row hrow => ?_
  rw [Rows.find?_of_key hloop (hperm.mem_iff.mpr hrow)]
  rfl

theorem migrate_run (old : Old) :
    ∃ loop : List Row, loop.Perm (old.servers.map application0008) ∧
      migrate earlier now uuid old =
        { applied0008 old with
          servers := loop.map (made now uuid)
          applications := old.servers.map (migratedApplication uuid) } := by
  have hpks : ((applied0008 old).applications.map (·.pk)) = old.servers.map (·.pk) := List.map_map
  obtain ⟨loop, hperm, hsplit⟩ := split_run earlier now uuid (applied0008 old) (hpks ▸ old.distinct)
  refine ⟨loop, hperm, ?_⟩
  rw [migrate, hsplit, applied0010]
  simp only [applied0008, List.map_map, List.nil_append]
  rfl

end Split

section Join

variable (earlier : Value → Value → Bool) (now now' : Value) (uuid : Id ↪ Id)

theorem joinOne_eq {servers : List Row} {application server : Row} (hn : (servers.map (·.pk)).Nodup)
    (hmem : server ∈ servers) (hlink : application.get .server = .id server.pk) :
    joinOne now servers application = some (joined now application server) := by
  rw [joinOne, hlink]
  show (servers.find? fun row => row.pk = server.pk).map (joined now application) = _
  rw [Rows.find?_of_key hn hmem]
  rfl

theorem renamed_back (p : Pointing) :
    renamed .application .server (renamed .server .application p.row) = p.row := by
  simp [renamed, Pointing.row, Function.comp_def]

theorem rejoin_run (old : Old) :
    rejoin now' (migrate earlier now uuid old) =
      some ⟨old.servers.map (restoredServer now' now uuid), old.plans.map Pointing.row,
        old.files.map Pointing.row, old.envVersions.map Pointing.row⟩ := by
  obtain ⟨loop, hperm, hmigrate⟩ := migrate_run earlier now uuid old
  have hpks : ((loop.map (made now uuid)).map (·.pk)).Perm ((old.servers.map (·.pk)).map uuid) := by
    simpa [List.map_map, Function.comp_def, made, application0008] using hperm.map (uuid ∘ Row.pk)
  have hn : ((loop.map (made now uuid)).map (·.pk)).Nodup :=
    hpks.nodup_iff.mpr (old.distinct.map uuid.injective)
  have hjoin : ∀ o ∈ old.servers,
      joinOne now' (loop.map (made now uuid)) (refill (migratedApplication uuid o)) =
        some (joined now' (refill (migratedApplication uuid o))
          (made now uuid (application0008 o))) := by
    intro o ho
    refine joinOne_eq now' hn (List.mem_map_of_mem (hperm.mem_iff.mpr (List.mem_map_of_mem ho))) ?_
    rw [Row.get, refill, Folder.find_append, find_migrated]
    rfl
  have hloop : ((old.servers.map (migratedApplication uuid)).map refill).mapM
      (joinOne now' (loop.map (made now uuid))) =
        some (old.servers.map fun o =>
          joined now' (refill (migratedApplication uuid o)) (made now uuid (application0008 o))) := by
    rw [List.map_map, List.mapM_map]
    exact Rows.mapM_eq_some_map hjoin
  rw [rejoin, join, hmigrate]
  show ((((old.servers.map (migratedApplication uuid)).map refill).mapM
    (joinOne now' (loop.map (made now uuid)))).map _).map _ = _
  rw [hloop]
  simp [applied0008, renamed_back, restoredServer]

end Join

section Import

variable (now : Value) (uuid : Id → Id)

/-- The columns of a record are ones that its model has. -/
def Fits (record : Record) : Prop :=
  ∀ columns ∈ columnsOf now record.model, ∀ n ∈ names record.fields, n ∈ names columns

def rowOf (record : Record) : Row :=
  ⟨record.pk, (columnsOf now record.model).elim record.fields fun columns =>
    filled columns record.fields⟩

def rowsOf (found : List Record) (model : Model) : List Row :=
  (found.filter fun record => record.model = model).map (rowOf now)

def tables (rows : Model → List Row) : Database :=
  ⟨rows .server, rows .application, rows .backupPlan, rows .backupFile, rows .envVersion⟩

theorem loadedRow_of_fits {record : Record} (h : Fits now record) :
    loadedRow now record = some (rowOf now record) := by
  unfold loadedRow rowOf
  cases hc : columnsOf now record.model with
  | none => rfl
  | some columns => exact if_pos (h columns hc)

theorem add_tables (rows : Model → List Row) (model : Model) (row : Row) :
    (tables rows).add model row = tables fun m => rows m ++ if model = m then [row] else [] := by
  cases model <;> simp [tables, Database.add]

theorem rowsOf_cons (record : Record) (found : List Record) (model : Model) :
    rowsOf now (record :: found) model =
      (if record.model = model then [rowOf now record] else []) ++ rowsOf now found model := by
  by_cases h : record.model = model <;> simp [rowsOf, h]

theorem rowsOf_append (found found' : List Record) (model : Model) :
    rowsOf now (found ++ found') model = rowsOf now found model ++ rowsOf now found' model := by
  simp [rowsOf]

variable {found : List Record}

/-- **Records one after the other**, each into the table of its model. -/
theorem foldlM_load (h : ∀ record ∈ found, Fits now record) (rows : Model → List Row) :
    found.foldlM (load now) (tables rows) = some (tables fun m => rows m ++ rowsOf now found m) := by
  induction found generalizing rows with
  | nil => simp [rowsOf]
  | cons record found ih =>
    have hload : load now (tables rows) record =
        some (tables fun m => rows m ++ if record.model = m then [rowOf now record] else []) := by
      rw [load, loadedRow_of_fits now (h record List.mem_cons_self), Option.map_some, add_tables]
    rw [List.foldlM_cons, hload]
    show found.foldlM (load now) _ = _
    rw [ih fun r hr => h r (List.mem_cons_of_mem record hr)]
    simp only [rowsOf_cons, List.append_assoc]

theorem loadAll_eq (h : ∀ record ∈ found, Fits now record) :
    loadAll now found = some (tables (rowsOf now found)) :=
  foldlM_load now h fun _ => []

/-- What is loaded does not depend on the order of the models. -/
theorem loadAll_ordered (targetOrder : List Record → List Model) (order : List Model)
    (h : ∀ record ∈ found, Fits now record) :
    loadAll now (orderedRecords targetOrder order found) = loadAll now found := by
  have hmem : ∀ record ∈ orderedRecords targetOrder order found, Fits now record :=
    fun record hrecord => h record ((List.mergeSort_perm _ _).mem_iff.mp hrecord)
  have hrows : rowsOf now (orderedRecords targetOrder order found) = rowsOf now found := by
    funext model
    unfold rowsOf orderedRecords
    rw [Rows.filter_mergeSort fun record hrecord => by rw [of_decide_eq_true hrecord]]
  rw [loadAll_eq now hmem, loadAll_eq now h, hrows]

theorem records_pointing {model : Model} (h : model ∈ pointingAtServer) (p : Pointing) :
    records uuid (record model p.row) = [record model (renamed .server .application p.row)] := by
  have hserver : model ≠ .server := by
    rintro rfl
    exact absurd h (by decide)
  have hcolumns : ((p.columns.map fun c => (Name.other c.1, c.2)).filter fun c =>
      !decide (c.1 = .application) && !decide (c.1 = .server)) =
        p.columns.map fun c => (.other c.1, c.2) :=
    List.filter_eq_self.mpr fun c hc => by
      obtain ⟨d, -, rfl⟩ := List.mem_map.mp hc
      rfl
  simp [records, record, Pointing.row, renamed, h, hserver, Folder.find_cons, put, remove, hcolumns,
    Function.comp_def]

/-- The records that an export is translated to. -/
def translated (old : Old) : List Record :=
  (old.servers.flatMap fun o =>
      [⟨.server, uuid o.pk, serverFields o⟩, ⟨.application, o.pk, applicationFields uuid o⟩]) ++
    (applied0008 old).plans.map (record .backupPlan) ++
    (applied0008 old).files.map (record .backupFile) ++
    (applied0008 old).envVersions.map (record .envVersion)

theorem records_exported (old : Old) : (exported old).flatMap (records uuid) = translated uuid old := by
  have hpointing : ∀ (model : Model) (table : List Pointing), model ∈ pointingAtServer →
      (table.map fun p => record model p.row).flatMap (records uuid) =
        (table.map fun p => renamed .server .application p.row).map (record model) := by
    intro model table h
    rw [List.flatMap_map, List.map_map, List.map_eq_flatMap]
    exact List.flatMap_congr fun p _ => records_pointing uuid h p
  have hservers : (old.servers.map fun o => record .server o.row).flatMap (records uuid) =
      old.servers.flatMap fun o =>
        [⟨.server, uuid o.pk, serverFields o⟩, ⟨.application, o.pk, applicationFields uuid o⟩] := by
    rw [List.flatMap_map]
    exact List.flatMap_congr fun o _ => records_server uuid o
  rw [exported, List.flatMap_append, List.flatMap_append, List.flatMap_append, hservers,
    hpointing _ _ (by decide), hpointing _ _ (by decide), hpointing _ _ (by decide), translated]
  rfl

theorem columnsOf_pointing {model : Model} (h : model ∈ pointingAtServer) :
    columnsOf now model = none := by
  cases model <;> first | rfl | exact absurd h (by decide)

theorem fits_pointing {model : Model} (h : model ∈ pointingAtServer) (row : Row) :
    Fits now (record model row) := by
  have hcolumns : columnsOf now (record model row).model = none := columnsOf_pointing now h
  intro columns hc
  rw [hcolumns] at hc
  cases hc

theorem mem_names_applicationFields {o : OldServer} {n : Name}
    (hn : n ∈ names (applicationFields uuid o)) :
    n ∈ [.server, .kind, .engine] ++ oldColumns.filter fun m => m ∉ sshFields ∧ m ≠ .runtime := by
  by_cases hset : n ∈ [.server, .kind, .engine]
  · exact List.mem_append_left _ hset
  · simp only [List.mem_cons, List.not_mem_nil, or_false, not_or] at hset
    rw [Folder.mem_names_iff, applicationFields, Folder.find_put_ne hset.1, Folder.find_put_ne hset.2.1,
      Folder.find_put_ne hset.2.2,
      Folder.find_filter (p := fun m => decide (m ∉ sshFields ∧ m ≠ .runtime)), find_old] at hn
    refine List.mem_append_right _ (List.mem_filter.mpr ?_)
    split_ifs at hn with hkept hold
    · exact ⟨hold, hkept⟩
    · cases hn
    · cases hn

theorem fits_translated (old : Old) : ∀ record ∈ translated uuid old, Fits now record := by
  have hserver : ∀ o : OldServer, Fits now ⟨.server, uuid o.pk, serverFields o⟩ := by
    rintro ⟨pk, value, compose⟩ columns hc n hn
    cases hc
    have hnames : names (serverFields ⟨pk, value, compose⟩) = sharedFields ++ sshFields := by
      cases compose <;> rfl
    exact (by decide : ∀ n ∈ sharedFields ++ sshFields, n ∈ names (serverColumns .null)) n (hnames ▸ hn)
  have happlication : ∀ o : OldServer, Fits now ⟨.application, o.pk, applicationFields uuid o⟩ := by
    intro o columns hc n hn
    cases hc
    have hcolumns : ∀ n ∈ [.server, .kind, .engine] ++
        oldColumns.filter fun m => m ∉ sshFields ∧
        m ≠ .runtime, n ∈ names (applicationColumns .null) := by decide
    exact hcolumns n (mem_names_applicationFields uuid hn)
  intro record hrecord
  simp only [translated, List.mem_append, List.mem_flatMap, List.mem_cons, List.not_mem_nil, or_false,
    List.mem_map] at hrecord
  rcases hrecord with ((⟨o, -, rfl | rfl⟩ | ⟨p, -, rfl⟩) | ⟨p, -, rfl⟩) | ⟨p, -, rfl⟩
  · exact hserver o
  · exact happlication o
  all_goals exact fits_pointing now (by decide) _

theorem rowsOf_flatMap {α : Type} (l : List α) (f : α → List Record) (model : Model) :
    rowsOf now (l.flatMap f) model = l.flatMap fun x => rowsOf now (f x) model := by
  simp [rowsOf, List.filter_flatMap, List.map_flatMap]

theorem rowsOf_pointing (model : Model) (h : model ∈ pointingAtServer) (table : List Row)
    (model' : Model) :
    rowsOf now (table.map (record model)) model' = if model = model' then table else [] := by
  have hrow : rowOf now ∘ record model = id := by
    funext row
    have hcolumns : columnsOf now (record model row).model = none := columnsOf_pointing now h
    show rowOf now (record model row) = row
    rw [rowOf, hcolumns]
    rfl
  rw [rowsOf, List.filter_map, List.map_map, hrow, List.map_id]
  by_cases hm : model = model' <;> simp [record, hm]

theorem rowsOf_translated (old : Old) :
    tables (rowsOf now (translated uuid old)) =
      { applied0008 old with
        servers := old.servers.map (importedServer now uuid)
        applications := old.servers.map (importedApplication now uuid) } := by
  have hservers : ∀ model, rowsOf now (old.servers.flatMap fun o =>
      [⟨.server, uuid o.pk, serverFields o⟩, ⟨.application, o.pk, applicationFields uuid o⟩]) model =
        if model = .server then old.servers.map (importedServer now uuid)
        else if model = .application then old.servers.map (importedApplication now uuid)
        else [] := by
    intro model
    rw [rowsOf_flatMap]
    cases model <;>
      simp [rowsOf, rowOf, columnsOf, importedServer, importedApplication, List.map_eq_flatMap]
  have hrows : ∀ model, rowsOf now (translated uuid old) model =
      (if model = .server then old.servers.map (importedServer now uuid)
        else if model = .application then old.servers.map (importedApplication now uuid)
        else []) ++
      (if .backupPlan = model then (applied0008 old).plans else []) ++
      (if .backupFile = model then (applied0008 old).files else []) ++
      (if .envVersion = model then (applied0008 old).envVersions else []) := by
    intro model
    rw [translated, rowsOf_append, rowsOf_append, rowsOf_append, hservers,
      rowsOf_pointing now _ (by decide), rowsOf_pointing now _ (by decide),
      rowsOf_pointing now _ (by decide)]
  simp [tables, hrows]

/-- **The import of an old export.** -/
theorem importOld_eq (old : Old) :
    importOld now uuid old = some { applied0008 old with
      servers := old.servers.map (importedServer now uuid)
      applications := old.servers.map (importedApplication now uuid) } := by
  rw [importOld, records_exported, loadAll_eq now (fits_translated now uuid old), rowsOf_translated]

theorem importOrdered_eq (targetOrder : List Record → List Model) (order : List Model) (old : Old) :
    importOrdered now uuid targetOrder order old = importOld now uuid old := by
  rw [importOrdered, importOld, records_exported,
    loadAll_ordered now targetOrder _ (fits_translated now uuid old)]

end Import

/-! ## 7. Both ways -/

def Database.relabel (σ : Id → Id) (db : Database) : Database :=
  { db with
    servers := db.servers.map fun row => { row with pk := σ row.pk }
    applications := db.applications.map (relabelLink σ) }

/-- The same tables; servers stand in no order. -/
structure SameTables (a b : Database) : Prop where
  servers : ∃ rows : List Row, rows.Perm b.servers ∧ List.Forall₂ SameRow a.servers rows
  applications : List.Forall₂ SameRow a.applications b.applications
  plans : a.plans = b.plans
  files : a.files = b.files
  envVersions : a.envVersions = b.envVersions

/-- The old tables are back. -/
structure Restored.Is (restored : Restored) (old : Old) : Prop where
  servers : List.Forall₂ SameRow restored.servers (old.servers.map OldServer.row)
  plans : restored.plans = old.plans.map Pointing.row
  files : restored.files = old.files.map Pointing.row
  envVersions : restored.envVersions = old.envVersions.map Pointing.row

theorem forall₂_map {α : Type} {l : List α} {f g : α → Row} (h : ∀ a, SameRow (f a) (g a)) :
    List.Forall₂ SameRow (l.map f) (l.map g) := by
  rw [List.forall₂_map_left_iff, List.forall₂_map_right_iff]
  exact List.forall₂_same.mpr fun a _ => h a

end Dbs.Splitting

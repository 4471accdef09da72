/-
  File:      Dbs/KeyStore.lean
  Subject:   THE MANAGER'S SEALING KEY (manager/keystore.py, the key file of manager/paths.py, swap_in
             of manager/staging.py): one key a data folder, in a file in it or in the system keychain.

  Every change of a file or of the keychain is one step; a process may be killed behind any of them, and
  the keychain may be absent, refuse to answer, or refuse what it is given, at any call.

  * `load`, `carry`, `swapIn` -- the source's functions; `swapIn` statement by statement;
  * `current` -- the key a folder goes by: the file's, else the keychain's;
  * `Steady` -- what every step of `load` keeps; `ends_load`, `load_returns`;
  * `Sound` -- secrets are sealed under the current key; `step_sound`, under the conditions `guarded`;
  * `sealing_key_kept` -- runs whose steps are guarded; `keychain_absent` -- a key of its own next to
    the one in the keychain.
-/
import Dbs.Lib.Effects
import Dbs.Lib.Runs

namespace Dbs.KeyStore

open Effects

/-! ## 1. Folders and the keychain -/

/-- The data folder, the stages of imports and the installations moved aside, by their stamps. -/
inductive Place
  | dataDir
  | stage (stamp : Nat)
  | aside (stamp : Nat)
deriving DecidableEq, Repr

/-- What a folder holds. -/
structure Folder where
  /-- What `keys/secret.key` holds, stripped. -/
  key : Option String := none
  /-- `import.complete` is there. -/
  imported : Bool := false
  /-- Any other file. -/
  files : Bool := false
  /-- The key its secrets are sealed under, once it has some. -/
  secrets : Option String := none
deriving DecidableEq, Repr

/-- A key `new_key` makes. -/
abbrev Key := { key : String // key ≠ "" }

/-- The `swap_in` statements. -/
inductive Statement
  | clears
  | carries
  | setsAside
  | movesIn
  | loads
  | clearsMarker
deriving DecidableEq, Repr

/-- The folders and the keychain. -/
structure World where
  folders : Place → Option Folder := fun _ => none
  /-- The keychain's passwords, by the folder an entry is named after. -/
  entries : Place → Option String := fun _ => none
  /-- The key the manager's last process was given. -/
  running : Option String := none
  /-- The import being swapped in, and what comes next. -/
  swap : Option (Nat × Statement) := none

namespace World

def folder (w : World) (place : Place) : Folder := (w.folders place).getD {}

/-- `stored_key`: an empty file holds none. -/
def storedKey (w : World) (place : Place) : Option String := (w.folder place).key.filter (· ≠ "")

/-- A password that is none or empty is no key. -/
def entryKey (w : World) (place : Place) : Option String := (w.entries place).filter (· ≠ "")

/-- The key the folder goes by. -/
def current (w : World) (place : Place) : Option String := (w.storedKey place).or (w.entryKey place)

/-- `key` is stored for the folder. -/
def Has (w : World) (place : Place) (key : String) : Prop :=
  w.storedKey place = some key ∨ w.entryKey place = some key

/-- Nothing but an import puts a second key next to the keychain's. -/
def Agrees (w : World) (place : Place) : Prop :=
  (w.folder place).imported = true ∨
    ∀ key entry, w.storedKey place = some key → w.entryKey place = some entry → entry = key

/-- A change in a folder, which is made if there is none. -/
def change (w : World) (place : Place) (f : Folder → Folder) : World :=
  { w with folders := Function.update w.folders place (some (f (w.folder place))) }

/-- `set_password`. -/
def put (w : World) (place : Place) (value : String) : World :=
  { w with entries := Function.update w.entries place (some value) }

/-- `os.replace` of a folder. -/
def rename (w : World) (source target : Place) : World :=
  { w with
    folders := Function.update (Function.update w.folders target (w.folders source)) source none }

variable (w : World) (place : Place) (f : Folder → Folder) (value : String)

@[simp] theorem folder_change : (w.change place f).folder place = f (w.folder place) := by
  simp [folder, change]

@[simp] theorem entryKey_change (q : Place) : (w.change place f).entryKey q = w.entryKey q := rfl

@[simp] theorem folder_put (q : Place) : (w.put place value).folder q = w.folder q := rfl

@[simp] theorem storedKey_put (q : Place) : (w.put place value).storedKey q = w.storedKey q := rfl

theorem storedKey_change :
    (w.change place f).storedKey place = (f (w.folder place)).key.filter (· ≠ "") := by
  rw [storedKey, folder_change]

theorem entryKey_put (h : value ≠ "") : (w.put place value).entryKey place = some value := by
  simp [entryKey, put, Option.filter, h]

theorem folders_change_of_ne {q : Place} (h : q ≠ place) :
    (w.change place f).folders q = w.folders q := Function.update_of_ne h _ _

theorem entries_put_of_ne {q : Place} (h : q ≠ place) :
    (w.put place value).entries q = w.entries q := Function.update_of_ne h _ _

variable {w place}

variable {key : String}

theorem storedKey_ne_empty (h : w.storedKey place = some key) : key ≠ "" := by
  simpa using (Option.filter_eq_some_iff.mp h).2

theorem entryKey_eq_of_entries (h : w.entries place = some key) (hk : key ≠ "") :
    w.entryKey place = some key := by
  rw [entryKey, h]
  simp [Option.filter, hk]

theorem current_of_stored (h : w.storedKey place = some key) : w.current place = some key := by
  rw [current, h]; rfl

theorem current_of_entry (h : w.storedKey place = none) : w.current place = w.entryKey place := by
  rw [current, h]; rfl

theorem current_eq_none : w.current place = none ↔
    w.storedKey place = none ∧ w.entryKey place = none := by
  rw [current, Option.or_eq_none_iff]

theorem has_of_current (h : w.current place = some key) : w.Has place key := by
  cases hs : w.storedKey place with
  | none => exact .inr (by rw [← current_of_entry hs, h])
  | some k => exact .inl (by rw [hs, ← current_of_stored hs, h])

end World

/-! ## 2. Processes -/

/-- `DBS_MANAGER_KEY_STORE`, stripped and lowered. -/
inductive Setting
  | unset
  | file
  | keychain
  /-- Another value, as `repr` writes it. -/
  | unknown (repr : String)
deriving DecidableEq, Repr

/-- What `set_password` does: whether it stores, and the text of the exception it raises. -/
structure Setter where
  keeps : Bool := true
  raises : Option String := none

/-- How one process meets its surroundings; the keychain and a kill by the steps done before. -/
structure Process where
  setting : Setting
  /-- What `new_key` gives. -/
  newKey : Key
  /-- `keychain()` finds none that works. -/
  absent : Bool := false
  /-- `get_password` raises, with this text. -/
  readRaises : Nat → Option String := fun _ => none
  setter : Nat → Setter := fun _ => {}
  killed : Nat → Bool := fun _ => false

/-- A process in the middle of `load`. -/
structure Underway where
  world : World
  /-- The steps done. -/
  points : Nat := 0

/-- How `load` may raise. -/
inductive Ended
  | keyStoreError (text : String)
  | keychainFailed (text : String)
  | transferError (text : String)
  | killed

abbrev Acting := Prog Ended Underway

inductive Store
  | file
  | keychain
deriving DecidableEq, Repr

/-- What `load` returns. -/
structure SealingKey where
  value : String
  store : Store
  warning : String := ""
deriving DecidableEq, Repr

/-- Paths of the folders, and their `entry_name`s. -/
structure Paths where
  path : Place → String

def Paths.keyPath (t : Paths) (place : Place) : String := t.path place ++ "/keys/secret.key"

def fileWarning (t : Paths) (place : Place) : String :=
  "the manager's sealing key is in " ++ t.keyPath place ++ ", next to the data it protects, " ++
    "because no system keychain works here. Anyone who can read the data folder can open the " ++
    "secrets in it. Set $DBS_MANAGER_KEY_STORE=file to keep it there knowingly, or install a " ++
    "keychain backend."

def unknownStore (repr : String) : String :=
  "$DBS_MANAGER_KEY_STORE is file or keychain, not " ++ repr ++ "."

def refused (reason : String) : String :=
  "the system keychain refused: " ++ reason ++ ". Unlock it and start again, or set " ++
    "DBS_MANAGER_KEY_STORE=file to keep the sealing key in a file."

def noKeychain : String :=
  "$DBS_MANAGER_KEY_STORE=keychain, but no system keychain works on this computer."

def differentKeys (t : Paths) (place : Place) : String :=
  t.keyPath place ++ " and the system keychain hold different sealing keys for " ++ t.path place ++
    ". Nothing was changed. Set $DBS_MANAGER_KEY_STORE=file to use the file, or move the file out " ++
    "of the data folder to use the keychain's key."

/-! ## 3. The programs -/

section Programs

variable (t : Paths) (p : Process)

/-- Behind a step. -/
def point : Acting Unit := do
  let u ← get
  set { u with points := u.points + 1 }
  if p.killed u.points then throw .killed

def change (f : World → World) : Acting Unit := do
  modify fun u => { u with world := f u.world }
  point p

/-- `ensure_key`: the file is made empty, then written. -/
def ensureKey (place : Place) : Acting Unit := do
  change p fun w => w.change place id
  if ((← get).world.folder place).key.isNone then
    change p fun w => w.change place fun f => { f with key := some "" }
    change p fun w => w.change place fun f => { f with key := some p.newKey.1 }

/-- `paths.read_key`, which makes one. -/
def readKey (place : Place) : Acting String := do
  ensureKey p place
  return ((← get).world.folder place).key.getD ""

/-- `Keychain.read`. -/
def read (place : Place) : Acting (Option String) := do
  let u ← get
  match p.readRaises u.points with
  | some reason => throw (.keychainFailed reason)
  | none =>
    point p
    return u.world.entries place

/-- `Keychain.write`: what was stored is read back. -/
def write (place : Place) (value : String) : Acting Unit := do
  let setter := p.setter (← get).points
  change p fun w => if setter.keeps then w.put place value else w
  match setter.raises with
  | some reason => throw (.keychainFailed reason)
  | none =>
    if (← read p place) ≠ some value then throw (.keychainFailed "it did not give the key back")

/-- The key that the keychain has. -/
def fromKeychain (place : Place) : Acting SealingKey := do
  let stored ← read p place
  match (← get).world.storedKey place with
  | none =>
    match stored.filter (· ≠ "") with
    | some key => return ⟨key, .keychain, ""⟩
    | none =>
      write p place p.newKey.1
      return ⟨p.newKey.1, .keychain, ""⟩
  | some held =>
    let imported := ((← get).world.folder place).imported
    if (stored.filter (· ≠ "")).isSome && stored ≠ some held && !imported then
      throw (.keyStoreError (differentKeys t place))
    if stored ≠ some held then write p place held
    change p fun w => w.change place fun f => { f with key := none }
    change p fun w => w.change place fun f => { f with imported := false }
    return ⟨held, .keychain, ""⟩

/-- The key in the file, where no keychain works. -/
def fromFile (place : Place) : Acting SealingKey := do
  return ⟨← readKey p place, .file, fileWarning t place⟩

/-- `load`. -/
def load (place : Place) : Acting SealingKey :=
  match p.setting with
  | .unknown repr => throw (.keyStoreError (unknownStore repr))
  | .file => do return ⟨← readKey p place, .file, ""⟩
  | setting =>
    if p.absent then
      if setting = .keychain then throw (.keyStoreError noKeychain)
      else fromFile t p place
    else
      tryCatch (fromKeychain t p place) fun
        | .keychainFailed reason => do
          if setting = .keychain ∨ (← get).world.storedKey place = none then
            throw (.keyStoreError (refused reason))
          fromFile t p place
        | e => throw e

/-- A process's settings: `ensure_data_dir`, then its key. -/
def settings : Acting SealingKey := do
  change p fun w => w.change .dataDir id
  load t p .dataDir

/-- `carry`: the key goes where its folder goes. -/
def carry (source target : Place) : Acting Unit :=
  if p.absent then return
  else
    match p.setting with
    | .unknown repr => throw (.keyStoreError (unknownStore repr))
    | .file => return
    | _ =>
      tryCatch
        (do
          match ← read p source with
          | some held => write p target held
          | none => return)
        fun
          | .keychainFailed reason =>
            throw (.keyStoreError ("the system keychain refused: " ++ reason ++ "."))
          | e => throw e

def Folder.holdsNothing (f : Folder) : Bool :=
  f.key.isNone && !f.imported && !f.files && f.secrets.isNone

/-- One statement of `swap_in`, and the one behind it. -/
def swapIn (stamp : Nat) : Statement → Acting (Option Statement)
  | .clears => do
    if (← get).world.folders .dataDir ≠ none ∧ ((← get).world.folder .dataDir).holdsNothing then
      change p fun w => { w with folders := Function.update w.folders .dataDir none }
    return some .carries
  | .carries => do
    if (← get).world.folders .dataDir = none then return some .movesIn
    if (← get).world.folders (.aside stamp) ≠ none then
      throw (.transferError (t.path (.aside stamp) ++ " already exists; nothing was moved."))
    carry p .dataDir (.aside stamp)
    return some .setsAside
  | .setsAside => do
    change p fun w => w.rename .dataDir (.aside stamp)
    return some .movesIn
  | .movesIn => do
    change p fun w => w.rename (.stage stamp) .dataDir
    return some .loads
  | .loads => do
    let _ ← load t p .dataDir
    return some .clearsMarker
  | .clearsMarker => do
    change p fun w => w.change .dataDir fun f => { f with imported := false }
    return none

end Programs

/-! ## 4. The system -/

/-- What may happen next. -/
inductive Action
  /-- A manager's process starts and reads its key. -/
  | start (process : Process)
  /-- It seals secrets under that key. -/
  | «seal»
  /-- It makes another file. -/
  | writes
  /-- An import is finished, sealed under its own key. -/
  | stage (stamp : Nat) (key : Key) (sealed : Bool)
  /-- `finish_interrupted_import`, with the stage it finds. -/
  | finish (stamp : Nat)
  | beginSwap (stamp : Nat)
  /-- The next statement of the swap under way. -/
  | swap (process : Process)

def staged (key : Key) (sealed : Bool) : Folder :=
  { key := some key.1, imported := true, files := true,
    secrets := if sealed then some key.1 else none }

/-- One action; a killed or refused process leaves what it changed. -/
def step (t : Paths) (w : World) : Action → Option World
  | .start p =>
    match exec (settings t p) ⟨w, 0⟩ with
    | (.ok key, u) => some { u.world with running := some key.value, swap := none }
    | (.error _, u) => some { u.world with running := none, swap := none }
  | .«seal» =>
    match w.running, (w.folder .dataDir).secrets with
    | some key, none =>
      if key = "" then none
      else some (w.change .dataDir fun f => { f with files := true, secrets := some key })
    | _, _ => none
  | .writes =>
    if w.running.isSome then some (w.change .dataDir fun f => { f with files := true }) else none
  | .stage stamp key sealed =>
    if w.folders (.stage stamp) = none then
      some { w with folders := Function.update w.folders (.stage stamp) (some (staged key sealed)) }
    else none
  | .finish stamp =>
    if w.folders .dataDir = none ∧ w.folders (.stage stamp) ≠ none then
      some { w.rename (.stage stamp) .dataDir with running := none, swap := none }
    else none
  | .beginSwap stamp =>
    if w.folders (.stage stamp) ≠ none then
      some { w with running := none, swap := some (stamp, .clears) }
    else none
  | .swap p =>
    match w.swap with
    | none => none
    | some (stamp, statement) =>
      match exec (swapIn t p stamp statement) ⟨w, 0⟩ with
      | (.ok next, u) =>
        some { u.world with running := none, swap := next.map fun s => (stamp, s) }
      | (.error _, u) => some { u.world with running := none, swap := none }

/-- `load` takes the key in the file for want of a keychain, or because it was told to. -/
def Process.usesFile (p : Process) : Bool :=
  p.setting = .file || (p.setting = .unset && p.absent)

/-! ## 5. What a load keeps -/

/-- From `w` to `v`: only the folder's key and marker and its entry have changed; the key it went by is
    still the one, and no other key has been stored next to it. -/
structure Steady (place : Place) (w v : World) : Prop where
  folders : ∀ q, q ≠ place → v.folders q = w.folders q
  entries : ∀ q, q ≠ place → v.entries q = w.entries q
  secrets : (v.folder place).secrets = (w.folder place).secrets
  current : ∀ key, w.current place = some key → v.current place = some key
  agrees : w.Agrees place → v.Agrees place
  has : w.current place ≠ none → ∀ key, v.Has place key → w.Has place key

section Steady

variable {place : Place} {w v x : World} {key : String}

theorem Steady.refl : Steady place w w :=
  ⟨fun _ _ => rfl, fun _ _ => rfl, rfl, fun _ h => h, fun h => h, fun _ _ h => h⟩

theorem Steady.trans (h : Steady place w v) (h' : Steady place v x) : Steady place w x where
  folders q hq := (h'.folders q hq).trans (h.folders q hq)
  entries q hq := (h'.entries q hq).trans (h.entries q hq)
  secrets := h'.secrets.trans h.secrets
  current key hk := h'.current key (h.current key hk)
  agrees ha := h'.agrees (h.agrees ha)
  has hw key hk := by
    obtain ⟨k, hcur⟩ := Option.ne_none_iff_exists'.mp hw
    exact h.has hw key (h'.has (by rw [h.current k hcur]; exact Option.some_ne_none k) key hk)

theorem Steady.none_of (h : Steady place w v) (hv : v.current place = none) :
    w.current place = none :=
  Option.eq_none_iff_forall_ne_some.mpr fun key hk =>
    absurd (hv ▸ h.current key hk) (Option.some_ne_none key).symm

/-- A change that leaves what `stored_key` finds, and the marker unless the keys agree. -/
theorem steady_change {f : Folder → Folder} (hsecrets : (f (w.folder place)).secrets =
    (w.folder place).secrets) (hkey : (w.change place f).storedKey place = w.storedKey place)
    (hmarker : (f (w.folder place)).imported = (w.folder place).imported ∨
      ∀ key entry, w.storedKey place = some key → w.entryKey place = some entry → entry = key) :
    Steady place w (w.change place f) where
  folders q hq := World.folders_change_of_ne w place f hq
  entries _ _ := rfl
  secrets := by rw [World.folder_change, hsecrets]
  current k hk := by rw [World.current, hkey, World.entryKey_change]; exact hk
  agrees ha := by
    rw [World.Agrees, hkey, World.folder_change, World.entryKey_change]
    rcases hmarker with hi | hsame
    · rw [hi]; exact ha
    · exact .inr hsame
  has _ k hk := by rwa [World.Has, hkey, World.entryKey_change] at hk

/-- A first key in the file. -/
theorem steady_newKey (h : w.current place = none) (k : String) : Steady place w
    (w.change place fun f => { f with key := some k }) where
  folders q hq := World.folders_change_of_ne w place _ hq
  entries _ _ := rfl
  secrets := by rw [World.folder_change]
  current k hk := absurd (h ▸ hk) (Option.some_ne_none k).symm
  agrees _ := .inr fun k e _ he => by
    rw [World.entryKey_change, (World.current_eq_none.mp h).2] at he
    exact absurd he (Option.some_ne_none e).symm
  has hw := absurd h hw

/-- The file goes once the keychain holds its key. -/
theorem steady_unlink (hs : w.storedKey place = some key) (he : w.entryKey place = some key) :
    Steady place w (w.change place fun f => { f with key := none }) := by
  have hnone : (w.change place fun f => { f with key := none }).storedKey place = none :=
    World.storedKey_change _ _ _
  refine ⟨fun q => World.folders_change_of_ne w place _, fun _ _ => rfl,
    by rw [World.folder_change], ?_, ?_, ?_⟩
  · intro k hk
    rw [World.current_of_entry hnone, World.entryKey_change, he, ← hk, World.current_of_stored hs]
  · exact fun _ => .inr fun k e hk => absurd (hnone ▸ hk) (Option.some_ne_none k).symm
  · intro _ k hk
    rcases hk with hk | hk
    · exact absurd (hnone ▸ hk) (Option.some_ne_none k).symm
    · exact .inr hk

/-- The keychain is given the file's key, or a first one. -/
theorem steady_put (hkey : key ≠ "") (h : w.storedKey place = some key ∨ w.current place = none) :
    Steady place w (w.put place key) where
  folders _ _ := rfl
  entries q hq := World.entries_put_of_ne w place key hq
  secrets := rfl
  current k hk := by
    rcases h with hs | hnone
    · rw [World.current_of_stored (World.storedKey_put w place key place ▸ hs), ← hk,
        World.current_of_stored hs]
    · exact absurd (hnone ▸ hk) (Option.some_ne_none k).symm
  agrees _ := .inr fun k e hk he => by
    rw [World.storedKey_put] at hk
    rw [World.entryKey_put w place key hkey] at he
    rcases h with hs | hnone
    · exact Option.some.inj (he.symm.trans (hs.symm.trans hk))
    · rw [(World.current_eq_none.mp hnone).1] at hk
      exact absurd hk (Option.some_ne_none k).symm
  has hw k hk := by
    have hs := h.resolve_right hw
    rcases hk with hk | hk
    · exact .inl hk
    · rw [World.entryKey_put w place key hkey] at hk
      exact .inl (hs.trans hk)

end Steady

/-! ## 6. The programs, each by how it ends -/

section Ends

variable {t : Paths} {p : Process} {place : Place} {w : World} {u : Underway}

/-- What is left when a program on the folder raises or is killed. -/
abbrev Stopped (place : Place) (w : World) (_ : Ended) (u : Underway) : Prop := Steady place w u.world

theorem exec_point : exec (point p) u =
    (if p.killed u.points then .error .killed else .ok ⟨⟩, { u with points := u.points + 1 }) := by
  unfold point
  rw [exec_bind_ok (exec_get u), exec_bind_ok (exec_set u _)]
  cases p.killed u.points <;> rfl

theorem ends_point {I : World → Prop} (h : I u.world) :
    Ends (fun _ u => I u.world) (fun _ u => I u.world) (exec (point p) u) := by
  rw [exec_point]
  cases p.killed u.points <;> exact h

theorem ends_change {I : World → Prop} {f : World → World} (h : I (f u.world)) :
    Ends (fun _ u => I u.world) (fun _ u => I u.world) (exec (change p f) u) := by
  unfold change
  rw [exec_bind_ok (exec_modify _ u)]
  exact ends_point h

/-- The key a load may return: the folder's, or an empty one while there is none. -/
abbrev Given (place : Place) (w v : World) (value : String) : Prop :=
  v.current place = some value ∨ (value = "" ∧ w.current place = none)

/-- A first key is written to the file that was made for it. -/
theorem ends_newFile (hw : Steady place w u.world) (h : u.world.current place = none) :
    Ends (fun _ u => Steady place w u.world ∧
        Given place w u.world ((u.world.folder place).key.getD "")) (Stopped place w)
      (exec (do
        change p fun w => w.change place fun f => { f with key := some "" }
        change p fun w => w.change place fun f => { f with key := some p.newKey.1 }) u) := by
  have hempty : (u.world.change place fun f => { f with key := some "" }).current place = none :=
    World.current_eq_none.mpr ⟨World.storedKey_change _ _ _, (World.current_eq_none.mp h).2⟩
  refine ends_bind
    (M := fun _ v => Steady place w v.world ∧ v.world.current place = none)
    ((ends_change (I := fun x => Steady place w x ∧ x.current place = none)
      ⟨hw.trans (steady_newKey h ""), hempty⟩).mono (fun _ _ hv => hv) fun _ _ hv => hv.1)
    fun _ v hv => ?_
  refine (ends_change (I := fun x => Steady place w x ∧
    x.current place = some ((x.folder place).key.getD "")) ⟨hv.1.trans (steady_newKey hv.2 _), ?_⟩).mono
    (fun _ _ hx => ⟨hx.1, .inl hx.2⟩) fun _ _ hx => hx.1
  rw [World.folder_change]
  refine World.current_of_stored ((World.storedKey_change _ _ _).trans ?_)
  simp [Option.filter, p.newKey.2]

/-- **The key in the file**: there is one, or it is the first. -/
theorem ends_readKey (hw : Steady place w u.world)
    (h : u.world.storedKey place ≠ none ∨ u.world.entryKey place = none) :
    Ends (fun value u => Steady place w u.world ∧ Given place w u.world value) (Stopped place w)
      (exec (readKey p place) u) := by
  unfold readKey
  refine ends_bind (M := fun _ u => Steady place w u.world ∧
    Given place w u.world ((u.world.folder place).key.getD "")) ?_ fun _ _ hv => hv
  unfold ensureKey
  have hmade : Steady place w (u.world.change place id) :=
    hw.trans (steady_change rfl (World.storedKey_change _ _ _) (.inl rfl))
  refine ends_bind (M := fun _ v => v.world = u.world.change place id)
    ((ends_change (I := fun x => x = u.world.change place id) rfl).mono (fun _ _ hv => hv)
      fun _ v hv => ?_) fun _ v hv => ?_
  · rw [Stopped, hv]; exact hmade
  obtain ⟨v, n⟩ := v
  obtain rfl : v = u.world.change place id := hv
  rw [exec_bind_ok (exec_get _)]
  have hfolder : (u.world.change place id).folder place = u.world.folder place :=
    World.folder_change _ _ _
  have hnone : (u.world.folder place).key.filter (· ≠ "") = none →
      (u.world.change place id).current place = none := fun hk =>
    World.current_eq_none.mpr ⟨by rw [World.storedKey, hfolder, hk], h.resolve_left (absurd hk)⟩
  cases hkey : (u.world.folder place).key with
  | some key =>
    -- the file is there; an empty one holds no key
    rw [if_neg (by rw [hfolder, hkey]; exact Bool.false_ne_true)]
    refine ⟨hmade, ?_⟩
    show Given place w _ (((u.world.change place id).folder place).key.getD "")
    rw [hfolder, hkey]
    by_cases hempty : key = ""
    · exact .inr ⟨hempty, hmade.none_of (hnone (by rw [hkey, hempty]; rfl))⟩
    · exact .inl (World.current_of_stored (by
        rw [World.storedKey, hfolder, hkey]; simp [Option.filter, hempty]))
  | none =>
    rw [if_pos (by rw [hfolder, hkey]; rfl)]
    exact ends_newFile hmade (hnone (by rw [hkey]; rfl))

/-- Where it answers, the keychain answers what it holds. -/
theorem ends_read : Ends (fun stored v => v.world = u.world ∧ stored = u.world.entries place)
    (fun _ v => v.world = u.world) (exec (read p place) u) := by
  unfold read
  rw [exec_bind_ok (exec_get u)]
  cases p.readRaises u.points with
  | some reason => rfl
  | none =>
    exact ends_bind (ends_point (I := fun x => x = u.world) rfl) fun _ _ hv => ⟨hv, rfl⟩

/-- A write that ends well has been read back. -/
theorem ends_write {value : String} :
    Ends (fun _ v => (v.world = u.world ∨ v.world = u.world.put place value) ∧
        v.world.entries place = some value)
      (fun _ v => v.world = u.world ∨ v.world = u.world.put place value)
      (exec (write p place value) u) := by
  unfold write
  rw [exec_bind_ok (exec_get u)]
  refine ends_bind (ends_change (I := fun x => x = u.world ∨ x = u.world.put place value) ?_)
    fun _ v hv => ?_
  · cases (p.setter u.points).keeps with
    | false => exact .inl rfl
    | true => exact .inr rfl
  · cases (p.setter u.points).raises with
    | some reason => exact hv
    | none =>
      refine ends_bind (ends_read.mono (fun _ _ hx => hx) fun _ _ hx => hx ▸ hv)
        fun stored x hx => ?_
      obtain ⟨hsame, hstored⟩ := hx
      rw [← hsame] at hv hstored
      split
      · exact hv
      · rename_i hback
        exact ⟨hv, hstored ▸ not_not.mp hback⟩

section

variable (hw : Steady place w u.world)

include hw

theorem ends_put {key : String} (hkey : key ≠ "")
    (h : u.world.storedKey place = some key ∨ u.world.current place = none) :
    Ends (fun _ v => Steady place w v.world ∧ v.world.storedKey place = u.world.storedKey place ∧
        v.world.entryKey place = some key) (Stopped place w) (exec (write p place key) u) := by
  have hsteady : ∀ v : World, v = u.world ∨ v = u.world.put place key →
      Steady place w v ∧ v.storedKey place = u.world.storedKey place := by
    intro v hv
    rcases hv with hv | hv
    · rw [hv]; exact ⟨hw, rfl⟩
    · rw [hv]; exact ⟨hw.trans (steady_put hkey h), rfl⟩
  refine ends_write.mono (fun _ v hv => ?_) fun _ v hv => (hsteady v.world hv).1
  obtain ⟨hput, hback⟩ := hv
  exact ⟨(hsteady v.world hput).1, (hsteady v.world hput).2, World.entryKey_eq_of_entries hback hkey⟩

/-- The file's key is given up to the keychain that holds it. -/
theorem ends_moved {key : String}
    (hs : u.world.storedKey place = some key) (he : u.world.entryKey place = some key) :
    Ends (fun sealing v => Steady place w v.world ∧ v.world.current place = some sealing.value)
      (Stopped place w)
      (exec (do
        change p fun w => w.change place fun f => { f with key := none }
        change p fun w => w.change place fun f => { f with imported := false }
        return (⟨key, .keychain, ""⟩ : SealingKey)) u) := by
  refine ends_bind (M := fun _ v => Steady place w v.world ∧ v.world.storedKey place = none ∧
      v.world.entryKey place = some key)
    ((ends_change (I := fun x => Steady place w x ∧ x.storedKey place = none ∧
      x.entryKey place = some key) ?_).mono (fun _ _ hv => hv) fun _ _ hv => hv.1) fun _ v hv => ?_
  · exact ⟨hw.trans (steady_unlink hs he), World.storedKey_change _ _ _, he⟩
  obtain ⟨hsteady, hnone, hentry⟩ := hv
  refine ends_bind (M := fun _ x => Steady place w x.world ∧ x.world.current place = some key)
    ((ends_change (I := fun x => Steady place w x ∧ x.current place = some key) ?_).mono
      (fun _ _ hx => hx) fun _ _ hx => hx.1) fun _ _ hx => hx
  have hkept : (v.world.change place fun f => { f with imported := false }).storedKey place =
      v.world.storedKey place := World.storedKey_change _ _ _
  refine ⟨hsteady.trans (steady_change rfl hkept (.inr fun k e hk => ?_)), ?_⟩
  · exact absurd (hnone ▸ hk) (Option.some_ne_none k).symm
  rw [World.current_of_entry (hkept.trans hnone), World.entryKey_change, hentry]

/-- **Where the keychain works, the key it returns is the folder's**, or the first one. -/
theorem ends_fromKeychain :
    Ends (fun sealing v => Steady place w v.world ∧ v.world.current place = some sealing.value)
      (Stopped place w) (exec (fromKeychain t p place) u) := by
  unfold fromKeychain
  refine ends_bind (ends_read.mono (fun _ _ hv => hv) fun _ v hv => ?_) fun stored v hv => ?_
  · rw [Stopped, hv]; exact hw
  obtain ⟨hv, hstored⟩ := hv
  rw [← hv] at hw hstored
  rw [exec_bind_ok (exec_get v)]
  have hentry : stored.filter (· ≠ "") = v.world.entryKey place := by rw [hstored]; rfl
  cases hheld : v.world.storedKey place with
  | none =>
    simp only [hentry]
    cases he : v.world.entryKey place with
    | some key => exact ⟨hw, by rw [World.current_of_entry hheld, he]⟩
    | none =>
      have hnone : v.world.current place = none := World.current_eq_none.mpr ⟨hheld, he⟩
      refine ends_bind (ends_put hw p.newKey.2 (.inr hnone)) fun _ x hx => ⟨hx.1, ?_⟩
      rw [World.current_of_entry (hx.2.1.trans hheld), hx.2.2]
  | some held =>
    simp only []
    rw [exec_bind_ok (exec_get v)]
    split
    · exact hw
    · split
      · refine ends_bind (ends_put hw (World.storedKey_ne_empty hheld) (.inl hheld)) fun _ x hx => ?_
        exact ends_moved hx.1 (hx.2.1.trans hheld) hx.2.2
      · rename_i hsame
        refine ends_moved hw hheld (World.entryKey_eq_of_entries ?_ (World.storedKey_ne_empty hheld))
        rw [← hstored, not_not.mp hsame]

theorem ends_fromFile
    (h : u.world.storedKey place ≠ none ∨ u.world.entryKey place = none) :
    Ends (fun sealing v => Steady place w v.world ∧ Given place w v.world sealing.value)
      (Stopped place w) (exec (fromFile t p place) u) :=
  ends_bind (ends_readKey hw h) fun _ _ hv => hv

/-- **A load keeps the folder's key**, however it ends. -/
theorem ends_load
    (h : p.usesFile = true → u.world.storedKey place ≠ none ∨ u.world.entryKey place = none) :
    Ends (fun sealing v => Steady place w v.world ∧ Given place w v.world sealing.value)
      (Stopped place w) (exec (load t p place) u) := by
  have hring : ∀ setting : Setting,
      Ends (fun sealing v => Steady place w v.world ∧ Given place w v.world sealing.value)
        (Stopped place w)
        (exec (tryCatch (fromKeychain t p place) fun
          | .keychainFailed reason => do
            if setting = .keychain ∨ (← get).world.storedKey place = none then
              throw (.keyStoreError (refused reason))
            fromFile t p place
          | e => throw e) u) := by
    intro setting
    refine ends_tryCatch ((ends_fromKeychain hw).mono (fun _ _ hv => ⟨hv.1, .inl hv.2⟩)
      fun _ _ hv => hv) fun e v hv => ?_
    cases e with
    | keychainFailed reason =>
      simp only []
      rw [exec_bind_ok (exec_get v)]
      split
      · exact hv
      · rename_i hheld
        exact ends_fromFile hv (.inl fun hnone => hheld (.inr hnone))
    | keyStoreError _ | transferError _ | killed => exact hv
  unfold load
  cases hsetting : p.setting with
  | unknown repr => exact hw
  | file =>
    exact ends_bind (ends_readKey hw (h (by rw [Process.usesFile, hsetting]; rfl))) fun _ _ hv => hv
  | unset =>
    cases habsent : p.absent with
    | true => exact ends_fromFile hw (h (by rw [Process.usesFile, hsetting, habsent]; rfl))
    | false => exact hring .unset
  | keychain =>
    cases habsent : p.absent with
    | true => exact hw
    | false => exact hring .keychain

end

end Ends

/-! ## 7. A keychain that works -/

/-- The keychain is there, answers, keeps what it is given, and nobody kills the process. -/
structure Process.Works (p : Process) : Prop where
  setting : p.setting = .unset ∨ p.setting = .keychain
  present : p.absent = false
  answers : ∀ n, p.readRaises n = none
  stores : ∀ n, p.setter n = {}
  lives : ∀ n, p.killed n = false

section Works

variable {t : Paths} {p : Process} {place : Place} {u : Underway}

theorem returns_point (hp : p.Works) :
    exec (point p) u = (.ok ⟨⟩, { u with points := u.points + 1 }) := by
  rw [exec_point, hp.lives]
  rfl

theorem returns_change (hp : p.Works) (f : World → World) :
    exec (change p f) u = (.ok ⟨⟩, ⟨f u.world, u.points + 1⟩) := by
  unfold change
  rw [exec_bind_ok (exec_modify _ u), returns_point hp]

theorem returns_read (hp : p.Works) :
    exec (read p place) u = (.ok (u.world.entries place), { u with points := u.points + 1 }) := by
  unfold read
  rw [exec_bind_ok (exec_get u), hp.answers]
  exact exec_bind_ok (returns_point hp)

theorem returns_write (hp : p.Works) (value : String) :
    exec (write p place value) u = (.ok ⟨⟩, ⟨u.world.put place value, u.points + 1 + 1⟩) := by
  unfold write
  rw [exec_bind_ok (exec_get u), hp.stores, exec_bind_ok (returns_change hp _)]
  show exec (read p place >>= _) _ = _
  rw [exec_bind_ok (returns_read hp)]
  simp [World.put]

theorem agrees_passes {held : String} (ha : u.world.Agrees place)
    (hheld : u.world.storedKey place = some held) :
    ¬ (((u.world.entries place).filter (· ≠ "")).isSome && u.world.entries place ≠ some held &&
      !(u.world.folder place).imported) = true := by
  intro h
  simp only [Bool.and_eq_true, decide_eq_true_eq, Bool.not_eq_true'] at h
  obtain ⟨⟨hentry, hother⟩, hmarker⟩ := h
  obtain ⟨e, he⟩ := Option.isSome_iff_exists.mp hentry
  have hsame := ha.resolve_left (by rw [hmarker]; exact Bool.false_ne_true) held e hheld he
  exact hother (by rw [(Option.filter_eq_some_iff.mp he).1, hsame])

/-- **As soon as the keychain works a load returns**, unless two keys stand against each other. -/
theorem load_returns (hp : p.Works) (ha : u.world.Agrees place) :
    ∃ sealing v, exec (load t p place) u = (.ok sealing, v) := by
  have hring : ∃ sealing v, exec (fromKeychain t p place) u = (.ok sealing, v) := by
    unfold fromKeychain
    rw [exec_bind_ok (returns_read hp), exec_bind_ok (exec_get _)]
    cases hheld : u.world.storedKey place with
    | none =>
      simp only []
      split
      · exact ⟨_, _, rfl⟩
      · exact ⟨_, _, exec_bind_ok (returns_write hp _)⟩
    | some held =>
      simp only []
      rw [exec_bind_ok (exec_get _)]
      split
      · rename_i hother
        exact absurd hother (agrees_passes ha hheld)
      · split
        · rw [exec_bind_ok (returns_write hp _), exec_bind_ok (returns_change hp _),
            exec_bind_ok (returns_change hp _)]
          exact ⟨_, _, rfl⟩
        · rw [exec_bind_ok (returns_change hp _), exec_bind_ok (returns_change hp _)]
          exact ⟨_, _, rfl⟩
  obtain ⟨sealing, v, hring⟩ := hring
  refine ⟨sealing, v, ?_⟩
  unfold load
  rcases hp.setting with hs | hs
  · rw [hs, hp.present]
    show exec (tryCatch _ _) u = _
    rw [exec_tryCatch, hring]
  · rw [hs, hp.present]
    show exec (tryCatch _ _) u = _
    rw [exec_tryCatch, hring]

end Works

/-! ## 8. Every run -/

/-- A load that uses the file finds its key there, or there is none anywhere. -/
def keyFound (w : World) (p : Process) : Bool :=
  !p.usesFile || (w.storedKey .dataDir).isSome || (w.entryKey .dataDir).isNone

/-- The key of the secrets moved aside is in their file, or was carried. -/
def keyCarried (w : World) (stamp : Nat) : Bool :=
  (w.folder .dataDir).secrets.isNone || (w.storedKey .dataDir).isSome ||
    w.entryKey (.aside stamp) = (w.folder .dataDir).secrets

/-- The imported key has left its file, or the keychain holds no other. -/
def keyMoved (w : World) : Bool :=
  (w.storedKey .dataDir).isNone || (w.entryKey .dataDir).isNone ||
    w.entryKey .dataDir = w.storedKey .dataDir

/-- The condition on a step. -/
def guarded (w : World) : Action → Bool
  | .start p => keyFound w p
  | .swap p =>
    match w.swap with
    | some (stamp, .setsAside) => keyCarried w stamp
    | some (_, .loads) => keyFound w p
    | some (_, .clearsMarker) => keyMoved w
    | _ => true
  | _ => true

/-- The invariant. -/
structure Sound (w : World) : Prop where
  secrets : ∀ place key, (w.folder place).secrets = some key → w.current place = some key
  agrees : w.Agrees .dataDir
  running : ∀ key, w.running = some key → key ≠ "" → w.current .dataDir = some key
  stages : ∀ n, w.folders (.stage n) ≠ none →
    (w.folder (.stage n)).imported = true ∧ w.storedKey (.stage n) ≠ none

theorem sound_start : Sound {} :=
  ⟨nofun, .inr nofun, nofun, fun _ h => absurd rfl h⟩

section Sound

variable {t : Paths} {p : Process} {w v : World} {stamp : Nat}

theorem keyFound_uses (h : keyFound w p = true) (huses : p.usesFile = true) :
    w.storedKey .dataDir ≠ none ∨ w.entryKey .dataDir = none := by
  rw [keyFound, huses] at h
  simpa [Option.isSome_iff_ne_none] using h

variable {place : Place}

theorem World.folder_congr (hf : v.folders place = w.folders place) :
    v.folder place = w.folder place := by
  rw [World.folder, World.folder, hf]

theorem World.storedKey_congr {place q : Place} (hf : v.folders place = w.folders q) :
    v.storedKey place = w.storedKey q := by
  rw [World.storedKey, World.storedKey, World.folder, World.folder, hf]

theorem World.current_congr (hf : v.folders place = w.folders place)
    (he : v.entries place = w.entries place) : v.current place = w.current place := by
  rw [World.current, World.current, World.storedKey_congr hf, World.entryKey, World.entryKey, he]

/-- A state that differs in places whose secrets are known to be sealed under their current key. -/
theorem Sound.of_places (h : Sound w) (hplaces : ∀ q, (v.folders q = w.folders q ∧
      v.entries q = w.entries q) ∨ ∀ key, (v.folder q).secrets = some key → v.current q = some key)
    (hagrees : v.Agrees .dataDir)
    (hrunning : ∀ key, v.running = some key → key ≠ "" → v.current .dataDir = some key)
    (hstages : ∀ n, v.folders (.stage n) = w.folders (.stage n) ∨ v.folders (.stage n) = none) :
    Sound v where
  secrets q key hkey := by
    rcases hplaces q with ⟨hf, he⟩ | hsealed
    · rw [World.current_congr hf he]
      rw [World.folder_congr hf] at hkey
      exact h.secrets q key hkey
    · exact hsealed key hkey
  agrees := hagrees
  running := hrunning
  stages n hn := by
    rcases hstages n with hf | hnone
    · rw [World.folder_congr hf, World.storedKey_congr hf]
      exact h.stages n (hf ▸ hn)
    · exact absurd hnone hn

/-- After the steps of a load. -/
theorem Sound.steady (h : Sound w) (hs : Steady .dataDir w v) {running : Option String}
    {swap : Option (Nat × Statement)}
    (hrunning : ∀ key, running = some key → key ≠ "" → v.current .dataDir = some key) :
    Sound { v with running, swap } := by
  refine h.of_places (fun q => ?_) (hs.agrees h.agrees) hrunning
    fun n => .inl (hs.folders _ Place.noConfusion)
  by_cases hq : q = .dataDir
  · refine .inr fun key hkey => ?_
    rw [hq] at hkey ⊢
    exact hs.current key (h.secrets _ key (hs.secrets ▸ hkey))
  · exact .inl ⟨hs.folders q hq, hs.entries q hq⟩

/-- Sound once the process is gone. -/
abbrev Left (v : World) : Prop := ∀ swap, Sound { v with running := none, swap }

section

variable (h : Sound w)

include h

theorem Sound.left : Left w := fun _ =>
  h.of_places (fun _ => .inl ⟨rfl, rfl⟩) h.agrees nofun fun _ => .inl rfl

theorem Sound.left_steady (hs : Steady .dataDir w v) : Left v :=
  fun _ => h.steady hs nofun

theorem left_clears : Left { w with folders := Function.update w.folders .dataDir none } := by
  intro swap
  refine h.of_places (fun q => ?_) (.inr fun _ _ hk => ?_) nofun fun n => .inl rfl
  · by_cases hq : q = .dataDir
    · refine .inr fun key hkey => ?_
      rw [hq] at hkey
      simp [World.folder] at hkey
    · exact .inl ⟨Function.update_of_ne hq _ _, rfl⟩
  · simp [World.storedKey, World.folder] at hk

/-- The secrets go where their key is. -/
theorem left_setsAside (hg : keyCarried w stamp = true) :
    Left (w.rename .dataDir (.aside stamp)) := by
  intro swap
  have haside : (w.rename .dataDir (.aside stamp)).folders (.aside stamp) = w.folders .dataDir := by
    simp [World.rename]
  refine h.of_places (fun q => ?_) (.inr fun _ _ hk => ?_) nofun fun n => .inl ?_
  · cases q with
    | dataDir =>
      refine .inr fun key hkey => ?_
      simp [World.folder, World.rename] at hkey
    | stage n => exact .inl ⟨by simp [World.rename], rfl⟩
    | aside n =>
      by_cases hn : n = stamp
      · refine .inr fun key hkey => ?_
        rw [hn] at hkey ⊢
        have hsecrets : (w.folder .dataDir).secrets = some key := by
          rw [← hkey, World.folder, World.folder]; rw [haside]
        have hstored := World.storedKey_congr haside
        cases hs : w.storedKey .dataDir with
        | some k =>
          rw [← h.secrets _ key hsecrets, World.current_of_stored hs]
          exact World.current_of_stored (hstored.trans hs)
        | none =>
          have hentry : w.entryKey (.aside stamp) = some key := by
            simpa [keyCarried, hsecrets, hs] using hg
          exact (World.current_of_entry (hstored.trans hs)).trans hentry
      · exact .inl ⟨by simp [World.rename, hn], rfl⟩
  · simp [World.storedKey, World.folder, World.rename] at hk
  · simp [World.rename]

/-- A stage brings its key in its file. -/
theorem left_movesIn : Left (w.rename (.stage stamp) .dataDir) := by
  intro swap
  have hdata : (w.rename (.stage stamp) .dataDir).folders .dataDir = w.folders (.stage stamp) := by
    simp [World.rename]
  have hstored := World.storedKey_congr hdata
  have hstage := h.stages stamp
  refine h.of_places (fun q => ?_) ?_ nofun fun n => ?_
  · cases q with
    | dataDir =>
      refine .inr fun key hkey => ?_
      have hsecrets : (w.folder (.stage stamp)).secrets = some key := by
        rw [← hkey, World.folder, World.folder]; rw [hdata]
      have hthere : w.folders (.stage stamp) ≠ none := by
        intro hnone
        rw [World.folder, hnone] at hsecrets
        exact absurd hsecrets.symm (Option.some_ne_none key)
      obtain ⟨k, hk⟩ := Option.ne_none_iff_exists'.mp (hstage hthere).2
      rw [← h.secrets _ key hsecrets, World.current_of_stored hk]
      exact World.current_of_stored (hstored.trans hk)
    | stage n =>
      by_cases hn : n = stamp
      · refine .inr fun key hkey => ?_
        rw [hn] at hkey
        simp [World.folder, World.rename] at hkey
      · exact .inl ⟨by simp [World.rename, hn], rfl⟩
    | aside n => exact .inl ⟨by simp [World.rename], rfl⟩
  · by_cases hthere : w.folders (.stage stamp) = none
    · refine .inr fun key _ hk => ?_
      have hnone : w.storedKey (.stage stamp) = some key := hstored.symm.trans hk
      rw [World.storedKey, World.folder, hthere] at hnone
      exact absurd hnone.symm (Option.some_ne_none key)
    · refine .inl ?_
      rw [← (hstage hthere).1, World.folder, World.folder]; rw [← hdata]
  · by_cases hn : n = stamp
    · exact .inr (by simp [World.rename, hn])
    · exact .inl (by simp [World.rename, hn])

/-- An entry for a folder that is not there. -/
theorem left_put {value : String} (hplace : place ≠ .dataDir)
    (hnone : w.folders place = none) : Left (w.put place value) := by
  intro swap
  have hdata : (w.put place value).entries .dataDir = w.entries .dataDir :=
    World.entries_put_of_ne w place value hplace.symm
  refine h.of_places (fun q => ?_) ?_ nofun fun n => .inl rfl
  · by_cases hq : q = place
    · refine .inr fun key hkey => ?_
      have hempty : w.folder q = {} := by rw [World.folder, hq, hnone]; rfl
      exact absurd (hempty ▸ hkey : ({} : Folder).secrets = some key) nofun
    · exact .inl ⟨rfl, World.entries_put_of_ne w place value hq⟩
  · rcases h.agrees with hi | hsame
    · exact .inl hi
    · refine .inr fun k e hk he => hsame k e hk ?_
      rw [World.entryKey, ← hdata]
      exact he

theorem ends_carry {target : Place} (htarget : target ≠ .dataDir)
    (hnone : w.folders target = none) :
    Ends (fun _ v => Left v.world) (fun _ v => Left v.world)
      (exec (carry p .dataDir target) ⟨w, 0⟩) := by
  have hwrites : ∀ (u : Underway) (value : String), u.world = w →
      Ends (fun _ v => Left v.world) (fun _ v => Left v.world) (exec (write p target value) u) := by
    intro u value hu
    have hleft : ∀ v : World, v = u.world ∨ v = u.world.put target value → Left v := by
      intro v hv
      rw [hu] at hv
      rcases hv with hv | hv
      · exact hv ▸ h.left
      · exact hv ▸ left_put h htarget hnone
    exact ends_write.mono (fun _ v hv => hleft v.world hv.1) fun _ v hv => hleft v.world hv
  have hpassword : Ends (fun _ v => Left v.world) (fun _ v => Left v.world)
      (exec (tryCatch
        (do
          match ← read p .dataDir with
          | some held => write p target held
          | none => return)
        fun
          | .keychainFailed reason =>
            throw (.keyStoreError ("the system keychain refused: " ++ reason ++ "."))
          | e => throw e) ⟨w, 0⟩) := by
    refine ends_tryCatch (M := fun _ v => Left v.world) (ends_bind
      (ends_read.mono (fun _ _ hv => hv) fun _ v hv => ?_) fun stored v hv => ?_) fun e v hv => ?_
    · rw [hv]; exact h.left
    · cases stored with
      | none => show Left v.world; rw [hv.1]; exact h.left
      | some held => exact hwrites v held hv.1
    · cases e <;> exact hv
  unfold carry
  cases p.absent with
  | true => exact h.left
  | false =>
    cases p.setting with
    | unset => exact hpassword
    | file => exact h.left
    | keychain => exact hpassword
    | unknown repr => exact h.left

/-- **Every statement of `swap_in` leaves sound folders**, where it is guarded. -/
theorem ends_swapIn {statement : Statement}
    (hswap : w.swap = some (stamp, statement)) (hg : guarded w (.swap p) = true) :
    Ends (fun _ v => Left v.world) (fun _ v => Left v.world)
      (exec (swapIn t p stamp statement) ⟨w, 0⟩) := by
  have hreturn : ∀ {x : Acting Unit} {next : Option Statement},
      Ends (fun _ v => Left v.world) (fun _ v => Left v.world) (exec x ⟨w, 0⟩) →
      Ends (fun _ v => Left v.world) (fun _ v => Left v.world)
        (exec (x >>= fun _ => pure next) ⟨w, 0⟩) := fun hx => ends_bind hx fun _ _ hv => hv
  simp only [guarded, hswap] at hg
  cases statement with
  | clears =>
    unfold swapIn
    rw [exec_bind_ok (exec_get _), exec_bind_ok (exec_get _)]
    split
    · exact hreturn (ends_change (left_clears h))
    · exact h.left
  | carries =>
    unfold swapIn
    rw [exec_bind_ok (exec_get _)]
    split
    · exact h.left
    · rw [exec_bind_ok (exec_get _)]
      split
      · exact h.left
      · rename_i haside
        exact hreturn (ends_carry h Place.noConfusion (not_not.mp haside))
  | setsAside => exact hreturn (ends_change (left_setsAside h hg))
  | movesIn => exact hreturn (ends_change (left_movesIn h))
  | loads =>
    have hload := ends_load (t := t) (p := p) (u := ⟨w, 0⟩) Steady.refl (keyFound_uses hg)
    exact ends_bind (hload.mono (fun _ _ hv => h.left_steady hv.1) fun _ _ hv => h.left_steady hv)
      fun _ _ hv => hv
  | clearsMarker =>
    refine hreturn (ends_change (h.left_steady (steady_change rfl ?_ (.inr ?_))))
    · exact World.storedKey_change _ _ _
    · intro key entry hk he
      simp only [keyMoved, hk, he] at hg
      simpa using hg

end

/-- The folder's other contents. -/
theorem steady_contents {f : Folder → Folder}
    (hkey : (f (w.folder place)).key = (w.folder place).key)
    (hsecrets : (f (w.folder place)).secrets = (w.folder place).secrets)
    (himported : (f (w.folder place)).imported = (w.folder place).imported) :
    Steady place w (w.change place f) :=
  steady_change hsecrets (by rw [World.storedKey_change, hkey]; rfl) (.inl himported)

theorem ends_settings (hf : p.usesFile = true →
      w.storedKey .dataDir ≠ none ∨ w.entryKey .dataDir = none) :
    Ends (fun sealing u => Steady .dataDir w u.world ∧ Given .dataDir w u.world sealing.value)
      (Stopped .dataDir w) (exec (settings t p) ⟨w, 0⟩) := by
  have hmade : Steady .dataDir w (w.change .dataDir id) := steady_contents rfl rfl rfl
  refine ends_bind ((ends_change (I := fun x => x = w.change .dataDir id) rfl).mono
    (fun _ _ hv => hv) fun _ v hv => ?_) fun _ v hv => ?_
  · rw [Stopped, hv]; exact hmade
  · obtain ⟨v, n⟩ := v
    obtain rfl : v = w.change .dataDir id := hv
    refine ends_load hmade fun huses => ?_
    rw [World.storedKey_change, World.entryKey_change]
    exact hf huses

theorem sound_start_process (h : Sound w) (hg : keyFound w p = true)
    (hs : step t w (.start p) = some v) : Sound v := by
  have hends := ends_settings (t := t) (keyFound_uses hg)
  simp only [step] at hs
  cases hx : exec (settings t p) ⟨w, 0⟩ with
  | mk r u =>
    rw [hx] at hs
    cases r with
    | ok sealing =>
      cases hs
      obtain ⟨hsteady, hgiven⟩ := hends.of_ok hx
      refine h.steady hsteady fun key hk hne => ?_
      rw [← hk]
      exact hgiven.resolve_right fun hempty => hne (Option.some.inj hk ▸ hempty.1)
    | error e =>
      cases hs
      exact h.left_steady (hends.of_error hx) _

/-- Secrets are sealed under the key the process was given. -/
theorem sound_seal (h : Sound w) (hs : step t w .«seal» = some v) : Sound v := by
  simp only [step] at hs
  cases hr : w.running with
  | none => rw [hr] at hs; exact absurd hs nofun
  | some key =>
    cases hsecrets : (w.folder .dataDir).secrets with
    | some k => rw [hr, hsecrets] at hs; exact absurd hs nofun
    | none =>
      rw [hr, hsecrets] at hs
      obtain ⟨hne, hv⟩ := Option.ite_none_left_eq_some.mp hs
      have hcurrent : (w.change .dataDir fun f =>
          { f with files := true, secrets := some key }).current .dataDir = w.current .dataDir := by
        rw [World.current, World.storedKey_change]; rfl
      rw [← Option.some.inj hv]
      refine h.of_places (fun q => ?_) ?_ (fun k hk hkne => ?_) fun n => .inl ?_
      · by_cases hq : q = .dataDir
        · refine .inr fun k hk => ?_
          rw [hq] at hk ⊢
          rw [World.folder_change] at hk
          rw [hcurrent, h.running key hr hne, ← Option.some.inj hk]
        · exact .inl ⟨World.folders_change_of_ne w _ _ hq, rfl⟩
      · rw [World.Agrees, World.folder_change, World.storedKey_change]
        exact h.agrees
      · rw [hcurrent, h.running k hk hkne]
      · exact World.folders_change_of_ne w _ _ Place.noConfusion

theorem sound_stage {n : Nat} {key : Key} {sealed : Bool} (h : Sound w)
    (hv : v = { w with
      folders := Function.update w.folders (.stage n) (some (staged key sealed)) }) : Sound v := by
  have hstage : v.folder (.stage n) = staged key sealed := by rw [hv]; simp [World.folder]
  have hother : ∀ q, q ≠ .stage n → v.folders q = w.folders q :=
    fun q hq => by rw [hv]; exact Function.update_of_ne hq _ _
  have hentries : v.entries = w.entries := by rw [hv]
  have hrunning : v.running = w.running := by rw [hv]
  have hkey : v.storedKey (.stage n) = some key.1 := by
    rw [World.storedKey, hstage]
    simp [staged, Option.filter, key.2]
  refine ⟨fun q k hk => ?_, ?_, fun k hk hne => ?_, fun m hm => ?_⟩
  · by_cases hq : q = .stage n
    · rw [hq] at hk ⊢
      rw [World.current_of_stored hkey]
      rw [hstage] at hk
      exact (Option.ite_none_right_eq_some.mp hk).2
    · rw [World.current_congr (hother q hq) (congrFun hentries q)]
      exact h.secrets q k (World.folder_congr (hother q hq) ▸ hk)
  · rw [World.Agrees, World.folder_congr (hother _ Place.noConfusion),
      World.storedKey_congr (hother _ Place.noConfusion), World.entryKey, hentries]
    exact h.agrees
  · rw [World.current_congr (hother _ Place.noConfusion) (congrFun hentries _)]
    exact h.running k (hrunning ▸ hk) hne
  · by_cases hq : m = n
    · rw [hq, hstage, hkey]
      exact ⟨rfl, Option.some_ne_none _⟩
    · have hne : Place.stage m ≠ .stage n := fun he => hq (Place.stage.inj he)
      rw [World.folder_congr (hother _ hne), World.storedKey_congr (hother _ hne)]
      exact h.stages m (hother _ hne ▸ hm)

/-- **One step.** -/
theorem step_sound {a : Action} (hs : step t w a = some v) (hg : guarded w a = true)
    (h : Sound w) : Sound v := by
  cases a with
  | start p => exact sound_start_process h hg hs
  | «seal» => exact sound_seal h hs
  | writes =>
    obtain ⟨-, hv⟩ := Option.ite_none_right_eq_some.mp hs
    rw [← Option.some.inj hv]
    have hsteady : Steady .dataDir w
        (w.change .dataDir fun f => { f with files := true }) := steady_contents rfl rfl rfl
    exact h.steady hsteady fun key hk hne => hsteady.current key (h.running key hk hne)
  | stage n key sealed =>
    obtain ⟨-, hv⟩ := Option.ite_none_right_eq_some.mp hs
    exact sound_stage h (Option.some.inj hv).symm
  | finish n =>
    obtain ⟨-, hv⟩ := Option.ite_none_right_eq_some.mp hs
    rw [← Option.some.inj hv]
    exact left_movesIn h none
  | beginSwap n =>
    obtain ⟨-, hv⟩ := Option.ite_none_right_eq_some.mp hs
    rw [← Option.some.inj hv]
    exact h.left _
  | swap p =>
    simp only [step] at hs
    cases hswap : w.swap with
    | none => rw [hswap] at hs; exact absurd hs nofun
    | some next =>
      obtain ⟨stamp, statement⟩ := next
      simp only [hswap] at hs
      have hends := ends_swapIn (t := t) h hswap hg
      cases hx : exec (swapIn t p stamp statement) ⟨w, 0⟩ with
      | mk r u =>
        rw [hx] at hs
        cases r with
        | ok next => exact Option.some.inj hs ▸ hends.of_ok hx _
        | error e => exact Option.some.inj hs ▸ hends.of_error hx _

end Sound

/-- The keys of all secrets are stored for their folders, and loads of the data folder by allowed
    processes keep to the key of its secrets. -/
structure Kept (t : Paths) (w : World) (allowed : Process → Prop) : Prop where
  /-- No last copy is lost. -/
  stored : ∀ place key, (w.folder place).secrets = some key → w.Has place key
  returned : ∀ key, (w.folder .dataDir).secrets = some key → ∀ p, allowed p → ∀ sealing u,
    exec (load t p .dataDir) ⟨w, 0⟩ = (.ok sealing, u) → sealing.value = key
  /-- No other key is made, however the load ends. -/
  created : (w.folder .dataDir).secrets ≠ none → ∀ p, allowed p → ∀ key,
    (exec (load t p .dataDir) ⟨w, 0⟩).2.world.Has .dataDir key → w.Has .dataDir key
  works : ∀ key, (w.folder .dataDir).secrets = some key → ∀ p, p.Works →
    ∃ sealing u, exec (load t p .dataDir) ⟨w, 0⟩ = (.ok sealing, u) ∧ sealing.value = key

section Kept

variable {t : Paths} {p : Process} {w : World} {key : String}

theorem usesFile_of_works (hp : p.Works) : p.usesFile = false := by
  rw [Process.usesFile, hp.present]
  rcases hp.setting with hs | hs <;> rw [hs] <;> rfl

theorem Sound.returned (h : Sound w) (hsecrets : (w.folder .dataDir).secrets = some key)
    (hf : p.usesFile = true → w.storedKey .dataDir ≠ none ∨ w.entryKey .dataDir = none)
    {sealing : SealingKey} {u : Underway}
    (hx : exec (load t p .dataDir) ⟨w, 0⟩ = (.ok sealing, u)) : sealing.value = key := by
  have hcurrent := h.secrets _ key hsecrets
  have hload := ends_load (t := t) (u := ⟨w, 0⟩) Steady.refl hf
  obtain ⟨hsteady, hgiven⟩ := hload.of_ok hx
  rcases hgiven with hgiven | ⟨-, hnone⟩
  · exact Option.some.inj (hgiven.symm.trans (hsteady.current key hcurrent))
  · exact absurd (hnone ▸ hcurrent) (Option.some_ne_none key).symm

theorem Sound.created (h : Sound w) (hsecrets : (w.folder .dataDir).secrets ≠ none)
    (hf : p.usesFile = true → w.storedKey .dataDir ≠ none ∨ w.entryKey .dataDir = none)
    (hhas : (exec (load t p .dataDir) ⟨w, 0⟩).2.world.Has .dataDir key) : w.Has .dataDir key := by
  obtain ⟨k, hk⟩ := Option.ne_none_iff_exists'.mp hsecrets
  have hcurrent : w.current .dataDir ≠ none := by
    rw [h.secrets _ k hk]; exact Option.some_ne_none k
  have hload := ends_load (t := t) (u := ⟨w, 0⟩) Steady.refl hf
  have hsteady : Steady .dataDir w (exec (load t p .dataDir) ⟨w, 0⟩).2.world := by
    cases hx : exec (load t p .dataDir) ⟨w, 0⟩ with
    | mk r u =>
      cases r with
      | ok sealing => exact (hload.of_ok hx).1
      | error e => exact hload.of_error hx
  exact hsteady.has hcurrent key hhas

end Kept

/-- **The sealing key is kept** in every run whose steps are guarded: a load that has to use the file
    finds the key there or is the folder's first, secrets are moved aside with their key, and the marker
    of an import stays until the imported key is the only one. -/
theorem sealing_key_kept (t : Paths) (as : List Action) (w : World)
    (hrun : Runs.run (step t) {} as = some w)
    (hguarded : Runs.Along (step t) (fun w a => guarded w a = true) {} as) :
    Kept t w fun p => keyFound w p = true := by
  have h : Sound w := Runs.run_invariant_along (fun _ _ _ hs hg hI => step_sound hs hg hI)
    hrun hguarded sound_start
  refine ⟨?_, ?_, ?_, ?_⟩
  · exact fun place key hkey => World.has_of_current (h.secrets place key hkey)
  · exact fun key hkey p hp sealing u hx => h.returned hkey (keyFound_uses hp) hx
  · exact fun hsecrets p hp key hhas => h.created hsecrets (keyFound_uses hp) hhas
  · intro key hkey p hp
    obtain ⟨sealing, u, hx⟩ := load_returns (t := t) (u := ⟨w, 0⟩) hp h.agrees
    refine ⟨sealing, u, hx, h.returned hkey (fun huses => ?_) hx⟩
    rw [usesFile_of_works hp] at huses
    exact absurd huses Bool.false_ne_true

/-- A keychain that works, on a computer without a setting. -/
def working (key : Key) : Process := { setting := .unset, newKey := key }

def withoutKeychain (key : Key) : Process := { working key with absent := true }

def first : Key := ⟨"first", by decide⟩

def second : Key := ⟨"second", by decide⟩

/-- Secrets under a key in the keychain. -/
def sealedFolder : List Action := [.start (working first), .«seal»]

/-- An import swapped in, the keychain as `p` finds it up to the load and as `q` finds it from there. -/
def importedFolder (p q : Process) : List Action :=
  [.stage 1 second true, .beginSwap 1] ++ List.replicate 4 (.swap p) ++ List.replicate 2 (.swap q)

theorem sealing_key_kept_imported :
    ∃ w, Runs.run (step ⟨fun _ => ""⟩) {}
        (sealedFolder ++ importedFolder (working first) (working first)) = some w ∧
      w.Has (.aside 1) "first" ∧
      ∃ sealing u, exec (load ⟨fun _ => ""⟩ (working first) .dataDir) ⟨w, 0⟩ = (.ok sealing, u) ∧
        sealing.value = "second" := by
  have hreached : ∃ w, Runs.run (step ⟨fun _ => ""⟩) {}
      (sealedFolder ++ importedFolder (working first) (working first)) = some w ∧
      (w.folder (.aside 1)).secrets = some "first" ∧
      (w.folder .dataDir).secrets = some "second" := ⟨_, rfl, by decide, by decide⟩
  obtain ⟨w, hrun, haside, hdata⟩ := hreached
  have hkept := sealing_key_kept _ _ w hrun (by decide)
  refine ⟨w, hrun, hkept.stored _ _ haside, hkept.works _ hdata _ ⟨.inl rfl, rfl, ?_, ?_, ?_⟩⟩
  all_goals exact fun _ => rfl

/-- Nothing carried: the imported key takes the place of the last copy of the other. -/
example : ∃ w, Runs.run (step ⟨fun _ => ""⟩) {}
      (sealedFolder ++ importedFolder (withoutKeychain first) (working first)) = some w ∧
    (w.folder (.aside 1)).secrets = some "first" ∧ w.storedKey (.aside 1) = none ∧
    w.entryKey (.aside 1) = none ∧ w.entryKey .dataDir = some "second" :=
  ⟨_, rfl, by decide, by decide, by decide, by decide⟩

/-- The marker gone while the key is in its file: a keychain that works again is refused. -/
example : ∃ w, Runs.run (step ⟨fun _ => ""⟩) {}
      (sealedFolder ++ importedFolder (working first) (withoutKeychain first)) = some w ∧
    (w.folder .dataDir).secrets = some "second" ∧
    (exec (load ⟨fun _ => ""⟩ (working first) .dataDir) ⟨w, 0⟩).1 =
      .error (.keyStoreError (differentKeys ⟨fun _ => ""⟩ .dataDir)) :=
  ⟨_, rfl, by decide, rfl⟩

/-- **A load without the keychain makes a second key** next to the one in the keychain. -/
theorem keychain_absent : ¬ ∀ as w, Runs.run (step ⟨fun _ => ""⟩) {} as = some w →
    Kept ⟨fun _ => ""⟩ w fun _ => True := by
  intro h
  have hreached : ∃ w, Runs.run (step ⟨fun _ => ""⟩) {} sealedFolder = some w ∧
      (w.folder .dataDir).secrets = some "first" ∧
      ∃ u, exec (load ⟨fun _ => ""⟩ (withoutKeychain second) .dataDir) ⟨w, 0⟩ =
        (.ok ⟨"second", .file, fileWarning ⟨fun _ => ""⟩ .dataDir⟩, u) :=
    ⟨_, rfl, by decide, _, rfl⟩
  obtain ⟨w, hrun, hsecrets, u, hx⟩ := hreached
  have hsame := (h _ w hrun).returned _ hsecrets _ trivial _ u hx
  exact absurd hsame (by decide)

end Dbs.KeyStore

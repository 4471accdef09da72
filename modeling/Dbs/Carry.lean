/-
  File:      Dbs/Carry.lean
  Subject:   WHAT A MOVE LEAVES ON THE TARGET (`Carrier` in relocation/transfer.py): a folder, a file or
             a volume is carried there and put in its place, and any command on the way may fail.

  Of the target server the state has the destination and the folder `.….dbs-incoming-…` that the carry
  makes beside it; its name is a new one. A command that fails may have had its effect nevertheless (the
  connection was lost before its exit status came), and an extraction that fails may have left anything.
  Nobody else changes the destination meanwhile. Images are left out.

  * `placeFolder`, `placeFile`, `fillVolume`, `importVolume`, `carry` -- as the code has them;
  * `Meets` -- the content or the old state, the incoming folder recorded; nothing replaced; a retry is
    not refused because of what was left;
  * `calls`, `firstFailure` -- the commands in their order and the first that fails;
  * `carry_meets_iff` -- the carry meets its promise exactly when that one is harmless;
  * `incoming_forgotten` -- a move into place that fails.
-/
import Dbs.Lib.Effects
import Mathlib.Tactic.Linarith

namespace Dbs.Carry

open Effects

/-! ## 1. Items and commands -/

inductive Kind
  | folder
  | file
  | volume
  | podmanVolume
deriving DecidableEq

/-- `content`: what a folder or volume holds, or the data of a file; `owned`: it has an owner. -/
structure Item (C : Type) where
  kind : Kind
  content : C
  owned : Bool

/-- `otherUser`, `otherGroup`: both ids are known and differ. -/
structure Carrier where
  asRoot : Bool
  otherUser : Bool
  otherGroup : Bool
  selinux : Bool

/-- What a path has; whatever is no folder counts as a file. -/
inductive Node (C : Type)
  | folder (content : C)
  | file (data : C)
deriving DecidableEq

/-- Each stands for one place of the code; `fetch` and `upload` for all they do. -/
inductive Call
  | fetch
  | upload
  | existsParent
  | makeParent
  | makeIncoming
  | extract
  | ownFolder
  | folderMode
  | ownUser
  | ownGroup
  | restoreContexts
  | lexistsTarget
  | lstatTarget
  | listTarget
  | removeTarget
  | place
  | lexistsPlaced
  | removeIncoming
  | lexistsIncoming
  | createVolume
  | mountpoint
  | listVolume
  | importVolume
  | removeStaged
deriving DecidableEq

/-- It runs without `check=False`. -/
def Call.checked : Call → Bool
  | restoreContexts | removeIncoming => false
  | _ => true

/-- `took`: a command that fails has had its effect; `lost`: there was no exit status. -/
inductive Fate
  | done
  | fails (took lost : Bool)

/-- What meets one carry: how each command ends, whether the parent of the destination is there, and
    what an extraction that fails leaves. -/
structure Fates (C : Type) where
  of : Call → Fate
  parentThere : Bool
  left : C

/-- It raises. -/
def Fates.fails {C : Type} (f : Fates C) (call : Call) : Bool :=
  match f.of call with
  | .done => false
  | .fails _ lost => call.checked || lost

def Fates.took {C : Type} (f : Fates C) (call : Call) : Bool :=
  match f.of call with
  | .done => true
  | .fails took _ => took

/-- `incoming`: the folder of this carry, and what it holds; `recorded`: it is among the leftovers. -/
structure World (C : Type) where
  destination : Option (Node C)
  incoming : Option (Option C)
  recorded : Bool
  stagedRecorded : Bool
deriving DecidableEq

inductive Failure
  /-- `RemoteCommandFailed`, `PrivilegedCommandFailed`. -/
  | remote
  /-- `TargetFolderNotEmpty`. -/
  | notEmpty
  /-- `TargetFileExists`. -/
  | fileExists
deriving DecidableEq

/-- What `podman volume import` makes of a volume that holds something. -/
structure Engine (C : Type) [EmptyCollection C] where
  merged : C → C → C
  merged_empty : ∀ c, merged ∅ c = c

/-! ## 2. The carry -/

section Code

variable {C : Type} [EmptyCollection C] [DecidableEq C] (e : Engine C) (t : Carrier) (f : Fates C)
  (item : Item C)

/-- A command and its effect on what is modelled. -/
def command (call : Call) (effect : World C → World C) : Prog Failure (World C) Unit :=
  match f.of call with
  | .done => modify effect
  | .fails took lost => do
    if took then modify effect
    if call.checked || lost then throw .remote

/-- A question; its answer is read from the state. -/
def ask (call : Call) : Prog Failure (World C) Unit := command f call id

/-- A command that brings in the content. -/
def fill (call : Call) (put : C → World C → World C) : Prog Failure (World C) Unit :=
  match f.of call with
  | .done => modify (put item.content)
  | .fails took _ => do
    if took then modify (put f.left)
    throw .remote

/-- `self.leftovers.append(incoming)` -/
def record : Prog Failure (World C) Unit := modify fun w => { w with recorded := true }

/-- `except BaseException: self.leftovers.append(incoming); raise` -/
def recording (x : Prog Failure (World C) Unit) : Prog Failure (World C) Unit :=
  tryCatch x fun failure => do
    record
    throw failure

/-- `incoming`; that the parent was made is not followed further. -/
def makeIncoming : Prog Failure (World C) Unit := do
  ask f .existsParent
  if !f.parentThere then command f .makeParent id
  command f .makeIncoming fun w => { w with incoming := some none }

def extract : Prog Failure (World C) Unit :=
  fill f item .extract fun c w => { w with incoming := some (some c) }

def adopt : Prog Failure (World C) Unit := do
  if item.owned then
    if t.asRoot then command f .ownFolder id
    command f .folderMode id

def remap : Prog Failure (World C) Unit := do
  if t.asRoot then
    if t.otherUser then command f .ownUser id
    if t.otherGroup then command f .ownGroup id
    if t.selinux then command f .restoreContexts id

/-- `mv -T -n` of the incoming folder. -/
def moveFolder (w : World C) : World C :=
  match w.destination, w.incoming with
  | none, some held => { w with destination := some (.folder (held.getD ∅)), incoming := none }
  | _, _ => w

/-- `mv -T -n` of the file in it. -/
def moveFile (w : World C) : World C :=
  match w.destination, w.incoming with
  | none, some (some data) => { w with destination := some (.file data), incoming := some none }
  | _, _ => w

/-- `rmdir` of the incoming folder. -/
def dropIncoming (w : World C) : World C :=
  if w.incoming = some none then { w with incoming := none } else w

/-- The part of `settle` in front of `mv`. -/
def clearTarget : Prog Failure (World C) Unit := do
  ask f .lexistsTarget
  match (← get).destination with
  | none => pure ()
  | some (.file _) =>
    ask f .lstatTarget
    record
    throw .notEmpty
  | some (.folder content) =>
    ask f .lstatTarget
    ask f .listTarget
    if content ≠ ∅ then
      record
      throw .notEmpty
    command f .removeTarget fun w => { w with destination := none }

def settle : Prog Failure (World C) Unit := do
  clearTarget f
  command f .place moveFolder
  ask f .lexistsIncoming
  if (← get).incoming.isSome then
    record
    throw .notEmpty

def placeFolder : Prog Failure (World C) Unit := do
  makeIncoming f
  recording do
    extract f item
    adopt t f item
    remap t f
  settle f

def placeFile : Prog Failure (World C) Unit := do
  ask f .lexistsTarget
  if (← get).destination.isSome then throw .fileExists
  makeIncoming f
  recording do
    extract f item
    remap t f
    command f .place moveFile
  ask f .lexistsPlaced
  if (← get).destination.isNone then
    record
    throw .fileExists
  command f .removeIncoming dropIncoming
  ask f .lexistsIncoming
  if (← get).incoming.isSome then record

/-- What the volume holds, nothing if there is none. -/
def World.held (w : World C) : C :=
  match w.destination with
  | some (.folder content) | some (.file content) => content
  | none => ∅

/-- `volume create` leaves one that is there as it is. -/
def createVolume : Prog Failure (World C) Unit :=
  command f .createVolume fun w => { w with destination := some (w.destination.getD (.folder ∅)) }

def fillVolume : Prog Failure (World C) Unit := do
  createVolume f
  ask f .mountpoint
  ask f .listVolume
  if (← get).held ≠ ∅ then throw .notEmpty
  fill f item .extract fun c w => { w with destination := some (.folder c) }

def importVolume : Prog Failure (World C) Unit := do
  createVolume f
  fill f item .importVolume fun c w => { w with destination := some (.folder (e.merged w.held c)) }

def place : Prog Failure (World C) Unit :=
  match item.kind with
  | .folder => placeFolder t f item
  | .file => placeFile t f item
  | .volume => fillVolume f item
  | .podmanVolume => importVolume e f item

/-- `remove_staged`, which records what it cannot remove. -/
def removeStaged : Prog Failure (World C) Unit :=
  if f.fails .removeStaged then modify fun w => { w with stagedRecorded := true } else pure ()

def carry : Prog Failure (World C) Unit := do
  ask f .fetch
  ask f .upload
  tryCatch (place e t f item) fun failure => do
    removeStaged f
    throw failure
  removeStaged f

/-- A carry begins with an incoming folder's name that is new. -/
def World.start (destination : Option (Node C)) : World C := ⟨destination, none, false, false⟩

/-- How the carry ends, and what is there then. -/
def carried (destination : Option (Node C)) : Except Failure Unit × World C :=
  exec (carry e t f item) (.start destination)

/-! ## 3. What is promised -/

/-- What the destination is when it holds exactly the carried content. -/
def Item.arrived : Node C :=
  match item.kind with
  | .file => .file item.content
  | .folder | .volume | .podmanVolume => .folder item.content

/-- The destination has content already. -/
def Occupied (destination : Option (Node C)) : Prop :=
  match item.kind, destination with
  | _, none => False
  | .folder, some (.folder content) => content ≠ ∅
  | .folder, some (.file _) => True
  | .file, some _ => True
  | .volume, some (.folder content) | .volume, some (.file content) => content ≠ ∅
  | .podmanVolume, some (.folder content) | .podmanVolume, some (.file content) => content ≠ ∅

instance (destination : Option (Node C)) : Decidable (Occupied item destination) := by
  unfold Occupied
  split <;> infer_instance

/-- `TargetFolderNotEmpty`, `TargetFileExists`. -/
def Refused (r : Except Failure Unit × World C) : Prop :=
  r.1 = .error .notEmpty ∨ r.1 = .error .fileExists

/-- `settled`: the content is there, or everything is as before and the incoming folder recorded;
    `kept`: what has content is not replaced; `retried`: where an attempt has raised, another one is
    refused only because of what was there before. -/
structure Meets (before : Option (Node C)) : Prop where
  settled : (carried e t f item before).2.destination = some item.arrived ∨
    (carried e t f item before).2.destination = before ∧
      ((carried e t f item before).2.incoming ≠ none → (carried e t f item before).2.recorded = true)
  kept : Occupied item before → (carried e t f item before).2.destination = before
  retried : (carried e t f item before).1 ≠ .ok () → ∀ t' f',
    Refused (carried e t' f' item (carried e t f item before).2.destination) → Occupied item before

/-! ## 4. The first command that fails -/

def incomingCalls : List Call :=
  [.existsParent] ++ (if f.parentThere then [] else [.makeParent]) ++ [.makeIncoming]

def adoptCalls : List Call :=
  if item.owned then (if t.asRoot then [.ownFolder] else []) ++ [.folderMode] else []

def remapCalls : List Call :=
  if t.asRoot then
    (if t.otherUser then [.ownUser] else []) ++ (if t.otherGroup then [.ownGroup] else []) ++
      (if t.selinux then [.restoreContexts] else [])
  else []

/-- In the `try` of `place_folder`. -/
def fillCalls : List Call := [.extract] ++ adoptCalls t item ++ remapCalls t

/-- In the `try` of `place_file`. -/
def moveCalls : List Call := [.extract] ++ remapCalls t ++ [.place]

def clearCalls (before : Option (Node C)) : List Call :=
  [.lexistsTarget] ++
  match before with
  | none => []
  | some (.file _) => [.lstatTarget]
  | some (.folder content) =>
    [.lstatTarget, .listTarget] ++ if content = ∅ then [.removeTarget] else []

def settleCalls (before : Option (Node C)) : List Call :=
  clearCalls before ++ if Occupied item before then [] else [.place, .lexistsIncoming]

/-- The commands of a carry, in their order, if none fails. -/
def calls (before : Option (Node C)) : List Call :=
  [.fetch, .upload] ++
  match item.kind with
  | .folder =>
    incomingCalls f ++ fillCalls t item ++ settleCalls item before
  | .file =>
    [.lexistsTarget] ++
    if before.isSome then []
    else incomingCalls f ++ moveCalls t ++
      [.lexistsPlaced, .removeIncoming, .lexistsIncoming]
  | .volume =>
    [.createVolume, .mountpoint, .listVolume] ++ if Occupied item before then [] else [.extract]
  | .podmanVolume => [.createVolume, .importVolume]

def firstFailure (before : Option (Node C)) : Option Call := (calls t f item before).find? f.fails

/-- What a volume that was there or has been made holds after an import that failed. -/
def partlyImported (before : Option (Node C)) : C :=
  let held := (World.start before).held
  if f.took .importVolume then e.merged held f.left else held

/-- A failure of this command leaves what is promised. -/
def Harmless (before : Option (Node C)) : Call → Prop
  | .makeIncoming => f.took .makeIncoming = false ∨ before = some item.arrived
  | .lexistsTarget => item.kind = .file ∨ before = some item.arrived
  | .lstatTarget | .listTarget => before = some item.arrived
  | .removeTarget => f.took .removeTarget = false ∧ before = some item.arrived
  | .place =>
    if item.kind = .file then f.took .place = false
    else f.took .place = true ∧ item.content = ∅
  | .lexistsIncoming => item.kind = .folder ∧ item.content = ∅
  | .lexistsPlaced | .removeIncoming => False
  | .createVolume => f.took .createVolume = false ∨ before ≠ none ∨ item.content = ∅
  | .mountpoint | .listVolume => before ≠ none ∨ item.content = ∅
  | .extract =>
    item.kind ≠ .volume ∨
      (f.took .extract = false ∨ f.left = ∅) ∧ (item.content = ∅ ∨ before ≠ none)
  | .importVolume =>
    (partlyImported e f before = item.content ∨
      before = some (.folder (partlyImported e f before))) ∧
    (Occupied item before → before = some (.folder (partlyImported e f before)))
  | .fetch | .upload | .existsParent | .makeParent | .ownFolder | .folderMode | .ownUser | .ownGroup
  | .restoreContexts | .removeStaged => True

end Code

/-! ## 5. Commands -/

/-- What a command that may have failed has done. -/
def Fates.after {C : Type} (f : Fates C) (call : Call) (effect : World C → World C) (w : World C) :
    World C :=
  if f.took call then effect w else w

def Fates.ends {C : Type} (f : Fates C) (call : Call) : Except Failure Unit :=
  if f.fails call then .error .remote else .ok ()

section Commands

variable {C : Type} {t : Carrier} {f : Fates C} {item : Item C} {w : World C} {call : Call}
  {effect : World C → World C} {put : C → World C → World C} {x : Prog Failure (World C) Unit}

theorem exec_command : exec (command f call effect) w = (f.ends call, f.after call effect w) := by
  unfold command Fates.ends Fates.after Fates.fails Fates.took
  cases f.of call with
  | done => rfl
  | fails took lost => cases took <;> cases lost <;> cases call.checked <;> rfl

theorem took_of_succeeds (hchecked : call.checked = true) (h : f.fails call = false) :
    f.took call = true := by
  unfold Fates.fails at h
  unfold Fates.took
  cases hfate : f.of call with
  | done => rfl
  | fails took lost => simp [hfate, hchecked] at h

/-- A command that is checked and does not raise has had its effect. -/
theorem exec_checked (hchecked : call.checked = true) :
    exec (command f call effect) w =
      if f.fails call then (.error .remote, f.after call effect w) else (.ok (), effect w) := by
  rw [exec_command, Fates.ends]
  split
  · rfl
  · next h =>
      have htook := took_of_succeeds hchecked (Bool.eq_false_iff.mpr h)
      rw [Fates.after, if_pos htook]

@[simp] theorem exec_ask :
    exec (ask f call) w = if f.fails call then (.error .remote, w) else (.ok (), w) := by
  rw [ask, exec_command, Fates.after, Fates.ends]
  split <;> split <;> rfl

theorem exec_fill (hchecked : call.checked = true) :
    exec (fill f item call put) w =
      if f.fails call then (.error .remote, f.after call (put f.left) w)
      else (.ok (), put item.content w) := by
  unfold fill Fates.fails Fates.after Fates.took
  cases f.of call with
  | done => rfl
  | fails took lost =>
    rw [hchecked]
    cases took <;> rfl

theorem exec_recording :
    exec (recording x) w = match exec x w with
      | (.ok _, v) => (.ok (), v)
      | (.error failure, v) => (.error failure, { v with recorded := true }) := by
  rw [recording, exec_tryCatch]
  cases exec x w with
  | mk r v =>
    cases r with
    | ok _ => rfl
    | error failure => rfl

/-- A command without effect on what is modelled, checked or not. -/
@[simp] theorem exec_id :
    exec (command f call id) w = if f.fails call then (.error .remote, w) else (.ok (), w) := exec_ask

/-- **The incoming folder** is there, or a command has failed, at worst after it was made. -/
theorem exec_makeIncoming :
    exec (makeIncoming f) w = match (incomingCalls f).find? f.fails with
      | none => (.ok (), { w with incoming := some none })
      | some call => (.error .remote,
          if call = .makeIncoming then
            f.after .makeIncoming (fun w => { w with incoming := some none }) w
          else w) := by
  unfold makeIncoming incomingCalls
  rw [exec_bind, exec_ask]
  cases hexists : f.fails .existsParent with
  | true => simp [hexists]
  | false =>
    cases hparent : f.parentThere with
    | true =>
      cases hmake : f.fails .makeIncoming <;>
        simp [hexists, hmake, exec_checked (rfl : Call.makeIncoming.checked = true)]
    | false =>
      cases hfolder : f.fails .makeParent <;> cases hmake : f.fails .makeIncoming <;>
        simp [hexists, hfolder, hmake, exec_bind, exec_checked (rfl : Call.makeIncoming.checked = true)]

/-- Owners and modes change nothing that is modelled. -/
theorem exec_adopt :
    exec (adopt t f item) w = match (adoptCalls t item).find? f.fails with
      | none => (.ok (), w)
      | some _ => (.error .remote, w) := by
  unfold adopt adoptCalls
  cases item.owned <;> cases t.asRoot <;> cases hown : f.fails .ownFolder <;>
    cases hmode : f.fails .folderMode <;> simp [hown, hmode, exec_bind]

theorem exec_remap :
    exec (remap t f) w = match (remapCalls t).find? f.fails with
      | none => (.ok (), w)
      | some _ => (.error .remote, w) := by
  unfold remap remapCalls
  cases t.asRoot with
  | false => rfl
  | true =>
    cases t.otherUser <;> cases t.otherGroup <;> cases t.selinux <;>
      cases huser : f.fails .ownUser <;> cases hgroup : f.fails .ownGroup <;>
      cases hcontext : f.fails .restoreContexts <;> simp [huser, hgroup, hcontext, exec_bind]

theorem exec_extract :
    exec (extract f item) w =
      if f.fails .extract then
        (.error .remote, f.after .extract (fun w => { w with incoming := some (some f.left) }) w)
      else (.ok (), { w with incoming := some (some item.content) }) := by
  rw [extract, exec_fill rfl]

/-- **The transfer into the incoming folder**: it holds the content, or it is recorded. -/
theorem exec_fillFolder (item : Item C) (w : World C) :
    match (fillCalls t item).find? f.fails with
      | none => exec (recording do extract f item; adopt t f item; remap t f) w =
          (.ok (), { w with incoming := some (some item.content) })
      | some _ => ∃ held, exec (recording do extract f item; adopt t f item; remap t f) w =
          (.error .remote, { w with incoming := held, recorded := true }) := by
  rw [exec_recording, exec_bind, exec_extract, fillCalls, List.find?_append, List.find?_append]
  cases hextract : f.fails .extract with
  | true =>
    rw [List.find?_cons_of_pos hextract]
    unfold Fates.after
    cases f.took .extract with
    | true => exact ⟨_, rfl⟩
    | false => exact ⟨w.incoming, rfl⟩
  | false =>
    rw [List.find?_cons_of_neg (by simp [hextract])]
    simp only [Bool.false_eq_true, if_false, exec_bind, exec_adopt, exec_remap, List.find?_nil,
      Option.none_or]
    cases (adoptCalls t item).find? f.fails with
    | some call => exact ⟨_, rfl⟩
    | none =>
      rw [Option.none_or]
      cases (remapCalls t).find? f.fails with
      | some call => exact ⟨_, rfl⟩
      | none => rfl

end Commands

section Settling

variable {C : Type} [EmptyCollection C] {f : Fates C} {item : Item C} {w : World C} {held : Option C}

/-- What is there when the incoming folder has been moved into place. -/
def World.moved (w : World C) (held : Option C) : World C :=
  { w with destination := some (.folder (held.getD ∅)), incoming := none }

def World.cleared (w : World C) : World C := { w with destination := none }

theorem moveFolder_free (hw : w.incoming = some held) (hd : w.destination = none) :
    moveFolder w = w.moved held := by
  simp [moveFolder, World.moved, hw, hd]

/-- What a command of `settle` leaves when it fails. -/
def World.unsettled (f : Fates C) (w : World C) (held : Option C) : Call → World C
  | .removeTarget => f.after .removeTarget World.cleared w
  | .place => f.after .place (fun w => w.moved held) w.cleared
  | .lexistsIncoming => w.moved held
  | _ => w

/-- From the removal of an empty target on. -/
theorem exec_place (hw : w.incoming = some held) (hd : w.destination = none) :
    exec (do command f .place moveFolder
             ask f .lexistsIncoming
             if (← get).incoming.isSome then
               record
               throw .notEmpty) w =
      match ([.place, .lexistsIncoming] : List Call).find? f.fails with
      | none => (.ok (), w.moved held)
      | some call => (.error .remote, w.unsettled f held call) := by
  have hcleared : w.cleared = w := by rw [World.cleared, ← hd]
  have hmove := moveFolder_free hw hd
  cases hplace : f.fails .place with
  | true =>
    simp [hplace, exec_bind, exec_checked (rfl : Call.place.checked = true), Fates.after, hmove,
      hcleared,
      World.unsettled]
  | false =>
    cases hlexists : f.fails .lexistsIncoming with
    | true =>
      simp [hplace, hlexists, exec_bind, exec_checked (rfl : Call.place.checked = true), hmove,
        World.unsettled]
    | false =>
      simp [hplace, hlexists, exec_bind, exec_checked (rfl : Call.place.checked = true), hmove,
        World.moved]

theorem exec_createVolume {w : World C} :
    exec (createVolume f) w =
      if f.fails .createVolume then (.error .remote,
        f.after .createVolume
          (fun w => { w with destination := some (w.destination.getD (.folder ∅)) }) w)
      else (.ok (), { w with destination := some (w.destination.getD (.folder ∅)) }) :=
  exec_checked rfl

variable [DecidableEq C]

/-- **The target in front of `mv`**: nothing is there, or it holds something and the incoming folder is
    recorded; or a command has failed. -/
theorem exec_clearTarget (held : Option C) (hkind : item.kind = .folder) :
    exec (clearTarget f) w = match (clearCalls w.destination).find? f.fails with
      | none =>
          if Occupied item w.destination then (.error .notEmpty, { w with recorded := true })
          else (.ok (), w.cleared)
      | some call => (.error .remote, w.unsettled f held call) := by
  unfold clearTarget clearCalls
  cases hlexists : f.fails .lexistsTarget with
  | true => simp [hlexists, exec_bind, World.unsettled]
  | false =>
  cases hd : w.destination with
  | none =>
    have hcleared : w.cleared = w := by rw [World.cleared, ← hd]
    simp [hlexists, exec_bind, hd, Occupied, hcleared]
  | some node =>
  cases hlstat : f.fails .lstatTarget with
  | true => cases node <;> simp [hlexists, hlstat, exec_bind, hd, World.unsettled]
  | false =>
  cases node with
  | file data => simp [hlexists, hlstat, exec_bind, hd, Occupied, hkind, record]
  | folder content =>
  cases hlist : f.fails .listTarget with
  | true => simp [hlexists, hlstat, hlist, exec_bind, hd, World.unsettled]
  | false =>
    by_cases hcontent : content = ∅
    · cases hremove : f.fails .removeTarget with
      | true =>
        simp [hlexists, hlstat, hlist, hremove, exec_bind, hd, hcontent, World.unsettled,
          exec_checked (rfl : Call.removeTarget.checked = true)]
        rfl
      | false =>
        simp [hlexists, hlstat, hlist, hremove, exec_bind, hd, hcontent, Occupied, hkind,
          World.cleared, exec_checked (rfl : Call.removeTarget.checked = true)]
    · simp [hlexists, hlstat, hlist, exec_bind, hd, hcontent, Occupied, hkind, record]

/-- **`settle`**: the folder is in its place; or the target holds something and the folder is
    recorded; or a command has failed. -/
theorem exec_settle (hkind : item.kind = .folder) (hw : w.incoming = some held) :
    exec (settle f) w = match (settleCalls item w.destination).find? f.fails with
      | none =>
          if Occupied item w.destination then (.error .notEmpty, { w with recorded := true })
          else (.ok (), w.moved held)
      | some call => (.error .remote, w.unsettled f held call) := by
  rw [settle, exec_bind, exec_clearTarget held hkind, settleCalls, List.find?_append]
  cases (clearCalls w.destination).find? f.fails with
  | some call => rfl
  | none =>
    rw [Option.none_or]
    split_ifs with hoccupied
    · rfl
    · have hplace := exec_place (f := f) (w := w.cleared) hw rfl
      refine Eq.trans hplace ?_
      cases hfound : ([.place, .lexistsIncoming] : List Call).find? f.fails with
      | none => rfl
      | some call =>
        have hcall := List.mem_of_find?_eq_some hfound
        simp only [List.mem_cons, List.not_mem_nil, or_false] at hcall
        obtain rfl | rfl := hcall <;> rfl

end Settling

/-! ## 6. Where a carry ends -/

section Members

variable {C : Type} {t : Carrier} {f : Fates C} {item : Item C} {call : Call}

theorem mem_incomingCalls (h : call ∈ incomingCalls f) :
    call = .existsParent ∨ call = .makeParent ∨ call = .makeIncoming := by
  unfold incomingCalls at h
  cases f.parentThere <;> simp at h <;> grind

theorem mem_remapCalls (h : call ∈ remapCalls t) :
    call = .ownUser ∨ call = .ownGroup ∨ call = .restoreContexts := by
  unfold remapCalls at h
  grind

theorem mem_fillCalls (h : call ∈ fillCalls t item) :
    call = .extract ∨ call = .ownFolder ∨ call = .folderMode ∨
      call = .ownUser ∨ call = .ownGroup ∨ call = .restoreContexts := by
  unfold fillCalls adoptCalls at h
  have := @mem_remapCalls t call
  grind

theorem mem_moveCalls (h : call ∈ moveCalls t) :
    call = .extract ∨ call = .ownUser ∨ call = .ownGroup ∨ call = .restoreContexts ∨
      call = .place := by
  unfold moveCalls at h
  have := @mem_remapCalls t call
  grind

theorem mem_settleCalls [EmptyCollection C] [DecidableEq C] {before : Option (Node C)}
    (h : call ∈ settleCalls item before) :
    call = .lexistsTarget ∨ call = .lstatTarget ∨ call = .listTarget ∨ call = .removeTarget ∨
      call = .place ∨ call = .lexistsIncoming := by
  unfold settleCalls clearCalls at h
  grind

/-- **The `try` of `place_file`**: the file is in its place, or the incoming folder is recorded. -/
theorem exec_moveFile (item : Item C) (w : World C) (hd : w.destination = none) :
    match (moveCalls t).find? f.fails with
      | none =>
          exec (recording (do extract f item; remap t f; command f .place moveFile)) w =
            (.ok (), { w with destination := some (.file item.content), incoming := some none })
      | some call => ∃ held,
          exec (recording (do extract f item; remap t f; command f .place moveFile)) w =
          (.error .remote,
            { w with
              destination :=
                if call = .place ∧ f.took .place then some (.file item.content) else none
              incoming := held, recorded := true }) := by
  rw [exec_recording, exec_bind, exec_extract, moveCalls, List.find?_append, List.find?_append]
  cases hextract : f.fails .extract with
  | true =>
    rw [List.find?_cons_of_pos hextract]
    cases htook : f.took .extract <;> simp [Fates.after, htook, hd]
  | false =>
  rw [List.find?_cons_of_neg (by simp [hextract])]
  simp only [Bool.false_eq_true, if_false, exec_bind, exec_remap, List.find?_nil, Option.none_or]
  cases hremap : (remapCalls t).find? f.fails with
  | some call =>
    obtain rfl | rfl | rfl := mem_remapCalls (List.mem_of_find?_eq_some hremap) <;> simp [hd]
  | none =>
    cases hplace : f.fails .place with
    | true =>
      cases htook : f.took .place <;>
        simp [exec_checked (rfl : Call.place.checked = true), hplace, Fates.after, htook, hd, moveFile]
    | false => simp [exec_checked (rfl : Call.place.checked = true), hplace, hd, moveFile]

section Volumes

variable [EmptyCollection C] {before : Option (Node C)}

/-- What is in the volume when it has been created. -/
theorem created (hb : ∀ data, before ≠ some (.file data)) :
    before.getD (.folder ∅) = .folder (World.start before).held := by
  match before, hb with
  | none, _ => rfl
  | some (.folder content), _ => rfl
  | some (.file data), hb => exact absurd rfl (hb data)

theorem occupied_volume (hkind : item.kind = .volume ∨ item.kind = .podmanVolume) :
    Occupied item before ↔ (World.start before).held ≠ ∅ := by
  unfold Occupied World.held World.start
  match before with
  | none => simp
  | some (.folder content) => obtain h | h := hkind <;> simp [h]
  | some (.file data) => obtain h | h := hkind <;> simp [h]

/-- A volume that holds something was there. -/
theorem held_there (hb : ∀ data, before ≠ some (.file data)) (h : (World.start before).held ≠ ∅) :
    some (.folder (World.start before).held) = before := by
  rw [← created hb]
  cases before with
  | none => exact absurd rfl h
  | some node => rfl

end Volumes

end Members

section Ends

variable {C : Type} [EmptyCollection C] [DecidableEq C] (e : Engine C) (t : Carrier) (f : Fates C)
  (item : Item C) (before : Option (Node C))

/-- The destination, when this command has been the first that failed. -/
def leftAt : Call → Option (Node C)
  | .removeTarget => if f.took .removeTarget then none else before
  | .place => if f.took .place then some item.arrived else none
  | .lexistsPlaced | .removeIncoming | .lexistsIncoming => some item.arrived
  | .createVolume => if f.took .createVolume then some (before.getD (.folder ∅)) else before
  | .mountpoint | .listVolume => some (before.getD (.folder ∅))
  | .extract =>
    if item.kind = .volume then
      if f.took .extract then some (.folder f.left) else some (before.getD (.folder ∅))
    else before
  | .importVolume => some (.folder (partlyImported e f before))
  | _ => before

/-- The incoming folder is there then and is not recorded. -/
def forgottenAt : Call → Bool
  | .makeIncoming => f.took .makeIncoming
  | .lexistsTarget => item.kind = .folder
  | .lstatTarget | .listTarget | .removeTarget | .lexistsPlaced => true
  | .place => item.kind = .folder && !f.took .place
  | .removeIncoming => !f.took .removeIncoming
  | .lexistsIncoming => item.kind = .file && !f.took .removeIncoming
  | _ => false

def World.forgotten (w : World C) : Bool := w.incoming.isSome && !w.recorded

/-- What the promise reads of an end. -/
def summary (r : Except Failure Unit × World C) : Except Failure Unit × Option (Node C) × Bool :=
  (r.1, r.2.destination, r.2.forgotten)

variable {e t f item before}

theorem summary_placeFolder (hkind : item.kind = .folder) :
    summary (exec (placeFolder t f item) (.start before)) =
      match (incomingCalls f ++ fillCalls t item ++ settleCalls item before).find? f.fails with
      | none =>
          if Occupied item before then (.error .notEmpty, before, false)
          else (.ok (), some item.arrived, false)
      | some call => (.error .remote, leftAt e f item before call, forgottenAt f item call) := by
  rw [placeFolder, exec_bind, exec_makeIncoming, List.find?_append, List.find?_append]
  cases hincoming : (incomingCalls f).find? f.fails with
  | some call =>
    obtain rfl | rfl | rfl := mem_incomingCalls (List.mem_of_find?_eq_some hincoming)
    · rfl
    · rfl
    · cases htook : f.took .makeIncoming <;>
        simp [summary, Fates.after, htook, World.forgotten, World.start, leftAt, forgottenAt]
  | none =>
  have hfill := exec_fillFolder (t := t) (f := f) item
    { World.start before with incoming := some none }
  rw [Option.none_or]
  show summary (exec (recording (do extract f item; adopt t f item; remap t f) >>=
    fun _ => settle f) _) = _
  rw [exec_bind]
  revert hfill
  cases hfilled : (fillCalls t item).find? f.fails with
  | some call =>
    rintro ⟨held, hfill⟩
    rw [hfill]
    obtain rfl | rfl | rfl | rfl | rfl | rfl :=
      mem_fillCalls (List.mem_of_find?_eq_some hfilled) <;>
      simp [summary, World.forgotten, World.start, leftAt, forgottenAt, hkind]
  | none =>
    intro hfill
    rw [hfill, Option.none_or]
    show summary (exec (settle f) _) = _
    have hsettle := exec_settle (f := f) (w := ⟨before, some (some item.content), false, false⟩)
      hkind rfl
    refine (congrArg summary hsettle).trans ?_
    cases hsettled : (settleCalls item before).find? f.fails with
    | none =>
      split_ifs with hoccupied
      · rfl
      · simp [summary, World.moved, World.forgotten, Item.arrived, hkind]
    | some call =>
      obtain rfl | rfl | rfl | rfl | rfl | rfl :=
        mem_settleCalls (List.mem_of_find?_eq_some hsettled)
      · simp [summary, World.unsettled, World.forgotten, leftAt, forgottenAt, hkind]
      · simp [summary, World.unsettled, World.forgotten, leftAt, forgottenAt]
      · simp [summary, World.unsettled, World.forgotten, leftAt, forgottenAt]
      · cases htook : f.took .removeTarget <;>
          simp [summary, World.unsettled, World.forgotten, leftAt, forgottenAt, Fates.after, htook,
            World.cleared]
      · cases htook : f.took .place <;>
          simp [summary, World.unsettled, World.forgotten, leftAt, forgottenAt, Fates.after, htook,
            World.moved, World.cleared, Item.arrived, hkind]
      · simp [summary, World.unsettled, World.forgotten, leftAt, forgottenAt, World.moved,
          Item.arrived, hkind]

theorem summary_placeFile (hkind : item.kind = .file) :
    summary (exec (placeFile t f item) (.start before)) =
      match ([.lexistsTarget] ++ if before.isSome then [] else incomingCalls f ++ moveCalls t ++
        [.lexistsPlaced, .removeIncoming, .lexistsIncoming] : List Call).find? f.fails with
      | none =>
          if Occupied item before then (.error .fileExists, before, false)
          else (.ok (), some item.arrived, false)
      | some call => (.error .remote, leftAt e f item before call, forgottenAt f item call) := by
  rw [placeFile, exec_bind, exec_ask, List.find?_append]
  cases hlexists : f.fails .lexistsTarget with
  | true => simp [hlexists, summary, World.forgotten, World.start, leftAt, forgottenAt, hkind]
  | false =>
  cases before with
  | some node => simp [hlexists, summary, World.forgotten, World.start, exec_bind, Occupied, hkind]
  | none =>
  rw [List.find?_cons_of_neg (by simp [hlexists]), List.find?_nil, Option.none_or]
  simp only [Option.isSome_none, Bool.false_eq_true, if_false]
  rw [exec_bind_ok (exec_get _), if_neg (by simp [World.start]), exec_bind, exec_makeIncoming,
    List.find?_append, List.find?_append]
  cases hincoming : (incomingCalls f).find? f.fails with
  | some call =>
    obtain rfl | rfl | rfl := mem_incomingCalls (List.mem_of_find?_eq_some hincoming)
    · rfl
    · rfl
    · cases htook : f.took .makeIncoming <;>
        simp [summary, Fates.after, htook, World.forgotten, World.start, leftAt, forgottenAt]
  | none =>
  have hmove := exec_moveFile (t := t) (f := f) item ⟨none, some none, false, false⟩ rfl
  rw [Option.none_or]
  dsimp only [World.start]
  rw [exec_bind]
  revert hmove
  cases hmoved : (moveCalls t).find? f.fails with
  | some call =>
    rintro ⟨held, hmove⟩
    rw [hmove]
    obtain rfl | rfl | rfl | rfl | rfl := mem_moveCalls (List.mem_of_find?_eq_some hmoved) <;>
      simp [summary, World.forgotten, leftAt, forgottenAt, hkind, Item.arrived]
  | none =>
    intro hmove
    rw [hmove, Option.none_or]
    cases hplaced : f.fails .lexistsPlaced with
    | true =>
      simp [hplaced, exec_bind, summary, World.forgotten, leftAt, forgottenAt, Item.arrived, hkind]
    | false =>
    cases htook : f.took .removeIncoming <;> cases hremove : f.fails .removeIncoming <;>
      cases hlast : f.fails .lexistsIncoming <;>
      simp [hplaced, htook, hremove, hlast, exec_bind, exec_command, Fates.ends, Fates.after,
        dropIncoming, record, summary, World.forgotten, leftAt, forgottenAt, Item.arrived, Occupied,
        hkind]

theorem summary_fillVolume (hkind : item.kind = .volume) (hb : ∀ data, before ≠ some (.file data)) :
    summary (exec (fillVolume f item) (.start before)) =
      match ([.createVolume, .mountpoint, .listVolume] ++
        if Occupied item before then [] else [.extract] : List Call).find? f.fails with
      | none =>
          if Occupied item before then (.error .notEmpty, before, false)
          else (.ok (), some item.arrived, false)
      | some call => (.error .remote, leftAt e f item before call, forgottenAt f item call) := by
  rw [fillVolume, exec_bind, exec_createVolume]
  cases hcreate : f.fails .createVolume with
  | true =>
    cases htook : f.took .createVolume <;>
      simp [hcreate, Fates.after, htook, summary, World.forgotten, World.start, leftAt, forgottenAt]
  | false =>
  have hthere := held_there hb
  simp only [occupied_volume (.inl hkind), leftAt, created hb, World.start] at *
  generalize (⟨before, none, false, false⟩ : World C).held = content at hthere
  cases hmount : f.fails .mountpoint with
  | true => simp [hcreate, hmount, exec_bind, summary, World.forgotten, forgottenAt]
  | false =>
  cases hlist : f.fails .listVolume with
  | true => simp [hcreate, hmount, hlist, exec_bind, summary, World.forgotten, forgottenAt]
  | false =>
  by_cases hcontent : content = ∅
  · cases hextract : f.fails .extract with
    | true =>
      cases htook : f.took .extract <;>
        simp [hcreate, hmount, hlist, hextract, htook, hcontent, exec_bind,
          exec_fill (rfl : Call.extract.checked = true), Fates.after, World.held, summary,
          World.forgotten, forgottenAt, hkind]
    | false =>
      simp [hcreate, hmount, hlist, hextract, hcontent, exec_bind,
        exec_fill (rfl : Call.extract.checked = true), World.held, summary, World.forgotten,
        Item.arrived, hkind]
  · obtain rfl := hthere hcontent
    simp [hcreate, hmount, hlist, hcontent, exec_bind, World.held, summary, World.forgotten]

omit [DecidableEq C] in
theorem summary_importVolume (hb : ∀ data, before ≠ some (.file data)) :
    summary (exec (importVolume e f item) (.start before)) =
      match ([.createVolume, .importVolume] : List Call).find? f.fails with
      | none => (.ok (), some (.folder (e.merged (World.start before).held item.content)), false)
      | some call => (.error .remote, leftAt e f item before call, forgottenAt f item call) := by
  rw [importVolume, exec_bind, exec_createVolume]
  cases hcreate : f.fails .createVolume with
  | true =>
    cases htook : f.took .createVolume <;>
      simp [hcreate, Fates.after, htook, summary, World.forgotten, World.start, leftAt, forgottenAt]
  | false =>
  have hget := created hb
  simp only [leftAt, partlyImported, hget, World.start] at hget ⊢
  generalize (⟨before, none, false, false⟩ : World C).held = content
  cases himport : f.fails .importVolume <;> cases htook : f.took .importVolume <;>
    simp [hcreate, himport, htook, exec_fill (rfl : Call.importVolume.checked = true), Fates.after,
      World.held, summary, World.forgotten, forgottenAt]

omit [EmptyCollection C] [DecidableEq C] in
@[simp] theorem exec_removeStaged {w : World C} : exec (removeStaged f) w =
    (.ok (), { w with stagedRecorded := w.stagedRecorded || f.fails .removeStaged }) := by
  unfold removeStaged
  cases hfails : f.fails .removeStaged <;> simp

/-- Staged files are nothing the promise reads. -/
theorem summary_carried : summary (carried e t f item before) =
    if f.fails .fetch || f.fails .upload then (.error .remote, before, false)
    else summary (exec (place e t f item) (.start before)) := by
  unfold carried carry
  cases hfetch : f.fails .fetch with
  | true => simp [hfetch, exec_bind, summary, World.forgotten, World.start]
  | false =>
  cases hupload : f.fails .upload with
  | true => simp [hfetch, hupload, exec_bind, summary, World.forgotten, World.start]
  | false =>
  cases hplaced : exec (place e t f item) (.start before) with
  | mk r w =>
  cases r <;>
    simp [hfetch, hupload, hplaced, exec_bind, exec_tryCatch, summary, World.forgotten]

variable (e item before) in
/-- How a carry ends in which no command fails. -/
def quietly : Except Failure Unit × Option (Node C) × Bool :=
  match item.kind with
  | .folder | .volume =>
    if Occupied item before then (.error .notEmpty, before, false)
    else (.ok (), some item.arrived, false)
  | .file =>
    if Occupied item before then (.error .fileExists, before, false)
    else (.ok (), some item.arrived, false)
  | .podmanVolume => (.ok (), some (.folder (e.merged (World.start before).held item.content)), false)

/-- **The end of a carry** follows from the first command that fails. -/
theorem summary_firstFailure
    (hb : item.kind = .volume ∨ item.kind = .podmanVolume → ∀ data, before ≠ some (.file data)) :
    summary (carried e t f item before) = match firstFailure t f item before with
      | none => quietly e item before
      | some call => (.error .remote, leftAt e f item before call, forgottenAt f item call) := by
  rw [summary_carried, firstFailure, calls, List.find?_append]
  cases hfetch : f.fails .fetch with
  | true => simp [hfetch, leftAt, forgottenAt]
  | false =>
  cases hupload : f.fails .upload with
  | true => simp [hfetch, hupload, leftAt, forgottenAt]
  | false =>
  rw [List.find?_cons_of_neg (by simp [hfetch]), List.find?_cons_of_neg (by simp [hupload]),
    List.find?_nil, Option.none_or]
  unfold place quietly
  cases hkind : item.kind with
  | folder => exact summary_placeFolder hkind
  | file => exact summary_placeFile hkind
  | volume => exact summary_fillVolume hkind (hb (.inl hkind))
  | podmanVolume => exact summary_importVolume (hb (.inr hkind))

/-- A carry on which every command succeeds. -/
def Fates.allDone : Fates C := ⟨fun _ => .done, true, ∅⟩

theorem firstFailure_allDone : firstFailure t (Fates.allDone : Fates C) item before = none :=
  List.find?_eq_none.mpr fun _ _ => Bool.false_ne_true

/-- **A carry can be refused** exactly for what holds something, and never for a podman volume. -/
theorem refused_iff
    (hb : item.kind = .volume ∨ item.kind = .podmanVolume → ∀ data, before ≠ some (.file data)) :
    (∃ t f, Refused (carried e t f item before)) ↔
      Occupied item before ∧ item.kind ≠ .podmanVolume := by
  have hend {t f} := congrArg Prod.fst (summary_firstFailure (e := e) (t := t) (f := f) hb)
  have hquiet : (quietly e item before).1 = .error .notEmpty ∨
      (quietly e item before).1 = .error .fileExists ↔
        Occupied item before ∧ item.kind ≠ .podmanVolume := by
    unfold quietly
    cases item.kind <;> by_cases hoccupied : Occupied item before <;> simp [hoccupied]
  constructor
  · rintro ⟨t, f, hrefused⟩
    change (summary _).1 = _ ∨ (summary _).1 = _ at hrefused
    rw [hend] at hrefused
    cases hfirst : firstFailure t f item before with
    | none => rw [hfirst] at hrefused; exact hquiet.mp hrefused
    | some call => simp [hfirst] at hrefused
  · intro hoccupied
    refine ⟨⟨false, false, false, false⟩, .allDone, ?_⟩
    change (summary _).1 = _ ∨ (summary _).1 = _
    rw [hend, firstFailure_allDone]
    exact hquiet.mpr hoccupied

/-- The promise, read from how the carry ended. -/
theorem meets_iff_summary {d : Option (Node C)} {r : Except Failure Unit} {forgotten : Bool}
    (h : summary (carried e t f item before) = (r, d, forgotten))
    (hd : item.kind = .volume ∨ item.kind = .podmanVolume → ∀ data, d ≠ some (.file data)) :
    Meets e t f item before ↔
      (d = some item.arrived ∨ d = before ∧ forgotten = false) ∧ (Occupied item before → d = before) ∧
        (r ≠ .ok () → Occupied item d ∧ item.kind ≠ .podmanVolume → Occupied item before) := by
  obtain ⟨rfl, rfl, rfl⟩ : (carried e t f item before).1 = r ∧
      (carried e t f item before).2.destination = d ∧ _ = forgotten := by
    simpa [summary] using h
  have hforgotten : (carried e t f item before).2.forgotten = false ↔
      ((carried e t f item before).2.incoming ≠ none →
      (carried e t f item before).2.recorded = true) := by
    rw [World.forgotten]
    cases (carried e t f item before).2.incoming <;>
      cases (carried e t f item before).2.recorded <;> simp
  rw [hforgotten, ← refused_iff (e := e) hd]
  constructor
  · rintro ⟨hsettled, hkept, hretried⟩
    exact ⟨hsettled, hkept, fun hraised ⟨t', f', hrefused⟩ => hretried hraised t' f' hrefused⟩
  · rintro ⟨hsettled, hkept, hretried⟩
    exact ⟨hsettled, hkept, fun hraised t' f' hrefused => hretried hraised ⟨t', f', hrefused⟩⟩

variable (e f item before) in
/-- The promise, when this command has been the first that failed. -/
def MeetsAt (call : Call) : Prop :=
  (leftAt e f item before call = some item.arrived ∨
      leftAt e f item before call = before ∧ forgottenAt f item call = false) ∧
    (Occupied item before → leftAt e f item before call = before) ∧
    (Occupied item (leftAt e f item before call) ∧ item.kind ≠ .podmanVolume → Occupied item before)

/-- A command of `place_folder` in front of the removal of an empty target. -/
def Call.early : Call → Bool
  | fetch | upload | existsParent | makeParent | makeIncoming | extract | ownFolder | folderMode
  | ownUser | ownGroup | restoreContexts | lexistsTarget | lstatTarget | listTarget => true
  | _ => false

variable {call : Call}

theorem reached_folder (hkind : item.kind = .folder) (h : call ∈ calls t f item before) :
    call.early = true ∨ call = .removeTarget ∧ before = some (.folder ∅) ∨
      (call = .place ∨ call = .lexistsIncoming) ∧ ¬ Occupied item before := by
  simp only [calls, hkind, List.mem_append] at h
  obtain h | (h | h) | h := h
  · simp at h; obtain rfl | rfl := h <;> exact .inl rfl
  · obtain rfl | rfl | rfl := mem_incomingCalls h <;> exact .inl rfl
  · obtain rfl | rfl | rfl | rfl | rfl | rfl := mem_fillCalls h <;> exact .inl rfl
  · unfold settleCalls clearCalls at h
    grind [Call.early]

omit [DecidableEq C] in
/-- The content itself, once there, is in the way of a retry. -/
theorem occupied_arrived :
    Occupied item (some item.arrived) ↔ item.kind = .file ∨ item.content ≠ ∅ := by
  unfold Occupied Item.arrived
  cases item.kind <;> simp

theorem meetsAt_folder (hkind : item.kind = .folder) (h : call ∈ calls t f item before) :
    MeetsAt e f item before call ↔ Harmless e f item before call := by
  obtain hearly | ⟨rfl, rfl⟩ | ⟨rfl | rfl, hfree⟩ := reached_folder hkind h
  · cases call <;> simp [Call.early] at hearly <;> simp [MeetsAt, Harmless, leftAt, forgottenAt, hkind]
    exact or_comm
  · cases htook : f.took .removeTarget <;>
      simp [MeetsAt, Harmless, leftAt, forgottenAt, htook, Item.arrived, hkind]
  · cases htook : f.took .place <;>
      simp [MeetsAt, Harmless, leftAt, forgottenAt, htook, hfree, hkind, occupied_arrived]
  · simp [MeetsAt, Harmless, leftAt, hfree, hkind, occupied_arrived]

theorem reached_file (hkind : item.kind = .file) (h : call ∈ calls t f item before) :
    call = .fetch ∨ call = .upload ∨ call = .lexistsTarget ∨
      before = none ∧ call ∈ [.existsParent, .makeParent, .makeIncoming, .extract, .ownUser, .ownGroup,
        .restoreContexts, .place, .lexistsPlaced, .removeIncoming, .lexistsIncoming] := by
  simp only [calls, hkind, List.mem_append] at h
  obtain h | h | h := h
  · simp at h; grind
  · simp at h; grind
  · cases before with
    | some node => simp at h
    | none =>
      simp only [Option.isSome_none, Bool.false_eq_true, if_false, List.mem_append] at h
      obtain (h | h) | h := h
      · obtain rfl | rfl | rfl := mem_incomingCalls h <;> simp
      · obtain rfl | rfl | rfl | rfl | rfl := mem_moveCalls h <;> simp
      · grind

omit [DecidableEq C] in
/-- A command that fails before anything has changed. -/
theorem meetsAt_untouched (hleft : leftAt e f item before call = before)
    (hforgotten : forgottenAt f item call = false) : MeetsAt e f item before call := by
  rw [MeetsAt, hleft]
  exact ⟨.inr ⟨rfl, hforgotten⟩, fun _ => rfl, And.left⟩

omit [DecidableEq C] in
/-- A command that fails when the volume has been created. -/
theorem meetsAt_created (hkind : item.kind = .volume ∨ item.kind = .podmanVolume)
    (hleft : leftAt e f item before call = some (before.getD (.folder ∅)))
    (hforgotten : forgottenAt f item call = false) :
    MeetsAt e f item before call ↔ before ≠ none ∨ item.content = ∅ := by
  rw [MeetsAt, hleft, hforgotten]
  cases before with
  | some node => simpa using fun h _ => h
  | none => obtain hkind | hkind := hkind <;> simp [Item.arrived, Occupied, hkind, eq_comm]

omit [DecidableEq C] in
theorem meetsAt_createVolume (hkind : item.kind = .volume ∨ item.kind = .podmanVolume) :
    MeetsAt e f item before .createVolume ↔ Harmless e f item before .createVolume := by
  cases htook : f.took .createVolume with
  | true =>
    rw [meetsAt_created hkind (by simp [leftAt, htook]) rfl]
    simp [Harmless, htook]
  | false =>
    have hmeets : MeetsAt e f item before .createVolume :=
      meetsAt_untouched (by simp [leftAt, htook]) rfl
    simp [hmeets, Harmless, htook]

theorem meetsAt_file (hkind : item.kind = .file) (h : call ∈ calls t f item before) :
    MeetsAt e f item before call ↔ Harmless e f item before call := by
  obtain rfl | rfl | rfl | ⟨rfl, hlate⟩ := reached_file hkind h
  · exact iff_of_true (meetsAt_untouched rfl rfl) trivial
  · exact iff_of_true (meetsAt_untouched rfl rfl) trivial
  · exact iff_of_true (meetsAt_untouched rfl (by simp [forgottenAt, hkind])) (.inl hkind)
  · have hfree : ¬ Occupied item none := by simp [Occupied]
    obtain rfl | hcall := Decidable.em (call = .place)
    · cases htook : f.took .place <;>
        simp [MeetsAt, Harmless, leftAt, forgottenAt, htook, hfree, hkind, occupied_arrived]
    · simp only [List.mem_cons, List.not_mem_nil, or_false, hcall, false_or] at hlate
      obtain rfl | rfl | rfl | rfl | rfl | rfl | rfl | rfl | rfl | rfl := hlate <;>
        simp [MeetsAt, Harmless, leftAt, forgottenAt, hfree, hkind, occupied_arrived]

theorem meetsAt_volume (hkind : item.kind = .volume) (hb : ∀ data, before ≠ some (.file data))
    (h : call ∈ calls t f item before) :
    MeetsAt e f item before call ↔ Harmless e f item before call := by
  have hreached : call = .fetch ∨ call = .upload ∨ call = .createVolume ∨ call = .mountpoint ∨
      call = .listVolume ∨ ¬ Occupied item before ∧ call = .extract := by
    simp only [calls, hkind, List.mem_append] at h
    grind
  obtain rfl | rfl | rfl | rfl | rfl | ⟨hfree, rfl⟩ := hreached
  · exact iff_of_true (meetsAt_untouched rfl rfl) trivial
  · exact iff_of_true (meetsAt_untouched rfl rfl) trivial
  · exact meetsAt_createVolume (.inl hkind)
  · exact meetsAt_created (.inl hkind) rfl rfl
  · exact meetsAt_created (.inl hkind) rfl rfl
  · have hempty : before = none ∨ before = some (.folder ∅) := by
      match before, hb with
      | none, _ => exact .inl rfl
      | some (.folder content), _ => simpa [Occupied, hkind] using hfree
      | some (.file data), hb => exact absurd rfl (hb data)
    obtain rfl | rfl := hempty <;> cases htook : f.took .extract <;>
      simp [MeetsAt, Harmless, leftAt, forgottenAt, htook, Item.arrived, Occupied, hkind] <;> grind

theorem meetsAt_podmanVolume (hkind : item.kind = .podmanVolume)
    (h : call ∈ calls t f item before) :
    MeetsAt e f item before call ↔ Harmless e f item before call := by
  have hreached : call = .fetch ∨ call = .upload ∨ call = .createVolume ∨ call = .importVolume := by
    simp only [calls, hkind, List.mem_append] at h
    grind
  obtain rfl | rfl | rfl | rfl := hreached
  · exact iff_of_true (meetsAt_untouched rfl rfl) trivial
  · exact iff_of_true (meetsAt_untouched rfl rfl) trivial
  · exact meetsAt_createVolume (.inr hkind)
  · simp [MeetsAt, Harmless, leftAt, forgottenAt, Item.arrived, hkind, eq_comm]

/-- **One command that fails**: the promise is kept exactly when its failure is harmless. -/
theorem meetsAt_iff
    (hb : item.kind = .volume ∨ item.kind = .podmanVolume → ∀ data, before ≠ some (.file data))
    (h : call ∈ calls t f item before) :
    MeetsAt e f item before call ↔ Harmless e f item before call := by
  cases hkind : item.kind with
  | folder => exact meetsAt_folder hkind h
  | file => exact meetsAt_file hkind h
  | volume => exact meetsAt_volume hkind (hb (.inl hkind)) h
  | podmanVolume => exact meetsAt_podmanVolume hkind h

/-- What the commands leave in a volume is no file. -/
theorem leftAt_volume (hkind : item.kind = .volume ∨ item.kind = .podmanVolume)
    (hb : ∀ data, before ≠ some (.file data)) (h : call ∈ calls t f item before) :
    ∀ data, leftAt e f item before call ≠ some (.file data) := by
  have hcreated := created hb
  have hreached : call = .fetch ∨ call = .upload ∨ call = .createVolume ∨ call = .mountpoint ∨
      call = .listVolume ∨ call = .extract ∨ call = .importVolume := by
    obtain hkind | hkind := hkind <;> simp only [calls, hkind, List.mem_append] at h <;> grind
  obtain rfl | rfl | rfl | rfl | rfl | rfl | rfl := hreached <;> unfold leftAt <;> grind

end Ends

/-! ## 7. When a carry meets its promise -/

/-- What the destination of an item may be in front of a carry: a volume is a folder. -/
structure Destination {C : Type} (item : Item C) where
  node : Option (Node C)
  apt : item.kind = .volume ∨ item.kind = .podmanVolume → ∀ data, node ≠ some (.file data)

section Results

variable {C : Type} [EmptyCollection C] [DecidableEq C] {e : Engine C} {t : Carrier} {f : Fates C}
  {item : Item C}

/-- **A carry on which nothing fails** keeps its promise, but for a podman volume that holds something:
    there only if the import changes nothing. -/
theorem quietly_meets (before : Destination item) (h : firstFailure t f item before.node = none) :
    Meets e t f item before.node ↔
      (item.kind = .podmanVolume → Occupied item before.node →
        e.merged (World.start before.node).held item.content = (World.start before.node).held) := by
  have hsummary := summary_firstFailure (e := e) (t := t) (f := f) before.apt
  rw [h] at hsummary
  by_cases hpodman : item.kind = .podmanVolume
  · simp only [quietly, hpodman] at hsummary
    rw [meets_iff_summary hsummary fun _ _ => by simp]
    have harrived : item.arrived = .folder item.content := by rw [Item.arrived, hpodman]
    have hoccupied : Occupied item before.node ↔ (World.start before.node).held ≠ ∅ :=
      occupied_volume (.inr hpodman)
    have hthere := held_there (before.apt (.inr hpodman))
    generalize (World.start before.node).held = held at hoccupied hthere ⊢
    by_cases hheld : held = ∅
    · simp [hoccupied, hheld, harrived, e.merged_empty]
    · have hnode := hthere hheld
      have hfull := hoccupied.mpr hheld
      rw [← hnode] at hfull ⊢
      simp only [hfull, hpodman, harrived, true_imp_iff, Option.some.injEq, Node.folder.injEq]
      exact ⟨fun h => h.2.1, fun h => ⟨.inr ⟨h, trivial⟩, h, fun h => absurd rfl h⟩⟩
  · obtain ⟨r, hquiet⟩ : ∃ r, quietly e item before.node =
        if Occupied item before.node then (.error r, before.node, false)
        else (.ok (), some item.arrived, false) := by
      unfold quietly
      cases hkind : item.kind with
      | folder | volume => exact ⟨.notEmpty, rfl⟩
      | file => exact ⟨.fileExists, rfl⟩
      | podmanVolume => exact absurd hkind hpodman
    rw [hquiet] at hsummary
    refine iff_of_true ?_ fun hkind => absurd hkind hpodman
    by_cases hoccupied : Occupied item before.node
    · rw [if_pos hoccupied] at hsummary
      exact (meets_iff_summary hsummary before.apt).mpr ⟨.inr ⟨rfl, rfl⟩, fun _ => rfl, fun _ h => h.1⟩
    · rw [if_neg hoccupied] at hsummary
      refine (meets_iff_summary hsummary fun hkind data => ?_).mpr
        ⟨.inl rfl, fun h => absurd h hoccupied, fun h => absurd rfl h⟩
      obtain hkind | hkind := hkind <;> simp [Item.arrived, hkind]

/-- **What a carry promises is kept exactly** when the first command that fails, if any does, is a
    harmless one, and a podman volume that holds something is not changed by the import. -/
theorem carry_meets_iff (before : Destination item) :
    Meets e t f item before.node ↔
      (∀ call, firstFailure t f item before.node = some call → Harmless e f item before.node call) ∧
        (firstFailure t f item before.node = none → item.kind = .podmanVolume →
          Occupied item before.node →
          e.merged (World.start before.node).held item.content = (World.start before.node).held) := by
  cases hfirst : firstFailure t f item before.node with
  | none => simpa using quietly_meets before hfirst
  | some call =>
    have hmem := List.mem_of_find?_eq_some hfirst
    have hsummary := summary_firstFailure (e := e) (t := t) (f := f) before.apt
    rw [hfirst] at hsummary
    rw [meets_iff_summary hsummary fun hkind => leftAt_volume hkind (before.apt hkind) hmem]
    simpa [MeetsAt] using meetsAt_iff (e := e) before.apt hmem

/-- **A move into place that fails** (`mv` in `settle`): nothing is at the destination, the incoming
    folder is there and is not among the leftovers. -/
theorem incoming_forgotten :
    let e : Engine (List Nat) := ⟨(· ++ ·), fun _ => rfl⟩
    let t : Carrier := ⟨true, false, false, false⟩
    let f : Fates (List Nat) :=
      ⟨fun call => if call = .place then .fails false false else .done, true, []⟩
    let item : Item (List Nat) := ⟨.folder, [7], false⟩
    carried e t f item none = (.error .remote, ⟨none, some (some [7]), false, false⟩) ∧
      ¬ Meets e t f item none := by
  intro e t f item
  have hend : carried e t f item none = (.error .remote, ⟨none, some (some [7]), false, false⟩) := by
    decide
  refine ⟨hend, fun hmeets => ?_⟩
  have hsettled := hmeets.settled
  rw [hend] at hsettled
  revert hsettled
  decide

end Results

end Dbs.Carry

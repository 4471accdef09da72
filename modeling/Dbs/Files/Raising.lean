/-
  File:      Dbs/Files/Raising.lean
  Subject:   WHAT PLACING A FILE LETS OUT (files.py, place_entry): the functions of Placement.lean with
             every exception that leaves them.

  `_place_storage` catches what its calls raise, `_place_local` and `map_path` catch nothing: a path
  with a name no system call takes ends in `os.path.realpath`, an entry of kind root that names no
  root in `os.path.normpath`.

  * `placeEntry` -- a placement, or what is raised;
  * `Placeable` -- what an entry must be like; `placeEntry_returns_iff` -- then only it is placed;
  * `agrees_placeEntry` -- what is returned is what Placement.lean says, so it lies below a root;
  * `accepted_entries_raise` -- two entries `checked_entry` accepts, and both raise.
-/
import Dbs.Files.Placement
import Dbs.Lib.PosixNames
import Dbs.Payload.Written

namespace Dbs.Files.Asking

open Posix

/-! ## 1. The functions -/

inductive Raised
  | recursionError
  | typeError
  | valueError
deriving DecidableEq, Repr

section Functions

variable (h : Host) (encodable : Char → Bool)

/-- `os.path.realpath`, where the file system's encoding writes the `encodable` characters. -/
def real (path : PathText) : Except Raised PathText :=
  match realpathAsking h.fs encodable h.depth h.cwd path with
  | .ok real => .ok real
  | .error .tooDeep => .error .recursionError
  | .error .refused => .error .valueError

def outsideOwn (target : PathText) : Option PathText → Except Raised Bool
  | none => .ok false
  | some ownRoot => do return !isInside target (← real h encodable ownRoot)

/-- `lexists`, `isfile` and `exists` catch a ValueError, `access` asks about what exists. -/
def placeLocal (placement : Placement) (path : PathText) (roots : List PathText)
    (ownRoot : Option PathText) : Except Raised Placement := do
  let target ← real h encodable path
  if ← outsideOwn h encodable target ownRoot then
    return placement.refuse
      (text path ++ ": resolves outside its root " ++ text (ownRoot.getD [""]))
  if !roots.any fun root => isInside target root then
    return placement.refuse
      (text path ++ ": resolves outside every restore root (" ++ restoreRootSettings ++ ")")
  if obstacle h target ≠ "" then
    return placement.refuse (text target ++ ": " ++ obstacle h target)
  return { placement with target }

def storageRoot (storage : Storage) (path : PathText) : Except Raised PathText :=
  match storage.location.filter (· ≠ [""]) with
  | some location => real h encodable location
  | none => (real h encodable path).map dirname

def placeStorage (placement : Placement) : Except Raised Placement :=
  let entry := placement.entry
  let described := optional entry.model ++ "." ++ optional entry.field ++ ": " ++ text entry.name
  match h.storageOf entry.model entry.field with
  | none => .ok (placement.refuse (described ++ ": this project has no such file field"))
  | some storage =>
    match storage.path entry.name with
    | .suspicious => .ok (placement.refuse (described ++ ": resolves outside the field's storage"))
    | .notImplemented =>
      if h.validFileName entry.name then
        .ok { placement with storage := some storage, name := entry.name }
      else .ok (placement.refuse (described ++ ": not a safe storage name"))
    | .local path => do
      let root ← storageRoot h encodable storage path
      placeLocal h encodable
        { placement with fileMode := storage.fileMode, directoryMode := storage.directoryMode }
        path [root] none

/-- `map_path(None)` is `os.path.normpath(None)`. -/
def placeEntry (roots : List PathText) (pathMap : List (PathText × PathText)) (entry : Entry) :
    Except Raised Placement :=
  let placement : Placement := { entry }
  match entry.kind with
  | .storage => placeStorage h encodable placement
  | .path =>
    let mapped := mapPath h.cwd pathMap entry.name
    placeLocal h encodable
      { placement with movedTo := if mapped ≠ entry.name then some mapped else none } mapped roots none
  | .root =>
    match entry.root with
    | none => .error .typeError
    | some old =>
      let root := mapPath h.cwd pathMap old
      placeLocal h encodable placement (join root entry.name) roots (some root)
  | .unknown repr => .ok (placement.refuse (text entry.name ++ ": unknown file entry kind " ++ repr))

end Functions

/-! ## 2. What they return -/

/-- Where the first returns, the second returns the same. -/
def Agrees {α : Type} (asking : Except Raised α) (total : Except Failed α) : Prop :=
  ∀ a, asking = .ok a → total = .ok a

section Agreement

variable {α β : Type} {h : Host} {encodable : Char → Bool}

theorem agrees_ok (a : α) : Agrees (.ok a) (.ok a) := fun _ ha => congrArg Except.ok (Except.ok.inj ha)

theorem agrees_error (e : Raised) (e' : Failed) :
    Agrees (.error e : Except Raised α) (.error e') := nofun

theorem Agrees.bind {asking : Except Raised α} {total : Except Failed α} {f : α → Except Raised β}
    {g : α → Except Failed β} (hfirst : Agrees asking total) (hnext : ∀ a, Agrees (f a) (g a)) :
    Agrees (asking >>= f) (total >>= g) := by
  intro b hb
  cases asking with
  | error e => exact absurd hb nofun
  | ok a =>
    rw [hfirst a rfl]
    exact hnext a b hb

theorem map_ok {asking : Except Raised α} {f : α → β} {b : β} :
    asking.map f = .ok b ↔ ∃ a, asking = .ok a ∧ f a = b := by
  cases asking with
  | error e => exact ⟨nofun, fun ⟨_, ha, _⟩ => (by cases ha)⟩
  | ok a =>
    refine ⟨fun h => ⟨a, rfl, Except.ok.inj h⟩, fun ⟨a', ha, hb⟩ => ?_⟩
    exact congrArg Except.ok (Except.ok.inj ha ▸ hb)

theorem real_ok {path target : PathText} : real h encodable path = .ok target ↔
    h.real path = .ok target ∧
      ∀ name ∈ asked h.fs h.depth h.cwd path, refused encodable name = false := by
  have hask : real h encodable path = .ok target ↔
      realpathAsking h.fs encodable h.depth h.cwd path = .ok target := by
    unfold real
    split
    · rename_i heq; rw [heq, Except.ok.injEq, Except.ok.injEq]
    · rename_i heq; rw [heq]; exact ⟨nofun, nofun⟩
    · rename_i heq; rw [heq]; exact ⟨nofun, nofun⟩
  have htotal : h.real path = .ok target ↔ realpath h.fs h.depth h.cwd path = some target := by
    unfold Host.real
    split
    · rename_i heq; rw [heq, Except.ok.injEq, Option.some.injEq]
    · rename_i heq; rw [heq]; exact ⟨nofun, nofun⟩
  rw [hask, htotal]
  exact realpathAsking_ok

theorem agrees_real (path : PathText) : Agrees (real h encodable path) (h.real path) :=
  fun _ hreal => (real_ok.mp hreal).1

theorem agrees_outsideOwn (target : PathText) (ownRoot : Option PathText) :
    Agrees (outsideOwn h encodable target ownRoot) (Files.outsideOwn h target ownRoot) := by
  cases ownRoot with
  | none => exact agrees_ok false
  | some ownRoot => exact (agrees_real ownRoot).bind fun _ => agrees_ok _

theorem agrees_placeLocal (placement : Placement) (path : PathText) (roots : List PathText)
    (ownRoot : Option PathText) : Agrees (placeLocal h encodable placement path roots ownRoot)
      (Files.placeLocal h placement path roots ownRoot) := by
  unfold placeLocal Files.placeLocal
  refine (agrees_real path).bind fun target => (agrees_outsideOwn target ownRoot).bind fun outside => ?_
  split
  · exact agrees_ok _
  split
  · exact agrees_ok _
  split
  · exact agrees_ok _
  · exact agrees_ok _

theorem agrees_storageRoot (storage : Storage) (path : PathText) :
    Agrees (storageRoot h encodable storage path) (Files.storageRoot h storage path) := by
  unfold storageRoot Files.storageRoot
  cases storage.location.filter (· ≠ [""]) with
  | some location => exact agrees_real location
  | none =>
    intro root hroot
    obtain ⟨target, htarget, rfl⟩ := map_ok.mp hroot
    rw [agrees_real path target htarget]
    rfl

theorem agrees_placeStorage (placement : Placement) :
    Agrees (placeStorage h encodable placement) (Files.placeStorage h placement) := by
  unfold placeStorage Files.placeStorage
  cases hfield : h.storageOf placement.entry.model placement.entry.field with
  | none =>
    simp only [hfield]
    exact agrees_ok _
  | some storage =>
    simp only [hfield]
    cases storage.path placement.entry.name with
    | suspicious => exact agrees_ok _
    | notImplemented =>
      show Agrees (if _ then _ else _) (if _ then _ else _)
      split
      · exact agrees_ok _
      · exact agrees_ok _
    | «local» path => exact (agrees_storageRoot storage path).bind fun _ => agrees_placeLocal _ _ _ _

/-- **What is returned is the placement of Placement.lean**, so it lies where that one does. -/
theorem agrees_placeEntry (roots : List PathText) (pathMap : List (PathText × PathText))
    (entry : Entry) : Agrees (placeEntry h encodable roots pathMap entry)
      (Files.placeEntry h roots pathMap entry) := by
  unfold placeEntry Files.placeEntry
  cases entry.kind with
  | storage => exact agrees_placeStorage _
  | path => exact agrees_placeLocal _ _ _ _
  | root =>
    cases entry.root with
    | none => exact agrees_error _ _
    | some old => exact agrees_placeLocal _ _ _ _
  | unknown repr => exact agrees_ok _

end Agreement

/-! ## 3. Which entries are placed -/

/-- The path can be resolved on the host. -/
abbrev Resolves (h : Host) (encodable : Char → Bool) (path : PathText) : Prop :=
  Resolvable h.fs encodable h.depth h.cwd path

/-- Every path the entry is placed by can be resolved; one of kind root names its root. -/
def Placeable (h : Host) (encodable : Char → Bool) (pathMap : List (PathText × PathText))
    (entry : Entry) : Prop :=
  match entry.kind with
  | .storage => ∀ storage path, h.storageOf entry.model entry.field = some storage →
      storage.path entry.name = .local path → Resolves h encodable path ∧
        ∀ location, storage.location.filter (· ≠ [""]) = some location → Resolves h encodable location
  | .path => Resolves h encodable (mapPath h.cwd pathMap entry.name)
  | .root => ∃ old, entry.root = some old ∧
      Resolves h encodable (join (mapPath h.cwd pathMap old) entry.name) ∧
      Resolves h encodable (mapPath h.cwd pathMap old)
  | .unknown _ => True

section Returns

variable {α β : Type} {h : Host} {encodable : Char → Bool} {placement : Placement}

def Returns (asking : Except Raised α) : Prop := ∃ a, asking = .ok a

theorem returns_ok (a : α) : Returns (.ok a) := ⟨a, rfl⟩

theorem not_returns_error (e : Raised) : ¬ Returns (.error e : Except Raised α) := nofun

/-- Both parts return, when the second does so whatever the first returns. -/
theorem returns_bind {asking : Except Raised α} {f : α → Except Raised β} {P : Prop}
    (hnext : ∀ a, Returns (f a) ↔ P) : Returns (asking >>= f) ↔ Returns asking ∧ P := by
  cases asking with
  | error e => exact ⟨fun ⟨_, hb⟩ => (by cases hb), fun ⟨⟨_, ha⟩, _⟩ => (by cases ha)⟩
  | ok a => exact (hnext a).trans (and_iff_right (returns_ok a)).symm

theorem returns_map {asking : Except Raised α} {f : α → β} :
    Returns (asking.map f) ↔ Returns asking := by
  cases asking with
  | error e => exact ⟨fun ⟨_, hb⟩ => (by cases hb), fun ⟨_, ha⟩ => (by cases ha)⟩
  | ok a => exact iff_of_true (returns_ok (f a)) (returns_ok a)

variable {path : PathText}

theorem returns_real : Returns (real h encodable path) ↔ Resolves h encodable path := by
  rw [Resolves, ← realpathAsking_returns]
  unfold Returns real
  split
  · rename_i heq; rw [heq]; exact iff_of_true ⟨_, rfl⟩ ⟨_, rfl⟩
  · rename_i heq; rw [heq]; exact iff_of_false nofun nofun
  · rename_i heq; rw [heq]; exact iff_of_false nofun nofun

theorem returns_outsideOwn {target : PathText} {ownRoot : Option PathText} :
    Returns (outsideOwn h encodable target ownRoot) ↔
      ∀ root, ownRoot = some root → Resolves h encodable root := by
  cases ownRoot with
  | none => exact iff_of_true (returns_ok false) nofun
  | some root =>
    have hown : Returns (outsideOwn h encodable target (some root)) ↔
        Returns (real h encodable root) ∧ True :=
      returns_bind fun _ => iff_true_intro (returns_ok _)
    rw [hown, and_true, returns_real]
    exact ⟨fun hroot _ heq => Option.some.inj heq ▸ hroot, fun hroot => hroot root rfl⟩

/-- **A local placement** asks for its path and for its own root, nothing else raises. -/
theorem returns_placeLocal {roots : List PathText} {ownRoot : Option PathText} :
    Returns (placeLocal h encodable placement path roots ownRoot) ↔ Resolves h encodable path ∧
      ∀ root, ownRoot = some root → Resolves h encodable root := by
  unfold placeLocal
  rw [returns_bind (P := ∀ root, ownRoot = some root → Resolves h encodable root), returns_real]
  intro target
  rw [returns_bind (P := True), and_true, returns_outsideOwn]
  intro outside
  refine iff_true_intro ?_
  split
  · exact returns_ok _
  split
  · exact returns_ok _
  split
  · exact returns_ok _
  · exact returns_ok _

theorem returns_placeLocal_none {roots : List PathText} :
    Returns (placeLocal h encodable placement path roots none) ↔ Resolves h encodable path :=
  returns_placeLocal.trans (and_iff_left nofun)

theorem returns_storageRoot {storage : Storage} :
    Returns (storageRoot h encodable storage path) ∧ Resolves h encodable path ↔
      Resolves h encodable path ∧
        ∀ location, storage.location.filter (· ≠ [""]) = some location →
          Resolves h encodable location := by
  rw [and_comm]
  refine and_congr_right fun hpath => ?_
  unfold storageRoot
  cases storage.location.filter (· ≠ [""]) with
  | none => exact iff_of_true (returns_map.mpr (returns_real.mpr hpath)) nofun
  | some location =>
    refine returns_real.trans ⟨fun hloc _ heq => ?_, fun hall => hall location rfl⟩
    exact Option.some.inj heq ▸ hloc

theorem returns_placeStorage : Returns (placeStorage h encodable placement) ↔
    ∀ storage path, h.storageOf placement.entry.model placement.entry.field = some storage →
      storage.path placement.entry.name = .local path → Resolves h encodable path ∧
        ∀ location, storage.location.filter (· ≠ [""]) = some location →
          Resolves h encodable location := by
  unfold placeStorage
  cases hfield : h.storageOf placement.entry.model placement.entry.field with
  | none =>
    simp only [hfield]
    exact iff_of_true (returns_ok _) nofun
  | some storage =>
    simp only [hfield]
    -- a storage that has no path of its own, or refuses the name, asks for nothing
    have hnone : ∀ {asking : Except Raised Placement}, Returns asking →
        (∀ path, storage.path placement.entry.name ≠ .local path) → (Returns asking ↔
          ∀ storage' path, some storage = some storage' →
            storage'.path placement.entry.name = .local path → Resolves h encodable path ∧
              ∀ location, storage'.location.filter (· ≠ [""]) = some location →
                Resolves h encodable location) := by
      intro asking hasking hpath
      refine iff_of_true hasking fun storage' path heq hlocal => ?_
      exact absurd hlocal (Option.some.inj heq ▸ hpath path)
    cases hpath : storage.path placement.entry.name with
    | suspicious => exact hnone (returns_ok _) fun path => by rw [hpath]; nofun
    | notImplemented =>
      refine hnone ?_ fun path => by rw [hpath]; nofun
      show Returns (if _ then _ else _)
      split
      · exact returns_ok _
      · exact returns_ok _
    | «local» path =>
      refine (returns_bind fun _ => returns_placeLocal_none).trans ?_
      rw [returns_storageRoot]
      constructor
      · rintro hresolves storage' path' heq hlocal
        cases heq
        obtain rfl := StoragePath.local.inj (hpath.symm.trans hlocal)
        exact hresolves
      · exact fun hall => hall storage path rfl hpath

/-- **An entry is placed, or refused with a reason, exactly when it is placeable**; every other one
    raises. The restore roots have no part in it. -/
theorem placeEntry_returns_iff (h : Host) (encodable : Char → Bool) (roots : List PathText)
    (pathMap : List (PathText × PathText)) (entry : Entry) :
    (∃ placement, placeEntry h encodable roots pathMap entry = .ok placement) ↔
      Placeable h encodable pathMap entry := by
  show Returns _ ↔ _
  unfold placeEntry Placeable
  cases entry.kind with
  | storage => exact returns_placeStorage
  | path => exact returns_placeLocal_none
  | root =>
    cases entry.root with
    | none => exact iff_of_false (not_returns_error _) fun ⟨_, hold, _⟩ => (by cases hold)
    | some old =>
      refine returns_placeLocal.trans ⟨fun hlocal => ?_, ?_⟩
      · exact ⟨old, rfl, hlocal.1, hlocal.2 _ rfl⟩
      · rintro ⟨old', hold, hpath, hroot⟩
        cases hold
        exact ⟨hpath, fun root heq => Option.some.inj heq ▸ hroot⟩
  | unknown repr => exact iff_of_true (returns_ok _) trivial

end Returns

/-! ## 4. Two entries that are accepted -/

open Payload (FileEntry checkedEntry manifestItem null)

open Json (Text)

/-- What `checked_entry` returns for an entry of that kind. -/
def fileEntry (kind : String) (entry : Entry) : FileEntry where
  kind := Text.ofString kind
  name := Text.ofString (text entry.name)
  size := 1
  model := entry.model.map Text.ofString
  field := entry.field.map Text.ofString
  root := entry.root.map fun root => Text.ofString (text root)
  pk := null
  sha256 := Text.ofString ""

/-- No text of an entry is checked. -/
theorem checkedEntry_fileEntry (kind : String) (entry : Entry) :
    checkedEntry (manifestItem (fileEntry kind entry)) = .ok (fileEntry kind entry) :=
  (Payload.checkedEntry_manifestItem _ _).mpr ⟨rfl, rfl⟩

/-- A file below a root, without the root. -/
def rootless : Entry := ⟨.root, ["a.txt"], none, none, none⟩

/-- A path with a NUL. -/
def withNul : Entry := ⟨.path, ["", "srv", "media", "a\x00"], none, none, none⟩

/-- **`checked_entry` accepts both, and placing them raises.** -/
theorem accepted_entries_raise :
    checkedEntry (manifestItem (fileEntry "root" rootless)) = .ok (fileEntry "root" rootless) ∧
    placeEntry linkedHost (fun _ => true) [["", "srv", "media"]] [] rootless = .error .typeError ∧
    checkedEntry (manifestItem (fileEntry "path" withNul)) = .ok (fileEntry "path" withNul) ∧
    placeEntry linkedHost (fun _ => true) [["", "srv", "media"]] [] withNul = .error .valueError :=
  ⟨checkedEntry_fileEntry _ _, rfl, checkedEntry_fileEntry _ _, rfl⟩

end Dbs.Files.Asking

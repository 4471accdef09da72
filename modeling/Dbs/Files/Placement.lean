/-
  File:      Dbs/Files/Placement.lean
  Subject:   WHERE A RESTORED FILE GOES (files.py, map_path, _place_local, _place_storage, place_entry):
             the roots a restore may write below, and links anywhere on the way.

  The answers of the operating system to its other questions (`lexists`, `isfile`, `access`) are given,
  and so is which names Django's check lets pass; links are followed as `os.path.realpath` of Python 3.9
  to 3.12 follows them.

  * `placeEntry` -- an entry's target, or why it is refused;
  * `Secure` -- the target leads below a root; `Confined` -- every entry that is not refused has one;
  * `NoWayOut` -- no target that lies below a root by its text leads out of the roots;
  * `confined_iff` -- entries are confined where no path meets a loop of links, and where one does only
    if there is no way out; `loop_leads_out` -- a link behind a loop that nobody follows.
-/
import Dbs.Lib.PosixPath
import Mathlib.Algebra.GroupWithZero.Nat

namespace Dbs.Files

open Posix

/-! ## 1. Entries, storages, placements -/

inductive Kind
  | storage
  | path
  | root
  /-- Another text, as `repr` writes it. -/
  | unknown (repr : String)
deriving DecidableEq, Repr

/-- What a placement reads of a manifest entry. -/
structure Entry where
  kind : Kind
  name : PathText
  root : Option PathText := none
  model : Option String := none
  field : Option String := none
deriving DecidableEq, Repr

/-- What `storage.path(name)` gives. -/
inductive StoragePath
  | local (path : PathText)
  | notImplemented
  | suspicious
deriving DecidableEq, Repr

structure Storage where
  path : PathText → StoragePath
  location : Option PathText
  fileMode : Option Nat := none
  directoryMode : Option Nat := none

structure Placement where
  entry : Entry
  target : PathText := [""]
  storage : Option Storage := none
  name : PathText := [""]
  movedTo : Option PathText := none
  fileMode : Option Nat := none
  directoryMode : Option Nat := none
  problem : String := ""

inductive Failed
  | recursionError
  | typeError
deriving DecidableEq, Repr

/-- A name that stays in its storage: relative and without `..`, where backslashes count as slashes. -/
def Relative (name : PathText) : Prop :=
  let posix := name.flatMap fun part => part.splitOn "\\"
  isAbs posix = false ∧ ".." ∉ parts posix

/-- The computer a restore runs on, and the project's file fields. -/
structure Host where
  fs : FileSystem
  cwd : Location
  /-- `os.getcwd` has followed every link. -/
  cwd_plain : Plain fs cwd
  /-- How deep calls may nest. -/
  depth : Nat
  lexists : PathText → Bool
  exist : PathText → Bool
  isfile : PathText → Bool
  isdir : PathText → Bool
  /-- `os.access` for writing and entering. -/
  access : PathText → Bool
  /-- The storage of a model's field. -/
  storageOf : Option String → Option String → Option Storage
  /-- Django's `validate_file_name` with relative paths returns; it refuses every other name. -/
  validFileName : PathText → Bool
  relative_of_valid : ∀ name, validFileName name = true → Relative name

def Placement.refuse (p : Placement) (reason : String) : Placement := { p with problem := reason }

/-! ## 2. The functions -/

def text (path : PathText) : String := "/".intercalate path

def textLength (path : PathText) : Nat := (path.map String.length).sum + (path.length - 1)

/-- `max(matches, key=len)`: of the longest the first. -/
def longest : List PathText → Option PathText
  | [] => none
  | old :: olds =>
    some (olds.foldl (fun best old => if textLength best < textLength old then old else best) old)

def mapPath (cwd : Location) (pathMap : List (PathText × PathText)) (path : PathText) : PathText :=
  let normalized := normpath path
  match longest ((pathMap.map Prod.fst).filter fun old => isInside normalized old) with
  | none => path
  | some old =>
    let new := (pathMap.lookup old).getD [""]
    let relative := relpath cwd normalized old
    if relative = ["."] then new else join new relative

/-- The directories `nearest_existing` tries, at most as many as the path has parts. -/
def nearestExisting (h : Host) : Nat → PathText → PathText
  | 0, probe => probe
  | n + 1, probe => if h.exist probe then probe else nearestExisting h n (dirname probe)

def canWriteInto (h : Host) (directory : PathText) : Bool :=
  let start := abspath h.cwd directory
  let probe := nearestExisting h start.length start
  h.isdir probe && h.access probe

def obstacle (h : Host) (target : PathText) : String :=
  if h.lexists target && !h.isfile target then "something other than a file is in the way"
  else if !canWriteInto h (dirname target) then "its directory cannot be written"
  else ""

def restoreRootSettings : String := "DBS_RESTORE_ROOTS, DBS_FILE_ROOTS or a ModelBackup's file_roots"

def Host.real (h : Host) (path : PathText) : Except Failed PathText :=
  match realpath h.fs h.depth h.cwd path with
  | some real => .ok real
  | none => .error .recursionError

/-- The root of the entry's own, if it has one. -/
def outsideOwn (h : Host) (target : PathText) : Option PathText → Except Failed Bool
  | none => .ok false
  | some ownRoot => do return !isInside target (← h.real ownRoot)

def placeLocal (h : Host) (placement : Placement) (path : PathText) (roots : List PathText)
    (ownRoot : Option PathText) : Except Failed Placement := do
  let target ← h.real path
  if ← outsideOwn h target ownRoot then
    return placement.refuse
      (text path ++ ": resolves outside its root " ++ text (ownRoot.getD [""]))
  if !roots.any fun root => isInside target root then
    return placement.refuse
      (text path ++ ": resolves outside every restore root (" ++ restoreRootSettings ++ ")")
  if obstacle h target ≠ "" then
    return placement.refuse (text target ++ ": " ++ obstacle h target)
  return { placement with target }

def optional (value : Option String) : String := value.getD "None"

/-- The root of a storage: its location, or else the directory its own path leads to. -/
def storageRoot (h : Host) (storage : Storage) (path : PathText) : Except Failed PathText :=
  match storage.location.filter (· ≠ [""]) with
  | some location => h.real location
  | none => (h.real path).map dirname

def placeStorage (h : Host) (placement : Placement) : Except Failed Placement :=
  let entry := placement.entry
  let described := optional entry.model ++ "." ++ optional entry.field ++ ": " ++ text entry.name
  match h.storageOf entry.model entry.field with
  | none => .ok (placement.refuse (described ++ ": this project has no such file field"))
  | some storage =>
    match storage.path entry.name with
    | .suspicious => .ok (placement.refuse (described ++ ": resolves outside the field's storage"))
    | .notImplemented =>
      if h.validFileName entry.name then
        .ok { placement with storage := some storage, name := entry.name }
      else .ok (placement.refuse (described ++ ": not a safe storage name"))
    | .local path => do
      let root ← storageRoot h storage path
      placeLocal h
        { placement with fileMode := storage.fileMode, directoryMode := storage.directoryMode }
        path [root] none

def placeEntry (h : Host) (roots : List PathText) (pathMap : List (PathText × PathText))
    (entry : Entry) : Except Failed Placement :=
  let placement : Placement := { entry }
  match entry.kind with
  | .storage => placeStorage h placement
  | .path =>
    let mapped := mapPath h.cwd pathMap entry.name
    placeLocal h { placement with movedTo := if mapped ≠ entry.name then some mapped else none }
      mapped roots none
  | .root =>
    match entry.root with
    | none => .error .typeError
    | some old =>
      let root := mapPath h.cwd pathMap old
      placeLocal h placement (join root entry.name) roots (some root)
  | .unknown repr => .ok (placement.refuse (text entry.name ++ ": unknown file entry kind " ++ repr))

/-! ## 3. Where a placement may lie -/

/-- Below a root, with every link followed; a name in a storage that is not local stays in it. -/
def Secure (h : Host) (roots : List PathText) (p : Placement) : Prop :=
  match p.entry.kind, p.storage with
  | .storage, some _ => Relative p.name
  | .storage, none => ∃ storage path, h.storageOf p.entry.model p.entry.field = some storage ∧
      storage.path p.entry.name = .local path ∧
      ∀ location, storage.location.filter (· ≠ [""]) = some location →
        ∃ root, h.real location = .ok root ∧ Inside h.fs p.target root
  | _, _ => ∃ root ∈ roots, Inside h.fs p.target root

/-- Every entry a payload can carry is refused or placed securely, under every path map. -/
def Confined (h : Host) (roots : List PathText) : Prop :=
  ∀ pathMap entry p, placeEntry h roots pathMap entry = .ok p → p.problem = "" → Secure h roots p

/-- Following the path meets a link that is already being followed. -/
def MeetsLoop (h : Host) (path : PathText) : Prop :=
  ∃ left seen, resolve h.fs h.depth h.cwd path [] = some (.looped left, seen)

/-- A target a restore could write, below a root by its text, is below one. -/
structure NoWayOut (h : Host) (roots : List PathText) : Prop where
  roots : ∀ path, isAbs path = true → (∃ root ∈ roots, isInside (normpath path) root = true) →
    obstacle h (normpath path) = "" → ∃ root ∈ roots, Inside h.fs (normpath path) root
  storages : ∀ model field storage name path location root target,
    h.storageOf model field = some storage → storage.path name = .local path →
    storage.location.filter (· ≠ [""]) = some location → h.real location = .ok root →
    h.real path = .ok target → isInside target root = true → obstacle h target = "" →
    Inside h.fs target root

/-! ## 4. The functions by what they return -/

section Spec

variable {h : Host} {roots : List PathText} {placement p : Placement} {path target : PathText}
  {ownRoot : Option PathText}

theorem append_ne_empty {a b : String} (hb : b ≠ "") : a ++ b ≠ "" :=
  fun hab => hb (String.append_eq_empty_iff.mp hab).2

theorem append_ne_empty' {a b : String} (ha : a ≠ "") : a ++ b ≠ "" :=
  fun hab => ha (String.append_eq_empty_iff.mp hab).1

/-- **A local placement** that is not refused is the resolved path, below a root and free. -/
theorem placeLocal_ok (hp : placeLocal h placement path roots ownRoot = .ok p)
    (hproblem : p.problem = "") : ∃ target, h.real path = .ok target ∧
      (∃ root ∈ roots, isInside target root = true) ∧ obstacle h target = "" ∧
      p = { placement with target } := by
  unfold placeLocal at hp
  cases hreal : h.real path with
  | error e => rw [hreal] at hp; exact absurd hp nofun
  | ok target =>
    rw [hreal] at hp
    simp only [bind, Except.bind] at hp
    cases hown : outsideOwn h target ownRoot with
    | error e => rw [hown] at hp; exact absurd hp nofun
    | ok outside =>
      simp only [hown] at hp
      have hrefused : ∀ reason, reason ≠ "" →
          (pure (placement.refuse reason) : Except Failed Placement) ≠ .ok p := by
        intro reason hreason heq
        rw [← Except.ok.inj heq] at hproblem
        exact hreason hproblem
      split at hp
      · exact absurd hp (hrefused _ (append_ne_empty' (append_ne_empty (by decide))))
      split at hp
      · exact absurd hp (hrefused _ (append_ne_empty (by decide)))
      split at hp
      · rename_i hobstacle
        exact absurd hp (hrefused _ (append_ne_empty hobstacle))
      · rename_i hany hobstacle
        refine ⟨target, rfl, ?_, not_not.mp hobstacle, (Except.ok.inj hp).symm⟩
        simpa using hany

theorem placeLocal_free (hreal : h.real path = .ok target)
    (hroot : ∃ root ∈ roots, isInside target root = true) (hfree : obstacle h target = "") :
    placeLocal h placement path roots none = .ok { placement with target } := by
  have hany : (roots.any fun root => isInside target root) = true := List.any_eq_true.mpr hroot
  simp [placeLocal, hreal, outsideOwn, hany, hfree, bind, Except.bind, pure, Except.pure]

/-- **A path that meets no loop resolves to a plain location.** -/
theorem real_plain (hloop : ¬ MeetsLoop h path) (hreal : h.real path = .ok target) :
    ∃ loc, Plain h.fs loc ∧ target = absolute loc := by
  unfold Host.real realpath at hreal
  cases hr : resolve h.fs h.depth h.cwd path [] with
  | none => rw [hr] at hreal; exact absurd hreal nofun
  | some r =>
    obtain ⟨out, seen⟩ := r
    rw [hr] at hreal
    cases out with
    | looped left => exact absurd ⟨left, seen, hr⟩ hloop
    | resolved loc =>
      have hplain : Plain h.fs loc :=
        (plain_resolve h.depth h.cwd_plain (fun _ hm => absurd hm List.not_mem_nil) _ _ hr).2.1 _ rfl
      refine ⟨loc, hplain, ?_⟩
      rw [← Except.ok.inj hreal]
      show abspath h.cwd (absolute loc) = _
      rw [abspath, if_pos (isAbs_absolute loc), normpath_absolute hplain]

/-- What is resolved is a normalised absolute text. -/
theorem real_text (hreal : h.real path = .ok target) :
    ∃ t, isAbs t = true ∧ target = normpath t := by
  unfold Host.real realpath at hreal
  cases hr : resolve h.fs h.depth h.cwd path [] with
  | none => rw [hr] at hreal; exact absurd hreal nofun
  | some r =>
    obtain ⟨out, seen⟩ := r
    rw [hr] at hreal
    have hresult := plain_resolve h.depth h.cwd_plain (fun _ hm => absurd hm List.not_mem_nil) _ _ hr
    have habs : isAbs out.text = true := by
      cases out with
      | resolved loc => exact isAbs_absolute loc
      | looped left => exact hresult.2.2 left rfl
    refine ⟨out.text, habs, ?_⟩
    rw [← Except.ok.inj hreal]
    show abspath h.cwd out.text = _
    rw [abspath, if_pos habs]

/-- Behind a loop every target can be reached. -/
theorem real_behind_loop (hloop : MeetsLoop h path) : ∃ front, ∀ t, isAbs t = true →
    h.real (front ++ t) = .ok (normpath t) := by
  obtain ⟨left, seen, hr⟩ := hloop
  obtain ⟨front, hfront⟩ := resolve_append_of_looped hr
  refine ⟨front, fun t ht => ?_⟩
  obtain ⟨seen', hr'⟩ := hfront t ht
  unfold Host.real realpath
  rw [hr']
  show Except.ok (abspath h.cwd t) = _
  rw [abspath, if_pos ht]

end Spec

/-! ## 5. Confinement -/

section Confinement

variable {h : Host} {roots : List PathText} {placement p : Placement} {path : PathText}
  {ownRoot : Option PathText} {pathMap : List (PathText × PathText)} {entry : Entry}

theorem inside_of_no_loop {target root : PathText} (hloop : ¬ MeetsLoop h path)
    (hreal : h.real path = .ok target) (hinside : isInside target root = true) :
    Inside h.fs target root := by
  obtain ⟨loc, hplain, rfl⟩ := real_plain hloop hreal
  exact inside_of_plain hplain hinside

/-- **A local placement lies below a root**: its path meets no loop, or there is no way out. -/
theorem placeLocal_inside (hp : placeLocal h placement path roots ownRoot = .ok p)
    (hproblem : p.problem = "") (hsafe : ¬ MeetsLoop h path ∨ NoWayOut h roots) :
    ∃ root ∈ roots, Inside h.fs p.target root := by
  obtain ⟨target, hreal, hroot, hfree, rfl⟩ := placeLocal_ok hp hproblem
  rcases hsafe with hloop | hsafe
  · obtain ⟨root, hmem, hinside⟩ := hroot
    exact ⟨root, hmem, inside_of_no_loop hloop hreal hinside⟩
  · obtain ⟨t, ht, rfl⟩ := real_text hreal
    exact hsafe.roots t ht hroot hfree

theorem placeStorage_secure (hkind : placement.entry.kind = .storage)
    (hstorage : placement.storage = none) (hp : placeStorage h placement = .ok p)
    (hproblem : p.problem = "") (hsafe : (∀ path, ¬ MeetsLoop h path) ∨ NoWayOut h roots) :
    Secure h roots p := by
  have hrefused : ∀ {reason}, reason ≠ "" →
      (.ok (placement.refuse reason) : Except Failed Placement) ≠ .ok p := by
    intro reason hreason heq
    rw [← Except.ok.inj heq] at hproblem
    exact hreason hproblem
  unfold placeStorage at hp
  cases hfield : h.storageOf placement.entry.model placement.entry.field with
  | none =>
    simp only [hfield] at hp
    exact absurd hp (hrefused (append_ne_empty (by decide)))
  | some storage =>
    simp only [hfield] at hp
    cases hpath : storage.path placement.entry.name with
    | suspicious =>
      simp only [hpath] at hp
      exact absurd hp (hrefused (append_ne_empty (by decide)))
    | notImplemented =>
      simp only [hpath] at hp
      split at hp
      · rename_i hvalid
        rw [← Except.ok.inj hp, Secure, hkind]
        exact h.relative_of_valid _ hvalid
      · exact absurd hp (hrefused (append_ne_empty (by decide)))
    | «local» path =>
      simp only [hpath] at hp
      cases hroot : storageRoot h storage path with
      | error e => rw [hroot] at hp; exact absurd hp nofun
      | ok root =>
        rw [hroot] at hp
        obtain ⟨target, hreal, ⟨root', hmem, hinside⟩, hfree, rfl⟩ := placeLocal_ok hp hproblem
        rw [List.mem_singleton] at hmem
        rw [hmem] at hinside
        rw [Secure, hkind]
        simp only [hstorage]
        refine ⟨storage, path, hfield, hpath, fun location hlocation => ?_⟩
        rw [storageRoot, hlocation] at hroot
        refine ⟨root, hroot, ?_⟩
        rcases hsafe with hloop | hsafe
        · exact inside_of_no_loop (hloop path) hreal hinside
        · exact hsafe.storages _ _ _ _ _ _ _ _ hfield hpath hlocation hroot hreal hinside hfree

theorem placeEntry_secure (hp : placeEntry h roots pathMap entry = .ok p)
    (hproblem : p.problem = "") (hsafe : (∀ path, ¬ MeetsLoop h path) ∨ NoWayOut h roots) :
    Secure h roots p := by
  have hlocal : ∀ {placement : Placement} {path : PathText} {ownRoot : Option PathText},
      placement.entry = entry → entry.kind ≠ .storage →
      placeLocal h placement path roots ownRoot = .ok p → Secure h roots p := by
    intro placement path ownRoot hentry hkind hp
    have hinside := placeLocal_inside hp hproblem (hsafe.imp_left fun hloop => hloop path)
    obtain ⟨target, -, -, -, rfl⟩ := placeLocal_ok hp hproblem
    rw [Secure, hentry]
    split
    · rename_i h1 _; exact absurd h1 hkind
    · rename_i h1 _; exact absurd h1 hkind
    · exact hinside
  unfold placeEntry at hp
  cases hkind : entry.kind with
  | storage =>
    simp only [hkind] at hp
    exact placeStorage_secure hkind rfl hp hproblem hsafe
  | path =>
    simp only [hkind] at hp
    exact hlocal rfl (by rw [hkind]; nofun) hp
  | root =>
    simp only [hkind] at hp
    cases hroot : entry.root with
    | none => rw [hroot] at hp; exact absurd hp nofun
    | some old =>
      rw [hroot] at hp
      exact hlocal rfl (by rw [hkind]; nofun) hp
  | unknown repr =>
    simp only [hkind] at hp
    rw [← Except.ok.inj hp] at hproblem
    exact absurd hproblem (append_ne_empty' (append_ne_empty (by decide)))

/-- Where a path meets a loop, some entry comes to any target a root lets through. -/
theorem noWayOut_of_loop (hconfined : Confined h roots) (hloop : MeetsLoop h path) :
    NoWayOut h roots := by
  obtain ⟨front, hfront⟩ := real_behind_loop hloop
  refine ⟨fun t ht hroot hfree => ?_, ?_⟩
  · have hplaced : placeEntry h roots [] ⟨.path, front ++ t, none, none, none⟩ =
        .ok { entry := ⟨.path, front ++ t, none, none, none⟩, target := normpath t } := by
      show placeLocal h _ (front ++ t) roots none = _
      rw [placeLocal_free (hfront t ht) hroot hfree]
      exact congrArg (fun movedTo =>
        Except.ok (⟨⟨.path, front ++ t, none, none, none⟩, normpath t, none,
        [""], movedTo, none, none, ""⟩ : Placement)) (if_neg (not_not.mpr rfl))
    exact hconfined _ _ _ hplaced rfl
  · intro model field storage name path location root target hfield hpath hlocation hroot hreal
      hinside hfree
    have hplaced : placeEntry h roots [] ⟨.storage, name, none, model, field⟩ =
        .ok { entry := ⟨.storage, name, none, model, field⟩, target, fileMode := storage.fileMode,
              directoryMode := storage.directoryMode } := by
      have hrootOf : storageRoot h storage path = .ok root := by
        rw [storageRoot, hlocation]
        exact hroot
      simp only [placeEntry, placeStorage, hfield, hpath, hrootOf, bind, Except.bind]
      exact placeLocal_free hreal ⟨root, List.mem_singleton_self root, hinside⟩ hfree
    obtain ⟨storage', path', hfield', hpath', hinside'⟩ := hconfined _ _ _ hplaced rfl
    obtain rfl := Option.some.inj (hfield.symm.trans hfield')
    obtain ⟨root', hroot', hin⟩ := hinside' location hlocation
    exact Except.ok.inj (hroot.symm.trans hroot') ▸ hin

/-- **Entries are confined exactly where** no path meets a loop of links or nothing below a root by
    its text leads out of it. -/
theorem confined_iff (h : Host) (roots : List PathText) :
    Confined h roots ↔ (∀ path, ¬ MeetsLoop h path) ∨ NoWayOut h roots := by
  refine ⟨fun hconfined => ?_, fun hsafe pathMap entry p hp hproblem =>
    placeEntry_secure hp hproblem hsafe⟩
  by_cases hloop : ∃ path, MeetsLoop h path
  · obtain ⟨path, hloop⟩ := hloop
    exact .inr (noWayOut_of_loop hconfined hloop)
  · exact .inl (not_exists.mp hloop)

end Confinement

/-! ## 6. A link behind a loop -/

/-- Two links below the root: one to itself, one out of it. -/
def linked : FileSystem
  | [] | ["srv"] | ["srv", "media"] | ["srv", "out"] => some .directory
  | ["srv", "media", "loop"] => some (.link ["loop"])
  | ["srv", "media", "link"] => some (.link ["..", "out"])
  | _ => none

def linkedHost : Host where
  fs := linked
  cwd := []
  cwd_plain := plain_nil
  depth := 100
  lexists _ := false
  exist path := (linked (parts path)).isSome || parts path = ["srv", "media", "link"]
  isfile _ := false
  isdir _ := true
  access _ := true
  storageOf _ _ := none
  validFileName _ := false
  relative_of_valid _ := nofun

def behindLoop : Entry := ⟨.path, ["", "srv", "media", "loop", "..", "link", "x"], none, none, none⟩

theorem not_link {loc : Location} {node : Option Node} (h : linked loc = node)
    (hnode : ∀ target, node ≠ some (.link target)) : ∀ target, linked loc ≠ some (.link target) :=
  h ▸ hnode

theorem leads_out : Leads linked [] ["", "srv", "media", "link", "x"] ["srv", "out", "x"] := by
  refine .skip (by decide) (.enter (by decide) (@not_link _ (some .directory) rfl nofun)
    (.enter (by decide) (@not_link _ (some .directory) rfl nofun) (.follow (by decide) rfl (.up ?_))))
  exact .enter (by decide) (@not_link _ (some .directory) rfl nofun)
    (.enter (by decide) (@not_link _ none rfl nofun) (.done _))

/-- **Behind a loop a link is not followed**, and leads out. -/
theorem loop_leads_out : ¬ Confined linkedHost [["", "srv", "media"]] := by
  intro hconfined
  have hplaced : placeEntry linkedHost [["", "srv", "media"]] [] behindLoop =
      .ok { entry := behindLoop, target := ["", "srv", "media", "link", "x"] } := rfl
  obtain ⟨root, hmem, hinside⟩ := hconfined _ _ _ hplaced rfl
  obtain ⟨r, hr, hprefix⟩ := hinside _ leads_out
  rw [List.mem_singleton.mp hmem] at hr
  have hplain : Plain linked ["srv", "media"] :=
    (plain_nil.append (by decide) (@not_link _ (some .directory) rfl nofun)).append (by decide)
      (@not_link _ (some .directory) rfl nofun)
  obtain rfl := (leads_absolute hplain).mp hr
  exact absurd hprefix (by decide)

end Dbs.Files

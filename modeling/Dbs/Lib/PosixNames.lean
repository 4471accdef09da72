/-
  File:      Dbs/Lib/PosixNames.lean
  Subject:   NAMES NO SYSTEM CALL TAKES (os.lstat): a NUL, or a character the file system's encoding
             cannot write, is a ValueError, and following links stops with it.

  * `walkAsking`, `resolveAsking`, `realpathAsking` -- `os.path.realpath` with the errors it lets out;
  * `asked` -- the names the system is asked about, none of them behind a loop of links;
  * `Resolvable` -- no call nests too deep and no name that is asked about is refused;
  * `realpathAsking_ok`, `realpathAsking_returns` -- a path comes out exactly where it is resolvable.
-/
import Dbs.Lib.PosixPath

namespace Posix

/-! ## 1. Following links, with the errors -/

/-- What ends `os.path.realpath`. -/
inductive Stopped
  | tooDeep
  | refused
deriving DecidableEq, Repr

/-- A name that cannot be handed to the system. -/
def refused (encodable : Char → Bool) (name : String) : Bool :=
  name.toList.any fun c => c.toNat = 0 || !encodable c

section Asking

variable (fs : FileSystem) (encodable : Char → Bool)

/-- The loop of `_joinrealpath`: `lstat` raises no OSError for a refused name. -/
def walkAsking (nested : Location → PathText → Seen → Except Stopped (Outcome × Seen)) :
    List String → Location → Seen → Except Stopped (Outcome × Seen)
  | [], path, seen => .ok (.resolved path, seen)
  | name :: names, path, seen =>
    if special name then walkAsking nested names path seen
    else if name = ".." then walkAsking nested names path.dropLast seen
    else if refused encodable name then .error .refused
    else
      match fs (path ++ [name]) with
      | some (.link target) =>
        match seen.lookup (path ++ [name]) with
        | some (some known) => walkAsking nested names known seen
        | some none => .ok (.looped (join (absolute (path ++ [name])) (rest names)), seen)
        | none =>
          match nested path target ((path ++ [name], none) :: seen) with
          | .error e => .error e
          | .ok (.resolved known, seen) =>
            walkAsking nested names known ((path ++ [name], some known) :: seen)
          | .ok (.looped left, seen) => .ok (.looped (join left (rest names)), seen)
      | _ => walkAsking nested names (path ++ [name]) seen

def resolveAsking : Nat → Location → PathText → Seen → Except Stopped (Outcome × Seen)
  | 0, path, text, seen =>
    walkAsking fs encodable (fun _ _ _ => .error .tooDeep) text (if isAbs text then [] else path) seen
  | depth + 1, path, text, seen =>
    walkAsking fs encodable (resolveAsking depth) text (if isAbs text then [] else path) seen

/-- `os.path.realpath`. -/
def realpathAsking (depth : Nat) (cwd : Location) (path : PathText) : Except Stopped PathText :=
  (resolveAsking fs encodable depth cwd path []).map fun r => abspath cwd r.1.text

end Asking

/-! ## 2. The names that are asked about -/

section Asked

variable (fs : FileSystem)

/-- The names the loop hands to `lstat`, those of a link's target among them. -/
def askedWalk (nested : Location → PathText → Seen → Option (Outcome × Seen))
    (askedNested : Location → PathText → Seen → List String) :
    List String → Location → Seen → List String
  | [], _, _ => []
  | name :: names, path, seen =>
    if special name then askedWalk nested askedNested names path seen
    else if name = ".." then askedWalk nested askedNested names path.dropLast seen
    else
      name :: match fs (path ++ [name]) with
        | some (.link target) =>
          match seen.lookup (path ++ [name]) with
          | some (some known) => askedWalk nested askedNested names known seen
          | some none => []
          | none =>
            askedNested path target ((path ++ [name], none) :: seen) ++
              match nested path target ((path ++ [name], none) :: seen) with
              | some (.resolved known, seen) =>
                askedWalk nested askedNested names known ((path ++ [name], some known) :: seen)
              | _ => []
        | _ => askedWalk nested askedNested names (path ++ [name]) seen

def askedResolve : Nat → Location → PathText → Seen → List String
  | 0, path, text, seen =>
    askedWalk fs (fun _ _ _ => none) (fun _ _ _ => []) text (if isAbs text then [] else path) seen
  | depth + 1, path, text, seen =>
    askedWalk fs (resolve fs depth) (askedResolve depth) text (if isAbs text then [] else path) seen

def asked (depth : Nat) (cwd : Location) (path : PathText) : List String :=
  askedResolve fs depth cwd path []

/-- Links lead to links at most `depth` deep, and every name on the way can be asked about. -/
structure Resolvable (encodable : Char → Bool) (depth : Nat) (cwd : Location) (path : PathText) :
    Prop where
  shallow : realpath fs depth cwd path ≠ none
  names : ∀ name ∈ asked fs depth cwd path, refused encodable name = false

end Asked

/-! ## 3. What comes out -/

section Returns

variable {fs : FileSystem} {encodable : Char → Bool}
  {nested : Location → PathText → Seen → Option (Outcome × Seen)}
  {askedNested : Location → PathText → Seen → List String}
  {nestedAsking : Location → PathText → Seen → Except Stopped (Outcome × Seen)}

/-- It returns exactly where nothing that is asked about is refused, and then the same. -/
def Agree (encodable : Char → Bool) (asking : Except Stopped (Outcome × Seen))
    (total : Option (Outcome × Seen)) (names : List String) : Prop :=
  ∀ r, asking = .ok r ↔ total = some r ∧ ∀ name ∈ names, refused encodable name = false

theorem agree_ok (r : Outcome × Seen) : Agree encodable (.ok r) (some r) [] := fun _ =>
  ⟨fun h => ⟨congrArg some (Except.ok.inj h), fun _ hm => absurd hm List.not_mem_nil⟩,
    fun h => congrArg Except.ok (Option.some.inj h.1)⟩

theorem agree_error (e : Stopped) (names : List String) : Agree encodable (.error e) none names :=
  fun _ => ⟨nofun, fun h => absurd h.1 nofun⟩

theorem agree_refused {name : String} (total : Option (Outcome × Seen)) (names : List String)
    (h : refused encodable name = true) :
    Agree encodable (.error .refused) total (name :: names) := fun _ =>
  ⟨nofun, fun hall => absurd ((hall.2 name List.mem_cons_self).symm.trans h) Bool.false_ne_true⟩

theorem Agree.cons {asking : Except Stopped (Outcome × Seen)} {total : Option (Outcome × Seen)}
    {names : List String} {name : String} (h : Agree encodable asking total names)
    (hname : ¬ refused encodable name = true) : Agree encodable asking total (name :: names) := by
  intro r
  rw [h r, List.forall_mem_cons]
  exact and_congr_right fun _ => (and_iff_right (Bool.not_eq_true _ ▸ hname)).symm

/-- A link met first: its target's names are asked about, then those left. -/
theorem Agree.link {asking : Except Stopped (Outcome × Seen)} {total : Option (Outcome × Seen)}
    {targetNames : List String} {link : Location} {names : List String}
    (hrest : ∀ known seen, Agree encodable
      (walkAsking fs encodable nestedAsking names known ((link, some known) :: seen))
      (walk fs nested names known ((link, some known) :: seen))
      (askedWalk fs nested askedNested names known ((link, some known) :: seen))) :
    Agree encodable asking total targetNames → Agree encodable
      (match asking with
      | .error e => .error e
      | .ok (.resolved known, seen) =>
        walkAsking fs encodable nestedAsking names known ((link, some known) :: seen)
      | .ok (.looped left, seen) => .ok (.looped (join left (rest names)), seen))
      (match total with
      | none => none
      | some (.resolved known, seen) => walk fs nested names known ((link, some known) :: seen)
      | some (.looped left, seen) => some (.looped (join left (rest names)), seen))
      (targetNames ++ match total with
      | some (.resolved known, seen) =>
        askedWalk fs nested askedNested names known ((link, some known) :: seen)
      | _ => []) := by
  intro h r
  rw [List.forall_mem_append]
  cases asking with
  | error e =>
    refine ⟨nofun, fun hr => ?_⟩
    cases total with
    | none => exact absurd hr.1 nofun
    | some r' => exact absurd ((h r').mpr ⟨rfl, hr.2.1⟩) nofun
  | ok r' =>
    obtain ⟨rfl, htarget⟩ := (h r').mp rfl
    rw [and_iff_right htarget]
    obtain ⟨out, seen⟩ := r'
    cases out with
    | resolved known => exact hrest known seen r
    | looped left => exact agree_ok _ r

/-- **One part at a time**: the induction is on the parts left, for links of a given depth. -/
theorem agree_walk (hnested : ∀ path text seen, Agree encodable (nestedAsking path text seen)
      (nested path text seen) (askedNested path text seen))
    (names : List String) (path : Location) (seen : Seen) :
    Agree encodable (walkAsking fs encodable nestedAsking names path seen)
      (walk fs nested names path seen) (askedWalk fs nested askedNested names path seen) := by
  induction names generalizing path seen with
  | nil => exact agree_ok _
  | cons name names ih =>
    unfold walkAsking walk askedWalk
    by_cases hspecial : special name = true
    · rw [if_pos hspecial, if_pos hspecial, if_pos hspecial]
      exact ih path seen
    rw [if_neg hspecial, if_neg hspecial, if_neg hspecial]
    by_cases hup : name = ".."
    · rw [if_pos hup, if_pos hup, if_pos hup]
      exact ih path.dropLast seen
    rw [if_neg hup, if_neg hup, if_neg hup]
    by_cases hrefused : refused encodable name = true
    · rw [if_pos hrefused]
      exact agree_refused _ _ hrefused
    rw [if_neg hrefused]
    refine Agree.cons ?_ hrefused
    cases fs (path ++ [name]) with
    | none => exact ih _ seen
    | some node =>
      cases node with
      | directory => exact ih _ seen
      | file => exact ih _ seen
      | link target =>
        cases seen.lookup (path ++ [name]) with
        | some known =>
          cases known with
          | some known => exact ih known seen
          | none => exact agree_ok _
        | none => exact Agree.link (fun known seen => ih known _) (hnested path target _)

/-- The induction is on how deep links may lead to links. -/
theorem agree_resolve (depth : Nat) (path : Location) (text : PathText) (seen : Seen) :
    Agree encodable (resolveAsking fs encodable depth path text seen)
      (resolve fs depth path text seen) (askedResolve fs depth path text seen) := by
  induction depth generalizing path text seen with
  | zero => exact agree_walk (fun _ _ _ => agree_error _ _) _ _ _
  | succ depth ih => exact agree_walk ih _ _ _

/-- **A path comes out exactly where** `realpath` brings it out and no name asked about is refused. -/
theorem realpathAsking_ok {depth : Nat} {cwd : Location} {path target : PathText} :
    realpathAsking fs encodable depth cwd path = .ok target ↔
      realpath fs depth cwd path = some target ∧
        ∀ name ∈ asked fs depth cwd path, refused encodable name = false := by
  have hagree : Agree encodable (resolveAsking fs encodable depth cwd path []) _ _ :=
    agree_resolve depth cwd path []
  unfold realpathAsking realpath
  constructor
  · intro h
    cases hr : resolveAsking fs encodable depth cwd path [] with
    | error e => rw [hr] at h; exact absurd h nofun
    | ok r =>
      rw [hr] at h
      obtain ⟨htotal, hnames⟩ := (hagree r).mp hr
      rw [htotal]
      exact ⟨congrArg some (Except.ok.inj h), hnames⟩
  · rintro ⟨h, hnames⟩
    obtain ⟨r, htotal, hr⟩ := Option.map_eq_some_iff.mp h
    rw [(hagree r).mpr ⟨htotal, hnames⟩]
    exact congrArg Except.ok hr

theorem realpathAsking_returns {depth : Nat} {cwd : Location} {path : PathText} :
    (∃ target, realpathAsking fs encodable depth cwd path = .ok target) ↔
      Resolvable fs encodable depth cwd path := by
  simp only [realpathAsking_ok, exists_and_right]
  refine ⟨fun h => ⟨?_, h.2⟩, fun h => ⟨Option.ne_none_iff_exists'.mp h.shallow, h.names⟩⟩
  exact Option.ne_none_iff_exists'.mpr h.1

end Returns

end Posix

/-
  File:      Dbs/FileManager/Paths.lean
  Subject:   THE PATHS OF THE FILE MANAGER (common/paths.py; files/paths.py; file_service.py, _Guard):
             what was typed is located in a root, and then again where the server says that it really
             is.

  * `absolutePath`, `allowedRoots`, `locate`, `resolved`, `entryName`, `realRoots`, `followed` -- as the
    code has them; `Realpath` -- what the server answers;
  * `absolutePath_eq_some` -- a path that is accepted is the text of its names; `within_absolute` -- one
    is within another when its names begin with the other's;
  * `Files` -- files that stand still, with links anywhere; `Truthful` -- the server answers where a
    path leads;
  * `InRoot` -- a location inside the real path of a root; `followed_inRoot` -- what is followed is so.
-/
import Dbs.Mounts

namespace Dbs.FileManager

open Posix Mounts

/-! ## 1. Paths -/

/-- The text behind its leading slashes. -/
def lstripped : PathText → PathText
  | "" :: name :: names => lstripped (name :: names)
  | text => text

def hasNul (path : PathText) : Bool := path.any fun name => name.toList.contains (Char.ofNat 0)

def absolutePath (path : PathText) : Option PathText :=
  if !isAbs path || hasNul path || path.contains ".." then none
  else some ("" :: lstripped (normpath path))

def allowedRoots (roots : List PathText) : List PathText := (roots.filterMap absolutePath).eraseDups

/-- `root.rstrip("/")` -/
def rstripped (root : PathText) : PathText :=
  let kept := (root.reverse.dropWhile (· = "")).reverse
  if kept = [] then [""] else kept

def within (path root : PathText) : Bool :=
  path == root ||
    ((rstripped root).isPrefixOf path && decide ((rstripped root).length < path.length))

inductive Trouble
  | notFound
  | denied
  | commandFailed
deriving DecidableEq

inductive Refusal
  | noAllowedFolders
  | absolutePathRequired
  | pathOutsideRoots
  | cannotDeleteRoot
  | notAFile
  | invalidName
  | uploadTooLarge
  | notAFileName
  | passwordRequired
  | invalidPassword
  | tooManyAttempts
  | remote (trouble : Trouble)
deriving DecidableEq

structure Located where
  path : PathText
  root : PathText

namespace Located

def parent (l : Located) : Option PathText := if l.path = l.root then none else some (dirname l.path)

def name (l : Located) : String := basename l.path

end Located

/-- `max(holding, key=len)`: the first of the longest. -/
def longest : List PathText → Option PathText
  | [] => none
  | root :: roots => match longest roots with
    | none => some root
    | some other => if textLength root < textLength other then some other else some root

def locate (typed : PathText) (roots : List PathText) : Except Refusal Located :=
  if roots = [] then .error .noAllowedFolders
  else match absolutePath typed with
    | none => .error .absolutePathRequired
    | some path => match longest (roots.filter (within path)) with
      | none => .error .pathOutsideRoots
      | some root => .ok ⟨path, root⟩

def resolved (answer : PathText) (realRoots : List PathText) : Except Refusal PathText :=
  match absolutePath answer with
  | none => .error .pathOutsideRoots
  | some path => if realRoots.any (within path) then .ok path else .error .pathOutsideRoots

def nameMaxBytes : Nat := 255

/-- `entry_name`: a name that holds no slash is one part. -/
def entryName (printable : Char → Bool) (typed : PathText) : Option String :=
  match typed with
  | [name] =>
    if name = "" || name = "." || name = ".." || name.toList.contains '\\' ||
        !name.toList.all printable then none
    else if nameMaxBytes < name.utf8ByteSize then none
    else some name
  | _ => none

/-! ## 2. The guard -/

/-- What `RemoteHost.realpath` answers. -/
abbrev Realpath := PathText → Except Trouble PathText

/-- `_Guard._real_root` -/
def realRoot (realpath : Realpath) (root : PathText) : Except Trouble (Option PathText) :=
  match realpath root with
  | .ok real => .ok (absolutePath real)
  | .error .commandFailed => .error .commandFailed
  | .error .notFound | .error .denied => .ok none

/-- `_Guard.real_roots` -/
def realRoots (realpath : Realpath) : List PathText → Except Trouble (List PathText)
  | [] => .ok []
  | root :: roots => match realRoot realpath root, realRoots realpath roots with
    | .error trouble, _ => .error trouble
    | .ok _, .error trouble => .error trouble
    | .ok none, .ok reals => .ok reals
    | .ok (some real), .ok reals => .ok (real :: reals)

/-- `_Guard.followed` -/
def followed (realpath : Realpath) (realRoots : List PathText)
    (path : PathText) : Except Refusal PathText :=
  match realpath path with
  | .error trouble => .error (.remote trouble)
  | .ok answer => resolved answer realRoots

/-- What was typed, and where it really is: `locate`, the guard, and what it follows. -/
def followedPath (atRoot atPath : Realpath) (roots : List PathText) (typed : PathText) :
    Except Refusal (Located × PathText) :=
  match locate typed roots with
  | .error refusal => .error refusal
  | .ok located => match realRoots atRoot roots with
    | .error trouble => .error (.remote trouble)
    | .ok reals => match followed atPath reals located.path with
      | .error refusal => .error refusal
      | .ok real => .ok (located, real)

/-! ## 3. Paths as names -/

section Names

variable {path q root typed : PathText} {a b : Location} {roots : List PathText}

theorem foldl_normStep (h : ".." ∉ path) (rooted : Bool) (new : List String) :
    path.foldl (normStep rooted) new = new ++ parts path := by
  induction path generalizing new with
  | nil => exact (List.append_nil new).symm
  | cons name path ih =>
    rw [List.mem_cons, not_or] at h
    rw [List.foldl_cons, normStep, parts, List.filter_cons]
    by_cases hspecial : special name = true
    · rw [if_pos hspecial, ih h.2, hspecial]
      rfl
    · rw [if_neg hspecial, if_pos (Or.inl (Ne.symm h.1)), ih h.2, Bool.eq_false_iff.mpr hspecial]
      rw [List.append_assoc]
      rfl

theorem proper_parts (h : ".." ∉ path) : Proper (parts path) := by
  intro name hname
  rw [parts, List.mem_filter, Bool.not_eq_true'] at hname
  exact ⟨hname.2, fun heq => h (heq ▸ hname.1)⟩

theorem lstripped_absolute (h : Proper a) : "" :: lstripped (absolute a) = absolute a := by
  cases a with
  | nil => rfl
  | cons name names =>
    have hname : name ≠ "" := h.ne_empty List.mem_cons_self
    rw [absolute_of_ne_nil (List.cons_ne_nil name names), lstripped]
    congr 1
    unfold lstripped
    split
    · next heq => exact absurd (List.cons.inj heq).1 hname
    · rfl

/-- **A path that is accepted** is the text of its names. -/
theorem absolutePath_eq_some (h : absolutePath path = some q) :
    Proper (parts path) ∧ q = absolute (parts path) := by
  rw [absolutePath] at h
  split at h
  · cases h
  · next hno =>
    rw [Bool.or_eq_true, Bool.or_eq_true, not_or, not_or] at hno
    obtain ⟨⟨habs, -⟩, hup⟩ := hno
    rw [Bool.not_eq_true, Bool.not_eq_false'] at habs
    have hnot : ".." ∉ path := fun hmem => hup (List.contains_iff_mem.mpr hmem)
    have hproper := proper_parts hnot
    refine ⟨hproper, ?_⟩
    have hslashes : initialSlashes path = 1 ∨ initialSlashes path = 2 := by
      obtain ⟨names, hne, rfl⟩ := exists_of_isAbs habs
      obtain ⟨name, names, rfl⟩ := List.exists_cons_of_ne_nil hne
      unfold initialSlashes
      split
      · exact Or.inl rfl
      · exact Or.inr rfl
      · exact Or.inl rfl
      · next hone => exact absurd rfl (hone name names)
    have hnames : normpath path = absolute (parts path) ∨
        normpath path = "" :: absolute (parts path) := by
      rcases hslashes with hone | htwo
      · simp only [normpath, hone, foldl_normStep hnot, List.nil_append, true_or]
      · simp only [normpath, htwo, foldl_normStep hnot, List.nil_append, or_true]
    rw [← Option.some.inj h]
    rcases hnames with hnames | hnames
    · rw [hnames, lstripped_absolute hproper]
    · rw [hnames]
      obtain ⟨names, hne, htext⟩ := exists_of_isAbs (isAbs_absolute (parts path))
      rw [htext, lstripped, ← htext, lstripped_absolute hproper]

theorem rstripped_absolute (h : Proper a) : rstripped (absolute a) = "" :: a := by
  rcases List.eq_nil_or_concat a with rfl | ⟨front, last, rfl⟩
  · rfl
  · have hlast : last ≠ "" := h.ne_empty (by simp)
    rw [rstripped, absolute_of_ne_nil (by simp)]
    simp [hlast]

/-- **One is within another** when its names begin with the other's. -/
theorem within_absolute (ha : Proper a) (hb : Proper b) :
    within (absolute a) (absolute b) = true ↔ b <+: a := by
  rw [within, Bool.or_eq_true, Bool.and_eq_true, beq_iff_eq, decide_eq_true_eq,
    List.isPrefixOf_iff_prefix,
    rstripped_absolute hb]
  constructor
  · rintro (heq | ⟨hbegins, hlt⟩)
    · exact absolute_injective ha hb heq ▸ List.prefix_rfl
    · by_cases hnil : a = []
      · subst hnil
        have hlen : b.length = 0 := Nat.lt_one_iff.mp (Nat.lt_of_succ_lt_succ hlt)
        exact List.length_eq_zero_iff.mp hlen ▸ List.prefix_rfl
      · rw [absolute_of_ne_nil hnil] at hbegins
        exact (List.prefix_cons_inj "").mp hbegins
  · intro hbegins
    by_cases heq : a = b
    · exact Or.inl (by rw [heq])
    · have hlt : b.length < a.length :=
        Nat.lt_of_le_of_ne hbegins.length_le fun hlen => heq (hbegins.eq_of_length hlen).symm
      have hnil : a ≠ [] := List.ne_nil_of_length_pos (Nat.zero_lt_of_lt hlt)
      rw [absolute_of_ne_nil hnil]
      exact Or.inr ⟨(List.prefix_cons_inj "").mpr hbegins, Nat.succ_lt_succ hlt⟩

theorem longest_mem {found : PathText} (h : longest roots = some found) : found ∈ roots := by
  induction roots generalizing found with
  | nil => cases h
  | cons root roots ih =>
    rw [longest] at h
    split at h
    · exact Option.some.inj h ▸ List.mem_cons_self
    · next other hother =>
      split at h
      · exact List.mem_cons_of_mem _ (Option.some.inj h ▸ ih hother)
      · exact Option.some.inj h ▸ List.mem_cons_self

/-- What is located is the text of its names, and a root holds it. -/
theorem locate_eq_ok {located : Located} (h : locate typed roots = .ok located) :
    absolutePath typed = some located.path ∧ located.root ∈ roots ∧
      within located.path located.root = true := by
  rw [locate] at h
  split at h
  · cases h
  · split at h
    · cases h
    · next path hpath =>
      split at h
      · cases h
      · next root hroot =>
        cases h
        obtain ⟨hmem, hwithin⟩ := List.mem_filter.mp (longest_mem hroot)
        exact ⟨hpath, hmem, hwithin⟩

theorem resolved_eq_ok {answer real : PathText} {reals : List PathText}
    (h : resolved answer reals = .ok real) :
    absolutePath answer = some real ∧ ∃ root ∈ reals, within real root = true := by
  rw [resolved] at h
  split at h
  · cases h
  · next path hpath =>
    split at h
    · next hany =>
      cases h
      exact ⟨hpath, List.any_eq_true.mp hany⟩
    · cases h

theorem followedPath_eq_ok {atRoot atPath : Realpath} {located : Located} {real : PathText}
    (h : followedPath atRoot atPath roots typed = .ok (located, real)) :
    locate typed roots = .ok located ∧ ∃ reals, realRoots atRoot roots = .ok reals ∧
      followed atPath reals located.path = .ok real := by
  rw [followedPath] at h
  split at h
  · cases h
  · next hlocated =>
    split at h
    · cases h
    · next reals hreals =>
      split at h
      · cases h
      · next hreal =>
        cases h
        exact ⟨hlocated, reals, hreals, hreal⟩

theorem mem_allowedRoots :
    root ∈ allowedRoots roots ↔ ∃ path ∈ roots, absolutePath path = some root := by
  rw [allowedRoots, List.mem_eraseDups, List.mem_filterMap]

end Names

/-! ## 4. Where paths lead -/

/-- The files of a server, and the folder where its paths without a slash begin. -/
structure Files where
  fs : FileSystem
  home : Location
  plain : Plain fs home

/-- The real path of a path. -/
def Files.Leads (files : Files) (path : PathText) (loc : Location) : Prop :=
  Posix.Leads files.fs (if isAbs path then [] else files.home) path loc

/-- An answer is where the path leads. -/
def Truthful (files : Files) (realpath : Realpath) : Prop :=
  ∀ path real, realpath path = .ok real → ∃ loc, files.Leads path loc ∧ real = absolute loc

/-- Inside the real path of a root. -/
def InRoot (files : Files) (roots : List PathText) (loc : Location) : Prop :=
  ∃ root ∈ roots, ∃ real, files.Leads root real ∧ real <+: loc

section Following

variable {files : Files} {realpath atRoot atPath : Realpath} {path real root typed : PathText}
  {roots reals : List PathText} {loc m : Location}

theorem Files.Leads.plain (h : files.Leads path loc) : Plain files.fs loc := by
  refine Posix.Leads.plain h ?_
  split
  · exact plain_nil
  · exact files.plain

theorem Files.Leads.unique (h : files.Leads path loc) (hm : files.Leads path m) : loc = m :=
  leads_unique h hm

theorem Files.leads_absolute (h : Plain files.fs loc) : files.Leads (absolute loc) loc := by
  rw [Files.Leads, if_pos (isAbs_absolute loc)]
  exact (Posix.leads_absolute h).mpr rfl

/-- A real path is accepted as it is. -/
theorem of_absolutePath_absolute (h : Proper loc) (hreal : absolutePath (absolute loc) = some real) :
    real = absolute loc := by
  rw [(absolutePath_eq_some hreal).2, parts_proper h]

theorem mem_realRoots (h : realRoots realpath roots = .ok reals) :
    real ∈ reals ↔ ∃ root ∈ roots, realRoot realpath root = .ok (some real) := by
  induction roots generalizing reals with
  | nil =>
    cases h
    exact ⟨nofun, fun ⟨_, hmem, _⟩ => nomatch hmem⟩
  | cons first roots ih =>
    rw [realRoots] at h
    split at h
    · cases h
    · cases h
    · next hfirst hrest =>
      rw [← Except.ok.inj h, ih hrest]
      constructor
      · rintro ⟨root, hroot, hreal⟩
        exact ⟨root, List.mem_cons_of_mem _ hroot, hreal⟩
      · rintro ⟨root, hroot, hreal⟩
        rcases List.mem_cons.mp hroot with rfl | hroot
        · rw [hfirst] at hreal
          cases Except.ok.inj hreal
        · exact ⟨root, hroot, hreal⟩
    · next found rest hfirst hrest =>
      rw [← Except.ok.inj h, List.mem_cons, ih hrest]
      constructor
      · rintro (rfl | ⟨root, hroot, hreal⟩)
        · exact ⟨first, List.mem_cons_self, hfirst⟩
        · exact ⟨root, List.mem_cons_of_mem _ hroot, hreal⟩
      · rintro ⟨root, hroot, hreal⟩
        rcases List.mem_cons.mp hroot with rfl | hroot
        · rw [hfirst] at hreal
          exact Or.inl (Option.some.inj (Except.ok.inj hreal)).symm
        · exact Or.inr ⟨root, hroot, hreal⟩

theorem realRoot_eq_some (htrue : Truthful files realpath)
    (h : realRoot realpath root = .ok (some real)) :
    ∃ loc, files.Leads root loc ∧ real = absolute loc := by
  rw [realRoot] at h
  split at h
  · next answer hanswer =>
    obtain ⟨loc, hloc, rfl⟩ := htrue root answer hanswer
    exact ⟨loc, hloc, of_absolutePath_absolute hloc.plain.names (Except.ok.inj h)⟩
  · cases h
  · cases Except.ok.inj h
  · cases Except.ok.inj h

/-- What is followed is the real path, and lies in a root. -/
theorem followed_eq_ok (hroot : Truthful files atRoot) (hpath : Truthful files atPath)
    (hreals : realRoots atRoot roots = .ok reals) (h : followed atPath reals path = .ok real) :
    ∃ loc, files.Leads path loc ∧ real = absolute loc ∧ InRoot files roots loc := by
  rw [followed] at h
  split at h
  · cases h
  · next answer hanswer =>
    obtain ⟨loc, hloc, rfl⟩ := hpath path answer hanswer
    obtain ⟨habsolute, root, hmem, hwithin⟩ := resolved_eq_ok h
    obtain rfl := of_absolutePath_absolute hloc.plain.names habsolute
    obtain ⟨typed, htyped, hreal⟩ := (mem_realRoots hreals).mp hmem
    obtain ⟨at_, hat, rfl⟩ := realRoot_eq_some hroot hreal
    exact ⟨loc, hloc, rfl, typed, htyped, at_, hat,
      (within_absolute hloc.plain.names hat.plain.names).mp hwithin⟩

/-- **What is followed lies in a root.** -/
theorem followed_inRoot (hroot : Truthful files atRoot) (hpath : Truthful files atPath)
    {located : Located} (h : followedPath atRoot atPath roots typed = .ok (located, real)) :
    ∃ loc, files.Leads located.path loc ∧ real = absolute loc ∧ InRoot files roots loc := by
  obtain ⟨-, reals, hreals, hfollowed⟩ := followedPath_eq_ok h
  exact followed_eq_ok hroot hpath hreals hfollowed

end Following

end Dbs.FileManager

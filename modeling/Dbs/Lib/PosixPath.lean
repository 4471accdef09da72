/-
  File:      Dbs/Lib/PosixPath.lean
  Subject:   POSIX PATHS (os.path) over a file system with symbolic links. A path text is the list of
             its parts between the slashes: `/srv/a` is `["", "srv", "a"]`.

  * `normpath`, `join`, `dirname`, `basename`, `commonpath`, `relpath` -- the functions of `os.path`;
  * `resolve`, `realpath` -- following links, where a loop is met the rest is appended as it stands;
  * `Leads` -- where the system gets by following every link; `Plain` -- a location without links;
  * `plain_resolve` -- what is resolved is plain; `leads_plain` -- a plain location leads to itself;
    `leads_unique`, `Leads.plain` -- a path leads to one location at most, and to a plain one;
  * `resolve_append_of_looped` -- behind a loop any absolute path comes out as it is written.
-/
import Mathlib.Data.List.Basic

namespace Posix

/-- A text, split at every `/`. -/
abbrev PathText := List String

/-- Names from the root. -/
abbrev Location := List String

/-! ## 1. Texts -/

/-- It starts with a slash. -/
def isAbs : PathText → Bool
  | "" :: _ :: _ => true
  | _ => false

def special (name : String) : Bool := name = "" || name = "."

/-- The names a text goes through, `..` among them. -/
def parts (path : PathText) : List String := path.filter fun name => !special name

/-- `"/" + "/".join(names)`. -/
def absolute (names : List String) : PathText := "" :: if names = [] then [""] else names

def relative (names : List String) : PathText := if names = [] then [""] else names

def join (a b : PathText) : PathText :=
  if isAbs b then b else if a.getLast? = some "" then a.dropLast ++ b else a ++ b

/-- Two slashes at the start stay two, more are one. -/
def initialSlashes : PathText → Nat
  | "" :: "" :: "" :: _ :: _ => 1
  | "" :: "" :: _ :: _ => 2
  | "" :: _ :: _ => 1
  | _ => 0

/-- One turn of the loop of `normpath`. -/
def normStep (rooted : Bool) (new : List String) (name : String) : List String :=
  if special name then new
  else if name ≠ ".." ∨ (!rooted ∧ new = []) ∨ new.getLast? = some ".." then new ++ [name]
  else new.dropLast

def normpath (path : PathText) : PathText :=
  let slashes := initialSlashes path
  let names := path.foldl (normStep (slashes ≠ 0)) []
  match slashes with
  | 0 => if names = [] then ["."] else names
  | 1 => absolute names
  | _ => "" :: absolute names

def abspath (cwd : Location) (path : PathText) : PathText :=
  normpath (if isAbs path then path else join (absolute cwd) path)

def dirname (path : PathText) : PathText :=
  let head := path.dropLast
  if head = [] then [""]
  else if head.all (· = "") then head ++ [""]
  else (head.reverse.dropWhile (· = "")).reverse

def basename (path : PathText) : String := path.getLast?.getD ""

/-- The longest common beginning. -/
def common : List String → List String → List String
  | a :: as, b :: bs => if a = b then a :: common as bs else []
  | _, _ => []

/-- `os.path.commonpath` of two paths; it refuses an absolute and a relative one. -/
def commonpath (p q : PathText) : Option PathText :=
  if isAbs p ≠ isAbs q then none
  else some ((if isAbs p then absolute else relative) (common (parts p) (parts q)))

/-- `commonpath([path, root]) == root`. -/
def isInside (path root : PathText) : Bool := commonpath path root = some root

def relpath (cwd : Location) (path start : PathText) : PathText :=
  let startList := (abspath cwd start).filter (· ≠ "")
  let pathList := (abspath cwd path).filter (· ≠ "")
  let shared := (common startList pathList).length
  let names := List.replicate (startList.length - shared) ".." ++ pathList.drop shared
  if names = [] then ["."] else names

/-! ## 2. Links -/

inductive Node
  | directory
  | file
  | link (target : PathText)
deriving DecidableEq, Repr

/-- What `lstat` finds at a location. -/
abbrev FileSystem := Location → Option Node

/-- The links met: their resolution, or none while it is under way. -/
abbrev Seen := List (Location × Option Location)

/-- `_joinrealpath`'s path: resolved, or with a rest appended behind a loop. -/
inductive Outcome
  | resolved (path : Location)
  | looped (path : PathText)
deriving DecidableEq, Repr

/-- The parts left after a part, as a text. -/
def rest (names : List String) : PathText := if names = [] then [""] else names

/-- The loop of `_joinrealpath`, with `nested` for the call on a link's target. -/
def walk (fs : FileSystem)
    (nested : Location → PathText → Seen → Option (Outcome × Seen)) :
    List String → Location → Seen → Option (Outcome × Seen)
  | [], path, seen => some (.resolved path, seen)
  | name :: names, path, seen =>
    if special name then walk fs nested names path seen
    else if name = ".." then walk fs nested names path.dropLast seen
    else
      match fs (path ++ [name]) with
      | some (.link target) =>
        match seen.lookup (path ++ [name]) with
        | some (some known) => walk fs nested names known seen
        | some none => some (.looped (join (absolute (path ++ [name])) (rest names)), seen)
        | none =>
          match nested path target ((path ++ [name], none) :: seen) with
          | none => none
          | some (.resolved known, seen) =>
            walk fs nested names known ((path ++ [name], some known) :: seen)
          | some (.looped left, seen) => some (.looped (join left (rest names)), seen)
      | _ => walk fs nested names (path ++ [name]) seen

/-- `_joinrealpath`; `none` where the calls nest deeper than `depth`. -/
def resolve (fs : FileSystem) : Nat → Location → PathText → Seen → Option (Outcome × Seen)
  | 0, path, text, seen =>
    walk fs (fun _ _ _ => none) text (if isAbs text then [] else path) seen
  | depth + 1, path, text, seen =>
    walk fs (resolve fs depth) text (if isAbs text then [] else path) seen

def Outcome.text : Outcome → PathText
  | .resolved path => absolute path
  | .looped path => path

/-- `os.path.realpath`. -/
def realpath (fs : FileSystem) (depth : Nat) (cwd : Location) (path : PathText) : Option PathText :=
  (resolve fs depth cwd path []).map fun r => abspath cwd r.1.text

/-! ## 3. Where a path leads -/

/-- Following every link, from `loc` along `names`. -/
inductive Leads (fs : FileSystem) : Location → List String → Location → Prop
  | done (loc : Location) : Leads fs loc [] loc
  | skip {loc : Location} {name : String} {names : List String} {l : Location}
      (hname : special name = true) (h : Leads fs loc names l) : Leads fs loc (name :: names) l
  | up {loc : Location} {names : List String} {l : Location}
      (h : Leads fs loc.dropLast names l) : Leads fs loc (".." :: names) l
  | enter {loc : Location} {name : String} {names : List String} {l : Location}
      (hname : special name = false ∧ name ≠ "..")
      (hnode : ∀ target, fs (loc ++ [name]) ≠ some (.link target))
      (h : Leads fs (loc ++ [name]) names l) : Leads fs loc (name :: names) l
  | follow {loc : Location} {name : String} {names : List String} {l : Location} {target : PathText}
      (hname : special name = false ∧ name ≠ "..") (hnode : fs (loc ++ [name]) = some (.link target))
      (h : Leads fs (if isAbs target then [] else loc) (target ++ names) l) :
      Leads fs loc (name :: names) l

/-- Names only, and none of them a link. -/
structure Plain (fs : FileSystem) (loc : Location) : Prop where
  names : ∀ name ∈ loc, special name = false ∧ name ≠ ".."
  nodes : ∀ before name, before ++ [name] <+: loc → ∀ target,
    fs (before ++ [name]) ≠ some (.link target)

section Plain

variable {fs : FileSystem} {loc l : Location} {name : String} {names : List String}

theorem plain_nil : Plain fs [] :=
  ⟨fun _ h => absurd h List.not_mem_nil,
    fun _ _ h => absurd (List.prefix_nil.mp h) (List.append_ne_nil_of_right_ne_nil _ nofun)⟩

theorem Plain.of_prefix {p : Location} (h : Plain fs loc) (hp : p <+: loc) : Plain fs p :=
  ⟨fun name hn => h.names name (hp.subset hn), fun before name hb => h.nodes before name (hb.trans hp)⟩

theorem Plain.append (h : Plain fs loc) (hname : special name = false ∧ name ≠ "..")
    (hnode : ∀ target, fs (loc ++ [name]) ≠ some (.link target)) : Plain fs (loc ++ [name]) where
  names n hn := by
    rcases List.mem_append.mp hn with hn | hn
    · exact h.names n hn
    · rw [List.mem_singleton.mp hn]; exact hname
  nodes before n hb := by
    rcases List.prefix_concat_iff.mp hb with heq | hb
    · rw [heq]; exact hnode
    · exact h.nodes before n hb

theorem prefix_cons (loc : Location) (name : String) (names : List String) :
    loc ++ [name] <+: loc ++ name :: names := by
  rw [List.append_cons loc name names]
  exact List.prefix_append _ _

/-- **A plain location leads to itself.** -/
theorem leads_plain (h : Plain fs (loc ++ names)) (hl : Leads fs loc names l) :
    l = loc ++ names := by
  induction hl with
  | done loc => rw [List.append_nil]
  | skip hname _ _ =>
    have := (h.names _ (List.mem_append_right _ List.mem_cons_self)).1
    rw [hname] at this
    exact absurd this Bool.noConfusion
  | up _ _ => exact absurd rfl (h.names _ (List.mem_append_right _ List.mem_cons_self)).2
  | enter _ _ _ ih =>
    rw [← List.append_cons] at ih
    exact ih h
  | follow _ hnode _ _ =>
    exact absurd hnode (h.nodes _ _ (prefix_cons _ _ _) _)

theorem leads_self (h : Plain fs (loc ++ names)) : Leads fs loc names (loc ++ names) := by
  induction names generalizing loc with
  | nil => rw [List.append_nil]; exact .done loc
  | cons name names ih =>
    refine .enter (h.names name (List.mem_append_right _ List.mem_cons_self))
      (h.nodes loc name (prefix_cons loc name names)) ?_
    rw [List.append_cons loc name names] at h ⊢
    exact ih h

/-- A path, and what is behind it. -/
theorem Leads.append {m : Location} {more : List String} (h : Leads fs loc names m)
    (hm : Leads fs m more l) : Leads fs loc (names ++ more) l := by
  induction h with
  | done _ => exact hm
  | skip hname _ ih => exact .skip hname (ih hm)
  | up _ ih => exact .up (ih hm)
  | enter hname hnode _ ih => exact .enter hname hnode (ih hm)
  | follow hname hnode _ ih =>
    have hrest := ih hm
    rw [List.append_assoc] at hrest
    exact .follow hname hnode hrest

/-- **A path leads to a plain location.** -/
theorem Leads.plain (h : Leads fs loc names l) (hloc : Plain fs loc) : Plain fs l := by
  induction h with
  | done _ => exact hloc
  | skip _ _ ih => exact ih hloc
  | up _ ih => exact ih (hloc.of_prefix (List.dropLast_prefix _))
  | enter hname hnode _ ih => exact ih (hloc.append hname hnode)
  | follow _ _ _ ih =>
    refine ih ?_
    split
    · exact plain_nil
    · exact hloc

/-- **A path leads to one location at most.** -/
theorem leads_unique {m : Location} (h : Leads fs loc names l) (hm : Leads fs loc names m) : l = m := by
  induction h with
  | done _ => cases hm; rfl
  | skip hname _ ih =>
    cases hm with
    | skip _ hm => exact ih hm
    | up _ => exact absurd hname (by decide)
    | enter hother _ _ | follow hother _ _ =>
      exact absurd (hname.symm.trans hother.1) Bool.noConfusion
  | up _ ih =>
    cases hm with
    | skip hname _ => exact absurd hname (by decide)
    | up hm => exact ih hm
    | enter hother _ _ => exact absurd rfl hother.2
    | follow hother _ _ => exact absurd rfl hother.2
  | enter hname hnode _ ih =>
    cases hm with
    | skip hother _ => exact absurd (hother.symm.trans hname.1) Bool.noConfusion
    | up _ => exact absurd rfl hname.2
    | enter _ _ hm => exact ih hm
    | follow _ hlink _ => exact absurd hlink (hnode _)
  | follow hname hnode _ ih =>
    cases hm with
    | skip hother _ => exact absurd (hother.symm.trans hname.1) Bool.noConfusion
    | up _ => exact absurd rfl hname.2
    | enter _ hother _ => exact absurd hnode (hother _)
    | follow _ hlink hm =>
      rw [hnode] at hlink
      obtain rfl := Node.link.inj (Option.some.inj hlink)
      exact ih hm

end Plain

/-! ## 4. Texts of plain locations -/

section Texts

variable {fs : FileSystem} {loc : Location}

theorem isAbs_absolute (names : List String) : isAbs (absolute names) = true := by
  cases names <;> rfl

variable {name : String}

theorem isAbs_append {tail front : List String} (htail : tail ≠ []) :
    isAbs (name :: front ++ tail) = decide (name = "") := by
  obtain ⟨a, tail, rfl⟩ := List.exists_cons_of_ne_nil htail
  cases front with
  | nil | cons _ _ => by_cases h : name = "" <;> simp [isAbs, h]

theorem ne_nil_of_isAbs {path : PathText} (h : isAbs path = true) : path ≠ [] := by
  intro hnil
  rw [hnil] at h
  exact absurd h nofun

theorem exists_of_isAbs {path : PathText} (h : isAbs path = true) :
    ∃ names, names ≠ [] ∧ path = "" :: names := by
  unfold isAbs at h
  split at h
  · exact ⟨_, List.cons_ne_nil _ _, rfl⟩
  · exact absurd h nofun

theorem isAbs_join {a b : PathText} (ha : isAbs a = true) (hb : b ≠ []) : isAbs (join a b) = true := by
  obtain ⟨names, hnames, rfl⟩ := exists_of_isAbs ha
  unfold join
  split
  · assumption
  split
  · rw [List.dropLast_cons_of_ne_nil hnames, isAbs_append hb]; rfl
  · rw [isAbs_append hb]; rfl

theorem rest_ne_nil (names : List String) : rest names ≠ [] := by
  unfold rest
  split
  · exact List.cons_ne_nil _ _
  · assumption

/-- Names of entries. -/
def Proper (loc : Location) : Prop := ∀ name ∈ loc, special name = false ∧ name ≠ ".."

theorem parts_proper (h : Proper loc) : parts (absolute loc) = loc := by
  have hparts : ∀ names : List String, (∀ name ∈ names, special name = false) →
      names.filter (fun name => !special name) = names := fun names hn =>
    List.filter_eq_self.mpr fun name hmem => by rw [hn name hmem]; rfl
  cases loc with
  | nil => rfl
  | cons name loc => exact hparts _ fun n hn => (h n hn).1

theorem parts_absolute (h : Plain fs loc) : parts (absolute loc) = loc := parts_proper h.names

theorem common_prefix (as bs : List String) : common as bs <+: as := by
  induction as generalizing bs with
  | nil => cases bs <;> exact List.prefix_rfl
  | cons a as ih =>
    cases bs with
    | nil => exact List.nil_prefix
    | cons b bs =>
      unfold common
      split
      · exact (List.prefix_cons_inj a).mpr (ih bs)
      · exact List.nil_prefix

/-- A root is the text of a beginning of what is inside it. -/
theorem root_of_isInside {path root : PathText} (habs : isAbs path = true)
    (h : isInside path root = true) : ∃ names, names <+: parts path ∧ root = absolute names := by
  have hroot := of_decide_eq_true h
  unfold commonpath at hroot
  obtain ⟨-, hroot⟩ := Option.ite_none_left_eq_some.mp hroot
  rw [if_pos habs] at hroot
  exact ⟨_, common_prefix _ _, (Option.some.inj hroot).symm⟩

theorem normpath_absolute (h : Plain fs loc) : normpath (absolute loc) = absolute loc := by
  have hfold : ∀ (names new : List String), (∀ name ∈ names, special name = false ∧ name ≠ "..") →
      names.foldl (normStep true) new = new ++ names := by
    intro names
    induction names with
    | nil => intro new _; rw [List.append_nil]; rfl
    | cons name names ih =>
      intro new hn
      obtain ⟨hspecial, hup⟩ := hn name List.mem_cons_self
      have hstep : normStep true new name = new ++ [name] := by
        rw [normStep, if_neg (by rw [hspecial]; exact Bool.false_ne_true), if_pos (.inl hup)]
      rw [List.foldl_cons, hstep, ih _ fun n hmem => hn n (List.mem_cons_of_mem _ hmem),
        List.append_assoc]
      rfl
  cases loc with
  | nil => rfl
  | cons name loc =>
    have hne : name ≠ "" := by
      intro hname
      have := (h.names name List.mem_cons_self).1
      rw [hname] at this
      exact absurd this (by decide)
    have hslashes : initialSlashes (absolute (name :: loc)) = 1 := by
      simp only [absolute, if_neg (List.cons_ne_nil name loc)]
      unfold initialSlashes
      split <;> simp_all
    have hnames : (absolute (name :: loc)).foldl (normStep true) [] = name :: loc :=
      hfold (name :: loc) [] h.names
    have hrooted : decide ((1 : Nat) ≠ 0) = true := rfl
    simp only [normpath, hslashes, hrooted, hnames]

theorem Proper.ne_empty (h : Proper loc) (hname : name ∈ loc) : name ≠ "" := by
  rintro rfl
  exact absurd (h "" hname).1 (by decide)

theorem absolute_of_ne_nil (h : loc ≠ []) : absolute loc = "" :: loc := by rw [absolute, if_neg h]

theorem absolute_injective {a b : Location} (ha : Proper a) (hb : Proper b)
    (h : absolute a = absolute b) : a = b := by
  rw [← parts_proper ha, h, parts_proper hb]

theorem getLast?_absolute (hne : loc ≠ []) : ∃ name ∈ loc, (absolute loc).getLast? = some name := by
  refine ⟨loc.getLast hne, List.getLast_mem hne, ?_⟩
  rw [absolute_of_ne_nil hne, List.getLast?_cons, List.getLast?_eq_some_getLast hne]
  rfl

theorem join_absolute (hloc : Proper loc) :
    join (absolute loc) [name] = absolute (loc ++ [name]) := by
  have hright : absolute (loc ++ [name]) = "" :: (loc ++ [name]) :=
    absolute_of_ne_nil (List.append_ne_nil_of_right_ne_nil _ (List.cons_ne_nil _ _))
  have habs : isAbs [name] = false := by unfold isAbs; split <;> simp_all
  rw [join, habs, hright]
  by_cases hnil : loc = []
  · subst hnil
    rfl
  · obtain ⟨last, hlast, hget⟩ := getLast?_absolute hnil
    have hne : (some last : Option String) ≠ some "" :=
      fun h => hloc.ne_empty hlast (Option.some.inj h)
    rw [if_neg Bool.false_ne_true, hget, if_neg hne, absolute_of_ne_nil hnil]
    rfl

theorem basename_absolute (loc : Location) (name : String) :
    basename (absolute (loc ++ [name])) = name := by
  rw [absolute_of_ne_nil (List.append_ne_nil_of_right_ne_nil _ (List.cons_ne_nil _ _)), basename,
    ← List.cons_append, List.getLast?_concat]
  rfl

theorem dirname_absolute (hloc : Proper loc) (name : String) :
    dirname (absolute (loc ++ [name])) = absolute loc := by
  rw [absolute_of_ne_nil (List.append_ne_nil_of_right_ne_nil _ (List.cons_ne_nil _ _)), dirname,
    ← List.cons_append, List.dropLast_concat]
  by_cases hnil : loc = []
  · subst hnil
    rfl
  · obtain ⟨front, last, rfl⟩ := (List.eq_nil_or_concat loc).resolve_left hnil
    have hlast : last ≠ "" := hloc.ne_empty (by simp)
    rw [absolute_of_ne_nil hnil]
    simp [hlast]

/-- What lies inside a root by its text lies where the root leads. -/
def Inside (fs : FileSystem) (target root : PathText) : Prop :=
  ∀ l, Leads fs [] target l → ∃ r, Leads fs [] root r ∧ r <+: l

theorem leads_special {names : List String} {l : Location}
    (hname : special name = true) : Leads fs loc (name :: names) l ↔ Leads fs loc names l := by
  refine ⟨fun h => ?_, .skip hname⟩
  cases h with
  | skip _ h => exact h
  | up _ => exact absurd hname (by decide)
  | enter hother _ _ | follow hother _ _ =>
    exact absurd (hname.symm.trans hother.1) Bool.noConfusion

theorem leads_absolute (h : Plain fs loc) {l : Location} :
    Leads fs [] (absolute loc) l ↔ l = loc := by
  have hself : Leads fs [] loc l ↔ l = loc :=
    ⟨fun hl => @leads_plain _ [] _ _ h hl, fun hl => by rw [hl]; exact @leads_self _ [] _ h⟩
  rw [absolute, leads_special (by decide)]
  cases loc with
  | nil => rw [if_pos rfl, leads_special (by decide)]; exact hself
  | cons name loc => exact hself

theorem inside_of_plain {root : PathText} (h : Plain fs loc)
    (hinside : isInside (absolute loc) root = true) : Inside fs (absolute loc) root := by
  obtain ⟨names, hprefix, rfl⟩ := root_of_isInside (isAbs_absolute loc) hinside
  rw [parts_absolute h] at hprefix
  intro l hl
  rw [(leads_absolute h).mp hl]
  exact ⟨names, (leads_absolute (h.of_prefix hprefix)).mpr rfl, hprefix⟩

end Texts

/-! ## 5. What is resolved is plain -/

section Resolve

variable {fs : FileSystem} {nested : Location → PathText → Seen → Option (Outcome × Seen)}

/-- Every resolution on record is plain. -/
def PlainSeen (fs : FileSystem) (seen : Seen) : Prop :=
  ∀ entry ∈ seen, ∀ known, entry.2 = some known → Plain fs known

/-- What is known of a result. -/
def PlainResult (fs : FileSystem) (r : Option (Outcome × Seen)) : Prop :=
  ∀ out seen, r = some (out, seen) → PlainSeen fs seen ∧ (∀ loc, out = .resolved loc → Plain fs loc) ∧
    ∀ left, out = .looped left → isAbs left = true

variable {seen : Seen}

theorem plainSeen_cons {fs : FileSystem} {loc : Location} {known : Option Location}
    (hk : ∀ l, known = some l → Plain fs l) (h : PlainSeen fs seen) :
    PlainSeen fs ((loc, known) :: seen) := by
  intro entry he l hl
  rcases List.mem_cons.mp he with he | he
  · exact hk l (by rw [← hl, he])
  · exact h entry he l hl

theorem plain_looped {path : PathText} {names : List String} (h : PlainSeen fs seen)
    (hpath : isAbs path = true) :
    PlainResult fs (some (.looped (join path (rest names)), seen)) := by
  intro out seen' hr
  cases hr
  exact ⟨h, nofun, fun left hl => Outcome.looped.inj hl ▸ isAbs_join hpath (rest_ne_nil names)⟩

theorem plain_walk
    (hnested : ∀ path text seen, Plain fs path → PlainSeen fs seen →
      PlainResult fs (nested path text seen)) :
    ∀ (names : List String) (path : Location) (seen : Seen), Plain fs path → PlainSeen fs seen →
      PlainResult fs (walk fs nested names path seen) := by
  intro names
  induction names with
  | nil =>
    intro path seen hpath hseen out seen' hr
    cases hr
    exact ⟨hseen, fun loc hl => Outcome.resolved.inj hl ▸ hpath, nofun⟩
  | cons name names ih =>
    intro path seen hpath hseen
    unfold walk
    by_cases hspecial : special name = true
    · rw [if_pos hspecial]; exact ih _ _ hpath hseen
    rw [if_neg hspecial]
    by_cases hup : name = ".."
    · rw [if_pos hup]; exact ih _ _ (hpath.of_prefix (List.dropLast_prefix path)) hseen
    rw [if_neg hup]
    have hname : special name = false ∧ name ≠ ".." := ⟨Bool.eq_false_iff.mpr hspecial, hup⟩
    split
    · rename_i target htarget
      split
      · rename_i known hknown
        have hplain : Plain fs known := by
          obtain ⟨_, _, hsplit, -⟩ := List.lookup_eq_some_iff.mp hknown
          exact hseen (path ++ [name], some known) (by rw [hsplit]; simp) known rfl
        exact ih _ _ hplain hseen
      · exact plain_looped hseen (isAbs_absolute _)
      · have hseen' : PlainSeen fs ((path ++ [name], none) :: seen) := plainSeen_cons nofun hseen
        have hresult := hnested path target _ hpath hseen'
        split
        · nofun
        · rename_i known seen' hr
          obtain ⟨hseen', hplain, -⟩ := hresult _ _ hr
          refine ih _ _ (hplain known rfl) (plainSeen_cons (fun l hl => ?_) hseen')
          exact Option.some.inj hl ▸ hplain known rfl
        · rename_i left seen' hr
          exact plain_looped (hresult _ _ hr).1 ((hresult _ _ hr).2.2 left rfl)
    · rename_i hnode
      exact ih _ _ (hpath.append hname hnode) hseen

theorem plain_resolve (depth : Nat) {path : Location} {text : PathText}
    (hpath : Plain fs path) (hseen : PlainSeen fs seen) :
    PlainResult fs (resolve fs depth path text seen) := by
  have hstart : ∀ (path : Location) (text : PathText), Plain fs path →
      Plain fs (if isAbs text then [] else path) := by
    intro path text hpath
    split
    · exact plain_nil
    · exact hpath
  induction depth generalizing path text seen with
  | zero =>
    refine plain_walk (fun _ _ _ _ _ _ _ hr => ?_) _ _ _ (hstart path text hpath) hseen
    exact absurd hr nofun
  | succ depth ih => exact plain_walk (fun _ _ _ hp hs => ih hp hs) _ _ _ (hstart path text hpath) hseen

/-! ## 6. Behind a loop -/

theorem join_of_isAbs {a b : PathText} (h : isAbs b = true) : join a b = b := if_pos h

theorem rest_of_isAbs {b : PathText} (h : isAbs b = true) : rest b = b := if_neg (ne_nil_of_isAbs h)

/-- **Behind a loop an absolute path comes out as it is written.** -/
theorem walk_append_of_looped {left : PathText} {seen' : Seen} (names : List String)
    (path : Location) (seen : Seen) (h : walk fs nested names path seen = some (.looped left, seen')) :
    ∃ name front, name :: front <+: names ∧ ∀ tail, isAbs tail = true →
      ∃ seen'', walk fs nested (name :: front ++ tail) path seen = some (.looped tail, seen'') := by
  induction names generalizing path seen with
  | nil => exact absurd h nofun
  | cons name names ih =>
    -- where the walk goes on, the loop is met further on
    have hgoes : ∀ path' seen₁, walk fs nested names path' seen₁ = some (.looped left, seen') →
        (∀ names, walk fs nested (name :: names) path seen = walk fs nested names path' seen₁) →
        ∃ name' front, name' :: front <+: name :: names ∧ ∀ tail, isAbs tail = true →
          ∃ seen'', walk fs nested (name' :: front ++ tail) path seen =
            some (.looped tail, seen'') := by
      intro path' seen₁ h hstep
      obtain ⟨name', front, hprefix, hfront⟩ := ih path' seen₁ h
      refine ⟨name, name' :: front, (List.prefix_cons_inj name).mpr hprefix, fun tail htail => ?_⟩
      rw [List.cons_append, hstep]
      exact hfront tail htail
    unfold walk at h
    by_cases hspecial : special name = true
    · rw [if_pos hspecial] at h
      exact hgoes _ _ h fun names => by rw [walk, if_pos hspecial]
    rw [if_neg hspecial] at h
    by_cases hup : name = ".."
    · rw [if_pos hup] at h
      exact hgoes _ _ h fun names => by rw [walk, if_neg hspecial, if_pos hup]
    rw [if_neg hup] at h
    have hhere : (∀ tail, isAbs tail = true → ∃ seen'',
        walk fs nested (name :: tail) path seen = some (.looped tail, seen'')) →
        ∃ name' front, name' :: front <+: name :: names ∧ ∀ tail, isAbs tail = true →
          ∃ seen'', walk fs nested (name' :: front ++ tail) path seen =
            some (.looped tail, seen'') := fun hloop =>
      ⟨name, [], ⟨names, rfl⟩, hloop⟩
    split at h
    · rename_i target htarget
      split at h
      · rename_i known hknown
        exact hgoes _ _ h fun names => by
          simp only [walk, if_neg hspecial, if_neg hup, htarget, hknown]
      · rename_i hknown
        refine hhere fun tail htail => ⟨seen, ?_⟩
        simp only [walk, if_neg hspecial, if_neg hup, htarget, hknown, rest_of_isAbs htail,
          join_of_isAbs htail]
      · rename_i hknown
        split at h
        · exact absurd h nofun
        · rename_i known seen₁ hr
          exact hgoes _ _ h fun names => by
            simp only [walk, if_neg hspecial, if_neg hup, htarget, hknown, hr]
        · rename_i left' seen₁ hr
          refine hhere fun tail htail => ⟨seen₁, ?_⟩
          simp only [walk, if_neg hspecial, if_neg hup, htarget, hknown, hr, rest_of_isAbs htail,
            join_of_isAbs htail]
    · rename_i hnode
      refine hgoes _ _ h fun names => ?_
      rw [walk, if_neg hspecial, if_neg hup]
      split
      · rename_i target htarget
        exact absurd htarget (hnode target)
      · rfl

theorem resolve_append_of_looped {depth : Nat} {path : Location} {text left : PathText}
    (h : resolve fs depth path text [] = some (.looped left, seen)) :
    ∃ front, ∀ tail, isAbs tail = true →
      ∃ seen', resolve fs depth path (front ++ tail) [] = some (.looped tail, seen') := by
  have hwalk : ∀ nested : Location → PathText → Seen → Option (Outcome × Seen),
      walk fs nested text (if isAbs text then [] else path) [] = some (.looped left, seen) →
      ∃ front, ∀ tail, isAbs tail = true → ∃ seen', walk fs nested (front ++ tail)
        (if isAbs (front ++ tail) then [] else path) [] = some (.looped tail, seen') := by
    intro nested h
    obtain ⟨name, front, hprefix, hfront⟩ := walk_append_of_looped _ _ _ h
    refine ⟨name :: front, fun tail htail => ?_⟩
    have hstart : isAbs (name :: front ++ tail) = isAbs text := by
      rw [isAbs_append (ne_nil_of_isAbs htail)]
      obtain ⟨more, rfl⟩ := hprefix
      cases hmore : front ++ more with
      | nil =>
        rw [List.cons_append, hmore] at h ⊢
        by_cases hname : name = ""
        · rw [hname] at h
          exact absurd h nofun
        · simp [isAbs, hname]
      | cons a names =>
        rw [List.cons_append, hmore]
        by_cases hname : name = "" <;> simp [isAbs, hname]
    rw [hstart]
    exact hfront tail htail
  cases depth with
  | zero | succ _ => exact hwalk _ h

end Resolve

end Posix

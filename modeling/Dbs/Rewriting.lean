/-
  File:      Dbs/Rewriting.lean
  Subject:   PATHS THAT ARE MOVED (`inside`, `mapped` and `rewritten` in relocation/inventory.py): one
             path by itself, and a folder wherever a text has it.

  `re.sub` is that of `Dbs.Lib.Substitution`; the source folder is escaped, so that it is searched for
  as it is, and what follows it is only looked at.

  * `mapped`, `rewritten` -- as the code has them;
  * `intended` -- the folder replaced where it stands as a whole path or as the beginning of one;
  * `rewritten_meets_iff` -- the code does so exactly when all it finds are such places and the target
    has no backslash that means something to `re`;
  * `tail_of_longer_path` -- it also finds the folder at the end of a longer one.
-/
import Dbs.Lib.Substitution
import Dbs.Remote.Redaction
import Mathlib.Data.List.DropRight

namespace Dbs.Rewriting

open Substitution (Piece join pieces places template expand isPlain)
open Remote.Redaction (Text isSpace)

/-! ## 1. As the code has it -/

/-- `path.rstrip("/")`. -/
def rstrip (path : Text) : Text := path.rdropWhile (· == '/')

/-- `path or "/"`. -/
def orRoot (path : Text) : Text := if path = [] then ['/'] else path

def inside (path folder : Text) : Bool :=
  let path := orRoot (rstrip path)
  let folder := orRoot (rstrip folder)
  !folder.isEmpty && (path == folder || (folder ++ ['/']).isPrefixOf path)

def mapped (path source target : Text) : Text :=
  if source ≠ [] ∧ inside path source then
    orRoot (rstrip target ++ path.drop (rstrip source).length)
  else path

/-- `[/\s;"'=:]`. -/
def isBoundary (c : Char) : Bool := c == '/' || isSpace c || [';', '"', '\'', '=', ':'].contains c

/-- `re.escape(folder) + r"(?=[/\s;\"'=:]|$)"`; before a line break a space is found already. -/
def found (folder : Text) (_before : Option Char) (text : Text) : Bool :=
  folder.isPrefixOf text && (text.drop folder.length).head?.all isBoundary

/-- What `re.sub` keeps and puts in; nothing when it refuses the target as a template. -/
def edited (text source target : Text) : Option (List Piece) :=
  if source = [] ∨ source = target then some (text.map .kept)
  else
    let folder := rstrip source
    (expand (rstrip target) folder).map fun new => pieces (found folder) folder.length new none 0 text

def rewritten (text source target : Text) : Option Text := (edited text source target).map join

/-! ## 2. What it is for -/

/-- What can be part of a path as `rewritten` sees it. -/
def isPathChar (c : Char) : Bool := c == '/' || !isBoundary c

/-- The folder as a whole path, or as the beginning of one: the root is where a path begins. -/
def whole (folder : Text) (before : Option Char) (text : Text) : Bool :=
  found folder before text && !before.any isPathChar && (folder != [] || text.head? == some '/')

/-- Whole paths are replaced by the target as it is, and nothing else. -/
def intended (text source target : Text) : List Piece :=
  if source = [] ∨ source = target then text.map .kept
  else pieces (whole (rstrip source)) (rstrip source).length (rstrip target) none 0 text

/-- Not empty, and without a character that ends a path. -/
def OnePath (text : Text) : Prop := text ≠ [] ∧ ∀ c ∈ text, isPathChar c = true

structure Meets (text source target : Text) : Prop where
  edited : edited text source target = some (intended text source target)
  mapped : OnePath text → inside text source = true →
    rewritten text source target = some (mapped text source target)

/-- The target, when a template of `re`, stands for itself. -/
def StandsForItself (target folder : Text) : Prop :=
  isPlain target = true ∨ '\\' ∈ folder ∧ expand target folder = some target

/-- The target can be read as a template and stands for itself, or there is nothing to replace; every
    place that a search from the left finds is a whole path; and not the one path itself goes to the
    root. -/
structure Clean (text source target : Text) : Prop where
  accepted : (template target).isSome = true
  literal : places (found source) source.length none 0 text = [] ∨ StandsForItself target source
  whole : ∀ place ∈ places (found source) source.length none 0 text,
    whole source place.1 place.2 = true
  notRoot : ¬ (OnePath text ∧ text = source ∧ target = [])

section Results

variable {text source target folder : Text} {b : Char}

theorem standsForItself_iff : StandsForItself target folder ↔ expand target folder = some target := by
  constructor
  · rintro (hplain | ⟨-, h⟩)
    · exact Substitution.expand_of_plain hplain
    · exact h
  · intro h
    by_cases hback : '\\' ∈ folder
    · exact Or.inr ⟨hback, h⟩
    · exact Or.inl ((Substitution.expand_eq_self_iff hback).mp h)

theorem found_of_whole (before : Option Char) (text : Text) (h : whole folder before text = true) :
    found folder before text = true :=
  (Bool.and_eq_true_iff.mp (Bool.and_eq_true_iff.mp h).1).1

theorem whole_behind (folder text : Text) (hb : isPathChar b = true) :
    whole folder (some b) text = false := by
  simp [whole, hb]

/-- **The edits are the intended ones.** -/
theorem edited_eq_iff (text : Text) (hsource : source ≠ []) (hne : source ≠ target) :
    edited text source target = some (intended text source target) ↔
      (template (rstrip target)).isSome = true ∧
        (places (found (rstrip source)) (rstrip source).length none 0 text = [] ∨
          StandsForItself (rstrip target) (rstrip source)) ∧
        ∀ place ∈ places (found (rstrip source)) (rstrip source).length none 0 text,
          whole (rstrip source) place.1 place.2 = true := by
  rw [edited, intended, if_neg (not_or.mpr ⟨hsource, hne⟩), if_neg (not_or.mpr ⟨hsource, hne⟩),
    standsForItself_iff]
  cases htemplate : template (rstrip target) with
  | none => simp [expand, htemplate]
  | some tokens =>
    have hexpand : expand (rstrip target) (rstrip source) =
        some (tokens.flatMap (Substitution.Token.text (rstrip source))) := by
      rw [expand, htemplate, Option.map_some]
    simp only [hexpand, Option.map_some, Option.some.injEq, Option.isSome_some, true_and]
    rw [Substitution.pieces_eq_iff found_of_whole]
    exact And.comm

/-! ## 3. One path -/

theorem rstrip_rstrip (source : Text) : rstrip (rstrip source) = rstrip source :=
  List.rdropWhile_idempotent _ _

theorem rstrip_ne_root : rstrip source ≠ ['/'] := fun h => by
  have htwice := rstrip_rstrip source
  rw [h] at htwice
  exact nomatch htwice

theorem rstrip_slashes (text : Text) :
    ∃ slashes : Text, text = rstrip text ++ slashes ∧ ∀ c ∈ slashes, c = '/' := by
  refine ⟨text.rtakeWhile (· == '/'), (List.rdropWhile_append_rtakeWhile (p := (· == '/'))).symm,
    fun c hc => ?_⟩
  have hslash : (c == '/') = true := List.mem_rtakeWhile_imp (p := (· == '/')) hc
  exact eq_of_beq hslash

@[simp] theorem orRoot_of_ne_nil (h : text ≠ []) : orRoot text = text := if_neg h

theorem head?_slashes (h : ∀ c ∈ text, c = '/') : text.head?.all (· == '/') = true := by
  cases text with
  | nil => rfl
  | cons c text => simp [h c List.mem_cons_self]

/-- **What is inside a folder begins with it**, as a whole path. -/
theorem inside_cases (htext : text ≠ []) (h : inside text source = true) :
    ∃ rest, text = rstrip source ++ rest ∧ rest.head?.all (· == '/') = true ∧
      (rstrip source = [] → rest ≠ []) := by
  obtain ⟨slashes, hslashes, hall⟩ := rstrip_slashes text
  have h : orRoot (rstrip text) = orRoot (rstrip source) ∨
      orRoot (rstrip source) ++ ['/'] <+: orRoot (rstrip text) := by
    have hboth := (Bool.and_eq_true_iff.mp h).2
    simpa using hboth
  by_cases hroot : rstrip source = []
  · refine ⟨text, by rw [hroot, List.nil_append], ?_, fun _ => htext⟩
    rw [hroot] at h
    by_cases hempty : rstrip text = []
    · rw [hempty, List.nil_append] at hslashes
      exact head?_slashes (hslashes ▸ hall)
    · rw [orRoot_of_ne_nil hempty] at h
      rcases h with h | ⟨tail, h⟩
      · exact absurd h rstrip_ne_root
      · rw [hslashes, ← h]
        rfl
  · rw [orRoot_of_ne_nil hroot] at h
    by_cases hempty : rstrip text = []
    · rw [hempty] at h
      rcases h with h | h
      · exact absurd h.symm rstrip_ne_root
      · have hshort : rstrip source = [] := by simpa [orRoot] using h.length_le
        exact absurd hshort hroot
    · rw [orRoot_of_ne_nil hempty] at h
      rcases h with h | ⟨tail, h⟩
      · exact ⟨slashes, by rw [← h]; exact hslashes, head?_slashes hall, fun hnil => absurd hnil hroot⟩
      · refine ⟨'/' :: (tail ++ slashes), ?_, rfl, fun hnil => absurd hnil hroot⟩
        rw [hslashes, ← h]
        simp

theorem inside_self (h : rstrip source ≠ []) : inside (rstrip source) source = true := by
  simp [inside, orRoot, rstrip_rstrip, h]

/-- **One path inside the folder**: the intended edit is that of `mapped`, up to the root. -/
theorem join_intended (hsource : source ≠ []) (hne : source ≠ target) (hpath : OnePath text)
    (h : inside text source = true) :
    join (intended text source target) = rstrip target ++ text.drop (rstrip source).length := by
  obtain ⟨hempty, hchars⟩ := hpath
  obtain ⟨rest, htext, hhead, hroot⟩ := inside_cases hempty h
  have hdrop : text.drop (rstrip source).length = rest := by
    rw [htext, List.drop_left]
  have hwhole : whole (rstrip source) none text = true := by
    have hbound : rest.head?.all isBoundary = true := by
      cases rest with
      | nil => rfl
      | cons c rest => simp [isBoundary, show c = '/' by simpa using hhead]
    have hbegins : (rstrip source != [] || text.head? == some '/') = true := by
      by_cases hnil : rstrip source = []
      · cases rest with
        | nil => exact absurd rfl (hroot hnil)
        | cons c rest => simp [htext, hnil, show c = '/' by simpa using hhead]
      · simp [hnil]
    rw [whole, found, hdrop, hbound, hbegins, htext]
    simp
  rw [intended, if_neg (not_or.mpr ⟨hsource, hne⟩)]
  cases text with
  | nil => exact absurd rfl hempty
  | cons c text =>
    -- behind its first character no whole path begins
    have hrest : pieces (whole (rstrip source)) (rstrip source).length (rstrip target) (some c)
        ((rstrip source).length - 1) text = (text.drop ((rstrip source).length - 1)).map .kept :=
      Substitution.pieces_eq_kept (fun _ t hb => whole_behind (rstrip source) t hb)
        (hchars c List.mem_cons_self) fun d hd => hchars d (List.mem_cons_of_mem _ hd)
    rw [Substitution.pieces_of_found hwhole, Substitution.join_put, hrest]
    cases hlength : (rstrip source).length with
    | zero => simp [Substitution.join_map_kept]
    | succ n => exact congrArg (rstrip target ++ ·) (Substitution.join_map_kept _)

/-! ## 4. When the code does what it is for -/

/-- **A path is rewritten as it is mapped**, if its edits are the intended ones, unless it is the folder
    itself and goes to the root. -/
theorem rewritten_eq_mapped_iff
    (hedited : edited text source target = some (intended text source target))
    (hsource : source ≠ []) (hne : source ≠ target) (hpath : OnePath text)
    (h : inside text source = true) :
    rewritten text source target = some (mapped text source target) ↔
      ¬ (text = rstrip source ∧ rstrip target = []) := by
  obtain ⟨rest, htext, -, hroot⟩ := inside_cases hpath.1 h
  have hdrop : text.drop (rstrip source).length = rest := by
    rw [htext, List.drop_left]
  rw [rewritten, hedited, Option.map_some, join_intended hsource hne hpath h, mapped,
    if_pos ⟨hsource, h⟩, hdrop, Option.some.injEq]
  by_cases hnil : rstrip target ++ rest = []
  · obtain ⟨htarget, hrest⟩ := List.append_eq_nil_iff.mp hnil
    simp [orRoot, htarget, hrest, htext]
  · rw [orRoot_of_ne_nil hnil]
    refine iff_of_true rfl fun ⟨hsame, htarget⟩ => hnil ?_
    have hrest : rest = [] := by rwa [hsame, List.self_eq_append_right] at htext
    rw [htarget, hrest, List.nil_append]

/-- **What a move rewrites**: exactly the whole paths, by the target as it is, and a single path as it
    is mapped; if and only if what is found are whole paths, the target stands for itself as a
    template and the folder does not become the root. -/
theorem rewritten_meets_iff :
    Meets text source target ↔
      source = [] ∨ source = target ∨ Clean text (rstrip source) (rstrip target) := by
  by_cases hsource : source = []
  · refine iff_of_true ⟨by simp [edited, intended, hsource], fun _ _ => ?_⟩ (Or.inl hsource)
    simp [rewritten, edited, mapped, hsource, Substitution.join_map_kept]
  by_cases hne : source = target
  · refine iff_of_true ⟨by simp [edited, intended, hne], fun hpath h => ?_⟩ (Or.inr (Or.inl hne))
    obtain ⟨rest, htext, -, -⟩ := inside_cases hpath.1 h
    have hmapped : mapped text source target = text := by
      rw [mapped, if_pos ⟨hsource, h⟩, ← hne]
      conv_rhs => rw [← orRoot_of_ne_nil hpath.1]
      conv_lhs => rw [htext, List.drop_left, ← htext]
    rw [hmapped, rewritten, edited, if_pos (Or.inr hne), Option.map_some, Substitution.join_map_kept]
  have hedited := edited_eq_iff text hsource hne
  constructor
  · intro ⟨hedits, hmapped⟩
    obtain ⟨haccepted, hliteral, hwhole⟩ := hedited.mp hedits
    refine Or.inr (Or.inr ⟨haccepted, hliteral, hwhole, fun ⟨hpath, htext, htarget⟩ => ?_⟩)
    have h : inside text source = true := htext ▸ inside_self (htext ▸ hpath.1)
    exact (rewritten_eq_mapped_iff hedits hsource hne hpath h).mp (hmapped hpath h) ⟨htext, htarget⟩
  · rintro (h | h | hclean)
    · exact absurd h hsource
    · exact absurd h hne
    · have hedits := hedited.mpr ⟨hclean.accepted, hclean.literal, hclean.whole⟩
      refine ⟨hedits, fun hpath h => ?_⟩
      exact (rewritten_eq_mapped_iff hedits hsource hne hpath h).mpr fun ⟨htext, htarget⟩ =>
        hclean.notRoot ⟨hpath, htext, htarget⟩

end Results

/-- **The tail of a longer path is rewritten too**: `/srv/app` is moved to `/opt/app`, and
    `D=/mnt/srv/app/x` becomes `D=/mnt/opt/app/x`; moved to `/opt/\\1` the text is refused. -/
theorem tail_of_longer_path :
    rewritten "D=/mnt/srv/app/x".toList "/srv/app".toList "/opt/app".toList =
        some "D=/mnt/opt/app/x".toList ∧
      join (intended "D=/mnt/srv/app/x".toList "/srv/app".toList "/opt/app".toList) =
        "D=/mnt/srv/app/x".toList ∧
      ¬ Meets "D=/mnt/srv/app/x".toList "/srv/app".toList "/opt/app".toList ∧
      rewritten "D=/srv/app".toList "/srv/app".toList "/opt/\\1".toList = none := by
  refine ⟨by decide, by decide, fun h => ?_, by decide⟩
  exact absurd h.edited (by decide)

end Dbs.Rewriting

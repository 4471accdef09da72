/-
  File:      Dbs/Files/Publish.lean
  Subject:   MOVING RESTORED FILES INTO PLACE (files.py, StagedFiles.publish and discard): local targets
             are replaced in one move, targets in a storage are deleted and saved again.

  What the file system and the storages do is outside: every call an entry makes has its answer, and
  a call that raises may raise any exception.

  * `Answers` -- the answers an entry gets, the same for every schedule of failures;
  * `publishEntry`, `discardEntry`, `publish`, `discard`;
  * `Kept` -- each target holds its old content or the new content of an entry for it;
  * `Whole` -- the condition on an entry's answers under which its target is not lost;
    `publish_keeps_targets` -- under it every target is kept, and where the targets are pairwise
    different under no weaker one;
  * `publish_loses_target` -- a storage that takes the deletion and fails the save.
-/
import Mathlib.Data.List.Nodup
import Dbs.Lib.Octets

namespace Dbs.Files

open Octets

/-! ## 1. Places -/

/-- A path of the file system, or a name in one of the storages. -/
inductive Place
  | path (path : String)
  | stored (storage : Nat) (name : String)
deriving DecidableEq

/-- What every place holds. -/
abbrev Contents := Place → Option Bytes

/-- An `Exception`, or another `BaseException`, which `except Exception` lets through. -/
inductive Raised
  | exception
  | base
deriving DecidableEq

/-- A removal returns, or it raises and the file is gone or not. -/
inductive Removal
  | returns
  | raises (raised : Raised) (gone : Bool)

/-- A save returns, under the name it was asked for or another one, or it raises and its place is
    left as it was or with anything (nothing, a part of the content). -/
inductive Saving
  | returns
  | elsewhere (name : Place)
  | raises (raised : Raised) (left : Option (Option Bytes))
deriving DecidableEq

/-- The answers to the calls an entry makes, `none` where the call returns. -/
structure Answers where
  replace : Option Raised := none
  sync : Option Raised := none
  exist : Option Raised := none
  delete : Removal := .returns
  «open» : Option Raised := none
  save : Saving := .returns
  deleteStaging : Removal := .returns
  discard : Removal := .returns

/-- A staged file and where it goes. -/
structure Pending where
  staging : Place
  target : Place
  label : String
  answers : Answers

/-! ## 2. Publishing -/

def remove (files : Contents) (p : Place) : Removal → Contents × Option Raised
  | .returns => (Function.update files p none, none)
  | .raises raised gone => (if gone then Function.update files p none else files, some raised)

/-- The delete before a save: only of a file that exists. -/
def clear (files : Contents) (e : Pending) : Contents × Option Raised :=
  match e.answers.exist with
  | some raised => (files, some raised)
  | none =>
    if (files e.target).isSome then remove files e.target e.answers.delete else (files, none)

/-- The save, of the content read from the staging file. -/
def store (files : Contents) (e : Pending) : Contents × Option Raised :=
  match e.answers.open, files e.staging with
  | some raised, _ => (files, some raised)
  | none, none => (files, some .exception)
  | none, some content =>
    match e.answers.save with
    | .returns => (Function.update files e.target (some content), none)
    | .elsewhere name => (Function.update files name (some content), none)
    | .raises raised none => (files, some raised)
    | .raises raised (some left) => (Function.update files e.target left, some raised)

/-- `_publish`. -/
def publishEntry (files : Contents) (e : Pending) : Contents × Option Raised :=
  match e.target with
  | .path _ =>
    match e.answers.replace with
    | some raised => (files, some raised)
    | none =>
      (Function.update (Function.update files e.target (files e.staging)) e.staging none,
        e.answers.sync)
  | .stored _ _ =>
    match clear files e with
    | (files, some raised) => (files, some raised)
    | (files, none) =>
      match store files e with
      | (files, some raised) => (files, some raised)
      | (files, none) => remove files e.staging e.answers.deleteStaging

/-- `_discard`: a storage's exceptions are only logged; a local staging file may be missing. -/
def discardEntry (files : Contents) (e : Pending) : Contents × Option Raised :=
  match e.target with
  | .path _ =>
    if (files e.staging).isSome then remove files e.staging e.answers.discard else (files, none)
  | .stored _ _ =>
    match remove files e.staging e.answers.discard with
    | (files, some .base) => (files, some .base)
    | (files, _) => (files, none)

/-- One turn of the loop: the files after it, the failure it notes, and what it lets through. -/
def turn (files : Contents) (e : Pending) : Contents × Option String × Option Raised :=
  match publishEntry files e with
  | (files, none) => (files, none, none)
  | (files, some .base) => (files, none, some .base)
  | (files, some .exception) =>
    let (files, through) := discardEntry files e
    (files, some e.label, through)

/-- How `publish` ends. -/
inductive Ended
  | returned
  | restoreError (labels : List String)
  | through (raised : Raised)

structure StagedFiles where
  pending : List Pending
  published : Nat := 0

def publishAll (files : Contents) (published : Nat) (failures : List String) :
    List Pending → Contents × Nat × Ended
  | [] => (files, published, if failures = [] then .returned else .restoreError failures)
  | e :: rest =>
    match turn files e with
    | (files, _, some raised) => (files, published, .through raised)
    | (files, none, none) => publishAll files (published + 1) failures rest
    | (files, some label, none) => publishAll files published (failures ++ [label]) rest

def publish (files : Contents) (staged : StagedFiles) : Contents × StagedFiles × Ended :=
  let (files, published, ended) := publishAll files staged.published [] staged.pending
  (files, { pending := [], published }, ended)

def discardAll (files : Contents) : List Pending → Contents × Option Raised
  | [] => (files, none)
  | e :: rest =>
    match discardEntry files e with
    | (files, some raised) => (files, some raised)
    | (files, none) => discardAll files rest

def discard (files : Contents) (staged : StagedFiles) : Contents × StagedFiles × Option Raised :=
  let (files, raised) := discardAll files staged.pending
  (files, { staged with pending := [] }, raised)

/-- A publish, and the discard that follows one that raised. -/
def publishAndDiscard (files : Contents) (staged : StagedFiles) : Contents :=
  match publish files staged with
  | (files, _, .returned) => files
  | (files, staged, _) => (discard files staged).1

/-! ## 3. One entry -/

variable {files : Contents} {e : Pending} {p : Place}

/-- Staged files hold their content under names of their own: they are created exclusively, under
    random names, and so are the names a storage makes up. -/
structure Staged (files : Contents) (pending : List Pending) : Prop where
  content : ∀ e ∈ pending, (files e.staging).isSome
  nodup : (pending.map Pending.staging).Nodup
  apart : ∀ e ∈ pending, ∀ e' ∈ pending, e.staging ≠ e'.target
  elsewhere : ∀ e ∈ pending, ∀ name, e.answers.save = .elsewhere name →
    ∀ e' ∈ pending, name ≠ e'.target ∧ name ≠ e'.staging

/-- The places an entry writes to. -/
def Pending.Touches (e : Pending) (p : Place) : Prop :=
  p = e.staging ∨ p = e.target ∨ e.answers.save = .elsewhere p

theorem remove_of_ne {q : Place} (h : p ≠ q) (r : Removal) : (remove files q r).1 p = files p := by
  cases r with
  | returns => exact Function.update_of_ne h _ _
  | raises raised gone =>
    cases gone with
    | true => exact Function.update_of_ne h _ _
    | false => rfl

theorem clear_frame (h : ¬ e.Touches p) : (clear files e).1 p = files p := by
  have ht : p ≠ e.target := fun he => h (.inr (.inl he))
  rw [clear]
  split
  · rfl
  · split
    · exact remove_of_ne ht _
    · rfl

theorem store_frame (h : ¬ e.Touches p) : (store files e).1 p = files p := by
  have ht : p ≠ e.target := fun he => h (.inr (.inl he))
  rw [store]
  split
  · rfl
  · rfl
  · split
    · exact Function.update_of_ne ht _ _
    · rename_i hs
      exact Function.update_of_ne (fun he => h (.inr (.inr (by rw [he]; exact hs)))) _ _
    · rfl
    · exact Function.update_of_ne ht _ _

theorem publishEntry_frame (h : ¬ e.Touches p) : (publishEntry files e).1 p = files p := by
  have hs : p ≠ e.staging := fun he => h (.inl he)
  have ht : p ≠ e.target := fun he => h (.inr (.inl he))
  rw [publishEntry]
  split
  · split
    · rfl
    · show Function.update (Function.update files e.target _) e.staging none p = _
      rw [Function.update_of_ne hs, Function.update_of_ne ht]
  · have hc : (clear files e).1 p = files p := clear_frame h
    split
    · rename_i hx
      rw [hx] at hc
      exact hc
    · rename_i files' hx
      rw [hx] at hc
      have hd : (store files' e).1 p = files' p := store_frame h
      split
      · rename_i hy
        rw [hy] at hd
        exact hd.trans hc
      · rename_i hy
        rw [hy] at hd
        exact (remove_of_ne hs _).trans (hd.trans hc)

theorem discardEntry_frame (h : p ≠ e.staging) : (discardEntry files e).1 p = files p := by
  have hr : (remove files e.staging e.answers.discard).1 p = files p := remove_of_ne h _
  rw [discardEntry]
  split
  · split
    · exact hr
    · rfl
  · split
    · rename_i hx
      rw [hx] at hr
      exact hr
    · rename_i hx
      rw [hx] at hr
      exact hr

/-- Beside its publish an entry's turn changes nothing but its staging file. -/
theorem turn_of_ne (h : p ≠ e.staging) : (turn files e).1 p = (publishEntry files e).1 p := by
  rw [turn]
  split
  · rename_i hx
    rw [hx]
  · rename_i hx
    rw [hx]
  · rename_i hx
    rw [hx]
    exact discardEntry_frame h

theorem turn_frame (h : ¬ e.Touches p) : (turn files e).1 p = files p :=
  (turn_of_ne fun he => h (.inl he)).trans (publishEntry_frame h)

/-- **The answers that do not lose the target**: where it existed and was deleted, the staged content
    is read and saved under its name; where it did not, a save that raises leaves nothing behind. A
    raising save that leaves the old or the whole new content does no harm. -/
def Whole (files : Contents) (e : Pending) : Prop :=
  match e.target, e.answers.exist with
  | .path _, _ => True
  | .stored _ _, some _ => True
  | .stored _ _, none =>
    if (files e.target).isSome then
      match e.answers.delete, e.answers.open, e.answers.save with
      | .raises _ gone, _, _ => gone = false
      | .returns, none, .returns => True
      | .returns, none, .raises _ (some left) => left = files e.target ∨ left = files e.staging
      | .returns, _, _ => False
    else
      match e.answers.open, e.answers.save with
      | none, .raises _ (some left) => left = none ∨ left = files e.staging
      | _, _ => True

instance : Decidable (Whole files e) := by
  unfold Whole
  split
  · infer_instance
  · infer_instance
  · split
    · split <;> infer_instance
    · split <;> infer_instance

/-- **One entry**: its target keeps its old content or takes the staged one exactly under the
    condition. -/
theorem publishEntry_target (hst : e.staging ≠ e.target)
    (hn : ∀ name, e.answers.save = .elsewhere name → name ≠ e.target)
    (hsome : (files e.staging).isSome) :
    ((publishEntry files e).1 e.target = files e.target ∨
      (publishEntry files e).1 e.target = files e.staging) ↔ Whole files e := by
  obtain ⟨content, hs⟩ := Option.isSome_iff_exists.mp hsome
  obtain ⟨staging, target, label, replace, sync, exist, delete, «open», save, deleteStaging, gone⟩ := e
  simp only at hst hn hs
  have hts : target ≠ staging := hst.symm
  cases target with
  | path name =>
    cases replace with
    | some raised => simp [publishEntry, Whole]
    | none => simp [publishEntry, Whole, Function.update_of_ne hts]
  | stored storage name =>
    cases exist with
    | some raised => simp [publishEntry, clear, Whole]
    | none =>
      -- the staging file goes last, whatever its removal answers
      have hlast : ∀ f : Contents, (remove f staging deleteStaging).1 (.stored storage name) =
          f (.stored storage name) := fun f => remove_of_ne hts _
      cases ht : files (.stored storage name) with
      | none =>
        cases «open» with
        | some raised => simp [publishEntry, clear, store, Whole, ht]
        | none =>
          cases save with
          | returns => simp [publishEntry, clear, store, Whole, ht, hs, hlast]
          | elsewhere other =>
            have ho : Place.stored storage name ≠ other := (hn other rfl).symm
            simp [publishEntry, clear, store, Whole, ht, hs, hlast,
              Function.update_of_ne ho]
          | raises raised left =>
            cases left <;> simp [publishEntry, clear, store, Whole, ht, hs]
      | some old =>
        cases delete with
        | raises raised gone =>
          cases gone <;> simp [publishEntry, clear, remove, Whole, ht, hs]
        | returns =>
          have hgone : remove files (.stored storage name) .returns =
            (Function.update files (.stored storage name) none, none) := rfl
          cases «open» with
          | some raised => simp [publishEntry, clear, store, hgone, Whole, ht, hs]
          | none =>
            cases save with
            | returns =>
              simp [publishEntry, clear, store, hgone, Whole, ht, hs, hlast,
                Function.update_of_ne hst]
            | elsewhere other =>
              have ho : Place.stored storage name ≠ other := (hn other rfl).symm
              simp [publishEntry, clear, store, hgone, Whole, ht, hs, hlast,
                Function.update_of_ne hst, Function.update_of_ne ho]
            | raises raised left =>
              cases left <;> simp [publishEntry, clear, store, hgone, Whole, ht, hs,
                Function.update_of_ne hst]

/-! ## 4. The list -/

/-- Every entry that is reached meets the condition in the files it finds. -/
def WholeRun (files : Contents) : List Pending → Prop
  | [] => True
  | e :: rest => Whole files e ∧
    match turn files e with
    | (_, _, some _) => True
    | (files, _, none) => WholeRun files rest

instance decidableWholeRun : ∀ (files : Contents) (pending : List Pending),
    Decidable (WholeRun files pending)
  | _, [] => inferInstanceAs (Decidable True)
  | files, e :: rest => by
    unfold WholeRun
    haveI := fun f => decidableWholeRun f rest
    split <;> infer_instance

/-- **No target is lost**: each holds its old content, or the new content of an entry for it. -/
def Kept (before after : Contents) (pending : List Pending) : Prop :=
  ∀ e ∈ pending, after e.target = before e.target ∨
    ∃ e' ∈ pending, e'.target = e.target ∧ after e.target = before e'.staging

variable {pending : List Pending}

theorem Staged.target_untouched (h : Staged files pending) {e e' : Pending} (he : e ∈ pending)
    (he' : e' ∈ pending) (hne : e'.target ≠ e.target) : ¬ e.Touches e'.target := by
  intro ht
  rcases ht with ht | ht | ht
  · exact h.apart e he e' he' ht.symm
  · exact hne ht
  · exact (h.elsewhere e he _ ht e' he').1 rfl

theorem Staged.staging_untouched (h : Staged files pending) {e e' : Pending} (he : e ∈ pending)
    (he' : e' ∈ pending) (hne : e'.staging ≠ e.staging) : ¬ e.Touches e'.staging := by
  intro ht
  rcases ht with ht | ht | ht
  · exact hne ht
  · exact h.apart e' he' e he ht
  · exact (h.elsewhere e he _ ht e' he').2 rfl

/-- An entry's turn, by what it does to the entry's own target. -/
theorem Staged.turn_target (h : Staged files pending) {f : Contents} (he : e ∈ pending)
    (hf : f e.staging = files e.staging) :
    ((turn f e).1 e.target = f e.target ∨ (turn f e).1 e.target = files e.staging) ↔ Whole f e := by
  have hst : e.staging ≠ e.target := h.apart e he e he
  rw [turn_of_ne hst.symm, ← hf]
  refine publishEntry_target hst (fun name hn => (h.elsewhere e he name hn e he).1) ?_
  rw [hf]
  exact h.content e he

theorem publishAll_frame (h : ∀ e ∈ pending, ¬ e.Touches p) (published : Nat)
    (failures : List String) : (publishAll files published failures pending).1 p = files p := by
  induction pending generalizing files published failures with
  | nil => rfl
  | cons e rest ih =>
    have he : (turn files e).1 p = files p := turn_frame (h e List.mem_cons_self)
    have hrest := fun e' he' => h e' (List.mem_cons_of_mem _ he')
    rw [publishAll]
    split
    · rename_i ht
      rw [ht] at he
      exact he
    · rename_i ht
      rw [ht] at he
      exact (ih hrest _ _).trans he
    · rename_i ht
      rw [ht] at he
      exact (ih hrest _ _).trans he

/-- What is carried through the list: targets hold what they may, staged files are as they were. -/
structure Carried (before : Contents) (pending : List Pending) (now : Contents)
    (rest : List Pending) : Prop where
  subset : rest.Sublist pending
  kept : Kept before now pending
  staged : ∀ e ∈ rest, now e.staging = before e.staging

variable {now : Contents}

theorem Carried.turn {rest : List Pending} (h : Staged files pending)
    (hc : Carried files pending now (e :: rest)) (hw : Whole now e) :
    Carried files pending (turn now e).1 rest := by
  have he : e ∈ pending := hc.subset.subset List.mem_cons_self
  have hst := hc.staged e List.mem_cons_self
  refine ⟨(List.sublist_cons_self e rest).trans hc.subset, fun e' he' => ?_, fun e' he' => ?_⟩
  · by_cases heq : e'.target = e.target
    · rw [heq]
      rcases (h.turn_target he hst).mpr hw with ht | ht
      · rw [ht]
        exact hc.kept e he
      · exact .inr ⟨e, he, rfl, ht⟩
    · rw [turn_frame (h.target_untouched he he' heq)]
      exact hc.kept e' he'
  · have hmem := hc.subset.subset (List.mem_cons_of_mem e he')
    have hne : e'.staging ≠ e.staging := by
      have hnodup := (hc.subset.map Pending.staging).nodup h.nodup
      rw [List.map_cons, List.nodup_cons] at hnodup
      exact fun heq => hnodup.1 (heq ▸ List.mem_map_of_mem he')
    rw [turn_frame (h.staging_untouched he hmem hne)]
    exact hc.staged e' (List.mem_cons_of_mem e he')

/-- The whole list, from what is carried to its start. -/
theorem Carried.kept_publishAll {rest : List Pending} (h : Staged files pending)
    (hc : Carried files pending now rest) (hw : WholeRun now rest) (published : Nat)
    (failures : List String) : Kept files (publishAll now published failures rest).1 pending := by
  induction rest generalizing now published failures with
  | nil => exact hc.kept
  | cons e rest ih =>
    obtain ⟨hw, hrest⟩ := hw
    have ht := hc.turn h hw
    rw [publishAll]
    split
    · rename_i he
      rw [he] at ht
      exact ht.kept
    · rename_i he
      rw [he] at ht hrest
      exact ih ht hrest _ _
    · rename_i he
      rw [he] at ht hrest
      exact ih ht hrest _ _

/-- After an entry's turn nothing comes back to its target. -/
theorem publishAll_cons_target {rest : List Pending}
    (h : ∀ e' ∈ rest, ¬ e'.Touches e.target) (published : Nat) (failures : List String) :
    (publishAll now published failures (e :: rest)).1 e.target = (turn now e).1 e.target := by
  rw [publishAll]
  split
  · rename_i ht
    rw [ht]
  · rename_i ht
    rw [ht]
    exact publishAll_frame h _ _
  · rename_i ht
    rw [ht]
    exact publishAll_frame h _ _

theorem wholeRun_of_kept (h : Staged files pending) (hd : (pending.map Pending.target).Nodup)
    {rest : List Pending} (hsub : rest.Sublist pending)
    (hnow : ∀ e ∈ rest, now e.target = files e.target ∧ now e.staging = files e.staging)
    (published : Nat) (failures : List String)
    (hk : Kept files (publishAll now published failures rest).1 pending) : WholeRun now rest := by
  induction rest generalizing now published failures with
  | nil => trivial
  | cons e rest ih =>
    have he : e ∈ pending := hsub.subset List.mem_cons_self
    have htargets := (hsub.map Pending.target).nodup hd
    have hstagings := (hsub.map Pending.staging).nodup h.nodup
    rw [List.map_cons, List.nodup_cons] at htargets hstagings
    obtain ⟨htarget, hstaging⟩ := hnow e List.mem_cons_self
    have hrest : ∀ e' ∈ rest, e' ∈ pending ∧ e'.target ≠ e.target ∧ e'.staging ≠ e.staging := by
      intro e' he'
      refine ⟨hsub.subset (List.mem_cons_of_mem e he'), fun heq => ?_, fun heq => ?_⟩
      · exact htargets.1 (heq ▸ List.mem_map_of_mem he')
      · exact hstagings.1 (heq ▸ List.mem_map_of_mem he')
    have hfinal := @publishAll_cons_target e now rest
      (fun e' he' => h.target_untouched (hrest e' he').1 he (hrest e' he').2.1.symm)
      published failures
    have hwhole : Whole now e := by
      refine (h.turn_target he hstaging).mp ?_
      rw [← hfinal, htarget]
      rcases hk e he with hold | ⟨e', he', heq, hnew⟩
      · exact .inl hold
      · obtain rfl := List.inj_on_of_nodup_map hd he' he heq
        exact .inr hnew
    refine ⟨hwhole, ?_⟩
    have hnow' : ∀ e' ∈ rest, (turn now e).1 e'.target = files e'.target ∧
        (turn now e).1 e'.staging = files e'.staging := by
      intro e' he'
      obtain ⟨hmem, hne, hne'⟩ := hrest e' he'
      rw [turn_frame (h.target_untouched he hmem hne),
        turn_frame (h.staging_untouched he hmem hne')]
      exact hnow e' (List.mem_cons_of_mem e he')
    rw [publishAll] at hk
    split
    · trivial
    · rename_i after noted ht
      rw [ht] at hk hnow'
      cases noted with
      | none | some _ => exact ih ((List.sublist_cons_self e rest).trans hsub) hnow' _ _ hk

/-- The discard finds nothing pending. -/
theorem publishAndDiscard_eq (files : Contents) (staged : StagedFiles) :
    publishAndDiscard files staged = (publishAll files staged.published [] staged.pending).1 := by
  rw [publishAndDiscard, publish]
  split
  · rename_i h
    exact (Prod.mk.inj h).1.symm
  · rename_i h
    obtain ⟨hf, hrest⟩ := Prod.mk.inj h
    rw [← (Prod.mk.inj hrest).1, ← hf]
    rfl

/-- **When publishing loses no target**: when no entry that is reached gets answers by which the
    target it found is deleted and not saved again, or a new one is saved in part. Where the targets
    are pairwise different every such entry loses its target; where several entries have one target,
    a later one may save what an earlier one lost. -/
theorem publish_keeps_targets (files : Contents) (staged : StagedFiles)
    (h : Staged files staged.pending) :
    (WholeRun files staged.pending →
      Kept files (publishAndDiscard files staged) staged.pending) ∧
    ((staged.pending.map Pending.target).Nodup →
      (Kept files (publishAndDiscard files staged) staged.pending ↔
        WholeRun files staged.pending)) := by
  have hstart : Carried files staged.pending files staged.pending :=
    ⟨List.Sublist.refl _, fun _ _ => .inl rfl, fun _ _ => rfl⟩
  rw [publishAndDiscard_eq]
  have hsafe := fun hw => hstart.kept_publishAll h hw staged.published []
  refine ⟨hsafe, fun hd => ⟨fun hk => ?_, hsafe⟩⟩
  exact wholeRun_of_kept h hd (List.Sublist.refl _) (fun _ _ => ⟨rfl, rfl⟩) _ _ hk

/-! ## 5. A save that fails -/

/-- A file of a storage with its staged successor; the storage deletes the old file, and its save
    raises. -/
def failingSave : Pending where
  staging := .stored 0 "a.txt.0.dbs-restore"
  target := .stored 0 "a.txt"
  label := "a.txt"
  answers := { save := .raises .exception none }

/-- A local file beside it. -/
def localMove : Pending where
  staging := .path "/srv/.b.0.dbs-restore"
  target := .path "/srv/b"
  label := "/srv/b"
  answers := { sync := some .exception }

def twoFiles : Contents := fun p =>
  if p = .stored 0 "a.txt" ∨ p = .path "/srv/b" then some [1]
  else if p = .stored 0 "a.txt.0.dbs-restore" ∨ p = .path "/srv/.b.0.dbs-restore" then some [2]
  else none

/-- The same file of the storage, which saves it. -/
def storedMove : Pending := { failingSave with answers := {} }

theorem staged_twoFiles {first : Pending} (h : first = failingSave ∨ first = storedMove) :
    Staged twoFiles [first, localMove] := by
  have hsave : ∀ e ∈ [first, localMove], ∀ name, e.answers.save ≠ .elsewhere name := by
    rcases h with rfl | rfl <;> simp [failingSave, storedMove, localMove]
  refine ⟨?_, ?_, ?_, fun e he name hn => absurd hn (hsave e he name)⟩ <;>
    rcases h with rfl | rfl <;> decide

/-- Both targets have their new content, although the folder of the local one could not be synced. -/
theorem publish_keeps_targets_local :
    Kept twoFiles (publishAndDiscard twoFiles ⟨[storedMove, localMove], 0⟩) [storedMove, localMove] ∧
    publishAndDiscard twoFiles ⟨[storedMove, localMove], 0⟩ storedMove.target = some [2] :=
  ⟨(publish_keeps_targets twoFiles ⟨[storedMove, localMove], 0⟩ (staged_twoFiles (.inr rfl))).1
    (by decide),
    by decide⟩

/-- **A target can be lost**: it was deleted, its save raised, and the discard removed the staged
    file. -/
theorem publish_loses_target :
    ¬ (∀ files staged, Staged files staged.pending →
      Kept files (publishAndDiscard files staged) staged.pending) := by
  intro h
  have hk := h twoFiles ⟨[failingSave, localMove], 0⟩ (staged_twoFiles (.inl rfl)) failingSave
    List.mem_cons_self
  have hgone : publishAndDiscard twoFiles ⟨[failingSave, localMove], 0⟩ failingSave.target = none := by
    decide
  rw [hgone] at hk
  revert hk
  decide

end Dbs.Files

/-
  File:      Dbs/Leftovers.lean
  Subject:   THE SWEEP OF LEFTOVERS AMONG RUNNING JOBS (retention.py, sweep_leftovers; io.py,
             create_new_file and publish_new; jobs.py, keep_upload): what is old and has the name of a
             partial file is removed, whoever still works with it.

  * `isLeftover` -- the names of partial and uploaded files, and empty reservations;
  * `Job`, `Stage` -- a backup or a restore and the file it needs; `step` -- any number of them and of
    sweeps, which look at a file first and remove its name afterwards;
  * `inTime` -- a sweep looks at a job's file within an hour of its last write, and no name is given
    to a file while a sweep is about to remove it;
  * `Safe` -- what every such step keeps; `sweep_spares` -- then no file is removed that a job needs,
    nor a published backup; `sweep_takes` -- two runs of jobs that go on for longer.
-/
import Dbs.Audit.Chain
import Dbs.Lib.Folder
import Dbs.Lib.Octets
import Dbs.Naming

namespace Dbs.Leftovers

open Octets Naming Runs Folder

/-! ## 1. Names -/

/-- `[A-Za-z0-9_]`. -/
def isRandom (c : Char) : Bool := c.isAlphanum || c == '_'

def partialSuffix : Name := ".partial".toList

def marker : Name := ".dbs.".toList

/-- `^\..+\.dbs\.[A-Za-z0-9_]{8}` and what may follow. -/
def endsLike (name behind : Name) : Bool :=
  let whole := name.take (name.length - behind.length)
  let front := whole.take (whole.length - 8)
  let random := whole.drop (whole.length - 8)
  behind.isSuffixOf name && random.length == 8 && random.all isRandom && marker.isSuffixOf front &&
    front.head? == some '.' && decide (7 ≤ front.length) && !front.contains '\n'

/-- `_LEFTOVER_PATTERN.match`; `$` also matches before a line break at the end. -/
def leftoverPattern (name : Name) : Bool :=
  [[], partialSuffix, ['\n'], partialSuffix ++ ['\n']].any (endsLike name)

def isLeftover (name : Name) (size : Nat) : Bool :=
  leftoverPattern name || (size == 0 && isBackupName name none)

/-- The random part of a temporary name. -/
def isToken (random : Name) : Bool :=
  random.length == 8 && random.all fun c => c.isLower || c.isDigit || c == '_'

def partialName (base random : Name) : Name := '.' :: (base ++ '.' :: (random ++ partialSuffix))

def uploadName (random : Name) : Name := ".restore-upload.dbs.".toList ++ random

/-! ## 2. Jobs and sweeps -/

/-- A moment, in seconds. -/
abbrev Time := Int

def leftoverSeconds : Int := 3600

structure File where
  content : Bytes
  written : Time

abbrev Dir := List (Name × File)

inductive Stage
  /-- The name is reserved by an empty file. -/
  | reserving
  /-- The partial file is made and written. -/
  | writing
  /-- It is written and read again. -/
  | checking
  /-- The reservation is given back; the partial file gets its name. -/
  | publishing
  /-- Without hard links, its content is copied. -/
  | copying
  /-- The partial file is to be removed. -/
  | cleaning
  /-- And the reservation, if it is still there. -/
  | discarding
  /-- The upload is stored. -/
  | receiving
  /-- And restored from. -/
  | reading
  | over
deriving DecidableEq

/-- A backup with its name and partial file, or a restore with its upload. -/
structure Job where
  path : Name
  file : Name
  stage : Stage
deriving DecidableEq

structure Sweep where
  now : Time
  pending : List Name
  doomed : Option Name
deriving DecidableEq

/-- A name that a sweep removed: whether a job needed it, and whether it was a published backup. -/
structure Removal where
  name : Name
  needed : Bool
  published : Bool

/-- The folder, the jobs and the sweep. -/
structure World where
  clock : Time
  dir : Dir
  jobs : List Job
  sweeps : List Sweep
  published : List (Name × Bytes)
  removals : List Removal

def World.start (clock : Time) (dir : Dir) : World := ⟨clock, dir, [], [], [], []⟩

/-- With a temporary file. -/
def Stage.temporary : Stage → Bool
  | .reserving => false
  | .discarding => false
  | .over => false
  | _ => true

/-- With a temporary file to verify, publish or read. -/
def Stage.keeps (s : Stage) : Bool := s.temporary && s ≠ .cleaning

/-- What the job has still to verify, publish or read. -/
def Job.needs (j : Job) : List Name :=
  (if j.stage.keeps then [j.file] else []) ++ if j.stage = .copying then [j.path] else []

/-- Whose temporary file the name is. -/
def Job.holds (j : Job) (n : Name) : Bool := j.stage.temporary && j.file = n

def World.needed (w : World) (n : Name) : Bool := w.jobs.any fun j => j.needs.contains n

/-- The file under the name is a published backup. -/
def World.isPublished (w : World) (n : Name) : Bool :=
  (find n w.dir).any fun f => w.published.contains (n, f.content)

/-- The job goes on. -/
def World.put (w : World) (j : Job) (stage : Stage) : World :=
  { w with jobs := { j with stage } :: w.jobs.erase j }

/-- More is written into a file, if its name is there. -/
def append (n : Name) (data : Bytes) (clock : Time) (dir : Dir) : Dir :=
  match find n dir with
  | some f => Folder.put n ⟨f.content ++ data, clock⟩ dir
  | none => dir

/-- `discard_reservation`, and `release_reservation` where the file is empty. -/
def discardEmpty (n : Name) (dir : Dir) : Dir :=
  match find n dir with
  | some f => if f.content = [] then remove n dir else dir
  | none => dir

inductive Move
  | mkstemp (random : Name)
  | write (data : Bytes)
  | finish
  | release
  | link
  | copy
  | copyMore (data : Bytes)
  | copied
  | read
  /-- The work of the stage raises. -/
  | fails
  | cleanUp
  | discard
  | kill

inductive Action
  | tick (passed : Nat)
  | reserve (stem : Name) (moment : DateTime)
  | upload (random : Name)
  | job (j : Job) (m : Move)
  | sweep
  | look (s : Sweep)
  | remove (s : Sweep)

def jobStep (w : World) (j : Job) : Move → Option World
  | .mkstemp random =>
    let file := partialName j.path random
    if j.stage = .reserving ∧ isToken random ∧ find file w.dir = none then
      some { w with
        dir := Folder.put file ⟨[], w.clock⟩ w.dir
        jobs := ⟨j.path, file, .writing⟩ :: w.jobs.erase j }
    else none
  | .write data =>
    match j.stage with
    | .writing => some { w with dir := append j.file data w.clock w.dir }
    | .receiving => some { w with dir := append j.file data w.clock w.dir }
    | _ => none
  | .finish =>
    -- a container has at least its headers
    if j.stage = .writing ∧ (find j.file w.dir).any (fun f => f.content ≠ []) then
      some (w.put j .checking)
    else none
  | .release =>
    match j.stage, find j.path w.dir with
    | .checking, none => some (w.put j .publishing)
    | .checking, some f =>
      if f.content = [] then some { w.put j .publishing with dir := remove j.path w.dir }
      else some (w.put j .cleaning)
    | _, _ => none
  | .link =>
    match j.stage, find j.path w.dir, find j.file w.dir with
    | .publishing, none, some f =>
      some { w.put j .cleaning with
        dir := Folder.put j.path f w.dir
        published := (j.path, f.content) :: w.published }
    | .publishing, _, _ => some (w.put j .cleaning)
    | _, _, _ => none
  | .copy =>
    match j.stage, find j.path w.dir with
    | .publishing, none =>
      some { w.put j .copying with dir := Folder.put j.path ⟨[], w.clock⟩ w.dir }
    | .publishing, some _ => some (w.put j .cleaning)
    | _, _ => none
  | .copyMore data =>
    if j.stage = .copying then some { w with dir := append j.path data w.clock w.dir } else none
  | .copied =>
    match j.stage, find j.path w.dir, find j.file w.dir with
    | .copying, some target, some origin =>
      if target.content = origin.content then
        some { w.put j .cleaning with published := (j.path, target.content) :: w.published }
      else none
    | .copying, some target, none =>
      some { w.put j .cleaning with published := (j.path, target.content) :: w.published }
    | .copying, none, _ => some (w.put j .cleaning)
    | _, _, _ => none
  | .read =>
    if j.stage = .receiving then some (w.put j .reading) else none
  | .fails =>
    match j.stage with
    | .reserving => some (w.put j .discarding)
    | .writing => some (w.put j .cleaning)
    | .checking => some (w.put j .cleaning)
    | .publishing => some (w.put j .cleaning)
    | .copying => some { w.put j .cleaning with dir := remove j.path w.dir }
    | _ => none
  | .cleanUp =>
    match j.stage with
    | .cleaning => some { w.put j .discarding with dir := remove j.file w.dir }
    | .receiving => some { w.put j .over with dir := remove j.file w.dir }
    | .reading => some { w.put j .over with dir := remove j.file w.dir }
    | _ => none
  | .discard =>
    if j.stage = .discarding then some { w.put j .over with dir := discardEmpty j.path w.dir } else none
  | .kill => some (w.put j .over)

/-- One call, or time passes. -/
def step (w : World) : Action → Option World
  | .tick passed => some { w with clock := w.clock + passed }
  | .reserve stem moment =>
    (reserveBackupName (names w.dir) stem moment).map fun name =>
      { w with
        dir := Folder.put name ⟨[], w.clock⟩ w.dir
        jobs := ⟨name, [], .reserving⟩ :: w.jobs }
  | .upload random =>
    let file := uploadName random
    if isToken random ∧ find file w.dir = none then
      some { w with
        dir := Folder.put file ⟨[], w.clock⟩ w.dir
        jobs := ⟨[], file, .receiving⟩ :: w.jobs }
    else none
  | .job j m => if j ∈ w.jobs then jobStep w j m else none
  | .sweep => some { w with sweeps := ⟨w.clock, names w.dir, none⟩ :: w.sweeps }
  | .look s =>
    if s ∈ w.sweeps ∧ s.doomed = none then
      match s.pending with
      | [] => none
      | n :: pending =>
        let old := (find n w.dir).any fun f =>
          decide (leftoverSeconds ≤ s.now - f.written) && isLeftover n f.content.length
        some { w with
          sweeps := { s with pending, doomed := if old then some n else none } :: w.sweeps.erase s }
    else none
  | .remove s =>
    match s.doomed with
    | some n =>
      if s ∈ w.sweeps then
        some { w with
          dir := Folder.remove n w.dir
          sweeps := { s with doomed := none } :: w.sweeps.erase s
          removals :=
            if (find n w.dir).isSome then ⟨n, w.needed n, w.isPublished n⟩ :: w.removals
            else w.removals }
      else none
    | none => none

/-! ## 3. The condition -/

/-- A sweep has looked at the name and is about to remove it. -/
def World.isDoomed (w : World) (n : Name) : Bool := w.sweeps.any fun s => s.doomed = some n

/-- Neither a sweep is about to remove the name nor is it that of a job's temporary file. -/
def World.free (w : World) (n : Name) : Bool := !w.isDoomed n && w.jobs.all fun j => !j.holds n

/-- **In time**: when a sweep looks at a file that a job needs, less than an hour has passed between its
    last write and the beginning of the sweep; and a temporary name, or a backup its name, is not given
    while a sweep is about to remove it. -/
def inTime (w : World) : Action → Bool
  | .look s =>
    match s.pending with
    | [] => true
    | n :: _ => !w.needed n || (find n w.dir).all fun f => decide (s.now - f.written < leftoverSeconds)
  | .job j (.mkstemp random) => w.free (partialName j.path random)
  | .upload random => w.free (uploadName random)
  | .job j .link => !w.isDoomed j.path
  | .job j .copy => !w.isDoomed j.path
  | _ => true

/-! ## 4. Names that are no leftovers -/

variable {w w' : World} {j k : Job} {n m : Name} {dir : Dir} {s : Sweep}

/-- A name that ends in `.dbs` does not match the pattern. -/
theorem not_leftoverPattern (h : backupSuffix <:+ n) : leftoverPattern n = false := by
  obtain ⟨x, rfl⟩ := h
  have hnone : ∀ behind : Name, behind.getLast? ≠ some 's' → behind ≠ [] →
      endsLike (x ++ backupSuffix) behind = false := by
    intro behind hlast hne
    have hnot : behind.isSuffixOf (x ++ backupSuffix) = false := by
      rw [Bool.eq_false_iff]
      intro hsuffix
      obtain ⟨y, hy⟩ := List.isSuffixOf_iff_suffix.mp hsuffix
      have hends := congrArg List.getLast? hy
      rw [List.getLast?_append_of_ne_nil _ hne, List.getLast?_append_of_ne_nil _ (by decide)] at hends
      exact hlast hends
    simp [endsLike, hnot]
  have hrandom : endsLike (x ++ backupSuffix) [] = false := by
    rw [Bool.eq_false_iff]
    intro hends
    simp only [endsLike, List.length_nil, Nat.sub_zero, List.take_length, Bool.and_eq_true,
      beq_iff_eq, List.all_eq_true] at hends
    obtain ⟨⟨⟨⟨⟨⟨-, hlength⟩, hall⟩, -⟩, -⟩, -⟩, -⟩ := hends
    have hdot : '.' ∈ (x ++ backupSuffix).drop ((x ++ backupSuffix).length - 8) := by
      rw [List.length_drop, List.length_append] at hlength
      have hx : (x ++ backupSuffix).length - 8 ≤ x.length := by
        rw [List.length_append]
        exact Nat.sub_le_of_le_add (Nat.add_le_add_left (by decide) _)
      rw [List.drop_append_of_le_length hx]
      exact List.mem_append_right _ (by decide)
    exact absurd (hall _ hdot) (by decide)
  simp only [leftoverPattern, List.any_cons, List.any_nil, Bool.or_false, hrandom, Bool.false_or]
  rw [hnone _ (by decide) (by decide), hnone _ (by decide) (by decide), hnone _ (by decide) (by decide)]
  rfl

theorem partialName_suffix (base random : Name) : ¬ backupSuffix <:+ partialName base random := by
  intro h
  have hpartial : partialSuffix <:+ partialName base random :=
    ⟨'.' :: (base ++ '.' :: random), by simp [partialName]⟩
  exact absurd (List.suffix_of_suffix_length_le h hpartial (by decide)) (by decide)

theorem uploadName_suffix {random : Name} (ht : isToken random = true) :
    ¬ backupSuffix <:+ uploadName random := by
  intro h
  obtain ⟨hlength, hall⟩ := Bool.and_eq_true_iff.mp ht
  have hle : backupSuffix.length ≤ random.length := by
    rw [beq_iff_eq.mp hlength]
    decide
  have hdot : '.' ∈ random :=
    (List.suffix_of_suffix_length_le h (List.suffix_append _ _) hle).subset (by decide)
  exact absurd (List.all_eq_true.mp hall _ hdot) (by decide)

theorem backupFilename_suffix (stem : Name) (moment : DateTime) (ordinal : Nat) :
    backupSuffix <:+ backupFilename stem moment ordinal :=
  ⟨stem ++ '-' :: (stampOf moment ++ 'Z' :: ordinalSuffix ordinal), by simp [backupFilename]⟩

/-! ## 5. What every such step keeps -/

/-- In the part of a backup where its name is reserved or given. -/
def Stage.backup : Stage → Bool
  | .receiving => false
  | .reading => false
  | .over => false
  | _ => true

/-- The container is written. -/
def Stage.written : Stage → Bool
  | .checking => true
  | .publishing => true
  | .copying => true
  | _ => false

/-- **The invariant.** -/
structure Safe (w : World) : Prop where
  published : ∀ x ∈ w.published, x.2 ≠ [] ∧ backupSuffix <:+ x.1
  paths : ∀ j ∈ w.jobs, j.stage.backup = true → backupSuffix <:+ j.path
  files : ∀ j ∈ w.jobs, j.stage.temporary = true → ¬ backupSuffix <:+ j.file
  apart : w.jobs.Pairwise fun a b => ∀ n, a.holds n = true → b.holds n = true → False
  there : ∀ j ∈ w.jobs, j.stage.keeps = true → ∃ f, find j.file w.dir = some f ∧
    (j.stage.written = true → f.content ≠ [])
  doomed : ∀ n, w.isDoomed n = true → w.needed n = false ∧ w.isPublished n = false
  removals : ∀ r ∈ w.removals, r.needed = false ∧ r.published = false

theorem safe_start (clock : Time) (dir : Dir) : Safe (World.start clock dir) where
  published := fun _ h => (List.not_mem_nil h).elim
  paths := fun _ h => (List.not_mem_nil h).elim
  files := fun _ h => (List.not_mem_nil h).elim
  apart := List.Pairwise.nil
  there := fun _ h => (List.not_mem_nil h).elim
  doomed := fun _ h => Bool.noConfusion h
  removals := fun _ h => (List.not_mem_nil h).elim

theorem holds_iff : j.holds n = true ↔ j.stage.temporary = true ∧ j.file = n := by
  rw [Job.holds, Bool.and_eq_true, decide_eq_true_eq]

theorem mem_needs : n ∈ j.needs ↔
    j.stage.keeps = true ∧ n = j.file ∨ j.stage = .copying ∧ n = j.path := by
  unfold Job.needs
  by_cases hk : j.stage.keeps = true <;> by_cases hc : j.stage = .copying <;> simp [hk, hc]

theorem keeps_temporary {st : Stage} (h : st.keeps = true) : st.temporary = true :=
  (Bool.and_eq_true_iff.mp h).1

theorem needed_iff : w.needed n = true ↔ ∃ j ∈ w.jobs, n ∈ j.needs := by
  simp [World.needed]

/-- What a job needs is not about to be removed. -/
theorem Safe.needs_free (h : Safe w) (hj : j ∈ w.jobs) (hn : n ∈ j.needs) : w.isDoomed n = false := by
  by_contra hdoomed
  rw [Bool.not_eq_false] at hdoomed
  have hneeded := (h.doomed n hdoomed).1
  rw [needed_iff.mpr ⟨j, hj, hn⟩] at hneeded
  cases hneeded

/-- The other jobs have other temporary files. -/
theorem Safe.others (h : Safe w) (hj : j ∈ w.jobs) : ∀ k ∈ w.jobs.erase j, ∀ n, j.holds n = true →
    k.holds n = true → False := by
  have hperm := List.perm_cons_erase hj
  have hpair := (hperm.pairwise_iff fun hab n hb ha => hab n ha hb).mp h.apart
  exact (List.pairwise_cons.mp hpair).1

/-- **The jobs change**: one comes, in the place of another or behind all of them. -/
theorem Safe.jobs (h : Safe w) {rest : List Job} (hrest : rest.Sublist w.jobs)
    (hpath : j.stage.backup = true → backupSuffix <:+ j.path)
    (hfile : j.stage.temporary = true → ¬ backupSuffix <:+ j.file)
    (hapart : ∀ k ∈ rest, ∀ n, j.holds n = true → k.holds n = true → False)
    (hthere : j.stage.keeps = true → ∃ f, find j.file w.dir = some f ∧
      (j.stage.written = true → f.content ≠ []))
    (hneeds : ∀ n ∈ j.needs, w.isDoomed n = false) : Safe { w with jobs := j :: rest } where
  __ := h
  paths := fun k hk => by
    rcases List.mem_cons.mp hk with rfl | hk
    · exact hpath
    · exact h.paths k (hrest.subset hk)
  files := fun k hk => by
    rcases List.mem_cons.mp hk with rfl | hk
    · exact hfile
    · exact h.files k (hrest.subset hk)
  apart := List.pairwise_cons.mpr ⟨hapart, h.apart.sublist hrest⟩
  there := fun k hk => by
    rcases List.mem_cons.mp hk with rfl | hk
    · exact hthere
    · exact h.there k (hrest.subset hk)
  doomed := fun n hn => by
    refine ⟨?_, (h.doomed n hn).2⟩
    by_contra hneeded
    rw [Bool.not_eq_false] at hneeded
    obtain ⟨k, hk, hkn⟩ := needed_iff.mp hneeded
    rcases List.mem_cons.mp hk with rfl | hk
    · exact Bool.noConfusion ((hneeds n hkn).symm.trans hn)
    · exact Bool.noConfusion ((h.needs_free (hrest.subset hk) hkn).symm.trans hn)

/-- **A job goes on.** -/
theorem Safe.put (h : Safe w) (hj : j ∈ w.jobs) {stage : Stage}
    (hbackup : stage.backup = true → j.stage.backup = true)
    (htemporary : stage.temporary = true → j.stage.temporary = true)
    (hkeeps : stage.keeps = true → j.stage.keeps = true)
    (hwritten : stage.written = true → j.stage.written = true ∨
      ∃ f, find j.file w.dir = some f ∧ f.content ≠ [])
    (hcopying : stage = .copying → w.isDoomed j.path = false) : Safe (w.put j stage) := by
  refine h.jobs List.erase_sublist (fun hs => h.paths j hj (hbackup hs))
    (fun hs => h.files j hj (htemporary hs)) (fun k hk n hn => ?_) (fun hs => ?_) fun n hn => ?_
  · obtain ⟨hs, hfile⟩ := holds_iff.mp hn
    exact h.others hj k hk n (holds_iff.mpr ⟨htemporary hs, hfile⟩)
  · obtain ⟨f, hf, hsolid⟩ := h.there j hj (hkeeps hs)
    refine ⟨f, hf, fun hw => ?_⟩
    rcases hwritten hw with hw | ⟨f', hf', hne⟩
    · exact hsolid hw
    · rwa [Option.some.inj (hf.symm.trans hf')]
  · rcases mem_needs.mp hn with ⟨hs, rfl⟩ | ⟨hs, rfl⟩
    · exact h.needs_free hj (mem_needs.mpr (.inl ⟨hkeeps hs, rfl⟩))
    · exact hcopying hs

theorem Stage.keeps_of_written {s : Stage} (h : s.written = true) : s.keeps = true := by
  cases s <;> first | rfl | cases h

section

variable (h : Safe w)

include h

/-- A job goes on that has nothing left to verify, publish or read. -/
theorem Safe.putIdle (hj : j ∈ w.jobs) {stage : Stage} (hidle : stage.keeps = false)
    (hbackup : stage.backup = true → j.stage.backup = true)
    (htemporary : stage.temporary = true → j.stage.temporary = true) : Safe (w.put j stage) := by
  have hnot : stage.keeps ≠ true := by
    rw [hidle]
    exact Bool.false_ne_true
  refine h.put hj hbackup htemporary (fun hk => absurd hk hnot)
    (fun hw => absurd (Stage.keeps_of_written hw) hnot) fun hs => ?_
  subst hs
  exact absurd rfl hnot

theorem Safe.putOver (hj : j ∈ w.jobs) : Safe (w.put j .over) :=
  h.putIdle hj rfl nofun nofun

/-- **The folder changes**, but not what the jobs need, and nothing appears under a name that a sweep is
    about to remove. -/
theorem Safe.folder {dir : Dir}
    (hthere : ∀ j ∈ w.jobs, j.stage.keeps = true → ∀ f, find j.file w.dir = some f →
      ∃ f', find j.file dir = some f' ∧ (f.content ≠ [] → f'.content ≠ []))
    (hdoomed : ∀ n, w.isDoomed n = true → find n dir = find n w.dir ∨ find n dir = none ∨
      ∃ f, find n dir = some f ∧ f.content = []) : Safe { w with dir } where
  __ := h
  there := fun j hj hk => by
    obtain ⟨f, hf, hsolid⟩ := h.there j hj hk
    obtain ⟨f', hf', hne⟩ := hthere j hj hk f hf
    exact ⟨f', hf', fun hw => hne (hsolid hw)⟩
  doomed := fun n hn => by
    refine ⟨(h.doomed n hn).1, ?_⟩
    show (find n dir).any _ = false
    rcases hdoomed n hn with hsame | hnone | ⟨f, hf, hempty⟩
    · rw [hsame]
      exact (h.doomed n hn).2
    · rw [hnone]
      rfl
    · rw [hf, Bool.eq_false_iff]
      intro hpublished
      exact (h.published _ (List.contains_iff_mem.mp hpublished)).1 hempty

/-- **A backup is published** under a name that no sweep is about to remove. -/
theorem Safe.publish {content : Bytes} (hne : content ≠ []) (hn : backupSuffix <:+ n)
    (hfree : w.isDoomed n = false) : Safe { w with published := (n, content) :: w.published } where
  __ := h
  published := fun x hx => by
    rcases List.mem_cons.mp hx with rfl | hx
    · exact ⟨hne, hn⟩
    · exact h.published x hx
  doomed := fun m hm => by
    refine ⟨(h.doomed m hm).1, ?_⟩
    have hold := (h.doomed m hm).2
    have hmn : m ≠ n := fun he => Bool.noConfusion (hfree.symm.trans (he ▸ hm))
    show (find m w.dir).any (fun f => ((n, content) :: w.published).contains (m, f.content)) = false
    cases hf : find m w.dir with
    | none => rfl
    | some f =>
        rw [World.isPublished, hf] at hold
        have hhead : ((m, f.content) == (n, content)) = false :=
          beq_eq_false_iff_ne.mpr fun he => hmn (Prod.mk.inj he).1
        show ((n, content) :: w.published).contains (m, f.content) = false
        rw [List.contains_cons, hhead]
        exact hold

/-- A temporary file that is needed has not the name that is free. -/
theorem Safe.file_ne (hj : j ∈ w.jobs) (hk : j.stage.keeps = true)
    (hfree : find n w.dir = none) : j.file ≠ n := by
  obtain ⟨f, hf, -⟩ := h.there j hj hk
  intro he
  rw [he, hfree] at hf
  cases hf

/-- An empty file is made. -/
theorem Safe.create (hfree : find n w.dir = none) {written : Time} :
    Safe { w with dir := Folder.put n ⟨[], written⟩ w.dir } := by
  refine h.folder (fun j hj hk f hf => ⟨f, ?_, id⟩) fun m _ => ?_
  · rw [find_put_ne (h.file_ne hj hk hfree)]
    exact hf
  · by_cases hmn : m = n
    · exact .inr (.inr ⟨_, by rw [hmn, find_put_self], rfl⟩)
    · exact .inl (find_put_ne hmn)

/-- A file gets a second name, that no sweep is about to remove. -/
theorem Safe.give (hfree : find n w.dir = none) (hn : w.isDoomed n = false) {f : File} :
    Safe { w with dir := Folder.put n f w.dir } := by
  refine h.folder (fun j hj hk f hf => ⟨f, ?_, id⟩) fun m hm => .inl (find_put_ne ?_)
  · rw [find_put_ne (h.file_ne hj hk hfree)]
    exact hf
  · rintro rfl
    exact Bool.noConfusion (hn.symm.trans hm)

/-- More is written into a file that no sweep is about to remove. -/
theorem Safe.append (hn : w.isDoomed n = false) {data : Bytes} :
    Safe { w with dir := append n data w.clock w.dir } := by
  unfold Leftovers.append
  cases hfound : find n w.dir with
  | none => exact h
  | some f =>
    refine h.folder (fun j hj hk f' hf' => ?_) fun m hm => .inl (find_put_ne ?_)
    · by_cases hjn : j.file = n
      · rw [hjn, find_put_self]
        rw [hjn, hfound] at hf'
        cases hf'
        exact ⟨_, rfl, fun hne => List.append_ne_nil_of_left_ne_nil hne _⟩
      · exact ⟨f', by rw [find_put_ne hjn]; exact hf', id⟩
    · rintro rfl
      exact Bool.noConfusion (hn.symm.trans hm)

/-- A name is taken out that is no job's temporary file. -/
theorem Safe.remove (hn : ∀ j ∈ w.jobs, j.stage.keeps = true → j.file ≠ n) :
    Safe { w with dir := Folder.remove n w.dir } := by
  refine h.folder (fun j hj hk f hf => ⟨f, ?_, id⟩) fun m _ => ?_
  · rw [find_remove_ne (hn j hj hk)]
    exact hf
  · by_cases hmn : m = n
    · exact .inr (.inl (by rw [hmn, find_remove_self]))
    · exact .inl (find_remove_ne hmn)

/-- A backup's name is no job's temporary file. -/
theorem Safe.path_ne (hn : backupSuffix <:+ n) :
    ∀ j ∈ w.jobs, j.stage.keeps = true → j.file ≠ n := by
  rintro j hj hk rfl
  exact h.files j hj (keeps_temporary hk) hn

theorem Safe.discardEmpty (hn : backupSuffix <:+ n) :
    Safe { w with dir := discardEmpty n w.dir } := by
  unfold Leftovers.discardEmpty
  split
  · split
    · exact h.remove (h.path_ne hn)
    · exact h
  · exact h

/-- The temporary file of a job that is done with it. -/
theorem Safe.cleanUp (hj : j ∈ w.jobs) (htemporary : j.stage.temporary = true)
    {stage : Stage} (hstage : stage = .discarding ∧ j.stage.backup = true ∨ stage = .over) :
    Safe { w.put j stage with dir := Folder.remove j.file w.dir } := by
  have hput : Safe (w.put j stage) := by
    rcases hstage with ⟨rfl, hbackup⟩ | rfl
    · exact h.put hj (fun _ => hbackup) nofun nofun nofun nofun
    · exact h.put hj nofun nofun nofun nofun nofun
  refine hput.remove fun k hk hkeeps he => ?_
  rcases List.mem_cons.mp hk with rfl | hk
  · rcases hstage with ⟨rfl, -⟩ | rfl <;> cases hkeeps
  · exact h.others hj k hk j.file (holds_iff.mpr ⟨htemporary, rfl⟩)
      (holds_iff.mpr ⟨keeps_temporary hkeeps, he⟩)

/-- **The sweeps go on.** -/
theorem Safe.sweeping {sweeps : List Sweep}
    (hdoomed : ∀ s ∈ sweeps, ∀ n, s.doomed = some n → w.needed n = false ∧ w.isPublished n = false) :
    Safe { w with sweeps } where
  __ := h
  doomed := fun n hn => by
    obtain ⟨s, hs, hsn⟩ := List.any_eq_true.mp hn
    exact hdoomed s hs n (of_decide_eq_true hsn)

end

theorem isDoomed_of_mem (hs : s ∈ w.sweeps) (hn : s.doomed = some n) : w.isDoomed n = true :=
  List.any_eq_true.mpr ⟨s, hs, decide_eq_true hn⟩

/-- **What a sweep is about to remove** is neither needed nor a published backup, where the file of a
    job was written less than an hour before the sweep began. -/
theorem Safe.look (h : Safe w) {pending : List Name} (hp : s.pending = n :: pending)
    (hin : inTime w (.look s) = true)
    (hold : (find n w.dir).any (fun f =>
      decide (leftoverSeconds ≤ s.now - f.written) && isLeftover n f.content.length) = true) :
    w.needed n = false ∧ w.isPublished n = false := by
  obtain ⟨f, hf, hlooked⟩ := (Option.any_eq_true _ _).mp hold
  obtain ⟨hage, hleft⟩ := Bool.and_eq_true_iff.mp hlooked
  simp only [inTime, hp, hf, Option.all_some, Bool.or_eq_true, Bool.not_eq_true',
    decide_eq_true_eq] at hin
  refine ⟨hin.resolve_right fun hyoung => ?_, ?_⟩
  · exact absurd (of_decide_eq_true hage) (Int.not_le.mpr hyoung)
  · rw [World.isPublished, hf, Bool.eq_false_iff]
    intro hpublished
    obtain ⟨hne, hsuffix⟩ := h.published _ (List.contains_iff_mem.mp hpublished)
    rw [isLeftover, not_leftoverPattern hsuffix, Bool.false_or, Bool.and_eq_true, beq_iff_eq] at hleft
    exact hne (List.length_eq_zero_iff.mp hleft.1)

section Moving

variable {path file : Name} {stage : Stage} (h : Safe w) (hj : ⟨path, file, stage⟩ ∈ w.jobs)

include h hj

/-- The partial file is made under a name that no sweep removes and no other job has. -/
theorem Safe.jobMkstemp {random : Name}
    (hin : inTime w (.job ⟨path, file, stage⟩ (.mkstemp random)) = true)
    (hstep : jobStep w ⟨path, file, stage⟩ (.mkstemp random) = some w') : Safe w' := by
  obtain ⟨⟨hstage, htoken, hfree⟩, hw⟩ := Option.ite_none_right_eq_some.mp hstep
  cases hw
  obtain rfl : stage = .reserving := hstage
  obtain ⟨hdoomed, hholds⟩ := Bool.and_eq_true_iff.mp hin
  rw [Bool.not_eq_true'] at hdoomed
  have hpath : backupSuffix <:+ path := h.paths _ hj rfl
  refine (h.create hfree).jobs List.erase_sublist (fun _ => hpath)
    (fun _ => partialName_suffix path random) (fun k hk n hn hkn => ?_)
    (fun _ => ⟨_, find_put_self, nofun⟩) fun n hn => ?_
  · obtain ⟨-, rfl⟩ := holds_iff.mp hn
    have hnot := List.all_eq_true.mp hholds k (List.mem_of_mem_erase hk)
    rw [hkn] at hnot
    cases hnot
  · rcases mem_needs.mp hn with ⟨-, rfl⟩ | ⟨hs, -⟩
    · exact hdoomed
    · cases hs

/-- An empty reservation is taken away; where the name holds a file, the job cleans up. -/
theorem Safe.jobRelease (hstep : jobStep w ⟨path, file, stage⟩ .release = some w') : Safe w' := by
  have hpath : stage.backup = true → backupSuffix <:+ path := h.paths _ hj
  simp only [jobStep] at hstep
  split at hstep
  · cases hstep
    exact h.put hj (fun _ => rfl) (fun _ => rfl) (fun _ => rfl) (fun _ => .inl rfl)
      (by simp)
  · split at hstep
    · cases hstep
      exact (h.remove (h.path_ne (hpath rfl))).put hj (fun _ => rfl) (fun _ => rfl) (fun _ => rfl)
        (fun _ => .inl rfl) (by simp)
    · cases hstep
      exact h.putIdle hj rfl (fun _ => rfl) fun _ => rfl
  · cases hstep

/-- A hard link gives the backup its name, unless another file has it. -/
theorem Safe.jobLink (hin : inTime w (.job ⟨path, file, stage⟩ .link) = true)
    (hstep : jobStep w ⟨path, file, stage⟩ .link = some w') : Safe w' := by
  have hpath : stage.backup = true → backupSuffix <:+ path := h.paths _ hj
  simp only [inTime, Bool.not_eq_true'] at hin
  simp only [jobStep] at hstep
  split at hstep
  · rename_i f hfree hf
    cases hstep
    obtain ⟨f', hf', hne⟩ := h.there _ hj rfl
    obtain rfl := Option.some.inj (hf.symm.trans hf')
    have hgiven := (h.give hfree hin (f := f)).publish (hne rfl) (hpath rfl) hin
    exact hgiven.putIdle hj rfl (fun _ => rfl) fun _ => rfl
  · cases hstep
    exact h.putIdle hj rfl (fun _ => rfl) fun _ => rfl
  · cases hstep

/-- Where the folder has no hard links, an empty file of the backup's name is made to be filled. -/
theorem Safe.jobCopy (hin : inTime w (.job ⟨path, file, stage⟩ .copy) = true)
    (hstep : jobStep w ⟨path, file, stage⟩ .copy = some w') : Safe w' := by
  simp only [inTime, Bool.not_eq_true'] at hin
  simp only [jobStep] at hstep
  split at hstep
  · rename_i hfree
    cases hstep
    exact (h.create hfree).put hj (fun _ => rfl) (fun _ => rfl) (fun _ => rfl) (fun _ => .inl rfl)
      fun _ => hin
  · cases hstep
    exact h.putIdle hj rfl (fun _ => rfl) fun _ => rfl
  · cases hstep

/-- The copy is whole, and the partial file is what it was compared with. -/
theorem Safe.jobCopied (hstep : jobStep w ⟨path, file, stage⟩ .copied = some w') : Safe w' := by
  have hpath : stage.backup = true → backupSuffix <:+ path := h.paths _ hj
  simp only [jobStep] at hstep
  split at hstep
  · rename_i target origin htarget horigin
    obtain ⟨hsame, hw⟩ := Option.ite_none_right_eq_some.mp hstep
    cases hw
    obtain ⟨f, hf, hne⟩ := h.there _ hj rfl
    obtain rfl := Option.some.inj (horigin.symm.trans hf)
    have hfree := h.needs_free hj (mem_needs.mpr (.inr ⟨rfl, rfl⟩))
    exact (h.publish (hsame ▸ hne rfl) (hpath rfl) hfree).putIdle hj rfl (fun _ => rfl) fun _ => rfl
  · rename_i hnone
    obtain ⟨f, hf, -⟩ := h.there _ hj rfl
    cases hnone.symm.trans hf
  · cases hstep
    exact h.putIdle hj rfl (fun _ => rfl) fun _ => rfl
  · cases hstep

/-- A call fails: the job cleans up, and takes a copy begun away with it. -/
theorem Safe.jobFails (hstep : jobStep w ⟨path, file, stage⟩ .fails = some w') : Safe w' := by
  have hpath : stage.backup = true → backupSuffix <:+ path := h.paths _ hj
  cases stage <;> try cases hstep
  · exact h.putIdle hj rfl (fun _ => rfl) nofun
  · exact h.putIdle hj rfl (fun _ => rfl) fun _ => rfl
  · exact h.putIdle hj rfl (fun _ => rfl) fun _ => rfl
  · exact h.putIdle hj rfl (fun _ => rfl) fun _ => rfl
  · exact (h.remove (h.path_ne (hpath rfl))).putIdle hj rfl (fun _ => rfl) fun _ => rfl

end Moving

/-- **Every step of a job in time.** -/
theorem Safe.job (h : Safe w) (hj : j ∈ w.jobs) {m : Move} (hstep : jobStep w j m = some w')
    (hin : inTime w (.job j m) = true) : Safe w' := by
  rcases j with ⟨path, file, stage⟩
  have hneeds : stage.keeps = true → w.isDoomed file = false := fun hk =>
    h.needs_free hj (mem_needs.mpr (.inl ⟨hk, rfl⟩))
  cases m with
  | mkstemp random => exact h.jobMkstemp hj hin hstep
  | release => exact h.jobRelease hj hstep
  | link => exact h.jobLink hj hin hstep
  | copy => exact h.jobCopy hj hin hstep
  | copied => exact h.jobCopied hj hstep
  | fails => exact h.jobFails hj hstep
  | write data =>
    cases stage <;> try cases hstep
    · exact h.append (hneeds rfl)
    · exact h.append (hneeds rfl)
  | finish =>
    obtain ⟨⟨hstage, hsolid⟩, hw⟩ := Option.ite_none_right_eq_some.mp hstep
    cases hw
    obtain rfl : stage = .writing := hstage
    obtain ⟨f, hf, hne⟩ := (Option.any_eq_true _ _).mp hsolid
    exact h.put hj (fun _ => rfl) (fun _ => rfl) (fun _ => rfl)
      (fun _ => .inr ⟨f, hf, of_decide_eq_true hne⟩) nofun
  | copyMore data =>
    obtain ⟨hstage, hw⟩ := Option.ite_none_right_eq_some.mp hstep
    cases hw
    exact h.append (h.needs_free hj (mem_needs.mpr (.inr ⟨hstage, rfl⟩)))
  | read =>
    obtain ⟨hstage, hw⟩ := Option.ite_none_right_eq_some.mp hstep
    cases hw
    obtain rfl : stage = .receiving := hstage
    exact h.put hj nofun (fun _ => rfl) (fun _ => rfl) nofun
      nofun
  | cleanUp =>
    cases stage <;> try cases hstep
    · exact h.cleanUp hj rfl (.inl ⟨rfl, rfl⟩)
    · exact h.cleanUp hj rfl (.inr rfl)
    · exact h.cleanUp hj rfl (.inr rfl)
  | discard =>
    obtain ⟨hstage, hw⟩ := Option.ite_none_right_eq_some.mp hstep
    cases hw
    obtain rfl : stage = .discarding := hstage
    exact (h.discardEmpty (h.paths _ hj rfl)).putOver hj
  | kill =>
    cases hstep
    exact h.putOver hj

/-- The names that the other sweeps are about to remove. -/
theorem Safe.sweep (h : Safe w) {s' : Sweep}
    (hdoomed : ∀ n, s'.doomed = some n → w.needed n = false ∧ w.isPublished n = false) :
    Safe { w with sweeps := s' :: w.sweeps.erase s } := by
  refine h.sweeping fun t ht n hn => ?_
  rcases List.mem_cons.mp ht with rfl | ht
  · exact hdoomed n hn
  · exact h.doomed n (isDoomed_of_mem (List.mem_of_mem_erase ht) hn)

/-- **A sweep removes a name.** -/
theorem Safe.swept (h : Safe w) (hs : s ∈ w.sweeps) (hn : s.doomed = some n) :
    Safe { w with
      dir := Folder.remove n w.dir
      sweeps := { s with doomed := none } :: w.sweeps.erase s
      removals := if (find n w.dir).isSome then ⟨n, w.needed n, w.isPublished n⟩ :: w.removals
        else w.removals } := by
  obtain ⟨hneeded, hpublished⟩ := h.doomed n (isDoomed_of_mem hs hn)
  have hfile : ∀ j ∈ w.jobs, j.stage.keeps = true → j.file ≠ n := by
    rintro j hj hk rfl
    rw [needed_iff.mpr ⟨j, hj, mem_needs.mpr (.inl ⟨hk, rfl⟩)⟩] at hneeded
    cases hneeded
  have hnext : Safe { w with
      dir := Folder.remove n w.dir
      sweeps := { s with doomed := none } :: w.sweeps.erase s } := (h.remove hfile).sweep nofun
  refine ⟨hnext.published, hnext.paths, hnext.files, hnext.apart, hnext.there, hnext.doomed, ?_⟩
  intro r hr
  split at hr
  · rcases List.mem_cons.mp hr with rfl | hr
    · exact ⟨hneeded, hpublished⟩
    · exact h.removals r hr
  · exact h.removals r hr

theorem step_safe {a : Action} (hstep : step w a = some w') (hin : inTime w a = true) (h : Safe w) :
    Safe w' := by
  cases a with
  | tick passed =>
    cases hstep
    exact { h with }
  | reserve stem moment =>
    obtain ⟨name, hname, rfl⟩ := Option.map_eq_some_iff.mp hstep
    obtain ⟨hnot, ordinal, hmade⟩ := reserve_name (w := ⟨names w.dir, []⟩) hname
    have hfree : find name w.dir = none := by
      rw [← Option.not_isSome_iff_eq_none]
      exact fun hsome => hnot (mem_names_iff.mpr hsome)
    exact (h.create hfree).jobs (List.Sublist.refl _)
      (fun _ => hmade ▸ backupFilename_suffix stem moment ordinal) nofun
      nofun nofun nofun
  | upload random =>
    obtain ⟨⟨htoken, hfree⟩, hw⟩ := Option.ite_none_right_eq_some.mp hstep
    cases hw
    obtain ⟨hdoomed, hholds⟩ := Bool.and_eq_true_iff.mp hin
    rw [Bool.not_eq_true'] at hdoomed
    refine (h.create hfree).jobs (List.Sublist.refl _) nofun (fun _ => uploadName_suffix htoken)
      (fun k hk n hn hkn => ?_) (fun _ => ⟨_, find_put_self, nofun⟩) fun n hn => ?_
    · obtain ⟨-, rfl⟩ := holds_iff.mp hn
      have hnot := List.all_eq_true.mp hholds k hk
      rw [hkn] at hnot
      cases hnot
    · rcases mem_needs.mp hn with ⟨-, rfl⟩ | ⟨hs, -⟩
      · exact hdoomed
      · cases hs
  | job j m =>
    obtain ⟨hj, hstep⟩ := Option.ite_none_right_eq_some.mp hstep
    exact h.job hj hstep hin
  | sweep =>
    cases hstep
    refine h.sweeping fun s hs n hn => ?_
    rcases List.mem_cons.mp hs with rfl | hs
    · cases hn
    · exact h.doomed n (isDoomed_of_mem hs hn)
  | look s =>
    obtain ⟨-, hstep⟩ := Option.ite_none_right_eq_some.mp hstep
    split at hstep
    · cases hstep
    · rename_i n pending hp
      cases hstep
      refine h.sweep fun m hm => ?_
      obtain ⟨hold, hmn⟩ := Option.ite_none_right_eq_some.mp hm
      exact Option.some.inj hmn ▸ h.look hp hin hold
  | remove s =>
    simp only [step] at hstep
    split at hstep
    · rename_i n hn
      obtain ⟨hs, hw⟩ := Option.ite_none_right_eq_some.mp hstep
      cases hw
      exact h.swept hs hn
    · cases hstep

/-! ## 6. Sweeps spare what jobs need -/

/-- **A sweep in time spares the files of jobs**: in every run whose steps are in time no file is
    removed that a running job has still to verify, publish or read, and no published backup. -/
theorem sweep_spares {clock : Time} {dir : Dir} {as : List Action}
    (hrun : run step (World.start clock dir) as = some w)
    (hin : Along step (fun w a => inTime w a = true) (World.start clock dir) as) :
    ∀ r ∈ w.removals, r.needed = false ∧ r.published = false :=
  (run_invariant_along (fun _ _ _ hstep hin hs => step_safe hstep hin hs) hrun hin
    (safe_start clock dir)).removals

def nightly : Name := backupFilename ['n'] Audit.noon 1

def token : Name := ['a', 'b', 'c', 'd', 'e', 'f', 'g', 'h']

def nightlyJob (stage : Stage) : Job :=
  ⟨nightly, if stage = .reserving then [] else partialName nightly token, stage⟩

def does (stage : Stage) (m : Move) : Action := .job (nightlyJob stage) m

/-- A backup up to the partial file, which is written at once. -/
def written : List Action :=
  [.reserve ['n'] Audit.noon, does .reserving (.mkstemp token), does .writing (.write [1]),
    does .writing .finish]

/-- The sweep that finds the partial file first, and removes it. -/
def swept : List Action :=
  [.sweep, .look ⟨3600, [partialName nightly token, nightly], none⟩,
    .remove ⟨3600, [nightly], some (partialName nightly token)⟩]

/-- The partial file of a backup whose process was killed. -/
def afterKill : List Action := written ++ [does .checking .kill, .tick 3600] ++ swept

theorem sweep_spares_afterKill : ∃ w, run step (World.start 0 []) afterKill = some w ∧
    w.removals.length = 1 ∧ ∀ r ∈ w.removals, r.needed = false ∧ r.published = false := by
  obtain ⟨w, hw⟩ : ∃ w, run step (World.start 0 []) afterKill = some w := by
    rw [← Option.isSome_iff_exists]
    decide +kernel
  have hone : (run step (World.start 0 []) afterKill).map (fun w => w.removals.length) = some 1 := by
    decide +kernel
  rw [hw, Option.map_some, Option.some.injEq] at hone
  exact ⟨w, hw, hone, sweep_spares hw (by decide +kernel)⟩

/-- The verification goes on for an hour. -/
def longCheck : List Action := written ++ [.tick 3600] ++ swept

/-- The backup is written for an hour; the sweep finds its empty reservation, and removes the name
    when it is that of the backup. -/
def longWrite : List Action :=
  [.reserve ['n'] Audit.noon, does .reserving (.mkstemp token), .tick 3600,
    does .writing (.write [1]), does .writing .finish, .sweep,
    .look ⟨3600, [partialName nightly token, nightly], none⟩, .look ⟨3600, [nightly], none⟩,
    does .checking .release, does .publishing .link, .remove ⟨3600, [], some nightly⟩]

theorem sweep_takes :
    (∃ w, run step (World.start 0 []) longCheck = some w ∧ ∃ r ∈ w.removals, r.needed = true) ∧
    ∃ w, run step (World.start 0 []) longWrite = some w ∧ ∃ r ∈ w.removals, r.published = true := by
  have hcheck : (run step (World.start 0 []) longCheck).any
      (fun w => w.removals.any Removal.needed) = true := by decide +kernel
  have hwrite : (run step (World.start 0 []) longWrite).any
      (fun w => w.removals.any Removal.published) = true := by decide +kernel
  obtain ⟨w, hw, hr⟩ := (Option.any_eq_true _ _).mp hcheck
  obtain ⟨v, hv, hs⟩ := (Option.any_eq_true _ _).mp hwrite
  exact ⟨⟨w, hw, List.any_eq_true.mp hr⟩, ⟨v, hv, List.any_eq_true.mp hs⟩⟩

end Dbs.Leftovers

/-
  File:      Dbs/Files/Install.lean
  Subject:   INSTALLING BACKUPS (tee.py, place_without_replacing and install_backup; io.py,
             publish_new): any number of programs, each with a finished file that is to get a name
             nobody has.

  * `Placing`, `placeStep` -- `install_backup`, a turn of its loop for every name it tries, call by
    call;
  * `step` -- one call of one installer, or a file that another program creates;
  * `Unoccupied` -- a rename that finds nothing under its new name;
  * `Sound` -- the invariant; `step_sound`, `step_settled` -- a step keeps it, and the files;
  * `installs_keep` -- a run; `installs_replace` -- two installers without hard links.
-/
import Dbs.Files.Directory
import Dbs.Lib.Runs

namespace Dbs.Install

open Octets Directory Runs

/-! ## 1. The installers -/

def maxOrdinal : Nat := 999

/-- `backup_filename`, the moment as it is stamped. -/
def backupFilename (stem stamp : String) (ordinal : Nat) : String :=
  stem ++ "-" ++ stamp ++ "Z" ++ (if ordinal ≤ 1 then "" else "-" ++ toString ordinal) ++ ".dbs"

/-- The names `install_backup` tries. -/
def candidates (stem stamp : String) : List String :=
  (List.range' 1 maxOrdinal).map (backupFilename stem stamp)

/-- `NO_HARD_LINKS`. -/
def noHardLinks : Errno → Bool
  | .eperm => true
  | .enotsup => true
  | .eopnotsupp => true
  | .enosys => true
  | .exdev => true
  | .eacces => false
  | .emlink => false
  | .other => false

/-- Where `install_backup` is: a call of `place_without_replacing`, and the names not tried yet. -/
inductive Placing
  | linking (name : String) (rest : List String)
  | checking (name : String) (rest : List String)
  | moving (name : String) (rest : List String)
  | unlinking (name : String)
  | returned (name : String)
  | raised

/-- The next turn of the loop, or the end of it. -/
def Placing.try : List String → Placing
  | [] => .raised
  | name :: rest => .linking name rest

def placeStep (i : Nat) (d : Dir) : Placing → Answer → Option (Dir × Placing)
  | .linking name rest, .returns =>
    match d.names (.file name), d.names (.temporary i) with
    | some _, _ => some (d, .try rest)
    | none, none => some (d, .raised)
    | none, some ino => some (d.bind (.file name) ino, .unlinking name)
  | .linking name rest, .raises e => some (d, if noHardLinks e then .checking name rest else .raised)
  | .linking _ _, .missing => some (d, .raised)
  -- lexists takes an error for a name that is free
  | .checking name rest, .returns =>
    some (d, if (d.names (.file name)).isSome then .try rest else .moving name rest)
  | .checking name rest, .raises _ => some (d, .moving name rest)
  | .checking _ _, .missing => some (d, .raised)
  | .moving name _, .returns =>
    match d.names (.temporary i) with
    | none => some (d, .raised)
    | some ino => some ((d.unlink (.temporary i)).bind (.file name) ino, .returned name)
  | .moving _ _, .raises _ => some (d, .raised)
  | .moving _ _, .missing => some (d, .raised)
  | .unlinking name, .returns =>
    match d.names (.temporary i) with
    | none => some (d, .raised)
    | some _ => some (d.unlink (.temporary i), .returned name)
  | .unlinking _, .raises _ => some (d, .raised)
  | .unlinking _, .missing => some (d, .raised)
  | _, _ => none

/-- Where an installer is. -/
inductive Phase
  | place (p : Placing)
  | publish (p : Publishing)

/-- A finished temporary file, and the names `place_without_replacing` is called with for it, one after
    another, or the one that `publish_new` is. -/
structure Installer where
  content : Bytes
  places : Option (List String)
  publishes : String

/-- `install_backup`. -/
def installBackup (content : Bytes) (stem stamp : String) : Installer where
  content := content
  places := some (candidates stem stamp)
  publishes := ""

/-- `publish_new`. -/
def publishNew (content : Bytes) (name : String) : Installer where
  content := content
  places := none
  publishes := name

/-- The folder and the installers. -/
structure State where
  dir : Dir
  phases : Nat → Phase
  made : Nat

inductive Act
  | call (i : Nat) (answer : Answer)
  | create (name : String) (content : Bytes)

section Installing

variable (installers : Nat → Installer)

/-- One call of one installer. -/
def step (s : State) : Act → Option State
  | .call i answer =>
    match s.phases i with
    | .place p => (placeStep i s.dir p answer).map fun (d, p) =>
      { s with dir := d, phases := Function.update s.phases i (.place p) }
    | .publish p => (publishStep i (installers i).publishes s.dir p answer).map fun (d, p) =>
      { s with dir := d, phases := Function.update s.phases i (.publish p) }
  | .create name content =>
    match s.dir.names (.file name) with
    | some _ => none
    | none =>
      some { s with
        dir := (s.dir.fill (.made s.made) content).bind (.file name) (.made s.made)
        made := s.made + 1 }

/-- The directory before, every installer with its temporary file. -/
def start (existing : String → Option Bytes) : State where
  dir := {
    names
      | .file name => (existing name).map fun _ => .was name
      | .temporary i => some (.temporary i)
    data
      | .was name => (existing name).getD []
      | .temporary i => (installers i).content
      | _ => [] }
  phases i :=
    match (installers i).places with
    | some names => .place (.try names)
    | none => .publish .linking
  made := 0

/-- The name an installer has returned with. -/
def returned (s : State) (i : Nat) : Option String :=
  match s.phases i with
  | .place (.returned name) => some name
  | .publish .done => some (installers i).publishes
  | _ => none

/-- A rename onto a name that is taken. -/
def overwrites (s : State) : Act → Bool
  | .call i .returns =>
    match s.phases i with
    | .place (.moving name _) => (s.dir.names (.file name)).isSome
    | _ => false
  | _ => false

/-- A rename finds nothing under its new name. -/
def Unoccupied (s : State) (a : Act) : Prop := overwrites s a = false

instance (s : State) (a : Act) : Decidable (Unoccupied s a) := inferInstanceAs (Decidable (_ = false))

/-- A file that is there, and no copy that is still being made. -/
def Settled (s : State) (name : String) (content : Bytes) : Prop :=
  ∃ ino, s.dir.names (.file name) = some ino ∧ s.dir.data ino = content ∧
    ∀ i p rest, s.phases i = .publish p → (p = .copying rest ∨ p = .undoing) → ino ≠ .copied i

end Installing

/-! ## 2. One installer -/

section Place

variable {i : Nat} {content : Bytes} {d d' : Dir} {at_ next : Placing} {answer : Answer} {ino : Inode}

def Placing.Sound (i : Nat) (content : Bytes) (d : Dir) : Placing → Prop
  | .linking _ _ => d.Unplaced i ∧ d.Source i content
  | .checking _ _ => d.Unplaced i ∧ d.Source i content
  | .moving _ _ => d.Unplaced i ∧ d.Source i content
  | .unlinking name => d.Placed i name content ∧ d.names (.temporary i) = some (.temporary i)
  | .returned name => d.Placed i name content
  | .raised => True

theorem Placing.Sound.stable {Mine : Inode → Prop} (h : Placing.Sound i content d at_)
    (hstep : Guarantee Mine d d') (hmine : ∀ ino, ino.Of i → ¬ Mine ino) :
    Placing.Sound i content d' at_ := by
  cases at_ with
  | linking _ _ | checking _ _ | moving _ _ =>
    exact ⟨h.1.stable hstep hmine, h.2.stable hstep hmine⟩
  | unlinking name => exact ⟨h.1.stable hstep hmine, hstep.kept _ _ h.2 (hmine _ .temporary)⟩
  | returned name => exact Dir.Placed.stable h hstep hmine
  | raised => trivial

theorem try_sound (hunplaced : d.Unplaced i) (hsource : d.Source i content) (rest : List String) :
    Placing.Sound i content d (.try rest) := by
  cases rest with
  | nil => trivial
  | cons name rest => exact ⟨hunplaced, hsource⟩

/-- What a call does to the directory: nothing, a name for the file where there was none, a move onto
    a name, or the temporary name taken away. -/
inductive Places (i : Nat) (d : Dir) (at_ : Placing) (answer : Answer) : Dir → Prop
  | nothing : Places i d at_ answer d
  | link (name : String) (ino : Inode) (hsource : d.names (.temporary i) = some ino)
      (hfree : d.names (.file name) = none) (rest : List String) (hat : at_ = .linking name rest) :
      Places i d at_ answer (d.bind (.file name) ino)
  | move (name : String) (ino : Inode) (hsource : d.names (.temporary i) = some ino)
    (rest : List String)
      (hat : at_ = .moving name rest) (hanswer : answer = .returns) :
      Places i d at_ answer ((d.unlink (.temporary i)).bind (.file name) ino)
  | unlink (name : String) (hat : at_ = .unlinking name) :
    Places i d at_ answer (d.unlink (.temporary i))

theorem placeStep_places (h : placeStep i d at_ answer = some (d', next)) :
    Places i d at_ answer d' := by
  unfold placeStep at h
  split at h
  · split at h
    · cases h; exact .nothing
    · cases h; exact .nothing
    · rename_i ino hfree hino
      cases h
      exact .link _ ino hino hfree _ rfl
  · cases h; exact .nothing
  · cases h; exact .nothing
  · cases h; exact .nothing
  · cases h; exact .nothing
  · cases h; exact .nothing
  · split at h
    · cases h; exact .nothing
    · rename_i ino hino
      cases h
      exact .move _ ino hino _ rfl rfl
  · cases h; exact .nothing
  · cases h; exact .nothing
  · split at h
    · cases h; exact .nothing
    · cases h
      exact .unlink _ rfl
  · cases h; exact .nothing
  · cases h; exact .nothing
  · exact nomatch h

/-- A move onto a name that was free is as good as a link. -/
theorem placed_move {name : String} (hsource : d.Source i content) :
    ((d.unlink (.temporary i)).bind (.file name) (.temporary i)).Placed i name content :=
  ⟨.temporary i, .temporary, Dir.bind_self, hsource.data⟩

theorem placed_unlink {name : String} (h : d.Placed i name content) (j : Nat) :
    (d.unlink (.temporary j)).Placed i name content := by
  obtain ⟨ino, hof, hname, hdata⟩ := h
  exact ⟨ino, hof, (Dir.unlink_of_ne Place.file_ne).trans hname, hdata⟩

/-- **Its own steps**: where `install_backup` is next. -/
theorem placeStep_sound (h : placeStep i d at_ answer = some (d', next))
    (hsound : Placing.Sound i content d at_) : Placing.Sound i content d' next := by
  cases at_ with
  | linking name rest =>
    obtain ⟨hunplaced, hsource⟩ := hsound
    cases answer with
    | returns =>
      rw [placeStep] at h
      split at h
      · cases h
        exact try_sound hunplaced hsource rest
      · cases h
        trivial
      · rename_i ino _ hino
        cases h
        cases hsource.name.symm.trans hino
        exact ⟨placed_bind hsource, (Dir.bind_of_ne Place.temporary_ne).trans hsource.name⟩
    | missing =>
      cases h
      trivial
    | raises e =>
      rw [placeStep] at h
      cases h
      split
      · exact ⟨hunplaced, hsource⟩
      · trivial
    | takes n => exact nomatch h
  | checking name rest =>
    obtain ⟨hunplaced, hsource⟩ := hsound
    cases answer with
    | returns =>
      rw [placeStep] at h
      cases h
      split
      · exact try_sound hunplaced hsource rest
      · exact ⟨hunplaced, hsource⟩
    | missing =>
      cases h
      trivial
    | raises e =>
      cases h
      exact ⟨hunplaced, hsource⟩
    | takes n => exact nomatch h
  | moving name rest =>
    obtain ⟨-, hsource⟩ := hsound
    cases answer with
    | returns =>
      rw [placeStep, hsource.name] at h
      cases h
      exact placed_move hsource
    | missing =>
      cases h
      trivial
    | raises e =>
      cases h
      trivial
    | takes n => exact nomatch h
  | unlinking name =>
    cases answer with
    | returns =>
      rw [placeStep] at h
      split at h
      · cases h
        trivial
      · cases h
        exact placed_unlink hsound.1 i
    | missing =>
      cases h
      trivial
    | raises e =>
      cases h
      trivial
    | takes n => exact nomatch h
  | returned _ | raised => cases answer <;> exact nomatch h

-- what is asked of a rename
variable (hfree : ∀ name rest, at_ = .moving name rest → answer = .returns →
    d.names (.file name) = none)
include hfree

/-- What `install_backup` leaves alone, where a rename finds nothing under its new name. -/
theorem placeStep_guarantee (h : placeStep i d at_ answer = some (d', next))
    (hsound : Placing.Sound i content d at_) : Guarantee (Inode.Of i) d d' := by
  have hplace : ∀ {name} j, Place.file name = .temporary j → Inode.Of i (.temporary j) := nofun
  have hown : d.names (.temporary i) = some (.temporary i) →
      Guarantee (Inode.Of i) d (d.unlink (.temporary i)) := by
    intro hsource
    refine .unlink (fun ino hino => ?_) fun j hj => Place.temporary.inj hj ▸ .temporary
    cases hsource.symm.trans hino
    exact .temporary
  cases placeStep_places h with
  | nothing => exact .refl
  | link name ino hsource hnone rest hat =>
    subst hat
    cases hsound.2.name.symm.trans hsource
    exact .bind .temporary hnone hplace
  | move name ino hsource rest hat hanswer =>
    have hnone := hfree name rest hat hanswer
    subst hat
    cases hsound.2.name.symm.trans hsource
    exact (hown hsound.2.name).trans
      (.bind .temporary ((Dir.unlink_of_ne Place.file_ne).trans hnone) hplace)
  | unlink name hat =>
    subst hat
    exact hown hsound.2

theorem placeStep_keeps (h : placeStep i d at_ answer = some (d', next)) {other : String}
    (hname : d.names (.file other) = some ino) :
    d'.names (.file other) = some ino ∧ d'.data ino = d.data ino := by
  have hne : ∀ {name}, d.names (.file name) = none → Place.file other ≠ .file name :=
    fun hnone he => nomatch (he ▸ hname).symm.trans hnone
  have hunlinked : (d.unlink (.temporary i)).names (.file other) = some ino :=
    (Dir.unlink_of_ne Place.file_ne).trans hname
  cases placeStep_places h with
  | nothing => exact ⟨hname, rfl⟩
  | link name source hsource hnone rest hat => exact ⟨(Dir.bind_of_ne (hne hnone)).trans hname, rfl⟩
  | move name source hsource rest hat hanswer =>
    exact ⟨(Dir.bind_of_ne (hne (hfree name rest hat hanswer))).trans hunlinked, rfl⟩
  | unlink name hat => exact ⟨hunlinked, rfl⟩

end Place

/-! ## 3. All of them -/

section Run

variable {installers : Nat → Installer} {s t : State} {a : Act} {i : Nat}

def Phase.Sound (installers : Nat → Installer) (i : Nat) (d : Dir) : Phase → Prop
  | .place p => p.Sound i (installers i).content d
  | .publish p => p.Sound i (installers i).publishes (installers i).content d

/-- The invariant. -/
structure Sound (installers : Nat → Installer) (s : State) : Prop where
  installer : ∀ i, (s.phases i).Sound installers i s.dir
  made : ∀ name k, s.dir.names (.file name) = some (.made k) → k < s.made

theorem Phase.Sound.stable {Mine : Inode → Prop} {d d' : Dir} {p : Phase} (h : p.Sound installers i d)
    (hstep : Guarantee Mine d d') (hmine : ∀ ino, ino.Of i → ¬ Mine ino) : p.Sound installers i d' := by
  cases p with
  | place p => exact Placing.Sound.stable h hstep hmine
  | publish p => exact Publishing.Sound.stable h hstep hmine

theorem sound_start (existing : String → Option Bytes) :
    Sound installers (start installers existing) where
  installer i := by
    have hunplaced : (start installers existing).dir.Unplaced i := by
      intro name ino hino hof
      obtain ⟨bytes, -, rfl⟩ := Option.map_eq_some_iff.mp hino
      exact nomatch hof
    have hsource : (start installers existing).dir.Source i (installers i).content := ⟨rfl, rfl⟩
    show Phase.Sound installers i _ (match (installers i).places with
      | some names => .place (.try names)
      | none => .publish .linking)
    split
    · exact try_sound hunplaced hsource _
    · exact ⟨hunplaced, hsource⟩
  made name k hname := by
    obtain ⟨bytes, -, h⟩ := Option.map_eq_some_iff.mp hname
    exact nomatch h

/-- A call of one installer, whichever way it installs. -/
inductive Called (installers : Nat → Installer) (i : Nat) (answer : Answer) (s : State) : State → Prop
  | place (p next : Placing) (d : Dir) (hat : s.phases i = .place p)
      (h : placeStep i s.dir p answer = some (d, next)) :
      Called installers i answer s
        { s with dir := d, phases := Function.update s.phases i (.place next) }
  | publish (p next : Publishing) (d : Dir) (hat : s.phases i = .publish p)
      (h : publishStep i (installers i).publishes s.dir p answer = some (d, next)) :
      Called installers i answer s
        { s with dir := d, phases := Function.update s.phases i (.publish next) }

variable {answer : Answer}

theorem step_called (h : step installers s (.call i answer) = some t) :
    Called installers i answer s t := by
  rw [step] at h
  split at h
  · rename_i p hat
    obtain ⟨⟨d, next⟩, hnext, rfl⟩ := Option.map_eq_some_iff.mp h
    exact .place p next d hat hnext
  · rename_i p hat
    obtain ⟨⟨d, next⟩, hnext, rfl⟩ := Option.map_eq_some_iff.mp h
    exact .publish p next d hat hnext

/-- A rename that finds nothing, as `placeStep` is asked for it. -/
theorem Unoccupied.moving {p : Placing} (h : Unoccupied s (.call i answer))
    (hat : s.phases i = .place p) :
    ∀ name rest, p = .moving name rest → answer = .returns → s.dir.names (.file name) = none := by
  intro name rest hp hanswer
  subst hp hanswer
  simpa only [Unoccupied, overwrites, hat, Option.isSome_eq_false_iff,
    Option.isNone_iff_eq_none] using h

/-- **A call of one installer** leaves alone what is not its own, and is sound for itself. -/
theorem called_sound (h : Called installers i answer s t)
    (hfree : Unoccupied s (.call i answer)) (hsound : Sound installers s) :
    Guarantee (Inode.Of i) s.dir t.dir ∧ (t.phases i).Sound installers i t.dir ∧
      (∀ j, j ≠ i → t.phases j = s.phases j) ∧ t.made = s.made := by
  have hi := hsound.installer i
  cases h with
  | place p next d hat h =>
    rw [hat] at hi
    refine ⟨placeStep_guarantee (hfree.moving hat) h hi, ?_,
      fun j hj => Function.update_of_ne hj _ _, rfl⟩
    simp only [Function.update_self]
    exact placeStep_sound h hi
  | publish p next d hat h =>
    rw [hat] at hi
    refine ⟨publishStep_guarantee h hi, ?_, fun j hj => Function.update_of_ne hj _ _, rfl⟩
    simp only [Function.update_self]
    exact publishStep_sound h hi

variable {name : String}

/-- The file another program creates is not one that is there. -/
theorem create_guarantee (content : Bytes) (hnone : s.dir.names (.file name) = none) :
    Guarantee (· = .made s.made) s.dir
      ((s.dir.fill (.made s.made) content).bind (.file name) (.made s.made)) := by
  have hfill : Guarantee (· = .made s.made) s.dir (s.dir.fill (.made s.made) content) := .fill rfl
  exact hfill.trans (.bind rfl hnone fun _ h => nomatch h)

/-- **One step** keeps the invariant. -/
theorem step_sound (h : step installers s a = some t) (hfree : Unoccupied s a)
    (hsound : Sound installers s) :
    Sound installers t := by
  cases a with
  | call i answer =>
    obtain ⟨hstep, hi, hothers, hmade⟩ := called_sound (step_called h) hfree hsound
    refine ⟨fun j => ?_, fun name k hname => ?_⟩
    · by_cases hj : j = i
      · subst hj
        exact hi
      · rw [hothers j hj]
        exact (hsound.installer j).stable hstep fun ino hof hof' => hj (hof.unique hof')
    · rw [hmade]
      exact hsound.made name k (hstep.fresh _ _ hname nofun)
  | create name content =>
    rw [step] at h
    split at h
    · exact nomatch h
    rename_i hnone
    cases h
    have hstep : Guarantee (· = .made s.made) s.dir _ := create_guarantee content hnone
    refine ⟨fun j => (hsound.installer j).stable hstep ?_, fun other k hother => ?_⟩
    · rintro ino hof rfl
      exact nomatch hof
    · by_cases hk : k = s.made
      · exact hk ▸ Nat.lt_succ_self _
      · exact Nat.lt_succ_of_lt (hsound.made other k
          (hstep.fresh _ _ hother fun he => hk (Inode.made.inj he)))

/-- **One step** leaves every file that is settled as it is. -/
theorem step_settled (h : step installers s a = some t) (hfree : Unoccupied s a)
    (hsound : Sound installers s) {content : Bytes} (hsettled : Settled s name content) :
    Settled t name content := by
  obtain ⟨ino, hname, hdata, hcopy⟩ := hsettled
  cases a with
  | call i answer =>
    have hi := hsound.installer i
    cases step_called h with
    | place p next d hat hcall =>
      obtain ⟨hname', hdata'⟩ := placeStep_keeps (hfree.moving hat) hcall hname
      refine ⟨ino, hname', hdata'.trans hdata, fun j q rest hj hq => ?_⟩
      by_cases hji : j = i
      · subst hji
        simp only [Function.update_self] at hj
        exact nomatch hj
      · exact hcopy j q rest ((Function.update_of_ne hji _ _).symm.trans hj) hq
    | publish p next d hat hcall =>
      rw [hat] at hi
      obtain ⟨hname', hdata'⟩ := publishStep_keeps hcall hi hname fun rest hp => hcopy i p rest hat hp
      refine ⟨ino, hname', hdata'.trans hdata, fun j q rest hj hq => ?_⟩
      by_cases hji : j = i
      · subst hji
        simp only [Function.update_self] at hj
        cases hj
        -- the copy had no name before it was created
        rcases publishStep_copying hcall hq with hopening | ⟨before, hbefore⟩
        · subst hopening
          intro he
          exact hi.1 name ino hname (he ▸ .copied)
        · exact hcopy j p before hat hbefore
      · exact hcopy j q rest ((Function.update_of_ne hji _ _).symm.trans hj) hq
  | create other bytes =>
    rw [step] at h
    split at h
    · exact nomatch h
    rename_i hnone
    cases h
    have hstep : Guarantee (· = .made s.made) s.dir _ := create_guarantee bytes hnone
    have hne : ino ≠ .made s.made := fun he => Nat.lt_irrefl _ (hsound.made name _ (he ▸ hname))
    exact ⟨ino, hstep.kept _ _ hname hne, (hstep.data ino hne).trans hdata, hcopy⟩

theorem settled_start (existing : String → Option Bytes) {content : Bytes}
    (h : existing name = some content) : Settled (start installers existing) name content := by
  refine ⟨.was name, ?_, ?_, fun _ _ _ _ _ => nofun⟩
  · show (existing name).map _ = _
    rw [h]
    rfl
  · show (existing name).getD [] = content
    rw [h]
    rfl

/-- **An installer that has returned** has its whole file under the name it returned. -/
theorem returned_placed (hsound : Sound installers s)
    (h : returned installers s i = some name) : s.dir.Placed i name (installers i).content := by
  have hi := hsound.installer i
  rw [returned] at h
  split at h
  · rename_i hat
    cases h
    rw [hat] at hi
    exact hi
  · rename_i hat
    cases h
    rw [hat] at hi
    exact hi
  · exact nomatch h

/-- **Installing a backup replaces no other**, in every run in which each rename finds nothing under
    its new name: a file that was under a name at some moment of the run (before its start, or since),
    and is no copy in the making, is there at the end with the same bytes; an installer that has
    returned has its whole file under the name it returned; and no two have returned one name. -/
theorem installs_keep (existing : String → Option Bytes) {as bs : List Act}
    (hs : run (step installers) (start installers existing) as = some s)
    (ht : run (step installers) s bs = some t)
    (hfree : Along (step installers) Unoccupied (start installers existing) (as ++ bs)) :
    (∀ name content, existing name = some content → t.dir.Holds name content) ∧
      (∀ name content, Settled s name content → t.dir.Holds name content) ∧
      (∀ i name, returned installers t i = some name → t.dir.Holds name (installers i).content) ∧
      ∀ i j name, returned installers t i = some name → returned installers t j = some name →
      i = j := by
  have hstep : ∀ {name content} u a v, step installers u a = some v → Unoccupied u a →
      Sound installers u ∧ Settled u name content → Sound installers v ∧ Settled v name content :=
    fun u a v h hc hu => ⟨step_sound h hc hu.1, step_settled h hc hu.1 hu.2⟩
  have hholds : ∀ {name content}, Settled t name content → t.dir.Holds name content :=
    fun ⟨ino, hname, hdata, _⟩ => ⟨ino, hname, hdata⟩
  obtain ⟨hfirst, hsecond⟩ := along_append.mp hfree
  have hsound : ∀ {u v : State} {cs : List Act}, run (step installers) u cs = some v →
      Along (step installers) Unoccupied u cs → Sound installers u → Sound installers v :=
    run_invariant_along fun u a v h hc hu => step_sound h hc hu
  have hsound_s := hsound hs hfirst (sound_start existing)
  have hsound_t := hsound ht (hsecond s hs) hsound_s
  refine ⟨fun name content h => ?_, fun name content h => ?_, fun i name hi => ?_,
    fun i j name hi hj => ?_⟩
  · have hwhole := run_append_eq_some.mpr ⟨s, hs, ht⟩
    exact hholds (run_invariant_along hstep hwhole hfree
      ⟨sound_start existing, settled_start existing h⟩).2
  · exact hholds (run_invariant_along hstep ht (hsecond s hs) ⟨hsound_s, h⟩).2
  · obtain ⟨ino, -, hname, hdata⟩ := returned_placed hsound_t hi
    exact ⟨ino, hname, hdata⟩
  · obtain ⟨ino, hof, hname, -⟩ := returned_placed hsound_t hi
    obtain ⟨other, hof', hname', -⟩ := returned_placed hsound_t hj
    cases hname.symm.trans hname'
    exact hof.unique hof'

end Run

/-- Two backups of one second. -/
def two : Nat → Installer
  | 0 => installBackup [1] "web" "20260101-000000"
  | _ => installBackup [2] "web" "20260101-000000"

/-- The first finds no hard links, looks and moves; the second has links, and takes the next name. -/
theorem installs_keep_two :
    ∃ s t, run (step two) (start two fun _ => none)
        [.call 0 (.raises .eperm), .call 0 .returns, .call 0 .returns] = some s ∧
      run (step two) s [.call 1 .returns, .call 1 .returns, .call 1 .returns] = some t ∧
      t.dir.Holds (backupFilename "web" "20260101-000000" 1) [1] ∧
      t.dir.Holds (backupFilename "web" "20260101-000000" 2) [2] := by
  have hruns : ∃ s t, run (step two) (start two fun _ => none)
        [.call 0 (.raises .eperm), .call 0 .returns, .call 0 .returns] = some s ∧
      run (step two) s [.call 1 .returns, .call 1 .returns, .call 1 .returns] = some t ∧
      returned two t 0 = some (backupFilename "web" "20260101-000000" 1) ∧
      returned two t 1 = some (backupFilename "web" "20260101-000000" 2) := ⟨_, _, rfl, rfl, rfl, rfl⟩
  obtain ⟨s, t, hs, ht, hfirst, hsecond⟩ := hruns
  obtain ⟨-, -, hwhole, -⟩ := installs_keep (fun _ => none) hs ht (by decide)
  exact ⟨s, t, hs, ht, hwhole 0 _ hfirst, hwhole 1 _ hsecond⟩

/-- **Without hard links one backup replaces another**: both installers look before either moves, and
    both return the one name, with the second's file under it. -/
theorem installs_replace :
    ∃ t, run (step two) (start two fun _ => none)
        [.call 0 (.raises .eperm), .call 1 (.raises .eperm), .call 0 .returns, .call 1 .returns,
          .call 0 .returns, .call 1 .returns] = some t ∧
      returned two t 0 = some (backupFilename "web" "20260101-000000" 1) ∧
      returned two t 1 = some (backupFilename "web" "20260101-000000" 1) ∧
      ¬ t.dir.Holds (backupFilename "web" "20260101-000000" 1) (two 0).content := by
  refine ⟨_, rfl, rfl, rfl, ?_⟩
  rintro ⟨ino, hname, hdata⟩
  cases hname
  exact absurd hdata (by decide)

end Dbs.Install

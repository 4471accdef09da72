/-
  File:      Dbs/Files/Creation.lean
  Subject:   CREATING A FILE THAT IS NOT THERE YET (io.py, create_new_file and release_reservation):
             written under a temporary name, checked, and given its name only then; any number of
             programs at it, on one name or several.

  * `Creator` -- what `create_new_file` is called with; a caller may have reserved the name by an
    empty file;
  * `Phase`, `createStep` -- the call, system call by system call; `step` -- one of them, or a write
    of a producer, a reservation, a file of another program;
  * `Spares` -- the steps that do no harm: a reservation that is let go is the caller's own, and from
    then on the name is had; what is undone, is;
  * `Sound` -- the invariant; `step_sound`, `step_keeps` -- a step keeps it, and the files;
  * `creations_keep` -- a run; `reservation_lost` -- a reservation that is let go for nothing.
-/
import Dbs.Files.Directory
import Dbs.Lib.Runs

namespace Dbs.Creation

open Octets Directory Runs

/-! ## 1. The calls -/

structure Creator where
  path : String
  verify : Bool := true
  reserved : Bool := false

/-- How `create_new_file` ends: it returns, it raises with its name not had or with the file there, or a
    file stays that it meant to take away. -/
inductive Ending
  | returned
  | raised
  | raisedAfter
  | copyLeft
  | temporaryLeft
deriving DecidableEq

/-- Where a creator is. -/
inductive Phase
  | checking
  | making
  | producing
  | verifying
  | statting
  | releasing
  | publishing (p : Publishing)
  | cleaning (e : Ending)
  | ended (e : Ending)
deriving DecidableEq

def Phase.first (c : Creator) : Phase := if c.reserved then .making else .checking

/-- The publication, after what comes before it. -/
def Phase.toPublish (c : Creator) : Phase := if c.reserved then .statting else .publishing .linking

/-- Out of `publish_new`, into the `finally`. -/
def Phase.ofPublishing : Publishing → Phase
  | .done => .cleaning .returned
  | .refused => .cleaning .raised
  | .left => .cleaning .copyLeft
  | .interrupted => .cleaning .raisedAfter
  | p => .publishing p

/-- `stat.S_ISREG`. -/
def isRegular : Inode → Bool
  | .special _ => false
  | _ => true

/-- What `release_reservation` takes for a reservation. -/
def isEmptyFile (d : Dir) (ino : Inode) : Bool := isRegular ino && (d.data ino).isEmpty

def createStep (c : Creator) (i : Nat) (d : Dir) : Phase → Answer → Option (Dir × Phase)
  | .checking, .returns => some (d, if (d.names (.file c.path)).isSome then .ended .raised else .making)
  | .checking, .raises _ => some (d, .making)
  | .checking, .missing => some (d, .ended .raised)
  | .making, .returns =>
    some ((d.fill (.temporary i) []).bind (.temporary i) (.temporary i), .producing)
  | .making, .raises _ => some (d, .ended .raised)
  | .making, .missing => some (d, .ended .raised)
  -- the producer is done: flush, fsync, close
  | .producing, .returns => some (d, if c.verify then .verifying else .toPublish c)
  | .producing, .raises _ => some (d, .cleaning .raised)
  | .producing, .missing => some (d, .cleaning .raised)
  | .verifying, .returns => some (d, .toPublish c)
  | .verifying, .raises _ => some (d, .cleaning .raised)
  | .verifying, .missing => some (d, .cleaning .raised)
  | .statting, .returns =>
    match d.names (.file c.path) with
    | none => some (d, .publishing .linking)
    | some ino => some (d, if isEmptyFile d ino then .releasing else .cleaning .raised)
  | .statting, .raises _ => some (d, .cleaning .raised)
  | .statting, .missing => some (d, .cleaning .raised)
  | .releasing, .returns =>
    match d.names (.file c.path) with
    | none => some (d, .cleaning .raised)
    | some _ => some (d.unlink (.file c.path), .publishing .linking)
  | .releasing, .raises _ => some (d, .cleaning .raised)
  | .releasing, .missing => some (d, .cleaning .raised)
  | .publishing p, answer => (publishStep i c.path d p answer).map fun (d, p) => (d, .ofPublishing p)
  | .cleaning e, .returns => some (d.unlink (.temporary i), .ended e)
  | .cleaning _, .raises _ => some (d, .ended .temporaryLeft)
  | .cleaning _, .missing => some (d, .ended .temporaryLeft)
  | _, _ => none

/-- `wrote` is what the producers have written, `verified` what the verifiers have accepted, `held`
    who has reserved its name. -/
structure State where
  dir : Dir
  phases : Nat → Phase
  wrote : Nat → Bytes
  verified : Nat → Option Bytes
  held : Nat → Bool
  made : Nat

inductive Act
  | call (i : Nat) (answer : Answer)
  | write (i : Nat) (bytes : Bytes)
  | reserve (i : Nat)
  | create (name : String) (content : Bytes)

/-- What a verifier reads. -/
def Dir.read (d : Dir) (p : Place) : Option Bytes := (d.names p).map d.data

section Creating

variable (creators : Nat → Creator)

/-- One call of one creator. -/
def step (s : State) : Act → Option State
  | .call i answer =>
    (createStep (creators i) i s.dir (s.phases i) answer).map fun (d, p) =>
      { s with
        dir := d
        phases := Function.update s.phases i p
        verified :=
          if s.phases i = .verifying ∧ answer = .returns then
            Function.update s.verified i (Dir.read s.dir (.temporary i))
          else s.verified }
  | .write i bytes =>
    if s.phases i = .producing then
      some { s with
        dir := s.dir.fill (.temporary i) (s.dir.data (.temporary i) ++ bytes)
        wrote := Function.update s.wrote i (s.wrote i ++ bytes) }
    else none
  -- O_CREAT | O_EXCL, before the call
  | .reserve i =>
    if (creators i).reserved ∧ s.phases i = .making ∧ s.held i = false ∧
        s.dir.names (.file (creators i).path) = none then
      some { s with
        dir := (s.dir.fill (.reservation i) []).bind (.file (creators i).path) (.reservation i)
        held := Function.update s.held i true }
    else none
  | .create name content =>
    if s.dir.names (.file name) = none then
      some { s with
        dir := (s.dir.fill (.made s.made) content).bind (.file name) (.made s.made)
        made := s.made + 1 }
    else none

/-- The directory before; `none` in it for what is no regular file. -/
def start (existing : String → Option (Option Bytes)) : State where
  dir := {
    names
      | .file name => (existing name).map fun content => if content.isSome then .was name
          else .special name
      | .temporary _ => none
    data
      | .was name => ((existing name).getD none).getD []
      | _ => [] }
  phases i := .first (creators i)
  wrote _ := []
  verified _ := none
  held _ := false
  made := 0

/-- A publication that gets on: the name is free when it is taken, and no call raises. -/
def getsOn (d : Dir) (name : String) : Publishing → Answer → Bool
  | .linking, .returns => (d.names (.file name)).isNone
  | .linking, .missing => true
  | .linking, .raises e => linkUnsupported e
  | .opening, .returns => (d.names (.file name)).isNone
  | .copying _, .takes _ => true
  | .copying _, .returns => true
  | .syncing, _ => true
  | _, _ => false

/-- The calls that do no harm: what is let go is the caller's own reservation, a caller that has let
    one go gets its name, and what is undone, is. -/
def sparesCall (c : Creator) (i : Nat) (d : Dir) (held : Bool) : Phase → Answer → Bool
  | .releasing, answer => answer ≠ .returns ∨ d.names (.file c.path) = some (.reservation i)
  | .publishing p, answer => (held = false ∨ getsOn d c.path p answer) ∧
    (p ≠ .undoing ∨ answer = .returns)
  | .cleaning _, answer => answer = .returns
  | _, _ => true

def spares (s : State) : Act → Bool
  | .call i answer => sparesCall (creators i) i s.dir (s.held i) (s.phases i) answer
  | _ => true

def Spares (s : State) (a : Act) : Prop := spares creators s a = true

instance (s : State) (a : Act) : Decidable (Spares creators s a) :=
  inferInstanceAs (Decidable (_ = true))

/-- A file that is there, and no copy that is still being made. -/
def Settled (s : State) (name : String) (ino : Inode) : Prop :=
  s.dir.names (.file name) = some ino ∧
    ∀ i p rest, s.phases i = .publishing p → (p = .copying rest ∨ p = .undoing) → ino ≠ .copied i

end Creating

/-! ## 2. One call -/

section Call

variable {c : Creator} {i : Nat} {d d' : Dir} {held : Bool} {wrote : Bytes} {verified : Option Bytes}
  {at_ next : Phase} {answer : Answer} {ino : Inode}

/-- Of party `i`'s files only its reservation has a name, and that is there if it was made. -/
structure Before (c : Creator) (i : Nat) (held : Bool) (d : Dir) : Prop where
  placed : ∀ name ino, d.names (.file name) = some ino → ino.Of i →
    held = true ∧ name = c.path ∧ ino = .reservation i
  reservation : held = true → d.names (.file c.path) = some (.reservation i) ∧
    d.data (.reservation i) = []
  reserved : held = true → c.reserved = true

/-- The verifier, if there is one, has accepted what was written. -/
def Accepted (c : Creator) (wrote : Bytes) (verified : Option Bytes) : Prop :=
  c.verify = true → verified = some wrote

def Ending.Sound (c : Creator) (i : Nat) (held : Bool) (wrote : Bytes) (verified : Option Bytes)
    (d : Dir) :
    Ending → Prop
  | .returned => d.Placed i c.path wrote ∧ Accepted c wrote verified
  | .raised => Before c i held d
  | .raisedAfter => d.Placed i c.path wrote
  | .copyLeft => False
  | .temporaryLeft => False

def Phase.Sound (c : Creator) (i : Nat) (held : Bool) (wrote : Bytes) (verified : Option Bytes)
    (d : Dir) :
    Phase → Prop
  | .checking => Before c i held d ∧ d.names (.temporary i) = none ∧ wrote = []
  | .making => Before c i held d ∧ d.names (.temporary i) = none ∧ wrote = []
  | .producing => Before c i held d ∧ d.Source i wrote
  | .verifying => Before c i held d ∧ d.Source i wrote
  | .statting => Before c i held d ∧ d.Source i wrote ∧ Accepted c wrote verified
  | .releasing => Before c i held d ∧ d.Source i wrote ∧ Accepted c wrote verified
  | .publishing p => p.Sound i c.path wrote d ∧ Accepted c wrote verified
  | .cleaning e => e.Sound c i held wrote verified d
  | .ended e => e.Sound c i held wrote verified d ∧ d.names (.temporary i) = none

variable {Mine : Inode → Prop}

theorem Before.stable (h : Before c i held d) (hstep : Guarantee Mine d d')
    (hmine : ∀ ino, ino.Of i → ¬ Mine ino) : Before c i held d' where
  placed name ino hname hof := h.placed name ino (hstep.fresh _ _ hname (hmine ino hof)) hof
  reservation hheld := by
    obtain ⟨hname, hdata⟩ := h.reservation hheld
    exact ⟨hstep.kept _ _ hname (hmine _ .reservation),
      (hstep.data _ (hmine _ .reservation)).trans hdata⟩
  reserved := h.reserved

theorem Ending.Sound.stable {e : Ending} (h : e.Sound c i held wrote verified d)
    (hstep : Guarantee Mine d d') (hmine : ∀ ino, ino.Of i → ¬ Mine ino) :
    e.Sound c i held wrote verified d' := by
  cases e with
  | returned => exact ⟨h.1.stable hstep hmine, h.2⟩
  | raised => exact Before.stable h hstep hmine
  | raisedAfter => exact Dir.Placed.stable h hstep hmine
  | copyLeft | temporaryLeft => exact h

/-- **Steps of others** do not move it. -/
theorem Phase.Sound.stable (h : at_.Sound c i held wrote verified d)
    (hstep : Guarantee Mine d d') (hmine : ∀ ino, ino.Of i → ¬ Mine ino) :
    at_.Sound c i held wrote verified d' := by
  have htemporary := hstep.temporary i (hmine _ .temporary)
  cases at_ with
  | checking | making => exact ⟨h.1.stable hstep hmine, htemporary.trans h.2.1, h.2.2⟩
  | producing | verifying => exact ⟨h.1.stable hstep hmine, h.2.stable hstep hmine⟩
  | statting | releasing => exact ⟨h.1.stable hstep hmine, h.2.1.stable hstep hmine, h.2.2⟩
  | publishing p => exact ⟨h.1.stable hstep hmine, h.2⟩
  | cleaning e => exact Ending.Sound.stable h hstep hmine
  | ended e => exact ⟨h.1.stable hstep hmine, htemporary.trans h.2⟩

theorem Before.unplaced (h : Before c i held d) (hheld : held = false) : d.Unplaced i := by
  intro name ino hname hof
  obtain ⟨htrue, -⟩ := h.placed name ino hname hof
  rw [hheld] at htrue
  cases htrue

theorem before_of_unplaced (h : d.Unplaced i) (hheld : held = false) : Before c i held d where
  placed name ino hname hof := absurd hof (h name ino hname)
  reservation htrue := by cases hheld.symm.trans htrue
  reserved htrue := by cases hheld.symm.trans htrue

/-- What happens to other names and other files. -/
theorem Before.congr (h : Before c i held d)
    (hnames : ∀ name, d'.names (.file name) = d.names (.file name))
    (hdata : d'.data (.reservation i) = d.data (.reservation i)) : Before c i held d' where
  placed name ino hname hof := h.placed name ino ((hnames name).symm.trans hname) hof
  reservation hheld := by
    obtain ⟨hname, hempty⟩ := h.reservation hheld
    exact ⟨(hnames c.path).trans hname, hdata.trans hempty⟩
  reserved := h.reserved

theorem Ending.Sound.unlink {e : Ending} (h : e.Sound c i held wrote verified d) :
    e.Sound c i held wrote verified (d.unlink (.temporary i)) := by
  have hplaced : d.Placed i c.path wrote → (d.unlink (.temporary i)).Placed i c.path wrote :=
    fun ⟨ino, hof, hname, hdata⟩ => ⟨ino, hof, (Dir.unlink_of_ne Place.file_ne).trans hname, hdata⟩
  cases e with
  | returned => exact ⟨hplaced h.1, h.2⟩
  | raised => exact Before.congr h (fun name => Dir.unlink_of_ne Place.file_ne) rfl
  | raisedAfter => exact hplaced h
  | copyLeft | temporaryLeft => exact h

/-- Let go of, the reservation leaves nothing behind. -/
theorem Before.release (h : Before c i held d) : (d.unlink (.file c.path)).Unplaced i := by
  intro name ino hname hof
  by_cases hpath : name = c.path
  · rw [hpath, Dir.unlink_self] at hname
    exact nomatch hname
  · rw [Dir.unlink_of_ne fun he => hpath (Place.file.inj he)] at hname
    exact hpath (h.placed name ino hname hof).2.1

/-- A publication that gets on is not refused. -/
theorem publishStep_getsOn {content : Bytes} {p q : Publishing}
    (h : publishStep i c.path d p answer = some (d', q)) (hsound : p.Sound i c.path content d)
    (hon : getsOn d c.path p answer = true) : q ≠ .refused := by
  rintro rfl
  cases p with
  | linking =>
    cases answer with
    | returns =>
      have hfree : d.names (.file c.path) = none := Option.isNone_iff_eq_none.mp hon
      rw [publishStep, hfree, hsound.2.name] at h
      cases h
    | missing => cases h
    | raises e =>
      rw [publishStep, if_pos (show linkUnsupported e = true from hon)] at h
      cases h
    | takes n => cases h
  | opening =>
    cases answer with
    | returns =>
      have hfree : d.names (.file c.path) = none := Option.isNone_iff_eq_none.mp hon
      rw [publishStep, hfree, hsound.2.name] at h
      cases h
    | missing => cases hon
    | raises e => cases hon
    | takes n => cases h
  | copying rest =>
    cases answer with
    | returns =>
      rw [publishStep] at h
      split at h
      · cases h
      · cases h
    | missing => cases hon
    | raises e => cases hon
    | takes n => cases h
  | undoing => cases hon
  | syncing =>
    cases answer with
    | returns => cases h
    | missing => cases h
    | raises e => cases h
    | takes n => cases h
  | done | refused | left | interrupted => cases hon

/-- A copy stays only where it could not be taken away. -/
theorem publishStep_left {p : Publishing} (h : publishStep i c.path d p answer = some (d', .left)) :
    p = .undoing ∧ answer ≠ .returns := by
  cases p with
  | undoing =>
    cases answer with
    | returns => cases h
    | missing => exact ⟨rfl, Answer.noConfusion⟩
    | raises e => exact ⟨rfl, Answer.noConfusion⟩
    | takes n => cases h
  | linking =>
    cases answer with
    | returns | raises _ =>
      rw [publishStep] at h
      split at h <;> cases h
    | missing => cases h
    | takes n => cases h
  | opening | copying _ =>
    cases answer with
    | returns =>
      rw [publishStep] at h
      split at h <;> cases h
    | missing | raises _ | takes _ => cases h
  | syncing | done | refused | left | interrupted => cases answer <;> cases h

theorem toPublish_sound (hbefore : Before c i held d) (hsource : d.Source i wrote)
    (haccepted : Accepted c wrote verified) : (Phase.toPublish c).Sound c i held wrote verified d := by
  rw [Phase.toPublish]
  split
  · exact ⟨hbefore, hsource, haccepted⟩
  · rename_i hreserved
    have hheld : held = false := Bool.eq_false_iff.mpr fun htrue => hreserved (hbefore.reserved htrue)
    exact ⟨⟨hbefore.unplaced hheld, hsource⟩, haccepted⟩

theorem ofPublishing_sound {p : Publishing} (hsound : p.Sound i c.path wrote d)
    (haccepted : Accepted c wrote verified) (hrefused : p = .refused → held = false)
    (hleft : p ≠ .left) :
    (Phase.ofPublishing p).Sound c i held wrote verified d := by
  cases p with
  | linking | opening | copying _ | undoing | syncing | done => exact ⟨hsound, haccepted⟩
  | refused => exact before_of_unplaced hsound (hrefused rfl)
  | left => exact absurd rfl hleft
  | interrupted => exact hsound

section CreateStep

variable {phase : Phase}

theorem checking_sound (h : createStep c i d .checking answer = some (d', next))
    (hsound : Phase.checking.Sound c i held wrote verified d) :
    next.Sound c i held wrote verified d' := by
  obtain ⟨hbefore, htemporary, hwrote⟩ := hsound
  cases answer with
  | returns =>
    rw [createStep] at h
    cases h
    split
    · exact ⟨hbefore, htemporary⟩
    · exact ⟨hbefore, htemporary, hwrote⟩
  | missing =>
    cases h
    exact ⟨hbefore, htemporary⟩
  | raises e =>
    cases h
    exact ⟨hbefore, htemporary, hwrote⟩
  | takes n => exact nomatch h

/-- The temporary file begins empty. -/
theorem making_sound (h : createStep c i d .making answer = some (d', next))
    (hsound : Phase.making.Sound c i held wrote verified d) :
    next.Sound c i held wrote verified d' := by
  obtain ⟨hbefore, htemporary, hwrote⟩ := hsound
  cases answer with
  | returns =>
    cases h
    have hdata : (d.fill (.temporary i) []).data (.reservation i) = d.data (.reservation i) :=
      Dir.fill_of_ne nofun
    refine ⟨hbefore.congr (fun name => Dir.bind_of_ne Place.file_ne) hdata, Dir.bind_self, ?_⟩
    rw [Dir.bind_data, Dir.fill_self, hwrote]
  | missing | raises _ =>
    cases h
    exact ⟨hbefore, htemporary⟩
  | takes n => exact nomatch h

theorem producing_sound (h : createStep c i d .producing answer = some (d', next))
    (hsound : Phase.producing.Sound c i held wrote verified d) :
    next.Sound c i held wrote verified d' := by
  obtain ⟨hbefore, hsource⟩ := hsound
  cases answer with
  | returns =>
    rw [createStep] at h
    cases h
    split
    · exact ⟨hbefore, hsource⟩
    · rename_i hverify
      exact toPublish_sound hbefore hsource fun htrue => absurd htrue hverify
  | missing | raises _ =>
    cases h
    exact hbefore
  | takes n => exact nomatch h

/-- The verifier reads what the producer wrote. -/
theorem verifying_sound (h : createStep c i d .verifying answer = some (d', next))
    (hsound : Phase.verifying.Sound c i held wrote verified d) :
    next.Sound c i held wrote
      (if answer = .returns then Dir.read d (.temporary i) else verified) d' := by
  obtain ⟨hbefore, hsource⟩ := hsound
  cases answer with
  | returns =>
    cases h
    rw [if_pos rfl]
    refine toPublish_sound hbefore hsource fun _ => ?_
    rw [Dir.read, hsource.name, Option.map_some, hsource.data]
  | missing | raises _ =>
    cases h
    exact hbefore
  | takes n => exact nomatch h

/-- Only an empty file is taken for the reservation. -/
theorem statting_sound (h : createStep c i d .statting answer = some (d', next))
    (hsound : Phase.statting.Sound c i held wrote verified d) :
    next.Sound c i held wrote verified d' := by
  obtain ⟨hbefore, hsource, haccepted⟩ := hsound
  cases answer with
  | returns =>
    rw [createStep] at h
    split at h
    · rename_i hnone
      cases h
      have hheld : held = false :=
        Bool.eq_false_iff.mpr fun htrue => nomatch hnone.symm.trans (hbefore.reservation htrue).1
      exact ⟨⟨hbefore.unplaced hheld, hsource⟩, haccepted⟩
    · cases h
      split
      · exact ⟨hbefore, hsource, haccepted⟩
      · exact hbefore
  | missing | raises _ =>
    cases h
    exact hbefore
  | takes n => exact nomatch h

theorem releasing_sound (h : createStep c i d .releasing answer = some (d', next))
    (hsound : Phase.releasing.Sound c i held wrote verified d) :
    next.Sound c i held wrote verified d' := by
  obtain ⟨hbefore, hsource, haccepted⟩ := hsound
  cases answer with
  | returns =>
    rw [createStep] at h
    split at h
    · cases h
      exact hbefore
    · cases h
      have hsource' : (d.unlink (.file c.path)).Source i wrote :=
        ⟨(Dir.unlink_of_ne Place.temporary_ne).trans hsource.name, hsource.data⟩
      exact ⟨⟨hbefore.release, hsource'⟩, haccepted⟩
  | missing | raises _ =>
    cases h
    exact hbefore
  | takes n => exact nomatch h

/-- `publish_new` is refused or gives up only where no reservation is lost by it. -/
theorem publishing_sound {p : Publishing}
    (h : createStep c i d (.publishing p) answer = some (d', next))
    (hspares : sparesCall c i d held (.publishing p) answer = true)
    (hsound : (Phase.publishing p).Sound c i held wrote verified d) :
    next.Sound c i held wrote verified d' := by
  obtain ⟨hp, haccepted⟩ := hsound
  obtain ⟨⟨d1, q⟩, hq, hsame⟩ := Option.map_eq_some_iff.mp h
  cases hsame
  have hspares' : (held = false ∨ getsOn d c.path p answer = true) ∧
    (p ≠ .undoing ∨ answer = .returns) := by
    simpa [sparesCall] using hspares
  refine ofPublishing_sound (publishStep_sound hq hp) haccepted (fun hrefused => ?_) fun hleft => ?_
  · rcases hspares'.1 with hheld | hon
    · exact hheld
    · exact absurd hrefused (publishStep_getsOn hq hp hon)
  · rw [hleft] at hq
    obtain ⟨hundoing, hanswer⟩ := publishStep_left hq
    exact hspares'.2.elim (fun hne => hne hundoing) hanswer

/-- **Its own calls**, where they do no harm: where `create_new_file` is next. -/
theorem createStep_sound (h : createStep c i d phase answer = some (d', next))
    (hspares : sparesCall c i d held phase answer = true)
    (hsound : phase.Sound c i held wrote verified d) :
    next.Sound c i held wrote
      (if phase = .verifying ∧ answer = .returns then Dir.read d (.temporary i) else verified) d' := by
  have hkeep : ∀ phase : Phase, phase ≠ .verifying →
      (if phase = .verifying ∧ answer = .returns then Dir.read d (.temporary i) else verified) =
      verified :=
    fun _ hne => if_neg fun hboth => hne hboth.1
  cases phase with
  | checking =>
    rw [hkeep .checking nofun]
    exact checking_sound h hsound
  | making =>
    rw [hkeep .making nofun]
    exact making_sound h hsound
  | producing =>
    rw [hkeep .producing nofun]
    exact producing_sound h hsound
  | verifying =>
    simp only [true_and]
    exact verifying_sound h hsound
  | statting =>
    rw [hkeep .statting nofun]
    exact statting_sound h hsound
  | releasing =>
    rw [hkeep .releasing nofun]
    exact releasing_sound h hsound
  | publishing p =>
    rw [hkeep (.publishing p) nofun]
    exact publishing_sound h hspares hsound
  | cleaning e =>
    rw [hkeep (.cleaning e) nofun]
    have hanswer : answer = .returns := of_decide_eq_true hspares
    subst hanswer
    cases h
    exact ⟨Ending.Sound.unlink hsound, Dir.unlink_self⟩
  | ended e => cases answer <;> exact nomatch h

end CreateStep

/-- What a call does to the directory: nothing, the temporary file, a reservation taken away, what
    `publish_new` does, or the temporary name taken away. -/
inductive Creates (c : Creator) (i : Nat) (d : Dir) (at_ : Phase) (answer : Answer) : Dir → Phase → Prop
  | nothing (next : Phase) (hnext : ∀ p rest, next = .publishing p →
    ¬ (p = .copying rest ∨ p = .undoing)) :
      Creates c i d at_ answer d next
  | make (hat : at_ = .making) :
      Creates c i d at_ answer ((d.fill (.temporary i) []).bind (.temporary i) (.temporary i))
        .producing
  | release (hat : at_ = .releasing) (hanswer : answer = .returns) :
      Creates c i d at_ answer (d.unlink (.file c.path)) (.publishing .linking)
  | publish (p q : Publishing) (d' : Dir) (hat : at_ = .publishing p)
      (h : publishStep i c.path d p answer = some (d', q)) :
        Creates c i d at_ answer d' (.ofPublishing q)
  | clean (e : Ending) (hat : at_ = .cleaning e) :
      Creates c i d at_ answer (d.unlink (.temporary i)) (.ended e)

theorem createStep_creates (h : createStep c i d at_ answer = some (d', next)) :
    Creates c i d at_ answer d' next := by
  have hplain : ∀ p rest, Phase.publishing .linking = .publishing p →
    ¬ (p = .copying rest ∨ p = .undoing) := by
    intro p rest hp
    cases hp
    exact fun h => h.elim nofun nofun
  have hpublish : ∀ p rest, Phase.toPublish c = .publishing p →
    ¬ (p = .copying rest ∨ p = .undoing) := by
    intro p rest hp
    rw [Phase.toPublish] at hp
    split at hp
    · exact nomatch hp
    · exact hplain p rest hp
  unfold createStep at h
  split at h
  · cases h
    refine .nothing _ ?_
    split <;> exact nofun
  · cases h; exact .nothing _ nofun
  · cases h; exact .nothing _ nofun
  · cases h; exact .make rfl
  · cases h; exact .nothing _ nofun
  · cases h; exact .nothing _ nofun
  · cases h
    refine .nothing _ ?_
    split
    · exact nofun
    · exact hpublish
  · cases h; exact .nothing _ nofun
  · cases h; exact .nothing _ nofun
  · cases h; exact .nothing _ hpublish
  · cases h; exact .nothing _ nofun
  · cases h; exact .nothing _ nofun
  · split at h
    · cases h; exact .nothing _ hplain
    · cases h
      refine .nothing _ ?_
      split <;> exact nofun
  · cases h; exact .nothing _ nofun
  · cases h; exact .nothing _ nofun
  · split at h
    · cases h; exact .nothing _ nofun
    · cases h; exact .release rfl rfl
  · cases h; exact .nothing _ nofun
  · cases h; exact .nothing _ nofun
  · obtain ⟨⟨d1, q⟩, hq, hsame⟩ := Option.map_eq_some_iff.mp h
    cases hsame
    exact .publish _ q _ rfl hq
  · cases h; exact .clean _ rfl
  · cases h; exact .nothing _ nofun
  · cases h; exact .nothing _ nofun
  · exact nomatch h

/-- What `create_new_file` leaves alone, where it does no harm. -/
theorem createStep_guarantee (h : createStep c i d at_ answer = some (d', next))
    (hspares : sparesCall c i d held at_ answer = true) (hsound : at_.Sound c i held wrote verified d)
    (htemporary : ∀ ino, d.names (.temporary i) = some ino → ino = .temporary i) :
    Guarantee (Inode.Of i) d d' := by
  have hown : ∀ j, Place.temporary i = .temporary j → Inode.Of i (.temporary j) :=
    fun j hj => Place.temporary.inj hj ▸ .temporary
  cases createStep_creates h with
  | nothing next hnext => exact .refl
  | make hat =>
    subst hat
    exact (Guarantee.fill .temporary).trans (.bind .temporary hsound.2.1 hown)
  | release hat hanswer =>
    subst hat hanswer
    have hreservation : d.names (.file c.path) =
      some (.reservation i) := by simpa [sparesCall] using hspares
    refine .unlink (fun ino hino => ?_) fun j hj => nomatch hj
    cases hreservation.symm.trans hino
    exact .reservation
  | publish p q d1 hat hcall =>
    subst hat
    exact publishStep_guarantee hcall hsound.1
  | clean e hat => exact .unlink (fun ino hino => htemporary ino hino ▸ .temporary) hown

/-- What is worth keeping: no empty file. -/
def Weighs (d : Dir) (ino : Inode) : Prop := isEmptyFile d ino = false

/-- **A file with content stays under its name**, unless it is the copy that is still being made. -/
theorem createStep_keeps (h : createStep c i d at_ answer = some (d', next))
    (hspares : sparesCall c i d held at_ answer = true) (hsound : at_.Sound c i held wrote verified d)
    {name : String} (hname : d.names (.file name) = some ino) (hweighs : Weighs d ino)
    (hcopy : ∀ p rest, at_ = .publishing p → (p = .copying rest ∨ p = .undoing) → ino ≠ .copied i) :
    (d'.names (.file name) = some ino ∧ d'.data ino = d.data ino) ∧
      ∀ p rest, next = .publishing p → (p = .copying rest ∨ p = .undoing) → ino ≠ .copied i := by
  cases createStep_creates h with
  | nothing next hnext => exact ⟨⟨hname, rfl⟩, fun p rest hp hq => absurd hq (hnext p rest hp)⟩
  | make hat =>
    subst hat
    refine ⟨⟨(Dir.bind_of_ne Place.file_ne).trans hname, Dir.fill_of_ne ?_⟩, nofun⟩
    rintro rfl
    exact nomatch (hsound.1.placed name _ hname .temporary).2.2
  | release hat hanswer =>
    subst hat hanswer
    have hreservation : d.names (.file c.path) =
      some (.reservation i) := by simpa [sparesCall] using hspares
    obtain ⟨hheld, -⟩ := hsound.1.placed _ _ hreservation .reservation
    have hne : Place.file name ≠ .file c.path := by
      intro he
      rw [he, hreservation] at hname
      cases hname
      rw [Weighs, isEmptyFile, (hsound.1.reservation hheld).2] at hweighs
      exact nomatch hweighs
    refine ⟨⟨(Dir.unlink_of_ne hne).trans hname, rfl⟩, fun p rest hp hq => ?_⟩
    cases hp
    exact hq.elim nofun nofun
  | publish p q d1 hat hcall =>
    subst hat
    have hcopy' : ∀ rest, (p = .copying rest ∨ p = .undoing) → ino ≠ .copied i :=
      fun rest hp => hcopy p rest rfl hp
    refine ⟨publishStep_keeps hcall hsound.1 hname hcopy', fun r rest hr hrest => ?_⟩
    have hqr : q = r := by
      cases q <;> first | exact Phase.publishing.inj hr | exact nomatch hr
    subst hqr
    -- the copy had no name before it was created
    rcases publishStep_copying hcall hrest with hopening | ⟨before, hbefore⟩
    · subst hopening
      intro he
      exact hsound.1.1 name ino hname (he ▸ .copied)
    · exact hcopy' before hbefore
  | clean e hat => exact ⟨⟨(Dir.unlink_of_ne Place.file_ne).trans hname, rfl⟩, nofun⟩

end Call

/-! ## 3. All of them -/

section Run

variable {creators : Nat → Creator} {s t : State} {a : Act} {i : Nat}

/-- The invariant. -/
structure Sound (creators : Nat → Creator) (s : State) : Prop where
  creator : ∀ i, (s.phases i).Sound (creators i) i (s.held i) (s.wrote i) (s.verified i) s.dir
  temporary : ∀ i ino, s.dir.names (.temporary i) = some ino → ino = .temporary i
  made : ∀ name k, s.dir.names (.file name) = some (.made k) → k < s.made

theorem sound_start (existing : String → Option (Option Bytes)) :
    Sound creators (start creators existing) where
  creator i := by
    have hwas : ∀ name ino, (start creators existing).dir.names (.file name) = some ino →
      ¬ ino.Of i := by
      intro name ino hino hof
      obtain ⟨content, -, rfl⟩ := Option.map_eq_some_iff.mp hino
      split at hof <;> exact nomatch hof
    have hbefore : Before (creators i) i false (start creators existing).dir :=
      before_of_unplaced hwas rfl
    show (Phase.first (creators i)).Sound _ _ _ _ _ _
    rw [Phase.first]
    split <;> exact ⟨hbefore, rfl, rfl⟩
  temporary i ino h := nomatch h
  made name k hname := by
    obtain ⟨content, -, h⟩ := Option.map_eq_some_iff.mp hname
    split at h <;> exact nomatch h

/-- What one party's step has to show for the invariant: the rest is as it was. -/
theorem sound_of_own {t : State} (hsound : Sound creators s)
    (hstep : Guarantee (Inode.Of i) s.dir t.dir)
    (hown : (t.phases i).Sound (creators i) i (t.held i) (t.wrote i) (t.verified i) t.dir)
    (htemporary : ∀ ino, t.dir.names (.temporary i) = some ino → ino = .temporary i)
    (hothers : ∀ j, j ≠ i → t.phases j = s.phases j ∧ t.held j = s.held j ∧ t.wrote j = s.wrote j ∧
      t.verified j = s.verified j) (hmade : t.made = s.made) : Sound creators t where
  creator j := by
    by_cases hj : j = i
    · subst hj
      exact hown
    · obtain ⟨hphase, hheld, hwrote, hverified⟩ := hothers j hj
      rw [hphase, hheld, hwrote, hverified]
      exact (hsound.creator j).stable hstep fun ino hof hof' => hj (hof.unique hof')
  temporary j ino hino := by
    by_cases hj : j = i
    · subst hj
      exact htemporary ino hino
    · have hnot : ¬ Inode.Of i (.temporary j) := fun hof => hj (Inode.Of.unique .temporary hof)
      exact hsound.temporary j ino ((hstep.temporary j hnot).symm.trans hino)
  made name k hname := by
    rw [hmade]
    exact hsound.made name k (hstep.fresh _ _ hname nofun)

theorem call_sound {answer : Answer} (h : step creators s (.call i answer) = some t)
    (hspares : Spares creators s (.call i answer)) (hsound : Sound creators s) : Sound creators t := by
  obtain ⟨⟨d, next⟩, hcall, rfl⟩ := Option.map_eq_some_iff.mp h
  have hi := hsound.creator i
  refine sound_of_own hsound (createStep_guarantee hcall hspares hi (hsound.temporary i)) ?_ ?_
    (fun j hj => ?_) rfl
  · have hnext := createStep_sound hcall hspares hi
    simp only [Function.update_self]
    convert hnext using 1
    split
    · exact Function.update_self ..
    · rfl
  · intro ino hino
    cases createStep_creates hcall with
    | nothing next hnext => exact hsound.temporary i ino hino
    | make hat => exact (Option.some.inj (Dir.bind_self.symm.trans hino)).symm
    | release hat hanswer =>
      exact hsound.temporary i ino ((Dir.unlink_of_ne Place.temporary_ne).symm.trans hino)
    | publish p q d1 hat hq =>
      exact hsound.temporary i ino ((publishStep_temporary hq i).symm.trans hino)
    | clean e hat => exact nomatch Dir.unlink_self.symm.trans hino
  · refine ⟨Function.update_of_ne hj _ _, rfl, rfl, ?_⟩
    show (if s.phases i = .verifying ∧ answer = .returns then
      Function.update s.verified i (Dir.read s.dir (.temporary i)) else s.verified) j = s.verified j
    split
    · exact Function.update_of_ne hj _ _
    · rfl

/-- A producer writes to its temporary file. -/
theorem write_sound {bytes : Bytes} (h : step creators s (.write i bytes) = some t)
    (hsound : Sound creators s) : Guarantee (Inode.Of i) s.dir t.dir ∧ Sound creators t := by
  rw [step] at h
  split at h
  · rename_i hat
    cases h
    have hi := hsound.creator i
    rw [hat] at hi
    have hstep : Guarantee (Inode.Of i) s.dir
        (s.dir.fill (.temporary i) (s.dir.data (.temporary i) ++ bytes)) := .fill .temporary
    refine ⟨hstep, sound_of_own hsound hstep ?_ (hsound.temporary i) (fun j hj => ?_) rfl⟩
    · simp only [hat, Function.update_self]
      refine ⟨hi.1.congr (fun _ => rfl) (Dir.fill_of_ne nofun), hi.2.name, ?_⟩
      rw [Dir.fill_self, hi.2.data]
    · exact ⟨rfl, rfl, Function.update_of_ne hj _ _, rfl⟩
  · exact nomatch h

/-- A caller reserves its name. -/
theorem reserve_sound (h : step creators s (.reserve i) = some t) (hsound : Sound creators s) :
    Guarantee (Inode.Of i) s.dir t.dir ∧ Sound creators t := by
  rw [step] at h
  split at h
  · rename_i hcan
    obtain ⟨hreserved, hat, hheld, hfree⟩ := hcan
    cases h
    have hi := hsound.creator i
    rw [hat, hheld] at hi
    have hstep : Guarantee (Inode.Of i) s.dir
        ((s.dir.fill (.reservation i) []).bind (.file (creators i).path) (.reservation i)) :=
      (Guarantee.fill .reservation).trans (.bind .reservation hfree fun _ hj => by cases hj)
    refine ⟨hstep, sound_of_own hsound hstep ?_ (fun ino hino => ?_) (fun j hj => ?_) rfl⟩
    · simp only [hat, Function.update_self]
      refine ⟨⟨fun name ino hname hof => ?_, fun _ => ⟨Dir.bind_self, Dir.fill_self⟩,
        fun _ => hreserved⟩, ?_, hi.2.2⟩
      · by_cases hpath : name = (creators i).path
        · rw [hpath, Dir.bind_self] at hname
          exact ⟨rfl, hpath, (Option.some.inj hname).symm⟩
        · rw [Dir.bind_of_ne fun he => hpath (Place.file.inj he)] at hname
          cases (hi.1.placed name ino hname hof).1
      · exact (Dir.bind_of_ne Place.temporary_ne).trans hi.2.1
    · exact hsound.temporary i ino ((Dir.bind_of_ne Place.temporary_ne).symm.trans hino)
    · exact ⟨rfl, Function.update_of_ne hj _ _, rfl, rfl⟩
  · cases h

variable {name : String}

theorem create_guarantee {content : Bytes} (hfree : s.dir.names (.file name) = none) :
    Guarantee (· = .made s.made) s.dir
      ((s.dir.fill (.made s.made) content).bind (.file name) (.made s.made)) := by
  have hfill : Guarantee (· = .made s.made) s.dir (s.dir.fill (.made s.made) content) := .fill rfl
  exact hfill.trans (.bind rfl hfree fun _ hj => nomatch hj)

/-- Another program's file is a new one. -/
theorem create_sound {content : Bytes} (h : step creators s (.create name content) = some t)
    (hsound : Sound creators s) : Guarantee (· = .made s.made) s.dir t.dir ∧ Sound creators t := by
  rw [step] at h
  split at h
  · rename_i hfree
    cases h
    have hstep : Guarantee (· = .made s.made) s.dir
        ((s.dir.fill (.made s.made) content).bind (.file name) (.made s.made)) :=
      create_guarantee hfree
    refine ⟨hstep, fun j => (hsound.creator j).stable hstep ?_, fun j ino hino => ?_,
      fun other k hother => ?_⟩
    · rintro ino hof rfl
      exact nomatch hof
    · exact hsound.temporary j ino ((hstep.temporary j nofun).symm.trans hino)
    · by_cases hk : k = s.made
      · exact hk ▸ Nat.lt_succ_self _
      · exact Nat.lt_succ_of_lt (hsound.made other k
          (hstep.fresh _ _ hother fun he => hk (Inode.made.inj he)))
  · exact nomatch h

/-- **One step** that does no harm keeps the invariant. -/
theorem step_sound (h : step creators s a = some t) (hspares : Spares creators s a)
    (hsound : Sound creators s) : Sound creators t := by
  cases a with
  | call i answer => exact call_sound h hspares hsound
  | write i bytes => exact (write_sound h hsound).2
  | reserve i => exact (reserve_sound h hsound).2
  | create name content => exact (create_sound h hsound).2

/-- A party's file that has a name is empty, or the one it has published. -/
theorem settled_of_own {Mine : Inode → Prop} {d : Dir} {ino : Inode}
    (hstep : Guarantee Mine s.dir d) (hname : s.dir.names (.file name) = some ino) (hne : ¬ Mine ino) :
    d.names (.file name) = some ino ∧ d.data ino = s.dir.data ino :=
  ⟨hstep.kept _ _ hname hne, hstep.data ino hne⟩

/-- **One step** that does no harm leaves every file with content as it is. -/
theorem step_keeps (h : step creators s a = some t) (hspares : Spares creators s a)
    (hsound : Sound creators s) {ino : Inode} (hsettled : Settled s name ino)
    (hweighs : Weighs s.dir ino) :
    Settled t name ino ∧ t.dir.data ino = s.dir.data ino := by
  obtain ⟨hname, hcopy⟩ := hsettled
  -- before its publication a party has no file under a name but an empty one
  have hbefore : ∀ {i}, Before (creators i) i (s.held i) s.dir → ¬ ino.Of i := by
    intro i hi hof
    obtain ⟨hheld, -, rfl⟩ := hi.placed name ino hname hof
    rw [Weighs, isEmptyFile, (hi.reservation hheld).2] at hweighs
    exact nomatch hweighs
  cases a with
  | call i answer =>
    obtain ⟨⟨d, next⟩, hcall, rfl⟩ := Option.map_eq_some_iff.mp h
    obtain ⟨⟨hname', hdata'⟩, hcopy'⟩ :=
      createStep_keeps hcall hspares (hsound.creator i) hname hweighs (hcopy i)
    refine ⟨⟨hname', fun j p rest hj hp => ?_⟩, hdata'⟩
    by_cases hji : j = i
    · subst hji
      exact hcopy' p rest ((Function.update_self ..).symm.trans hj) hp
    · exact hcopy j p rest ((Function.update_of_ne hji _ _).symm.trans hj) hp
  | write i bytes =>
    have hstep := (write_sound h hsound).1
    rw [step] at h
    split at h
    · rename_i hat
      cases h
      have hi := hsound.creator i
      rw [hat] at hi
      obtain ⟨hname', hdata'⟩ := settled_of_own hstep hname (hbefore hi.1)
      exact ⟨⟨hname', hcopy⟩, hdata'⟩
    · exact nomatch h
  | reserve i =>
    have hstep := (reserve_sound h hsound).1
    rw [step] at h
    split at h
    · rename_i hcan
      cases h
      have hi := hsound.creator i
      rw [hcan.2.1] at hi
      obtain ⟨hname', hdata'⟩ := settled_of_own hstep hname (hbefore hi.1)
      exact ⟨⟨hname', hcopy⟩, hdata'⟩
    · exact nomatch h
  | create other bytes =>
    have hstep := (create_sound h hsound).1
    rw [step] at h
    split at h
    · cases h
      have hne : ino ≠ .made s.made := fun he => Nat.lt_irrefl _ (hsound.made name _ (he ▸ hname))
      obtain ⟨hname', hdata'⟩ := settled_of_own hstep hname hne
      exact ⟨⟨hname', hcopy⟩, hdata'⟩
    · exact nomatch h

/-- A call that has raised before its file was published. -/
def RaisedBefore : Ending → Prop
  | .raised => True
  | .copyLeft => True
  | .temporaryLeft => True
  | _ => False

/-- **Creating a file is all or nothing, and exclusive**, in every run whose steps do no harm. What
    was there with content at some moment of the run, and is no copy in the making, is there at its
    end with the same bytes. A call that has returned has what its producer wrote, and its verifier
    accepted, under the name. A call that has raised before that has put nothing there and left no
    temporary file, and an empty file by which its caller had reserved the name is there still. -/
theorem creations_keep (existing : String → Option (Option Bytes)) {as bs : List Act}
    (hs : run (step creators) (start creators existing) as = some s)
    (ht : run (step creators) s bs = some t)
    (hspares : Along (step creators) (Spares creators) (start creators existing) (as ++ bs)) :
    (∀ name ino, Settled s name ino → Weighs s.dir ino →
        t.dir.names (.file name) = some ino ∧ t.dir.data ino = s.dir.data ino) ∧
      (∀ i, t.phases i = .ended .returned →
        t.dir.Holds (creators i).path (t.wrote i) ∧ Accepted (creators i) (t.wrote i) (t.verified i)) ∧
      ∀ i e, t.phases i = .ended e → RaisedBefore e →
        (∀ name ino, t.dir.names (.file name) = some ino → ino.Of i → ino = .reservation i) ∧
          t.dir.names (.temporary i) = none ∧
          (t.held i = true →
            t.dir.names (.file (creators i).path) = some (.reservation i) ∧
            t.dir.data (.reservation i) = []) := by
  obtain ⟨hfirst, hsecond⟩ := along_append.mp hspares
  have hsound : ∀ {u v : State} {cs : List Act}, run (step creators) u cs = some v →
      Along (step creators) (Spares creators) u cs → Sound creators u → Sound creators v :=
    run_invariant_along fun u a v h hc hu => step_sound h hc hu
  have hsound_s := hsound hs hfirst (sound_start existing)
  have hsound_t := hsound ht (hsecond s hs) hsound_s
  refine ⟨fun name ino hsettled hweighs => ?_, fun i hended => ?_, fun i e hended hraised => ?_⟩
  · have hrun : Sound creators t ∧ Settled t name ino ∧ t.dir.data ino = s.dir.data ino :=
      run_invariant_along
        (I := fun u => Sound creators u ∧ Settled u name ino ∧ u.dir.data ino = s.dir.data ino)
        (fun u a v h hc hu => by
          have hweighs' : Weighs u.dir ino := by
            rw [Weighs, isEmptyFile, hu.2.2]
            exact hweighs
          obtain ⟨hthere, hdata⟩ := step_keeps h hc hu.1 hu.2.1 hweighs'
          exact ⟨step_sound h hc hu.1, hthere, hdata.trans hu.2.2⟩)
        ht (hsecond s hs) ⟨hsound_s, hsettled, rfl⟩
    exact ⟨hrun.2.1.1, hrun.2.2⟩
  · have hi := hsound_t.creator i
    rw [hended] at hi
    obtain ⟨⟨⟨ino, -, hname, hdata⟩, haccepted⟩, -⟩ := hi
    exact ⟨⟨ino, hname, hdata⟩, haccepted⟩
  · have hi := hsound_t.creator i
    rw [hended] at hi
    obtain ⟨hend, htemporary⟩ := hi
    cases e with
    | returned | raisedAfter => exact hraised.elim
    | copyLeft | temporaryLeft => exact hend.elim
    | raised =>
      exact ⟨fun name ino hname hof => (hend.placed name ino hname hof).2.2, htemporary,
        hend.reservation⟩

end Run

/-- A caller that has reserved its name, and one that has not. -/
def reserver : Nat → Creator
  | 0 => { path := "out.dbs", reserved := true }
  | _ => { path := "out.dbs" }

/-- The first reserves the name and gets it; the second finds it taken. -/
theorem creations_keep_reserved :
    ∃ s t, run (step reserver) (start reserver fun _ => none)
        [.reserve 0, .call 0 .returns, .write 0 [1], .call 0 .returns, .call 0 .returns] = some s ∧
      run (step reserver) s
        [.call 1 .returns, .call 0 .returns, .call 0 .returns, .call 0 .returns, .call 0 .returns,
          .call 0 .returns] = some t ∧
      t.dir.Holds "out.dbs" [1] ∧ t.dir.names (.temporary 1) = none := by
  have hruns : ∃ s t, run (step reserver) (start reserver fun _ => none)
        [.reserve 0, .call 0 .returns, .write 0 [1], .call 0 .returns, .call 0 .returns] = some s ∧
      run (step reserver) s
        [.call 1 .returns, .call 0 .returns, .call 0 .returns, .call 0 .returns, .call 0 .returns,
          .call 0 .returns] = some t ∧
      t.phases 0 = .ended .returned ∧ t.wrote 0 = [1] ∧ t.phases 1 = .ended .raised :=
    ⟨_, _, rfl, rfl, rfl, rfl, rfl⟩
  obtain ⟨s, t, hs, ht, hreturned, hwrote, hraised⟩ := hruns
  obtain ⟨-, hwhole, hnothing⟩ := creations_keep (fun _ => none) hs ht (by decide)
  obtain ⟨hholds, -⟩ := hwhole 0 hreturned
  rw [hwrote] at hholds
  exact ⟨s, t, hs, ht, hholds, (hnothing 1 .raised hraised trivial).2.1⟩

/-- **A reservation that is let go for nothing**: the disk has no room for the link, the call raises
    with nothing published, and the caller's reservation is gone. -/
theorem reservation_lost :
    ∃ t, run (step reserver) (start reserver fun _ => none)
        [.reserve 0, .call 0 .returns, .write 0 [1], .call 0 .returns, .call 0 .returns,
          .call 0 .returns,
          .call 0 .returns, .call 0 (.raises .other), .call 0 .returns] = some t ∧
      t.phases 0 = .ended .raised ∧ t.held 0 = true ∧ t.dir.names (.file "out.dbs") = none :=
  ⟨_, rfl, rfl, rfl, rfl⟩

end Dbs.Creation

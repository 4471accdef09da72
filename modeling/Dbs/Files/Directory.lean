/-
  File:      Dbs/Files/Directory.lean
  Subject:   A DIRECTORY THAT SEVERAL PROGRAMS PUT FILES INTO, and the last act of one of them: a
             finished temporary file gets its name without replacing another (io.py, publish_new and
             _copy_exclusive).

  Names and files are apart, as a link makes a second name for one file, and as a program that copies
  into a file goes on doing so when the name is another's. One system call is one step; what it meets
  there is what the steps of all others have left.

  * `Dir` -- names and files; `Guarantee` -- what a step of one party leaves alone, which is all that is
    not its own;
  * `Answer` -- how a call comes back, as the file system likes;
  * `Publishing`, `publishStep` -- `publish_new`, call by call;
  * `Publishing.Sound` -- where it is; `publishStep_sound`, `publishStep_guarantee`, `Sound.stable`,
    `publishStep_keeps` -- its own steps, and those of others.
-/
import Dbs.Lib.Octets

namespace Dbs.Directory

open Octets

/-! ## 1. Names and files -/

/-- A name: one of those that are chosen, or the random one of a party's temporary file. -/
inductive Place
  | file (name : String)
  | temporary (i : Nat)
deriving DecidableEq

variable {i : Nat}

theorem Place.file_ne {name : String} : Place.file name ≠ .temporary i := nofun

theorem Place.temporary_ne {name : String} : Place.temporary i ≠ .file name := nofun

/-- A file: one from before (`special` is no regular one), a party's temporary file, the copy it makes
    of that, its reservation, or one that another program has made. -/
inductive Inode
  | was (name : String)
  | special (name : String)
  | temporary (i : Nat)
  | copied (i : Nat)
  | reservation (i : Nat)
  | made (k : Nat)
deriving DecidableEq

/-- The files of party `i`. -/
inductive Inode.Of (i : Nat) : Inode → Prop
  | temporary : Of i (.temporary i)
  | copied : Of i (.copied i)
  | reservation : Of i (.reservation i)

theorem Inode.Of.unique {i j : Nat} {ino : Inode} (hi : ino.Of i) (hj : ino.Of j) : i = j := by
  cases hi <;> cases hj <;> rfl

structure Dir where
  names : Place → Option Inode
  data : Inode → Bytes

variable {d d' d'' : Dir} {p q : Place} {ino other : Inode} {bytes : Bytes}

def Dir.bind (d : Dir) (p : Place) (ino : Inode) : Dir :=
  { d with names := Function.update d.names p (some ino) }

def Dir.unlink (d : Dir) (p : Place) : Dir := { d with names := Function.update d.names p none }

def Dir.fill (d : Dir) (ino : Inode) (bytes : Bytes) : Dir :=
  { d with data := Function.update d.data ino bytes }

@[simp] theorem Dir.bind_data : (d.bind p ino).data = d.data := rfl

@[simp] theorem Dir.unlink_data : (d.unlink p).data = d.data := rfl

@[simp] theorem Dir.fill_names : (d.fill ino bytes).names = d.names := rfl

@[simp] theorem Dir.bind_self : (d.bind p ino).names p = some ino := Function.update_self ..

@[simp] theorem Dir.unlink_self : (d.unlink p).names p = none := Function.update_self ..

@[simp] theorem Dir.fill_self : (d.fill ino bytes).data ino = bytes := Function.update_self ..

theorem Dir.bind_of_ne (h : q ≠ p) : (d.bind p ino).names q = d.names q := Function.update_of_ne h ..

theorem Dir.unlink_of_ne (h : q ≠ p) : (d.unlink p).names q = d.names q := Function.update_of_ne h ..

theorem Dir.fill_of_ne (h : other ≠ ino) : (d.fill ino bytes).data other = d.data other :=
  Function.update_of_ne h ..

/-- The file of a name, with its content. -/
def Dir.Holds (d : Dir) (name : String) (bytes : Bytes) : Prop :=
  ∃ ino, d.names (.file name) = some ino ∧ d.data ino = bytes

/-- None of party `i`'s files has a name that is chosen. -/
def Dir.Unplaced (d : Dir) (i : Nat) : Prop := ∀ name ino, d.names (.file name) = some ino → ¬ ino.Of i

/-! ## 2. What a party leaves alone -/

/-- Files that are not its own keep their names and what is in them, get no new ones, and nobody else's
    temporary name is touched. -/
structure Guarantee (Mine : Inode → Prop) (d d' : Dir) : Prop where
  kept : ∀ p ino, d.names p = some ino → ¬ Mine ino → d'.names p = some ino
  fresh : ∀ p ino, d'.names p = some ino → ¬ Mine ino → d.names p = some ino
  data : ∀ ino, ¬ Mine ino → d'.data ino = d.data ino
  temporary : ∀ j, ¬ Mine (.temporary j) → d'.names (.temporary j) = d.names (.temporary j)

namespace Guarantee

variable {Mine : Inode → Prop}

theorem refl : Guarantee Mine d d :=
  ⟨fun _ _ h _ => h, fun _ _ h _ => h, fun _ _ => rfl, fun _ _ => rfl⟩

theorem trans (h : Guarantee Mine d d') (h' : Guarantee Mine d' d'') : Guarantee Mine d d'' where
  kept p ino hp hne := h'.kept p ino (h.kept p ino hp hne) hne
  fresh p ino hp hne := h.fresh p ino (h'.fresh p ino hp hne) hne
  data ino hne := (h'.data ino hne).trans (h.data ino hne)
  temporary j hne := (h'.temporary j hne).trans (h.temporary j hne)

theorem fill (h : Mine ino) : Guarantee Mine d (d.fill ino bytes) where
  kept _ _ hp _ := hp
  fresh _ _ hp _ := hp
  data _ hne := Dir.fill_of_ne fun he => hne (he ▸ h)
  temporary _ _ := rfl

/-- A name for a file of its own, where there was none. -/
theorem bind (h : Mine ino) (hfree : d.names p = none)
    (hp : ∀ j, p = .temporary j → Mine (.temporary j)) :
    Guarantee Mine d (d.bind p ino) where
  kept q _ hq _ := by
    have hne : q ≠ p := fun he => nomatch (he ▸ hq).symm.trans hfree
    rw [Dir.bind_of_ne hne, hq]
  fresh q _ hq hother := by
    by_cases hqp : q = p
    · subst hqp
      rw [Dir.bind_self] at hq
      exact absurd (Option.some.inj hq ▸ h) hother
    · rwa [Dir.bind_of_ne hqp] at hq
  data _ _ := rfl
  temporary j hj := Dir.bind_of_ne fun he => hj (hp j he.symm)

/-- A name of a file of its own, taken away. -/
theorem unlink (h : ∀ ino, d.names p = some ino → Mine ino)
    (hp : ∀ j, p = .temporary j → Mine (.temporary j)) :
    Guarantee Mine d (d.unlink p) where
  kept q other hq hother := by
    have hne : q ≠ p := fun he => hother (h other (he ▸ hq))
    rw [Dir.unlink_of_ne hne, hq]
  fresh q other hq _ := by
    by_cases hqp : q = p
    · subst hqp
      rw [Dir.unlink_self] at hq
      exact nomatch hq
    · rwa [Dir.unlink_of_ne hqp] at hq
  data _ _ := rfl
  temporary j hj := Dir.unlink_of_ne fun he => hj (hp j he.symm)

end Guarantee

variable {Mine : Inode → Prop}

/-- A step of others leaves a party without files under names. -/
theorem Dir.Unplaced.stable (h : d.Unplaced i) (hstep : Guarantee Mine d d')
    (hmine : ∀ ino, ino.Of i → ¬ Mine ino) : d'.Unplaced i :=
  fun name ino hname hof => h name ino (hstep.fresh _ _ hname (hmine ino hof)) hof

/-! ## 3. Publishing -/

/-- The errors that are told apart. -/
inductive Errno
  | eperm
  | eacces
  | exdev
  | emlink
  | enosys
  | enotsup
  | eopnotsupp
  | other
deriving DecidableEq

/-- `LINK_UNSUPPORTED`. -/
def linkUnsupported : Errno → Bool
  | .other => false
  | _ => true

/-- How a call comes back: it does what it is for, or finds that it cannot (`FileExistsError`,
    `FileNotFoundError`); the platform lacks it (`AttributeError`, `NotImplementedError`); it raises. A
    copy takes some bytes at a time. -/
inductive Answer
  | returns
  | missing
  | raises (e : Errno)
  | takes (n : Nat)
deriving DecidableEq

/-- Where `publish_new` is. It ends `done`, or raises: `refused` with nothing under the name, `left`
    with a copy there that it could not take away, `interrupted` with the whole file there. -/
inductive Publishing
  | linking
  | opening
  | copying (rest : Bytes)
  | undoing
  | syncing
  | done
  | refused
  | left
  | interrupted
deriving DecidableEq

/-- `publish_new(source, destination)`, the next call. -/
def publishStep (i : Nat) (name : String) (d : Dir) : Publishing → Answer → Option (Dir × Publishing)
  | .linking, .returns =>
    match d.names (.file name), d.names (.temporary i) with
    | some _, _ => some (d, .refused)
    | none, none => some (d, .refused)
    | none, some ino => some (d.bind (.file name) ino, .syncing)
  | .linking, .missing => some (d, .opening)
  | .linking, .raises e => some (d, if linkUnsupported e then .opening else .refused)
  -- O_CREAT | O_EXCL, and the source opened to be read
  | .opening, .returns =>
    match d.names (.file name), d.names (.temporary i) with
    | some _, _ => some (d, .refused)
    | none, none => some ((d.fill (.copied i) []).bind (.file name) (.copied i), .undoing)
    | none, some ino => some ((d.fill (.copied i) []).bind (.file name) (.copied i),
        .copying (d.data ino))
  | .opening, .missing => some (d, .refused)
  | .opening, .raises _ => some (d, .refused)
  | .copying rest, .takes n =>
    some (d.fill (.copied i) (d.data (.copied i) ++ rest.take n), .copying (rest.drop n))
  | .copying rest, .returns => if rest = [] then some (d, .syncing) else none
  | .copying _, .missing => some (d, .undoing)
  | .copying _, .raises _ => some (d, .undoing)
  | .undoing, .returns => some (d.unlink (.file name), .refused)
  | .undoing, .missing => some (d, .left)
  | .undoing, .raises _ => some (d, .left)
  | .syncing, .returns => some (d, .done)
  | .syncing, .missing => some (d, .interrupted)
  | .syncing, .raises _ => some (d, .interrupted)
  | _, _ => none

/-- The source, as its maker left it. -/
structure Dir.Source (d : Dir) (i : Nat) (content : Bytes) : Prop where
  name : d.names (.temporary i) = some (.temporary i)
  data : d.data (.temporary i) = content

/-- A file of party `i` under a name, with its whole content. -/
def Dir.Placed (d : Dir) (i : Nat) (name : String) (content : Bytes) : Prop :=
  ∃ ino, ino.Of i ∧ d.names (.file name) = some ino ∧ d.data ino = content

/-- What is so while `publish_new` is there. -/
def Publishing.Sound (i : Nat) (name : String) (content : Bytes) (d : Dir) : Publishing → Prop
  | .linking => d.Unplaced i ∧ d.Source i content
  | .opening => d.Unplaced i ∧ d.Source i content
  | .copying rest => d.names (.file name) = some (.copied i) ∧ d.data (.copied i) ++ rest = content ∧
      ∀ other, other ≠ name → ∀ ino, d.names (.file other) = some ino → ¬ ino.Of i
  | .undoing => d.names (.file name) = some (.copied i) ∧
      ∀ other, other ≠ name → ∀ ino, d.names (.file other) = some ino → ¬ ino.Of i
  | .syncing => d.Placed i name content
  | .done => d.Placed i name content
  | .refused => d.Unplaced i
  | .left => True
  | .interrupted => d.Placed i name content

theorem Dir.Source.stable {content : Bytes} (h : d.Source i content)
    (hstep : Guarantee Mine d d') (hmine : ∀ ino, ino.Of i → ¬ Mine ino) : d'.Source i content where
  name := hstep.kept _ _ h.name (hmine _ .temporary)
  data := (hstep.data _ (hmine _ .temporary)).trans h.data

theorem Dir.Placed.stable {name : String} {content : Bytes}
    (h : d.Placed i name content) (hstep : Guarantee Mine d d') (hmine : ∀ ino, ino.Of i → ¬ Mine ino) :
    d'.Placed i name content := by
  obtain ⟨ino, hof, hname, hdata⟩ := h
  exact ⟨ino, hof, hstep.kept _ _ hname (hmine ino hof), (hstep.data ino (hmine ino hof)).trans hdata⟩

section Publish

variable {i : Nat} {name : String} {content : Bytes} {at_ next : Publishing} {answer : Answer}

/-- **Steps of others** do not move it. -/
theorem Publishing.Sound.stable {Mine : Inode → Prop} (h : Publishing.Sound i name content d at_)
    (hstep : Guarantee Mine d d') (hmine : ∀ ino, ino.Of i → ¬ Mine ino) :
    Publishing.Sound i name content d' at_ := by
  have hothers : (∀ other, other ≠ name → ∀ ino, d.names (.file other) = some ino → ¬ ino.Of i) →
      ∀ other, other ≠ name → ∀ ino, d'.names (.file other) = some ino → ¬ ino.Of i :=
    fun h other hother ino hino hof => h other hother ino (hstep.fresh _ _ hino (hmine ino hof)) hof
  cases at_ with
  | linking | opening => exact ⟨h.1.stable hstep hmine, h.2.stable hstep hmine⟩
  | copying rest =>
    refine ⟨hstep.kept _ _ h.1 (hmine _ .copied), ?_, hothers h.2.2⟩
    rw [hstep.data _ (hmine _ .copied)]
    exact h.2.1
  | undoing => exact ⟨hstep.kept _ _ h.1 (hmine _ .copied), hothers h.2⟩
  | syncing | done => exact Dir.Placed.stable h hstep hmine
  | refused => exact Dir.Unplaced.stable h hstep hmine
  | left => trivial
  | interrupted => exact Dir.Placed.stable h hstep hmine

/-- A link to the source, at a name that was free. -/
theorem placed_bind (hsource : d.Source i content) :
    (d.bind (.file name) (.temporary i)).Placed i name content :=
  ⟨.temporary i, .temporary, Dir.bind_self, hsource.data⟩

/-- Exclusive creation: an empty file of party `i` under a name that was free. -/
theorem create_names (hunplaced : d.Unplaced i) :
    ((d.fill (.copied i) []).bind (.file name) (.copied i)).names (.file name) = some (.copied i) ∧
      ∀ other, other ≠ name → ∀ ino,
        ((d.fill (.copied i) []).bind (.file name) (.copied i)).names (.file other) = some ino →
          ¬ ino.Of i := by
  refine ⟨Dir.bind_self, fun other hother ino hino => hunplaced other ino ?_⟩
  rwa [Dir.bind_of_ne fun he => hother (Place.file.inj he)] at hino

/-- **Its own steps**: where `publish_new` is next. -/
theorem publishStep_sound (h : publishStep i name d at_ answer = some (d', next))
    (hsound : Publishing.Sound i name content d at_) : Publishing.Sound i name content d' next := by
  cases at_ with
  | linking =>
    obtain ⟨hunplaced, hsource⟩ := hsound
    cases answer with
    | returns =>
      rw [publishStep] at h
      split at h
      · cases h
        exact hunplaced
      · cases h
        exact hunplaced
      · rename_i ino hino
        cases h
        cases hsource.name.symm.trans hino
        exact placed_bind hsource
    | missing =>
      cases h
      exact ⟨hunplaced, hsource⟩
    | raises e =>
      rw [publishStep] at h
      cases h
      split
      · exact ⟨hunplaced, hsource⟩
      · exact hunplaced
    | takes n => exact nomatch h
  | opening =>
    obtain ⟨hunplaced, hsource⟩ := hsound
    cases answer with
    | returns =>
      rw [publishStep] at h
      split at h
      · cases h
        exact hunplaced
      · cases h
        exact create_names hunplaced
      · rename_i ino hino
        cases h
        cases hsource.name.symm.trans hino
        obtain ⟨hname, hothers⟩ := create_names hunplaced
        refine ⟨hname, ?_, hothers⟩
        rw [Dir.bind_data, Dir.fill_self, List.nil_append]
        exact hsource.data
    | missing | raises _ =>
      cases h
      exact hunplaced
    | takes n => exact nomatch h
  | copying rest =>
    obtain ⟨hname, hdata, hothers⟩ := hsound
    cases answer with
    | returns =>
      rw [publishStep] at h
      split at h
      · rename_i hrest
        cases h
        rw [hrest, List.append_nil] at hdata
        exact ⟨.copied i, .copied, hname, hdata⟩
      · exact nomatch h
    | missing | raises _ =>
      cases h
      exact ⟨hname, hothers⟩
    | takes n =>
      cases h
      refine ⟨hname, ?_, hothers⟩
      rw [Dir.fill_self, List.append_assoc, List.take_append_drop]
      exact hdata
  | undoing =>
    obtain ⟨hname, hothers⟩ := hsound
    cases answer with
    | returns =>
      cases h
      intro other ino hino
      by_cases hother : other = name
      · subst hother
        rw [Dir.unlink_self] at hino
        exact nomatch hino
      · rw [Dir.unlink_of_ne fun he => hother (Place.file.inj he)] at hino
        exact hothers other hother ino hino
    | missing | raises _ =>
      cases h
      trivial
    | takes n => exact nomatch h
  | syncing =>
    cases answer with
    | returns | missing | raises _ =>
      cases h
      exact hsound
    | takes n => exact nomatch h
  | done | refused | left | interrupted => cases answer <;> exact nomatch h

/-- What a call does to the directory: nothing, a name for a file where there was none, a part of the
    copy, or the name of the copy taken away. -/
inductive Publishes (i : Nat) (name : String) (d : Dir) (at_ : Publishing) : Dir → Prop
  | nothing : Publishes i name d at_ d
  | link (ino : Inode) (hsource : d.names (.temporary i) = some ino)
    (hfree : d.names (.file name) = none)
      (hat : at_ = .linking) : Publishes i name d at_ (d.bind (.file name) ino)
  | create (hfree : d.names (.file name) = none) (hat : at_ = .opening) :
      Publishes i name d at_ ((d.fill (.copied i) []).bind (.file name) (.copied i))
  | copy (rest : Bytes) (bytes : Bytes) (hat : at_ = .copying rest) :
      Publishes i name d at_ (d.fill (.copied i) bytes)
  | undo (hat : at_ = .undoing) : Publishes i name d at_ (d.unlink (.file name))

section

variable (h : publishStep i name d at_ answer = some (d', next))

include h

theorem publishStep_publishes : Publishes i name d at_ d' := by
  unfold publishStep at h
  split at h
  · split at h
    · cases h; exact .nothing
    · cases h; exact .nothing
    · rename_i ino hfree hino
      cases h
      exact .link ino hino hfree rfl
  · cases h; exact .nothing
  · cases h; exact .nothing
  · split at h
    · cases h; exact .nothing
    · rename_i hfree _
      cases h
      exact .create hfree rfl
    · rename_i hfree _
      cases h
      exact .create hfree rfl
  · cases h; exact .nothing
  · cases h; exact .nothing
  · cases h; exact .copy _ _ rfl
  · split at h
    · cases h; exact .nothing
    · exact nomatch h
  · cases h; exact .nothing
  · cases h; exact .nothing
  · cases h; exact .undo rfl
  · cases h; exact .nothing
  · cases h; exact .nothing
  · cases h; exact .nothing
  · cases h; exact .nothing
  · cases h; exact .nothing
  · exact nomatch h

/-- No temporary name is touched. -/
theorem publishStep_temporary (j : Nat) : d'.names (.temporary j) = d.names (.temporary j) := by
  cases publishStep_publishes h with
  | nothing => rfl
  | link _ _ _ _ | create _ _ => exact Dir.bind_of_ne Place.temporary_ne
  | copy rest bytes hat => rfl
  | undo hat => exact Dir.unlink_of_ne Place.temporary_ne

/-- A copy is there only from its creation on. -/
theorem publishStep_copying {rest : Bytes} (hnext : next = .copying rest ∨ next = .undoing) :
    at_ = .opening ∨ ∃ before, at_ = .copying before ∨ at_ = .undoing := by
  have hother : ∀ p : Publishing, p = .syncing ∨ p = .refused ∨ p = .opening ∨ p = .done ∨
    p = .interrupted →
      p ≠ .copying rest ∧ p ≠ .undoing := by
    rintro p (rfl | rfl | rfl | rfl | rfl) <;> exact ⟨nofun, nofun⟩
  have hnot : ¬ (next = .syncing ∨ next = .refused ∨ next = .opening ∨ next = .done ∨
    next = .interrupted) := by
    intro hends
    obtain ⟨h1, h2⟩ := hother next hends
    exact hnext.elim h1 h2
  cases at_ with
  | opening => exact Or.inl rfl
  | copying before => exact Or.inr ⟨before, Or.inl rfl⟩
  | undoing => exact Or.inr ⟨[], Or.inr rfl⟩
  | linking =>
    refine absurd ?_ hnot
    cases answer with
    | returns =>
      rw [publishStep] at h
      split at h <;> cases h <;> simp
    | missing => cases h; simp
    | raises e =>
      rw [publishStep] at h
      cases h
      split <;> simp
    | takes n => exact nomatch h
  | syncing =>
    refine absurd ?_ hnot
    cases answer with
    | returns => cases h; simp
    | missing => cases h; simp
    | raises e => cases h; simp
    | takes n => exact nomatch h
  | done | refused | left | interrupted => cases answer <;> exact nomatch h

/-- What `publish_new` leaves alone. -/
theorem publishStep_guarantee
    (hsound : Publishing.Sound i name content d at_) : Guarantee (Inode.Of i) d d' := by
  have hplace : ∀ j, Place.file name = .temporary j → Inode.Of i (.temporary j) := nofun
  cases publishStep_publishes h with
  | nothing => exact .refl
  | link ino hsource hfree hat =>
    subst hat
    cases hsound.2.name.symm.trans hsource
    exact .bind .temporary hfree hplace
  | create hfree hat => exact (Guarantee.fill .copied).trans (.bind .copied hfree hplace)
  | copy rest bytes hat => exact .fill .copied
  | undo hat =>
    subst hat
    refine .unlink (fun ino hino => ?_) hplace
    cases hsound.1.symm.trans hino
    exact .copied

/-- **A file under a name stays there**, unless it is the copy that `publish_new` is still making. -/
theorem publishStep_keeps
    (hsound : Publishing.Sound i name content d at_) {other : String}
    (hname : d.names (.file other) = some ino)
    (hcopy : ∀ rest, (at_ = .copying rest ∨ at_ = .undoing) → ino ≠ .copied i) :
    d'.names (.file other) = some ino ∧ d'.data ino = d.data ino := by
  have hne : d.names (.file name) = none → Place.file other ≠ .file name :=
    fun hfree he => nomatch (he ▸ hname).symm.trans hfree
  cases publishStep_publishes h with
  | nothing => exact ⟨hname, rfl⟩
  | link source hsource hfree hat => exact ⟨(Dir.bind_of_ne (hne hfree)).trans hname, rfl⟩
  | create hfree hat =>
    subst hat
    refine ⟨(Dir.bind_of_ne (hne hfree)).trans hname, Dir.fill_of_ne fun he => ?_⟩
    exact hsound.1 other ino hname (he ▸ .copied)
  | copy rest bytes hat => exact ⟨hname, Dir.fill_of_ne (hcopy rest (Or.inl hat))⟩
  | undo hat =>
    have hother : Place.file other ≠ .file name := by
      intro he
      subst hat
      rw [he, hsound.1] at hname
      exact hcopy [] (Or.inr rfl) (Option.some.inj hname).symm
    exact ⟨(Dir.unlink_of_ne hother).trans hname, rfl⟩

end

end Publish

end Dbs.Directory

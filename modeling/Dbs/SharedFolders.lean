/-
  File:      Dbs/SharedFolders.lean
  Subject:   WHOSE THE FILES OF A SERVER'S FOLDER ARE (backup_run_service.py, take_prefix, plan_prefix,
             archive_pattern, _unused_archive_name; ssh_gateway.py, prune; backup_plan_service.py,
             _check_name): a file is told by the prefix of its name, which is made of two slugs.

  An application's own takes and its plans of the kinds DBS and ARCHIVE make files on the server; a plan
  that collects makes none. `slugify` is Django's: of it is used which characters it leaves.

  * `takePrefix`, `planPrefix`, `fileName`, `archivePattern`, `prune`, `checkName` -- as the code has
    them;
  * `Owner.Touches` -- what a run collects, releases or prunes; `Apart` -- two owners leave each
    other's files;
  * `touches_recognised` -- a run touches no file that its owner does not recognise;
  * `apart_iff` -- two owners are apart just when their kinds or their joined slugs differ;
    `takes_and_plan` -- two whose names were accepted, and are not.
-/
import Dbs.Remote.Redaction
import Dbs.Streaming

namespace Dbs.SharedFolders

open Naming Release Streaming Rows

/-! ## 1. Prefixes -/

/-- What a slug consists of. -/
def slugChar (c : Char) : Bool :=
  c.isDigit || (decide ('a' ≤ c) && decide (c ≤ 'z')) || c == '-' || c == '_'

/-- `django.utils.text.slugify`. -/
structure Slugs where
  slugify : Name → Name
  chars : ∀ name, ∀ c ∈ slugify name, slugChar c = true

/-- The kinds of plans that make files on the server. -/
inductive Kind
  | dbs
  | archive
deriving DecidableEq

structure Plan where
  /-- `pk.hex`. -/
  hex : Name
  name : Name
  kind : Kind
  isHex : ∀ c ∈ hex, isHex c = true

/-- An application's own takes, or one of its plans. -/
structure Owner where
  application : Name
  plan : Option Plan

variable (S : Slugs)

def fallbackPrefix : Name := "backup".toList

/-- The slug of a name, or what stands in its place. -/
def slugOr (name fallback : Name) : Name := if S.slugify name = [] then fallback else S.slugify name

def takePrefix (application : Name) : Name := slugOr S application fallbackPrefix

def Plan.fallback (plan : Plan) : Name := "plan-".toList ++ plan.hex.take 8

def planPrefix (application : Name) (plan : Plan) : Name :=
  takePrefix S application ++ '-' :: slugOr S plan.name plan.fallback

namespace Owner

def kind (o : Owner) : Kind := (o.plan.map Plan.kind).getD .dbs

def stem (o : Owner) : Name :=
  match o.plan with
  | none => takePrefix S o.application
  | some plan => planPrefix S o.application plan

end Owner

/-! ## 2. Names that are made, and names that are recognised -/

def archiveSuffix : Name := ".tar.gz".toList

/-- `_unused_archive_name`, with the ordinal that was free. -/
def archiveName (stem : Name) (moment : DateTime) (ordinal : Nat) : Name :=
  stem ++ '-' :: (stampOf moment ++ 'Z' :: (ordinalSuffix ordinal ++ archiveSuffix))

/-- The whole name matches `prefix-\d{8}-\d{6}Z(?:-\d+)?\.tar\.gz`. -/
def archivePattern (stem name : Name) : Bool :=
  let rest := name.drop stem.length
  stem.isPrefixOf name && rest[0]? == some '-' && isStamp ((rest.drop 1).take 15) &&
    rest[16]? == some 'Z' && skipGroup ['-'] (rest.drop 17) == archiveSuffix

/-- An entry of a folder of the server. -/
structure Entry where
  filename : Name
  isFile : Bool
  mtime : Option Nat

/-- The names that are removed, the oldest first. -/
def prune (entries : List Entry) (pattern : Name → Bool) (keep : Nat) : List Name :=
  let matching := orderBy (fun e => toLex (e.mtime.getD 0, e.filename))
    (entries.filter fun e => pattern e.filename && e.isFile)
  (matching.take (matching.length - keep)).map Entry.filename

namespace Owner

def fileName (o : Owner) (moment : DateTime) (ordinal : Nat) : Name :=
  match o.kind with
  | .dbs => backupFilename (o.stem S) moment ordinal
  | .archive => archiveName (o.stem S) moment ordinal

def recognises (o : Owner) (name : Name) : Bool :=
  match o.kind with
  | .dbs => isBackupName name (some (o.stem S))
  | .archive => archivePattern (o.stem S) name

/-- What a run of the owner collects or releases among the files of a folder, takes for the backup that
    it asked for, or prunes. -/
inductive Touches (o : Owner) : Name → Prop
  | waiting {server : Server} {j : Job} {found : ServerBackup} (hkind : o.kind = .dbs)
      (hstem : j.stem = o.stem S) (hfound : found ∈ waitingBackups server j) : Touches o found.name
  | installed {records : List (BackupFile Name)} {j : Job} {listed : List ServerBackup} {name : Name}
      {found : ServerBackup} (hkind : o.kind = .dbs) (hstem : j.stem = o.stem S)
      (hfound : installed records j listed name = some found) : Touches o found.name
  | pruned {entries : List Entry} {keep : Nat} {name : Name} (hkind : o.kind = .archive)
      (hpruned : name ∈ prune entries (archivePattern (o.stem S)) keep) : Touches o name

end Owner

/-- The second recognises no file that the first makes, and leaves all of them. -/
def Spares (first second : Owner) : Prop :=
  ∀ moment ordinal, second.recognises S (first.fileName S moment ordinal) = false ∧
    ¬ second.Touches S (first.fileName S moment ordinal)

def Apart (first second : Owner) : Prop := Spares S first second ∧ Spares S second first

/-! ## 3. The checks of the names -/

/-- `ApplicationRepository.name_in_use`, among the active applications. -/
def nameInUse (active : List Name) (name : Name) : Bool := active.contains name

def nameTaken : String := "Another plan for this application already has this name."

def similarNameTaken : String :=
  "Another plan for this application has a name that differs only in case or " ++
    "punctuation, so their backups would share file names on the server."

/-- `_check_name`, with the names of the application's other plans: the error of the field `name`. -/
def checkName (others : List Name) (name : Name) : Option String :=
  if others.contains name then some nameTaken
  else if S.slugify name ≠ [] ∧ (others.any fun other => S.slugify other = S.slugify name) then
    some similarNameTaken
  else none

/-! ## 4. A run touches what its owner recognises -/

variable {S} {o p : Owner} {name stem : Name} {moment : DateTime} {ordinal : Nat}

theorem mem_prune {entries : List Entry} {pattern : Name → Bool} {keep : Nat}
    (h : name ∈ prune entries pattern keep) : pattern name = true := by
  obtain ⟨e, he, rfl⟩ := List.mem_map.mp h
  have hmatching := (orderBy_perm _ _).mem_iff.mp (List.mem_of_mem_take he)
  have hboth := (List.mem_filter.mp hmatching).2
  exact (Bool.and_eq_true_iff.mp hboth).1

theorem mem_waitingBackups {server : Server} {j : Job} {found : ServerBackup}
    (h : found ∈ waitingBackups server j) : isBackupName found.name (some j.stem) = true := by
  rw [waitingBackups] at h
  split at h
  · cases h
  · exact (List.mem_filter.mp ((orderBy_perm _ _).mem_iff.mp h)).2

theorem installed_isBackupName {records : List (BackupFile Name)} {j : Job} {listed : List ServerBackup}
    {found : ServerBackup} (h : installed records j listed name = some found) :
    isBackupName found.name (some j.stem) = true := by
  have hof : ∀ l : List ServerBackup, found ∈ l.filter (fun b => !((recordedAt records j.application
      (listed.map ServerBackup.path)).map BackupFile.remotePath).contains (some b.path) &&
        isBackupName b.name (some j.stem) && parseBackupMoment b.name = parseBackupMoment name) →
      isBackupName found.name (some j.stem) = true := by
    intro l hl
    have hall := (List.mem_filter.mp hl).2
    simp only [Bool.and_eq_true] at hall
    exact hall.1.2
  simp only [installed] at h
  split at h
  · rename_i b hb
    cases h
    exact hof _ (List.mem_of_find?_eq_some hb)
  · exact hof _ (List.mem_of_mem_head? h)

/-- **What a run collects, releases or prunes** has a name that its owner recognises. -/
theorem touches_recognised (h : o.Touches S name) : o.recognises S name = true := by
  cases h with
  | waiting hkind hstem hfound =>
    rw [Owner.recognises, hkind, ← hstem]
    exact mem_waitingBackups hfound
  | installed hkind hstem hfound =>
    rw [Owner.recognises, hkind, ← hstem]
    exact installed_isBackupName hfound
  | pruned hkind hpruned =>
    rw [Owner.recognises, hkind]
    exact mem_prune hpruned

theorem spares_iff :
    Spares S o p ↔ ∀ moment ordinal, p.recognises S (o.fileName S moment ordinal) = false := by
  constructor
  · exact fun h moment ordinal => (h moment ordinal).1
  · intro h moment ordinal
    refine ⟨h moment ordinal, fun ht => ?_⟩
    have htouched := touches_recognised ht
    rw [h moment ordinal] at htouched
    cases htouched

/-! ## 5. What a prefix consists of -/

theorem slugChar_of_isHex {c : Char} (h : Streaming.isHex c = true) : slugChar c = true := by
  rw [Streaming.isHex, Bool.or_eq_true, Bool.and_eq_true, decide_eq_true_eq, decide_eq_true_eq] at h
  simp only [slugChar, Bool.or_eq_true, Bool.and_eq_true, decide_eq_true_eq]
  rcases h with h | ⟨hlow, hhigh⟩
  · exact .inl (.inl (.inl h))
  · exact .inl (.inl (.inr ⟨hlow, le_trans hhigh (by decide)⟩))

theorem slugOr_chars {fallback : Name} (hf : ∀ c ∈ fallback, slugChar c = true) :
    ∀ c ∈ slugOr S name fallback, slugChar c = true := by
  intro c hc
  rw [slugOr] at hc
  split at hc
  · exact hf c hc
  · exact S.chars name c hc

theorem takePrefix_chars : ∀ c ∈ takePrefix S name, slugChar c = true :=
  slugOr_chars (List.all_eq_true.mp (by decide))

theorem fallback_chars (plan : Plan) : ∀ c ∈ plan.fallback, slugChar c = true := by
  have hword : ∀ c ∈ "plan-".toList, slugChar c = true := List.all_eq_true.mp (by decide)
  intro c hc
  rcases List.mem_append.mp hc with hc | hc
  · exact hword c hc
  · exact slugChar_of_isHex (plan.isHex c (List.mem_of_mem_take hc))

theorem stem_chars (o : Owner) : ∀ c ∈ o.stem S, slugChar c = true := by
  intro c hc
  rw [Owner.stem] at hc
  cases hplan : o.plan with
  | none =>
    rw [hplan] at hc
    exact takePrefix_chars c hc
  | some plan =>
    rw [hplan] at hc
    rcases List.mem_append.mp hc with hc | hc
    · exact takePrefix_chars c hc
    · rcases List.mem_cons.mp hc with rfl | hc
      · rfl
      · exact slugOr_chars (fallback_chars plan) c hc

theorem takePrefix_ne_nil : takePrefix S name ≠ [] := by
  rw [takePrefix, slugOr]
  split
  · decide
  · assumption

theorem stem_ne_nil (o : Owner) : o.stem S ≠ [] := by
  rw [Owner.stem]
  cases o.plan with
  | none => exact takePrefix_ne_nil
  | some plan => exact List.append_ne_nil_of_left_ne_nil takePrefix_ne_nil _

theorem stem_no_line (o : Owner) : '\n' ∉ o.stem S := fun h => absurd (stem_chars o _ h) (by decide)

theorem stem_no_z (o : Owner) : 'Z' ∉ o.stem S := fun h => absurd (stem_chars o _ h) (by decide)

/-! ## 6. Who recognises a name -/

theorem ordinalSuffix_char {c : Char} (h : c ∈ ordinalSuffix ordinal) : c.isDigit = true ∨ c = '-' := by
  rw [ordinalSuffix] at h
  split at h
  · cases h
  · rcases List.mem_cons.mp h with h | h
    · exact .inr h
    · exact .inl (ordinal_digit h)

theorem skipGroup_archive (ordinal : Nat) :
    skipGroup ['-'] (ordinalSuffix ordinal ++ archiveSuffix) = archiveSuffix := by
  rw [ordinalSuffix]
  split
  · rfl
  · cases hdigits : Nat.toDigits 10 ordinal with
    | nil => exact absurd hdigits Nat.toDigits_ne_nil
    | cons c cs =>
      have hall : ∀ x ∈ c :: cs, x.isDigit = true := fun x hx => ordinal_digit (hdigits ▸ hx)
      have hskip : (((c :: cs) ++ archiveSuffix).dropWhile Char.isDigit) = archiveSuffix := by
        rw [List.dropWhile_append_of_pos hall]
        rfl
      have hhead : (((c :: cs) ++ archiveSuffix).head?).any Char.isDigit = true :=
        hall c List.mem_cons_self
      rw [skipGroup, if_pos (by simpa [List.isPrefixOf] using hhead)]
      exact hskip

/-- An owner recognises the archives of its own prefix. -/
theorem archivePattern_own : archivePattern stem (archiveName stem moment ordinal) = true := by
  have hlength := stampOf_length moment
  have hrest : (archiveName stem moment ordinal).drop stem.length =
      '-' :: (stampOf moment ++ 'Z' :: (ordinalSuffix ordinal ++ archiveSuffix)) := List.drop_left' rfl
  have hstamp : (stampOf moment ++ 'Z' :: (ordinalSuffix ordinal ++ archiveSuffix)).take 15 =
      stampOf moment := List.take_left' hlength
  have hz : ('-' :: (stampOf moment ++ 'Z' :: (ordinalSuffix ordinal ++ archiveSuffix)))[16]? =
    some 'Z' := by
    rw [List.getElem?_cons_succ, List.getElem?_append_right hlength.le, hlength]
    rfl
  have htail : ('-' :: (stampOf moment ++ 'Z' :: (ordinalSuffix ordinal ++ archiveSuffix))).drop 17 =
      ordinalSuffix ordinal ++ archiveSuffix := by
    rw [List.drop_succ_cons, show 16 = 15 + 1 from rfl, ← List.drop_drop, List.drop_left' hlength]
    rfl
  have hstart : stem.isPrefixOf (archiveName stem moment ordinal) = true :=
    List.isPrefixOf_iff_prefix.mpr (List.prefix_append _ _)
  simp only [archivePattern, hrest, List.drop_one, List.tail_cons, hstamp, hz, htail, skipGroup_archive,
    isStamp_stampOf, hstart]
  rfl

/-- The parts of a name that matches the pattern. -/
theorem of_archivePattern (h : archivePattern stem name = true) : ∃ stamp behind,
    stamp.length = 15 ∧ name = stem ++ '-' :: (stamp ++ 'Z' :: behind) ∧
      skipGroup ['-'] behind = archiveSuffix := by
  simp only [archivePattern, Bool.and_eq_true, beq_iff_eq] at h
  obtain ⟨⟨⟨⟨hstart, hdash⟩, hstamp⟩, hz⟩, hbehind⟩ := h
  obtain ⟨rest, rfl⟩ := List.isPrefixOf_iff_prefix.mp hstart
  rw [List.drop_left' rfl] at hdash hstamp hz hbehind
  cases rest with
  | nil => cases hdash
  | cons c rest =>
    obtain rfl : c = '-' := Option.some.inj hdash
    simp only [List.drop_succ_cons, List.drop_zero, List.getElem?_cons_succ] at hstamp hz hbehind
    obtain ⟨hlt, hget⟩ := List.getElem?_eq_some_iff.mp hz
    refine ⟨rest.take 15, rest.drop 16, by rw [List.length_take]; omega, ?_, hbehind⟩
    rw [← hget, List.getElem_cons_drop, List.take_append_drop]

/-- **An archive tells its prefix**, if there is no `Z` in that. -/
theorem stem_of_archivePattern {other : Name} (hz : 'Z' ∉ stem)
    (h : archivePattern other (archiveName stem moment ordinal) = true) : stem = other := by
  obtain ⟨stamp, behind, hlength, heq, -⟩ := of_archivePattern h
  have hfront : 'Z' ∉ stem ++ '-' :: stampOf moment := by
    intro hmem
    rcases List.mem_append.mp hmem with hmem | hmem
    · exact hz hmem
    · rcases List.mem_cons.mp hmem with hmem | hmem
      · cases hmem
      · rcases stampOf_char hmem with hc | hc <;> cases hc
  have hback : 'Z' ∉ ordinalSuffix ordinal ++ archiveSuffix := by
    intro hmem
    rcases List.mem_append.mp hmem with hmem | hmem
    · rcases ordinalSuffix_char hmem with hc | hc <;> cases hc
    · exact absurd hmem (by decide)
  have hsplit : (stem ++ '-' :: stampOf moment) ++ 'Z' :: (ordinalSuffix ordinal ++ archiveSuffix) =
      (other ++ '-' :: stamp) ++ 'Z' :: behind := by
    rw [List.append_assoc, List.append_assoc, List.cons_append, List.cons_append, ← heq, archiveName]
  have hfronts := ((List.append_cons_inj_of_notMem hfront hback).mp hsplit).1
  exact (List.append_inj' hfronts (by simp [hlength, stampOf_length])).1

theorem archiveName_last : (archiveName stem moment ordinal).getLast? = some 'z' :=
  getLast?_of_suffix (s := archiveSuffix)
    ⟨stem ++ '-' :: (stampOf moment ++ 'Z' :: ordinalSuffix ordinal), by simp [archiveName]⟩ (by decide)

/-- No archive is taken for a backup. -/
theorem not_isBackupName_archive :
    isBackupName (archiveName stem moment ordinal) (some name) = false := by
  rw [Bool.eq_false_iff]
  intro h
  have hlast : (archiveName stem moment ordinal).getLast? = some 'z' := archiveName_last
  rcases endsAsBackup_of_isBackupName h with hends | hends
  · rw [getLast?_of_suffix hends (by decide)] at hlast
    cases hlast
  · rw [getLast?_of_suffix hends (by decide)] at hlast
    cases hlast

/-- No backup is taken for an archive. -/
theorem not_archivePattern_backup :
    archivePattern name (backupFilename stem moment ordinal) = false := by
  rw [Bool.eq_false_iff]
  intro h
  obtain ⟨stamp, behind, -, heq, hskip⟩ := of_archivePattern h
  have hsuffix : archiveSuffix <:+ backupFilename stem moment ordinal :=
    (hskip ▸ skipGroup_suffix ['-'] behind).trans ⟨name ++ '-' :: (stamp ++ ['Z']), by simp [heq]⟩
  have hbackup : backupSuffix <:+ backupFilename stem moment ordinal :=
    ⟨stem ++ '-' :: (stampOf moment ++ 'Z' :: ordinalSuffix ordinal), by simp [backupFilename]⟩
  have hlast := getLast?_of_suffix hsuffix (by decide)
  rw [getLast?_of_suffix hbackup (by decide)] at hlast
  cases hlast

/-- **What an owner recognises** of the files of another: those of its own prefix and kind. -/
theorem recognises_fileName : p.recognises S (o.fileName S moment ordinal) = true →
    o.kind = p.kind ∧ o.stem S = p.stem S := by
  intro h
  rw [Owner.recognises, Owner.fileName] at h
  cases hp : p.kind with
  | dbs =>
    cases ho : o.kind with
    | dbs =>
      rw [hp, ho] at h
      have hstart := (Bool.and_eq_true_iff.mp h).2
      rw [Option.all_some, backupPrefix_filename (stem_ne_nil o) (stem_no_line o), beq_iff_eq] at hstart
      exact ⟨rfl, Option.some.inj hstart⟩
    | archive =>
      rw [hp, ho, not_isBackupName_archive] at h
      cases h
  | archive =>
    cases ho : o.kind with
    | dbs =>
      rw [hp, ho, not_archivePattern_backup] at h
      cases h
    | archive =>
      rw [hp, ho] at h
      exact ⟨rfl, stem_of_archivePattern (stem_no_z o) h⟩

/-- A file of an owner, recognised by every owner of that prefix and kind. -/
theorem recognises_same (hkind : o.kind = p.kind) (hstem : o.stem S = p.stem S) :
    p.recognises S (o.fileName S (atSecond 0) 1) = true := by
  rw [Owner.recognises, Owner.fileName, hkind, hstem]
  cases p.kind with
  | dbs =>
    have hmoment : parseBackupMoment (backupFilename (p.stem S) (atSecond 0) 1) =
        some (secondOf (atSecond 0)) :=
      parseBackupMoment_filename (stem_ne_nil p) (stem_no_line p) (by decide)
    show isBackupName (backupFilename (p.stem S) (atSecond 0) 1) (some (p.stem S)) = true
    rw [isBackupName, hmoment, Option.all_some, backupPrefix_filename (stem_ne_nil p) (stem_no_line p)]
    exact beq_self_eq_true _
  | archive => exact archivePattern_own

/-! ## 7. Which owners are apart -/

/-- The slugs of an owner, each with what stands in its place. -/
def Owner.slugs (S : Slugs) (o : Owner) : List Name :=
  slugOr S o.application fallbackPrefix ::
    (o.plan.map fun plan => slugOr S plan.name plan.fallback).toList

theorem stem_eq_slugs (o : Owner) : o.stem S = ['-'].intercalate (o.slugs S) := by
  rw [Owner.stem, Owner.slugs]
  cases o.plan with
  | none => simp [takePrefix]
  | some plan => simp [planPrefix, takePrefix, List.intercalate]

theorem spares_of_differ (h : o.kind ≠ p.kind ∨ o.stem S ≠ p.stem S) : Spares S o p := by
  refine spares_iff.mpr fun moment ordinal => ?_
  rw [Bool.eq_false_iff]
  intro hrec
  obtain ⟨hkind, hstem⟩ := recognises_fileName hrec
  exact h.elim (· hkind) (· hstem)

theorem apart_of_differ (h : o.kind ≠ p.kind ∨ o.stem S ≠ p.stem S) : Apart S o p :=
  ⟨spares_of_differ h, spares_of_differ (h.imp Ne.symm Ne.symm)⟩

theorem not_apart_of_same (hkind : o.kind = p.kind) (hstem : o.stem S = p.stem S) : ¬ Apart S o p := by
  rintro ⟨h, -⟩
  have hown := recognises_same hkind hstem
  rw [(h (atSecond 0) 1).1] at hown
  cases hown

/-- **Two owners are apart** just when one makes backups and the other archives, or their slugs,
    joined by dashes, are not the same text. -/
theorem apart_iff (S : Slugs) (o p : Owner) : Apart S o p ↔
    o.kind ≠ p.kind ∨ ['-'].intercalate (o.slugs S) ≠ ['-'].intercalate (p.slugs S) := by
  rw [← stem_eq_slugs, ← stem_eq_slugs]
  constructor
  · intro h
    by_contra hsame
    rw [not_or, not_ne_iff, not_ne_iff] at hsame
    exact not_apart_of_same hsame.1 hsame.2 h
  · exact apart_of_differ

/-! ## 8. Two applications -/

def isGap (c : Char) : Bool := c == '-' || Remote.Redaction.isSpace c

/-- A run of dashes and blanks becomes one dash. -/
def squeeze : Name → Name
  | [] => []
  | c :: rest =>
    if isGap c then
      if rest.head?.any isGap then squeeze rest else '-' :: squeeze rest
    else c :: squeeze rest

def isEdge (c : Char) : Bool := c == '-' || c == '_'

/-- `slugify`, of a name of ASCII characters. -/
def slugifyAscii (name : Name) : Name :=
  let kept := (name.map Char.toLower).filter fun c => slugChar c || Remote.Redaction.isSpace c
  (((squeeze kept).dropWhile isEdge).reverse.dropWhile isEdge).reverse

theorem mem_squeeze {c : Char} : ∀ {name : Name}, c ∈ squeeze name →
    c = '-' ∨ (c ∈ name ∧ isGap c = false)
  | d :: rest, h => by
      rw [squeeze] at h
      have hrest : c ∈ squeeze rest → c = '-' ∨ (c ∈ d :: rest ∧ isGap c = false) := fun h =>
        (mem_squeeze h).imp_right fun h => ⟨List.mem_cons_of_mem d h.1, h.2⟩
      cases hgap : isGap d with
      | true =>
          rw [hgap, if_pos rfl] at h
          split at h
          · exact hrest h
          · exact (List.mem_cons.mp h).elim .inl hrest
      | false =>
          rw [hgap, if_neg Bool.false_ne_true] at h
          rcases List.mem_cons.mp h with rfl | h
          · exact .inr ⟨List.mem_cons_self, hgap⟩
          · exact hrest h

theorem slugifyAscii_chars (name : Name) : ∀ c ∈ slugifyAscii name, slugChar c = true := by
  intro c hc
  rw [slugifyAscii, List.mem_reverse] at hc
  have hfront := List.mem_reverse.mp ((List.dropWhile_sublist _).mem hc)
  rcases mem_squeeze ((List.dropWhile_sublist _).mem hfront) with rfl | ⟨hmem, hgap⟩
  · rfl
  · have hkept := (List.mem_filter.mp hmem).2
    rw [isGap, Bool.or_eq_false_iff] at hgap
    rw [hgap.2, Bool.or_false] at hkept
    exact hkept

def asciiSlugs : Slugs := ⟨slugifyAscii, slugifyAscii_chars⟩

example : slugifyAscii "  Nightly -- Copies!_".toList = "nightly-copies".toList := by decide

/-- The plan "b" of the application "a". -/
def planOfA : Owner :=
  ⟨"a".toList, some ⟨"0123456789abcdef0123456789abcdef".toList, "b".toList, .dbs,
    List.all_eq_true.mp (by decide)⟩⟩

/-- **Takes and a plan of another application**: every name is accepted, and the application "a-b" and
    the plan "b" of the application "a" make files of one prefix. -/
theorem takes_and_plan :
    nameInUse ["a".toList] "a-b".toList = false ∧ checkName asciiSlugs [] "b".toList = none ∧
    ¬ Apart asciiSlugs ⟨"a-b".toList, none⟩ planOfA := by
  exact ⟨by decide, by decide, not_apart_of_same rfl (by decide)⟩

end Dbs.SharedFolders

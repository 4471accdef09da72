/-
  File:      Dbs/Streaming.lean
  Subject:   A BACKUP STREAMED TO THE MANAGER WHILE THE SERVER KEEPS IT (tee.py, TeeSink and
             install_backup; dbs_runs.py, _stream, _resume, _finished and _pull; ssh_gateway.py,
             stream_dbs_backup and pull_backup): the same bytes go two ways, and either may fail.

  * `partialName`, `isPartialName` -- the names of backups that are being written;
  * `Sink`, `SinkMove` -- a file that is written, and a stream that gets the same bytes until it fails;
  * `Stage`, `RunMove` -- a run of the manager: whole, resumed where the stream broke, or pulled anew;
  * `step` -- any number of both, among other backups that are installed in the folder;
  * `renamesFree` -- a file is renamed onto nothing;
  * `Lasting` -- what every step leaves under the names of backups; `Moved` -- what a sink changes;
    `Sound` -- what holds along every run;
  * `streamed_faithful` -- what is registered as verified is what the server keeps, and what the server
    installed is whole and there to be collected.
-/
import Dbs.Release

namespace Dbs.Streaming

open Octets Naming Runs Folder
open Release (Path ServerBackup BackupFile Manager Arrival Started Moment)

/-! ## 1. Names of partial files -/

def isHex (c : Char) : Bool := c.isDigit || (decide ('a' ≤ c) && decide (c ≤ 'f'))

def partMark : Name := ".part-".toList

/-- `partial_name`, with its random part. -/
def partialName (name random : Name) : Name := '.' :: (name ++ (partMark ++ random))

/-- `secrets.token_hex(8)`. -/
def isToken (random : Name) : Bool := random.length == 16 && random.all isHex

/-- `^\..+\.part-[0-9a-f]{16}$`, which also matches before a line break at the end. -/
def isPartialName (name : Name) : Bool :=
  let body := if name.getLast? = some '\n' then name.dropLast else name
  let front := body.take (body.length - 16)
  isToken (body.drop (body.length - 16)) && partMark.isSuffixOf front && front.head? == some '.' &&
    decide (8 ≤ front.length) && !front.contains '\n'

/-! ## 2. The server -/

inductive Phase
  | writing
  /-- Flushed, closed and verified; the next name to be tried. -/
  | finishing (ordinal : Nat)
  /-- Without hard links: there was nothing under the name. -/
  | checked (ordinal : Nat)
  | installed (name : Name)
  | over
deriving DecidableEq

/-- `TeeSink`. -/
structure Sink where
  folder : Name
  stem : Name
  moment : DateTime
  /-- The name of its file while it is written. -/
  temporary : Name
  written : Bytes
  sent : Bytes
  streamLost : Bool
  phase : Phase

inductive SinkMove
  | write (data : Bytes)
  /-- The stream fails when some of the data is out. -/
  | writeLost (data : Bytes) (out : Nat)
  | finish (flushed : Bool)
  | link
  | look
  | rename
  /-- The command raises: the partial file is removed. -/
  | fails
  | kill

namespace Sink

def path (s : Sink) (name : Name) : Path := ⟨s.folder, name⟩

/-- The name with the ordinal. -/
def target (s : Sink) (ordinal : Nat) : Name := backupFilename s.stem s.moment ordinal

def writes (s : Sink) : Bool :=
  match s.phase with
  | .writing => true
  | .finishing _ => true
  | .checked _ => true
  | _ => false

end Sink

def maxOrdinal : Nat := 999

abbrev Dir := List (Path × Bytes)

/-- What a move makes of the sink and of the files of the server. -/
def sinkStep (dir : Dir) (s : Sink) : SinkMove → Option (Dir × Sink)
  | .write data =>
    if s.phase = .writing then
      let dir :=
        match find (s.path s.temporary) dir with
        | some content => put (s.path s.temporary) (content ++ data) dir
        | none => dir
      let sent := if s.streamLost then s.sent else s.sent ++ data
      some (dir, { s with written := s.written ++ data, sent })
    else none
  | .writeLost data out =>
    if s.phase = .writing ∧ s.streamLost = false then
      let dir :=
        match find (s.path s.temporary) dir with
        | some content => put (s.path s.temporary) (content ++ data) dir
        | none => dir
      some (dir, { s with
        written := s.written ++ data, sent := s.sent ++ data.take out, streamLost := true })
    else none
  | .finish flushed =>
    if s.phase = .writing then
      some (dir, { s with streamLost := s.streamLost || !flushed, phase := .finishing 1 })
    else none
  | .link =>
    match s.phase, find (s.path s.temporary) dir with
    | .finishing ordinal, some content =>
      if maxOrdinal < ordinal then none
      else if (find (s.path (s.target ordinal)) dir).isSome then
        some (dir, { s with phase := .finishing (ordinal + 1) })
      else
        some (put (s.path (s.target ordinal)) content (Folder.remove (s.path s.temporary) dir),
          { s with phase := .installed (s.target ordinal) })
    | _, _ => none
  | .look =>
    match s.phase with
    | .finishing ordinal =>
      if maxOrdinal < ordinal then none
      else if (find (s.path (s.target ordinal)) dir).isSome then
        some (dir, { s with phase := .finishing (ordinal + 1) })
      else some (dir, { s with phase := .checked ordinal })
    | _ => none
  | .rename =>
    match s.phase, find (s.path s.temporary) dir with
    | .checked ordinal, some content =>
      some (put (s.path (s.target ordinal)) content (Folder.remove (s.path s.temporary) dir),
        { s with phase := .installed (s.target ordinal) })
    | _, _ => none
  | .fails =>
    if s.writes then some (Folder.remove (s.path s.temporary) dir, { s with phase := .over }) else none
  | .kill => if s.writes then some (dir, { s with phase := .over }) else none

/-! ## 3. The manager -/

variable {δ : Type} [DecidableEq δ]

/-- A run; `digested`: the file that the server took the digest of. -/
inductive Stage (δ : Type)
  | idle
  /-- The command of that sink streams; so much of what it sent was taken. -/
  | streaming (sink : Nat) (incoming : Bytes) (taken : Nat)
  /-- The stream broke after the command said what it writes. -/
  | broken (started : Started) (incoming : Bytes)
  | resuming (found : ServerBackup) (incoming : Bytes)
  | resumed (found : ServerBackup) (incoming : Bytes)
  /-- The digest is another one: it is pulled anew. -/
  | pulling (found : ServerBackup) (digested : Bytes)
  | arrived (a : Arrival δ) (digested : Option Bytes)

inductive RunMove
  | start (sink : Nat)
  | receive (count : Nat)
  /-- The server does not know an option: the command is run again. -/
  | again (sink : Nat)
  /-- The command ends and reports the backup that it installed and sent. -/
  | ends
  /-- The connection breaks, or the backup was kept on the server. -/
  | breaks (started : Started)
  /-- The last listing of `_finished`. -/
  | finished
  /-- The rest arrives, or some of it. -/
  | pullRest (count : Nat)
  | digest
  | pullAnew (count : Nat)
  | register (stored : Name) (createdAt : Moment)
  /-- An exception leaves the run. -/
  | fails

/-- What was registered: its record, its bytes, and the file that the server took the digest of. -/
structure Registration (δ : Type) where
  record : BackupFile δ
  stored : Bytes
  digested : Option Bytes

structure World (δ : Type) where
  dir : Dir
  sinks : List Sink
  runs : Nat → Stage δ
  records : List (BackupFile δ)
  registered : List (Registration δ)

def World.start (δ : Type) (dir : Dir) : World δ := ⟨dir, [], fun _ => .idle, [], []⟩

inductive Action (δ : Type)
  /-- A command begins to write a backup, with a stream or without one. -/
  | create (folder stem : Name) (moment : DateTime) (random : Name) (stream : Bool)
  | sink (i : Nat) (m : SinkMove)
  | sweepPartial (path : Path)
  /-- A backup that no sink writes is installed, under a name that is free. -/
  | appear (path : Path) (content : Bytes)
  /-- Another job makes a record. -/
  | record (f : BackupFile δ)
  | run (j : Nat) (m : RunMove)

/-- `folder_files`. -/
def folderFiles (dir : Dir) (folder : Name) : List ServerBackup :=
  (dir.filter fun e => e.1.folder = folder).map fun e => ⟨e.1.name, e.1, e.2.length⟩

def World.stage (w : World δ) (j : Nat) (s : Stage δ) : World δ :=
  { w with runs := Function.update w.runs j s }

/-- The path of a backup in the folder of a run; none without a folder. -/
def pathIn (folder name : Name) : Option Path := if folder = [] then none else some ⟨folder, name⟩

def runStep (M : Manager δ) (w : World δ) (j : Nat) : RunMove → Option (World δ)
  | .start sink =>
    match w.runs j, w.sinks[sink]? with
    | .idle, some s =>
      if s.stem = (M.jobs j).stem ∧ ((M.jobs j).folder = [] ∨ s.folder = (M.jobs j).folder) then
        some (w.stage j (.streaming sink [] 0))
      else none
    | _, _ => none
  | .receive count =>
    match w.runs j with
    | .streaming sink incoming taken =>
      (w.sinks[sink]?).map fun s =>
        let data := (s.sent.drop taken).take count
        w.stage j (.streaming sink (incoming ++ data) (taken + data.length))
    | _ => none
  | .again sink =>
    match w.runs j, w.sinks[sink]? with
    | .streaming _ incoming _, some s =>
      if s.stem = (M.jobs j).stem ∧ ((M.jobs j).folder = [] ∨ s.folder = (M.jobs j).folder) then
        some (w.stage j (.streaming sink incoming 0))
      else none
    | _, _ => none
  | .ends =>
    match w.runs j with
    | .streaming sink incoming _ =>
      match w.sinks[sink]? with
      | some s =>
        match s.phase, s.streamLost with
        | .installed name, false =>
          let path := pathIn (M.jobs j).folder name
          let a : Arrival δ :=
            ⟨name, path, s.written.length, some (M.sha256 s.written), incoming, none⟩
          some (w.stage j (.arrived a (path.bind fun p => find p w.dir)))
        | _, _ => none
      | none => none
    | _ => none
  | .breaks started =>
    match w.runs j with
    | .streaming _ incoming _ =>
      if (M.jobs j).folder = [] then none else some (w.stage j (.broken started incoming))
    | _ => none
  | .finished =>
    match w.runs j with
    | .broken started incoming =>
      let listed := folderFiles w.dir (M.jobs j).folder
      if listed.any fun b => b.name = started.partialName then none
      else
        (Release.installed w.records (M.jobs j) listed started.name).map fun found =>
          w.stage j (.resuming found incoming)
    | _ => none
  | .pullRest count =>
    match w.runs j with
    | .resuming found incoming =>
      if incoming.length < found.size then
        (find found.path w.dir).map fun content =>
          w.stage j (.resumed found (incoming ++ (content.drop incoming.length).take count))
      else some (w.stage j (.resumed found incoming))
    | _ => none
  | .digest =>
    match w.runs j with
    | .resumed found incoming =>
      (find found.path w.dir).map fun content =>
        let d := M.sha256 content
        if incoming.length = found.size ∧ M.sha256 incoming = d then
          let a : Arrival δ := ⟨found.name, some found.path, found.size, some d, incoming, none⟩
          w.stage j (.arrived a (some content))
        else w.stage j (.pulling found content)
    | _ => none
  | .pullAnew count =>
    match w.runs j with
    | .pulling found digested =>
      (find found.path w.dir).map fun content =>
        let a : Arrival δ :=
          ⟨found.name, some found.path, found.size, none, content.take count, none⟩
        w.stage j (.arrived a (some digested))
    | _ => none
  | .register stored createdAt =>
    match w.runs j with
    | .arrived a digested =>
      let record := a.record M j w.records.length stored createdAt
      some { w.stage j .idle with
        records := w.records ++ [record]
        registered := ⟨record, a.bytes, digested⟩ :: w.registered }
    | _ => none
  | .fails => some (w.stage j .idle)

def step (M : Manager δ) (w : World δ) : Action δ → Option (World δ)
  | .create folder stem moment random stream =>
    let temporary := partialName (backupFilename stem moment 1) random
    if isBackupName (backupFilename stem moment 1) (some stem) ∧ isToken random ∧
        find ⟨folder, temporary⟩ w.dir = none ∧ w.sinks.all (fun s => s.temporary ≠ temporary) then
      some { w with
        dir := put ⟨folder, temporary⟩ [] w.dir
        sinks := w.sinks ++ [⟨folder, stem, moment, temporary, [], [], !stream, .writing⟩] }
    else none
  | .sink i m =>
    match w.sinks[i]? with
    | some s => (sinkStep w.dir s m).map fun x => { w with dir := x.1, sinks := w.sinks.set i x.2 }
    | none => none
  | .sweepPartial path =>
    if isPartialName path.name then some { w with dir := Folder.remove path w.dir } else none
  | .appear path content =>
    if isBackupName path.name none ∧ find path w.dir = none then
      some { w with dir := put path content w.dir }
    else none
  | .record f => some { w with records := w.records ++ [f] }
  | .run j m => runStep M w j m

/-- **The rename replaces nothing**: without hard links, there is still nothing under the new name
    when a file is renamed. `place_without_replacing` looks before, and another install may come
    between. -/
def renamesFree (w : World δ) : Action δ → Bool
  | .sink i .rename =>
    match w.sinks[i]? with
    | some s =>
      match s.phase with
      | .checked ordinal => (find (s.path (s.target ordinal)) w.dir).isNone
      | _ => true
    | none => true
  | _ => true

/-! ## 4. Names of backups and of partial files -/

variable {n name stem base random : Name} {ordinal : Nat} {moment : DateTime}

/-- How the name of a backup ends. -/
def EndsAsBackup (n : Name) : Prop := backupSuffix <:+ n ∨ backupSuffix ++ ['\n'] <:+ n

theorem getLast?_of_suffix {s : Name} (h : s <:+ n) (hs : s ≠ []) : n.getLast? = s.getLast? := by
  obtain ⟨x, rfl⟩ := h
  exact List.getLast?_append_of_ne_nil x hs

theorem skipGroup_suffix (mark s : Name) : skipGroup mark s <:+ s := by
  rw [skipGroup]
  split
  · exact (List.dropWhile_suffix _).trans (List.drop_suffix _ _)
  · exact List.suffix_refl _

theorem endsAsBackup_of_isTail {s : Name} (h : isTail s = true) : EndsAsBackup s := by
  unfold isTail at h
  have hbehind := skipGroup_suffix ['-'] s
  have hformat := (skipGroup_suffix ['.', 'v'] (skipGroup ['-'] s)).trans hbehind
  have hcopy := (skipGroup_suffix ['-'] (skipGroup ['.', 'v'] (skipGroup ['-'] s))).trans hformat
  rw [Bool.or_eq_true, beq_iff_eq, beq_iff_eq] at h
  split at h
  · rcases h with h | h
    · exact .inl (h ▸ hbehind)
    · exact .inr (h ▸ hbehind)
  · rcases h with h | h
    · exact .inl (h ▸ hcopy)
    · exact .inr (h ▸ hcopy)

/-- What a match says of the name and of its stem. -/
theorem of_longest {k : Nat} {m : Match} (h : longest n k = some m) :
    EndsAsBackup n ∧ m.stem ≠ [] ∧ '\n' ∉ m.stem := by
  induction k with
  | zero => cases h
  | succ k ih =>
    rw [longest] at h
    split at h
    · rename_i found hfound
      cases h
      rw [matchAt] at hfound
      obtain ⟨hall, hm⟩ := Option.ite_none_right_eq_some.mp hfound
      simp only [Bool.and_eq_true, Bool.not_eq_true', beq_iff_eq] at hall
      obtain ⟨⟨⟨⟨hline, hdash⟩, -⟩, -⟩, htail⟩ := hall
      cases hm
      refine ⟨?_, ?_, ?_⟩
      · have hsuffix : ((n.drop (k + 1)).drop 17) <:+ n :=
          (List.drop_suffix _ _).trans (List.drop_suffix _ _)
        exact (endsAsBackup_of_isTail htail).imp (fun h => h.trans hsuffix) fun h => h.trans hsuffix
      · intro hnil
        rcases List.take_eq_nil_iff.mp hnil with hk | rfl
        · cases hk
        · rw [List.drop_nil] at hdash
          cases hdash
      · intro hmem
        rw [List.contains_eq_mem, decide_eq_false_iff_not] at hline
        exact hline hmem
    · exact ih h

theorem endsAsBackup_of_isBackupName {o : Option Name} (h : isBackupName n o = true) :
    EndsAsBackup n := by
  obtain ⟨hparse, -⟩ := Bool.and_eq_true_iff.mp h
  obtain ⟨m, hm⟩ : ∃ m, matchName n = some m := by
    rw [← Option.isSome_iff_exists]
    rw [parseBackupMoment] at hparse
    exact Option.isSome_of_isSome_bind hparse
  exact (of_longest hm).1

theorem endsAsBackup_filename (stem : Name) (moment : DateTime) (ordinal : Nat) :
    EndsAsBackup (backupFilename stem moment ordinal) :=
  .inl ⟨stem ++ '-' :: (stampOf moment ++ 'Z' :: ordinalSuffix ordinal), by simp [backupFilename]⟩

/-- Another ordinal makes a backup name, too. -/
theorem isBackupName_filename (h : isBackupName (backupFilename stem moment 1) (some stem) = true) :
    isBackupName (backupFilename stem moment ordinal) (some stem) = true := by
  obtain ⟨hparse, hprefix⟩ := Bool.and_eq_true_iff.mp h
  have hprefix : backupPrefix (backupFilename stem moment 1) = some stem := beq_iff_eq.mp hprefix
  obtain ⟨m, hm, hstem⟩ := Option.map_eq_some_iff.mp hprefix
  obtain ⟨-, hne, hline⟩ := of_longest hm
  rw [hstem] at hne hline
  have hmatch : ∀ k, matchName (backupFilename stem moment k) = some ⟨stem, stampOf moment⟩ :=
    fun k => matchName_filename hne hline
  have hsame : parseBackupMoment (backupFilename stem moment ordinal) =
      parseBackupMoment (backupFilename stem moment 1) := by
    rw [parseBackupMoment, parseBackupMoment, hmatch, hmatch]
  rw [isBackupName, hsame, hparse, backupPrefix, hmatch]
  exact beq_self_eq_true (some stem)

/-- How the name of a partial file ends. -/
theorem partialName_last (ht : isToken random = true) :
    ∃ c, (partialName base random).getLast? = some c ∧ isHex c = true := by
  obtain ⟨hlength, hall⟩ := Bool.and_eq_true_iff.mp ht
  have hne : random ≠ [] := fun h => by
    rw [h] at hlength
    cases hlength
  refine ⟨random.getLast hne, ?_, List.all_eq_true.mp hall _ (List.getLast_mem hne)⟩
  rw [← List.getLast?_eq_some_getLast hne]
  exact getLast?_of_suffix ⟨'.' :: (base ++ partMark), by simp [partialName]⟩ hne

theorem not_endsAsBackup {c : Char} (hlast : n.getLast? = some c) (hc : isHex c = true) :
    ¬ EndsAsBackup n := by
  rintro (h | h)
  · rw [getLast?_of_suffix h (by decide)] at hlast
    cases hlast
    exact absurd hc (by decide)
  · rw [getLast?_of_suffix h (by decide)] at hlast
    cases hlast
    exact absurd hc (by decide)

/-- **A backup has not the name of a partial file.** -/
theorem not_isPartialName (h : EndsAsBackup n) : isPartialName n = false := by
  rw [Bool.eq_false_iff]
  intro hp
  have htoken : ∀ body : Name, isToken (body.drop (body.length - 16)) = true →
      ∃ c, body.getLast? = some c ∧ isHex c = true := by
    intro body ht
    obtain ⟨hlength, hall⟩ := Bool.and_eq_true_iff.mp ht
    have hne : body.drop (body.length - 16) ≠ [] := fun h => by
      rw [h] at hlength
      cases hlength
    refine ⟨_, ?_, List.all_eq_true.mp hall _ (List.getLast_mem hne)⟩
    rw [← List.getLast?_eq_some_getLast hne]
    exact getLast?_of_suffix (List.drop_suffix _ _) hne
  unfold isPartialName at hp
  simp only [Bool.and_eq_true] at hp
  obtain ⟨⟨⟨⟨ht, -⟩, -⟩, -⟩, -⟩ := hp
  obtain ⟨c, hc, hhex⟩ := htoken _ ht
  rcases h with h | h
  · have hlast : n.getLast? = some 's' := getLast?_of_suffix h (by decide)
    rw [hlast, if_neg (by decide), hlast] at hc
    cases hc
    exact absurd hhex (by decide)
  · have hlast : n.getLast? = some '\n' := getLast?_of_suffix h (by decide)
    obtain ⟨x, rfl⟩ := h
    rw [if_pos hlast, ← List.append_assoc, List.dropLast_concat,
      getLast?_of_suffix (List.suffix_append x backupSuffix) (by decide)] at hc
    cases hc
    exact absurd hhex (by decide)

/-! ## 5. What a sink changes -/

/-- What stands under the names of backups stays there. -/
def Lasting (dir dir' : Dir) : Prop :=
  ∀ (path : Path) b, EndsAsBackup path.name → find path dir = some b → find path dir' = some b

theorem Lasting.refl (dir : Dir) : Lasting dir dir := fun _ _ _ h => h

/-- What is written into a file changes nothing else, nor does its removal. -/
theorem Lasting.put {dir : Dir} {path : Path} {b : Bytes}
    (h : ¬ EndsAsBackup path.name ∨ find path dir = none) : Lasting dir (Folder.put path b dir) := by
  intro q c hq hfind
  rw [find_put_ne]
  · exact hfind
  · rintro rfl
    rcases h with h | h
    · exact h hq
    · rw [h] at hfind
      cases hfind

theorem Lasting.remove {dir : Dir} {path : Path} (h : ¬ EndsAsBackup path.name) :
    Lasting dir (Folder.remove path dir) := by
  intro q c hq hfind
  rw [find_remove_ne]
  · exact hfind
  · rintro rfl
    exact h hq

theorem Lasting.trans {a b c : Dir} (hab : Lasting a b) (hbc : Lasting b c) : Lasting a c :=
  fun path x hp hx => hbc path x hp (hab path x hp hx)

variable {dir dir' : Dir} {s t : Sink} {m : SinkMove}

/-- The partial file has what was written, if it is there. -/
def Sink.Whole (s : Sink) (dir : Dir) : Prop :=
  s.writes = true → ∀ b, find (s.path s.temporary) dir = some b → b = s.written

/-- **What a move of a sink changes.** -/
structure Moved (dir dir' : Dir) (s t : Sink) : Prop where
  folder : t.folder = s.folder
  stem : t.stem = s.stem
  moment : t.moment = s.moment
  temporary : t.temporary = s.temporary
  distinct : Folder.Distinct dir → Folder.Distinct dir'
  lasting : Lasting dir dir'
  others : ∀ path : Path, path ≠ s.path s.temporary → ¬ EndsAsBackup path.name →
    ∀ b, find path dir' = some b → find path dir = some b
  whole : s.Whole dir → t.Whole dir'
  installed : s.Whole dir → ∀ name, t.phase = .installed name →
    find (t.path name) dir' = some t.written ∧ ∃ ordinal, name = t.target ordinal

/-- Neither the files nor what was written change. -/
theorem Moved.still (hfolder : t.folder = s.folder) (hstem : t.stem = s.stem)
    (hmoment : t.moment = s.moment) (htemporary : t.temporary = s.temporary)
    (hwritten : t.written = s.written) (hwrites : t.writes = true → s.writes = true)
    (hphase : ∀ name, t.phase ≠ .installed name) : Moved dir dir s t where
  folder := hfolder
  stem := hstem
  moment := hmoment
  temporary := htemporary
  distinct := id
  lasting := Lasting.refl dir
  others := fun _ _ _ _ h => h
  whole := by
    intro h hw b hb
    rw [Sink.path, hfolder, htemporary] at hb
    rw [hwritten]
    exact h (hwrites hw) b hb
  installed := fun _ name hp => absurd hp (hphase name)

/-- Data is written into the partial file, if it is there. -/
theorem Moved.write {data sent : Bytes} {lost : Bool} (hnot : ¬ EndsAsBackup s.temporary)
    (hphase : s.phase = .writing) :
    Moved dir
      (match find (s.path s.temporary) dir with
        | some content => Folder.put (s.path s.temporary) (content ++ data) dir
        | none => dir)
      s { s with written := s.written ++ data, sent := sent, streamLost := lost } := by
  rcases hfile : find (s.path s.temporary) dir with _ | content
  · refine ⟨rfl, rfl, rfl, rfl, id, Lasting.refl dir, fun _ _ _ _ h => h, fun _ _ b hb => ?_, ?_⟩
    · exact absurd (hfile.symm.trans hb) (by simp)
    · intro _ name hp
      rw [hphase] at hp
      cases hp
  · refine ⟨rfl, rfl, rfl, rfl, Distinct.put, Lasting.put (.inl hnot), ?_, ?_, ?_⟩
    · intro path hne _ b hb
      rwa [find_put_ne hne] at hb
    · intro h _ b hb
      have hown : find (s.path s.temporary) (Folder.put (s.path s.temporary) (content ++ data) dir) =
          some b := hb
      rw [find_put_self, Option.some.injEq] at hown
      rw [← hown, h (by rw [Sink.writes, hphase]) content hfile]
    · intro _ name hp
      rw [hphase] at hp
      cases hp

/-- **The partial file gets its name**, which nothing has. -/
theorem Moved.install {content : Bytes} {ordinal : Nat} (hnot : ¬ EndsAsBackup s.temporary)
    (hfile : find (s.path s.temporary) dir = some content) (hwrites : s.writes = true)
    (hfree : find (s.path (s.target ordinal)) dir = none) :
    Moved dir (Folder.put (s.path (s.target ordinal)) content (Folder.remove (s.path s.temporary) dir))
      s { s with phase := .installed (s.target ordinal) } := by
  have hname : EndsAsBackup (s.target ordinal) := endsAsBackup_filename _ _ _
  refine ⟨rfl, rfl, rfl, rfl, fun h => h.remove.put,
    (Lasting.remove hnot).trans (Lasting.put (.inr ?_)), ?_, ?_, ?_⟩
  · rw [find_remove, hfree, ite_self]
  · intro path _ hpath b hb
    rw [find_put_ne (by rintro rfl; exact hpath hname), find_remove] at hb
    exact (Option.ite_none_left_eq_some.mp hb).2
  · exact nofun
  · intro h name hp
    cases hp
    refine ⟨?_, ordinal, rfl⟩
    rw [← h hwrites content hfile]
    exact find_put_self

theorem sinkStep_moved (hstep : sinkStep dir s m = some (dir', t)) (hnot : ¬ EndsAsBackup s.temporary)
    (hfree : ∀ ordinal, m = .rename → s.phase = .checked ordinal →
      find (s.path (s.target ordinal)) dir = none) : Moved dir dir' s t := by
  cases m with
  | write data =>
    obtain ⟨hphase, hst⟩ := Option.ite_none_right_eq_some.mp hstep
    cases hst
    exact Moved.write hnot hphase
  | writeLost data out =>
    obtain ⟨hphase, hst⟩ := Option.ite_none_right_eq_some.mp hstep
    cases hst
    exact Moved.write hnot hphase.1
  | finish flushed =>
    obtain ⟨hphase, hst⟩ := Option.ite_none_right_eq_some.mp hstep
    cases hst
    exact Moved.still rfl rfl rfl rfl rfl (fun _ => by rw [Sink.writes, hphase]) (by simp)
  | link =>
    simp only [sinkStep] at hstep
    split at hstep
    · rename_i ordinal content hphase hfile
      obtain ⟨-, hst⟩ := Option.ite_none_left_eq_some.mp hstep
      have hwrites : s.writes = true := by rw [Sink.writes, hphase]
      split at hst
      · cases hst
        exact Moved.still rfl rfl rfl rfl rfl (fun _ => hwrites) (by simp)
      · rename_i hnone
        cases hst
        exact Moved.install hnot hfile hwrites (Option.not_isSome_iff_eq_none.mp hnone)
    · cases hstep
  | look =>
    simp only [sinkStep] at hstep
    split at hstep
    · rename_i ordinal hphase
      obtain ⟨-, hst⟩ := Option.ite_none_left_eq_some.mp hstep
      have hwrites : s.writes = true := by rw [Sink.writes, hphase]
      split at hst
      · cases hst
        exact Moved.still rfl rfl rfl rfl rfl (fun _ => hwrites) (by simp)
      · cases hst
        exact Moved.still rfl rfl rfl rfl rfl (fun _ => hwrites) (by simp)
    · cases hstep
  | rename =>
    simp only [sinkStep] at hstep
    split at hstep
    · rename_i ordinal content hphase hfile
      cases hstep
      exact Moved.install hnot hfile (by rw [Sink.writes, hphase]) (hfree ordinal rfl hphase)
    · cases hstep
  | fails =>
    obtain ⟨hwrites, hst⟩ := Option.ite_none_right_eq_some.mp hstep
    cases hst
    refine ⟨rfl, rfl, rfl, rfl, fun h => h.remove, Lasting.remove hnot, ?_, ?_, ?_⟩
    · intro path _ _ b hb
      rw [find_remove] at hb
      exact (Option.ite_none_left_eq_some.mp hb).2
    · intro _ h
      cases h
    · intro _ _ h
      cases h
  | kill =>
    obtain ⟨hwrites, hst⟩ := Option.ite_none_right_eq_some.mp hstep
    cases hst
    exact Moved.still rfl rfl rfl rfl rfl (fun _ => hwrites) (by simp)

/-! ## 6. What holds along a run -/

/-- **What a sink has written is in its file**, and stays there under the name of a backup. -/
structure Sink.Fits (s : Sink) (dir : Dir) : Prop where
  temporary : ¬ EndsAsBackup s.temporary
  stem : isBackupName (backupFilename s.stem s.moment 1) (some s.stem) = true
  whole : s.Whole dir
  installed : ∀ name, s.phase = .installed name →
    find (s.path name) dir = some s.written ∧ ∃ ordinal, name = s.target ordinal

/-- Others leave the partial file alone. -/
theorem Sink.Fits.kept (h : s.Fits dir) (hlasting : Lasting dir dir')
    (hown : ∀ b, find (s.path s.temporary) dir' = some b → find (s.path s.temporary) dir = some b) :
    s.Fits dir' where
  __ := h
  whole := fun hw b hb => h.whole hw b (hown b hb)
  installed := by
    intro name hp
    obtain ⟨hfile, ordinal, rfl⟩ := h.installed name hp
    exact ⟨hlasting _ _ (endsAsBackup_filename _ _ _) hfile, ordinal, rfl⟩

theorem Moved.fits (h : Moved dir dir' s t) (hs : s.Fits dir) : t.Fits dir' where
  temporary := by
    rw [h.temporary]
    exact hs.temporary
  stem := by
    rw [h.stem, h.moment]
    exact hs.stem
  whole := h.whole hs.whole
  installed := h.installed hs.whole

/-- A backup of the server, as it was listed. -/
def There (found : ServerBackup) (dir : Dir) : Prop :=
  EndsAsBackup found.path.name ∧ ∃ b, find found.path dir = some b ∧ b.length = found.size

theorem There.kept {found : ServerBackup} (h : There found dir) (hlasting : Lasting dir dir') :
    There found dir' := by
  obtain ⟨hname, b, hfile, hlength⟩ := h
  exact ⟨hname, b, hlasting _ _ hname hfile, hlength⟩

omit [DecidableEq δ] in
/-- What is found among the files of the folder is there. -/
theorem there_of_installed {records : List (BackupFile δ)} {j : Release.Job} {folder started : Name}
    {found : ServerBackup} (hdistinct : Distinct dir)
    (h : Release.installed records j (folderFiles dir folder) started = some found) :
    There found dir := by
  have hmem : found ∈ folderFiles dir folder ∧ isBackupName found.name (some j.stem) = true := by
    unfold Release.installed at h
    have hof : ∀ l : List ServerBackup, found ∈ l.filter (fun b =>
        !((Release.recordedAt records j.application ((folderFiles dir folder).map
          ServerBackup.path)).map BackupFile.remotePath).contains (some b.path) &&
        isBackupName b.name (some j.stem) && parseBackupMoment b.name = parseBackupMoment started) →
        found ∈ l ∧ isBackupName found.name (some j.stem) = true := by
      intro l hl
      obtain ⟨hl, hp⟩ := List.mem_filter.mp hl
      simp only [Bool.and_eq_true] at hp
      exact ⟨hl, hp.1.2⟩
    simp only at h
    split at h
    · rename_i b hb
      cases h
      exact hof _ (List.mem_of_find?_eq_some hb)
    · exact hof _ (List.mem_of_mem_head? h)
  obtain ⟨hlisted, hname⟩ := hmem
  obtain ⟨e, he, rfl⟩ := List.mem_map.mp hlisted
  exact ⟨endsAsBackup_of_isBackupName hname, e.2, find_of_mem hdistinct (List.mem_filter.mp he).1, rfl⟩

variable {M : Manager δ} {w w' : World δ} {j : Nat}

/-- What a run knows of the server is so. -/
def Stage.Fits (M : Manager δ) (dir : Dir) (sinks : List Sink) (j : Nat) : Stage δ → Prop
  | .streaming sink _ _ =>
    ∃ s, sinks[sink]? = some s ∧ ((M.jobs j).folder = [] ∨ s.folder = (M.jobs j).folder)
  | .resuming found _ => There found dir
  | .resumed found _ => There found dir
  | .pulling found digested => There found dir ∧ find found.path dir = some digested
  | .arrived a digested =>
    a.bytes.length = a.size → a.asAnnounced M = true → a.path.isSome = true → digested = some a.bytes
  | _ => True

/-- The sinks that there are stay in their folders. -/
def Grown (sinks sinks' : List Sink) : Prop :=
  ∀ (i : Nat) (s : Sink), sinks[i]? = some s → ∃ t, sinks'[i]? = some t ∧ t.folder = s.folder

theorem Stage.Fits.kept {sinks sinks' : List Sink} {st : Stage δ} (h : st.Fits M dir sinks j)
    (hlasting : Lasting dir dir') (hgrown : Grown sinks sinks') : st.Fits M dir' sinks' j := by
  cases st with
  | streaming sink incoming taken =>
    obtain ⟨s, hs, hfolder⟩ := h
    obtain ⟨t, ht, hsame⟩ := hgrown sink s hs
    exact ⟨t, ht, by rwa [hsame]⟩
  | resuming _ _ | resumed _ _ => exact There.kept h hlasting
  | pulling found digested => exact ⟨h.1.kept hlasting, hlasting _ _ h.1.1 h.2⟩
  | arrived a digested => exact h
  | idle | broken _ _ => trivial

/-- **What holds along every run.** -/
structure Sound (M : Manager δ) (w : World δ) : Prop where
  distinct : Distinct w.dir
  temporaries : ∀ (i k : Nat) (s t : Sink), w.sinks[i]? = some s → w.sinks[k]? = some t →
    s.temporary = t.temporary → i = k
  sinks : ∀ (i : Nat) (s : Sink), w.sinks[i]? = some s → s.Fits w.dir
  runs : ∀ j, (w.runs j).Fits M w.dir w.sinks j
  registered : ∀ g ∈ w.registered, g.record.validation = .verified → g.record.remotePath.isSome = true →
    g.digested = some g.stored

theorem sound_start (h : Distinct dir) : Sound M (World.start δ dir) where
  distinct := h
  temporaries := fun i _ _ _ hi => (by cases i <;> cases hi)
  sinks := fun i _ hi => (by cases i <;> cases hi)
  runs := fun _ => trivial
  registered := fun _ hg => (by cases hg)

/-- Files that are no backups change. -/
theorem Sound.files (h : Sound M w) (hdistinct : Distinct dir') (hlasting : Lasting w.dir dir')
    (hown : ∀ s ∈ w.sinks, ∀ b, find (s.path s.temporary) dir' = some b →
      find (s.path s.temporary) w.dir = some b) : Sound M { w with dir := dir' } where
  __ := h
  distinct := hdistinct
  sinks := fun i s hs => (h.sinks i s hs).kept hlasting (hown s (List.mem_of_getElem? hs))
  runs := fun j => (h.runs j).kept hlasting fun _ s hs => ⟨s, hs, rfl⟩

/-- **A sink begins to write** a file of its own. -/
theorem Sound.create (h : Sound M w) (hfits : s.Fits (Folder.put (s.path s.temporary) [] w.dir))
    (hfree : find (s.path s.temporary) w.dir = none) (hnew : ∀ t ∈ w.sinks, t.temporary ≠ s.temporary) :
    Sound M { w with
      dir := Folder.put (s.path s.temporary) [] w.dir
      sinks := w.sinks ++ [s] } := by
  have hold : ∀ (i : Nat) (t : Sink), (w.sinks ++ [s])[i]? = some t →
      w.sinks[i]? = some t ∨ i = w.sinks.length ∧ t = s := by
    intro i t ht
    rcases Nat.lt_trichotomy i w.sinks.length with hi | rfl | hi
    · rw [List.getElem?_append_left hi] at ht
      exact .inl ht
    · rw [List.getElem?_concat_length] at ht
      exact .inr ⟨rfl, (Option.some.inj ht).symm⟩
    · rw [List.getElem?_eq_none (by rw [List.length_append, List.length_singleton]; omega)] at ht
      cases ht
  have hlasting : Lasting w.dir (Folder.put (s.path s.temporary) [] w.dir) := Lasting.put (.inr hfree)
  refine ⟨h.distinct.put, ?_, ?_, ?_, h.registered⟩
  · intro i k t u ht hu heq
    rcases hold i t ht with hi | ⟨rfl, rfl⟩ <;> rcases hold k u hu with hk | ⟨rfl, rfl⟩
    · exact h.temporaries i k t u hi hk heq
    · exact absurd heq (hnew t (List.mem_of_getElem? hi))
    · exact absurd heq.symm (hnew u (List.mem_of_getElem? hk))
    · rfl
  · intro i t ht
    rcases hold i t ht with hi | ⟨rfl, rfl⟩
    · refine (h.sinks i t hi).kept hlasting fun b hb => ?_
      rw [find_put_ne] at hb
      · exact hb
      · intro heq
        exact hnew t (List.mem_of_getElem? hi) (congrArg Path.name heq)
    · exact hfits
  · intro j
    refine (h.runs j).kept hlasting fun i t ht => ⟨t, ?_, rfl⟩
    rw [List.getElem?_append_left (List.getElem?_eq_some_iff.mp ht).1]
    exact ht

/-- **A sink moves.** -/
theorem Sound.sink {i : Nat} (h : Sound M w) (hi : w.sinks[i]? = some s)
    (hmoved : Moved w.dir dir' s t) :
    Sound M { w with dir := dir', sinks := w.sinks.set i t } := by
  have hlt : i < w.sinks.length := (List.getElem?_eq_some_iff.mp hi).1
  have hset : ∀ (k : Nat) (u : Sink), (w.sinks.set i t)[k]? = some u →
      k = i ∧ u = t ∨ k ≠ i ∧ w.sinks[k]? = some u := by
    intro k u hu
    by_cases hk : k = i
    · rw [hk, List.getElem?_set_self hlt] at hu
      exact .inl ⟨hk, (Option.some.inj hu).symm⟩
    · rw [List.getElem?_set_ne (Ne.symm hk)] at hu
      exact .inr ⟨hk, hu⟩
  -- the sink keeps the name of its file
  have hname : ∀ (k : Nat) (u : Sink), (w.sinks.set i t)[k]? = some u →
      ∃ v, w.sinks[k]? = some v ∧ v.temporary = u.temporary := by
    intro k u hu
    rcases hset k u hu with ⟨rfl, rfl⟩ | ⟨-, hk⟩
    · exact ⟨s, hi, hmoved.temporary.symm⟩
    · exact ⟨u, hk, rfl⟩
  refine ⟨hmoved.distinct h.distinct, ?_, ?_, ?_, h.registered⟩
  · intro k l u v hu hv heq
    obtain ⟨a, ha, hau⟩ := hname k u hu
    obtain ⟨b, hb, hbv⟩ := hname l v hv
    exact h.temporaries k l a b ha hb (hau.trans (heq.trans hbv.symm))
  · intro k u hu
    rcases hset k u hu with ⟨rfl, rfl⟩ | ⟨hne, hk⟩
    · exact hmoved.fits (h.sinks k s hi)
    · have hfits := h.sinks k u hk
      refine hfits.kept hmoved.lasting (hmoved.others _ (fun heq => hne ?_) hfits.temporary)
      exact h.temporaries k i u s hk hi (congrArg Path.name heq)
  · intro j
    refine (h.runs j).kept hmoved.lasting fun k u hu => ?_
    by_cases hk : k = i
    · subst hk
      rw [hi, Option.some.injEq] at hu
      exact ⟨t, List.getElem?_set_self hlt, by rw [hmoved.folder, hu]⟩
    · exact ⟨u, by rw [List.getElem?_set_ne (Ne.symm hk), hu], rfl⟩

/-- A run goes on. -/
theorem Sound.stage {st : Stage δ} (h : Sound M w) (hst : st.Fits M w.dir w.sinks j) :
    Sound M (w.stage j st) where
  __ := h
  runs := by
    intro i
    simp only [World.stage]
    by_cases hi : i = j
    · rw [hi, Function.update_self]
      exact hst
    · rw [Function.update_of_ne hi]
      exact h.runs i

/-! ## 7. Every step -/

/-- What is registered as verified arrived whole. -/
theorem of_problem_nil {a : Arrival δ} (h : a.problem M j = []) :
    a.bytes.length = a.size ∧ a.asAnnounced M = true := by
  unfold Arrival.problem at h
  split at h
  · exact absurd h (by simp [Release.shortArrival, String.toList])
  · rename_i hsize
    split at h
    · exact absurd h (by decide)
    · rename_i hannounced
      exact ⟨Decidable.not_not.mp hsize, Bool.eq_true_of_not_eq_false hannounced⟩

/-- **A file is registered.** -/
theorem Sound.register {a : Arrival δ} {digested : Option Bytes} {pk : Nat} {stored : Name}
    {createdAt : Moment} (h : Sound M w) (ha : w.runs j = .arrived a digested) :
    Sound M { w with
      records := w.records ++ [a.record M j pk stored createdAt]
      registered := ⟨a.record M j pk stored createdAt, a.bytes, digested⟩ :: w.registered } where
  __ := h
  registered := by
    intro g hg hverified hpath
    rcases List.mem_cons.mp hg with rfl | hg
    · have hfits := h.runs j
      rw [ha] at hfits
      have hproblem : a.problem M j = [] := by
        by_contra hne
        simp only [Arrival.record, if_neg hne] at hverified
        cases hverified
      obtain ⟨hsize, hannounced⟩ := of_problem_nil hproblem
      exact hfits hsize hannounced hpath
    · exact h.registered g hg hverified hpath

section

variable (hinj : Function.Injective M.sha256)

include hinj

/-- **The stream of a command that installed its backup** brought what is there. -/
theorem fits_streamed {incoming : Bytes} {name : Name} {sink : Nat}
    (h : Sound M w) (hs : w.sinks[sink]? = some s) (hphase : s.phase = .installed name)
    (hfolder : (M.jobs j).folder = [] ∨ s.folder = (M.jobs j).folder) :
    Stage.Fits M w.dir w.sinks j (.arrived
      ⟨name, pathIn (M.jobs j).folder name, s.written.length, some (M.sha256 s.written), incoming, none⟩
      ((pathIn (M.jobs j).folder name).bind fun p => find p w.dir)) := by
  intro _ hannounced hpath
  have hwhole : incoming = s.written := hinj (of_decide_eq_true hannounced)
  have hfile := ((h.sinks sink s hs).installed name hphase).1
  by_cases hnone : (M.jobs j).folder = []
  · simp [pathIn, hnone] at hpath
  · have hsame : s.folder = (M.jobs j).folder := hfolder.resolve_left hnone
    rw [Sink.path, hsame] at hfile
    rw [pathIn, if_neg hnone, Option.bind_some, hfile, hwhole]

/-- **Every step of a run** of the manager. -/
theorem Sound.run {m : RunMove} (h : Sound M w)
    (hstep : runStep M w j m = some w') : Sound M w' := by
  have hfits := h.runs j
  cases m with
  | start _ | again _ =>
    simp only [runStep] at hstep
    split at hstep
    · rename_i s _ hs
      obtain ⟨hwhere, hw⟩ := Option.ite_none_right_eq_some.mp hstep
      cases hw
      exact h.stage ⟨s, hs, hwhere.2⟩
    · cases hstep
  | receive count =>
    simp only [runStep] at hstep
    split at hstep
    · rename_i hstage
      obtain ⟨s, -, rfl⟩ := Option.map_eq_some_iff.mp hstep
      rw [hstage] at hfits
      exact h.stage hfits
    · cases hstep
  | ends =>
    simp only [runStep] at hstep
    split at hstep
    · rename_i sink incoming taken hstage
      rw [hstage] at hfits
      obtain ⟨s, hs, hfolder⟩ := hfits
      rw [hs] at hstep
      simp only at hstep
      split at hstep
      · rename_i name hphase _
        cases hstep
        exact h.stage (fits_streamed hinj h hs hphase hfolder)
      · cases hstep
    · cases hstep
  | breaks started =>
    simp only [runStep] at hstep
    split at hstep
    · obtain ⟨-, ⟨⟩⟩ := Option.ite_none_left_eq_some.mp hstep
      exact h.stage trivial
    · cases hstep
  | finished =>
    simp only [runStep] at hstep
    split at hstep
    · obtain ⟨-, hw⟩ := Option.ite_none_left_eq_some.mp hstep
      obtain ⟨found, hfound, rfl⟩ := Option.map_eq_some_iff.mp hw
      exact h.stage (there_of_installed h.distinct hfound)
    · cases hstep
  | pullRest count =>
    simp only [runStep] at hstep
    split at hstep
    · rename_i found incoming hstage
      rw [hstage] at hfits
      split at hstep
      · obtain ⟨content, -, rfl⟩ := Option.map_eq_some_iff.mp hstep
        exact h.stage hfits
      · cases hstep
        exact h.stage hfits
    · cases hstep
  | digest =>
    simp only [runStep] at hstep
    split at hstep
    · rename_i found incoming hstage
      rw [hstage] at hfits
      obtain ⟨content, hfile, rfl⟩ := Option.map_eq_some_iff.mp hstep
      split
      · rename_i hsame
        refine h.stage fun _ _ _ => ?_
        rw [hinj hsame.2]
      · exact h.stage ⟨hfits, hfile⟩
    · cases hstep
  | pullAnew count =>
    simp only [runStep] at hstep
    split at hstep
    · rename_i found digested hstage
      rw [hstage] at hfits
      obtain ⟨⟨-, b, hb, hlength⟩, hdigested⟩ := hfits
      obtain ⟨content, hfile, rfl⟩ := Option.map_eq_some_iff.mp hstep
      rw [hdigested, Option.some.injEq] at hb hfile
      refine h.stage fun hsize _ _ => ?_
      -- as many bytes as the file had when it was listed, so all of them
      have hall : content.length ≤ count := by
        have hsize : (content.take count).length = found.size := hsize
        rw [← hfile, hb, ← hlength, List.length_take] at hsize
        rw [← hfile, hb]
        omega
      show some digested = some (content.take count)
      rw [List.take_of_length_le hall, hfile]
    · cases hstep
  | register stored createdAt =>
    simp only [runStep] at hstep
    split at hstep
    · rename_i a digested ha
      cases hstep
      exact Sound.stage (h.register ha) trivial
    · cases hstep
  | fails =>
    cases hstep
    exact h.stage trivial

/-- **Every step keeps what holds**, if it renames onto nothing. -/
theorem step_sound {a : Action δ} (hstep : step M w a = some w')
    (hfree : renamesFree w a = true) (h : Sound M w) : Sound M w' := by
  cases a with
  | create folder stem moment random stream =>
    obtain ⟨⟨hname, htoken, hfree, hnew⟩, hw⟩ := Option.ite_none_right_eq_some.mp hstep
    cases hw
    have hnew : ∀ t ∈ w.sinks, t.temporary ≠ partialName (backupFilename stem moment 1) random :=
      fun t ht => of_decide_eq_true (List.all_eq_true.mp hnew t ht)
    obtain ⟨c, hlast, hc⟩ := @partialName_last (backupFilename stem moment 1) _ htoken
    let s : Sink := ⟨folder, stem, moment, partialName (backupFilename stem moment 1) random, [], [],
      !stream, .writing⟩
    refine h.create (s := s) ⟨not_endsAsBackup hlast hc, hname, ?_, fun _ hp => (by cases hp)⟩
      hfree hnew
    intro _ b hb
    rw [find_put_self, Option.some.injEq] at hb
    exact hb.symm
  | sink i m =>
    simp only [step] at hstep
    split at hstep
    · rename_i s hs
      obtain ⟨⟨dir', t⟩, hmove, rfl⟩ := Option.map_eq_some_iff.mp hstep
      refine h.sink hs (sinkStep_moved hmove (h.sinks i s hs).temporary ?_)
      rintro ordinal rfl hphase
      simp only [renamesFree, hs, hphase] at hfree
      exact Option.isNone_iff_eq_none.mp hfree
    · cases hstep
  | sweepPartial path =>
    obtain ⟨hname, hw⟩ := Option.ite_none_right_eq_some.mp hstep
    cases hw
    have hnot : ¬ EndsAsBackup path.name := fun hends => by
      rw [not_isPartialName hends] at hname
      cases hname
    refine h.files h.distinct.remove (Lasting.remove hnot) fun s _ b hb => ?_
    rw [find_remove] at hb
    exact (Option.ite_none_left_eq_some.mp hb).2
  | appear path content =>
    obtain ⟨⟨hname, hfree⟩, hw⟩ := Option.ite_none_right_eq_some.mp hstep
    cases hw
    refine h.files h.distinct.put (Lasting.put (.inr hfree)) fun s hs b hb => ?_
    rw [find_put_ne] at hb
    · exact hb
    · rintro rfl
      obtain ⟨i, hi⟩ := List.mem_iff_getElem?.mp hs
      exact (h.sinks i s hi).temporary (endsAsBackup_of_isBackupName hname)
  | record f =>
    cases hstep
    exact { h with }
  | run j m => exact h.run hinj hstep

end

/-! ## 8. What is registered, and what is kept -/

/-- **What is registered as verified is what the server keeps**: in every run in which every rename
    finds nothing under its new name, a file that was registered as verified is the file of the server
    that its digest was taken of, and a backup that was installed is in its folder with all that was
    written, under a name that is collected. -/
theorem streamed_faithful {as : List (Action δ)} (hinj : Function.Injective M.sha256)
    (hdistinct : Distinct dir) (hrun : run (step M) (World.start δ dir) as = some w)
    (hfree : Along (step M) (fun w a => renamesFree w a = true) (World.start δ dir) as) :
    (∀ g ∈ w.registered, g.record.validation = .verified → g.record.remotePath.isSome = true →
      g.digested = some g.stored) ∧
    ∀ s ∈ w.sinks, ∀ name, s.phase = .installed name →
      find (s.path name) w.dir = some s.written ∧
      ⟨name, s.path name, s.written.length⟩ ∈ folderFiles w.dir s.folder ∧
      isBackupName name (some s.stem) = true := by
  have h : Sound M w := run_invariant_along
    (fun _ _ _ hstep hfree h => step_sound hinj hstep hfree h) hrun hfree (sound_start hdistinct)
  refine ⟨h.registered, fun s hs name hphase => ?_⟩
  obtain ⟨i, hi⟩ := List.mem_iff_getElem?.mp hs
  obtain ⟨hfile, ordinal, rfl⟩ := (h.sinks i s hi).installed name hphase
  refine ⟨hfile, ?_, isBackupName_filename (h.sinks i s hi).stem⟩
  exact List.mem_map.mpr ⟨(s.path (s.target ordinal), s.written),
    List.mem_filter.mpr ⟨mem_of_find hfile, decide_eq_true rfl⟩, rfl⟩

/-- The token of a partial file. -/
def token : Name := "0123456789abcdef".toList

def morning : Name := backupFilename ['n'] fullHour 1

/-- Another run registers a backup of its name. -/
def other : BackupFile Bytes :=
  Arrival.record Release.twoRuns 1 0 morning [2026] ⟨morning, some ⟨['b'], morning⟩, 1, none, [1], none⟩

/-- The stream breaks when half of the backup is out, and another backup gets its name; the run takes
    the rest of it from the finished file. -/
def resumedRun : List (Action Bytes) :=
  [.create ['b'] ['n'] fullHour token true, .run 0 (.start 0), .sink 0 (.write [1, 2]),
    .run 0 (.receive 1), .sink 0 (.writeLost [3, 4] 1),
    .run 0 (.breaks ⟨morning, partialName morning token⟩),
    .sink 0 (.finish true), .appear ⟨['b'], morning⟩ [1], .record other, .sink 0 .link, .sink 0 .link,
    .run 0 .finished, .run 0 (.pullRest 9), .run 0 .digest, .run 0 (.register morning [2026])]

/-- **A backup that is resumed.** -/
theorem streamed_faithful_resumed :
    ∃ w, run (step Release.twoRuns) (World.start Bytes []) resumedRun = some w ∧
    (∃ g ∈ w.registered, g.record.validation = .verified ∧ g.stored = [1, 2, 3, 4]) ∧
    ((∀ g ∈ w.registered, g.record.validation = .verified → g.record.remotePath.isSome = true →
      g.digested = some g.stored) ∧
    ∀ s ∈ w.sinks, ∀ name, s.phase = .installed name →
      find (s.path name) w.dir = some s.written ∧
      ⟨name, s.path name, s.written.length⟩ ∈ folderFiles w.dir s.folder ∧
      isBackupName name (some s.stem) = true) := by
  have hall : (run (step Release.twoRuns) (World.start Bytes []) resumedRun).any (fun w =>
      w.registered.any fun g => decide (g.record.validation = .verified ∧ g.stored = [1, 2, 3, 4])) =
        true := by decide +kernel
  obtain ⟨w, hw, hany⟩ := (Option.any_eq_true _ _).mp hall
  obtain ⟨g, hg, hstored⟩ := List.any_eq_true.mp hany
  refine ⟨w, hw, ⟨g, hg, of_decide_eq_true hstored⟩, ?_⟩
  exact streamed_faithful (M := Release.twoRuns) (fun _ _ h => h) Distinct.nil hw (by decide +kernel)

/-- The token of another partial file. -/
def token' : Name := "fedcba9876543210".toList

/-- Two backups of one prefix and second, without hard links: both find the name free, and both
    rename. -/
def twoRenames : List (Action Bytes) :=
  [.create ['b'] ['n'] fullHour token true, .create ['b'] ['n'] fullHour token' true,
    .sink 0 (.write [1]), .sink 1 (.write [2]), .sink 0 (.finish true), .sink 1 (.finish true),
    .sink 0 .look, .sink 1 .look, .sink 0 .rename, .sink 1 .rename]

/-- **An installed backup is replaced**: the first sink says that it installed its backup, and its
    file holds what the other one wrote. -/
theorem installed_replaced :
    ∃ w, run (step Release.twoRuns) (World.start Bytes []) twoRenames = some w ∧
    ∃ s ∈ w.sinks, s.phase = .installed morning ∧ s.written = [1] ∧
      find (s.path morning) w.dir = some [2] := by
  have hall : (run (step Release.twoRuns) (World.start Bytes []) twoRenames).any (fun w =>
      w.sinks.any fun s => decide (s.phase = .installed morning ∧ s.written = [1] ∧
        find (s.path morning) w.dir = some [2])) = true := by decide +kernel
  obtain ⟨w, hw, hany⟩ := (Option.any_eq_true _ _).mp hall
  obtain ⟨s, hs, hreplaced⟩ := List.any_eq_true.mp hany
  exact ⟨w, hw, s, hs, of_decide_eq_true hreplaced⟩

end Dbs.Streaming

/-
  File:      Dbs/Expiry.lean
  Subject:   STORED BACKUPS UNTIL THEY EXPIRE (backup_schedule_service.py, remove_expired;
             backup_service.py, delete and undo_delete; storage.py, install, writing and remove;
             tee.py, place_without_replacing): files and records change in separate steps.

  * `numbered`, `sealedName` -- the names that a stored file may get;
  * `Record`, `Stage`, `Sweep`, `step` -- backups that are stored, records that are deleted and
    restored, expired ones whose files are removed and that are marked then, all at once and killed
    anywhere;
  * `inTime` -- no deletion is undone while the file is being removed or when it is gone, and nobody's
    file has the name of a record whose file is gone;
  * `Ledger`, `Stored`, `Safe` -- what records say of each other, and of the files;
  * `stored_survive` -- then every record that is not deleted has its bytes, and bytes go only when they
    have expired; `stored_lost` -- three runs in which a backup loses them.
-/
import Dbs.Lib.Folder
import Dbs.Lib.Octets
import Dbs.Naming

namespace Dbs.Expiry

open Octets Naming Runs Folder Rows

/-! ## 1. Names -/

/-- The folder of an application and a name in it. -/
structure Path where
  application : Nat
  name : Name
deriving DecidableEq

def storedNameMaxBytes : Nat := 200

/-- `name.encode()[:n].decode(errors="ignore")`. -/
def cut : Nat → Name → Name
  | _, [] => []
  | n, c :: name => if c.utf8Size ≤ n then c :: cut (n - c.utf8Size) name else []

/-- `_numbered`. -/
def numbered (name : Name) (ordinal : Nat) : Name :=
  let kept := cut storedNameMaxBytes name
  let extension := (kept.reverse.takeWhile fun c => c ≠ '.').reverse
  let stem := kept.take (kept.length - extension.length - 1)
  let number := '-' :: Nat.toDigits 10 ordinal
  if ordinal ≤ 1 then kept
  else if kept.contains '.' && stem ≠ [] then
    stem ++ (number ++ if extension = [] then [] else '.' :: extension)
  else kept ++ number

def sealedSuffix : Name := ".sealed".toList

/-- A candidate of `unused_sealed_path`. -/
def sealedName (name : Name) (ordinal : Nat) : Name :=
  let stem := cut storedNameMaxBytes name
  (if ordinal = 1 then stem else stem ++ '-' :: Nat.toDigits 10 ordinal) ++ sealedSuffix

/-! ## 2. Records, files and what happens to them -/

/-- A moment, in seconds. -/
abbrev Time := Int

structure Record where
  pk : Nat
  path : Path
  /-- The bytes that were stored: the record has their size and digest. -/
  content : Bytes
  deletedAt : Option Time
  removedAt : Option Time
  /-- Since when it has been deleted without a break. -/
  since : Option Time
  /-- How often its deletion was undone. -/
  undone : Nat
  /-- Its file was removed when it had expired. -/
  gone : Bool

/-- A backup that is being stored. -/
inductive Stage
  /-- It is in a file of its own, to be installed. -/
  | received (application : Nat) (name : Name) (ordinal : Nat) (content : Bytes)
  /-- Without hard links: there was nothing under the name. -/
  | checked (application : Nat) (name : Name) (ordinal : Nat) (content : Bytes)
  /-- A name was found for a sealed file. -/
  | chosen (path : Path)
  /-- The name is reserved by an empty file. -/
  | reserved (path : Path)
  | writing (path : Path) (written : Bytes)
  /-- Writing failed: the partial file is to be removed, then the reservation. -/
  | discarding (path : Path)
  | installed (path : Path) (content : Bytes)
  /-- Its file is to be removed. -/
  | failing (path : Path)
  | over

/-- `remove_expired`: the records that it found, and whether the file of the first one is removed. -/
structure Sweep where
  now : Time
  pending : List Record
  removed : Bool

/-- A file was removed, from under these records. -/
structure Removal where
  clock : Time
  victims : List Record

/-- The folder, the rows and the calls. -/
structure World where
  clock : Time
  dir : List (Path × Bytes)
  /-- The partial files, by the path of the file they are for. -/
  partials : List (Path × Bytes)
  records : List Record
  stores : List Stage
  sweeps : List Sweep
  /-- Deletions that `undo_delete` found it may undo. -/
  undos : List Nat
  removals : List Removal

def World.start (clock : Time) : World := ⟨clock, [], [], [], [], [], [], []⟩

inductive Move
  | link
  | look
  | rename
  | reserve
  | openPartial
  | write (data : Bytes)
  | replace
  | fails
  | discard
  | create
  | cleanUp
  | kill

inductive Action
  | tick (passed : Nat)
  | receive (application : Nat) (name : Name) (content : Bytes)
  | choose (application : Nat) (name : Name) (ordinal : Nat)
  | store (j : Nat) (m : Move)
  | sweepPartial (path : Path)
  /-- By a user or by retention. -/
  | delete (pk : Nat)
  | checkUndo (pk : Nat)
  | undo (pk : Nat)
  | sweep
  | remove (k : Nat)
  | mark (k : Nat)

/-- The path where the backup has a file. -/
def Stage.holds : Stage → Option Path
  | .reserved path => some path
  | .writing path _ => some path
  | .discarding path => some path
  | .installed path _ => some path
  | .failing path => some path
  | _ => none

/-- `deleted_before`. -/
def Record.expired (grace now : Time) (r : Record) : Bool :=
  r.removedAt.isNone && r.deletedAt.any fun t => decide (t < now - grace)

namespace World

variable (w : World)

/-- The records that are not marked and have their bytes there. -/
def victims (path : Path) : List Record :=
  w.records.filter fun r => r.removedAt.isNone && r.path = path && find path w.dir = some r.content

/-- `storage.remove`. -/
def unlink (path : Path) : World :=
  { w with dir := Folder.remove path w.dir, removals := ⟨w.clock, w.victims path⟩ :: w.removals }

def go (j : Nat) (s : Stage) : World := { w with stores := w.stores.set j s }

/-- The record with the key is changed. -/
def change (pk : Nat) (f : Record → Record) : World :=
  { w with records := update (fun r => r.pk = pk) f w.records }

/-- The constraint on the paths of records that are not marked. -/
def pathTaken (path : Path) : Bool := w.records.any fun r => r.removedAt.isNone && r.path = path

end World

open World

def storeStep (w : World) (j : Nat) : Move → Option World
  | .link =>
    match w.stores[j]? with
    | some (.received application name ordinal content) =>
      let path : Path := ⟨application, numbered name ordinal⟩
      if (find path w.dir).isSome then
        some (w.go j (.received application name (ordinal + 1) content))
      else some { w.go j (.installed path content) with dir := put path content w.dir }
    | _ => none
  | .look =>
    match w.stores[j]? with
    | some (.received application name ordinal content) =>
      if (find ⟨application, numbered name ordinal⟩ w.dir).isSome then
        some (w.go j (.received application name (ordinal + 1) content))
      else some (w.go j (.checked application name ordinal content))
    | _ => none
  | .rename =>
    match w.stores[j]? with
    | some (.checked application name ordinal content) =>
      let path : Path := ⟨application, numbered name ordinal⟩
      some { w.go j (.installed path content) with dir := put path content w.dir }
    | _ => none
  | .reserve =>
    match w.stores[j]? with
    | some (.chosen path) =>
      if (find path w.dir).isSome then some (w.go j .over)
      else some { w.go j (.reserved path) with dir := put path [] w.dir }
    | _ => none
  | .openPartial =>
    match w.stores[j]? with
    | some (.reserved path) =>
      some { w.go j (.writing path []) with partials := put path [] w.partials }
    | _ => none
  | .write data =>
    match w.stores[j]? with
    | some (.writing path written) =>
      some { w.go j (.writing path (written ++ data)) with
        partials :=
          match find path w.partials with
          | some content => put path (content ++ data) w.partials
          | none => w.partials }
    | _ => none
  | .replace =>
    match w.stores[j]? with
    | some (.writing path written) =>
      match find path w.partials with
      | some content =>
        some { w.go j (.installed path written) with
          dir := put path content w.dir
          partials := Folder.remove path w.partials }
      | none => some (w.go j (.discarding path))
    | _ => none
  | .fails =>
    match w.stores[j]? with
    | some (.reserved path) => some (w.go j (.discarding path))
    | some (.writing path _) => some (w.go j (.discarding path))
    | some (.installed path _) => some (w.go j (.failing path))
    | some _ => some (w.go j .over)
    | none => none
  | .discard =>
    match w.stores[j]? with
    | some (.discarding path) =>
      some { w.go j (.failing path) with partials := Folder.remove path w.partials }
    | _ => none
  | .create =>
    match w.stores[j]? with
    | some (.installed path content) =>
      if w.pathTaken path then some (w.go j (.failing path))
      else
        some { w.go j .over with
          records := w.records ++ [⟨w.records.length, path, content, none, none, none, 0, false⟩] }
    | _ => none
  | .cleanUp =>
    match w.stores[j]? with
    | some (.failing path) => some ((w.unlink path).go j .over)
    | _ => none
  | .kill => some (w.go j .over)

/-- One call, or time passes. -/
def step (grace : Time) (w : World) : Action → Option World
  | .tick passed => some { w with clock := w.clock + passed }
  | .receive application name content =>
    some { w with stores := w.stores ++ [.received application name 1 content] }
  | .choose application name ordinal =>
    let path : Path := ⟨application, sealedName name ordinal⟩
    if (find path w.dir).isSome then none
    else some { w with stores := w.stores ++ [.chosen path] }
  | .store j m => storeStep w j m
  | .sweepPartial path => some { w with partials := Folder.remove path w.partials }
  | .delete pk =>
    some (w.change pk fun r =>
      { r with deletedAt := some w.clock, since := some (r.since.getD w.clock) })
  | .checkUndo pk =>
    if w.records.any fun r =>
        r.pk = pk && r.deletedAt.isSome && r.removedAt.isNone && (find r.path w.dir).isSome then
      some { w with undos := pk :: w.undos }
    else none
  | .undo pk =>
    if w.undos.contains pk then
      some { w.change pk (fun r =>
          { r with deletedAt := none, since := none, undone := r.undone + 1 }) with
        undos := w.undos.erase pk }
    else none
  | .sweep =>
    let expired := w.records.filter fun r => r.expired grace w.clock
    let pending := orderBy (fun r => toLex (r.deletedAt.getD 0, r.pk)) expired
    some { w with sweeps := w.sweeps ++ [⟨w.clock, pending, false⟩] }
  | .remove k =>
    match w.sweeps[k]? with
    | some ⟨now, r :: pending, false⟩ =>
      some { (w.unlink r.path).change r.pk (fun r => { r with gone := true }) with
        sweeps := w.sweeps.set k ⟨now, r :: pending, true⟩ }
    | _ => none
  | .mark k =>
    match w.sweeps[k]? with
    | some ⟨now, r :: pending, true⟩ =>
      some { w.change r.pk (fun r => { r with removedAt := some now }) with
        sweeps := w.sweeps.set k ⟨now, pending, false⟩ }
    | _ => none

/-! ## 3. The condition -/

/-- Another record that is not marked, or a backup that is being stored, has the path of the record. -/
def World.takenFrom (w : World) (r : Record) : Bool :=
  (w.records.any fun q => q.pk ≠ r.pk && q.removedAt.isNone && q.path = r.path) ||
    w.stores.any fun s => s.holds = some r.path

/-- **In time**: when the file of an expired record is removed, its deletion was not undone since it was
    found, and if its file was removed before, nobody else has the name; a deletion is undone only while
    the file is there or when the record is marked; and without hard links a file is renamed only while
    there is nothing under its new name. -/
def inTime (w : World) : Action → Bool
  | .remove k =>
    match w.sweeps[k]? with
    | some ⟨_, r :: _, false⟩ =>
      w.records.all fun q => q.pk ≠ r.pk || (q.undone = r.undone && !(q.gone && w.takenFrom q))
    | _ => true
  | .undo pk => w.records.all fun q => q.pk ≠ pk || !q.gone || q.removedAt.isSome
  | .store j .rename =>
    match w.stores[j]? with
    | some (.checked application name ordinal _) =>
      (find ⟨application, numbered name ordinal⟩ w.dir).isNone
    | _ => true
  | _ => true

/-! ## 4. What the records say -/

variable {w w' : World} {grace : Time} {pk : Nat} {f : Record → Record} {r q : Record} {j : Nat}
  {path : Path}

/-- Deleted, and for the whole grace period. -/
def Record.HasExpired (grace clock : Time) (r : Record) : Prop :=
  ∃ t s, r.deletedAt = some t ∧ r.since = some s ∧ s + grace < clock

theorem Record.HasExpired.later {clock clock' : Time} (h : r.HasExpired grace clock)
    (hle : clock ≤ clock') : r.HasExpired grace clock' := by
  obtain ⟨t, s, ht, hs, hlt⟩ := h
  exact ⟨t, s, ht, hs, lt_of_lt_of_le hlt hle⟩

/-- What a running `remove_expired` knows of a record that it found. -/
structure Known (grace : Time) (w : World) (now : Time) (x r : Record) : Prop where
  mem : r ∈ w.records
  pk : r.pk = x.pk
  path : r.path = x.path
  undone : x.undone ≤ r.undone
  expired : r.undone = x.undone → r.HasExpired grace now

/-- **The records.** -/
structure Ledger (grace : Time) (w : World) : Prop where
  keys : w.records.map Record.pk = List.range w.records.length
  since : ∀ r ∈ w.records, ∀ t, r.deletedAt = some t → ∃ s ≤ t, r.since = some s
  past : ∀ r ∈ w.records, ∀ s, r.since = some s → s ≤ w.clock
  marked : ∀ r ∈ w.records, r.removedAt.isSome = true → r.gone = true
  gone : ∀ r ∈ w.records, r.gone = true → r.removedAt = none → r.HasExpired grace w.clock
  unique : ∀ r ∈ w.records, ∀ q ∈ w.records, r.removedAt = none → q.removedAt = none →
    r.path = q.path → r = q
  clock : ∀ s ∈ w.sweeps, s.now ≤ w.clock
  found : ∀ s ∈ w.sweeps, ∀ x ∈ s.pending, ∃ r, Known grace w s.now x r
  removed : ∀ s ∈ w.sweeps, s.removed = true → ∀ x ∈ s.pending.head?, ∀ r ∈ w.records, r.pk = x.pk →
    r.gone = true

theorem Ledger.eq_of_pk (h : Ledger grace w) (hr : r ∈ w.records) (hq : q ∈ w.records)
    (hpk : r.pk = q.pk) : r = q :=
  eq_of_key (by rw [h.keys]; exact List.nodup_range) hr hq hpk

/-- How a record may change, while it keeps its key and its path. -/
structure Changes (grace clock : Time) (f : Record → Record) (r : Record) : Prop where
  pk : (f r).pk = r.pk
  path : (f r).path = r.path
  unmarked : (f r).removedAt = none → r.removedAt = none
  undone : r.undone ≤ (f r).undone
  since : ∀ t, (f r).deletedAt = some t → ∃ s ≤ t, (f r).since = some s
  past : ∀ s, (f r).since = some s → s ≤ clock
  marked : (f r).removedAt.isSome = true → (f r).gone = true
  gone : (f r).gone = true → (f r).removedAt = none → (f r).HasExpired grace clock
  stays : r.gone = true → (f r).gone = true
  expired : ∀ now, r.HasExpired grace now → (f r).undone = r.undone → (f r).HasExpired grace now

/-- **A record changes.** -/
theorem Ledger.change (h : Ledger grace w)
    (hf : ∀ r ∈ w.records, r.pk = pk → Changes grace w.clock f r) : Ledger grace (w.change pk f) := by
  have hmem : ∀ r' ∈ (w.change pk f).records, (∃ r ∈ w.records, r.pk = pk ∧ f r = r') ∨
      (r' ∈ w.records ∧ r'.pk ≠ pk) := by
    intro r' hr'
    rcases mem_update.mp hr' with ⟨r, hr, hpk, rfl⟩ | ⟨hr, hpk⟩
    · exact .inl ⟨r, hr, of_decide_eq_true hpk, rfl⟩
    · exact .inr ⟨hr, of_decide_eq_false hpk⟩
  refine ⟨?_, ?_, ?_, ?_, ?_, ?_, h.clock, ?_, ?_⟩
  · rw [World.change, map_update Record.pk fun r hr hp => (hf r hr (of_decide_eq_true hp)).pk, h.keys,
      update, List.length_map]
  · intro r' hr'
    rcases hmem r' hr' with ⟨r, hr, hpk, rfl⟩ | ⟨hr, -⟩
    · exact (hf r hr hpk).since
    · exact h.since r' hr
  · intro r' hr'
    rcases hmem r' hr' with ⟨r, hr, hpk, rfl⟩ | ⟨hr, -⟩
    · exact (hf r hr hpk).past
    · exact h.past r' hr
  · intro r' hr'
    rcases hmem r' hr' with ⟨r, hr, hpk, rfl⟩ | ⟨hr, -⟩
    · exact (hf r hr hpk).marked
    · exact h.marked r' hr
  · intro r' hr'
    rcases hmem r' hr' with ⟨r, hr, hpk, rfl⟩ | ⟨hr, -⟩
    · exact (hf r hr hpk).gone
    · exact h.gone r' hr
  · intro r' hr' q' hq' hrm hqm hpath
    rcases hmem r' hr' with ⟨r, hr, hpk, rfl⟩ | ⟨hr, hpk⟩ <;>
      rcases hmem q' hq' with ⟨q, hq, hqk, rfl⟩ | ⟨hq, hqk⟩
    · rw [h.eq_of_pk hr hq (hpk.trans hqk.symm)]
    · have hsame := h.unique r hr q' hq ((hf r hr hpk).unmarked hrm) hqm ((hf r hr hpk).path ▸ hpath)
      exact absurd (hsame ▸ hpk) hqk
    · have hsame := h.unique r' hr q hq hrm ((hf q hq hqk).unmarked hqm) ((hf q hq hqk).path ▸ hpath)
      exact absurd (hsame ▸ hqk) hpk
    · exact h.unique r' hr q' hq hrm hqm hpath
  · intro s hs x hx
    obtain ⟨r, hr⟩ := h.found s hs x hx
    by_cases hpk : r.pk = pk
    · have hc := hf r hr.mem hpk
      refine ⟨f r, mem_update.mpr (.inl ⟨r, hr.mem, decide_eq_true hpk, rfl⟩), hc.pk.trans hr.pk,
        hc.path.trans hr.path, hr.undone.trans hc.undone, fun heq => ?_⟩
      have hx := hr.undone
      have hle := hc.undone
      exact hc.expired s.now (hr.expired (by omega)) (by omega)
    · exact ⟨r, mem_update.mpr (.inr ⟨hr.mem, decide_eq_false hpk⟩), hr.pk, hr.path, hr.undone,
        hr.expired⟩
  · intro s hs hrem x hx r' hr' hx'
    rcases hmem r' hr' with ⟨r, hr, hpk, rfl⟩ | ⟨hr, -⟩
    · exact (hf r hr hpk).stays (h.removed s hs hrem x hx r hr ((hf r hr hpk).pk ▸ hx'))
    · exact h.removed s hs hrem x hx r' hr hx'

/-- The sweeps change, the records do not. -/
theorem Ledger.sweeping {sweeps : List Sweep} (h : Ledger grace w)
    (hs : ∀ s ∈ sweeps, s ∈ w.sweeps ∨ s.now ≤ w.clock ∧
    (∀ x ∈ s.pending, ∃ r, Known grace w s.now x r) ∧
      (s.removed = true → ∀ x ∈ s.pending.head?, ∀ r ∈ w.records, r.pk = x.pk → r.gone = true)) :
    Ledger grace { w with sweeps } where
  __ := h
  clock := fun s hmem => (hs s hmem).elim (h.clock s) fun hnew => hnew.1
  found := by
    intro s hmem x hx
    have hr : ∃ r, Known grace w s.now x r :=
      (hs s hmem).elim (fun hold => h.found s hold x hx) fun hnew => hnew.2.1 x hx
    obtain ⟨r, hr⟩ := hr
    exact ⟨r, hr.mem, hr.pk, hr.path, hr.undone, hr.expired⟩
  removed := fun s hmem => (hs s hmem).elim (h.removed s) fun hnew => hnew.2.2

/-- What the records do not see. -/
theorem Ledger.frame (h : Ledger grace w) (hr : w'.records = w.records) (hs : w'.sweeps = w.sweeps)
    (hc : w.clock ≤ w'.clock) : Ledger grace w' where
  keys := by rw [hr]; exact h.keys
  since := by rw [hr]; exact h.since
  past := by rw [hr]; exact fun r hmem s hs => (h.past r hmem s hs).trans hc
  marked := by rw [hr]; exact h.marked
  gone := by rw [hr]; exact fun r hmem hg hm => (h.gone r hmem hg hm).later hc
  unique := by rw [hr]; exact h.unique
  clock := by rw [hs]; exact fun s hmem => (h.clock s hmem).trans hc
  found := by
    rw [hs]
    intro s hmem x hx
    obtain ⟨r, hk⟩ := h.found s hmem x hx
    exact ⟨r, by rw [hr]; exact hk.mem, hk.pk, hk.path, hk.undone, hk.expired⟩
  removed := by rw [hr, hs]; exact h.removed

/-- **A record is made**, of a path that no record has that is not marked. -/
theorem Ledger.create {content : Bytes} (h : Ledger grace w) (hfree : w.pathTaken path = false) :
    Ledger grace { w with
      records := w.records ++ [⟨w.records.length, path, content, none, none, none, 0, false⟩] } := by
  have hnot : ∀ r ∈ w.records, r.removedAt = none → r.path ≠ path := by
    intro r hr hm hpath
    have hall := List.any_eq_false.mp hfree r hr
    simp [hm, hpath] at hall
  refine ⟨?_, ?_, ?_, ?_, ?_, ?_, h.clock, ?_, ?_⟩
  · rw [List.map_append, h.keys, List.length_append, List.map_singleton, List.length_singleton,
      List.range_succ]
  · intro r hr
    rcases List.mem_append.mp hr with hr | hr
    · exact h.since r hr
    · obtain rfl := List.mem_singleton.mp hr
      exact nofun
  · intro r hr
    rcases List.mem_append.mp hr with hr | hr
    · exact h.past r hr
    · obtain rfl := List.mem_singleton.mp hr
      exact nofun
  · intro r hr
    rcases List.mem_append.mp hr with hr | hr
    · exact h.marked r hr
    · obtain rfl := List.mem_singleton.mp hr
      exact nofun
  · intro r hr
    rcases List.mem_append.mp hr with hr | hr
    · exact h.gone r hr
    · obtain rfl := List.mem_singleton.mp hr
      exact nofun
  · intro r hr q hq hrm hqm hpath
    rcases List.mem_append.mp hr with hr | hr <;> rcases List.mem_append.mp hq with hq | hq
    · exact h.unique r hr q hq hrm hqm hpath
    · obtain rfl := List.mem_singleton.mp hq
      exact absurd hpath (hnot r hr hrm)
    · obtain rfl := List.mem_singleton.mp hr
      exact absurd hpath.symm (hnot q hq hqm)
    · rw [List.mem_singleton.mp hr, List.mem_singleton.mp hq]
  · intro s hs x hx
    obtain ⟨r, hk⟩ := h.found s hs x hx
    exact ⟨r, List.mem_append_left _ hk.mem, hk.pk, hk.path, hk.undone, hk.expired⟩
  · intro s hs hrem x hx r hr hpk
    rcases List.mem_append.mp hr with hr | hr
    · exact h.removed s hs hrem x hx r hr hpk
    · -- the key is a new one
      obtain rfl := List.mem_singleton.mp hr
      obtain ⟨q, hk⟩ := h.found s hs x (List.mem_of_mem_head? hx)
      have hlt : q.pk ∈ w.records.map Record.pk := List.mem_map_of_mem hk.mem
      rw [h.keys, List.mem_range, hk.pk, ← hpk] at hlt
      exact absurd hlt (Nat.lt_irrefl _)

/-! ## 5. What stands under the names -/

/-- **The files**, of the records that are not marked and of the backups that are being stored. -/
structure Stored (w : World) : Prop where
  kept : ∀ r ∈ w.records, r.removedAt = none → r.gone = false → find r.path w.dir = some r.content
  apart : ∀ (i j : Nat) (s t : Stage) (p : Path), w.stores[i]? = some s → w.stores[j]? = some t →
    s.holds = some p → t.holds = some p → i = j
  there : ∀ s ∈ w.stores, ∀ p, s.holds = some p → (find p w.dir).isSome = true
  nobody : ∀ s ∈ w.stores, ∀ p, s.holds = some p → ∀ r ∈ w.records, r.removedAt = none → r.path = p →
    r.gone = true
  installed : ∀ p c, .installed p c ∈ w.stores → find p w.dir = some c
  partials : ∀ p b, .writing p b ∈ w.stores → ∀ x, find p w.partials = some x → x = b

theorem set_cases {l : List Stage} {i : Nat} {s t u : Stage} (hj : l[j]? = some s)
    (hi : (l.set j t)[i]? = some u) : i = j ∧ u = t ∨ i ≠ j ∧ l[i]? = some u := by
  by_cases hij : i = j
  · subst hij
    rw [List.getElem?_set_self (List.getElem?_eq_some_iff.mp hj).1] at hi
    exact .inl ⟨rfl, (Option.some.inj hi).symm⟩
  · rw [List.getElem?_set_ne fun heq => hij heq.symm] at hi
    exact .inr ⟨hij, hi⟩

variable {s t : Stage}

section

variable (h : Stored w)

include h

/-- **A backup goes on** and changes nothing but the file that it holds. -/
theorem Stored.go {dir partials : List (Path × Bytes)}
    (hj : w.stores[j]? = some s) (hholds : ∀ p, t.holds = some p → s.holds = some p)
    (hdir : ∀ q, s.holds ≠ some q → find q dir = find q w.dir)
    (hpartials : ∀ q, s.holds ≠ some q → ∀ x, find q partials = some x → find q w.partials = some x)
    (hthere : ∀ p, t.holds = some p → (find p dir).isSome = true)
    (hinstalled : ∀ p c, t = .installed p c → find p dir = some c)
    (hwriting : ∀ p b, t = .writing p b → ∀ x, find p partials = some x → x = b) :
    Stored { w with dir, partials, stores := w.stores.set j t } := by
  have hmem : s ∈ w.stores := List.mem_of_getElem? hj
  have hset : ∀ (i : Nat) u, (w.stores.set j t)[i]? = some u → i = j ∧ u = t ∨ i ≠ j ∧
    w.stores[i]? = some u :=
    fun i u => set_cases hj
  have hother : ∀ (i : Nat) (u : Stage) p, i ≠ j → w.stores[i]? = some u → u.holds = some p →
    s.holds ≠ some p :=
    fun i u p hij hi hu hs => hij (h.apart i j u s p hi hj hu hs)
  refine ⟨?_, ?_, ?_, ?_, ?_, ?_⟩
  · intro r hr hm hg
    have hne : s.holds ≠ some r.path := fun hs => by
      rw [h.nobody s hmem r.path hs r hr hm rfl] at hg
      cases hg
    rw [hdir _ hne]
    exact h.kept r hr hm hg
  · intro i i' u u' p hi hi' hu hu'
    rcases hset i u hi with ⟨rfl, rfl⟩ | ⟨hne, hold⟩ <;>
      rcases hset i' u' hi' with ⟨rfl, rfl⟩ | ⟨hne', hold'⟩
    · rfl
    · exact absurd (hholds p hu) (hother i' u' p hne' hold' hu')
    · exact absurd (hholds p hu') (hother i u p hne hold hu)
    · exact h.apart i i' u u' p hold hold' hu hu'
  · intro u hu p hp
    obtain ⟨i, hi⟩ := List.mem_iff_getElem?.mp hu
    rcases hset i u hi with ⟨rfl, rfl⟩ | ⟨hne, hi⟩
    · exact hthere p hp
    · rw [hdir p (hother i u p hne hi hp)]
      exact h.there u (List.mem_of_getElem? hi) p hp
  · intro u hu p hp
    obtain ⟨i, hi⟩ := List.mem_iff_getElem?.mp hu
    rcases hset i u hi with ⟨rfl, rfl⟩ | ⟨-, hi⟩
    · exact h.nobody s hmem p (hholds p hp)
    · exact h.nobody u (List.mem_of_getElem? hi) p hp
  · intro p c hu
    obtain ⟨i, hi⟩ := List.mem_iff_getElem?.mp hu
    rcases hset i _ hi with ⟨rfl, ht⟩ | ⟨hne, hi⟩
    · exact hinstalled p c ht.symm
    · rw [hdir p (hother i _ p hne hi rfl)]
      exact h.installed p c (List.mem_of_getElem? hi)
  · intro p b hu x hx
    obtain ⟨i, hi⟩ := List.mem_iff_getElem?.mp hu
    rcases hset i _ hi with ⟨rfl, ht⟩ | ⟨hne, hi⟩
    · exact hwriting p b ht.symm x hx
    · exact h.partials p b (List.mem_of_getElem? hi) x (hpartials p (hother i _ p hne hi rfl) x hx)

/-- A backup goes on and holds nothing. -/
theorem Stored.idle (hj : w.stores[j]? = some s) (ht : t.holds = none) : Stored (w.go j t) := by
  have hnot : ∀ p, t.holds ≠ some p := fun p hp => by
    rw [ht] at hp
    cases hp
  refine h.go hj (fun p hp => absurd hp (hnot p)) (fun _ _ => rfl) (fun _ _ _ hx => hx)
    (fun p hp => absurd hp (hnot p)) ?_ ?_
  · rintro p c rfl
    exact absurd rfl (hnot p)
  · rintro p b rfl
    exact absurd rfl (hnot p)

/-- A backup goes on with the file that it holds. -/
theorem Stored.keep (hj : w.stores[j]? = some s) (hs : s.holds = some path)
    (ht : t.holds = some path) (hinstalled : ∀ p c, t ≠ .installed p c)
    (hwriting : ∀ p b, t ≠ .writing p b) :
    Stored (w.go j t) := by
  have heq : ∀ p, t.holds = some p → s.holds = some p := fun p hp => by rw [hs, ← ht, hp]
  exact h.go hj heq (fun _ _ => rfl) (fun _ _ _ hx => hx)
    (fun p hp => h.there s (List.mem_of_getElem? hj) p (heq p hp))
    (fun p c hp => absurd hp (hinstalled p c)) fun p b hp => absurd hp (hwriting p b)

/-- **A backup takes a name** that nothing has. -/
theorem Stored.claim {b : Bytes} (hj : w.stores[j]? = some s)
    (hfree : find path w.dir = none) (ht : t.holds = some path)
    (hinstalled : ∀ p c, t = .installed p c → c = b) (hwriting : ∀ p b, t ≠ .writing p b) :
    Stored { w.go j t with dir := put path b w.dir } := by
  have hfind : ∀ q c, find q w.dir = some c → find q (put path b w.dir) = some c := by
    intro q c hq
    rw [find_put_ne]
    · exact hq
    · rintro rfl
      rw [hfree] at hq
      cases hq
  have hset : ∀ (i : Nat) u, (w.stores.set j t)[i]? = some u → i = j ∧ u = t ∨ i ≠ j ∧
    w.stores[i]? = some u :=
    fun i u => set_cases hj
  have hother : ∀ (i : Nat) (u : Stage), w.stores[i]? = some u → u.holds ≠ some path := by
    intro i u hi hu
    have hsome := h.there u (List.mem_of_getElem? hi) path hu
    rw [hfree] at hsome
    cases hsome
  have heq : ∀ p, t.holds = some p → p = path := fun p hp => Option.some.inj (hp.symm.trans ht)
  refine ⟨?_, ?_, ?_, ?_, ?_, ?_⟩
  · intro r hr hm hg
    exact hfind _ _ (h.kept r hr hm hg)
  · intro i i' u u' p hi hi' hu hu'
    rcases hset i u hi with ⟨rfl, rfl⟩ | ⟨-, hold⟩ <;> rcases hset i' u' hi' with ⟨rfl, rfl⟩
      | ⟨-, hold'⟩
    · rfl
    · exact absurd (heq p hu ▸ hu') (hother i' u' hold')
    · exact absurd (heq p hu' ▸ hu) (hother i u hold)
    · exact h.apart i i' u u' p hold hold' hu hu'
  · intro u hu p hp
    obtain ⟨i, hi⟩ := List.mem_iff_getElem?.mp hu
    rcases hset i u hi with ⟨rfl, rfl⟩ | ⟨-, hi⟩
    · rw [heq p hp, find_put_self]
      rfl
    · obtain ⟨c, hc⟩ := Option.isSome_iff_exists.mp (h.there u (List.mem_of_getElem? hi) p hp)
      rw [hfind p c hc]
      rfl
  · intro u hu p hp
    obtain ⟨i, hi⟩ := List.mem_iff_getElem?.mp hu
    rcases hset i u hi with ⟨rfl, rfl⟩ | ⟨-, hi⟩
    · intro r hr hm hpath
      cases hg : r.gone with
      | true => rfl
      | false =>
        have hkept := h.kept r hr hm hg
        rw [hpath, heq p hp, hfree] at hkept
        cases hkept
    · exact h.nobody u (List.mem_of_getElem? hi) p hp
  · intro p c hu
    obtain ⟨i, hi⟩ := List.mem_iff_getElem?.mp hu
    rcases hset i _ hi with ⟨rfl, rfl⟩ | ⟨-, hi⟩
    · rw [heq p rfl, hinstalled p c rfl, find_put_self]
    · exact hfind p c (h.installed p c (List.mem_of_getElem? hi))
  · intro p b' hu
    obtain ⟨i, hi⟩ := List.mem_iff_getElem?.mp hu
    rcases hset i _ hi with ⟨rfl, ht'⟩ | ⟨-, hi⟩
    · exact absurd ht'.symm (hwriting p b')
    · exact h.partials p b' (List.mem_of_getElem? hi)

/-- A backup begins, without a file under a name. -/
theorem Stored.receive {s : Stage} (hs : s.holds = none) :
    Stored { w with stores := w.stores ++ [s] } := by
  have hold : ∀ (i : Nat) (u : Stage) p, (w.stores ++ [s])[i]? = some u → u.holds = some p →
      w.stores[i]? = some u := by
    intro i u p hi hu
    rw [List.getElem?_append] at hi
    split at hi
    · exact hi
    · have hmem := List.mem_singleton.mp (List.mem_of_getElem? hi)
      rw [hmem, hs] at hu
      cases hu
  have hmem : ∀ u p, u ∈ w.stores ++ [s] → u.holds = some p → u ∈ w.stores := by
    intro u p hu hp
    obtain ⟨i, hi⟩ := List.mem_iff_getElem?.mp hu
    exact List.mem_of_getElem? (hold i u p hi hp)
  exact ⟨h.kept, fun i j u v p hi hj hu hv =>
    h.apart i j u v p (hold i u p hi hu) (hold j v p hj hv) hu hv,
    fun u hu p hp => h.there u (hmem u p hu hp) p hp, fun u hu p hp => h.nobody u (hmem u p hu hp) p hp,
    fun p c hu => h.installed p c (hmem _ p hu rfl), fun p b hu => h.partials p b (hmem _ p hu rfl)⟩

theorem Stored.sweepPartial (path : Path) :
    Stored { w with partials := Folder.remove path w.partials } := by
  refine ⟨h.kept, h.apart, h.there, h.nobody, h.installed, fun p b hu x hx => h.partials p b hu x ?_⟩
  rw [find_remove] at hx
  exact (Option.ite_none_left_eq_some.mp hx).2

/-- The records change, but those that are not marked keep what they have there. -/
theorem Stored.records {records : List Record}
    (hr : ∀ r ∈ records, r.removedAt = none → ∃ q ∈ w.records, q.removedAt = none ∧ q.path = r.path ∧
      q.content = r.content ∧ q.gone = r.gone) : Stored { w with records } := by
  refine ⟨?_, h.apart, h.there, ?_, h.installed, h.partials⟩
  · intro r hmem hm hg
    obtain ⟨q, hq, hqm, hpath, hcontent, hgone⟩ := hr r hmem hm
    rw [← hpath, ← hcontent]
    exact h.kept q hq hqm (hgone.trans hg)
  · intro s hs p hp r hmem hm hpr
    obtain ⟨q, hq, hqm, hpath, -, hgone⟩ := hr r hmem hm
    rw [← hgone]
    exact h.nobody s hs p hp q hq hqm (hpath.trans hpr)

/-- One record changes so. -/
theorem Stored.change (hf : ∀ r ∈ w.records, r.pk = pk → (f r).removedAt = none →
    r.removedAt = none ∧ (f r).path = r.path ∧ (f r).content = r.content ∧ (f r).gone = r.gone) :
    Stored (w.change pk f) := by
  refine h.records fun r' hr' hm => ?_
  rcases mem_update.mp hr' with ⟨r, hr, hpk, rfl⟩ | ⟨hr, -⟩
  · obtain ⟨hnone, hpath, hcontent, hgone⟩ := hf r hr (of_decide_eq_true hpk) hm
    exact ⟨r, hr, hnone, hpath.symm, hcontent.symm, hgone.symm⟩
  · exact ⟨r', hr, hm, rfl, rfl, rfl⟩

/-- **A stored backup gets its record.** -/
theorem Stored.create {content : Bytes} (hj : w.stores[j]? = some (.installed path content)) :
    Stored { w.go j .over with
      records := w.records ++ [⟨w.records.length, path, content, none, none, none, 0, false⟩] } := by
  have hover := h.idle hj (t := .over) rfl
  have hnot : ∀ s ∈ w.stores.set j .over, s.holds ≠ some path := by
    intro s hs hp
    obtain ⟨i, hi⟩ := List.mem_iff_getElem?.mp hs
    rcases set_cases hj hi with ⟨-, rfl⟩ | ⟨hne, hold⟩
    · cases hp
    · exact hne (h.apart i j _ _ path hold hj hp rfl)
  refine ⟨?_, hover.apart, hover.there, ?_, hover.installed, hover.partials⟩
  · intro r hr
    rcases List.mem_append.mp hr with hr | hr
    · exact h.kept r hr
    · obtain rfl := List.mem_singleton.mp hr
      exact fun _ _ => h.installed path content (List.mem_of_getElem? hj)
  · intro s hs p hp r hr hm hpath
    rcases List.mem_append.mp hr with hr | hr
    · exact hover.nobody s hs p hp r hr hm hpath
    · obtain rfl := List.mem_singleton.mp hr
      have hp' : s.holds = some path := hp.trans (congrArg some hpath.symm)
      exact absurd hp' (hnot s hs)

/-- **The file of a record is removed** when nobody else has its path. -/
theorem Stored.remove
    (hrecords : ∀ q ∈ w.records, q.removedAt = none → q.gone = false → q.path = r.path → q.pk = r.pk)
    (hstores : ∀ s ∈ w.stores, s.holds ≠ some r.path) :
    Stored ((w.unlink r.path).change r.pk fun q => { q with gone := true }) := by
  have hfind : ∀ q, q ≠ r.path → find q (Folder.remove r.path w.dir) = find q w.dir :=
    fun q hne => find_remove_ne hne
  have hheld : ∀ s ∈ w.stores, ∀ p, s.holds = some p → p ≠ r.path :=
    fun s hs p hp heq => hstores s hs (heq ▸ hp)
  refine ⟨?_, h.apart, ?_, ?_, ?_, h.partials⟩
  · intro q' hq' hm hg
    rcases mem_update.mp hq' with ⟨q, -, -, rfl⟩ | ⟨hq, hpk⟩
    · cases hg
    · have hne : q'.path ≠ r.path := fun hpath =>
        of_decide_eq_false hpk (hrecords q' hq hm hg hpath)
      exact (hfind _ hne).trans (h.kept q' hq hm hg)
  · intro s hs p hp
    exact (congrArg Option.isSome (hfind p (hheld s hs p hp))).trans (h.there s hs p hp)
  · intro s hs p hp q' hq' hm hpath
    rcases mem_update.mp hq' with ⟨q, -, -, rfl⟩ | ⟨hq, -⟩
    · rfl
    · exact h.nobody s hs p hp q' hq hm hpath
  · intro p c hs
    exact (hfind p (hheld _ hs p rfl)).trans (h.installed p c hs)

end

/-! ## 6. Every step in time -/

/-- **The invariant.** -/
structure Safe (grace : Time) (w : World) : Prop where
  ledger : Ledger grace w
  stored : Stored w
  removals : ∀ x ∈ w.removals, ∀ r ∈ x.victims, r.HasExpired grace x.clock

theorem safe_start (clock : Time) : Safe grace (World.start clock) where
  ledger := by
    refine ⟨rfl, ?_, ?_, ?_, ?_, ?_, ?_, ?_, ?_⟩ <;> exact nofun
  stored := by
    refine ⟨?_, ?_, ?_, ?_, ?_, ?_⟩
    · exact nofun
    · exact nofun
    · exact nofun
    · exact nofun
    · exact nofun
    · exact nofun
  removals := nofun

/-- The steps of a backup that is stored, except for its record and the removal of its file. -/
theorem Safe.storing (dir partials : List (Path × Bytes)) (stores : List Stage) (h : Safe grace w)
    (hs : Stored { w with dir, partials, stores }) : Safe grace { w with dir, partials, stores } :=
  ⟨h.ledger.frame rfl rfl (le_refl _), hs, h.removals⟩

section

variable (h : Safe grace w)

include h

/-- A backup takes a name. -/
theorem Safe.claim {b : Bytes} (hj : w.stores[j]? = some s)
    (hfree : find path w.dir = none) (ht : t.holds = some path)
    (hinstalled : ∀ p c, t = .installed p c → c = b) (hwriting : ∀ p b, t ≠ .writing p b) :
    Safe grace { w.go j t with dir := put path b w.dir } :=
  h.storing _ w.partials _ (h.stored.claim hj hfree ht hinstalled hwriting)

/-- **The file of a failed backup is removed**: no record has its bytes there that has not expired. -/
theorem Safe.cleanUp (hj : w.stores[j]? = some (.failing path)) :
    Safe grace ((w.unlink path).go j .over) where
  ledger := h.ledger.frame rfl rfl (le_refl _)
  stored := by
    have hs : Stored { w with dir := Folder.remove path w.dir, stores := w.stores.set j .over } := by
      refine h.stored.go hj ?_ ?_ (fun _ _ _ hx => hx) ?_ ?_ ?_
      · exact nofun
      · exact fun q hq => find_remove_ne fun heq => hq (congrArg some heq.symm)
      · exact nofun
      · exact nofun
      · exact nofun
    exact { hs with }
  removals := by
    intro x hx
    rcases List.mem_cons.mp hx with rfl | hx
    · intro r hr
      obtain ⟨hmem, hvictim⟩ := List.mem_filter.mp hr
      simp only [Bool.and_eq_true, Option.isNone_iff_eq_none, decide_eq_true_eq] at hvictim
      have hgone := h.stored.nobody _ (List.mem_of_getElem? hj) path rfl r hmem hvictim.1.1 hvictim.1.2
      exact h.ledger.gone r hmem hgone hvictim.1.1
    · exact h.removals x hx

/-- A backup goes on without a file under a name. -/
theorem Safe.idle (hj : w.stores[j]? = some s) (ht : t.holds = none) : Safe grace (w.go j t) :=
  h.storing w.dir w.partials _ (h.stored.idle hj ht)

/-- A backup goes on with the file that it holds. -/
theorem Safe.keep (hj : w.stores[j]? = some s) (hs : s.holds = some path)
    (ht : t.holds = some path) (hi : ∀ p c, t ≠ .installed p c) (hw : ∀ p b, t ≠ .writing p b) :
    Safe grace (w.go j t) :=
  h.storing w.dir w.partials _ (h.stored.keep hj hs ht hi hw)

theorem Safe.link (hstep : storeStep w j .link = some w') : Safe grace w' := by
  simp only [storeStep] at hstep
  split at hstep
  · rename_i application name ordinal content hj
    split at hstep
    · cases hstep
      exact h.idle hj rfl
    · rename_i hfree
      cases hstep
      refine h.claim hj (Option.not_isSome_iff_eq_none.mp hfree) rfl ?_ ?_
      · exact fun p c heq => by cases heq; rfl
      · intro _ _ h
        cases h
  · cases hstep

theorem Safe.look (hstep : storeStep w j .look = some w') : Safe grace w' := by
  simp only [storeStep] at hstep
  split at hstep
  · rename_i hj
    split at hstep
    · cases hstep
      exact h.idle hj rfl
    · cases hstep
      exact h.idle hj rfl
  · cases hstep

theorem Safe.rename (hstep : storeStep w j .rename = some w')
    (hin : inTime w (.store j .rename) = true) : Safe grace w' := by
  simp only [storeStep] at hstep
  split at hstep
  · rename_i application name ordinal content hj
    cases hstep
    simp only [inTime, hj] at hin
    refine h.claim hj (Option.isNone_iff_eq_none.mp hin) rfl ?_ ?_
    · exact fun p c heq => by cases heq; rfl
    · intro _ _ h
      cases h
  · cases hstep

theorem Safe.reserve (hstep : storeStep w j .reserve = some w') : Safe grace w' := by
  simp only [storeStep] at hstep
  split at hstep
  · rename_i path hj
    split at hstep
    · cases hstep
      exact h.idle hj rfl
    · rename_i hfree
      cases hstep
      refine h.claim hj (Option.not_isSome_iff_eq_none.mp hfree) rfl ?_ ?_
      · intro _ _ h
        cases h
      · intro _ _ h
        cases h
  · cases hstep

theorem Safe.openPartial (hstep : storeStep w j .openPartial = some w') : Safe grace w' := by
  simp only [storeStep] at hstep
  split at hstep
  · rename_i path hj
    cases hstep
    refine h.storing w.dir _ _ (h.stored.go hj (fun p hp => hp) (fun _ _ => rfl) ?_ ?_ ?_ ?_)
    · intro q hq x hx
      rwa [find_put_ne fun heq => hq (congrArg some heq.symm)] at hx
    · intro p hp
      exact h.stored.there _ (List.mem_of_getElem? hj) p hp
    · exact nofun
    · intro p b heq x hx
      cases heq
      rw [find_put_self] at hx
      exact (Option.some.inj hx).symm
  · cases hstep

theorem Safe.write {data : Bytes} (hstep : storeStep w j (.write data) = some w') :
    Safe grace w' := by
  simp only [storeStep] at hstep
  split at hstep
  · rename_i path written hj
    have hmem := List.mem_of_getElem? hj
    cases hstep
    refine h.storing w.dir _ _ (h.stored.go hj (fun p hp => hp) (fun _ _ => rfl) ?_ ?_ ?_ ?_)
    · intro q hq x hx
      split at hx
      · rwa [find_put_ne fun heq => hq (congrArg some heq.symm)] at hx
      · exact hx
    · exact fun p hp => h.stored.there _ hmem p hp
    · intro _ _ h
      cases h
    · intro p b heq x hx
      cases heq
      split at hx
      · rename_i content hcontent
        rw [find_put_self] at hx
        rw [← Option.some.inj hx, h.stored.partials path written hmem content hcontent]
      · rename_i hnone
        rw [hnone] at hx
        cases hx
  · cases hstep

theorem Safe.replace (hstep : storeStep w j .replace = some w') : Safe grace w' := by
  simp only [storeStep] at hstep
  split at hstep
  · rename_i path written hj
    have hmem := List.mem_of_getElem? hj
    split at hstep
    · rename_i content hcontent
      cases hstep
      obtain rfl := h.stored.partials path written hmem content hcontent
      refine h.storing _ _ _ (h.stored.go hj (fun p hp => hp) ?_ ?_ ?_ ?_ ?_)
      · exact fun q hq => find_put_ne fun heq => hq (congrArg some heq.symm)
      · intro q hq x hx
        rwa [find_remove_ne fun heq => hq (congrArg some heq.symm)] at hx
      · rintro p hp
        cases hp
        rw [find_put_self]
        rfl
      · intro p c heq
        cases heq
        exact find_put_self
      · intro _ _ h
        cases h
    · cases hstep
      exact h.keep hj rfl rfl (by simp) (by simp)
  · cases hstep

theorem Safe.fails (hstep : storeStep w j .fails = some w') : Safe grace w' := by
  simp only [storeStep] at hstep
  split at hstep
  · rename_i hj
    cases hstep
    exact h.keep hj rfl rfl nofun nofun
  · rename_i hj
    cases hstep
    exact h.keep hj rfl rfl nofun nofun
  · rename_i hj
    cases hstep
    exact h.keep hj rfl rfl nofun nofun
  · rename_i hj
    cases hstep
    exact h.idle hj rfl
  · cases hstep

theorem Safe.discard (hstep : storeStep w j .discard = some w') : Safe grace w' := by
  simp only [storeStep] at hstep
  split at hstep
  · rename_i path hj
    cases hstep
    refine h.storing w.dir _ _ (h.stored.go hj (fun p hp => hp) (fun _ _ => rfl) ?_ ?_ ?_ ?_)
    · intro q _ x hx
      rw [find_remove] at hx
      exact (Option.ite_none_left_eq_some.mp hx).2
    · exact fun p hp => h.stored.there _ (List.mem_of_getElem? hj) p hp
    · exact nofun
    · exact nofun
  · cases hstep

theorem Safe.create (hstep : storeStep w j .create = some w') : Safe grace w' := by
  simp only [storeStep] at hstep
  split at hstep
  · rename_i path content hj
    split at hstep
    · cases hstep
      exact h.keep hj rfl rfl nofun nofun
    · rename_i hfree
      cases hstep
      have hledger := @Ledger.create w grace path content h.ledger (Bool.not_eq_true _ ▸ hfree)
      exact ⟨hledger.frame rfl rfl (le_refl _), h.stored.create hj, h.removals⟩
  · cases hstep

theorem Safe.kill (hstep : storeStep w j .kill = some w') : Safe grace w' := by
  cases hstep
  rcases hj : w.stores[j]? with _ | s
  · have hsame : w.stores.set j .over = w.stores :=
      List.set_eq_of_length_le (List.getElem?_eq_none_iff.mp hj)
    rw [World.go, hsame]
    exact h
  · exact h.idle hj rfl

/-- **Every step of a backup that is stored.** -/
theorem Safe.store {m : Move} (hstep : storeStep w j m = some w')
    (hin : inTime w (.store j m) = true) : Safe grace w' := by
  cases m with
  | link => exact h.link hstep
  | look => exact h.look hstep
  | rename => exact h.rename hstep hin
  | reserve => exact h.reserve hstep
  | openPartial => exact h.openPartial hstep
  | write data => exact h.write hstep
  | replace => exact h.replace hstep
  | fails => exact h.fails hstep
  | discard => exact h.discard hstep
  | create => exact h.create hstep
  | cleanUp =>
    simp only [storeStep] at hstep
    split at hstep
    · rename_i path hj
      cases hstep
      exact h.cleanUp hj
    · cases hstep
  | kill => exact h.kill hstep

/-- **The file of an expired record is removed** in time. -/
theorem Safe.remove {k : Nat} {now : Time} {x : Record} {pending : List Record}
    (hk : w.sweeps[k]? = some ⟨now, x :: pending, false⟩) (hin : inTime w (.remove k) = true) :
    Safe grace { (w.unlink x.path).change x.pk (fun r => { r with gone := true }) with
      sweeps := w.sweeps.set k ⟨now, x :: pending, true⟩ } := by
  have hs := List.mem_of_getElem? hk
  obtain ⟨r, hr⟩ := h.ledger.found _ hs x List.mem_cons_self
  simp only [inTime, hk, List.all_eq_true] at hin
  have hnow : now ≤ w.clock := h.ledger.clock _ hs
  have htime := hin r hr.mem
  simp only [hr.pk, ne_eq, not_true_eq_false, decide_false, Bool.false_or, Bool.and_eq_true,
    decide_eq_true_eq, Bool.not_eq_true'] at htime
  obtain ⟨hundone, hnotTaken⟩ := htime
  have hexpired : r.HasExpired grace w.clock := (hr.expired hundone).later hnow
  -- whoever has the path, if the file was removed before
  have hfree : r.gone = true → (∀ q ∈ w.records, q.removedAt = none → q.path = r.path → q.pk = r.pk) ∧
      ∀ s ∈ w.stores, s.holds ≠ some r.path := by
    intro hg
    rw [hg, Bool.true_and, World.takenFrom, Bool.or_eq_false_iff, List.any_eq_false,
      List.any_eq_false] at hnotTaken
    refine ⟨fun q hq hm hpath => ?_, fun s hs hp => hnotTaken.2 s hs (decide_eq_true hp)⟩
    by_contra hne
    exact hnotTaken.1 q hq (by simp [hm, hpath, hne])
  have hunmarked : r.gone = false → r.removedAt = none := by
    intro hg
    cases hm : r.removedAt with
    | none => rfl
    | some t =>
      rw [h.ledger.marked r hr.mem (by rw [hm]; rfl)] at hg
      cases hg
  have hsame : ∀ q ∈ w.records, q.removedAt = none → q.path = r.path → q = r := by
    intro q hq hm hpath
    cases hg : r.gone with
    | true => exact h.ledger.eq_of_pk hq hr.mem ((hfree hg).1 q hq hm hpath)
    | false => exact h.ledger.unique q hq r hr.mem hm (hunmarked hg) hpath
  have hstores : ∀ s ∈ w.stores, s.holds ≠ some r.path := by
    cases hg : r.gone with
    | true => exact (hfree hg).2
    | false =>
      intro s hs hp
      rw [h.stored.nobody s hs r.path hp r hr.mem (hunmarked hg) rfl] at hg
      cases hg
  rw [← hr.path, ← hr.pk]
  have hstored : Stored ((w.unlink r.path).change r.pk fun q => { q with gone := true }) :=
    h.stored.remove (fun q hq hm _ hpath => congrArg Record.pk (hsame q hq hm hpath)) hstores
  have hchanges : ∀ q ∈ w.records, q.pk = r.pk →
      Changes grace w.clock (fun r => { r with gone := true }) q := by
    intro q hq hpk
    obtain rfl := h.ledger.eq_of_pk hq hr.mem hpk
    exact ⟨rfl, rfl, fun hm => hm, le_refl _, h.ledger.since q hq, h.ledger.past q hq, fun _ => rfl,
      fun _ _ => hexpired,
      fun _ => rfl, fun _ he _ => he⟩
  have hledger : Ledger grace ((w.unlink r.path).change r.pk fun q => { q with gone := true }) :=
    (h.ledger.change hchanges).frame rfl rfl (le_refl _)
  refine ⟨hledger.sweeping ?_, { hstored with }, ?_⟩
  · intro s hmem
    rcases List.mem_or_eq_of_mem_set hmem with hold | rfl
    · exact .inl hold
    · refine .inr ⟨hnow, fun y hy => hledger.found _ hs y hy, fun _ y hy q hq hpk => ?_⟩
      cases hy
      rcases mem_update.mp hq with ⟨q', -, -, rfl⟩ | ⟨-, hne⟩
      · rfl
      · exact absurd (hpk.trans hr.pk.symm) (of_decide_eq_false hne)
  · intro y hy
    rcases List.mem_cons.mp hy with rfl | hy
    · intro q hq
      obtain ⟨hmem, hvictim⟩ := List.mem_filter.mp hq
      simp only [Bool.and_eq_true, Option.isNone_iff_eq_none, decide_eq_true_eq] at hvictim
      rw [hsame q hmem hvictim.1.1 hvictim.1.2]
      exact hexpired
    · exact h.removals y hy

/-- The record is marked whose file was removed. -/
theorem Safe.mark {k : Nat} {now : Time} {x : Record} {pending : List Record}
    (hk : w.sweeps[k]? = some ⟨now, x :: pending, true⟩) :
    Safe grace { w.change x.pk (fun r => { r with removedAt := some now }) with
      sweeps := w.sweeps.set k ⟨now, pending, false⟩ } := by
  have hs := List.mem_of_getElem? hk
  have hchanges : ∀ q ∈ w.records, q.pk = x.pk →
      Changes grace w.clock (fun r => { r with removedAt := some now }) q := by
    intro q hq hpk
    have hgone := h.ledger.removed _ hs rfl x rfl q hq hpk
    exact ⟨rfl, rfl, fun hm => (by cases hm), le_refl _, h.ledger.since q hq, h.ledger.past q hq,
      fun _ => hgone,
      fun _ hm => (by cases hm), fun hg => hg, fun _ he _ => he⟩
  have hledger := h.ledger.change hchanges
  have hstored : Stored (w.change x.pk fun r => { r with removedAt := some now }) :=
    h.stored.change nofun
  have hnow : now ≤ w.clock := h.ledger.clock _ hs
  refine ⟨hledger.sweeping ?_, { hstored with }, h.removals⟩
  intro s hmem
  rcases List.mem_or_eq_of_mem_set hmem with hold | rfl
  · exact .inl hold
  · exact .inr ⟨hnow, fun y hy => hledger.found _ hs y (List.mem_cons_of_mem _ hy), nofun⟩

end

theorem step_safe {a : Action} (hstep : step grace w a = some w') (hin : inTime w a = true)
    (h : Safe grace w) : Safe grace w' := by
  cases a with
  | tick passed =>
    cases hstep
    have hstored := h.stored
    refine ⟨h.ledger.frame rfl rfl ?_, { hstored with }, h.removals⟩
    exact Int.le_add_of_nonneg_right (Int.natCast_nonneg passed)
  | receive application name content =>
    cases hstep
    exact h.storing w.dir w.partials _ (h.stored.receive rfl)
  | choose application name ordinal =>
    obtain ⟨-, ⟨⟩⟩ := Option.ite_none_left_eq_some.mp hstep
    exact h.storing w.dir w.partials _ (h.stored.receive rfl)
  | store j m => exact h.store hstep hin
  | sweepPartial path =>
    cases hstep
    exact h.storing w.dir _ w.stores (h.stored.sweepPartial path)
  | delete pk =>
    cases hstep
    refine ⟨h.ledger.change fun r hr _ => ?_, h.stored.change fun r _ _ hm => ⟨hm, rfl, rfl, rfl⟩,
      h.removals⟩
    have hexpired : ∀ now, r.HasExpired grace now → Record.HasExpired grace now
        { r with deletedAt := some w.clock, since := some (r.since.getD w.clock) } := by
      rintro now ⟨t, s, -, hs, hlt⟩
      exact ⟨w.clock, s, rfl, by simp [hs], hlt⟩
    have hpast : r.since.getD w.clock ≤ w.clock := by
      cases hs : r.since with
      | none => exact le_refl _
      | some s => exact h.ledger.past r hr s hs
    refine ⟨rfl, rfl, fun hm => hm, le_refl _, ?_, ?_, h.ledger.marked r hr, ?_, fun hg => hg, ?_⟩
    · intro t ht
      exact ⟨_, Option.some.inj ht ▸ hpast, rfl⟩
    · exact fun s hs => Option.some.inj hs ▸ hpast
    · exact fun hg hm => hexpired _ (h.ledger.gone r hr hg hm)
    · exact fun now he _ => hexpired now he
  | checkUndo pk =>
    obtain ⟨-, ⟨⟩⟩ := Option.ite_none_right_eq_some.mp hstep
    have hstored := h.stored
    exact ⟨h.ledger.frame rfl rfl (le_refl _), { hstored with }, h.removals⟩
  | undo pk =>
    obtain ⟨-, ⟨⟩⟩ := Option.ite_none_right_eq_some.mp hstep
    have hledger : Ledger grace (w.change pk fun r =>
        { r with deletedAt := none, since := none, undone := r.undone + 1 }) := by
      refine h.ledger.change fun r hr hpk => ?_
      have hthere := List.all_eq_true.mp hin r hr
      refine ⟨rfl, rfl, fun hm => hm, Nat.le_succ _, fun _ ht => (by cases ht),
        fun _ hs => (by cases hs),
        h.ledger.marked r hr, ?_, fun hg => hg, fun _ _ heq => absurd heq (Nat.succ_ne_self _)⟩
      -- the file is there
      intro hg hm
      have hg : r.gone = true := hg
      have hm : r.removedAt = none := hm
      simp [hpk, hg, hm] at hthere
    have hstored : Stored (w.change pk fun r =>
        { r with deletedAt := none, since := none, undone := r.undone + 1 }) :=
      h.stored.change fun r _ _ hm => ⟨hm, rfl, rfl, rfl⟩
    exact ⟨hledger.frame rfl rfl (le_refl _), { hstored with }, h.removals⟩
  | sweep =>
    cases hstep
    have hstored := h.stored
    refine ⟨h.ledger.sweeping ?_, { hstored with }, h.removals⟩
    intro s hmem
    rcases List.mem_append.mp hmem with hold | hnew
    · exact .inl hold
    · obtain rfl := List.mem_singleton.mp hnew
      refine .inr ⟨le_refl _, fun x hx => ?_, nofun⟩
      obtain ⟨hx, hexpired⟩ := List.mem_filter.mp ((orderBy_perm _ _).mem_iff.mp hx)
      obtain ⟨-, hdeleted⟩ := Bool.and_eq_true_iff.mp hexpired
      obtain ⟨t, ht, hlt⟩ := (Option.any_eq_true _ _).mp hdeleted
      obtain ⟨s, hle, hs⟩ := h.ledger.since x hx t ht
      have hlt : t < w.clock - grace := of_decide_eq_true hlt
      have hgrace : s + grace < w.clock := lt_sub_iff_add_lt.mp (lt_of_le_of_lt hle hlt)
      exact ⟨x, hx, rfl, rfl, le_refl _, fun _ => ⟨t, s, ht, hs, hgrace⟩⟩
  | remove k =>
    simp only [step] at hstep
    split at hstep
    · rename_i now x pending hk
      cases hstep
      exact h.remove hk hin
    · cases hstep
  | mark k =>
    simp only [step] at hstep
    split at hstep
    · rename_i now x pending hk
      cases hstep
      exact h.mark hk
    · cases hstep

/-! ## 7. Stored backups survive -/

/-- **Stored backups survive until they expire**: in every run whose steps are in time, a record that is
    neither deleted nor marked has its bytes under its path, no two records that are not marked share a
    path, and a file is removed from under records only when they have been deleted for the whole grace
    period. -/
theorem stored_survive {clock : Time} {as : List Action}
    (hrun : run (step grace) (World.start clock) as = some w)
    (hin : Along (step grace) (fun w a => inTime w a = true) (World.start clock) as) :
    (∀ r ∈ w.records, r.deletedAt = none → r.removedAt = none → find r.path w.dir = some r.content) ∧
    (∀ r ∈ w.records, ∀ q ∈ w.records, r.removedAt = none → q.removedAt = none → r.path = q.path →
      r = q) ∧
    ∀ x ∈ w.removals, ∀ r ∈ x.victims, r.HasExpired grace x.clock := by
  have h : Safe grace w :=
    run_invariant_along (fun _ _ _ hstep hin hs => step_safe hstep hin hs) hrun hin (safe_start clock)
  refine ⟨fun r hr hd hm => h.stored.kept r hr hm ?_, h.ledger.unique, h.removals⟩
  cases hg : r.gone with
  | false => rfl
  | true =>
    obtain ⟨t, s, ht, -⟩ := h.ledger.gone r hr hg hm
    rw [hd] at ht
    cases ht

def day : Nat := 86400

def week : Time := 7 * 86400

def storedName : Name := "n.dbs".toList

/-- A backup that is received, installed and recorded. -/
def storing (j : Nat) (content : Bytes) : List Action :=
  [.receive 0 storedName content, .store j .link, .store j .create]

/-- It is deleted, and found when it has expired. -/
def expiring : List Action := storing 0 [1] ++ [.delete 0, .tick (8 * day), .sweep]

def removed : List Action := expiring ++ [.remove 0, .mark 0]

theorem stored_survive_removed : ∃ w, run (step week) (World.start 0) removed = some w ∧
    w.removals.length = 1 ∧
    ((∀ r ∈ w.records, r.deletedAt = none → r.removedAt = none → find r.path w.dir = some r.content) ∧
    (∀ r ∈ w.records, ∀ q ∈ w.records, r.removedAt = none → q.removedAt = none → r.path = q.path →
      r = q) ∧
    ∀ x ∈ w.removals, ∀ r ∈ x.victims, r.HasExpired week x.clock) := by
  obtain ⟨w, hw⟩ : ∃ w, run (step week) (World.start 0) removed = some w := by
    rw [← Option.isSome_iff_exists]
    decide +kernel
  have hone : (run (step week) (World.start 0) removed).map (fun w => w.removals.length) = some 1 := by
    decide +kernel
  rw [hw, Option.map_some, Option.some.injEq] at hone
  exact ⟨w, hw, hone, stored_survive hw (by decide +kernel)⟩

/-- The deletion is undone when the backup was found, and its file goes. -/
def undoneLate : List Action := expiring ++ [.checkUndo 0, .undo 0, .remove 0]

/-- The process is killed between the removal of the file and the mark; another backup gets the name, is
    killed before it has a record, and the deletion is undone. -/
def undoneGone : List Action :=
  expiring ++ [.remove 0, .receive 0 storedName [2], .store 1 .link, .store 1 .kill, .checkUndo 0,
    .undo 0]

/-- Killed there too, and the next day the file of another backup goes, before it has a record. -/
def removedTwice : List Action :=
  expiring ++ [.remove 0, .receive 0 storedName [2], .store 1 .link, .sweep, .remove 1, .mark 1,
    .store 1 .create]

/-- A record that is neither deleted nor marked has not its bytes. -/
def World.loses (w : World) : Bool :=
  w.records.any fun r => r.deletedAt.isNone && r.removedAt.isNone && find r.path w.dir ≠ some r.content

theorem stored_lost :
    (∃ w, run (step week) (World.start 0) undoneLate = some w ∧ w.loses = true) ∧
    (∃ w, run (step week) (World.start 0) undoneGone = some w ∧ w.loses = true) ∧
    ∃ w, run (step week) (World.start 0) removedTwice = some w ∧ w.loses = true := by
  have hlate : (run (step week) (World.start 0) undoneLate).any World.loses = true := by decide +kernel
  have hgone : (run (step week) (World.start 0) undoneGone).any World.loses = true := by decide +kernel
  have htwice : (run (step week) (World.start 0) removedTwice).any World.loses = true := by
    decide +kernel
  exact ⟨(Option.any_eq_true _ _).mp hlate, (Option.any_eq_true _ _).mp hgone,
    (Option.any_eq_true _ _).mp htwice⟩

end Dbs.Expiry

/-
  File:      Dbs/Payload/Skipping.lean
  Subject:   MOVING ON BEFORE A FILE'S END (engine/frames.py, FileStream and PayloadReader.files): a
             consumer asks each file for as many chunks as it likes.

  A file that was left is read to its end by `drain`, through a second `chunks()`. Its digest and size
  are its own: they begin with the chunks that are left and know nothing of those taken before.

  * `pullChunks`, `consumeFile` -- some chunks, then the drain; `consumeThrough` -- a payload read so;
  * `finishFile_left` -- what the end of a file says of the chunks that are left;
  * `Settles` -- nothing was taken, or nothing but empty chunks, or everything up to the end, or the
    file was skipped when the backup was taken; `consumeThrough_run` -- the payload is read through where
    every file settles, and refused at the first that does not;
  * `moves_on_iff` -- so moving on works exactly there; `first_chunk` -- one chunk of one file.
-/
import Dbs.Payload.Accepted

namespace Dbs.Payload

open Octets Effects
open Json (Value Text)

/-! ## 1. The consumer -/

/-- What a consumer does with a file: it asks so many times for a chunk and moves on, or it asks until
    there is none. -/
inductive Choice
  | take (times : Nat)
  | all
deriving DecidableEq, Repr

/-- The chunks it has in the end. -/
def Choice.of : Choice → List Bytes → List Bytes
  | .take times, chunks => chunks.take times
  | .all, chunks => chunks

section Reader

variable {R : Type} (D : Decoding) (next : Prog Failure R (Option Frame))

/-- `next` on one `chunks()`, so many times: the chunks, and the file if its end was met. -/
def pullChunks (index : Nat) (entry : FileEntry) : (times : Nat) → (chunks : List Bytes) →
    Reading R (List Bytes × Option FileRead)
  | 0, chunks => return (chunks, none)
  | times + 1, chunks => do
    let found ← takeFrame next
    match found.kind with
    | .fileData =>
      if found.body.length < Struct.size fileIndex ∨ ofBe (slice found.body 0 4) ≠ index then
        throw (.malformed "file data arrives out of manifest order")
      pullChunks index entry times (chunks ++ [found.body.drop (Struct.size fileIndex)])
    | .fileEnd =>
      let read ← give (finishFile D index entry chunks (← parsed (D.loads found.body) "file end"))
      return (chunks, some read)
    | kind => throw (.malformed ("a " ++ kind.name ++ " frame interrupts a file's data"))

/-- One turn of `files`: the consumer's part, and `drain` where the file is not done. -/
def consumeFile (fuel index : Nat) (entry : FileEntry) : Choice → Reading R FileRead
  | .all => readChunks D next index entry fuel []
  | .take times => do
    match ← pullChunks D next index entry times [] with
    | (_, some read) => return read
    | (chunks, none) =>
      let read ← readChunks D next index entry fuel []
      return { read with chunks }

def consumeFilesFrom (fuel : Nat) (choices : Nat → Choice) : (index : Nat) → List FileEntry →
    Reading R (List FileRead)
  | _, [] => return []
  | index, entry :: entries => do
    let file ← consumeFile D next fuel index entry (choices index)
    return file :: (← consumeFilesFrom fuel choices (index + 1) entries)

def consumeFiles (fuel : Nat) (choices : Nat → Choice) : Reading R (List FileRead) := do
  expect .files
  let files ← consumeFilesFrom D next fuel choices 0 (← get).entries
  modify fun t => { t with phase := .records }
  return files

def consumePayload (fuel : Nat) (choices : Nat → Choice) : Reading R Contents := do
  readHeader D next
  readManifest D next fuel
  let files ← consumeFiles D next fuel choices
  let records ← recordBatches D next fuel
  readTrailer D next
  finish next
  let t ← get
  return ⟨t.header, files, records, t.trailer⟩

end Reader

/-- **A payload read through by a consumer** that chooses for each file. -/
def consumeThrough (D : Decoding) (pieces : List Bytes) (choices : Nat → Choice) :
    Except Failure Contents :=
  match exec openFrames (FrameReader.ofPieces pieces) with
  | (.error e, _) => .error e
  | (.ok _, frames) => (exec (consumePayload D nextFrame (fuelFor pieces) choices) { frames }).1

/-- The file can be left so: nothing was taken of it but empty chunks, or its end was met, or its end
    says that it was skipped. -/
def Settles (choice : Choice) (read : FileRead) : Prop :=
  match choice with
  | .all => True
  | .take times => (read.chunks.take times).flatten = [] ∨ read.chunks.length < times ∨
      read.skipped ≠ Text.ofString ""

/-- What the consumer has of a file. -/
def FileRead.left (read : FileRead) (choice : Choice) : FileRead :=
  { read with chunks := choice.of read.chunks }

/-- What it has of the payload. -/
def Contents.left (c : Contents) (choices : Nat → Choice) : Contents :=
  { c with files := c.files.mapIdx fun index read => read.left (choices index) }

/-! ## 2. The pieces play no part -/

section Mirrors

variable (D : Decoding)

theorem mirrorsFlat_pullChunks (index : Nat) (entry : FileEntry) (times : Nat) (chunks : List Bytes) :
    MirrorsFlat (pullChunks D nextFrame index entry times chunks)
      (pullChunks D nextBytes index entry times chunks) := by
  induction times generalizing chunks with
  | zero => exact mirrorsFlat_pure _
  | succ times ih =>
    refine mirrorsFlat_bind mirrorsFlat_takeFrame fun found => ?_
    cases found.kind with
    | fileData => exact mirrorsFlat_ite (mirrorsFlat_throw _) (ih _)
    | fileEnd =>
      exact mirrorsFlat_bind (mirrorsFlat_parsed _ _) fun _ =>
        mirrorsFlat_bind (mirrorsFlat_give _) fun _ => mirrorsFlat_pure _
    | header => exact mirrorsFlat_throw _
    | manifest => exact mirrorsFlat_throw _
    | records => exact mirrorsFlat_throw _
    | trailer => exact mirrorsFlat_throw _

theorem mirrorsFlat_consumeFile (fuel index : Nat) (entry : FileEntry) (choice : Choice) :
    MirrorsFlat (consumeFile D nextFrame fuel index entry choice)
      (consumeFile D nextBytes fuel index entry choice) := by
  cases choice with
  | all => exact mirrorsFlat_readChunks D index entry fuel []
  | take times =>
    refine mirrorsFlat_bind (mirrorsFlat_pullChunks D index entry times []) fun pulled => ?_
    obtain ⟨chunks, ended⟩ := pulled
    cases ended with
    | some read => exact mirrorsFlat_pure _
    | none => exact mirrorsFlat_bind (mirrorsFlat_readChunks D index entry fuel []) fun _ =>
      mirrorsFlat_pure _

theorem mirrorsFlat_consumeFilesFrom (fuel : Nat) (choices : Nat → Choice) (entries : List FileEntry)
    (index : Nat) : MirrorsFlat (consumeFilesFrom D nextFrame fuel choices index entries)
      (consumeFilesFrom D nextBytes fuel choices index entries) := by
  induction entries generalizing index with
  | nil => exact mirrorsFlat_pure _
  | cons entry entries ih =>
    exact mirrorsFlat_bind (mirrorsFlat_consumeFile D fuel index entry (choices index)) fun file =>
      mirrorsFlat_bind (ih _) fun files => mirrorsFlat_pure _

theorem mirrorsFlat_consumeFiles (fuel : Nat) (choices : Nat → Choice) :
    MirrorsFlat (consumeFiles D nextFrame fuel choices) (consumeFiles D nextBytes fuel choices) := by
  refine mirrorsFlat_bind (mirrorsFlat_expect _) fun _ => mirrorsFlat_get fun t => ?_
  exact mirrorsFlat_bind (mirrorsFlat_consumeFilesFrom D fuel choices t.entries 0) (fun files =>
    mirrorsFlat_bind (mirrorsFlat_modify fun _ => rfl) fun _ => mirrorsFlat_pure _) t

theorem mirrorsFlat_consumePayload (fuel : Nat) (choices : Nat → Choice) :
    MirrorsFlat (consumePayload D nextFrame fuel choices) (consumePayload D nextBytes fuel choices) :=
  mirrorsFlat_bind (mirrorsFlat_readHeader D) fun _ =>
    mirrorsFlat_bind (mirrorsFlat_readManifest D fuel) fun _ =>
      mirrorsFlat_bind (mirrorsFlat_consumeFiles D fuel choices) fun _ =>
        mirrorsFlat_bind (mirrorsFlat_recordBatches D fuel) fun _ =>
          mirrorsFlat_bind (mirrorsFlat_readTrailer D) fun _ =>
            mirrorsFlat_bind mirrorsFlat_finish fun _ => mirrorsFlat_get fun _ => ⟨rfl, rfl⟩

end Mirrors

/-! ## 3. One file -/

section File

variable {D : Decoding} {t : PayloadReader Bytes} {tail : Bytes} {index : Nat} {entry : FileEntry}
  {chunks more : List Bytes} {read : FileRead} {last : Bytes} {value : Value}

/-- A chunk of the file is taken. -/
theorem pullChunks_turn {times : Nat} {chunk : Bytes} (chunks : List Bytes) (ht : Ready t)
    (hindex : index < 2 ^ 32) (hfits : (dataFrame index chunk).Fits)
    (hahead : ahead t = stored (fileFrames index (chunk :: more, last)) ++ tail) :
    exec (pullChunks D nextBytes index entry (times + 1) chunks) t =
      exec (pullChunks D nextBytes index entry times (chunks ++ [chunk]))
        { t with pending := none, frames := stored (fileFrames index (more, last)) ++ tail } := by
  rw [stored_fileFrames_cons, List.append_assoc] at hahead
  rw [pullChunks, exec_bind_ok ((takeFrame_ok ht).mpr ⟨_, hfits, hahead, rfl⟩)]
  have hguard := (index_ok hindex).mpr
    (congrArg (indexBytes index ++ ·) (dataFrame_chunk index chunk).symm)
  exact (congrArg (fun x => exec x _) (if_neg hguard)).trans (by rw [dataFrame_chunk])

/-- As many chunks as were asked for, and the file goes on. -/
theorem pullChunks_more {times : Nat} (entry : FileEntry) (chunks : List Bytes) (ht : Ready t)
    (hindex : index < 2 ^ 32) (htimes : times ≤ more.length)
    (hfits : ∀ f ∈ fileFrames index (more, last), f.Fits)
    (hahead : ahead t = stored (fileFrames index (more, last)) ++ tail) :
    ∃ u, exec (pullChunks D nextBytes index entry times chunks) t =
        (.ok (chunks ++ more.take times, none), u) ∧
      Moved t u (stored (fileFrames index (more.drop times, last)) ++ tail) := by
  induction times generalizing t chunks more with
  | zero =>
    refine ⟨t, ?_, hahead, ht, _, _, rfl⟩
    rw [List.take_zero, List.append_nil]
    rfl
  | succ times ih =>
    cases more with
    | nil => exact absurd htimes (Nat.not_succ_le_zero _)
    | cons chunk more =>
      obtain ⟨u, hu, h1, h2, pending, frames, rfl⟩ := ih (t := { t with
          pending := none, frames := stored (fileFrames index (more, last)) ++ tail })
        (chunks ++ [chunk]) (ready_none rfl) (Nat.le_of_succ_le_succ htimes)
        (fun f hf => hfits f (List.mem_cons_of_mem _ hf)) rfl
      refine ⟨_, ?_, h1, h2, pending, frames, rfl⟩
      rw [pullChunks_turn chunks ht hindex (hfits _ List.mem_cons_self) hahead, hu, List.append_assoc]
      rfl

/-- Asked once more than there are chunks, the file is read to its end. -/
theorem pullChunks_end {times : Nat} (chunks : List Bytes) (ht : Ready t) (hindex : index < 2 ^ 32)
    (htimes : more.length < times) (hvalue : D.loads last = some value)
    (hfits : ∀ f ∈ fileFrames index (more, last), f.Fits)
    (hahead : ahead t = stored (fileFrames index (more, last)) ++ tail)
    (hfinish : finishFile D index entry (chunks ++ more) value = .ok read) :
    ∃ u, exec (pullChunks D nextBytes index entry times chunks) t =
        (.ok (chunks ++ more, some read), u) ∧ Moved t u tail := by
  induction more generalizing t chunks times with
  | nil =>
    obtain ⟨times, rfl⟩ := Nat.exists_eq_add_of_lt htimes
    have hend : (⟨.fileEnd, last⟩ : Frame).Fits := hfits _ List.mem_cons_self
    rw [List.append_nil] at hfinish
    refine ⟨{ t with pending := none, frames := tail }, ?_, rfl, ready_none rfl, none, tail, rfl⟩
    unfold pullChunks
    rw [exec_bind_ok ((takeFrame_ok ht).mpr
      ⟨tail, hend, by rw [hahead]; exact congrArg (· ++ tail) (List.append_nil _), rfl⟩)]
    show exec (parsed (D.loads last) _ >>= _) _ = _
    rw [exec_bind_ok (parsed_ok.mpr ⟨hvalue, rfl⟩),
      exec_bind_ok (give_ok.mpr ⟨hfinish, rfl⟩), List.append_nil]
    rfl
  | cons chunk more ih =>
    cases times with
    | zero => exact absurd htimes (Nat.not_lt_zero _)
    | succ times =>
      obtain ⟨u, hu, h1, h2, pending, frames, rfl⟩ := ih (t := { t with
          pending := none, frames := stored (fileFrames index (more, last)) ++ tail })
        (chunks ++ [chunk]) (ready_none rfl) (Nat.lt_of_succ_lt_succ htimes)
        (fun f hf => hfits f (List.mem_cons_of_mem _ hf)) rfl
        (by rw [List.append_assoc]; exact hfinish)
      refine ⟨_, ?_, h1, h2, pending, frames, rfl⟩
      rw [pullChunks_turn chunks ht hindex (hfits _ List.mem_cons_self) hahead, hu, List.append_assoc]
      rfl

theorem flatten_take_append_drop (times : Nat) (chunks : List Bytes) :
    (chunks.take times).flatten ++ (chunks.drop times).flatten = chunks.flatten := by
  rw [← List.flatten_append, List.take_append_drop]

/-- **The end of a file against the chunks that are left**: it fits them where those taken were empty or
    the file was skipped; else it is taken for damage. -/
theorem finishFile_left (times : Nat) (hfile : FileOf D index entry (chunks, last) read)
    (hvalue : D.loads last = some value) :
    ((chunks.take times).flatten = [] ∨ read.skipped ≠ Text.ofString "" →
      finishFile D index entry (chunks.drop times) value =
        .ok { read with chunks := chunks.drop times }) ∧
    (¬ ((chunks.take times).flatten = [] ∨ read.skipped ≠ Text.ofString "") →
      finishFile D index entry (chunks.drop times) value = .error (.integrity entry.name)) := by
  obtain ⟨value', hvalue', hdict, hindex, hend⟩ := hfile
  obtain rfl := Option.some.inj (hvalue.symm.trans hvalue')
  have hsplit := flatten_take_append_drop times chunks
  rcases hend with ⟨hnull, hsize, hsha, rfl⟩ | ⟨reason, hskipped, hreason, rfl⟩
  · constructor
    · intro h
      have hempty : (chunks.take times).flatten = [] := h.resolve_right fun hne => hne rfl
      rw [hempty, List.nil_append] at hsplit
      refine (finishFile_null hnull).mpr ⟨hdict, hindex, ?_, ?_, ?_⟩
      · rw [hsplit]
        exact hsize
      · rw [hsplit]
        exact hsha
      · rw [hsplit]
    · intro h
      rw [not_or] at h
      have hpos := List.length_pos_of_ne_nil h.1
      have hlen := congrArg List.length hsplit
      rw [List.length_append] at hlen
      have hshort : (chunks.drop times).flatten.length ≠ chunks.flatten.length := by omega
      unfold finishFile
      rw [if_neg (by rw [hdict, hindex]; decide), hnull]
      dsimp only [null]
      rw [hsize, hsha]
      exact if_pos (.inl hshort)
  · have hnull : member value "skipped" ≠ null := by
      rw [hskipped]
      exact Value.noConfusion
    refine ⟨fun _ => ?_, fun h => absurd (.inr hreason) h⟩
    exact (finishFile_skipped hnull).mpr ⟨hdict, hindex, reason, hskipped, hreason, rfl⟩

/-- **One file**: it is left behind where it settles, and refused where it does not. -/
theorem consumeFile_run {fuel : Nat} {file : List Bytes × Bytes} (choice : Choice) (ht : Ready t)
    (hindex : index < 2 ^ 32) (hfuel : file.1.length < fuel) (hfile : FileOf D index entry file read)
    (hfits : ∀ f ∈ fileFrames index file, f.Fits)
    (hahead : ahead t = stored (fileFrames index file) ++ tail) :
    (Settles choice read → ∃ u, exec (consumeFile D nextBytes fuel index entry choice) t =
      (.ok (read.left choice), u) ∧ Moved t u tail) ∧
    (¬ Settles choice read → ∃ u, exec (consumeFile D nextBytes fuel index entry choice) t =
      (.error (.integrity entry.name), u)) := by
  obtain ⟨chunks, last⟩ := file
  obtain ⟨value, hvalue, -⟩ := id hfile
  have hchunks : read.chunks = chunks := by
    obtain ⟨_, -, -, -, ⟨-, -, -, rfl⟩ | ⟨_, -, -, rfl⟩⟩ := hfile
    · rfl
    · rfl
  cases choice with
  | all =>
    refine ⟨fun _ => ?_, fun h => absurd trivial h⟩
    exact readChunks_complete ht hindex hfuel hfile hfits hahead
  | take times =>
    rw [Settles, hchunks]
    rcases Nat.lt_or_ge chunks.length times with hlt | hge
    · refine ⟨fun _ => ?_, fun h => absurd (.inr (.inl hlt)) h⟩
      obtain ⟨u, hu, hmoved⟩ := pullChunks_end [] ht hindex hlt hvalue hfits hahead
        ((finishFile_ok hvalue).mpr hfile)
      refine ⟨u, ?_, hmoved⟩
      unfold consumeFile
      rw [exec_bind_ok hu]
      have hleft : read.left (.take times) = read := by
        rw [FileRead.left, Choice.of, hchunks, List.take_of_length_le hlt.le, ← hchunks]
      rw [hleft]
      rfl
    · obtain ⟨u, hu, h1, h2, pending, frames, rfl⟩ :=
        pullChunks_more (D := D) entry [] ht hindex hge hfits hahead
      have hrest : ∀ f ∈ fileFrames index (chunks.drop times, last), f.Fits := by
        intro f hf
        apply hfits
        rcases List.mem_append.mp hf with hf | hf
        · obtain ⟨chunk, hchunk, rfl⟩ := List.mem_map.mp hf
          exact List.mem_append_left _ (List.mem_map_of_mem (List.mem_of_mem_drop hchunk))
        · exact List.mem_append_right _ hf
      have hless : (chunks.drop times).length < fuel := by
        have hfuel' : chunks.length < fuel := hfuel
        rw [List.length_drop]
        omega
      have hdrain : exec (readChunks D nextBytes index entry fuel []) _ = _ :=
        readChunks_run [] h2 hindex hless hvalue hrest h1
      obtain ⟨hok, hbad⟩ := finishFile_left times hfile hvalue
      constructor
      · intro h
        have hdrained : (chunks.take times).flatten = [] ∨ read.skipped ≠ Text.ofString "" :=
          h.imp_right fun h => h.resolve_left (Nat.not_lt.mpr hge)
        rw [List.nil_append, hok hdrained] at hdrain
        refine ⟨_, ?_, rfl, ready_none rfl, none, tail, rfl⟩
        unfold consumeFile
        rw [exec_bind_ok hu]
        simp only
        rw [exec_bind_ok hdrain, FileRead.left, Choice.of, hchunks]
        rfl
      · intro h
        rw [not_or, not_or] at h
        rw [List.nil_append, hbad (not_or.mpr ⟨h.1, h.2.2⟩)] at hdrain
        exact ⟨_, (exec_bind_ok hu).trans (exec_bind_error hdrain)⟩

end File

/-! ## 4. The payload -/

section Payload

variable {D : Decoding} {choices : Nat → Choice}

/-- Every file settles, counted from `index`. -/
def AllSettle (choices : Nat → Choice) (index : Nat) (reads : List FileRead) : Prop :=
  ∀ i read, reads[i]? = some read → Settles (choices (index + i)) read

theorem allSettle_cons {index : Nat} {read : FileRead} {reads : List FileRead} :
    AllSettle choices index (read :: reads) ↔
      Settles (choices index) read ∧ AllSettle choices (index + 1) reads := by
  constructor
  · intro h
    refine ⟨h 0 read rfl, fun i found hi => ?_⟩
    have hs := h (i + 1) found hi
    rwa [show index + (i + 1) = index + 1 + i by omega] at hs
  · intro h i found hi
    cases i with
    | zero =>
      cases hi
      exact h.1
    | succ i =>
      have hs := h.2 i found hi
      rwa [show index + 1 + i = index + (i + 1) by omega] at hs

/-- What is had of the files from `index` on. -/
def leftFrom (choices : Nat → Choice) (index : Nat) (reads : List FileRead) : List FileRead :=
  reads.mapIdx fun i read => read.left (choices (index + i))

theorem leftFrom_cons (index : Nat) (read : FileRead) (reads : List FileRead) :
    leftFrom choices index (read :: reads) =
      read.left (choices index) :: leftFrom choices (index + 1) reads := by
  rw [leftFrom, List.mapIdx_cons, leftFrom, Nat.add_zero]
  congr 2
  funext i found
  rw [show index + (i + 1) = index + 1 + i by omega]

/-- **The files in order**: by induction on them, each beginning where the one before ended. -/
theorem consumeFilesFrom_run {fuel index : Nat} (choices : Nat → Choice) {t : PayloadReader Bytes}
    {tail : Bytes}
    {files : List (List Bytes × Bytes)} {entries : List FileEntry} {reads : List FileRead}
    (ht : Ready t)
    (hfiles : FilesOf D index files entries reads) (hindex : index + files.length ≤ 2 ^ 32)
    (hfuel : ∀ file ∈ files, file.1.length < fuel) (hfits : ∀ f ∈ filesFrom index files, f.Fits)
    (hahead : ahead t = stored (filesFrom index files) ++ tail) :
    (AllSettle choices index reads →
      ∃ u, exec (consumeFilesFrom D nextBytes fuel choices index entries) t =
      (.ok (leftFrom choices index reads), u) ∧ Moved t u tail) ∧
    (¬ AllSettle choices index reads → ∃ name u,
      exec (consumeFilesFrom D nextBytes fuel choices index entries)
      t = (.error (.integrity name), u)) := by
  induction hfiles generalizing t with
  | nil index =>
    refine ⟨fun _ => ⟨t, rfl, hahead, ht, _, _, rfl⟩, fun h => absurd (fun i read hi => ?_) h⟩
    rw [List.getElem?_nil] at hi
    cases hi
  | @cons index file files entry entries read reads hfile hfiles ih =>
    rw [List.length_cons] at hindex
    rw [stored_filesFrom_cons, List.append_assoc] at hahead
    obtain ⟨hok, hbad⟩ := consumeFile_run (choices index) ht (by omega) (hfuel file List.mem_cons_self)
      hfile (fun f hf => hfits f (List.mem_append_left _ hf)) hahead
    rw [allSettle_cons]
    by_cases hsettles : Settles (choices index) read
    · obtain ⟨v, hread, h1, h2, pending, frames, rfl⟩ := hok hsettles
      obtain ⟨hmore, hless⟩ := ih h2 (by omega)
        (fun file hmem => hfuel file (List.mem_cons_of_mem _ hmem))
        (fun f hf => hfits f (List.mem_append_right _ hf)) h1
      constructor
      · intro h
        obtain ⟨u, hreads, h3, h4, pending, frames, rfl⟩ := hmore h.2
        refine ⟨_, ?_, h3, h4, pending, frames, rfl⟩
        unfold consumeFilesFrom
        rw [exec_bind_ok hread, exec_bind_ok hreads, leftFrom_cons]
        rfl
      · intro h
        obtain ⟨name, u, hreads⟩ := hless fun hs => h ⟨hsettles, hs⟩
        exact ⟨name, u, (exec_bind_ok hread).trans (exec_bind_error hreads)⟩
    · obtain ⟨u, hread⟩ := hbad hsettles
      exact ⟨fun h => absurd h.1 hsettles, fun _ => ⟨_, u, exec_bind_error hread⟩⟩

/-- **A payload read by a consumer that moves on**: everything is there where every file settles; else
    it is refused, at a file that does not. -/
theorem consumePayload_run {fuel : Nat} {c : Contents} {p : Parts} (hp : Grammar D p c)
    (hmax : c.files.length ≤ maxFiles) (hfuel : p.frames.length < fuel) :
    (AllSettle choices 0 c.files → (exec (consumePayload D nextBytes fuel choices)
      { frames := stored p.frames }).1 = .ok (c.left choices)) ∧
    (¬ AllSettle choices 0 c.files → ∃ name, (exec (consumePayload D nextBytes fuel choices)
      { frames := stored p.frames }).1 = .error (.integrity name)) := by
  obtain ⟨t1, t2, hread1, hread2, hat⟩ := before_files hp hmax hfuel
  have hcut : 0 + p.files.length ≤ 2 ^ 32 := by
    rw [Nat.zero_add, hat.files.length.1]
    exact Nat.le_trans hmax (by decide)
  have hfileFuel : ∀ file ∈ p.files, file.1.length < fuel := by
    intro file hfile
    have hle : file.1.length ≤ (filesFrom 0 p.files).length := chunks_le_filesFrom hfile
    have hcount := frames_length p
    omega
  obtain ⟨hok, hbad⟩ := consumeFilesFrom_run (D := D) choices hat.ready hat.files hcut hfileFuel
    (fun f hf => hp.limit f (mem_frames.mpr (.inr (.inr (.inl hf))))) hat.ahead
  have hexpect : exec (expect (R := Bytes) .files) t2 = (.ok ⟨⟩, t2) := expect_ok.mpr ⟨hat.phase, rfl⟩
  unfold consumePayload
  rw [exec_bind_ok hread1, exec_bind_ok hread2]
  constructor
  · intro h
    obtain ⟨u, hread3, h1, h2, pending, frames, rfl⟩ := hok h
    have hread3 : exec (consumeFiles D nextBytes fuel choices) t2 =
        (.ok (leftFrom choices 0 c.files), { t2 with pending, frames, phase := .records }) := by
      unfold consumeFiles
      rw [exec_bind_ok hexpect, exec_bind_ok (exec_get t2), exec_bind_ok hread3]
      rfl
    obtain ⟨t4, t5, t6, hread4, hread5, hread6, hheader, htrailer⟩ :=
      behind_files (t := { t2 with pending, frames, phase := .records }) hp hfuel h2 rfl hat.header
        hat.order hat.position h1
    rw [exec_bind_ok hread3, exec_bind_ok hread4, exec_bind_ok hread5, exec_bind_ok hread6,
      exec_bind_ok (exec_get _), hheader, htrailer, leftFrom]
    simp only [Nat.zero_add]
    rfl
  · intro h
    obtain ⟨name, u, hread3⟩ := hbad h
    have hread3 : exec (consumeFiles D nextBytes fuel choices) t2 = (.error (.integrity name), u) := by
      unfold consumeFiles
      rw [exec_bind_ok hexpect, exec_bind_ok (exec_get t2), exec_bind_error hread3]
    exact ⟨name, by rw [exec_bind_error hread3]⟩

end Payload

/-- From the pieces. -/
theorem consumeThrough_run {D : Decoding} {pieces : List Bytes} {p : Parts} {c : Contents}
    (hbytes : pieces.flatten = p.bytes) (hp : Grammar D p c) (hmax : c.files.length ≤ maxFiles)
    (choices : Nat → Choice) :
    (AllSettle choices 0 c.files → consumeThrough D pieces choices = .ok (c.left choices)) ∧
    (¬ AllSettle choices 0 c.files →
      ∃ name, consumeThrough D pieces choices = .error (.integrity name)) := by
  have hthrough : consumeThrough D pieces choices =
      (exec (consumePayload D nextBytes (fuelFor pieces) choices) { frames := stored p.frames }).1 := by
    have hopened := opened_eq (mirrorsFlat_consumePayload D (fuelFor pieces) choices) pieces
    rw [hbytes, openBytes_ok.mpr (show p.bytes = payloadMagic ++ stored p.frames from rfl)] at hopened
    exact hopened
  have hfuel : p.frames.length < fuelFor pieces := by
    have := length_le_stored p.frames
    rw [fuelFor, hbytes, Parts.bytes, List.length_append]
    omega
  rw [hthrough]
  exact consumePayload_run hp hmax hfuel

/-- **Moving on works exactly where every file settles**: then all that was asked for is there, the
    files behind it and the record batches among it; else a file that is not damaged is refused as
    damaged. -/
theorem moves_on_iff (D : Decoding) (pieces : List Bytes) (p : Parts) (c : Contents)
    (hbytes : pieces.flatten = p.bytes) (hp : Grammar D p c) (hmax : c.files.length ≤ maxFiles)
    (choices : Nat → Choice) :
    (consumeThrough D pieces choices = .ok (c.left choices) ↔
      ∀ index read, c.files[index]? = some read → Settles (choices index) read) ∧
    ((∃ index read, c.files[index]? = some read ∧ ¬ Settles (choices index) read) →
      ∃ name, consumeThrough D pieces choices = .error (.integrity name)) := by
  obtain ⟨hok, hbad⟩ := consumeThrough_run hbytes hp hmax choices
  have hall : AllSettle choices 0 c.files ↔
      ∀ index read, c.files[index]? = some read → Settles (choices index) read := by
    rw [AllSettle]
    simp only [Nat.zero_add]
  rw [hall] at hok hbad
  refine ⟨⟨fun h => ?_, hok⟩, fun ⟨index, read, hread, hno⟩ => hbad fun h => hno (h index read hread)⟩
  by_contra hno
  obtain ⟨name, herror⟩ := hbad hno
  rw [h] at herror
  cases herror

/-! ## 5. One chunk of a file -/

/-- Files of one chunk of one byte each. -/
def someFiles (count : Nat) : Parts where
  header := jsonBytes emptyHeader
  manifests := [jsonBytes (.arr (List.replicate count (manifestItem noFile)))]
  files := (List.range count).map fun index =>
    ([[7]], jsonBytes (fileEnd index 1 (Text.ofString "") (Text.ofString "")))
  records := []
  trailer := jsonBytes emptyTrailer

def someFilesContents (count : Nat) : Contents where
  header := emptyHeader
  files := List.replicate count { entry := noFile, chunks := [[7]], size := 1 }
  records := []
  trailer := emptyTrailer

/-- The end frames name the files in their order. -/
theorem filesOf_someFiles (index count : Nat) : FilesOf .compact index
    ((List.range' index count).map fun index =>
      ([[7]], jsonBytes (fileEnd index 1 (Text.ofString "") (Text.ofString ""))))
    (List.replicate count noFile)
    (List.replicate count { entry := noFile, chunks := [[7]], size := 1 }) := by
  induction count generalizing index with
  | zero => exact .nil index
  | succ count ih => exact .cons (fileOf_fileEnd noFile [[7]] (compact_reads _)) (ih (index + 1))

theorem grammar_someFiles {count : Nat} (hlimit : ∀ f ∈ (someFiles count).frames, f.Fits) :
    Grammar .compact (someFiles count) (someFilesContents count) where
  limit := hlimit
  header := ⟨emptyHeader, compact_loads _, rfl⟩
  files := by
    refine ⟨[List.replicate count noFile], .cons ⟨_, compact_loads _, ?_⟩ .nil, ?_⟩
    · exact mapM_replicate ((checkedEntry_manifestItem noFile noFile).mpr ⟨rfl, rfl⟩) count
    · rw [List.flatten_singleton, someFiles, List.range_eq_range']
      exact filesOf_someFiles 0 count
  records := .nil
  ranks := ⟨[], .nil, .nil⟩
  trailer := ⟨emptyTrailer, compact_loads _, rfl⟩

theorem grammar_two : Grammar .compact (someFiles 2) (someFilesContents 2) := by
  have hlen : ∀ f ∈ (someFiles 2).frames, f.body.length ≤ 200 := by decide +kernel
  exact grammar_someFiles fun f hf => Nat.le_trans (hlen f hf) (by decide)

/-- The first of two files is passed over, the second one is read to its end. -/
def secondOnly : Nat → Choice
  | 0 => .take 0
  | _ => .all

/-- The second file is there, and nothing of the first one was taken. -/
theorem moves_on_twoFiles : consumeThrough .compact [(someFiles 2).bytes] secondOnly =
    .ok ((someFilesContents 2).left secondOnly) := by
  refine (moves_on_iff .compact [(someFiles 2).bytes] (someFiles 2) (someFilesContents 2)
    List.flatten_singleton grammar_two (by decide) secondOnly).1.mpr fun index read hread => ?_
  cases index with
  | zero => exact .inl rfl
  | succ index => exact trivial

/-- **A file whose first chunk was taken** is refused as damaged when the consumer moves on. -/
theorem first_chunk : Grammar .compact (someFiles 2) (someFilesContents 2) ∧
    ∃ name, consumeThrough .compact [(someFiles 2).bytes] (fun _ => .take 1) =
      .error (.integrity name) := by
  refine ⟨grammar_two, (consumeThrough_run List.flatten_singleton grammar_two (by decide) _).2 ?_⟩
  intro h
  rcases h 0 _ rfl with h | h | h
  · cases h
  · exact absurd h (by decide)
  · exact h rfl

end Dbs.Payload

/-
  File:      Dbs/Payload/Produced.lean
  Subject:   THE PAYLOAD AS A BACKUP PRODUCES IT (engine/backup.py, `_produce`): header, manifest,
             files, the records of every model, trailer, frame after frame into the stream.

  The listing of the files, the rows and the serializer are outside of it and given: what reading a
  file gives, what a row serializes to.

  * `produce` -- the production, with its ways to raise; `Stats` -- what it returns;
  * `Emitted` -- the frames a part of it has emitted; one lemma a part;
  * `partsOf`, `Counted` -- the payload as it should be, and what the statistics count;
  * `produce_ends` -- where it returns it has emitted that payload, and counted it.
-/
import Dbs.Payload.Records

namespace Dbs.Payload

open Octets Effects
open Json (Value Text Keyed)

/-! ## 1. What is produced -/

/-- `MANIFEST_BATCH`. -/
def manifestBatch : Nat := 1000

/-- `NAMED_MISSING_FILES`. -/
def namedMissingFiles : Nat := 20

/-- A listed file with what reading it gives: the chunks, and why the reading ended early, if it did. -/
structure SourceFile where
  entry : FileEntry
  pk_keyed : Keyed entry.pk
  described : Text
  chunks : List Bytes
  reason : Option Text
  reason_ne : ∀ r ∈ reason, r ≠ Text.ofString ""

/-- A model of the plan with its rows: the key of a row, what it serializes to, and as what value. -/
structure Selected (ρ κ : Type) where
  label : Text
  query : Query
  table : List ρ
  pk : ρ → κ
  encode : ρ → List Bytes
  record : ρ → Value

/-- What a backup starts from: `unlisted` are the files that could not be listed. -/
structure Backup (ρ κ : Type) where
  created : Text
  djangoVersion : Text
  migrations : List (Text × Text)
  migrations_nodup : (migrations.map Prod.fst).Nodup
  selection : List (Selected ρ κ)
  sources : List SourceFile
  unlisted : List Text
  allowMissingFiles : Bool

/-- What has been handed to the stream, and the files left out. -/
structure Stream where
  emitted : List Bytes := []
  skipped : List Text := []

inductive Stop (ρ : Type)
  /-- A frame of this kind cannot be made, for it is above the limit. -/
  | frame (kind : FrameKind)
  /-- `MissingSourceFiles(message, skipped)`; the message by its code points. -/
  | missingSourceFiles (message : List Nat) (skipped : List Text)
  | tooManyFiles
  | records (failure : RecordsFailure ρ)
  | outOfFuel

structure Stats where
  models : List (Text × Nat)
  records : Nat
  files : Nat
  skippedFiles : List Text

/-- `f"{described} ({reason})"`. -/
def skippedLine (described reason : Text) : Text :=
  described.enclosed " (" reason ")" (List.cons_ne_nil _ _) (List.cons_ne_nil _ _)

def pointsOf (s : String) : List Nat := s.toList.map Char.toNat

def decimal (n : Nat) : List Nat := (Nat.toDigits 10 n).map Char.toNat

/-- `_missing_files_message`, by its code points. -/
def missingFilesMessage (skipped : List Text) : List Nat :=
  let named := List.intercalate (pointsOf "; ") ((skipped.take namedMissingFiles).map Text.points)
  let named := if namedMissingFiles < skipped.length then
      named ++ pointsOf "; and " ++ decimal (skipped.length - namedMissingFiles) ++ pointsOf " more"
    else named
  decimal skipped.length ++ pointsOf " source file(s) could not be read, so no backup was written: " ++
    named ++ pointsOf ". Put them back, or pass allow_missing_files=True " ++
    pointsOf "(--allow-missing-files) to back up without them."

def labels {ρ κ : Type} (selection : List (Selected ρ κ)) : List Text := selection.map Selected.label

def headerValue {ρ κ : Type} (b : Backup ρ κ) : Value :=
  dict [("version", nat payloadVersion), ("created", .str b.created),
    ("django_version", .str b.djangoVersion),
    ("migrations", .obj (b.migrations.map fun m => (m.1, .str m.2))),
    ("order", .arr ((labels b.selection).map Value.str))]

/-- Irreducible, as is `trailerFrame`: no proof is to compute the text of the header. -/
@[irreducible] def headerFrame {ρ κ : Type} (b : Backup ρ κ) : Option Bytes :=
  jsonFrame .header (headerValue b)

def Stats.value (stats : Stats) : Value :=
  dict [("models", .arr (stats.models.map fun m => dict [("model", .str m.1), ("count", nat m.2)])),
    ("records", nat stats.records), ("files", nat stats.files),
    ("skipped_files", .arr (stats.skippedFiles.map Value.str))]

def trailerValue (stats : Stats) : Value := dict [("stats", stats.value)]

@[irreducible] def trailerFrame (stats : Stats) : Option Bytes :=
  jsonFrame .trailer (trailerValue stats)

/-! ## 2. The production -/

section Production

variable {ρ κ : Type}

abbrev Producing (ρ : Type) := Prog (Stop ρ) Stream

def emit (bytes : Bytes) : Producing ρ Unit :=
  modify fun t => { t with emitted := t.emitted ++ [bytes] }

def emitFrame (kind : FrameKind) (made : Option Bytes) : Producing ρ Unit :=
  match made with
  | some bytes => emit bytes
  | none => throw (.frame kind)

def manifestValue (batch : List SourceFile) : Value :=
  .arr (batch.map fun source => manifestItem source.entry)

def emitManifests (sources : List SourceFile) : Producing ρ Unit :=
  (pieces manifestBatch sources).forM fun batch =>
    emitFrame .manifest (jsonFrame .manifest (manifestValue batch))

/-- One turn of `_emit_files`; it counts the files that were read. -/
def emitFile (hexdigest : Bytes → Text) (allowMissingFiles : Bool) (index : Nat) (source : SourceFile) :
    Producing ρ Nat := do
  source.chunks.forM fun chunk => emitFrame .fileData (fileDataFrame index chunk)
  match source.reason with
  | some reason =>
    modify fun t => { t with skipped := t.skipped ++ [skippedLine source.described reason] }
    let skipped := (← get).skipped
    if !allowMissingFiles then throw (.missingSourceFiles (missingFilesMessage skipped) skipped)
    emitFrame .fileEnd (fileEndFrame index 0 (Text.ofString "") reason)
    return 0
  | none =>
    let data := source.chunks.flatten
    emitFrame .fileEnd (fileEndFrame index data.length (hexdigest data) (Text.ofString ""))
    return 1

def emitFiles (hexdigest : Bytes → Text) (allowMissingFiles : Bool) :
    (index : Nat) → List SourceFile → Producing ρ Nat
  | _, [] => return 0
  | index, source :: sources => do
    let written ← emitFile hexdigest allowMissingFiles index source
    return written + (← emitFiles hexdigest allowMissingFiles (index + 1) sources)

/-- The frame of a batch, part by part. -/
def emitBatch (batch : List (List Bytes)) : Producing ρ Nat := do
  let pieces := framedRecords batch
  match frameParts .records pieces with
  | none => throw (.records (.frameAboveLimit (recordSize pieces)))
  | some parts =>
    parts.forM emit
    return batch.length

/-- The batches as they come, and what ended them. -/
def emitBatches (failure : Option (RecordsFailure ρ)) : List (List (List Bytes)) → Producing ρ Nat
  | [] =>
    match failure with
    | some e => throw (.records e)
    | none => return 0
  | batch :: batches => do
    let rows ← emitBatch batch
    return rows + (← emitBatches failure batches)

variable [LinearOrder κ]

def emitModel (model : Selected ρ κ) : Producing ρ Nat :=
  match model.query.pages model.pk model.encode backupLimits.rows model.table with
  | none => throw .outOfFuel
  | some pages =>
    let entries := pages.flatMap fun chunk => chunk.map fun row => (row, model.encode row)
    let (batches, failure) := batched backupLimits entries [] 0
    emitBatches failure batches

def emitModels : List (Selected ρ κ) → Producing ρ (List (Text × Nat))
  | [] => return []
  | model :: models => do
    let count ← emitModel model
    return (model.label, count) :: (← emitModels models)

/-- The listing, and what ends the production right behind it. -/
def checkListing (b : Backup ρ κ) : Producing ρ Unit := do
  modify fun t => { t with skipped := t.skipped ++ b.unlisted }
  let skipped := (← get).skipped
  if skipped ≠ [] ∧ b.allowMissingFiles = false then
    throw (.missingSourceFiles (missingFilesMessage skipped) skipped)
  if b.sources.length > maxFiles then throw .tooManyFiles

/-- Up to the trailer. -/
def produceBody (hexdigest : Bytes → Text) (b : Backup ρ κ) : Producing ρ Stats := do
  emitFrame .header (headerFrame b)
  checkListing b
  emitManifests b.sources
  let files ← emitFiles hexdigest b.allowMissingFiles 0 b.sources
  let models ← emitModels b.selection
  return ⟨models, (models.map Prod.snd).sum, files, (← get).skipped⟩

/-- `_produce`. -/
def produce (hexdigest : Bytes → Text) (b : Backup ρ κ) : Producing ρ Stats := do
  emit payloadMagic
  let stats ← produceBody hexdigest b
  emitFrame .trailer (trailerFrame stats)
  return stats

end Production

/-! ## 3. What has been emitted -/

/-- From `s` to `t` these frames were emitted. -/
structure Emitted (s t : Stream) (frames : List Frame) : Prop where
  fits : ∀ f ∈ frames, f.Fits
  bytes : t.emitted.flatten = s.emitted.flatten ++ stored frames

namespace Emitted

variable {s t u : Stream} {frames more : List Frame}

theorem none (h : t.emitted = s.emitted) : Emitted s t [] :=
  ⟨fun f hf => absurd hf List.not_mem_nil, by rw [h]; exact (List.append_nil _).symm⟩

/-- Where it starts counts by its bytes alone. -/
theorem of_same (h : Emitted t u frames) (hsame : t.emitted = s.emitted) : Emitted s u frames :=
  ⟨h.fits, hsame ▸ h.bytes⟩

theorem trans (h : Emitted s t frames) (h' : Emitted t u more) : Emitted s u (frames ++ more) := by
  refine ⟨fun f hf => ?_, ?_⟩
  · rcases List.mem_append.mp hf with hf | hf
    · exact h.fits f hf
    · exact h'.fits f hf
  · rw [h'.bytes, h.bytes, stored_append, List.append_assoc]

end Emitted

section Specs

variable {ρ κ : Type} {s t : Stream} {kind : FrameKind} {body : Bytes}

theorem frame_eq_some {bytes : Bytes} (h : frame kind body = some bytes) :
    (Frame.mk kind body).Fits ∧ bytes = (Frame.mk kind body).bytes := by
  unfold frame at h
  split at h
  · cases h
  · rename_i hfits
    exact ⟨Nat.not_lt.mp hfits, (Option.some.inj h).symm⟩

theorem exec_emits (parts : List Bytes) (s : Stream) :
    exec (parts.forM emit : Producing ρ PUnit) s =
      (.ok ⟨⟩, { s with emitted := s.emitted ++ parts }) := by
  induction parts generalizing s with
  | nil => exact congrArg (Prod.mk _) (by rw [List.append_nil])
  | cons part parts ih =>
    rw [exec_forM_cons]
    show exec (parts.forM emit : Producing ρ PUnit) { s with emitted := s.emitted ++ [part] } = _
    rw [ih, List.append_assoc, List.singleton_append]

theorem emitted_parts {f : Frame} (hf : f.Fits) {parts : List Bytes} (hparts : parts.flatten = f.bytes)
    (s : Stream) : Emitted s { s with emitted := s.emitted ++ parts } [f] := by
  refine ⟨fun g hg => List.mem_singleton.mp hg ▸ hf, ?_⟩
  rw [List.flatten_append, hparts, stored_cons, stored, List.flatMap_nil, List.append_nil]

/-- What a part of the production emits, if it returns. -/
def Emits (s : Stream) (frames : List Frame) (t : Stream) : Prop :=
  Emitted s t frames ∧ t.skipped = s.skipped

theorem Emits.trans {u : Stream} {frames more : List Frame} (h : Emits s frames t)
    (h' : Emits t more u) : Emits s (frames ++ more) u := ⟨h.1.trans h'.1, h'.2.trans h.2⟩

theorem emits_nil (s : Stream) : Emits s [] s := ⟨Emitted.none rfl, rfl⟩

/-- **A frame is emitted whole, or nothing of it.** -/
theorem emitFrame_ends {made : Option Bytes} (hmade : frame kind body = made) (s : Stream) :
    Ends (fun _ t => Emits s [⟨kind, body⟩] t) (fun _ _ => True)
      (exec (emitFrame kind made : Producing ρ Unit) s) := by
  unfold emitFrame
  cases made with
  | none => exact trivial
  | some bytes =>
    obtain ⟨hfits, rfl⟩ := frame_eq_some hmade
    exact ⟨emitted_parts hfits List.flatten_singleton s, rfl⟩

theorem emitData_ends (index : Nat) (chunk : Bytes) (s : Stream) :
    Ends (fun _ t => Emits s [dataFrame index chunk] t) (fun _ _ => True)
      (exec (emitFrame .fileData (fileDataFrame index chunk) : Producing ρ Unit) s) := by
  unfold fileDataFrame
  split
  · exact emitFrame_ends (rfl : frame .fileData (indexBytes index ++ chunk) = _) s
  · exact trivial

/-- A loop that emits a frame a turn. -/
theorem emitAll_ends {α : Type} {f : α → Producing ρ PUnit} (made : α → Frame) {l : List α}
    (hf : ∀ a ∈ l, ∀ s, Ends (fun _ t => Emits s [made a] t) (fun _ _ => True) (exec (f a) s))
    (s : Stream) : Ends (fun _ t => Emits s (l.map made) t) (fun _ _ => True)
      (exec (l.forM f) s) := by
  refine ends_forM (I := fun done t => Emits s (done.map made) t) ?_ (emits_nil s)
  intro done a rest u hl hdone
  have ha : a ∈ l := hl ▸ List.mem_append_right _ List.mem_cons_self
  refine (hf a ha u).mono (fun _ t h => ?_) fun _ _ h => h
  rw [List.map_append]
  exact hdone.trans h

theorem emitManifests_ends (sources : List SourceFile) (s : Stream) :
    Ends (fun _ t => Emits s ((pieces manifestBatch sources).map fun batch =>
        ⟨.manifest, jsonBytes (manifestValue batch)⟩) t) (fun _ _ => True)
      (exec (emitManifests sources : Producing ρ Unit) s) :=
  emitAll_ends _ (fun _ _ s => emitFrame_ends rfl s) s

/-! ### The files -/

/-- What is written at the end of a file. -/
def SourceFile.endValue (hexdigest : Bytes → Text) (index : Nat) (source : SourceFile) : Value :=
  match source.reason with
  | some reason => fileEnd index 0 (Text.ofString "") reason
  | none =>
    fileEnd index source.chunks.flatten.length (hexdigest source.chunks.flatten) (Text.ofString "")

/-- The files as they stand in the payload, from an index on. -/
def fileParts (hexdigest : Bytes → Text) : (index : Nat) → List SourceFile → List (List Bytes × Bytes)
  | _, [] => []
  | index, source :: sources =>
    (source.chunks, jsonBytes (source.endValue hexdigest index)) :: fileParts hexdigest
      (index + 1) sources

/-- The line of a file that could not be read. -/
def SourceFile.line (source : SourceFile) : Option Text :=
  source.reason.map (skippedLine source.described)

/-- What the files emit, and which of them they leave out. -/
structure FilesEmitted (hexdigest : Bytes → Text) (index : Nat) (sources : List SourceFile) (s : Stream)
    (written : Nat) (t : Stream) : Prop where
  emitted : Emitted s t (filesFrom index (fileParts hexdigest index sources))
  skipped : t.skipped = s.skipped ++ sources.filterMap SourceFile.line
  written : written = sources.countP fun source => source.reason.isNone

/-- **A file**: its data and its end, or the reason and, where that is allowed, the end. -/
theorem emitFile_ends (hexdigest : Bytes → Text) (allow : Bool) (index : Nat) (source : SourceFile)
    (s : Stream) :
    Ends (fun n t => FilesEmitted hexdigest index [source] s n t) (fun _ _ => True)
      (exec (emitFile hexdigest allow index source : Producing ρ Nat) s) := by
  refine ends_bind (emitAll_ends (dataFrame index)
    (fun chunk _ s => emitData_ends index chunk s) s) fun _ u hdata => ?_
  -- the end of the file behind its data
  have hend : ∀ {t v : Stream} {value : Value}, value = source.endValue hexdigest index →
      t.emitted = u.emitted → Emitted t v [⟨.fileEnd, jsonBytes value⟩] →
      Emitted s v (filesFrom index (fileParts hexdigest index [source])) := by
    intro t v value hvalue hsame h
    rw [fileParts, fileParts, filesFrom, filesFrom, List.append_nil, fileFrames, ← hvalue]
    exact hdata.1.trans (h.of_same hsame)
  cases hreason : source.reason with
  | some reason =>
    dsimp only
    rw [exec_bind_ok (exec_modify _ _), exec_bind_ok (exec_get _)]
    dsimp only
    split
    · exact trivial
    · generalize hmade : fileEndFrame index 0 (Text.ofString "") reason = made
      refine ends_bind (emitFrame_ends hmade _) fun _ v h => ?_
      have hsame : { u with skipped := u.skipped ++ [skippedLine source.described reason] }.emitted =
          u.emitted := rfl
      refine ⟨hend ?_ hsame h.1, ?_, ?_⟩
      · rw [SourceFile.endValue, hreason]
      · rw [h.2, ← hdata.2, List.filterMap_cons, SourceFile.line, hreason]
        rfl
      · rw [List.countP_singleton, hreason]
        rfl
  | none =>
    dsimp only
    generalize hmade : fileEndFrame index source.chunks.flatten.length
      (hexdigest source.chunks.flatten) (Text.ofString "") = made
    refine ends_bind (emitFrame_ends hmade u) fun _ v h => ?_
    refine ⟨hend ?_ rfl h.1, ?_, ?_⟩
    · rw [SourceFile.endValue, hreason]
    · rw [h.2, hdata.2, List.filterMap_cons, SourceFile.line, hreason]
      exact (List.append_nil _).symm
    · rw [List.countP_singleton, hreason]
      rfl

theorem filesEmitted_cons {hexdigest : Bytes → Text} {index n m : Nat} {source : SourceFile}
    {sources : List SourceFile} {u : Stream} (h : FilesEmitted hexdigest index [source] s n t)
    (hs : FilesEmitted hexdigest (index + 1) sources t m u) :
    FilesEmitted hexdigest index (source :: sources) s (n + m) u where
  emitted := by
    have hall := h.emitted.trans hs.emitted
    rw [fileParts, fileParts, filesFrom, filesFrom, List.append_nil] at hall
    exact hall
  skipped := by
    rw [hs.skipped, h.skipped, List.append_assoc, ← List.filterMap_append]
    rfl
  written := by
    rw [h.written, hs.written, ← List.countP_append]
    rfl

/-- **The files in order**: by induction on the sources. -/
theorem emitFiles_ends (hexdigest : Bytes → Text) (allow : Bool) (index : Nat)
    (sources : List SourceFile) (s : Stream) :
    Ends (fun n t => FilesEmitted hexdigest index sources s n t) (fun _ _ => True)
      (exec (emitFiles hexdigest allow index sources : Producing ρ Nat) s) := by
  induction sources generalizing index s with
  | nil => exact ⟨Emitted.none rfl, (List.append_nil _).symm, rfl⟩
  | cons source sources ih =>
    refine ends_bind (emitFile_ends hexdigest allow index source s) fun n t h => ?_
    exact ends_bind (ih (index + 1) t) fun m u hs => filesEmitted_cons h hs

/-! ### The records -/

def recordsFrame (batch : List (List Bytes)) : Frame := ⟨.records, arrayText (batch.map List.flatten)⟩

theorem emitBatch_ends (batch : List (List Bytes)) (s : Stream) :
    Ends (fun n t => n = batch.length ∧ Emits s [recordsFrame batch] t) (fun _ _ => True)
      (exec (emitBatch batch : Producing ρ Nat) s) := by
  have hparts := frameParts_flatten .records (framedRecords batch)
  rw [framedRecords_flatten] at hparts
  unfold emitBatch
  dsimp only
  cases hmade : frameParts .records (framedRecords batch) with
  | none => exact trivial
  | some parts =>
    rw [hmade] at hparts
    split at hparts
    · cases hparts
    · rename_i hfits
      dsimp only
      rw [exec_bind_ok (exec_emits parts s)]
      exact ⟨rfl, emitted_parts (Nat.not_lt.mp hfits) (Option.some.inj hparts) s, rfl⟩

/-- **The batches**: they are all emitted exactly where nothing ended them. -/
theorem emitBatches_ends (failure : Option (RecordsFailure ρ)) (batches : List (List (List Bytes)))
    (s : Stream) :
    Ends (fun n t => failure = none ∧ n = batches.flatten.length ∧ Emits s (batches.map recordsFrame) t)
      (fun _ _ => True) (exec (emitBatches failure batches : Producing ρ Nat) s) := by
  induction batches generalizing s with
  | nil =>
    cases failure with
    | none => exact ⟨rfl, rfl, emits_nil s⟩
    | some e => exact trivial
  | cons batch batches ih =>
    refine ends_bind (emitBatch_ends batch s) fun n t h => ?_
    obtain ⟨rfl, hbatch⟩ := h
    refine ends_bind (ih t) fun m u h => ?_
    obtain ⟨hnone, rfl, hmore⟩ := h
    refine ⟨hnone, ?_, hbatch.trans hmore⟩
    rw [List.flatten_cons, List.length_append]

variable [LinearOrder κ]

/-- The batches of a model that nothing ended. -/
def BatchesOf (model : Selected ρ κ) (batches : List (List (List Bytes))) : Prop :=
  ∃ pages, model.query.pages model.pk model.encode backupLimits.rows model.table = some pages ∧
    batched backupLimits (pages.flatMap fun chunk => chunk.map fun row => (row, model.encode row))
    [] 0 =
      (batches, none)

theorem emitModel_ends (model : Selected ρ κ) (s : Stream) :
    Ends (fun n t => ∃ batches, BatchesOf model batches ∧ n = batches.flatten.length ∧
        Emits s (batches.map recordsFrame) t) (fun _ _ => True) (exec (emitModel model) s) := by
  unfold emitModel
  cases hpages : model.query.pages model.pk model.encode backupLimits.rows model.table with
  | none => exact trivial
  | some pages =>
    dsimp only
    refine (emitBatches_ends _ _ s).mono (fun n t h => ?_) fun _ _ h => h
    exact ⟨_, ⟨pages, hpages, Prod.ext rfl h.1⟩, h.2⟩

/-- What the models emit, each its batches. -/
structure ModelsEmitted (models : List (Selected ρ κ)) (s : Stream) (counts : List (Text × Nat))
    (t : Stream) (batchess : List (List (List (List Bytes)))) : Prop where
  batches : List.Forall₂ BatchesOf models batchess
  counts : counts = List.zipWith
    (fun model batches => (model.label, batches.flatten.length)) models batchess
  emitted : Emits s (batchess.flatten.map recordsFrame) t

/-- **The models in order**: by induction on them. -/
theorem emitModels_ends (models : List (Selected ρ κ)) (s : Stream) :
    Ends (fun counts t => ∃ batchess, ModelsEmitted models s counts t batchess) (fun _ _ => True)
      (exec (emitModels models) s) := by
  induction models generalizing s with
  | nil => exact ⟨[], .nil, rfl, emits_nil s⟩
  | cons model models ih =>
    refine ends_bind (emitModel_ends model s) fun n t h => ?_
    obtain ⟨batches, hbatches, rfl, hemits⟩ := h
    refine ends_bind (ih t) fun counts u h => ?_
    obtain ⟨batchess, hall, rfl, hmore⟩ := h
    refine ⟨batches :: batchess, .cons hbatches hall, rfl, ?_⟩
    rw [List.flatten_cons, List.map_append]
    exact hemits.trans hmore

/-! ### The payload -/

/-- What the statistics say, with the batches of every model; `before` is what was left out before. -/
structure Counted (b : Backup ρ κ) (before : List Text) (stats : Stats)
    (batchess : List (List (List (List Bytes)))) : Prop where
  batches : List.Forall₂ BatchesOf b.selection batchess
  models : stats.models =
    List.zipWith (fun model batches => (model.label, batches.flatten.length)) b.selection batchess
  records : stats.records = (stats.models.map Prod.snd).sum
  files : stats.files = b.sources.countP fun source => source.reason.isNone
  skipped : stats.skippedFiles = before ++ b.unlisted ++ b.sources.filterMap SourceFile.line
  count : b.sources.length ≤ maxFiles

/-- The payload as it should be. -/
def partsOf (hexdigest : Bytes → Text) (b : Backup ρ κ) (stats : Stats)
    (batchess : List (List (List (List Bytes)))) : Parts where
  header := jsonBytes (headerValue b)
  manifests := (pieces manifestBatch b.sources).map fun batch => jsonBytes (manifestValue batch)
  files := fileParts hexdigest 0 b.sources
  records := batchess.flatten.map fun batch => (recordsFrame batch).body
  trailer := jsonBytes (trailerValue stats)

/-- The frames of the parts in front of the trailer. -/
def bodyFrames (p : Parts) : List Frame :=
  ⟨.header, p.header⟩ :: (p.manifests.map (Frame.mk .manifest) ++ (filesFrom 0 p.files ++
    p.records.map (Frame.mk .records)))

theorem frames_eq_body (p : Parts) : p.frames = bodyFrames p ++ [⟨.trailer, p.trailer⟩] := by
  rw [Parts.frames, bodyFrames, List.cons_append, List.append_assoc, List.append_assoc]

omit [LinearOrder κ] in
theorem checkListing_ends (b : Backup ρ κ) (s : Stream) :
    Ends (fun _ t => t = { s with skipped := s.skipped ++ b.unlisted } ∧ b.sources.length ≤ maxFiles)
      (fun _ _ => True) (exec (checkListing b) s) := by
  unfold checkListing
  rw [exec_bind_ok (exec_modify _ _), exec_bind_ok (exec_get _)]
  dsimp only
  split
  · exact trivial
  · split
    · exact trivial
    · rename_i hcount
      exact ⟨rfl, Nat.not_lt.mp hcount⟩

theorem produceBody_ends (hexdigest : Bytes → Text) (b : Backup ρ κ) (s : Stream) :
    Ends (fun stats t => ∃ batchess, Counted b s.skipped stats batchess ∧
        Emitted s t (bodyFrames (partsOf hexdigest b stats batchess))) (fun _ _ => True)
      (exec (produceBody hexdigest b) s) := by
  have hmade : jsonFrame .header (headerValue b) = headerFrame b := by
    unfold headerFrame
    rfl
  unfold produceBody
  refine ends_bind (emitFrame_ends hmade s) fun _ t1 hheader => ?_
  refine ends_bind (checkListing_ends b t1) fun _ t2 h => ?_
  obtain ⟨hlisted, hcount⟩ := h
  have hsame2 : t2.emitted = t1.emitted := by rw [hlisted]
  refine ends_bind (emitManifests_ends b.sources t2) fun _ t3 hmanifest => ?_
  refine ends_bind (emitFiles_ends hexdigest b.allowMissingFiles 0 b.sources t3)
    fun files t4 hfiles => ?_
  refine ends_bind (emitModels_ends b.selection t4) fun counts t5 hmodels => ?_
  obtain ⟨batchess, hmodels⟩ := hmodels
  rw [exec_bind_ok (exec_get _)]
  refine ⟨batchess, ⟨hmodels.batches, hmodels.counts, rfl, hfiles.written, ?_, hcount⟩, ?_⟩
  · show t5.skipped = _
    rw [hmodels.emitted.2, hfiles.skipped, hmanifest.2, hlisted, hheader.2]
  · have hall := hheader.1.trans ((hmanifest.1.of_same hsame2).trans
      (hfiles.emitted.trans hmodels.emitted.1))
    rw [bodyFrames, partsOf, List.map_map, List.map_map]
    exact hall

/-- **A production that returns** has emitted the whole payload, and counted it. -/
theorem produce_ends (hexdigest : Bytes → Text) (b : Backup ρ κ) :
    Ends (fun stats t => ∃ batchess, Counted b [] stats batchess ∧
        (∀ f ∈ (partsOf hexdigest b stats batchess).frames, f.Fits) ∧
        t.emitted.flatten = (partsOf hexdigest b stats batchess).bytes)
      (fun _ _ => True) (exec (produce hexdigest b) {}) := by
  let s : Stream := { emitted := [payloadMagic] }
  have hmagic : exec (emit payloadMagic : Producing ρ Unit) {} = (.ok ⟨⟩, s) := rfl
  unfold produce
  rw [exec_bind_ok hmagic]
  refine ends_bind (produceBody_ends hexdigest b s) fun stats t h => ?_
  obtain ⟨batchess, hcounted, hbody⟩ := h
  have hmade : jsonFrame .trailer (trailerValue stats) = trailerFrame stats := by
    unfold trailerFrame
    rfl
  refine ends_bind (emitFrame_ends hmade t) fun _ u htrailer => ?_
  have hall := hbody.trans htrailer.1
  have hframes : bodyFrames (partsOf hexdigest b stats batchess) ++
      [⟨.trailer, jsonBytes (trailerValue stats)⟩] = (partsOf hexdigest b stats batchess).frames :=
    (frames_eq_body _).symm
  rw [hframes] at hall
  refine ⟨batchess, hcounted, hall.fits, ?_⟩
  rw [Parts.bytes, ← List.flatten_singleton (l := payloadMagic)]
  exact hall.bytes

end Specs

end Dbs.Payload

/-
  File:      Dbs/Payload/Frames.lean
  Subject:   THE PAYLOAD AS IT IS READ (engine/frames.py): frames out of pieces of any size, and the
             states a payload goes through, one frame ahead.

  * `Decoding` -- `json.loads` of bytes and of text, and the SHA-256 in hex, as parameters;
  * `checkedHeader`, `checkedEntry`, `checkedRecords`, `checkedTrailer` -- the shapes of the values;
  * `FrameReader` -- the buffer over the pieces; `nextFrame`;
  * `PayloadReader` -- over any source of frames; `fuel` bounds its loops;
  * `readThrough` -- header, manifest, files with their chunks, record batches, trailer, finish.
-/
import Dbs.Lib.Effects
import Dbs.Lib.Json
import Dbs.Lib.Struct
import Dbs.Primitives

namespace Dbs.Payload

open Octets Effects
open Json (Value Text Scalar)

/-! ## 1. Frames -/

/-- What a frame carries. -/
inductive FrameKind
  | header
  | manifest
  | fileData
  | fileEnd
  | records
  | trailer
deriving DecidableEq, Repr

/-- The letters H, M, D, E, R and T. -/
def FrameKind.code : FrameKind → Nat
  | .header => 72
  | .manifest => 77
  | .fileData => 68
  | .fileEnd => 69
  | .records => 82
  | .trailer => 84

/-- `KIND_NAMES`. -/
def FrameKind.name : FrameKind → String
  | .header => "header"
  | .manifest => "file manifest"
  | .fileData => "file data"
  | .fileEnd => "file end"
  | .records => "records"
  | .trailer => "trailer"

/-- The kind of this letter. -/
def FrameKind.ofCode (code : Nat) : Option FrameKind :=
  [.header, .manifest, .fileData, .fileEnd, .records, .trailer].find? fun kind => kind.code = code

/-- A kind and a body. -/
structure Frame where
  kind : FrameKind
  body : Bytes

/-- What every payload starts with. -/
def payloadMagic : Bytes := ascii "DBSPAY02"

/-- The version a header names. -/
def payloadVersion : Nat := 2

/-- The longest body. -/
def maxFrameBytes : Nat := 256 * 1024 * 1024

/-- The most entries of a manifest. -/
def maxFiles : Nat := 2 ^ 32 - 1

/-- From here on the buffer drops what was taken. -/
def compactBytes : Nat := 4 * 1024 * 1024

/-- `>BI`. -/
def framePrefix : Struct.Format := [.uint 1, .uint 4]

/-- `>I`. -/
def fileIndex : Struct.Format := [.uint 4]

/-- The kind and the body's length. -/
def Frame.head (f : Frame) : Struct.Values framePrefix := (f.kind.code, f.body.length, ())

/-- A frame as it is stored. -/
def Frame.bytes (f : Frame) : Bytes := Struct.pack framePrefix f.head ++ f.body

/-- A file's index, in front of its data. -/
def indexBytes (index : Nat) : Bytes :=
  let fields : Struct.Values fileIndex := (index, ())
  Struct.pack fileIndex fields

/-- Short enough to be read. -/
def Frame.Fits (f : Frame) : Prop := f.body.length ≤ maxFrameBytes

/-! ## 2. The values -/

/-- `_phase`: what is read next. -/
inductive Phase
  | header
  | manifest
  | files
  | records
  | trailer
  | end
  | done
deriving DecidableEq, Repr

/-- What reading a payload raises. -/
inductive Failure
  /-- `malformed(problem)`. -/
  | malformed (problem : String)
  /-- A record belongs to this value, outside the model order. -/
  | outsideOrder (model : Value)
  | notVersion2
  /-- The file of this name failed its integrity hash after extraction. -/
  | integrity (name : Text)
  | outOfOrder (phase after : Phase)
  | typeError
  | outOfFuel

/-- The library's part: JSON and SHA-256. -/
structure Decoding where
  /-- `json.loads` of bytes. -/
  loads : Bytes → Option Value
  /-- `json.loads` of a text in UTF-8. -/
  loadsText : Bytes → Option Value
  /-- `sha256(data).hexdigest()`. -/
  hexdigest : Bytes → Text

/-- `None`. -/
def null : Value := .scalar .null

/-- `isinstance(value, dict)`. -/
def isDict : Value → Bool
  | .obj _ => true
  | _ => false

/-- `value.get(name)` of an object. -/
def member (value : Value) (name : String) : Value :=
  match value with
  | .obj members => (members.lookup (Text.ofString name)).getD null
  | _ => null

/-- The text of a string. -/
def text? : Value → Option Text
  | .str text => some text
  | _ => none

/-- `isinstance(value, str)`. -/
def isText (value : Value) : Bool := (text? value).isSome

/-- `_optional_text`. -/
def optionalText : Value → Option (Option Text)
  | .scalar .null => some none
  | .str text => some (some text)
  | _ => none

/-- `_count`. -/
def count : Value → Option Nat
  | .scalar (.int (.ofNat n)) => some n
  | _ => none

/-- An instance of `_SCALARS`. -/
def isScalar : Value → Bool
  | .scalar _ => true
  | .str _ => true
  | _ => false

/-- `value == n`: a boolean counts as 0 or 1, a float by its value. -/
def equals (value : Value) (n : Nat) : Bool :=
  match value with
  | .scalar (.int m) => m = n
  | .scalar (.bool b) => n = if b then 1 else 0
  | .scalar (.float x) =>
    x.text = Nat.toDigits 10 n ++ ['.', '0'] || (n = 0 && x.text = ['-', '0', '.', '0'])
  | _ => false

/-- The values of a list. -/
def items : Value → Option (List Value)
  | .arr values => some values
  | _ => none

/-- The labels of a header's order. -/
def orderOf (header : Value) : List Text := ((items (member header "order")).getD []).filterMap text?

/-- `checked_header`. -/
def checkedHeader (value : Value) : Except Failure Value := do
  if !isDict value || !equals (member value "version") payloadVersion then
    throw (.malformed "its header does not describe payload version 2")
  if !((items (member value "order")).any fun labels => labels.all isText) then
    throw (.malformed "its header does not list the model order")
  match member value "migrations" with
  | .scalar .null => pure ()
  | .obj migrations =>
    if !migrations.all fun m => isText m.2 then
      throw (.malformed "its header records migrations in an unknown shape")
  | _ => throw (.malformed "its header records migrations in an unknown shape")
  for name in ["created", "django_version"] do
    if (optionalText (member value name)).isNone then
      throw (.malformed ("its header's " ++ name ++ " is not text"))
  return value

/-- One file of the manifest. -/
structure FileEntry where
  kind : Text
  name : Text
  size : Nat
  model : Option Text
  field : Option Text
  root : Option Text
  pk : Value
  sha256 : Text

/-- An entry's text or nothing under this name. -/
def textOf (value : Value) (name : String) : Except Failure (Option Text) :=
  match optionalText (member value name) with
  | some text => .ok text
  | none => .error (.malformed ("a file manifest entry's " ++ name ++ " is not text"))

/-- `checked_entry`. -/
def checkedEntry (value : Value) : Except Failure FileEntry := do
  if !isDict value then throw (.malformed "a file manifest entry is not an object")
  match text? (member value "kind"), text? (member value "name") with
  | some kind, some name =>
    match count (member value "size") with
    | none => throw (.malformed "a file manifest entry has no valid size")
    | some size =>
      let model ← textOf value "model"
      let field ← textOf value "field"
      let root ← textOf value "root"
      if !isScalar (member value "pk") then
        throw (.malformed "a file manifest entry's primary key is not a plain value")
      return ⟨kind, name, size, model, field, root, member value "pk", Text.ofString ""⟩
  | _, _ => throw (.malformed "a file manifest entry has no kind or name")

/-- The last position of a label in the order. -/
def rank (order : List Text) (label : Text) : Option Nat :=
  (order.zipIdx.reverse.find? fun e => e.1 = label).map Prod.snd

/-- `rank.get(model)`: what cannot be a key is an error. -/
def position (order : List Text) (model : Value) : Except Failure (Option Nat) :=
  match model with
  | .str label => .ok (rank order label)
  | .scalar _ => .ok none
  | _ => .error .typeError

/-- One turn of the loop over a batch. -/
def checkedRecord (order : List Text) (current : Nat) (record : Value) : Except Failure Nat := do
  if !isDict record || !isDict (member record "fields") then
    throw (.malformed "a record is not an object with fields")
  match ← position order (member record "model") with
  | none => throw (.outsideOrder (member record "model"))
  | some found =>
    if found < current then throw (.malformed "records arrive out of the recorded model order")
    if !isScalar (member record "pk") then
      throw (.malformed "a record's primary key is not a plain value")
    return found

/-- `checked_records`. -/
def checkedRecords (order : List Text) (value : Value) (current : Nat) :
    Except Failure (List Value × Nat) :=
  match items value with
  | none => .error (.malformed "a records frame is not a list")
  | some records => do return (records, ← records.foldlM (checkedRecord order) current)

/-- One line of the trailer's statistics. -/
def modelCounted (item : Value) : Bool :=
  isDict item && isText (member item "model") && (count (member item "count")).isSome

/-- `checked_trailer`. -/
def checkedTrailer (value : Value) : Except Failure Value := do
  let stats := member value "stats"
  if !isDict stats then throw (.malformed "its trailer carries no statistics")
  if !((items (member stats "models")).any fun models => models.all modelCounted) then
    throw (.malformed "its trailer lists models in an unknown shape")
  if (count (member stats "records")).isNone || (count (member stats "files")).isNone then
    throw (.malformed "its trailer's counts are not numbers")
  if !((items (member stats "skipped_files")).any fun skipped => skipped.all isText) then
    throw (.malformed "its trailer lists skipped files in an unknown shape")
  return value

/-! ## 3. The frame reader -/

/-- The pieces still to come, the buffer, and how much of it has been taken. -/
structure FrameReader where
  pieces : List Bytes
  buffer : Bytes
  start : Nat
  le : start ≤ buffer.length

/-- The error of a payload cut short. -/
def middleOfFrame : Failure := .malformed "it ends in the middle of a frame"

/-- The loop of `_fill`. -/
def fillFrom (size : Nat) :
    (pieces : List Bytes) → (buffer : Bytes) → (start : Nat) → start ≤ buffer.length → FrameReader
  | [], buffer, start, h => ⟨[], buffer, start, h⟩
  | piece :: pieces, buffer, start, h =>
    if size ≤ buffer.length - start then ⟨piece :: pieces, buffer, start, h⟩
    else fillFrom size pieces (buffer.drop start ++ piece) 0 (Nat.zero_le _)

namespace FrameReader

/-- A reader that has read nothing. -/
def ofPieces (pieces : List Bytes) : FrameReader := ⟨pieces, [], 0, Nat.zero_le _⟩

/-- How much is in the buffer, not yet taken. -/
def available (r : FrameReader) : Nat := r.buffer.length - r.start

/-- `_fill`; it succeeds when that many bytes are available. -/
def fill (r : FrameReader) (size : Nat) : FrameReader := fillFrom size r.pieces r.buffer r.start r.le

/-- Takes this many bytes of the buffer. -/
def skip (r : FrameReader) (size : Nat) (h : size ≤ r.available) : FrameReader :=
  ⟨r.pieces, r.buffer, r.start + size, by have := r.le; unfold available at h; omega⟩

/-- The buffer without what has been taken, once that is much. -/
def compacted (r : FrameReader) : FrameReader :=
  if compactBytes ≤ r.start then ⟨r.pieces, r.buffer.drop r.start, 0, Nat.zero_le _⟩ else r

end FrameReader

/-- `_take`. -/
def take (size : Nat) : Prog Failure FrameReader Bytes := do
  let r := (← get).fill size
  set r
  if h : size ≤ r.available then
    set (r.skip size h).compacted
    return slice r.buffer r.start size
  else throw middleOfFrame

/-- `next_frame`: nothing at the end of a frame. -/
def nextFrame : Prog Failure FrameReader (Option Frame) := do
  let r := (← get).fill (Struct.size framePrefix)
  set r
  if h : Struct.size framePrefix ≤ r.available then
    let (code, length, _) : Nat × Nat × Unit :=
      Struct.fields framePrefix (slice r.buffer r.start (Struct.size framePrefix))
    match FrameKind.ofCode code with
    | none => throw (.malformed ("it holds an unknown frame kind " ++ toString code))
    | some kind =>
      if length > maxFrameBytes then
        throw (.malformed ("a " ++ kind.name ++ " frame claims " ++ toString length ++ " bytes"))
      set (r.skip (Struct.size framePrefix) h)
      return some ⟨kind, ← take length⟩
  else if r.available ≠ 0 then throw middleOfFrame
  else return none

/-- `FrameReader(pieces)`. -/
def openFrames : Prog Failure FrameReader Unit := do
  if (← take payloadMagic.length) ≠ payloadMagic then throw .notVersion2

/-! ## 4. The payload reader -/

/-- The reader's state over its source of frames. -/
structure PayloadReader (R : Type) where
  frames : R
  pending : Option Frame := none
  header : Value := .obj []
  entries : List FileEntry := []
  trailer : Value := .obj []
  order : List Text := []
  position : Nat := 0
  phase : Phase := .header

/-- A file read through: its chunks, and its end. -/
structure FileRead where
  entry : FileEntry
  chunks : List Bytes
  size : Nat := 0
  sha256 : Text := Text.ofString ""
  skipped : Text := Text.ofString ""

/-- What a payload read through gives. -/
structure Contents where
  header : Value
  files : List FileRead
  records : List (List Value)
  trailer : Value

section Reader

variable {R : Type} (D : Decoding) (next : Prog Failure R (Option Frame))

/-- A program of the reader. -/
abbrev Reading (R : Type) := Prog Failure (PayloadReader R)

/-- `_peek`: the frame ahead, still pending. -/
def peek : Reading R Frame := do
  match (← get).pending with
  | some found => return found
  | none =>
    match ← focus PayloadReader.frames (fun t frames => { t with frames }) next with
    | none => throw (.malformed "it ends before its trailer")
    | some found =>
      modify fun t => { t with pending := some found }
      return found

/-- `_frame`. -/
def takeFrame : Reading R Frame := do
  let found ← peek next
  modify fun t => { t with pending := none }
  return found

/-- `_expect`. -/
def expect (phase : Phase) : Reading R Unit := do
  let after := (← get).phase
  if after ≠ phase then throw (.outOfOrder phase after)

/-- `_parsed`. -/
def parsed (value : Option Value) (what : String) : Reading R Value :=
  match value with
  | some value => pure value
  | none => throw (.malformed ("its " ++ what ++ " is not valid JSON"))

/-- `read_header`. -/
def readHeader : Reading R Unit := do
  expect .header
  let found ← takeFrame next
  if found.kind ≠ .header then throw (.malformed "it does not start with a header")
  let header ← give (checkedHeader (← parsed (D.loads found.body) "header"))
  modify fun t => { t with header, order := orderOf header, phase := .manifest }

/-- One frame of the manifest. -/
def readItems (body : Bytes) : Reading R Unit := do
  match items (← parsed (D.loads body) "file manifest") with
  | none => throw (.malformed "a file manifest frame is not a list")
  | some values =>
    let entries ← give (values.mapM checkedEntry)
    modify fun t => { t with entries := t.entries ++ entries }
    if (← get).entries.length > maxFiles then throw (.malformed "its file manifest is too long")

/-- The loop of `read_manifest`. -/
def readManifests : (fuel : Nat) → Reading R Unit
  | 0 => throw .outOfFuel
  | fuel + 1 => do
    if (← peek next).kind = .manifest then
      readItems D (← takeFrame next).body
      readManifests fuel

/-- `read_manifest`. -/
def readManifest (fuel : Nat) : Reading R Unit := do
  expect .manifest
  readManifests D next fuel
  modify fun t => { t with phase := .files }

/-- `FileStream._finish`. -/
def finishFile (index : Nat) (entry : FileEntry) (chunks : List Bytes) (value : Value) :
    Except Failure FileRead := do
  if !isDict value || !equals (member value "index") index then
    throw (.malformed "a file's end does not match its data")
  match member value "skipped" with
  | .scalar .null =>
    match count (member value "size"), text? (member value "sha256") with
    | some size, some sha256 =>
      if chunks.flatten.length ≠ size ∨ D.hexdigest chunks.flatten ≠ sha256 then
        throw (.integrity entry.name)
      return { entry := { entry with sha256 }, chunks, size, sha256 }
    | _, _ => throw (.malformed "a file's end carries no size or digest")
  | skipped =>
    match text? skipped with
    | none => throw (.malformed "a skipped file gives no reason")
    | some reason =>
      if reason = Text.ofString "" then throw (.malformed "a skipped file gives no reason")
      return { entry, chunks, skipped := reason }

/-- `FileStream.chunks`, to its end; `chunks` are those before. -/
def readChunks (index : Nat) (entry : FileEntry) : (fuel : Nat) → (chunks : List Bytes) →
    Reading R FileRead
  | 0, _ => throw .outOfFuel
  | fuel + 1, chunks => do
    let found ← takeFrame next
    match found.kind with
    | .fileData =>
      if found.body.length < Struct.size fileIndex ∨ ofBe (slice found.body 0 4) ≠ index then
        throw (.malformed "file data arrives out of manifest order")
      readChunks index entry fuel (chunks ++ [found.body.drop (Struct.size fileIndex)])
    | .fileEnd =>
      give (finishFile D index entry chunks (← parsed (D.loads found.body) "file end"))
    | kind => throw (.malformed ("a " ++ kind.name ++ " frame interrupts a file's data"))

/-- The files from this index on. -/
def readFilesFrom (fuel : Nat) : (index : Nat) → List FileEntry → Reading R (List FileRead)
  | _, [] => return []
  | index, entry :: entries => do
    let file ← readChunks D next index entry fuel []
    return file :: (← readFilesFrom fuel (index + 1) entries)

/-- `files`, each read to its end. -/
def readFiles (fuel : Nat) : Reading R (List FileRead) := do
  expect .files
  let files ← readFilesFrom D next fuel 0 (← get).entries
  modify fun t => { t with phase := .records }
  return files

/-- The loop of `record_batches`. -/
def readBatches : (fuel : Nat) → Reading R (List (List Value))
  | 0 => throw .outOfFuel
  | fuel + 1 => do
    if (← peek next).kind = .records then
      let value ← parsed (D.loadsText (← takeFrame next).body) "records"
      let t ← get
      let (records, position) ← give (checkedRecords t.order value t.position)
      set { t with position }
      return records :: (← readBatches fuel)
    else return []

/-- `record_batches`. -/
def recordBatches (fuel : Nat) : Reading R (List (List Value)) := do
  expect .records
  let batches ← readBatches D next fuel
  modify fun t => { t with phase := .trailer }
  return batches

/-- `read_trailer`. -/
def readTrailer : Reading R Unit := do
  expect .trailer
  let found ← takeFrame next
  if found.kind ≠ .trailer then
    throw (.malformed ("a " ++ found.kind.name ++ " frame comes where the trailer belongs"))
  let trailer ← give (checkedTrailer (← parsed (D.loads found.body) "trailer"))
  modify fun t => { t with trailer, phase := .end }

/-- `finish`: nothing follows the trailer. -/
def finish : Reading R Unit := do
  expect .end
  match ← focus PayloadReader.frames (fun t frames => { t with frames }) next with
  | some _ => throw (.malformed "data follows its trailer")
  | none => modify fun t => { t with phase := .done }

/-- The payload behind its magic, from its header to the end. -/
def readPayload (fuel : Nat) : Reading R Contents := do
  readHeader D next
  readManifest D next fuel
  let files ← readFiles D next fuel
  let records ← recordBatches D next fuel
  readTrailer D next
  finish next
  let t ← get
  return ⟨t.header, files, records, t.trailer⟩

end Reader

/-- Every frame takes some bytes, so there are no more frames than bytes. -/
def fuelFor (pieces : List Bytes) : Nat := pieces.flatten.length + 1

/-- **A payload read through**: `PayloadReader(pieces)` up to `finish()`. -/
def readThrough (D : Decoding) (pieces : List Bytes) : Except Failure Contents :=
  match exec openFrames (FrameReader.ofPieces pieces) with
  | (.error e, _) => .error e
  | (.ok _, frames) => (exec (readPayload D nextFrame (fuelFor pieces)) { frames }).1

end Dbs.Payload

/-
  File:      Dbs/Container/Reader.lean
  Subject:   THE STREAM READER (container/stream.py, StreamReader): it finds the header and the end of
             a container, resolves every block from its two copies, and decrypts what it resolved.

  * `locateHeader`, `locateEnd` -- the metadata: either header copy; a trailer where the file's size
    puts it, else the block count from a scan of the slots and a trailer behind them;
  * `clean`, `repair` -- one block from an intact slot, or from what is left of both;
  * `arrive`, `release`, `pass` -- one pass over the slots in the order they are stored: blocks wait
    for their second copy and are handed on in the order of their indices;
  * `chunks`, `verify` -- the two passes a caller starts. What `chunks` yields is collected in the
    caller's part of the state, so it is there when the pass raises.
-/
import Dbs.Container.Writer

namespace Dbs

open Octets

variable (P : Primitives)

/-! ## 1. Reports -/

/-- What a reader found. -/
structure StreamRepairReport where
  totalBlocks : Nat := 0
  blocksDirect : Nat := 0
  blocksRsCorrected : Nat := 0
  blocksUsedB : Nat := 0
  blocksMerged : Nat := 0
  copiesAvailable : Nat := 2
  failedBlocks : List Nat := []
  sparesDamaged : List Nat := []
  metadataDamaged : List String := []
  unverifiedBlocks : List Nat := []
  problems : List String := []

namespace StreamRepairReport

variable (r : StreamRepairReport)

/-- Every block is there. -/
def ok : Bool := r.failedBlocks.isEmpty && r.problems.isEmpty

/-- And something was repaired. -/
def healed : Bool :=
  r.ok && (r.blocksRsCorrected != 0 || r.blocksUsedB != 0 || r.blocksMerged != 0 ||
    decide (r.copiesAvailable < 2) || !r.sparesDamaged.isEmpty || !r.metadataDamaged.isEmpty)

/-- The report in a line. -/
def summary : String :=
  if !r.ok then
    let failed := if r.failedBlocks.isEmpty then [] else
      let more := if 10 < r.failedBlocks.length then "..." else ""
      [s!"{r.failedBlocks.length}/{r.totalBlocks} blocks could not be repaired (indices: " ++
        s!"{r.failedBlocks.take 10}{more})"]
    "UNRECOVERABLE: " ++ String.intercalate "; " (failed ++ r.problems)
  else
    let notes := if r.unverifiedBlocks.isEmpty then "" else
      s!"; {r.unverifiedBlocks.length} rebuilt blocks could not be checked against a stored hash"
    let text := if r.healed then
        let details :=
          [s!"{r.blocksRsCorrected} Reed-Solomon corrected",
            s!"{r.blocksUsedB} restored from the second copy"] ++
          (if r.blocksMerged = 0 then [] else [s!"{r.blocksMerged} rebuilt from both copies"]) ++
          (if r.sparesDamaged.isEmpty then [] else
            [s!"{r.sparesDamaged.length} unused second copies damaged"]) ++
          (if r.metadataDamaged.isEmpty then [] else
            ["damaged metadata copies: " ++ String.intercalate ", " r.metadataDamaged]) ++
          if r.copiesAvailable < 2 then ["part of the second copy lost to truncation"] else []
        let listed := String.intercalate ", " details
        s!"REPAIRED: {r.totalBlocks} blocks intact after healing ({listed})"
      else s!"CLEAN: all {r.totalBlocks} blocks verified, no repair needed"
    text ++ notes

end StreamRepairReport

/-! ## 2. The header -/

/-- `source.read_at(offset, length)`: less where the source ends first. -/
def readAt (source : Bytes) (offset length : Nat) : Bytes := slice source offset length

/-- A stored copy of a header that verifies. -/
def verifiedHeaderCopy (raw : Bytes) : Option Bytes :=
  match openSealedHeader P raw with
  | some (version, _) => if version = formatVersion then some raw else none
  | none => none

/-- The error of another format version. -/
def unreadable : Option Nat → Raised
  | some version =>
    if version = v1FormatVersion then
      .containerError "This is a format version 1 container; read it with read_container."
    else
      .containerError (s!"Unsupported container format version {version}; this build of DBS reads " ++
        s!"versions {v1FormatVersion} and {formatVersion}.")
  | none => .containerError "Not a DBS container, or every copy of its header is destroyed."

/-- The header from the first copy that verifies, and the names of the copies that differ from it. -/
def locateHeader (source : Bytes) : Except Raised (StreamHeader × List String) := do
  let size := source.length
  let offsets := 0 :: if size ≥ 2 * headerSize then [size - headerSize] else []
  let copies := offsets.map fun offset => verifiedHeaderCopy P (readAt source offset headerSize)
  match copies.findSome? id with
  | none => throw (unreadable (P.firstVerifiedVersion source))
  | some chosen =>
    let body := ((openSealedHeader P chosen).map (·.2)).getD []
    let header ← StreamHeader.parse body
    let names := ["front header", "back header"]
    let damaged := (names.zip (copies ++ List.replicate (2 - copies.length) none)).filter
      fun (_, raw) => raw != some chosen
    return (header, damaged.map (·.1))

/-! ## 3. The end -/

/-- The trailer copies at `start`, those that open and agree with what is known. -/
def readTrailers (source : Bytes) (header : StreamHeader) (start : Nat)
    (agrees : StreamTrailer → Bool) : Option StreamTrailer × List String :=
  if start < headerSize then (none, [])
  else
    let found := [1, 2].map fun number =>
      (StreamTrailer.open P (readAt source (start + (number - 1) * trailerSize) trailerSize)
        header).filter agrees
    match found.findSome? id with
    | none => (none, [])
    | some chosen =>
      let damaged := ([1, 2].zip found).filter fun (_, trailer) => trailer != some chosen
      (some chosen, damaged.map fun (number, _) => s!"trailer copy {number}")

/-- Index and flags of a block, from the message of its first codeword. -/
def descriptorOf (message : Option Bytes) : Option (Nat × Nat) :=
  match message with
  | none => none
  | some message =>
    if message.length < descriptorSize then none
    else
      let (index, _, flags, ()) := Struct.fields descriptor message
      if flags / 2 ≠ 0 ∨ slice message 13 3 ≠ zeros 3 then none else some (index, flags)

/-- One descriptor for each codeword; `number` counts those that are there in full. -/
def describe (messageOf : Nat → Bytes → Option Bytes) :
    List Bytes → Nat → List (Option (Nat × Nat))
  | [], _ => []
  | codeword :: rest, number =>
    if codeword.length ≠ Rs.codewordSize then none :: describe messageOf rest number
    else descriptorOf (messageOf number codeword) :: describe messageOf rest (number + 1)

/-- The descriptors of the blocks whose first codewords lie at `offsets`. Only the codewords that
    are there in full are checked, and those that do not verify are decoded. -/
def firstDescriptors (source : Bytes) (nsym : Nat) (offsets : List Nat) :
    List (Option (Nat × Nat)) :=
  let codewords := offsets.map fun offset => readAt source offset Rs.codewordSize
  let joined := (codewords.filter fun codeword => codeword.length == Rs.codewordSize).flatten
  let damaged := if joined.isEmpty then [] else (Rs.damagedCodewords joined nsym).getD []
  describe (fun number codeword =>
    if number ∈ damaged then Rs.decodeCodeword P.codec codeword nsym []
    else some (codeword.take (Rs.codewordSize - nsym))) codewords 0

/-- What one descriptor says about the number of blocks: the candidate is the last block, or the slot
    holds the second copy of a block near the end. -/
def countFrom (interleave candidate position : Nat) : Option (Nat × Nat) → Option Nat
  | none => none
  | some (found, flags) =>
    if found = candidate ∧ flags % 2 = 1 then some (candidate + 1)
    else if found < candidate then
      let count := position - found
      if 0 < count ∧ count ≤ candidate ∧ count - interleave ≤ found ∧ found < count then some count
      else none
    else none

/-- The next first-copy positions that lie in the source. -/
def scanBatch (L : StreamLayout) (size index : Nat) : List (Nat × Nat × Nat) :=
  ((List.range' index (min (index + scanBatchBlocks) maxBlocks - index)).map fun candidate =>
    let position := firstCopyPosition candidate L.interleave
    (candidate, position, headerSize + position * L.slotSize)).takeWhile
      fun (_, _, offset) => decide (offset < size)

/-- The error of a container without its end. -/
def endMissing : Raised := .corruptionError
  "The backup is cut short before its last block, so its end cannot be found."

/-- The scan from `index` on. The fuel is the size of the source: every turn moves on by a slot. -/
def scanFrom (source : Bytes) (L : StreamLayout) : Nat → Nat → Except Raised Nat
  | 0, _ => .error endMissing
  | fuel + 1, index =>
    let batch := scanBatch L source.length index
    match batch.getLast? with
    | none => .error endMissing
    | some (lastCandidate, _, _) =>
      let descriptors := firstDescriptors P source L.nsym (batch.map fun (_, _, offset) => offset)
      match (batch.zip descriptors).findSome? fun ((candidate, position, _), descriptor) =>
          countFrom L.interleave candidate position descriptor with
      | some count => .ok count
      | none => scanFrom source L fuel (lastCandidate + 1)

/-- The number of blocks, found slot by slot. -/
def scanBlockCount (source : Bytes) (L : StreamLayout) : Except Raised Nat :=
  scanFrom P source L (source.length + 1) 0

/-- Trailer, number of blocks and the damaged trailer copies. (An offset below zero is zero here, and
    refused like it.) -/
def locateEnd (source : Bytes) (header : StreamHeader) :
    Except Raised (Option StreamTrailer × Nat × List String) := do
  let layout := header.layout
  let size := source.length
  match readTrailers P source header (size - headerSize - 2 * trailerSize)
      fun found => layout.containerSize found.blocks == size with
  | (some trailer, damaged) => return (some trailer, trailer.blocks, damaged)
  | (none, _) =>
    let count ← scanBlockCount P source layout
    match readTrailers P source header (headerSize + 2 * count * layout.slotSize)
        fun found => found.blocks == count with
    | (some trailer, damaged) => return (some trailer, count, damaged)
    | (none, _) => return (none, count, ["trailer (both copies)"])

/-! ## 4. The reader -/

/-- An opened container. -/
structure StreamReader where
  source : Bytes
  header : StreamHeader
  cipher : Option ChunkCipher
  trailer : Option StreamTrailer
  blocks : Nat
  metadataDamaged : List String

/-- A block as it was found. -/
structure Block where
  data : Bytes
  chunkLen : Nat
  tag : Bytes

/-- The state of a pass; `out` belongs to the caller who receives the blocks. -/
structure Pass (ω : Type) where
  report : StreamRepairReport
  digest : List Bytes := []
  waiting : Nat → Option (Option Bytes) := fun _ => none
  ready : Nat → Option (Option Block) := fun _ => none
  firstTags : Nat → Option Bytes := fun _ => none
  nextIndex : Nat := 0
  out : ω

/-- A program of a pass. -/
abbrev Reading (ω : Type) := Effects.Prog Raised (Pass ω)

namespace StreamReader

/-- A reader over the source; without a passphrase it checks structure only. -/
def create (source : Bytes) (passphrase : Option Bytes) : Except Raised StreamReader := do
  let (header, headersDamaged) ← locateHeader P source
  let cipher ← match passphrase with
    | none => pure none
    | some passphrase => do
      let kek ← deriveKey P passphrase header.salt header.kdfParams
      let dataKey ← unwrapKey P kek header.wrapNonce header.wrappedKey header.keyBinding
      pure (some ⟨dataKey, header.noncePrefix, header.seal P⟩)
  let (trailer, blocks, trailersDamaged) ← locateEnd P source header
  return { source, header, cipher, trailer, blocks
           metadataDamaged := headersDamaged ++ trailersDamaged }

variable (r : StreamReader)

/-- As the header has it. -/
def layout : StreamLayout := r.header.layout

/-- Nothing found yet. -/
def freshReport : StreamRepairReport :=
  { totalBlocks := r.blocks, metadataDamaged := r.metadataDamaged }

/-- The slots in order, read in batches; short where the source ends. -/
def slots : List Bytes :=
  (pieces readBatchSlots (List.range (2 * r.blocks))).flatMap fun positions =>
    let raw := readAt r.source (headerSize + positions.headD 0 * r.layout.slotSize)
      (positions.length * r.layout.slotSize)
    (List.range positions.length).map fun number =>
      slice raw (number * r.layout.slotSize) r.layout.slotSize

/-- The ciphertext's length, if `data` is block `index` of this container. -/
def chunkLen (data : Bytes) (index : Nat) : Option Nat :=
  if data.length ≠ r.layout.blockSize then none
  else
    let (found, chunkLen, flags, ()) := Struct.fields descriptor data
    let final := index + 1 == r.blocks
    if found ≠ index ∨ flags ≠ (if final then finalFlag else 0) then none
    else if slice data 13 3 ≠ zeros 3 then none
    else if !final then
      if chunkLen = r.layout.maxChunkLen then some chunkLen else none
    else if ¬ (tagLength ≤ chunkLen ∧ chunkLen ≤ r.layout.maxChunkLen) then none
    else if r.trailer.any fun trailer => chunkLen != trailer.finalChunkLen then none
    else if data.drop (descriptorSize + chunkLen) ≠
        zeros (r.layout.blockSize - (descriptorSize + chunkLen)) then none
    else some chunkLen

/-- A block from a slot that is intact as it stands. -/
def clean (raw : Bytes) (index : Nat) : Option Block :=
  if raw.length ≠ r.layout.slotSize then none
  else
    let encoded := raw.take r.layout.encodedSize
    let tag := raw.drop r.layout.encodedSize
    if slotTag P r.header.containerId encoded ≠ tag then none
    else
      match Rs.stripParity encoded r.layout.nsym with
      | none => none
      | some data =>
        match r.chunkLen data index with
        | none => none
        | some chunkLen => some ⟨data, chunkLen, tag⟩

/-- How a rebuilt block is counted: from which copies, and whether anything was decoded. -/
def countRepair (report : StreamRepairReport) (sources : Finset Bool) (decoded : Bool) :
    StreamRepairReport :=
  if 1 < sources.card then { report with blocksMerged := report.blocksMerged + 1 }
  else if sources = {true} then
    { report with blocksUsedB := report.blocksUsedB + 1
                  blocksRsCorrected := report.blocksRsCorrected + if decoded then 1 else 0 }
  else { report with blocksRsCorrected := report.blocksRsCorrected + 1 }

/-- A block from two copies of its slot, of which the first is not intact. In `labels`, and in what
    is counted, `true` is the second copy. -/
def repair (report : StreamRepairReport) (index : Nat) (first second : Option Bytes) :
    Option Block × StreamRepairReport :=
  match second.bind fun raw => r.clean P raw index with
  | some block => (some block, { report with blocksUsedB := report.blocksUsedB + 1 })
  | none =>
    let layout := r.layout
    let copies := first.toList ++ second.toList
    let labels := (first.toList.map fun _ => false) ++ second.toList.map fun _ => true
    if copies.isEmpty then (none, report)
    else
      let repaired := Rs.repairFromCopies P.codec
        (copies.map fun raw => raw.take layout.encodedSize) layout.nsym
      match repaired.data with
      | none => (none, report)
      | some data =>
        match r.chunkLen data index with
        | none => (none, report)
        | some chunkLen =>
          let tag := slotTag P r.header.containerId (Rs.encode data layout.nsym)
          let stored := copies.map fun raw => raw.drop layout.encodedSize
          let block := some ⟨data, chunkLen, tag⟩
          let sources := repaired.used.image fun number => labels.getD number false
          if tag ∈ stored then (block, countRepair report sources repaired.decoded)
          else if repaired.decoded ∨ (stored.length = 2 ∧ stored.getD 0 [] = stored.getD 1 []) then
            (none, report)
          else
            let report := { report with unverifiedBlocks := report.unverifiedBlocks ++ [index] }
            (block, countRepair report sources repaired.decoded)

/-- The second copy is as it was written. -/
def spareIntact (raw : Bytes) (tag : Option Bytes) : Bool :=
  let encodedSize := r.layout.encodedSize
  if raw.length ≠ r.layout.slotSize ∨ some (raw.drop encodedSize) ≠ tag then false
  else some (slotTag P r.header.containerId (raw.take encodedSize)) == tag

/-! ## 5. A pass -/

variable {ω : Type} (checkSpares : Bool)

/-- A slot arrives: a first copy that is intact makes its block ready, any other waits for the second
    copy, which settles it. -/
def arrive (arrival : (Nat × Bool) × Bytes) : Reading ω Unit := do
  let ((index, firstCopy), raw) := arrival
  let complete := raw.length == r.layout.slotSize
  if !complete then
    modify fun s => { s with report := { s.report with copiesAvailable := 1 } }
  let s ← get
  if firstCopy then
    match if complete then r.clean P raw index else none with
    | some block =>
      set { s with
        report := { s.report with blocksDirect := s.report.blocksDirect + 1 }
        ready := Function.update s.ready index (some (some block))
        firstTags := if checkSpares then Function.update s.firstTags index (some block.tag)
          else s.firstTags }
    | none =>
      set { s with waiting := Function.update s.waiting index
                     (some (if complete then some raw else none)) }
  else
    match s.waiting index with
    | some first =>
      let (block, report) := r.repair P s.report index first (if complete then some raw else none)
      let report := if block.isNone then
        { report with failedBlocks := report.failedBlocks ++ [index] } else report
      set { s with report, waiting := Function.update s.waiting index none
                   ready := Function.update s.ready index (some block) }
    | none =>
      if checkSpares then
        let intact := r.spareIntact P raw (s.firstTags index)
        set { s with
          firstTags := Function.update s.firstTags index none
          report := if intact then s.report else
            { s.report with sparesDamaged := s.report.sparesDamaged ++ [index] } }

variable (consume : Nat → Option Block → Reading ω Unit)

/-- One resolved block goes into the digest and to the caller. -/
def deliver (index : Nat) (block : Option Block) : Reading ω Unit := do
  modify fun s => { s with digest := s.digest ++ (block.map (·.tag)).toList }
  consume index block

/-- Hand on what is ready, in order. The fuel is the number of blocks. -/
def release : Nat → Reading ω Unit
  | 0 => return
  | fuel + 1 => do
    let s ← get
    match s.ready s.nextIndex with
    | none => return
    | some block =>
      set { s with ready := Function.update s.ready s.nextIndex none }
      deliver consume s.nextIndex block
      modify fun s => { s with nextIndex := s.nextIndex + 1 }
      release fuel

/-- Every block once, in order; a block that never became ready is handed on as lost. -/
def resolved : Reading ω Unit := do
  ((copies r.blocks r.layout.interleave).zip r.slots).forM fun arrival => do
    r.arrive P checkSpares arrival
    release consume r.blocks
  let s ← get
  (List.range' s.nextIndex (r.blocks - s.nextIndex)).forM fun index => do
    modify fun s => { s with report := { s.report with failedBlocks :=
      if index ∈ s.report.failedBlocks then s.report.failedBlocks
      else s.report.failedBlocks ++ [index] } }
    deliver consume index none

/-- What the trailer's digest says about a report without failed blocks. -/
def checkDigest (digest : List Bytes) (report : StreamRepairReport) : StreamRepairReport :=
  match r.trailer with
  | none => report
  | some trailer =>
    if report.failedBlocks ≠ [] then report
    else if blocksDigest P r.header.containerId digest = trailer.blocksDigest then
      { report with unverifiedBlocks := [] }
    else if report.unverifiedBlocks ≠ [] then
      { report with failedBlocks := report.failedBlocks ++ report.unverifiedBlocks
                    unverifiedBlocks := [] }
    else
      { report with problems := report.problems ++
          ["the trailer's digest of the block hashes does not match"] }

/-- Every slot, in order. -/
def pass : Reading ω Unit := do
  modify fun s => { s with report := r.freshReport }
  r.resolved P checkSpares consume
  modify fun s => { s with report := r.checkDigest P s.digest s.report }

/-- The chunk in a block. -/
def ciphertextOf (block : Block) : Bytes := slice block.data descriptorSize block.chunkLen

/-- A block that opened needs no digest. -/
def discardUnverified (index : Nat) : Reading ω Unit :=
  modify fun s => { s with report := { s.report with
    unverifiedBlocks := s.report.unverifiedBlocks.erase index } }

/-- What `chunks` does with a block: decrypt it and yield it. -/
def yieldChunk (cipher : ChunkCipher) (index : Nat) (block : Option Block) :
    Reading (List Bytes) Unit := do
  match block with
  | none =>
    throw (.corruptionError
      s!"Block {index} is damaged beyond repair: {(← get).report.summary}")
  | some block =>
    match cipher.open P index (ciphertextOf block) (index + 1 == r.blocks) with
    | .error e =>
      modify fun s => { s with report := { s.report with
        failedBlocks := s.report.failedBlocks ++ [index] } }
      throw e
    | .ok plaintext =>
      discardUnverified index
      if plaintext ≠ [] then modify fun s => { s with out := s.out ++ [plaintext] }

/-- The plaintext, block by block. -/
def chunks : Reading (List Bytes) Unit := do
  match r.cipher with
  | none => throw (.containerError
      "Decrypting needs the passphrase; this reader checks structure only.")
  | some cipher =>
    r.pass P checkSpares (r.yieldChunk P cipher)
    let s ← get
    if !s.report.ok then
      throw (.corruptionError ("Backup failed its final check: " ++ s.report.summary))

/-- What `verify` does with a block: try to decrypt it. -/
def tryChunk (index : Nat) (block : Option Block) : Reading Unit Unit := do
  match block, r.cipher with
  | some block, some cipher =>
    match cipher.open P index (ciphertextOf block) (index + 1 == r.blocks) with
    | .error _ =>
      modify fun s => { s with report := { s.report with
        failedBlocks := s.report.failedBlocks ++ [index] } }
    | .ok _ => discardUnverified index
  | _, _ => return

/-- A pass that only reports. -/
def verify : Reading Unit StreamRepairReport := do
  r.pass P true (r.tryChunk P)
  return (← get).report

/-- A new pass has nothing in hand. -/
def start (out : ω) : Pass ω := { report := r.freshReport, out }

end StreamReader

end Dbs

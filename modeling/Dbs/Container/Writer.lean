/-
  File:      Dbs/Container/Writer.lean
  Subject:   THE STREAM WRITER (container/stream.py, StreamWriter): chunks are buffered, sealed, encoded
             in batches and stored twice, the second copy `interleave` slots behind.

  A writer's operations run in `Writing`: they change the writer and may raise, keeping what they
  changed. The sink is part of the state: the bytes it holds (`out`) and how often it was written to.
  Which of its writes raise is the parameter `fails`.

  * `create`, `write`, `close`, `abort` -- the operations, with `queue`, `flush`, `encodeJobs`,
    `place` and `emit` below them;
  * `writeAll` -- a whole run: create, one write for each piece, close.
-/
import Dbs.Container.Metadata
import Dbs.Lib.Effects

namespace Dbs

open Octets

variable (P : Primitives)

/-! ## 1. Slots -/

/-- `>QIB3x`: block index, ciphertext length and flags. -/
def descriptor : Struct.Format := [.uint 8, .uint 4, .uint 1, .pad 3]

/-- The descriptor of the last block. -/
def finalFlag : Nat := 1

/-- What a tag is personalised with. -/
def slotPerson : Bytes := ascii "dbs/v2-slot"

/-- What the digest is personalised with. -/
def digestPerson : Bytes := ascii "dbs/v2-blocks"

/-- The tag of a slot. -/
def slotTag (containerId encoded : Bytes) : Bytes :=
  P.blake2b slotTagSize containerId slotPerson encoded

/-- The digest over the slot tags fed to it. -/
def blocksDigest (containerId : Bytes) (tags : List Bytes) : Bytes :=
  P.blake2b 32 containerId digestPerson tags.flatten

/-- Index, length and flags. -/
def packDescriptor (index chunkLen flags : Nat) : Bytes :=
  Struct.pack descriptor (index, chunkLen, flags, ())

/-- One block: descriptor, sealed chunk, zeros up to the block size. -/
def blockOf (blockSize index : Nat) (sealed : Bytes) (final : Bool) : Bytes :=
  let block := packDescriptor index sealed.length (if final then finalFlag else 0) ++ sealed
  block ++ zeros (blockSize - block.length)

/-! ## 2. The writer's state -/

/-- What closing returns. -/
structure StreamSummary where
  containerBytes : Nat
  plaintextBytes : Nat
  blocks : Nat
  blockSize : Nat
  nsym : Nat
  interleave : Nat
  slotSize : Nat
  sha256 : Bytes
  correctableBytesPerCodeword : Nat
  burstToleranceBytes : Nat

/-- What a new writer draws: salt, container id, nonce prefix, data key and the wrapping nonce. -/
structure Drawn where
  salt : Bytes
  containerId : Bytes
  noncePrefix : Bytes
  dataKey : Bytes
  wrapNonce : Bytes
  salt_length : salt.length = saltLength
  containerId_length : containerId.length = containerIdLength
  noncePrefix_length : noncePrefix.length = noncePrefixLength
  dataKey_length : dataKey.length = keyLength
  wrapNonce_length : wrapNonce.length = nonceLength

/-- A container that is being written. -/
structure StreamWriter where
  header : StreamHeader
  dataKey : Bytes
  workers : Nat
  /-- The tags fed to the running digest. -/
  tags : List Bytes := []
  window : List Bytes := []
  batch : List Bytes := []
  pending : Bytes := []
  nextIndex : Nat := 0
  plaintextBytes : Nat := 0
  containerBytes : Nat := 0
  finalChunkLen : Nat := 0
  summary : Option StreamSummary := none
  closed : Bool := false
  /-- What the sink holds, and the number of writes it has seen. -/
  out : Bytes := []
  emits : Nat := 0

/-- A program of the writer. -/
abbrev Writing := Effects.Prog Raised StreamWriter

namespace StreamWriter

/-- As the header has it. -/
def layout (w : StreamWriter) : StreamLayout := w.header.layout

/-- The header's bytes. -/
def sealedHeader (w : StreamWriter) : Bytes := w.header.seal P

variable (fails : Nat → Bool)

/-! ## 3. The operations -/

/-- A write to the file. -/
def emit (data : Bytes) : Writing Unit := do
  let w ← get
  if fails w.emits then
    set { w with emits := w.emits + 1 }
    throw .sinkError
  set { w with out := w.out ++ data, emits := w.emits + 1,
               containerBytes := w.containerBytes + data.length }

/-- Raises behind the end. -/
def ensureOpen : Writing Unit := do
  if (← get).closed then throw (.valueError "This StreamWriter is closed.")

/-- Store a slot, and the slot that leaves the window again. -/
def place (slot : Bytes) : Writing Unit := do
  emit fails slot
  modify fun w => { w with tags := w.tags ++ [slot.drop (slot.length - slotTagSize)],
                           window := w.window ++ [slot] }
  let w ← get
  if w.window.length > w.layout.interleave then
    set { w with window := w.window.drop 1 }
    emit fails (w.window.headD [])

/-- The slots of numbered chunks: each chunk sealed under its index, the blocks encoded together. -/
def encodeJobs (w : StreamWriter) (jobs : List (Nat × Bytes)) (finalIndex : Option Nat) :
    List Bytes :=
  let cipher : ChunkCipher := ⟨w.dataKey, w.header.noncePrefix, w.sealedHeader P⟩
  let blocks := jobs.map fun (index, chunk) =>
    let final := some index == finalIndex
    blockOf w.layout.blockSize index (cipher.seal P index chunk final) final
  (Rs.encodeMany blocks w.layout.nsym).map fun encoded =>
    encoded ++ slotTag P w.header.containerId encoded

/-- Seal, encode and store the batch, in groups that may be encoded in parallel. -/
def flush (final : Bool) : Writing Unit := do
  let w ← get
  if w.batch.isEmpty then return
  let first := w.nextIndex
  if first + w.batch.length > maxBlocks then
    throw (.containerError "The stream exceeds the largest block count a container holds.")
  let finalIndex := if final then some (first + w.batch.length - 1) else none
  let jobs := w.batch.zipIdx.map fun (chunk, offset) => (first + offset, chunk)
  set { w with batch := [], nextIndex := w.nextIndex + jobs.length }
  let groups := pieces batchBlocks jobs
  (groups.flatMap (w.encodeJobs P · finalIndex)).forM (place fails)

/-- One chunk more for the batch. -/
def queue (chunk : Bytes) : Writing Unit := do
  modify fun w => { w with batch := w.batch ++ [chunk] }
  let w ← get
  if w.batch.length ≥ batchBlocks * w.workers then flush P fails false

/-- Queue full chunks while more than one chunk is left; what is left is returned. The fuel is the
    number of bytes: every turn takes some. -/
def queueFull : Nat → Bytes → Writing Bytes
  | 0, view => return view
  | fuel + 1, view => do
    let capacity := (← get).layout.chunkCapacity
    if view.length > capacity then
      queue P fails (view.take capacity)
      queueFull fuel (view.drop capacity)
    else return view

/-- Fill what is pending up from the front of `data`, and queue it if `data` goes on; what is left of
    `data`. -/
def fillPending (data : Bytes) : Writing Bytes := do
  let w ← get
  if w.pending ≠ [] ∧ data ≠ [] then
    let room := w.layout.chunkCapacity - w.pending.length
    let view := data.drop room
    set { w with pending := w.pending ++ data.take room }
    if view = [] then return view
    queue P fails (w.pending ++ data.take room)
    modify fun w => { w with pending := [] }
    return view
  else return data

/-- How much was taken. -/
def write (data : Bytes) : Writing Nat := do
  ensureOpen
  let view ← fillPending P fails data
  let rest ← queueFull P fails view.length view
  modify fun w => { w with pending := w.pending ++ rest,
                           plaintextBytes := w.plaintextBytes + data.length }
  return data.length

/-- Nothing is written any more. -/
def abort (w : StreamWriter) : StreamWriter :=
  { w with closed := true, batch := [], window := [], pending := [] }

/-- Store what is left in the window, the oldest slot first. The fuel is the window's length. -/
def drainWindow : Nat → Writing Unit
  | 0 => return
  | fuel + 1 => do
    let w ← get
    match w.window with
    | [] => return
    | slot :: rest =>
      set { w with window := rest }
      emit fails slot
      drainWindow fuel

/-- The trailer of what was written. -/
def trailerOf (w : StreamWriter) : StreamTrailer where
  containerId := w.header.containerId
  blocks := w.nextIndex
  plaintextBytes := w.plaintextBytes
  finalChunkLen := w.finalChunkLen
  blocksDigest := blocksDigest P w.header.containerId w.tags

/-- What was written. -/
def summaryOf (w : StreamWriter) : StreamSummary where
  containerBytes := w.containerBytes
  plaintextBytes := w.plaintextBytes
  blocks := w.nextIndex
  blockSize := w.layout.blockSize
  nsym := w.layout.nsym
  interleave := w.layout.interleave
  slotSize := w.layout.slotSize
  sha256 := P.sha256 w.out
  correctableBytesPerCodeword := w.layout.nsym / 2
  burstToleranceBytes := w.layout.burstTolerance w.nextIndex

/-- The stores of a close, from the last chunk to the back header. -/
def finishContainer : Writing Unit := do
  modify fun w => { w with pending := [], finalChunkLen := w.pending.length + tagLength,
                           batch := w.batch ++ [w.pending] }
  flush P fails true
  drainWindow fails (← get).window.length
  let w ← get
  let trailer := (w.trailerOf P).seal P
  emit fails trailer
  emit fails trailer
  emit fails (w.sealedHeader P)

/-- The last chunk, and the trailers. -/
def close : Writing StreamSummary := do
  match (← get).summary with
  | some summary => return summary
  | none =>
    ensureOpen
    tryCatch (finishContainer P fails) fun e => do
      modify abort
      throw e
    let w ← get
    let summary := w.summaryOf P
    set { w with closed := true, summary := some summary }
    return summary

/-- The header of a new container: its key-encryption key comes from the passphrase, and the data
    key is wrapped under it together with the header's other fields. -/
def newHeader (drawn : Drawn) (passphrase : Bytes) (params : KDFParams) (layout : StreamLayout)
    (flags : Nat) (hf : flags < 2 ^ 16) (hl : layout.Valid)
    (hk : params.validateUntrusted = .ok ()) : Except Raised StreamHeader := do
  let unwrapped : StreamHeader := {
    flags, layout, kdfParams := params, salt := drawn.salt, containerId := drawn.containerId
    noncePrefix := drawn.noncePrefix, wrapNonce := zeros nonceLength
    wrappedKey := zeros wrappedKeyLength, flags_lt := hf, layout_valid := hl, kdf_valid := hk
    salt_length := drawn.salt_length, containerId_length := drawn.containerId_length
    noncePrefix_length := drawn.noncePrefix_length
    wrapNonce_length := zeros_length _, wrappedKey_length := zeros_length _ }
  let kek ← deriveKey P passphrase drawn.salt params
  return { unwrapped with
    wrapNonce := drawn.wrapNonce
    wrappedKey := wrapKey P kek drawn.wrapNonce drawn.dataKey unwrapped.keyBinding
    wrapNonce_length := drawn.wrapNonce_length
    wrappedKey_length := by
      rw [wrapKey, P.encrypt_length, drawn.dataKey_length]; rfl }

/-- A new writer over an empty sink; the front header is stored at once. -/
def create (drawn : Drawn) (passphrase : Bytes) (params : KDFParams) (layout : StreamLayout)
    (workers flags : Nat) : Except Raised StreamWriter :=
  match hl : layoutProblem layout.blockSize layout.nsym layout.interleave with
  | some problem => .error (.valueError problem)
  | none =>
    if hf : flags < 2 ^ 16 then
      if workers < 1 then
        .error (.valueError s!"workers must be a positive integer, got {workers}.")
      else
        match hk : params.validateUntrusted with
        | .error e => .error e
        | .ok () => do
          let header ← newHeader P drawn passphrase params layout flags hf ⟨hl⟩ hk
          let (stored, w) := Effects.exec (emit fails (header.seal P))
            { header, dataKey := drawn.dataKey, workers }
          stored
          return w
    else .error (.valueError s!"flags must fit in 16 bits, got {flags}.")

/-- A run over a list of pieces: one write for each, then close. -/
def writeAll (pieces : List Bytes) : Writing StreamSummary := do
  pieces.forM fun piece => do let _ ← write P fails piece
  close P fails

end StreamWriter

end Dbs

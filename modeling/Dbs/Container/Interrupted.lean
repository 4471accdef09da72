/-
  File:      Dbs/Container/Interrupted.lean
  Subject:   THE STREAM WRITER UNDER EXCEPTIONS FROM ANYWHERE (container/stream.py, StreamWriter): its
             operations statement by statement, with every AEAD seal and every trailer on record.

  `StreamWriter` raises where its sink does. Here an exception may also fall between any two
  statements (`interrupted` says at which of the points passed), and a call may follow a call that
  was cut short. The source's words are kept: `flush`, `queue`, `write`, `close`, `abort`.

  * `Sealing` -- one use of the AEAD; `sealChunk` is the only place that makes one;
  * `Recorder` -- the writer with the seals made and the trailers packed so far;
  * `encodePooled` -- groups in the pool: each runs to its own end; where the source's threads overlap
    the record lists their seals one group after another;
  * `follows_write`, `follows_abort`, `follows_storeRest` -- with nothing from outside, the writer's
    own operations.
-/
import Dbs.Container.Written

namespace Dbs

open Octets Effects

/-- One use of the AEAD under a data key. -/
structure Sealing where
  key : Bytes
  noncePrefix : Bytes
  index : Nat
  final : Bool
  plaintext : Bytes

def Sealing.nonce (s : Sealing) : Bytes := chunkNonce s.noncePrefix s.index s.final

structure Recorder where
  writer : StreamWriter
  seals : List Sealing := []
  /-- The trailers packed. -/
  trailers : List StreamTrailer := []
  /-- The points passed. -/
  points : Nat := 0

/-- What ends an operation early: an exception of its own, one from outside, or `struct.error`. -/
inductive Ended
  | raised (e : Raised)
  | interrupted
  | structError

abbrev Recording := Prog Ended Recorder

namespace StreamWriter

variable (P : Primitives) (fails : Nat → Bool)

/-- What a close stores before its trailer. -/
def storeRest : Writing Unit := do
  modify fun w => { w with pending := [], finalChunkLen := w.pending.length + tagLength,
                           batch := w.batch ++ [w.pending] }
  flush P fails true
  drainWindow fails (← get).window.length

/-- The trailer twice, and the back header. -/
def storeTrailer : Writing Unit := do
  let w ← get
  let trailer := (w.trailerOf P).seal P
  emit fails trailer
  emit fails trailer
  emit fails (w.sealedHeader P)

theorem finishContainer_eq :
    finishContainer P fails = (storeRest P fails >>= fun _ => storeTrailer P fails) := by
  simp only [finishContainer, storeRest, storeTrailer, bind_assoc]

end StreamWriter

namespace Recorder

variable (P : Primitives) (fails interrupted : Nat → Bool)

/-! ## 1. The operations -/

/-- Between two statements. -/
def point : Recording Unit := do
  let r ← get
  set { r with points := r.points + 1 }
  if interrupted r.points then throw .interrupted

/-- A statement that changes the writer. -/
def change (f : StreamWriter → StreamWriter) : Recording Unit := do
  modify fun r => { r with writer := f r.writer }
  point interrupted

def emit (data : Bytes) : Recording Unit := do
  let w := (← get).writer
  if fails w.emits then
    modify fun r => { r with writer := { r.writer with emits := r.writer.emits + 1 } }
    throw (.raised .sinkError)
  change interrupted fun w => { w with out := w.out ++ data, emits := w.emits + 1 }
  change interrupted fun w => { w with containerBytes := w.containerBytes + data.length }

def ensureOpen : Recording Unit := do
  if (← get).writer.closed then throw (.raised (.valueError "This StreamWriter is closed."))

def place (slot : Bytes) : Recording Unit := do
  emit fails interrupted slot
  change interrupted fun w =>
    { w with tags := w.tags ++ [slot.drop (slot.length - slotTagSize)] }
  change interrupted fun w => { w with window := w.window ++ [slot] }
  let w := (← get).writer
  if w.window.length > w.layout.interleave then
    change interrupted fun w => { w with window := w.window.drop 1 }
    emit fails interrupted (w.window.headD [])

def sealChunk (c : ChunkCipher) (index : Nat) (plaintext : Bytes) (final : Bool) :
    Recording Bytes := do
  modify fun r =>
    { r with seals := r.seals ++ [⟨c.key, c.noncePrefix, index, final, plaintext⟩] }
  return c.seal P index plaintext final

def encodeBlocks (w : StreamWriter) (finalIndex : Option Nat) :
    List (Nat × Bytes) → Recording (List Bytes)
  | [] => return []
  | (index, chunk) :: jobs => do
    let cipher : ChunkCipher := ⟨w.dataKey, w.header.noncePrefix, w.sealedHeader P⟩
    let final := some index == finalIndex
    point interrupted
    let sealed ← sealChunk P cipher index chunk final
    let blocks ← encodeBlocks w finalIndex jobs
    return blockOf w.layout.blockSize index sealed final :: blocks

def encode (w : StreamWriter) (jobs : List (Nat × Bytes)) (finalIndex : Option Nat) :
    Recording (List Bytes) := do
  let blocks ← encodeBlocks P interrupted w finalIndex jobs
  point interrupted
  return (Rs.encodeMany blocks w.layout.nsym).map fun encoded =>
    encoded ++ slotTag P w.header.containerId encoded

/-- The groups one after another, up to the first that raises. -/
def encodeInTurn (w : StreamWriter) (finalIndex : Option Nat) :
    List (List (Nat × Bytes)) → Recording (List Bytes)
  | [] => return []
  | group :: groups => do
    let slots ← encode P interrupted w group finalIndex
    let rest ← encodeInTurn w finalIndex groups
    return slots ++ rest

/-- The groups in the pool: every one runs, and the first that raised is raised when they are
    collected. -/
def encodePooled (w : StreamWriter) (finalIndex : Option Nat) :
    List (List (Nat × Bytes)) → Recording (List Bytes)
  | [] => return []
  | group :: groups => do
    let slots ← tryCatch (encode P interrupted w group finalIndex) fun e => do
      let _ ← tryCatch (encodePooled w finalIndex groups) fun _ => pure []
      throw e
    let rest ← encodePooled w finalIndex groups
    return slots ++ rest

/-- There is a pool where there is more than one worker. -/
def encodeAll (w : StreamWriter) (finalIndex : Option Nat) (groups : List (List (Nat × Bytes))) :
    Recording (List Bytes) :=
  if w.workers > 1 ∧ groups.length > 1 then encodePooled P interrupted w finalIndex groups
  else encodeInTurn P interrupted w finalIndex groups

def flush (final : Bool) : Recording Unit := do
  let w := (← get).writer
  if w.batch.isEmpty then return
  let first := w.nextIndex
  if first + w.batch.length > maxBlocks then
    throw (.raised (.containerError
      "The stream exceeds the largest block count a container holds."))
  let finalIndex := if final then some (first + w.batch.length - 1) else none
  let jobs := w.batch.zipIdx.map fun (chunk, offset) => (first + offset, chunk)
  change interrupted fun w => { w with batch := [] }
  change interrupted fun w => { w with nextIndex := w.nextIndex + jobs.length }
  let slots ← encodeAll P interrupted w finalIndex (pieces batchBlocks jobs)
  point interrupted
  slots.forM (place fails interrupted)

def queue (chunk : Bytes) : Recording Unit := do
  change interrupted fun w => { w with batch := w.batch ++ [chunk] }
  let w := (← get).writer
  if w.batch.length ≥ batchBlocks * w.workers then flush P fails interrupted false

def queueFull : Nat → Bytes → Recording Bytes
  | 0, view => return view
  | fuel + 1, view => do
    let capacity := (← get).writer.layout.chunkCapacity
    if view.length > capacity then
      queue P fails interrupted (view.take capacity)
      queueFull fuel (view.drop capacity)
    else return view

def fillPending (data : Bytes) : Recording Bytes := do
  let w := (← get).writer
  if w.pending ≠ [] ∧ data ≠ [] then
    let room := w.layout.chunkCapacity - w.pending.length
    let view := data.drop room
    change interrupted fun w => { w with pending := w.pending ++ data.take room }
    if view = [] then return view
    queue P fails interrupted (w.pending ++ data.take room)
    change interrupted fun w => { w with pending := [] }
    return view
  else return data

def write (data : Bytes) : Recording Nat := do
  ensureOpen
  let view ← fillPending P fails interrupted data
  let rest ← queueFull P fails interrupted view.length view
  change interrupted fun w => { w with pending := w.pending ++ rest }
  change interrupted fun w => { w with plaintextBytes := w.plaintextBytes + data.length }
  return data.length

def abort : Recording Unit := do
  change interrupted fun w => { w with closed := true }
  change interrupted fun w => { w with batch := [] }
  change interrupted fun w => { w with window := [] }
  change interrupted fun w => { w with pending := [] }

def drainWindow : Nat → Recording Unit
  | 0 => return
  | fuel + 1 => do
    match (← get).writer.window with
    | [] => return
    | slot :: rest =>
      change interrupted fun w => { w with window := rest }
      emit fails interrupted slot
      drainWindow fuel

/-- The counts of a trailer in the fields `struct.pack` gives them. -/
def counted (t : StreamTrailer) : Prop :=
  t.blocks < 256 ^ 8 ∧ t.plaintextBytes < 256 ^ 8 ∧ t.finalChunkLen < 256 ^ 4

instance (t : StreamTrailer) : Decidable (counted t) := by
  unfold counted
  infer_instance

def packTrailer (t : StreamTrailer) : Recording Bytes := do
  if counted t then
    modify fun r => { r with trailers := r.trailers ++ [t] }
    return t.seal P
  else throw .structError

/-- What a close stores before its trailer. -/
def storeRest : Recording Unit := do
  let final := (← get).writer.pending
  change interrupted fun w => { w with pending := [] }
  change interrupted fun w => { w with finalChunkLen := final.length + tagLength }
  change interrupted fun w => { w with batch := w.batch ++ [final] }
  flush P fails interrupted true
  drainWindow fails interrupted (← get).writer.window.length

/-- The point after the last emit stands for the sink's own `flush`. -/
def finishContainer : Recording Unit := do
  storeRest P fails interrupted
  let w := (← get).writer
  let trailer ← packTrailer P (w.trailerOf P)
  emit fails interrupted trailer
  emit fails interrupted trailer
  emit fails interrupted (w.sealedHeader P)
  point interrupted

def close : Recording StreamSummary := do
  match (← get).writer.summary with
  | some summary => return summary
  | none =>
    ensureOpen
    tryCatch (finishContainer P fails interrupted) fun e => do
      abort interrupted
      throw e
    let summary := (← get).writer.summaryOf P
    change interrupted fun w => { w with closed := true }
    change interrupted fun w => { w with summary := some summary }
    return summary

/-! ## 2. With nothing from outside -/

section Mirrors

/-- From `r`, the recorded operation does what the writer's does. -/
abbrev Follows {α : Type} (x : Recording α) (r : Recorder) (y : Writing α) (w : StreamWriter) :
    Prop :=
  Mirrors Recorder.writer Ended.raised x r y w

variable {interrupted} {r : Recorder}

theorem follows_ensureOpen : Follows ensureOpen r StreamWriter.ensureOpen r.writer := by
  refine mirrors_left (exec_get _) (mirrors_right (exec_get _) ?_)
  cases r.writer.closed with
  | true | false => exact ⟨rfl, rfl⟩

section

variable (hn : ∀ n, interrupted n = false)
include hn

theorem exec_point : exec (point interrupted) r = (.ok (), { r with points := r.points + 1 }) := by
  rw [point, exec_bind_ok (exec_get _), exec_bind_ok (exec_set _ _), hn]
  rfl

theorem exec_change (f : StreamWriter → StreamWriter) : exec (change interrupted f) r =
    (.ok (), { r with writer := f r.writer, points := r.points + 1 }) := by
  rw [change, exec_bind_ok (exec_modify _ _), exec_point hn]

theorem follows_emit (data : Bytes) :
    Follows (emit fails interrupted data) r (StreamWriter.emit fails data) r.writer := by
  refine mirrors_left (exec_get _) (mirrors_right (exec_get _) ?_)
  simp only
  split
  · exact ⟨rfl, rfl⟩
  · refine mirrors_left (exec_change hn _) ?_
    rw [Mirrors, exec_change hn]
    exact ⟨rfl, rfl⟩

theorem follows_place (slot : Bytes) :
    Follows (place fails interrupted slot) r (StreamWriter.place fails slot) r.writer := by
  refine mirrors_bind (follows_emit fails hn slot) fun _ u _ => ?_
  refine mirrors_left (exec_change hn _) (mirrors_left (exec_change hn _) ?_)
  refine mirrors_left (exec_get _) (mirrors_right (exec_modify _ _) (mirrors_right (exec_get _) ?_))
  simp only
  split
  · refine mirrors_left (exec_change hn _) (mirrors_right (exec_set _ _) ?_)
    exact follows_emit fails hn _
  · exact ⟨rfl, rfl⟩

section

variable (w : StreamWriter)

include w

theorem exec_encodeBlocks (finalIndex : Option Nat) (jobs : List (Nat × Bytes)) :
    ∃ u, exec (encodeBlocks P interrupted w finalIndex jobs) r = (.ok (jobs.map fun (index, chunk) =>
      let final := some index == finalIndex
      let cipher : ChunkCipher := ⟨w.dataKey, w.header.noncePrefix, w.sealedHeader P⟩
      blockOf w.layout.blockSize index (cipher.seal P index chunk final) final), u) ∧
      u.writer = r.writer := by
  induction jobs generalizing r with
  | nil => exact ⟨r, rfl, rfl⟩
  | cons job jobs ih =>
    rw [encodeBlocks, exec_bind_ok (exec_point hn), sealChunk, bind_assoc,
      exec_bind_ok (exec_modify _ _), pure_bind]
    obtain ⟨u, hu, hw⟩ := ih
    rw [exec_bind_ok hu]
    exact ⟨u, rfl, hw⟩

theorem exec_encode (jobs : List (Nat × Bytes)) (finalIndex : Option Nat) :
    ∃ u, exec (encode P interrupted w jobs finalIndex) r = (.ok (w.encodeJobs P jobs finalIndex), u) ∧
      u.writer = r.writer := by
  obtain ⟨u, hu, hw⟩ := exec_encodeBlocks P (r := r) hn w finalIndex jobs
  rw [encode, exec_bind_ok hu, exec_bind_ok (exec_point hn)]
  exact ⟨_, rfl, hw⟩

theorem exec_encodeInTurn (finalIndex : Option Nat) (groups : List (List (Nat × Bytes))) :
    ∃ u, exec (encodeInTurn P interrupted w finalIndex groups) r =
      (.ok (groups.flatMap (w.encodeJobs P · finalIndex)), u) ∧ u.writer = r.writer := by
  induction groups generalizing r with
  | nil => exact ⟨r, rfl, rfl⟩
  | cons group groups ih =>
    obtain ⟨u, hu, hw⟩ := exec_encode P (r := r) hn w group finalIndex
    obtain ⟨v, hv, hw'⟩ := ih (r := u)
    rw [encodeInTurn, exec_bind_ok hu, exec_bind_ok hv]
    exact ⟨v, rfl, hw'.trans hw⟩

theorem exec_encodePooled (finalIndex : Option Nat) (groups : List (List (Nat × Bytes))) :
    ∃ u, exec (encodePooled P interrupted w finalIndex groups) r =
      (.ok (groups.flatMap (w.encodeJobs P · finalIndex)), u) ∧ u.writer = r.writer := by
  induction groups generalizing r with
  | nil => exact ⟨r, rfl, rfl⟩
  | cons group groups ih =>
    obtain ⟨u, hu, hw⟩ := exec_encode P (r := r) hn w group finalIndex
    obtain ⟨v, hv, hw'⟩ := ih (r := u)
    have hcatch : exec (tryCatch (encode P interrupted w group finalIndex) fun e => do
        let _ ← tryCatch (encodePooled P interrupted w finalIndex groups) fun _ => pure []
        throw e) r = (.ok (w.encodeJobs P group finalIndex), u) := by
      rw [exec_tryCatch, hu]
    rw [encodePooled, exec_bind_ok hcatch, exec_bind_ok hv]
    exact ⟨v, rfl, hw'.trans hw⟩

theorem exec_encodeAll (finalIndex : Option Nat) (groups : List (List (Nat × Bytes))) :
    ∃ u, exec (encodeAll P interrupted w finalIndex groups) r =
      (.ok (groups.flatMap (w.encodeJobs P · finalIndex)), u) ∧ u.writer = r.writer := by
  rw [encodeAll]
  split
  · exact exec_encodePooled P hn w finalIndex groups
  · exact exec_encodeInTurn P hn w finalIndex groups

end

theorem follows_flush (final : Bool) :
    Follows (flush P fails interrupted final) r (StreamWriter.flush P fails final) r.writer := by
  refine mirrors_left (exec_get _) (mirrors_right (exec_get _) ?_)
  simp only
  split
  · exact ⟨rfl, rfl⟩
  split
  · exact ⟨rfl, rfl⟩
  refine mirrors_left (exec_change hn _) (mirrors_left (exec_change hn _) ?_)
  obtain ⟨u, hu, hw⟩ := exec_encodeAll P hn r.writer _ _
  refine mirrors_left hu (mirrors_left (exec_point hn) (mirrors_right (exec_set _ _) ?_))
  exact mirrors_of_eq hw (mirrors_forM (fun slot t => follows_place fails hn slot) _ _)

theorem follows_queue (chunk : Bytes) :
    Follows (queue P fails interrupted chunk) r (StreamWriter.queue P fails chunk) r.writer := by
  refine mirrors_left (exec_change hn _) (mirrors_left (exec_get _) ?_)
  refine mirrors_right (exec_modify _ _) (mirrors_right (exec_get _) ?_)
  simp only
  split
  · exact follows_flush P fails hn false
  · exact ⟨rfl, rfl⟩

theorem follows_queueFull (fuel : Nat) (view : Bytes) :
    Follows (queueFull P fails interrupted fuel view) r (StreamWriter.queueFull P fails fuel view)
      r.writer := by
  induction fuel generalizing view r with
  | zero => exact ⟨rfl, rfl⟩
  | succ fuel ih =>
    refine mirrors_left (exec_get _) (mirrors_right (exec_get _) ?_)
    simp only
    split
    · exact mirrors_bind (follows_queue P fails hn _) fun _ u _ => ih _
    · exact ⟨rfl, rfl⟩

theorem follows_fillPending (data : Bytes) :
    Follows (fillPending P fails interrupted data) r (StreamWriter.fillPending P fails data)
      r.writer := by
  refine mirrors_left (exec_get _) (mirrors_right (exec_get _) ?_)
  simp only
  split
  · refine mirrors_left (exec_change hn _) (mirrors_right (exec_set _ _) ?_)
    split
    · exact ⟨rfl, rfl⟩
    · refine mirrors_bind (follows_queue P fails hn _) fun _ u _ => ?_
      exact mirrors_left (exec_change hn _) (mirrors_right (exec_modify _ _) ⟨rfl, rfl⟩)
  · exact ⟨rfl, rfl⟩

/-- **A write that nothing interrupts** is the writer's. -/
theorem follows_write (data : Bytes) :
    Follows (write P fails interrupted data) r (StreamWriter.write P fails data) r.writer := by
  refine mirrors_bind follows_ensureOpen fun _ u _ => ?_
  refine mirrors_bind (follows_fillPending P fails hn data) fun view u _ => ?_
  refine mirrors_bind (follows_queueFull P fails hn _ view) fun rest u _ => ?_
  refine mirrors_left (exec_change hn _) (mirrors_left (exec_change hn _) ?_)
  exact mirrors_right (exec_modify _ _) ⟨rfl, rfl⟩

theorem follows_abort : Follows (abort interrupted) r (modify StreamWriter.abort) r.writer := by
  refine mirrors_left (exec_change hn _) (mirrors_left (exec_change hn _) ?_)
  refine mirrors_left (exec_change hn _) ?_
  rw [Mirrors, exec_change hn]
  exact ⟨rfl, rfl⟩

theorem follows_drainWindow (fuel : Nat) :
    Follows (drainWindow fails interrupted fuel) r (StreamWriter.drainWindow fails fuel) r.writer := by
  induction fuel generalizing r with
  | zero => exact ⟨rfl, rfl⟩
  | succ fuel ih =>
    refine mirrors_left (exec_get _) (mirrors_right (exec_get _) ?_)
    cases r.writer.window with
    | nil => exact ⟨rfl, rfl⟩
    | cons slot rest =>
      refine mirrors_left (exec_change hn _) (mirrors_right (exec_set _ _) ?_)
      exact mirrors_bind (follows_emit fails hn slot) fun _ u _ => ih

/-- Up to its trailer a close that nothing interrupts is the writer's. -/
theorem follows_storeRest :
    Follows (storeRest P fails interrupted) r (StreamWriter.storeRest P fails) r.writer := by
  refine mirrors_left (exec_get _) (mirrors_left (exec_change hn _) ?_)
  refine mirrors_left (exec_change hn _) (mirrors_left (exec_change hn _) ?_)
  refine mirrors_right (exec_modify _ _) (mirrors_bind (follows_flush P fails hn true) fun _ u _ => ?_)
  exact mirrors_left (exec_get _) (mirrors_right (exec_get _) (follows_drainWindow fails hn _))

end

end Mirrors

end Recorder

end Dbs

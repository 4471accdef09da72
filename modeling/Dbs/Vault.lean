/-
  File:      Dbs/Vault.lean
  Subject:   THE VAULT'S FILES (manager/vault.py): a stream sealed in records under a key of its own,
             each record under its index and whether it is the last.

  * `Source.read`, `readFull` -- reads that come short; `readFull_eq` -- they do not matter;
  * `sealStream` -- one chunk read ahead; `openStream` -- header, key, records, the same way;
  * `Sealing`, `Ideal` -- what was sealed under the vault's keys and the files' keys, and that nothing
    else opens;
  * `sealStream_ok`, `openStream_sealed` -- what was sealed comes back;
  * `ends_openStream` -- whatever the bytes: a sealed plaintext, or a prefix of one and an error;
  * `vault_files` -- both, up to 2^32 chunks; `too_large_to_seal` -- one byte more.
-/
import Dbs.Primitives
import Dbs.Lib.Effects

namespace Dbs.Vault

open Octets Effects

variable (P : Primitives)

/-! ## 1. Reading -/

/-- What is left of a source, and how much each of the next reads returns at most. -/
structure Source where
  rest : Bytes
  sizes : List Nat

/-- `source.read(size)`: at least a byte while there is one. -/
def Source.read (s : Source) (size : Nat) : Bytes × Source :=
  let count := min size (max 1 (s.sizes.headD size))
  (s.rest.take count, ⟨s.rest.drop count, s.sizes.tail⟩)

def readFullFrom : (fuel : Nat) → (remaining : Nat) → Source → Bytes × Source
  | 0, _, s => ([], s)
  | fuel + 1, remaining, s =>
    if remaining = 0 then ([], s)
    else
      let (part, s') := s.read remaining
      if part = [] then ([], s')
      else
        let (parts, s'') := readFullFrom fuel (remaining - part.length) s'
        (part ++ parts, s'')

/-- `_read_full`; every read but the last returns a byte. -/
def readFull (size : Nat) (s : Source) : Bytes × Source := readFullFrom size size s

theorem readFullFrom_eq {fuel remaining : Nat} (h : remaining ≤ fuel) (s : Source) :
    (readFullFrom fuel remaining s).1 = s.rest.take remaining ∧
      (readFullFrom fuel remaining s).2.rest = s.rest.drop remaining := by
  induction fuel generalizing remaining s with
  | zero =>
    obtain rfl := Nat.le_zero.mp h
    exact ⟨rfl, rfl⟩
  | succ fuel ih =>
    rw [readFullFrom]
    split
    · rename_i hzero
      rw [hzero]
      exact ⟨rfl, rfl⟩
    rename_i hzero
    obtain ⟨count, hcount⟩ : ∃ n, n = min remaining (max 1 (s.sizes.headD remaining)) := ⟨_, rfl⟩
    have hbound : 1 ≤ count ∧ count ≤ remaining := by omega
    have hread : s.read remaining = (s.rest.take count, ⟨s.rest.drop count, s.sizes.tail⟩) := by
      rw [Source.read, ← hcount]
    simp only [hread]
    split
    · rename_i hnil
      have hrest : s.rest = [] := by
        rcases List.take_eq_nil_iff.mp hnil with h | h
        · omega
        · exact h
      rw [hrest, List.drop_nil, List.take_nil, List.drop_nil]
      exact ⟨rfl, rfl⟩
    · have hlen : (s.rest.take count).length ≤ count := List.length_take_le _ _
      rename_i hne
      have hpos : 0 < (s.rest.take count).length := List.length_pos_iff.mpr hne
      obtain ⟨h1, h2⟩ := ih (by omega : remaining - (s.rest.take count).length ≤ fuel)
        ⟨s.rest.drop count, s.sizes.tail⟩
      simp only [h1, h2]
      rcases Nat.le_total count s.rest.length with hle | hle
      · have hsum : remaining = count + (remaining - count) := by omega
        rw [List.length_take_of_le hle]
        refine ⟨?_, ?_⟩
        · conv_rhs => rw [hsum, List.take_add]
        · rw [List.drop_drop, ← hsum]
      · rw [List.drop_of_length_le hle, List.take_of_length_le hle, List.take_nil, List.drop_nil,
          List.append_nil, List.take_of_length_le (by omega), List.drop_of_length_le (by omega)]
        exact ⟨rfl, rfl⟩

/-- **Reads that come short do not matter.** -/
theorem readFull_eq (size : Nat) (s : Source) :
    (readFull size s).1 = s.rest.take size ∧ (readFull size s).2.rest = s.rest.drop size :=
  readFullFrom_eq (Nat.le_refl size) s

/-! ## 2. The functions -/

/-- What the vault raises. -/
inductive Failure
  | vaultError (message : String)
  /-- `ImproperlyConfigured`: there is no secret key. -/
  | improperlyConfigured
  | outOfFuel

/-- A source, and what was written or yielded. -/
structure Stream where
  source : Source
  out : List Bytes

abbrev Streaming := Prog Failure Stream

def streamMagic : Bytes := ascii "DBSMSEAL"

def streamVersion : Bytes := [1]

def keyIdInfo : Bytes := ascii "django-dbs/manager-vault/key-id\x00"

def keyIdBytes : Nat := 4

def nonceBytes : Nat := 12

def tagBytes : Nat := 16

def baseNonceBytes : Nat := 7

def chunkSizeBytes : Nat := 4

def wrappedKeyBytes : Nat := 48

def streamHeaderBytes : Nat := 84

def chunkBytes : Nat := 1024 * 1024

def maxChunkBytes : Nat := 64 * 1024 * 1024

/-- `_key_id`. -/
def keyId (key : Bytes) : Bytes := (P.sha256 (keyIdInfo ++ key)).take keyIdBytes

def nextChunk (size : Nat) : Streaming Bytes := do
  let t ← get
  let r := readFull size t.source
  set { t with source := r.2 }
  return r.1

def emit (data : Bytes) : Streaming Unit := modify fun t => { t with out := t.out ++ [data] }

def lastFlag (last : Bool) : Bytes := [if last then 1 else 0]

/-- `_chunk_nonce`. -/
def chunkNonce (base : Bytes) (index : Nat) (last : Bool) : Streaming Bytes :=
  if index ≥ 2 ^ 32 then throw (.vaultError "This file is too large to seal.")
  else return base ++ toBe 4 index ++ lastFlag last

/-- What a sealing draws: the base nonce, the nonce of the wrapped key, and the file's key. -/
structure Fresh where
  base : Bytes
  keyNonce : Bytes
  fileKey : Bytes
  base_length : base.length = baseNonceBytes
  keyNonce_length : keyNonce.length = nonceBytes
  fileKey_length : fileKey.length = 32

/-- The digest is kept in hex by the source. -/
structure SealedStream where
  size : Nat
  sha256 : Bytes

def authenticated (key : Bytes) (fresh : Fresh) : Bytes :=
  streamMagic ++ streamVersion ++ keyId P key ++ toBe chunkSizeBytes chunkBytes ++ fresh.base ++
    fresh.keyNonce

def header (key : Bytes) (context : Bytes) (fresh : Fresh) : Bytes :=
  authenticated P key fresh ++
    P.encrypt key fresh.keyNonce (authenticated P key fresh ++ context) fresh.fileKey

/-- The loop of `seal_stream`; `consumed` is what the digest has taken. -/
def sealChunks (fileKey base header : Bytes) : (fuel index : Nat) → (chunk consumed : Bytes) →
    Streaming SealedStream
  | 0, _, _, _ => throw .outOfFuel
  | fuel + 1, index, chunk, consumed => do
    let following ← nextChunk chunkBytes
    let last := following.isEmpty
    emit (P.encrypt fileKey (← chunkNonce base index last) header chunk)
    if last then
      return ⟨(consumed ++ chunk).length, P.sha256 (consumed ++ chunk)⟩
    sealChunks fileKey base header fuel (index + 1) following (consumed ++ chunk)

/-- `seal_stream`; `keys` are the vault's, the current one first. -/
def sealStream (keys : List Bytes) (context : Bytes) (fresh : Fresh) : Streaming SealedStream := do
  match keys with
  | [] => throw .improperlyConfigured
  | key :: _ =>
    emit (header P key context fresh)
    let chunk ← nextChunk chunkBytes
    let fuel := (← get).source.rest.length + 1
    sealChunks P fresh.fileKey fresh.base (header P key context fresh) fuel 0 chunk []

/-- `_records`. -/
def records (fileKey base header : Bytes) (recordBytes : Nat) : (fuel index : Nat) → (record : Bytes) →
    Streaming Unit
  | 0, _, _ => throw .outOfFuel
  | fuel + 1, index, record => do
    if record.length < tagBytes then throw (.vaultError "This sealed file is cut short.")
    let following ← nextChunk recordBytes
    let last := following.isEmpty
    match P.decrypt fileKey (← chunkNonce base index last) header record with
    | none => throw (.vaultError "This sealed file was altered, reordered or cut short.")
    | some chunk =>
      if chunk ≠ [] then emit chunk
      if !last then records fileKey base header recordBytes fuel (index + 1) following

/-- The error of other files. -/
def notSealed : Failure := .vaultError "This file was not sealed by the vault."

/-- `open_stream`. -/
def openStream (keys : List Bytes) (context : Bytes) : Streaming Unit := do
  let header ← nextChunk streamHeaderBytes
  if header.length ≠ streamHeaderBytes ∨ ¬ streamMagic ++ streamVersion <+: header then throw notSealed
  let authenticated := header.take (header.length - wrappedKeyBytes)
  let wrapped := header.drop (header.length - wrappedKeyBytes)
  let offset := streamMagic.length + streamVersion.length
  let id := slice authenticated offset keyIdBytes
  let chunkSize := ofBe (slice authenticated (offset + keyIdBytes) chunkSizeBytes)
  let base := slice authenticated (offset + keyIdBytes + chunkSizeBytes) baseNonceBytes
  let keyNonce := authenticated.drop (authenticated.length - nonceBytes)
  if keys = [] then throw .improperlyConfigured
  match keys.find? fun key => keyId P key = id with
  | none => throw (.vaultError "This file was sealed with a key this data directory no longer holds.")
  | some key =>
    match P.decrypt key keyNonce (authenticated ++ context) wrapped with
    | none => throw (.vaultError "This file did not open: it was altered or sealed for another use.")
    | some fileKey =>
      if ¬ (0 < chunkSize ∧ chunkSize ≤ maxChunkBytes) then
        throw (.vaultError "This sealed file claims an impossible chunk size.")
      let record ← nextChunk (chunkSize + tagBytes)
      let fuel := (← get).source.rest.length + 1
      records P fileKey base header (chunkSize + tagBytes) fuel 0 record

/-! ## 3. Sealing -/

def nonceOf (base : Bytes) (index : Nat) (last : Bool) : Bytes := base ++ toBe 4 index ++ lastFlag last

/-- The records of chunks from an index on. -/
def sealedFrom (fileKey base header : Bytes) : Nat → List Bytes → List Bytes
  | _, [] => []
  | index, chunk :: chunks =>
    P.encrypt fileKey (nonceOf base index chunks.isEmpty) header chunk ::
      sealedFrom fileKey base header (index + 1) chunks

theorem sealedFrom_cons (fileKey base header : Bytes) (index : Nat) (chunk : Bytes)
    (chunks : List Bytes) :
    sealedFrom P fileKey base header index (chunk :: chunks) =
      P.encrypt fileKey (nonceOf base index chunks.isEmpty) header chunk ::
        sealedFrom P fileKey base header (index + 1) chunks := rfl

/-- The chunks of a plaintext; an empty one is one empty chunk. -/
def chunksOf (plaintext : Bytes) : List Bytes :=
  plaintext.take chunkBytes :: pieces chunkBytes (plaintext.drop chunkBytes)

theorem chunkBytes_pos : 0 < chunkBytes := by decide

theorem chunksOf_flatten (plaintext : Bytes) : (chunksOf plaintext).flatten = plaintext := by
  rw [chunksOf, List.flatten_cons, pieces_flatten chunkBytes_pos, List.take_append_drop]

section Sealing

variable {P} {fileKey base header : Bytes} {t : Stream}

theorem exec_nextChunk (size : Nat) (t : Stream) : ∃ source :
    Source, source.rest = t.source.rest.drop size ∧
    exec (nextChunk size) t = (.ok (t.source.rest.take size), { t with source }) := by
  obtain ⟨h1, h2⟩ := readFull_eq size t.source
  refine ⟨(readFull size t.source).2, h2, ?_⟩
  unfold nextChunk
  rw [exec_bind_ok (exec_get t), exec_bind_ok (exec_set t _), ← h1]
  rfl

theorem exec_chunkNonce {index : Nat} {last : Bool} (h : index < 2 ^ 32) (t : Stream) :
    exec (chunkNonce base index last) t = (.ok (nonceOf base index last), t) := by
  rw [chunkNonce, if_neg (Nat.not_le.mpr h)]
  rfl

/-- One turn of the sealing loop. -/
theorem exec_sealChunks_succ (fileKey base header : Bytes) {index : Nat} (hindex : index < 2 ^ 32)
    (fuel : Nat) (chunk consumed : Bytes) (t : Stream) :
    ∃ source : Source, source.rest = t.source.rest.drop chunkBytes ∧
      exec (sealChunks P fileKey base header (fuel + 1) index chunk consumed) t =
        let following := t.source.rest.take chunkBytes
        let t' : Stream := ⟨source, t.out ++
          [P.encrypt fileKey (nonceOf base index following.isEmpty) header chunk]⟩
        if following.isEmpty then (.ok ⟨(consumed ++ chunk).length, P.sha256 (consumed ++ chunk)⟩, t')
        else exec (sealChunks P fileKey base header fuel (index + 1) following (consumed ++ chunk))
          t' := by
  obtain ⟨source, hsource, hread⟩ := exec_nextChunk chunkBytes t
  refine ⟨source, hsource, ?_⟩
  rw [sealChunks, exec_bind_ok hread]
  simp only
  rw [exec_bind_ok (exec_chunkNonce hindex _), emit, exec_bind_ok (exec_modify _ _)]
  cases (t.source.rest.take chunkBytes).isEmpty <;> rfl

theorem pieces_eq_nil {n : Nat} (hn : 0 < n) {d : Bytes} : pieces n d = [] ↔ d = [] := by
  refine ⟨fun h => ?_, fun h => by rw [h, pieces_nil]⟩
  rw [← pieces_flatten hn d, h, List.flatten_nil]

theorem pieces_eq_cons {n : Nat} (hn : 0 < n) {d c : Bytes} {cs : List Bytes}
    (h : pieces n d = c :: cs) :
    c ≠ [] ∧ d.take n = c ∧ pieces n (d.drop n) = cs := by
  have hne : d ≠ [] := fun hd => by
    rw [hd, pieces_nil] at h
    exact absurd h nofun
  rw [pieces_cons hn hne] at h
  obtain ⟨hc, hcs⟩ := List.cons.inj h
  refine ⟨?_, hc, hcs⟩
  rw [← hc, ne_eq, List.take_eq_nil_iff, not_or]
  exact ⟨by omega, hne⟩

theorem exec_sealChunks_refused (fileKey base header : Bytes) {index : Nat} (hindex : 2 ^ 32 ≤ index)
    (fuel : Nat) (chunk consumed : Bytes) (t : Stream) :
    (exec (sealChunks P fileKey base header (fuel + 1) index chunk consumed) t).1 =
      .error (.vaultError "This file is too large to seal.") := by
  obtain ⟨source, -, hread⟩ := exec_nextChunk chunkBytes t
  rw [sealChunks, exec_bind_ok hread]
  simp only
  rw [chunkNonce, if_pos hindex, exec_bind_error (exec_throw _ _)]

/-- **The sealing loop** writes a record for the chunk and for each piece of what is left. -/
theorem exec_sealChunks {fuel index : Nat} {chunk consumed : Bytes} {cs : List Bytes}
    (hcs : pieces chunkBytes t.source.rest = cs) (hfuel : cs.length < fuel)
    (hindex : index + cs.length < 2 ^ 32) :
    ∃ source, exec (sealChunks P fileKey base header fuel index chunk consumed) t =
      (.ok ⟨(consumed ++ chunk ++ cs.flatten).length, P.sha256 (consumed ++ chunk ++ cs.flatten)⟩,
        ⟨source, t.out ++ sealedFrom P fileKey base header index (chunk :: cs)⟩) := by
  induction cs generalizing t fuel index chunk consumed with
  | nil =>
    obtain ⟨fuel, rfl⟩ : ∃ n, fuel = n + 1 := ⟨fuel - 1, by omega⟩
    have hrest : t.source.rest = [] := (pieces_eq_nil chunkBytes_pos).mp hcs
    obtain ⟨source, -, hturn⟩ := exec_sealChunks_succ (P := P) fileKey base header hindex fuel chunk
      consumed t
    rw [hrest, List.take_nil] at hturn
    refine ⟨source, hturn.trans ?_⟩
    rw [List.flatten_nil, List.append_nil]
    rfl
  | cons c cs ih =>
    obtain ⟨fuel, rfl⟩ : ∃ n, fuel = n + 1 := ⟨fuel - 1, by omega⟩
    rw [List.length_cons] at hfuel hindex
    obtain ⟨hne, hc, hcs⟩ := pieces_eq_cons chunkBytes_pos hcs
    obtain ⟨source, hsource, hturn⟩ := exec_sealChunks_succ (P := P) fileKey base header
      (show index < 2 ^ 32 by omega) fuel chunk consumed t
    rw [hc] at hturn
    simp only [List.isEmpty_eq_false_iff.mpr hne, Bool.false_eq_true, if_false] at hturn
    obtain ⟨source', hrest⟩ := ih (t := ⟨source, t.out ++
      [P.encrypt fileKey (nonceOf base index false) header chunk]⟩) (by rw [hsource, hcs])
      (by omega : cs.length < fuel) (by omega : index + 1 + cs.length < 2 ^ 32)
    refine ⟨source', hturn.trans (hrest.trans ?_)⟩
    rw [List.flatten_cons, List.append_assoc (consumed ++ chunk), List.append_assoc t.out]
    rfl

/-- The loop stops at the chunk whose index does not fit. -/
theorem exec_sealChunks_tooLarge {fuel index : Nat} {chunk consumed : Bytes} {cs : List Bytes}
    (hcs : pieces chunkBytes t.source.rest = cs) (hfuel : cs.length < fuel) (hle : index ≤ 2 ^ 32)
    (hindex : 2 ^ 32 ≤ index + cs.length) :
    (exec (sealChunks P fileKey base header fuel index chunk consumed) t).1 =
      .error (.vaultError "This file is too large to seal.") := by
  induction cs generalizing t fuel index chunk consumed with
  | nil =>
    obtain ⟨fuel, rfl⟩ : ∃ n, fuel = n + 1 := ⟨fuel - 1, by omega⟩
    obtain rfl : index = 2 ^ 32 := Nat.le_antisymm hle hindex
    exact exec_sealChunks_refused fileKey base header (Nat.le_refl _) fuel chunk consumed t
  | cons c cs ih =>
    obtain ⟨fuel, rfl⟩ : ∃ n, fuel = n + 1 := ⟨fuel - 1, by omega⟩
    rw [List.length_cons] at hfuel hindex
    rcases Nat.lt_or_eq_of_le hle with hlt | rfl
    · obtain ⟨hne, hc, hcs⟩ := pieces_eq_cons chunkBytes_pos hcs
      obtain ⟨source, hsource, hturn⟩ := exec_sealChunks_succ (P := P) fileKey base header hlt fuel
        chunk consumed t
      rw [hc] at hturn
      simp only [List.isEmpty_eq_false_iff.mpr hne, Bool.false_eq_true, if_false] at hturn
      rw [hturn]
      exact ih (by rw [hsource, hcs]) (by omega : cs.length < fuel)
        (by omega : index + 1 ≤ 2 ^ 32) (by omega : 2 ^ 32 ≤ index + 1 + cs.length)
    · exact exec_sealChunks_refused fileKey base header (Nat.le_refl _) fuel chunk consumed t

end Sealing

section Sealed

variable {P}

theorem pieces_length (n : Nat) (d : Bytes) : (pieces n d).length = (d.length + n - 1) / n := by
  rw [pieces, List.length_map, List.length_range]

theorem pieces_length_le {n : Nat} (hn : 0 < n) (d : Bytes) : (pieces n d).length ≤ d.length := by
  obtain ⟨k, rfl⟩ : ∃ k, n = k + 1 := ⟨n - 1, by omega⟩
  rw [pieces_length]
  rcases Nat.eq_zero_or_pos d.length with h0 | hpos
  · rw [h0, Nat.div_eq_of_lt (by omega)]
  · refine Nat.div_le_of_le_mul ?_
    have hk : k ≤ k * d.length := Nat.le_mul_of_pos_right k hpos
    rw [Nat.succ_mul]
    omega

/-- Sealing is writing the header and sealing the chunks. -/
theorem exec_sealStream (key : Bytes) (keys : List Bytes) (context : Bytes) (fresh : Fresh)
    (plaintext : Bytes) (sizes : List Nat) :
    ∃ source : Source, source.rest = plaintext.drop chunkBytes ∧
      exec (sealStream P (key :: keys) context fresh) ⟨⟨plaintext, sizes⟩, []⟩ =
        exec (sealChunks P fresh.fileKey fresh.base (header P key context fresh)
          ((plaintext.drop chunkBytes).length + 1) 0 (plaintext.take chunkBytes) [])
          ⟨source, [header P key context fresh]⟩ := by
  obtain ⟨source, hsource, hread⟩ := exec_nextChunk chunkBytes
    ⟨⟨plaintext, sizes⟩, [header P key context fresh]⟩
  refine ⟨source, hsource, ?_⟩
  rw [sealStream, emit, exec_bind_ok (exec_modify _ _)]
  refine (exec_bind_ok hread).trans ?_
  rw [exec_bind_ok (exec_get _)]
  simp only [hsource]

theorem fuel_enough (plaintext : Bytes) : (pieces chunkBytes (plaintext.drop chunkBytes)).length <
    (plaintext.drop chunkBytes).length + 1 :=
  Nat.lt_succ_of_le (pieces_length_le chunkBytes_pos _)

/-- **What sealing writes**: the header, and a record for each chunk. -/
theorem sealStream_ok (key : Bytes) (keys : List Bytes) (context : Bytes) (fresh : Fresh)
    {plaintext : Bytes} (hsize : (chunksOf plaintext).length ≤ 2 ^ 32) (sizes : List Nat) :
    ∃ source, exec (sealStream P (key :: keys) context fresh) ⟨⟨plaintext, sizes⟩, []⟩ =
      (.ok ⟨plaintext.length, P.sha256 plaintext⟩, ⟨source, header P key context fresh ::
        sealedFrom P fresh.fileKey fresh.base (header P key context fresh) 0
          (chunksOf plaintext)⟩) := by
  obtain ⟨source, hsource, hloop⟩ := exec_sealStream (P := P) key keys context fresh plaintext sizes
  rw [chunksOf, List.length_cons] at hsize
  have hcount : 0 + (pieces chunkBytes (plaintext.drop chunkBytes)).length < 2 ^ 32 := by omega
  obtain ⟨source', hrun⟩ := @exec_sealChunks P fresh.fileKey fresh.base (header P key context fresh)
    ⟨source, [header P key context fresh]⟩ _ 0 (plaintext.take chunkBytes) [] _
    (congrArg (pieces chunkBytes) hsource) (fuel_enough plaintext) hcount
  refine ⟨source', hloop.trans (hrun.trans ?_)⟩
  rw [List.nil_append, pieces_flatten chunkBytes_pos, List.take_append_drop]
  rfl

/-- A plaintext of more chunks is refused, after its header and records were written. -/
theorem sealStream_tooLarge (key : Bytes) (keys : List Bytes) (context : Bytes) (fresh : Fresh)
    {plaintext : Bytes} (hsize : 2 ^ 32 < (chunksOf plaintext).length) (sizes : List Nat) :
    (exec (sealStream P (key :: keys) context fresh) ⟨⟨plaintext, sizes⟩, []⟩).1 =
      .error (.vaultError "This file is too large to seal.") := by
  obtain ⟨source, hsource, hloop⟩ := exec_sealStream (P := P) key keys context fresh plaintext sizes
  rw [chunksOf, List.length_cons] at hsize
  rw [hloop]
  exact exec_sealChunks_tooLarge (t := ⟨source, _⟩) (congrArg (pieces chunkBytes) hsource)
    (fuel_enough plaintext) (by omega) (by omega)

/-- One byte more than 2^32 chunks of a mebibyte. -/
theorem chunksOf_zeros_length : (chunksOf (zeros (2 ^ 52 + 1))).length = 2 ^ 32 + 1 := by
  rw [chunksOf, List.length_cons, pieces_length, List.length_drop, zeros_length, chunkBytes]
  norm_num

end Sealed

/-! ## 4. Opening -/

section Opening

variable {P}

def altered : Failure := .vaultError "This sealed file was altered, reordered or cut short."

/-- What a chunk leaves in the output: an empty one is not yielded. -/
def yielded (out : List Bytes) (chunk : Bytes) : List Bytes :=
  if chunk ≠ [] then out ++ [chunk] else out

theorem yielded_flatten (out : List Bytes) (chunk : Bytes) :
    (yielded out chunk).flatten = out.flatten ++ chunk := by
  unfold yielded
  split
  · rw [List.flatten_append, List.flatten_singleton]
  · rename_i h
    rw [not_not.mp h, List.append_nil]

section

variable (fileKey base header : Bytes)

include fileKey base header

theorem records_succ (recordBytes fuel index : Nat) (record : Bytes) :
    records P fileKey base header recordBytes (fuel + 1) index record = (do
      if record.length < tagBytes then throw (.vaultError "This sealed file is cut short.")
      let following ← nextChunk recordBytes
      let last := following.isEmpty
      match P.decrypt fileKey (← chunkNonce base index last) header record with
      | none => throw (.vaultError "This sealed file was altered, reordered or cut short.")
      | some chunk =>
        if chunk ≠ [] then emit chunk
        if !last then records P fileKey base header recordBytes fuel (index + 1) following) := rfl

theorem exec_records_short {recordBytes : Nat} {record : Bytes}
    (h : record.length < tagBytes) (fuel index : Nat) (t : Stream) :
    exec (records P fileKey base header recordBytes (fuel + 1) index record) t =
      (.error (.vaultError "This sealed file is cut short."), t) := by
  rw [records_succ]
  exact (congrArg (fun x => exec x t) (if_pos h)).trans rfl

theorem exec_records_tooLarge (recordBytes : Nat) {record : Bytes}
    (hlong : tagBytes ≤ record.length) {index : Nat} (hindex : 2 ^ 32 ≤ index) (fuel : Nat)
    (t : Stream) :
    ∃ u : Stream, u.out = t.out ∧
      exec (records P fileKey base header recordBytes (fuel + 1) index record) t =
        (.error (.vaultError "This file is too large to seal."), u) := by
  obtain ⟨source, -, hread⟩ := exec_nextChunk recordBytes t
  refine ⟨{ t with source }, rfl, ?_⟩
  rw [records_succ]
  refine (congrArg (fun x => exec x t) (if_neg (Nat.not_lt.mpr hlong))).trans ?_
  refine (exec_bind_ok hread).trans ?_
  simp only
  rw [chunkNonce, if_pos hindex, exec_bind_error (exec_throw _ _)]

/-- One turn of the opening loop. -/
theorem exec_records_succ (recordBytes : Nat) {record : Bytes}
    (hlong : tagBytes ≤ record.length) {index : Nat} (hindex : index < 2 ^ 32) (fuel : Nat)
    (t : Stream) :
    ∃ source : Source, source.rest = t.source.rest.drop recordBytes ∧
      exec (records P fileKey base header recordBytes (fuel + 1) index record) t =
        let following := t.source.rest.take recordBytes
        match P.decrypt fileKey (nonceOf base index following.isEmpty) header record with
        | none => (.error altered, { t with source })
        | some chunk =>
          if following.isEmpty then (.ok (), ⟨source, yielded t.out chunk⟩)
          else exec (records P fileKey base header recordBytes fuel (index + 1) following)
            ⟨source, yielded t.out chunk⟩ := by
  obtain ⟨source, hsource, hread⟩ := exec_nextChunk recordBytes t
  refine ⟨source, hsource, ?_⟩
  rw [records_succ]
  refine (congrArg (fun x => exec x t) (if_neg (Nat.not_lt.mpr hlong))).trans ?_
  refine (exec_bind_ok hread).trans ?_
  simp only
  rw [exec_bind_ok (exec_chunkNonce hindex _)]
  cases P.decrypt fileKey (nonceOf base index (t.source.rest.take recordBytes).isEmpty)
    header record with
  | none => rfl
  | some chunk =>
    unfold yielded
    by_cases hne : chunk ≠ []
    · simp only [if_pos hne]
      rw [emit, exec_bind_ok (exec_modify _ _)]
      cases (t.source.rest.take recordBytes).isEmpty <;> rfl
    · simp only [if_neg hne]
      cases (t.source.rest.take recordBytes).isEmpty <;> rfl

end

variable {cs : List Bytes}

theorem Cut.tail {n : Nat} {c : Bytes} (h : Cut n (c :: cs)) : Cut n cs := by
  cases h with
  | last => exact .nil
  | cons _ _ _ h => exact h

theorem Cut.head {n : Nat} {c : Bytes} (h : Cut n (c :: cs)) :
    c.length ≤ n ∧ (cs ≠ [] → c.length = n) := by
  cases h with
  | last _ _ hle => exact ⟨hle, fun h => absurd rfl h⟩
  | cons _ _ heq _ => exact ⟨heq.le, fun _ => heq⟩

/-- The first record is cut off whole, and the others stay. -/
theorem sealedFrom_cut (fileKey base header : Bytes) (index : Nat) {c : Bytes}
    (hle : c.length ≤ chunkBytes) (hfull : cs ≠ [] → c.length = chunkBytes) :
    (sealedFrom P fileKey base header index (c :: cs)).flatten.take (chunkBytes + tagBytes) =
        P.encrypt fileKey (nonceOf base index cs.isEmpty) header c ∧
      (sealedFrom P fileKey base header index (c :: cs)).flatten.drop (chunkBytes + tagBytes) =
        (sealedFrom P fileKey base header (index + 1) cs).flatten := by
  rw [sealedFrom_cons, List.flatten_cons]
  cases cs with
  | nil =>
    have hshort : (P.encrypt fileKey (nonceOf base index true) header c).length ≤
        chunkBytes + tagBytes := by
      rw [P.encrypt_length]
      exact Nat.add_le_add_right hle _
    rw [sealedFrom, List.flatten_nil, List.append_nil, List.isEmpty_nil]
    exact ⟨List.take_of_length_le hshort, List.drop_of_length_le hshort⟩
  | cons c' cs =>
    have hlen : (P.encrypt fileKey (nonceOf base index false) header c).length =
        chunkBytes + tagBytes := by
      rw [P.encrypt_length, hfull (List.cons_ne_nil _ _)]
      rfl
    exact ⟨List.take_left' hlen, List.drop_left' hlen⟩

theorem sealedFrom_flatten_length (fileKey base header : Bytes) (index : Nat) (cs : List Bytes) :
    cs.length ≤ (sealedFrom P fileKey base header index cs).flatten.length := by
  induction cs generalizing index with
  | nil => exact Nat.zero_le _
  | cons c cs ih =>
    have h := ih (index + 1)
    rw [sealedFrom_cons, List.flatten_cons, List.length_append, P.encrypt_length, List.length_cons]
    omega

/-- **The opening loop** over the records of a chunk and of full chunks behind it. -/
theorem exec_records (hopens : P.OpensWhatItSeals) (fileKey base header : Bytes)
    (hcut : Cut chunkBytes cs) {fuel index : Nat} (chunk : Bytes) {t : Stream}
    (hrest : t.source.rest = (sealedFrom P fileKey base header (index + 1) cs).flatten)
    (hfuel : cs.length < fuel) (hindex : index + cs.length < 2 ^ 32) :
    ∃ source out, exec (records P fileKey base header (chunkBytes + tagBytes) fuel index
        (P.encrypt fileKey (nonceOf base index cs.isEmpty) header chunk)) t = (.ok (), ⟨source, out⟩) ∧
      out.flatten = t.out.flatten ++ chunk ++ cs.flatten := by
  have hlong : ∀ n c, tagBytes ≤ (P.encrypt fileKey n header c).length := fun n c => by
    rw [P.encrypt_length]
    exact Nat.le_add_left _ _
  induction cs generalizing fuel index chunk t with
  | nil =>
    obtain ⟨fuel, rfl⟩ : ∃ n, fuel = n + 1 := ⟨fuel - 1, by omega⟩
    obtain ⟨source, -, hturn⟩ := exec_records_succ (P := P) fileKey base header
      (chunkBytes + tagBytes) (hlong (nonceOf base index true) chunk) (show index < 2 ^ 32 from hindex)
      fuel t
    rw [hrest, sealedFrom, List.flatten_nil, List.take_nil] at hturn
    simp only [List.isEmpty_nil, hopens _ _ _ _, if_true] at hturn
    exact ⟨source, _, hturn, by rw [yielded_flatten, List.flatten_nil, List.append_nil]⟩
  | cons c cs ih =>
    obtain ⟨fuel, rfl⟩ : ∃ n, fuel = n + 1 := ⟨fuel - 1, by omega⟩
    rw [List.length_cons] at hfuel hindex
    obtain ⟨source, hsource, hturn⟩ := exec_records_succ (P := P) fileKey base header
      (chunkBytes + tagBytes) (hlong (nonceOf base index false) chunk)
      (show index < 2 ^ 32 by omega) fuel t
    -- the next record is cut off whole, and the others stay
    have hnext : t.source.rest.take (chunkBytes + tagBytes) =
          P.encrypt fileKey (nonceOf base (index + 1) cs.isEmpty) header c ∧
        t.source.rest.drop (chunkBytes + tagBytes) =
          (sealedFrom P fileKey base header (index + 1 + 1) cs).flatten := by
      obtain ⟨hle, hfull⟩ := Cut.head hcut
      rw [hrest]
      exact sealedFrom_cut fileKey base header (index + 1) hle hfull
    have hne : (P.encrypt fileKey (nonceOf base (index + 1) cs.isEmpty) header c).isEmpty = false := by
      rw [List.isEmpty_eq_false_iff]
      exact List.ne_nil_of_length_pos (Nat.lt_of_lt_of_le (by decide) (hlong _ c))
    rw [hnext.1] at hturn
    simp only [hne, hopens _ _ _ _, Bool.false_eq_true, if_false] at hturn
    obtain ⟨source', out, hrun, hout⟩ := ih (t := ⟨source, yielded t.out chunk⟩) (Cut.tail hcut)
      c (hsource.trans hnext.2) (by omega : cs.length < fuel)
      (by omega : index + 1 + cs.length < 2 ^ 32)
    refine ⟨source', out, hturn.trans hrun, hout.trans ?_⟩
    rw [yielded_flatten, List.flatten_cons, List.append_assoc (_ ++ chunk)]

/-! The fields of a header the vault wrote. -/

theorem keyId_length (key : Bytes) : (keyId P key).length = keyIdBytes := by
  rw [keyId, List.length_take, P.sha256_length]
  rfl

theorem authenticated_length (key : Bytes) (fresh : Fresh) :
    (authenticated P key fresh).length = streamHeaderBytes - wrappedKeyBytes := by
  simp only [authenticated, List.length_append, keyId_length, toBe_length, fresh.base_length,
    fresh.keyNonce_length]
  rfl

theorem header_length (key context : Bytes) (fresh : Fresh) :
    (header P key context fresh).length = streamHeaderBytes := by
  rw [header, List.length_append, authenticated_length, P.encrypt_length, fresh.fileKey_length]
  rfl

/-- What `open_stream` cuts out of the authenticated part is what was put in. -/
theorem authenticated_fields (key : Bytes) (fresh : Fresh) :
    let offset := streamMagic.length + streamVersion.length
    slice (authenticated P key fresh) offset keyIdBytes = keyId P key ∧
      ofBe (slice (authenticated P key fresh) (offset + keyIdBytes) chunkSizeBytes) = chunkBytes ∧
      slice (authenticated P key fresh) (offset + keyIdBytes + chunkSizeBytes) baseNonceBytes =
        fresh.base ∧
      (authenticated P key fresh).drop ((authenticated P key fresh).length - nonceBytes) =
        fresh.keyNonce := by
  have hid := keyId_length (P := P) key
  have hsize : (toBe chunkSizeBytes chunkBytes).length = chunkSizeBytes := toBe_length _ _
  have hmagic : (streamMagic ++ streamVersion).length = streamMagic.length + streamVersion.length :=
    List.length_append
  have hsplit : authenticated P key fresh = streamMagic ++ streamVersion ++ (keyId P key ++
      (toBe chunkSizeBytes chunkBytes ++ (fresh.base ++ fresh.keyNonce))) := by
    simp only [authenticated, List.append_assoc]
  refine ⟨?_, ?_, ?_, ?_⟩
  · rw [hsplit, ← hmagic, ← hid]
    exact slice_middle _ _ _
  · have h := slice_middle (streamMagic ++ streamVersion ++ keyId P key)
      (toBe chunkSizeBytes chunkBytes) (fresh.base ++ fresh.keyNonce)
    rw [List.append_assoc, ← hsplit, List.length_append, hmagic, hid, hsize] at h
    rw [h]
    exact ofBe_toBe (by decide)
  · have h := slice_middle (streamMagic ++ streamVersion ++ keyId P key ++
      toBe chunkSizeBytes chunkBytes) fresh.base fresh.keyNonce
    rw [List.append_assoc, List.append_assoc, ← hsplit, List.length_append, List.length_append, hmagic,
      hid, hsize, fresh.base_length] at h
    exact h
  · rw [authenticated]
    refine List.drop_left' ?_
    have hnonce := fresh.keyNonce_length
    simp only [List.length_append]
    omega

/-- Opening a header the vault wrote, with the keys it was sealed with: the records follow. -/
theorem exec_openStream_header {key context : Bytes} {fresh : Fresh} {keys : List Bytes}
    (hfind : keys.find? (fun k => keyId P k = keyId P key) = some key)
    (hdecrypt : P.decrypt key fresh.keyNonce (authenticated P key fresh ++ context)
      (P.encrypt key fresh.keyNonce (authenticated P key fresh ++ context) fresh.fileKey) =
      some fresh.fileKey) {rest : Bytes} {sizes : List Nat} {out : List Bytes} :
    ∃ source : Source, source.rest = rest.drop (chunkBytes + tagBytes) ∧
      exec (openStream P keys context) ⟨⟨header P key context fresh ++ rest, sizes⟩, out⟩ =
        exec (records P fresh.fileKey fresh.base (header P key context fresh) (chunkBytes + tagBytes)
          ((rest.drop (chunkBytes + tagBytes)).length + 1) 0 (rest.take (chunkBytes + tagBytes)))
          ⟨source, out⟩ := by
  have hlength := header_length (P := P) key context fresh
  have hauth := authenticated_length (P := P) key fresh
  obtain ⟨hid, hsize, hbase, hnonce⟩ := authenticated_fields (P := P) key fresh
  obtain ⟨source, hsource, hread⟩ := exec_nextChunk streamHeaderBytes
    ⟨⟨header P key context fresh ++ rest, sizes⟩, out⟩
  simp only [List.take_left' hlength, List.drop_left' hlength] at hread hsource
  obtain ⟨source', hsource', hread'⟩ := exec_nextChunk (chunkBytes + tagBytes) ⟨source, out⟩
  simp only [hsource] at hread' hsource'
  have htake : (header P key context fresh).take
      ((header P key context fresh).length - wrappedKeyBytes) = authenticated P key fresh := by
    rw [hlength, header]
    exact List.take_left' hauth
  have hdrop : (header P key context fresh).drop
      ((header P key context fresh).length - wrappedKeyBytes) =
        P.encrypt key fresh.keyNonce (authenticated P key fresh ++ context) fresh.fileKey := by
    rw [hlength, header]
    exact List.drop_left' hauth
  have hmagic : ¬ ((header P key context fresh).length ≠ streamHeaderBytes ∨
      ¬ streamMagic ++ streamVersion <+: header P key context fresh) := by
    rw [not_or, not_not, not_not]
    refine ⟨hlength, ?_⟩
    simp only [header, authenticated, List.append_assoc]
    exact ⟨_, List.append_assoc _ _ _⟩
  have hkeys : keys ≠ [] := fun h => by
    rw [h] at hfind
    exact absurd hfind nofun
  refine ⟨source', hsource', ?_⟩
  rw [openStream]
  refine (exec_bind_ok hread).trans ?_
  refine (congrArg (fun x => exec x _) (if_neg hmagic)).trans ?_
  simp only [htake, hdrop, hid, hsize, hbase, hnonce]
  refine (congrArg (fun x => exec x _) (if_neg hkeys)).trans ?_
  simp only [hfind, hdecrypt]
  refine (congrArg (fun x => exec x _) (if_neg (not_not.mpr ⟨by decide, by decide⟩))).trans ?_
  refine (exec_bind_ok hread').trans ?_
  rw [exec_bind_ok (exec_get _), hsource']

/-- **What was sealed comes back**, with any reads on either side. -/
theorem openStream_sealed (hopens : P.OpensWhatItSeals) (key : Bytes) (keys : List Bytes)
    (context : Bytes) (fresh : Fresh) {plaintext : Bytes} (hsize : (chunksOf plaintext).length ≤ 2 ^ 32)
    {keys' : List Bytes} (hfind : keys'.find? (fun k => keyId P k = keyId P key) = some key)
    (sizes sizes' : List Nat) :
    ∃ source written source' out,
      exec (sealStream P (key :: keys) context fresh) ⟨⟨plaintext, sizes⟩, []⟩ =
        (.ok ⟨plaintext.length, P.sha256 plaintext⟩, ⟨source, written⟩) ∧
      exec (openStream P keys' context) ⟨⟨written.flatten, sizes'⟩, []⟩ = (.ok (), ⟨source', out⟩) ∧
      out.flatten = plaintext := by
  obtain ⟨source, hseal⟩ := sealStream_ok (P := P) key keys context fresh hsize sizes
  rw [chunksOf, List.length_cons] at hsize
  obtain ⟨cs, hcs⟩ : ∃ cs, cs = pieces chunkBytes (plaintext.drop chunkBytes) := ⟨_, rfl⟩
  obtain ⟨source', hsource', hheader⟩ := @exec_openStream_header P key context fresh keys' hfind
    (hopens key fresh.keyNonce (authenticated P key fresh ++ context) fresh.fileKey)
    (sealedFrom P fresh.fileKey fresh.base (header P key context fresh) 0
      (plaintext.take chunkBytes :: cs)).flatten sizes' []
  have hfull : cs ≠ [] → (plaintext.take chunkBytes).length = chunkBytes := fun h => by
    rw [hcs, ne_eq, pieces_eq_nil chunkBytes_pos, List.drop_eq_nil_iff, Nat.not_le] at h
    rw [List.length_take, Nat.min_eq_left h.le]
  obtain ⟨htake, hdrop⟩ := sealedFrom_cut (P := P) fresh.fileKey fresh.base
    (header P key context fresh) 0 (List.length_take_le _ _) hfull
  rw [htake, hdrop] at hheader
  rw [hdrop] at hsource'
  rw [← hcs] at hsize
  obtain ⟨source'', out, hrun, hout⟩ := exec_records hopens fresh.fileKey fresh.base
    (header P key context fresh) (hcs ▸ cut_pieces chunkBytes_pos _) (plaintext.take chunkBytes)
    (t := ⟨source', []⟩) hsource' (Nat.lt_succ_of_le (sealedFrom_flatten_length _ _ _ _ _))
    (by omega)
  refine ⟨source, _, source'', out, hseal, ?_, ?_⟩
  · rw [List.flatten_cons, chunksOf, ← hcs]
    exact hheader.trans hrun
  · rw [hout, hcs, pieces_flatten chunkBytes_pos]
    exact List.take_append_drop _ _

end Opening

/-! ## 5. Any bytes whatever -/

/-- A file that was sealed; a sealing that broke off sealed its first `written` records only, and none
    has more than there are indices. -/
structure Sealing where
  key : Bytes
  context : Bytes
  fresh : Fresh
  plaintext : Bytes
  written : Nat
  written_le : written ≤ 2 ^ 32

namespace Sealing

variable (s : Sealing)

def chunks : List Bytes := chunksOf s.plaintext

def head : Bytes := header P s.key s.context s.fresh

/-- What was sealed under the vault's key: the file's key. -/
def wrap : Bytes × Bytes × Bytes :=
  (s.fresh.keyNonce, authenticated P s.key s.fresh ++ s.context, s.fresh.fileKey)

/-- What was sealed under the file's key: a chunk under its index and whether it is the last. -/
def records : List (Bytes × Bytes × Bytes) :=
  (List.range (min s.written s.chunks.length)).map fun i =>
    (nonceOf s.fresh.base i (i + 1 == s.chunks.length), s.head P, s.chunks.getD i [])

end Sealing

/-- `seal`: a value, not a file, under one of the vault's keys. -/
structure Token where
  key : Bytes
  nonce : Bytes
  context : Bytes
  plaintext : Bytes

def Token.sealed (t : Token) : Bytes × Bytes × Bytes :=
  (t.nonce, streamVersion ++ keyId P t.key ++ t.context, t.plaintext)

/-- **The ideal AEAD of a vault**: under each of its keys nothing opens but the file keys and the values
    it sealed, under the key of each file nothing but the file's records. -/
structure Ideal (keys : List Bytes) (sealings : List Sealing) (tokens : List Token) : Prop where
  keyed : ∀ key ∈ keys, P.SealedOnly key ((sealings.filter fun s => s.key = key).map (·.wrap P) ++
    (tokens.filter fun t => t.key = key).map (·.sealed P))
  filed : ∀ s ∈ sealings, P.SealedOnly s.fresh.fileKey (s.records P)

section Authentic

variable {P} {keys : List Bytes} {sealings : List Sealing} {tokens : List Token}

theorem nonceOf_inj {base : Bytes} {i j : Nat} {a b : Bool} (hi : i < 2 ^ 32) (hj : j < 2 ^ 32)
    (h : nonceOf base i a = nonceOf base j b) : i = j ∧ a = b := by
  rw [nonceOf, nonceOf, List.append_assoc, List.append_assoc] at h
  obtain ⟨hindex, hflag⟩ := List.append_inj (List.append_cancel_left h) (by
    rw [toBe_length, toBe_length])
  refine ⟨toBe_inj hi hj hindex, ?_⟩
  revert hflag
  cases a <;> cases b <;> decide

/-- **A record that opens** is the file's chunk of that index, and the flag is the file's. -/
theorem record_authentic {s : Sealing} (hs : P.SealedOnly s.fresh.fileKey (s.records P)) {i : Nat}
    (hi : i < 2 ^ 32) {last : Bool} {record chunk : Bytes}
    (h : P.decrypt s.fresh.fileKey (nonceOf s.fresh.base i last) (s.head P) record = some chunk) :
    i < s.chunks.length ∧ last = (i + 1 == s.chunks.length) ∧ chunk = s.chunks.getD i [] := by
  obtain ⟨j, hj, he⟩ := List.mem_map.mp ((hs _ _ _ _).mp h).1
  have hj := List.mem_range.mp hj
  have hbound := s.written_le
  obtain ⟨hnonce, hrest⟩ := Prod.mk.inj he
  obtain ⟨-, hchunk⟩ := Prod.mk.inj hrest
  obtain ⟨rfl, hflag⟩ := nonceOf_inj (by omega) hi hnonce
  exact ⟨by omega, hflag.symm, hchunk.symm⟩

/-- What an opening leaves: all of the plaintext, or a prefix of it and an error of the vault. -/
def Delivered (plaintext : Bytes) : Except Failure Unit × Stream → Prop :=
  Ends (fun _ u => u.out.flatten = plaintext)
    (fun e u => (∃ message, e = .vaultError message) ∧ u.out.flatten <+: plaintext)

theorem chunks_prefix (s : Sealing) (i : Nat) : (s.chunks.take i).flatten <+: s.plaintext := by
  refine ⟨(s.chunks.drop i).flatten, ?_⟩
  rw [← List.flatten_append, List.take_append_drop, Sealing.chunks, chunksOf_flatten]

theorem chunks_take_succ {s : Sealing} {i : Nat} (hi : i < s.chunks.length) :
    (s.chunks.take (i + 1)).flatten = (s.chunks.take i).flatten ++ s.chunks.getD i [] := by
  rw [List.take_succ_eq_append_getElem hi, List.flatten_append, List.flatten_singleton,
    List.getD_eq_getElem _ _ hi]

/-- **The opening loop over any bytes**: every turn yields the file's next chunk or raises, and it ends
    behind the file's last. -/
theorem ends_records {s : Sealing} (hs : P.SealedOnly s.fresh.fileKey (s.records P)) {recordBytes : Nat}
    (hpos : 0 < recordBytes) {fuel index : Nat} {record : Bytes} {t : Stream}
    (hfuel : t.source.rest.length < fuel) (hout : t.out.flatten = (s.chunks.take index).flatten) :
    Delivered s.plaintext (exec
      (records P s.fresh.fileKey s.fresh.base (s.head P) recordBytes fuel index
      record) t) := by
  induction fuel generalizing index record t with
  | zero => exact absurd hfuel (Nat.not_lt_zero _)
  | succ fuel ih =>
    have hprefix : t.out.flatten <+: s.plaintext := hout ▸ chunks_prefix s index
    rcases Nat.lt_or_ge record.length tagBytes with hshort | hlong
    · rw [exec_records_short _ _ _ hshort]
      exact ⟨⟨_, rfl⟩, hprefix⟩
    rcases Nat.lt_or_ge index (2 ^ 32) with hindex | hindex
    · obtain ⟨source, hsource, hturn⟩ := exec_records_succ (P := P) s.fresh.fileKey s.fresh.base
        (s.head P) recordBytes hlong hindex fuel t
      rw [hturn]
      simp only
      cases hd : P.decrypt s.fresh.fileKey (nonceOf s.fresh.base index
        (t.source.rest.take recordBytes).isEmpty) (s.head P) record with
      | none => exact ⟨⟨_, rfl⟩, hprefix⟩
      | some chunk =>
        obtain ⟨hlt, hlast, rfl⟩ := record_authentic hs hindex hd
        have hnext : (yielded t.out (s.chunks.getD index [])).flatten =
            (s.chunks.take (index + 1)).flatten := by
          rw [yielded_flatten, hout, chunks_take_succ hlt]
        simp only
        split
        · -- the last record: the file has no chunk behind it
          rename_i hempty
          rw [hempty, eq_comm, beq_iff_eq] at hlast
          show (yielded t.out (s.chunks.getD index [])).flatten = _
          rw [hnext, hlast, List.take_length, Sealing.chunks, chunksOf_flatten]
        · rename_i hne
          refine ih ?_ hnext
          have hrest : t.source.rest ≠ [] := fun h => hne (by rw [h, List.take_nil]; rfl)
          have hdrop : source.rest.length < t.source.rest.length := by
            rw [hsource, List.length_drop]
            have := List.length_pos_iff.mpr hrest
            omega
          show source.rest.length < fuel
          omega
    · obtain ⟨u, hu, hturn⟩ := exec_records_tooLarge (P := P) s.fresh.fileKey s.fresh.base (s.head P)
        recordBytes hlong hindex fuel t
      rw [hturn]
      exact ⟨⟨_, rfl⟩, hu ▸ hprefix⟩

/-- **A wrapped key that opens** is a sealed file's, and the header is that file's. -/
theorem header_authentic (h : Ideal P keys sealings tokens) {key context head nonce fileKey : Bytes}
    (hkey : key ∈ keys) (hlength : head.length = streamHeaderBytes)
    (hmagic : streamMagic ++ streamVersion <+: head)
    (hd : P.decrypt key nonce (head.take (head.length - wrappedKeyBytes) ++ context)
      (head.drop (head.length - wrappedKeyBytes)) = some fileKey) :
    ∃ s ∈ sealings, s.context = context ∧ fileKey = s.fresh.fileKey ∧ head = s.head P ∧
      head.take (head.length - wrappedKeyBytes) = authenticated P s.key s.fresh := by
  obtain ⟨hmem, hwrapped⟩ := (h.keyed key hkey _ _ _ _).mp hd
  have htake : (head.take (head.length - wrappedKeyBytes)).length =
      streamHeaderBytes - wrappedKeyBytes := by
    rw [List.length_take, hlength]
    rfl
  rcases List.mem_append.mp hmem with hmem | hmem
  · obtain ⟨s, hs, he⟩ := List.mem_map.mp hmem
    obtain ⟨hsealing, hskey⟩ := List.mem_filter.mp hs
    obtain rfl : s.key = key := of_decide_eq_true hskey
    obtain ⟨hnonce, hrest⟩ := Prod.mk.inj he
    obtain ⟨had, hfile⟩ := Prod.mk.inj hrest
    obtain ⟨hauth, hcontext⟩ := List.append_inj had (by rw [authenticated_length, htake])
    refine ⟨s, hsealing, hcontext, hfile.symm, ?_, hauth.symm⟩
    rw [← List.take_append_drop (head.length - wrappedKeyBytes) head, hwrapped, ← hauth, ← hcontext,
      ← hnonce, ← hfile]
    rfl
  · -- a value's associated data starts with the version, a file's with the magic
    obtain ⟨token, -, he⟩ := List.mem_map.mp hmem
    obtain ⟨-, hrest⟩ := Prod.mk.inj he
    obtain ⟨had, -⟩ := Prod.mk.inj hrest
    obtain ⟨tail, htail⟩ := hmagic
    have hfile : (head.take (head.length - wrappedKeyBytes) ++ context).head? = some 68 := by
      rw [hlength, ← htail]
      rfl
    have hvalue : (streamVersion ++ keyId P token.key ++ token.context).head? = some 1 := rfl
    rw [← had, hvalue] at hfile
    exact absurd hfile (by decide)

/-- **Opening any bytes.** -/
theorem ends_openStream (h : Ideal P keys sealings tokens) (context : Bytes) {t : Stream}
    (ht : t.out = []) :
    Ends (fun _ u => ∃ s ∈ sealings, s.context = context ∧ u.out.flatten = s.plaintext)
      (fun e u => (keys = [] ∨ ∃ message, e = .vaultError message) ∧ (u.out.flatten = [] ∨
        ∃ s ∈ sealings, s.context = context ∧ u.out.flatten <+: s.plaintext))
      (exec (openStream P keys context) t) := by
  have hnothing : t.out.flatten = [] := by rw [ht, List.flatten_nil]
  obtain ⟨source, -, hread⟩ := exec_nextChunk streamHeaderBytes t
  rw [openStream, exec_bind_ok hread]
  simp only
  split
  · rw [exec_bind_error (exec_throw _ _)]
    exact ⟨.inr ⟨_, rfl⟩, .inl hnothing⟩
  rename_i hhead
  rw [not_or, not_not, not_not] at hhead
  split
  · rename_i hkeys
    rw [exec_bind_error (exec_throw _ _)]
    exact ⟨.inl hkeys, .inl hnothing⟩
  split
  · exact ⟨.inr ⟨_, rfl⟩, .inl hnothing⟩
  rename_i key hfind
  have hkey := List.mem_of_find?_eq_some hfind
  split
  · exact ⟨.inr ⟨_, rfl⟩, .inl hnothing⟩
  rename_i fileKey hd
  obtain ⟨s, hsealing, hcontext, rfl, hwhole, hauth⟩ := header_authentic h hkey hhead.1 hhead.2 hd
  obtain ⟨-, hsize, hbase, -⟩ := authenticated_fields (P := P) s.key s.fresh
  rw [hauth, hsize, hbase, if_neg (not_not.mpr ⟨by decide, by decide⟩)]
  obtain ⟨source', hsource', hread'⟩ := exec_nextChunk (chunkBytes + tagBytes) { t with source }
  rw [exec_bind_ok hread', exec_bind_ok (exec_get _), hwhole]
  have hnone : t.out.flatten = (s.chunks.take 0).flatten := hnothing
  refine (ends_records (h.filed s hsealing) (by decide) (Nat.lt_succ_self _) (t := ⟨source', t.out⟩)
    hnone).mono ?_ ?_
  · intro _ u hu
    exact ⟨s, hsealing, hcontext, hu⟩
  · intro e u hu
    exact ⟨.inr hu.1, .inr ⟨s, hsealing, hcontext, hu.2⟩⟩

theorem chunksOf_length_le {plaintext : Bytes} (h : plaintext.length ≤ 2 ^ 52) :
    (chunksOf plaintext).length ≤ 2 ^ 32 := by
  rw [chunksOf, List.length_cons, pieces_length, List.length_drop, chunkBytes]
  omega

/-- **The vault's files.** A plaintext of at most 2^52 bytes comes back from what `seal_stream` wrote,
    however the reads come. And under an ideal AEAD `open_stream` yields, of any bytes, a plaintext
    that was sealed under its context, or a prefix of one and then an error of the vault
    (`ImproperlyConfigured` where there is no secret key). -/
theorem vault_files (hopens : P.OpensWhatItSeals) {Q : Primitives}
    (hideal : Ideal Q keys sealings tokens) :
    (∀ key others context fresh (plaintext : Bytes) sizes sizes', plaintext.length ≤ 2 ^ 52 →
      ∃ source written source' out,
        exec (sealStream P (key :: others) context fresh) ⟨⟨plaintext, sizes⟩, []⟩ =
          (.ok ⟨plaintext.length, P.sha256 plaintext⟩, ⟨source, written⟩) ∧
        exec (openStream P (key :: others) context) ⟨⟨written.flatten, sizes'⟩, []⟩ =
          (.ok (), ⟨source', out⟩) ∧
        out.flatten = plaintext) ∧
    ∀ context bytes sizes, match exec (openStream Q keys context) ⟨⟨bytes, sizes⟩, []⟩ with
      | (.ok _, u) => ∃ s ∈ sealings, s.context = context ∧ u.out.flatten = s.plaintext
      | (.error e, u) => (keys = [] ∨ ∃ message, e = .vaultError message) ∧ (u.out.flatten = [] ∨
          ∃ s ∈ sealings, s.context = context ∧ u.out.flatten <+: s.plaintext) := by
  refine ⟨fun key others context fresh plaintext sizes sizes' hsize => ?_,
    fun context bytes sizes => ?_⟩
  · exact openStream_sealed hopens key others context fresh (chunksOf_length_le hsize)
      (List.find?_cons_of_pos (decide_eq_true rfl)) sizes sizes'
  · have h := ends_openStream hideal context (t := ⟨⟨bytes, sizes⟩, []⟩) rfl
    revert h
    generalize exec (openStream Q keys context) ⟨⟨bytes, sizes⟩, []⟩ = outcome
    intro h
    obtain ⟨result, u⟩ := outcome
    cases result with
    | ok _ | error _ => exact h

def Fresh.plain : Fresh :=
  ⟨zeros 7, zeros 12, List.replicate 32 1, zeros_length 7, zeros_length 12, rfl⟩

/-- One key, one file, and an ideal AEAD for both. -/
theorem vault_files_small : ∃ (Q : Primitives) (s : Sealing), s.plaintext = ascii "file" ∧
    Primitives.plain.OpensWhatItSeals ∧ Ideal Q [zeros 32] [s] [] ∧
    ∀ bytes, match exec (openStream Q [zeros 32] []) ⟨⟨bytes, []⟩, []⟩ with
      | (.ok _, u) => ∃ s' ∈ [s], s'.context = [] ∧ u.out.flatten = s'.plaintext
      | (.error e, u) => ([zeros 32] = [] ∨ ∃ message, e = .vaultError message) ∧ (u.out.flatten = [] ∨
          ∃ s' ∈ [s], s'.context = [] ∧ u.out.flatten <+: s'.plaintext) := by
  let s : Sealing := ⟨zeros 32, [], .plain, ascii "file", 1, by decide⟩
  let Q := (Primitives.plain.idealised (zeros 32) [s.wrap .plain]).idealised Fresh.plain.fileKey
    (s.records .plain)
  have hne : zeros 32 ≠ Fresh.plain.fileKey := by decide
  have hkeyed : Q.SealedOnly (zeros 32) [s.wrap .plain] :=
    (Primitives.idealised_sealedOnly .plain Primitives.plain_opens _ _).idealised hne _
  have hfiled : Q.SealedOnly Fresh.plain.fileKey (s.records .plain) := by
    refine Primitives.idealised_sealedOnly_of_opens _ (fun nonce ad plaintext => ?_) _
    rw [Primitives.idealised_decrypt_of_ne _ _ _ hne.symm]
    exact Primitives.plain_opens _ nonce ad plaintext
  have hideal : Ideal Q [zeros 32] [s] [] := by
    refine ⟨fun key hkey => ?_, fun s' hs' => ?_⟩
    · rw [List.mem_singleton.mp hkey]
      exact hkeyed
    · rw [List.mem_singleton.mp hs']
      exact hfiled
  exact ⟨Q, s, rfl, Primitives.plain_opens, hideal,
    fun bytes => (vault_files Primitives.plain_opens hideal).2 [] bytes []⟩

/-- **One byte more** than 2^32 chunks, and `seal_stream` raises. -/
theorem too_large_to_seal :
    (exec (sealStream .plain [zeros 32] [] .plain) ⟨⟨zeros (2 ^ 52 + 1), []⟩, []⟩).1 =
      .error (.vaultError "This file is too large to seal.") :=
  sealStream_tooLarge (zeros 32) [] [] .plain (by rw [chunksOf_zeros_length]; omega) []

end Authentic

end Dbs.Vault

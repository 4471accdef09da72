/-
  File:      Dbs/Payload/Pieces.lean
  Subject:   THE PIECES DO NOT MATTER: the frame reader over pieces does what a reader over the bytes in
             one does, and so does the payload reader over it.

  * `unread` -- the bytes a frame reader has not taken; `unread_fill` -- filling keeps them;
  * `takeBytes`, `nextBytes` -- the same reads from bytes in one;
  * `mirrors_nextFrame` -- `nextFrame` mirrors `nextBytes`;
  * `readThrough_eq` -- reading through is a function of the concatenated bytes.
-/
import Dbs.Payload.Frames

namespace Dbs.Payload

open Octets Effects
open Json (Value)

/-! ## 1. The buffer -/

namespace FrameReader

variable {r : FrameReader} {size : Nat}

/-- The bytes not taken yet. -/
def unread (r : FrameReader) : Bytes := r.buffer.drop r.start ++ r.pieces.flatten

theorem unread_fill : (r.fill size).unread = r.unread := by
  have hfill : ∀ (pieces : List Bytes) (buffer : Bytes) (start : Nat) (h : start ≤ buffer.length),
      (fillFrom size pieces buffer start h).unread = buffer.drop start ++ pieces.flatten := by
    intro pieces
    induction pieces with
    | nil => intro buffer start h; rfl
    | cons piece pieces ih =>
      intro buffer start h
      unfold fillFrom
      split
      · rfl
      · rw [ih, List.drop_zero, List.flatten_cons, List.append_assoc]
  exact hfill _ _ _ _

/-- Filled up to a size, or to the end. -/
theorem available_fill : size ≤ (r.fill size).available ↔ size ≤ r.unread.length := by
  have hfill : ∀ (pieces : List Bytes) (buffer : Bytes) (start : Nat) (h : start ≤ buffer.length),
      size ≤ (fillFrom size pieces buffer start h).available ↔
        size ≤ (buffer.drop start ++ pieces.flatten).length := by
    intro pieces
    induction pieces with
    | nil =>
      intro buffer start h
      rw [List.flatten_nil, List.append_nil, List.length_drop]
      rfl
    | cons piece pieces ih =>
      intro buffer start h
      unfold fillFrom
      split
      · rename_i hsize
        refine ⟨fun _ => ?_, fun _ => hsize⟩
        rw [List.length_append, List.length_drop]
        omega
      · rw [ih, List.drop_zero, List.flatten_cons, List.append_assoc]
  exact hfill _ _ _ _

/-- At the end everything is in the buffer. -/
theorem available_fill_of_short (h : ¬ size ≤ r.unread.length) :
    (r.fill size).available = r.unread.length := by
  have hfill : ∀ (pieces : List Bytes) (buffer : Bytes) (start : Nat) (h : start ≤ buffer.length),
      ¬ size ≤ (buffer.drop start ++ pieces.flatten).length →
      (fillFrom size pieces buffer start h).available =
      (buffer.drop start ++ pieces.flatten).length := by
    intro pieces
    induction pieces with
    | nil =>
      intro buffer start h _
      rw [List.flatten_nil, List.append_nil, List.length_drop]
      rfl
    | cons piece pieces ih =>
      intro buffer start h hshort
      unfold fillFrom
      have hfilled : ¬ size ≤ buffer.length - start := by
        rw [List.length_append, List.length_drop] at hshort
        omega
      rw [List.flatten_cons, ← List.append_assoc] at hshort ⊢
      rw [if_neg hfilled, ih _ _ _ (by rwa [List.drop_zero]), List.drop_zero]
  exact hfill _ _ _ _ h

theorem slice_buffer (h : size ≤ r.available) :
    slice r.buffer r.start size = r.unread.take size := by
  have hlen : size ≤ (r.buffer.drop r.start).length := by rw [List.length_drop]; exact h
  rw [unread, List.take_append_of_le_length hlen]
  rfl

theorem unread_skip (h : size ≤ r.available) : (r.skip size h).unread = r.unread.drop size := by
  have hlen : size ≤ (r.buffer.drop r.start).length := by rw [List.length_drop]; exact h
  rw [unread, unread, List.drop_append_of_le_length hlen, List.drop_drop]
  rfl

theorem unread_compacted : r.compacted.unread = r.unread := by
  unfold compacted
  split
  · rfl
  · rfl

end FrameReader

/-! ## 2. Reading from bytes in one -/

def takeBytes (size : Nat) : Prog Failure Bytes Bytes := do
  let bytes ← get
  if size ≤ bytes.length then
    set (bytes.drop size)
    return bytes.take size
  else throw middleOfFrame

def nextBytes : Prog Failure Bytes (Option Frame) := do
  let bytes ← get
  if Struct.size framePrefix ≤ bytes.length then
    let (code, length, _) : Nat × Nat × Unit :=
      Struct.fields framePrefix (bytes.take (Struct.size framePrefix))
    match FrameKind.ofCode code with
    | none => throw (.malformed ("it holds an unknown frame kind " ++ toString code))
    | some kind =>
      if length > maxFrameBytes then
        throw (.malformed ("a " ++ kind.name ++ " frame claims " ++ toString length ++ " bytes"))
      set (bytes.drop (Struct.size framePrefix))
      return some ⟨kind, ← takeBytes length⟩
  else if bytes.length ≠ 0 then throw middleOfFrame
  else return none

def openBytes : Prog Failure Bytes Unit := do
  if (← takeBytes payloadMagic.length) ≠ payloadMagic then throw .notVersion2

abbrev MirrorsBytes {α : Type} (x : Prog Failure FrameReader α) (r : FrameReader)
    (y : Prog Failure Bytes α) : Prop := Mirrors FrameReader.unread id x r y r.unread

theorem mapError_id {α : Type} (x : Except Failure α) : x.mapError id = x := by
  cases x <;> rfl

theorem mirrors_take (size : Nat) (r : FrameReader) :
    MirrorsBytes (take size) r (takeBytes size) := by
  unfold MirrorsBytes Mirrors take takeBytes
  rw [exec_bind_ok (exec_get r), exec_bind_ok (exec_set r _), exec_bind_ok (exec_get r.unread)]
  by_cases h : size ≤ (r.fill size).available
  · rw [dif_pos h, if_pos (FrameReader.available_fill.mp h), exec_bind_ok (exec_set _ _),
      exec_bind_ok (exec_set _ _), FrameReader.slice_buffer h, FrameReader.unread_fill]
    refine ⟨rfl, ?_⟩
    show ((r.fill size).skip size h).compacted.unread = r.unread.drop size
    rw [FrameReader.unread_compacted, FrameReader.unread_skip, FrameReader.unread_fill]
  · rw [dif_neg h, if_neg fun h' => h (FrameReader.available_fill.mpr h')]
    exact ⟨rfl, FrameReader.unread_fill⟩

/-- **A frame from pieces is a frame from the bytes.** -/
theorem mirrors_nextFrame (r : FrameReader) : MirrorsBytes nextFrame r nextBytes := by
  unfold MirrorsBytes nextFrame nextBytes
  refine mirrors_left (exec_get r) (mirrors_left (exec_set r _) (mirrors_right (exec_get r.unread) ?_))
  have hsame : (r.fill (Struct.size framePrefix)).unread = r.unread := FrameReader.unread_fill
  by_cases h : Struct.size framePrefix ≤ (r.fill (Struct.size framePrefix)).available
  · rw [dif_pos h, if_pos (FrameReader.available_fill.mp h), FrameReader.slice_buffer h, hsame]
    obtain ⟨code, length, u⟩ : Nat × Nat × Unit :=
      Struct.fields framePrefix (r.unread.take (Struct.size framePrefix))
    show Mirrors _ _ (match FrameKind.ofCode code with
      | none => _
      | some kind => _) _ (match FrameKind.ofCode code with
      | none => _
      | some kind => _) _
    cases FrameKind.ofCode code with
    | none => exact ⟨rfl, hsame⟩
    | some kind =>
      by_cases hlong : length > maxFrameBytes
      · simp only [if_pos hlong]
        exact ⟨rfl, hsame⟩
      · simp only [if_neg hlong]
        refine mirrors_left (exec_set _ _) (mirrors_right (exec_set _ _) ?_)
        have hskip : ((r.fill (Struct.size framePrefix)).skip (Struct.size framePrefix) h).unread =
            r.unread.drop (Struct.size framePrefix) := by
          rw [FrameReader.unread_skip, hsame]
        refine mirrors_bind (mirrors_of_eq hskip (mirrors_take length _)) fun body u _ => ?_
        exact ⟨rfl, rfl⟩
  · rw [dif_neg h, if_neg fun h' => h (FrameReader.available_fill.mpr h')]
    rw [FrameReader.available_fill_of_short fun h' => h (FrameReader.available_fill.mpr h')]
    split
    · exact ⟨rfl, hsame⟩
    · exact ⟨rfl, hsame⟩

theorem mirrors_openFrames (r : FrameReader) : MirrorsBytes openFrames r openBytes := by
  refine mirrors_bind (mirrors_take _ r) fun magic u _ => ?_
  by_cases h : magic ≠ payloadMagic
  · rw [if_pos h, if_pos h]; exact ⟨rfl, rfl⟩
  · rw [if_neg h, if_neg h]; exact ⟨rfl, rfl⟩

/-! ## 3. The payload reader -/

section Reader

variable (D : Decoding)

/-- The payload reader over the bytes in one. -/
def flat (t : PayloadReader FrameReader) : PayloadReader Bytes :=
  { t with frames := t.frames.unread }

abbrev MirrorsFlat {α : Type} (x : Reading FrameReader α) (y : Reading Bytes α) : Prop :=
  ∀ t, Mirrors flat id x t y (flat t)

variable {α β : Type} {x : Reading FrameReader β} {y : Reading Bytes β}
  {f : β → Reading FrameReader α} {g : β → Reading Bytes α}

theorem mirrorsFlat_bind (hx : MirrorsFlat x y) (hf : ∀ b, MirrorsFlat (f b) (g b)) :
    MirrorsFlat (x >>= f) (y >>= g) :=
  fun t => mirrors_bind (hx t) fun b u _ => hf b u

theorem mirrorsFlat_pure (a : α) : MirrorsFlat (pure a) (pure a) := fun _ => ⟨rfl, rfl⟩

theorem mirrorsFlat_throw (e : Failure) :
    MirrorsFlat (throw e : Reading FrameReader α) (throw e) := fun _ => ⟨rfl, rfl⟩

theorem mirrorsFlat_give (v : Except Failure α) : MirrorsFlat (give v) (give v) := by
  intro t
  rw [Mirrors, exec_give, exec_give]
  exact ⟨(mapError_id v).symm, rfl⟩

/-- Reading a field that the frames have no part in. -/
theorem mirrorsFlat_get {f : PayloadReader FrameReader → Reading FrameReader α}
    {g : PayloadReader Bytes → Reading Bytes α}
    (h : ∀ t, Mirrors flat id (f t) t (g (flat t)) (flat t)) :
    MirrorsFlat (get >>= f) (get >>= g) :=
  fun t => mirrors_left (exec_get t) (mirrors_right (exec_get (flat t)) (h t))

theorem mirrorsFlat_modify {f : PayloadReader FrameReader → PayloadReader FrameReader}
    {g : PayloadReader Bytes → PayloadReader Bytes} (h : ∀ t, flat (f t) = g (flat t)) :
    MirrorsFlat (modify f) (modify g) := fun t => ⟨rfl, h t⟩

theorem mirrorsFlat_next : MirrorsFlat
    (focus PayloadReader.frames (fun t frames => { t with frames }) nextFrame)
    (focus PayloadReader.frames (fun t frames => { t with frames }) nextBytes) := by
  intro t
  obtain ⟨h1, h2⟩ := mirrors_nextFrame t.frames
  rw [Mirrors, exec_focus, exec_focus]
  exact ⟨h1, congrArg (fun frames => ({ flat t with frames } : PayloadReader Bytes)) h2⟩

theorem mirrorsFlat_peek : MirrorsFlat (peek nextFrame) (peek nextBytes) := by
  refine mirrorsFlat_get fun t => ?_
  rw [show (flat t).pending = t.pending from rfl]
  cases t.pending with
  | some found => exact ⟨rfl, rfl⟩
  | none =>
    refine mirrorsFlat_bind mirrorsFlat_next (fun found => ?_) t
    cases found with
    | none => exact mirrorsFlat_throw _
    | some found => exact mirrorsFlat_bind (mirrorsFlat_modify fun _ => rfl) fun _ => mirrorsFlat_pure _

theorem mirrorsFlat_takeFrame : MirrorsFlat (takeFrame nextFrame) (takeFrame nextBytes) :=
  mirrorsFlat_bind mirrorsFlat_peek fun _ =>
    mirrorsFlat_bind (mirrorsFlat_modify fun _ => rfl) fun _ => mirrorsFlat_pure _

theorem mirrorsFlat_ite {c : Prop} [Decidable c] {x' : Reading FrameReader β} {y' : Reading Bytes β}
    (hx : MirrorsFlat x y) (hy : MirrorsFlat x' y') :
    MirrorsFlat (if c then x else x') (if c then y else y') := by
  split
  · exact hx
  · exact hy

theorem mirrorsFlat_expect (phase : Phase) : MirrorsFlat (expect phase) (expect phase) := by
  refine mirrorsFlat_get fun t => ?_
  exact mirrorsFlat_ite (c := t.phase ≠ phase) (mirrorsFlat_throw _) (mirrorsFlat_pure _) t

theorem mirrorsFlat_parsed (value : Option Value) (what : String) :
    MirrorsFlat (parsed value what) (parsed value what) := by
  cases value with
  | none => exact mirrorsFlat_throw _
  | some value => exact mirrorsFlat_pure _

theorem mirrorsFlat_readHeader : MirrorsFlat (readHeader D nextFrame) (readHeader D nextBytes) := by
  refine mirrorsFlat_bind (mirrorsFlat_expect _) fun _ => mirrorsFlat_bind mirrorsFlat_takeFrame
    fun found => mirrorsFlat_ite (mirrorsFlat_throw _) ?_
  refine mirrorsFlat_bind (mirrorsFlat_parsed _ _) fun value => mirrorsFlat_bind (mirrorsFlat_give _)
    fun header => mirrorsFlat_modify fun _ => rfl

theorem mirrorsFlat_readItems (body : Bytes) : MirrorsFlat (readItems D body) (readItems D body) := by
  refine mirrorsFlat_bind (mirrorsFlat_parsed _ _) fun value => ?_
  cases items value with
  | none => exact mirrorsFlat_throw _
  | some values =>
    refine mirrorsFlat_bind (mirrorsFlat_give _) fun entries =>
      mirrorsFlat_bind (mirrorsFlat_modify fun _ => rfl) fun _ => mirrorsFlat_get fun t => ?_
    exact mirrorsFlat_ite (c := t.entries.length > maxFiles) (mirrorsFlat_throw _)
      (mirrorsFlat_pure _) t

theorem mirrorsFlat_readManifests (fuel : Nat) :
    MirrorsFlat (readManifests D nextFrame fuel) (readManifests D nextBytes fuel) := by
  induction fuel with
  | zero => exact mirrorsFlat_throw _
  | succ fuel ih =>
    refine mirrorsFlat_bind mirrorsFlat_peek fun found => mirrorsFlat_ite ?_ (mirrorsFlat_pure _)
    exact mirrorsFlat_bind mirrorsFlat_takeFrame fun found =>
      mirrorsFlat_bind (mirrorsFlat_readItems D _) fun _ => ih

theorem mirrorsFlat_readManifest (fuel : Nat) :
    MirrorsFlat (readManifest D nextFrame fuel) (readManifest D nextBytes fuel) :=
  mirrorsFlat_bind (mirrorsFlat_expect _) fun _ =>
    mirrorsFlat_bind (mirrorsFlat_readManifests D fuel) fun _ => mirrorsFlat_modify fun _ => rfl

theorem mirrorsFlat_readChunks (index : Nat) (entry : FileEntry) (fuel : Nat) (chunks : List Bytes) :
    MirrorsFlat (readChunks D nextFrame index entry fuel chunks)
      (readChunks D nextBytes index entry fuel chunks) := by
  induction fuel generalizing chunks with
  | zero => exact mirrorsFlat_throw _
  | succ fuel ih =>
    refine mirrorsFlat_bind mirrorsFlat_takeFrame fun found => ?_
    cases found.kind with
    | fileData => exact mirrorsFlat_ite (mirrorsFlat_throw _) (ih _)
    | fileEnd => exact mirrorsFlat_bind (mirrorsFlat_parsed _ _) fun _ => mirrorsFlat_give _
    | header => exact mirrorsFlat_throw _
    | manifest => exact mirrorsFlat_throw _
    | records => exact mirrorsFlat_throw _
    | trailer => exact mirrorsFlat_throw _

theorem mirrorsFlat_readFilesFrom (fuel : Nat) (entries : List FileEntry) (index : Nat) :
    MirrorsFlat (readFilesFrom D nextFrame fuel index entries)
      (readFilesFrom D nextBytes fuel index entries) := by
  induction entries generalizing index with
  | nil => exact mirrorsFlat_pure _
  | cons entry entries ih =>
    exact mirrorsFlat_bind (mirrorsFlat_readChunks D _ _ _ _) fun file =>
      mirrorsFlat_bind (ih _) fun files => mirrorsFlat_pure _

theorem mirrorsFlat_readFiles (fuel : Nat) :
    MirrorsFlat (readFiles D nextFrame fuel) (readFiles D nextBytes fuel) := by
  refine mirrorsFlat_bind (mirrorsFlat_expect _) fun _ => mirrorsFlat_get fun t => ?_
  exact mirrorsFlat_bind (mirrorsFlat_readFilesFrom D _ t.entries _) (fun files =>
    mirrorsFlat_bind (mirrorsFlat_modify fun _ => rfl) fun _ => mirrorsFlat_pure _) t

theorem mirrorsFlat_readBatches (fuel : Nat) :
    MirrorsFlat (readBatches D nextFrame fuel) (readBatches D nextBytes fuel) := by
  induction fuel with
  | zero => exact mirrorsFlat_throw _
  | succ fuel ih =>
    refine mirrorsFlat_bind mirrorsFlat_peek fun found => mirrorsFlat_ite ?_ (mirrorsFlat_pure _)
    refine mirrorsFlat_bind mirrorsFlat_takeFrame fun found =>
      mirrorsFlat_bind (mirrorsFlat_parsed _ _) fun value => mirrorsFlat_get fun t => ?_
    refine mirrors_bind (mirrorsFlat_give (checkedRecords t.order value t.position) t)
      fun r u hr => ?_
    obtain rfl : t = u := by rw [exec_give] at hr; exact (Prod.mk.inj hr).2
    refine mirrors_left (exec_set t _) (mirrors_right (exec_set (flat t) _) ?_)
    exact mirrorsFlat_bind ih (fun batches => mirrorsFlat_pure _) _

theorem mirrorsFlat_recordBatches (fuel : Nat) :
    MirrorsFlat (recordBatches D nextFrame fuel) (recordBatches D nextBytes fuel) :=
  mirrorsFlat_bind (mirrorsFlat_expect _) fun _ =>
    mirrorsFlat_bind (mirrorsFlat_readBatches D fuel) fun _ =>
      mirrorsFlat_bind (mirrorsFlat_modify fun _ => rfl) fun _ => mirrorsFlat_pure _

theorem mirrorsFlat_readTrailer : MirrorsFlat (readTrailer D nextFrame) (readTrailer D nextBytes) := by
  refine mirrorsFlat_bind (mirrorsFlat_expect _) fun _ => mirrorsFlat_bind mirrorsFlat_takeFrame
    fun found => mirrorsFlat_ite (mirrorsFlat_throw _) ?_
  exact mirrorsFlat_bind (mirrorsFlat_parsed _ _) fun value => mirrorsFlat_bind (mirrorsFlat_give _)
    fun trailer => mirrorsFlat_modify fun _ => rfl

theorem mirrorsFlat_finish : MirrorsFlat (finish nextFrame) (finish nextBytes) := by
  refine mirrorsFlat_bind (mirrorsFlat_expect _) fun _ => mirrorsFlat_bind mirrorsFlat_next
    fun found => ?_
  cases found with
  | some found => exact mirrorsFlat_throw _
  | none => exact mirrorsFlat_modify fun _ => rfl

theorem mirrorsFlat_readPayload (fuel : Nat) :
    MirrorsFlat (readPayload D nextFrame fuel) (readPayload D nextBytes fuel) :=
  mirrorsFlat_bind (mirrorsFlat_readHeader D) fun _ =>
    mirrorsFlat_bind (mirrorsFlat_readManifest D fuel) fun _ =>
      mirrorsFlat_bind (mirrorsFlat_readFiles D fuel) fun _ =>
        mirrorsFlat_bind (mirrorsFlat_recordBatches D fuel) fun _ =>
          mirrorsFlat_bind (mirrorsFlat_readTrailer D) fun _ =>
            mirrorsFlat_bind mirrorsFlat_finish fun _ => mirrorsFlat_get fun _ => ⟨rfl, rfl⟩

end Reader

/-- A payload read through from its bytes in one. -/
def readBytes (D : Decoding) (bytes : Bytes) : Except Failure Contents :=
  match exec openBytes bytes with
  | (.error e, _) => .error e
  | (.ok _, frames) => (exec (readPayload D nextBytes (bytes.length + 1)) { frames }).1

/-- A program behind the magic does with pieces what it does with the bytes in one. -/
theorem opened_eq {α : Type} {x : Reading FrameReader α} {y : Reading Bytes α} (h : MirrorsFlat x y)
    (pieces : List Bytes) :
    (match exec openFrames (FrameReader.ofPieces pieces) with
      | (.error e, _) => .error e
      | (.ok _, frames) => (exec x { frames }).1 : Except Failure α) =
    (match exec openBytes pieces.flatten with
      | (.error e, _) => .error e
      | (.ok _, frames) => (exec y { frames }).1) := by
  have hopen := mirrors_openFrames (FrameReader.ofPieces pieces)
  have hunread : (FrameReader.ofPieces pieces).unread = pieces.flatten := rfl
  obtain ⟨hresult, hrest⟩ := hopen
  rw [hunread] at hresult hrest
  cases hx : exec openFrames (FrameReader.ofPieces pieces) with
  | mk r frames =>
    cases hy : exec openBytes pieces.flatten with
    | mk r' bytes =>
      rw [hx, hy, mapError_id] at hresult
      rw [hx, hy] at hrest
      obtain rfl : r = r' := hresult
      obtain rfl : frames.unread = bytes := hrest
      cases r with
      | error e => rfl
      | ok u =>
        have hpayload := (h { frames }).1
        rw [mapError_id] at hpayload
        exact hpayload

/-- **Reading through is a function of the concatenated bytes.** -/
theorem readThrough_eq (D : Decoding) (pieces : List Bytes) :
    readThrough D pieces = readBytes D pieces.flatten :=
  opened_eq (mirrorsFlat_readPayload D (fuelFor pieces)) pieces

end Dbs.Payload

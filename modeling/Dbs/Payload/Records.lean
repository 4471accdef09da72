/-
  File:      Dbs/Payload/Records.lean
  Subject:   RECORDS IN BATCHES (serialize.py, framed_records, Pages and serialize_batches; the loop
             over them in engine/backup.py): rows page by page, records in batches, a frame each.

  The rows of a query, its order by primary key and the serializer are outside the code and parameters
  here: `table` lists the rows, `encode` gives the pieces of a row's record.

  * `framedRecords`, `frameParts` -- a batch as pieces, and the frame around them;
    `frameParts_flatten` -- joined they are the frame of the JSON array of its records;
  * `Query.pages` -- pages by key or from one iterator, of sizes that follow what was measured;
    `pages_flatten` -- every row once, in order;
  * `batched`, `Good` -- the batches, and what holds of each; `batched_good`, `batched_all`;
  * `emitRecords` -- the frames of a model; `Framed` -- what they are to be; `emitRecords_framed`,
    `emitRecords_refused`;
  * `readBack` -- the frames read again; `readBack_of_plain`, `plain_of_readBack`;
  * `batching_keeps_iff` -- every row is kept where each primary key is a plain value, and only there;
    `composite_key` -- a record with a list for its key.
-/
import Dbs.Payload.Accepted

namespace Dbs.Payload

open Octets Effects
open Json (Value Text)

/-! ## 1. A batch as a frame -/

/-- `SPLICED_VALUE_BYTES`. -/
def splicedValueBytes : Nat := 1024 * 1024

def smallPieceBytes : Nat := 1024 * 1024

def openBracket : Bytes := ascii "["

def comma : Bytes := ascii ","

def closeBracket : Bytes := ascii "]"

/-- `record_size`. -/
def recordSize (pieces : List Bytes) : Nat := (pieces.map List.length).sum

/-- The pieces so far, and the small ones that are still to be joined. -/
structure Framing where
  pieces : List Bytes := []
  small : List Bytes := []

def Framing.addPiece (f : Framing) (piece : Bytes) : Framing :=
  if piece.length < splicedValueBytes then { f with small := f.small ++ [piece] }
  else ⟨f.pieces ++ [f.small.flatten, piece], []⟩

def Framing.addRecord (f : Framing) (entry : List Bytes × Nat) : Framing :=
  let (record, index) := entry
  let f := if index ≠ 0 then { f with small := f.small ++ [comma] } else f
  record.foldl Framing.addPiece f

def framedRecords (batch : List (List Bytes)) : List Bytes :=
  let f := batch.zipIdx.foldl Framing.addRecord { small := [openBracket] }
  (f.pieces ++ [(f.small ++ [closeBracket]).flatten]).filter (· ≠ [])

/-- `frame_parts`; above the limit it raises. -/
def frameParts (kind : FrameKind) (pieces : List Bytes) : Option (List Bytes) :=
  let length := recordSize pieces
  if length > maxFrameBytes then none
  else
    let head : Struct.Values framePrefix := (kind.code, length, ())
    let start := Struct.pack framePrefix head
    match pieces with
    | first :: rest => if first.length ≤ smallPieceBytes then some ((start ++ first) :: rest)
        else some (start :: first :: rest)
    | [] => some [start]

/-- The JSON array of records, from their texts. -/
def arrayText (records : List Bytes) : Bytes :=
  openBracket ++ (List.intersperse comma records).flatten ++ closeBracket

theorem recordSize_eq (pieces : List Bytes) : recordSize pieces = pieces.flatten.length :=
  List.length_flatten.symm

/-- What the pieces and the small ones spell. -/
def Framing.spelled (f : Framing) : Bytes := f.pieces.flatten ++ f.small.flatten

theorem spelled_addPiece (f : Framing) (piece : Bytes) :
    (f.addPiece piece).spelled = f.spelled ++ piece := by
  rw [Framing.addPiece, Framing.spelled]
  split
  · rw [List.flatten_append, List.flatten_singleton, Framing.spelled, List.append_assoc]
  · simp [Framing.spelled]

theorem spelled_addPieces (f : Framing) (record : List Bytes) :
    (record.foldl Framing.addPiece f).spelled = f.spelled ++ record.flatten := by
  induction record generalizing f with
  | nil => simp
  | cons piece record ih =>
    rw [List.foldl_cons, ih, spelled_addPiece, List.flatten_cons, List.append_assoc]

theorem spelled_addRecord (f : Framing) (record : List Bytes) (index : Nat) :
    (f.addRecord (record, index)).spelled =
      f.spelled ++ (if index = 0 then [] else comma) ++ record.flatten := by
  rw [Framing.addRecord, spelled_addPieces]
  by_cases h : index = 0
  · rw [if_neg (not_not.mpr h), if_pos h, List.append_nil]
  · rw [if_pos h, if_neg h, Framing.spelled, List.flatten_append, List.flatten_singleton,
      Framing.spelled, List.append_assoc, List.append_assoc, List.append_assoc, List.append_assoc]

/-- Records after the first, each behind a comma. -/
theorem spelled_records (f : Framing) (batch : List (List Bytes)) (index : Nat) (hindex : index ≠ 0) :
    ((batch.zipIdx index).foldl Framing.addRecord f).spelled =
      f.spelled ++ batch.flatMap fun record => comma ++ record.flatten := by
  induction batch generalizing f index with
  | nil => simp
  | cons record batch ih =>
    rw [List.zipIdx_cons, List.foldl_cons, ih _ _ (Nat.succ_ne_zero index), spelled_addRecord,
      if_neg hindex, List.flatMap_cons, List.append_assoc, List.append_assoc, List.append_assoc]

theorem intersperse_comma (record : Bytes) (records : List Bytes) :
    (List.intersperse comma (record :: records)).flatten = record ++ records.flatMap (comma ++ ·) := by
  induction records generalizing record with
  | nil => simp
  | cons next records ih =>
    rw [List.intersperse_cons_cons, List.flatten_cons, List.flatten_cons, ih, List.flatMap_cons,
      List.append_assoc]

theorem flatten_filter_ne_nil (pieces : List Bytes) :
    (pieces.filter (· ≠ [])).flatten = pieces.flatten := by
  induction pieces with
  | nil => rfl
  | cons piece pieces ih =>
    rw [List.filter_cons]
    split
    · rw [List.flatten_cons, List.flatten_cons, ih]
    · rename_i h
      have hnil : piece = [] := by simpa using h
      rw [ih, List.flatten_cons, hnil, List.nil_append]

/-- **A batch spells the JSON array of its records.** -/
theorem framedRecords_flatten (batch : List (List Bytes)) :
    (framedRecords batch).flatten = arrayText (batch.map List.flatten) := by
  have hspelled : (batch.zipIdx.foldl Framing.addRecord { small := [openBracket] }).spelled =
      openBracket ++ (List.intersperse comma (batch.map List.flatten)).flatten := by
    cases batch with
    | nil => rfl
    | cons record batch =>
      rw [List.zipIdx_cons, List.foldl_cons, spelled_records _ _ _ (Nat.succ_ne_zero 0),
        spelled_addRecord, if_pos rfl, List.map_cons, intersperse_comma, List.append_nil,
        List.flatMap_map, ← List.append_assoc]
      rfl
  rw [framedRecords, arrayText, ← hspelled, flatten_filter_ne_nil, List.flatten_append,
    List.flatten_singleton, List.flatten_append, List.flatten_singleton, Framing.spelled,
    List.append_assoc]

/-- The bytes of a batch's frame, without its prefix. -/
def bodyLength (batch : List (List Bytes)) : Nat :=
  (batch.map recordSize).sum + (batch.length - 1) + 2

theorem arrayText_length (records : List Bytes) :
    (arrayText records).length = (records.map List.length).sum + (records.length - 1) + 2 := by
  have hjoined : (List.intersperse comma records).flatten.length =
      (records.map List.length).sum + (records.length - 1) := by
    cases records with
    | nil => rfl
    | cons record records =>
      have hcommas : (records.flatMap (comma ++ ·)).length =
          (records.map List.length).sum + records.length := by
        induction records with
        | nil => rfl
        | cons next records ih =>
          rw [List.flatMap_cons, List.length_append, ih, List.length_append, List.map_cons,
            List.sum_cons, List.length_cons]
          have : comma.length = 1 := rfl
          omega
      rw [intersperse_comma, List.length_append, hcommas, List.map_cons, List.sum_cons,
        List.length_cons]
      omega
  rw [arrayText, List.length_append, List.length_append, hjoined]
  have h1 : openBracket.length = 1 := rfl
  have h2 : closeBracket.length = 1 := rfl
  omega

theorem framedRecords_size (batch : List (List Bytes)) :
    recordSize (framedRecords batch) = bodyLength batch := by
  have hsizes : (batch.map List.flatten).map List.length = batch.map recordSize := by
    rw [List.map_map]
    exact List.map_congr_left fun record _ => (recordSize_eq record).symm
  rw [recordSize_eq, framedRecords_flatten, arrayText_length, hsizes, List.length_map, bodyLength]

/-- **The parts of a frame spell the frame**, and there are none exactly above the limit. -/
theorem frameParts_flatten (kind : FrameKind) (pieces : List Bytes) :
    (frameParts kind pieces).map List.flatten =
      if maxFrameBytes < pieces.flatten.length then none
      else some (Frame.mk kind pieces.flatten).bytes := by
  rw [frameParts, recordSize_eq]
  split
  · rfl
  · have hbytes : (Frame.mk kind pieces.flatten).bytes =
        (let head : Struct.Values framePrefix := (kind.code, pieces.flatten.length, ())
         Struct.pack framePrefix head) ++ pieces.flatten := rfl
    rw [hbytes]
    cases pieces with
    | nil => simp
    | cons first rest =>
      simp only
      split
      · rw [Option.map_some, List.flatten_cons, List.flatten_cons, List.append_assoc]
      · rw [Option.map_some, List.flatten_cons]

/-! ## 2. Pages -/

/-- `FETCH_BYTES_TARGET`. -/
def fetchBytesTarget : Nat := 16 * 1024 * 1024

/-- `Pages.measured`: the size of the next page, from the bytes of the last one. -/
def measured (rows size encodedBytes count : Nat) : Nat :=
  let mean := max 1 (encodedBytes / max 1 count)
  max 1 (min rows (min (size * 2) (fetchBytesTarget / mean)))

/-- What `Pages` knows of its query: whether it can be read by key, and whether the model has heavy
    fields. -/
structure Query where
  keyset : Bool
  heavy : Bool

section Pages

variable {ρ κ : Type} [LinearOrder κ] (pk : ρ → κ) (encode : ρ → List Bytes) (rows : Nat)

/-- The size after a page was handed over, encoded and measured. -/
def nextSize (size : Nat) (chunk : List ρ) : Nat :=
  measured rows size (chunk.map fun row => recordSize (encode row)).sum chunk.length

/-- `queryset.filter(pk__gt=last)`, or all of it before the first page. -/
def after (table : List ρ) : Option κ → List ρ
  | none => table
  | some last => table.filter fun row => last < pk row

/-- The loop by key. -/
def keysetPages (table : List ρ) : (fuel size : Nat) → (last : Option κ) → Option (List (List ρ))
  | 0, _, _ => none
  | fuel + 1, size, last =>
    let chunk := (after pk table last).take size
    match chunk.getLast? with
    | none => some []
    | some row =>
      if chunk.length < size then some [chunk]
      else (keysetPages table fuel (nextSize encode rows size chunk) (some (pk row))).map (chunk :: ·)

/-- `_iterated`: pages from one iterator. -/
def iteratedPages : (size : Nat) → (chunk : List ρ) → List ρ → List (List ρ)
  | _, chunk, [] => if chunk = [] then [] else [chunk]
  | size, chunk, row :: table =>
    let chunk := chunk ++ [row]
    if size ≤ chunk.length then chunk :: iteratedPages (nextSize encode rows size chunk) [] table
    else iteratedPages size chunk table

def Query.pages (q : Query) (table : List ρ) : Option (List (List ρ)) :=
  let size := if q.heavy then 1 else rows
  if q.keyset then keysetPages pk encode rows table (table.length + 1) size none
  else some (iteratedPages encode rows size [] table)

theorem nextSize_pos (size : Nat) (chunk : List ρ) : 0 < nextSize encode rows size chunk :=
  Nat.lt_of_lt_of_le Nat.zero_lt_one (Nat.le_max_left _ _)

/-- Behind the last row of a page stand the rows that are left. -/
theorem after_last {table done chunk rest : List ρ} {row : ρ} (htable : table = done ++ (chunk ++ rest))
    (hsorted : table.Pairwise fun a b => pk a < pk b) (hlast : chunk.getLast? = some row) :
    after pk table (some (pk row)) = rest := by
  obtain ⟨front, rfl⟩ := List.getLast?_eq_some_iff.mp hlast
  rw [htable, ← List.append_assoc, ← List.append_assoc] at hsorted
  obtain ⟨hfront, -, hrest⟩ := List.pairwise_append.mp hsorted
  obtain ⟨-, -, hbefore⟩ := List.pairwise_append.mp hfront
  have hnone : (done ++ front).filter (fun other => pk row < pk other) = [] := by
    rw [List.filter_eq_nil_iff]
    intro other hother
    have hlt := hbefore other hother row List.mem_cons_self
    simpa using hlt.le
  have hall : rest.filter (fun other => pk row < pk other) = rest := by
    rw [List.filter_eq_self]
    intro other hother
    have hlt := hrest row (List.mem_append_right _ List.mem_cons_self) other hother
    simpa using hlt
  rw [after, htable, ← List.append_assoc, ← List.append_assoc, List.filter_append, List.filter_append,
    hnone, hall, List.filter_cons, if_neg (by simp)]
  rfl

/-- **The pages by key**: by induction on the fuel, with the rows before the page done. -/
theorem keysetPages_run {table : List ρ} (hsorted : table.Pairwise fun a b => pk a < pk b) (fuel : Nat)
    {size : Nat} (last : Option κ) (done : List ρ) {rest : List ρ} (htable : table = done ++ rest)
    (hafter : after pk table last = rest) (hfuel : rest.length < fuel) (hsize : 0 < size) :
    ∃ pages, keysetPages pk encode rows table fuel size last = some pages ∧ pages.flatten = rest := by
  induction fuel generalizing size last done rest with
  | zero => exact absurd hfuel (Nat.not_lt_zero _)
  | succ fuel ih =>
    rw [keysetPages, hafter]
    cases hlast : (rest.take size).getLast? with
    | none =>
      have hnil : rest.take size = [] := List.getLast?_eq_none_iff.mp hlast
      refine ⟨[], rfl, ?_⟩
      rw [List.take_eq_nil_iff] at hnil
      exact (hnil.resolve_left (Nat.pos_iff_ne_zero.mp hsize)).symm
    | some row =>
      simp only
      split
      · rename_i hshort
        rw [List.length_take] at hshort
        exact ⟨_, rfl, by rw [List.flatten_singleton, List.take_of_length_le (by omega)]⟩
      · rename_i hfull
        rw [List.length_take] at hfull
        have htable' : table = done ++ (rest.take size ++ rest.drop size) := by
          rw [List.take_append_drop, htable]
        obtain ⟨pages, hpages, hflatten⟩ := ih (some (pk row)) (done ++ rest.take size)
          (by rw [List.append_assoc]; exact htable') (after_last pk htable' hsorted hlast)
          (by rw [List.length_drop]; omega) (nextSize_pos encode rows size (rest.take size))
        refine ⟨rest.take size :: pages, by rw [hpages]; rfl, ?_⟩
        rw [List.flatten_cons, hflatten, List.take_append_drop]

theorem iteratedPages_flatten (size : Nat) (chunk table : List ρ) :
    (iteratedPages encode rows size chunk table).flatten = chunk ++ table := by
  induction table generalizing size chunk with
  | nil =>
    rw [iteratedPages]
    split
    · rename_i h
      rw [h]
      rfl
    · rw [List.flatten_singleton, List.append_nil]
  | cons row table ih =>
    rw [iteratedPages]
    split
    · rw [List.flatten_cons, ih, List.nil_append, List.append_assoc]
      rfl
    · rw [ih, List.append_assoc]
      rfl

/-- **Every row is on one page**, in order. -/
theorem pages_flatten (q : Query) {table : List ρ} (hrows : 0 < rows)
    (hsorted : q.keyset = true → table.Pairwise fun a b => pk a < pk b) :
    ∃ pages, q.pages pk encode rows table = some pages ∧ pages.flatten = table := by
  have hsize : 0 < if q.heavy then 1 else rows := by split <;> omega
  rw [Query.pages]
  cases hkeyset : q.keyset with
  | true =>
    exact keysetPages_run pk encode rows (hsorted hkeyset) (table.length + 1) none [] rfl rfl
      (Nat.lt_succ_self _) hsize
  | false => exact ⟨_, rfl, iteratedPages_flatten encode rows _ [] table⟩

end Pages

/-! ## 3. Batches -/

structure Limits where
  rows : Nat
  limit : Option Nat
  budget : Nat

def Limits.ceiling (l : Limits) : Nat := l.limit.elim l.budget (min l.budget)

inductive RecordsFailure (ρ : Type)
  /-- The row serializes to so many bytes, above the limit for one row. -/
  | rowAboveLimit (row : ρ) (size limit : Nat)
  /-- A records frame of so many bytes is above the limit. -/
  | frameAboveLimit (length : Nat)

section Batches

variable {ρ : Type} (l : Limits)

/-- The loop over the rows with their records; it gives the batches, and the failure that ended it. -/
def batched : List (ρ × List Bytes) → (batch : List (List Bytes)) → (size : Nat) →
    List (List (List Bytes)) × Option (RecordsFailure ρ)
  | [], batch, _ => (if batch = [] then [] else [batch], none)
  | (row, pieces) :: more, batch, size =>
    let length := recordSize pieces
    match l.limit.filter fun limit => limit < length + 2 with
    | some limit => ([], some (.rowAboveLimit row (length + 2) limit))
    | none =>
      if batch ≠ [] ∧ (l.ceiling < size + length + batch.length + 2 ∨ l.rows ≤ batch.length) then
        let (batches, failure) := batched more [pieces] length
        (batch :: batches, failure)
      else batched more (batch ++ [pieces]) (size + length)

theorem batched_nil (batch : List (List Bytes)) (size : Nat) :
    batched l ([] : List (ρ × List Bytes))
      batch size = (if batch = [] then [] else [batch], none) := rfl

theorem batched_cons (row : ρ) (pieces : List Bytes) (more : List (ρ × List Bytes))
    (batch : List (List Bytes)) (size : Nat) :
    batched l ((row, pieces) :: more) batch size =
      match l.limit.filter fun limit => limit < recordSize pieces + 2 with
      | some limit => ([], some (.rowAboveLimit row (recordSize pieces + 2) limit))
      | none =>
        if batch ≠ [] ∧ (l.ceiling < size + recordSize pieces + batch.length + 2 ∨
            l.rows ≤ batch.length) then
          let (batches, failure) := batched l more [pieces] (recordSize pieces)
          (batch :: batches, failure)
        else batched l more (batch ++ [pieces]) (size + recordSize pieces) := rfl

/-- **A batch as it should be**: some records, not too many, and not too long unless it is one alone. -/
structure Good (batch : List (List Bytes)) : Prop where
  pos : 0 < batch.length
  rows : batch.length ≤ l.rows
  size : bodyLength batch ≤ l.ceiling ∨ batch.length = 1

variable {l}

theorem good_single (hrows : 0 < l.rows) (pieces : List Bytes) : Good l [pieces] :=
  ⟨Nat.zero_lt_one, hrows, .inr rfl⟩

/-- A record joins the batch where it fits. -/
theorem good_concat {batch : List (List Bytes)} {pieces : List Bytes} (hrows : 0 < l.rows)
    (h : ¬ (batch ≠ [] ∧
      (l.ceiling < (batch.map recordSize).sum + recordSize pieces + batch.length + 2 ∨
        l.rows ≤ batch.length))) : Good l (batch ++ [pieces]) := by
  by_cases hnil : batch = []
  · rw [hnil]
    exact good_single hrows pieces
  · have hfits := not_or.mp fun hor => h ⟨hnil, hor⟩
    refine ⟨by rw [List.length_append]; exact Nat.zero_lt_succ _, ?_, .inl ?_⟩
    · rw [List.length_append, List.length_singleton]
      omega
    · rw [bodyLength, List.map_append, List.sum_append, List.length_append, List.map_singleton,
        List.sum_singleton, List.length_singleton]
      omega

/-- **Every batch is good**, a failure or not: by induction on the rows, with the batch that is being
    filled and its size. -/
theorem batched_good (hrows : 0 < l.rows) (entries : List (ρ × List Bytes)) {batch : List (List Bytes)}
    {size : Nat} (hsize : size = (batch.map recordSize).sum) (hbatch : batch = [] ∨ Good l batch) :
    ∀ b ∈ (batched l entries batch size).1, Good l b := by
  induction entries generalizing batch size with
  | nil =>
    rw [batched_nil]
    split
    · exact fun b hb => absurd hb List.not_mem_nil
    · rename_i hne
      intro b hb
      rw [List.mem_singleton.mp hb]
      exact hbatch.resolve_left hne
  | cons entry more ih =>
    obtain ⟨row, pieces⟩ := entry
    rw [batched_cons]
    split
    · exact fun b hb => absurd hb List.not_mem_nil
    · split
      · rename_i hflush
        intro b hb
        rcases List.mem_cons.mp hb with rfl | hb
        · exact hbatch.resolve_left hflush.1
        · exact ih (by simp) (.inr (good_single hrows pieces)) b hb
      · rename_i hkeep
        rw [hsize] at hkeep ⊢
        exact ih (by simp) (.inr (good_concat hrows hkeep))

/-- Nothing is in a batch but the records. -/
theorem batched_mem (entries : List (ρ × List Bytes)) (batch : List (List Bytes)) (size : Nat) :
    ∀ b ∈ (batched l entries batch size).1, ∀ pieces ∈ b,
      pieces ∈ batch ∨ ∃ row, (row, pieces) ∈ entries := by
  induction entries generalizing batch size with
  | nil =>
    rw [batched_nil]
    split
    · exact fun b hb => absurd hb List.not_mem_nil
    · intro b hb pieces hp
      rw [List.mem_singleton.mp hb] at hp
      exact .inl hp
  | cons entry more ih =>
    obtain ⟨row, pieces⟩ := entry
    have hmore : ∀ {b : List (List Bytes)} {found : List Bytes},
        (found ∈ b ∨ ∃ other, (other, found) ∈ more) →
        (∀ p ∈ b, p ∈ batch ∨ p = pieces) →
        found ∈ batch ∨ ∃ other, (other, found) ∈ (row, pieces) :: more := by
      intro b found h hb
      rcases h with h | ⟨other, h⟩
      · rcases hb found h with h | rfl
        · exact .inl h
        · exact .inr ⟨row, List.mem_cons_self⟩
      · exact .inr ⟨other, List.mem_cons_of_mem _ h⟩
    rw [batched_cons]
    split
    · exact fun b hb => absurd hb List.not_mem_nil
    · split
      · intro b hb found hfound
        rcases List.mem_cons.mp hb with rfl | hb
        · exact .inl hfound
        · exact hmore (ih _ _ b hb found hfound) fun p hp => .inr (List.mem_singleton.mp hp)
      · intro b hb found hfound
        refine hmore (ih _ _ b hb found hfound) fun p hp => ?_
        rcases List.mem_append.mp hp with hp | hp
        · exact .inl hp
        · exact .inr (List.mem_singleton.mp hp)

/-- The row alone is above the limit for one row. -/
def AboveRowLimit (l : Limits) (pieces : List Bytes) : Prop :=
  ∃ limit, l.limit = some limit ∧ limit < recordSize pieces + 2

/-- **Every record is in a batch, in order**, where none of them is above the limit. -/
theorem batched_all {entries : List (ρ × List Bytes)} (hall : ∀ e ∈ entries, ¬ AboveRowLimit l e.2)
    (batch : List (List Bytes)) (size : Nat) :
    (batched l entries batch size).2 = none ∧
      (batched l entries batch size).1.flatten = batch ++ entries.map (·.2) := by
  induction entries generalizing batch size with
  | nil =>
    rw [batched_nil]
    refine ⟨rfl, ?_⟩
    split
    · rename_i hnil
      rw [hnil]
      rfl
    · simp
  | cons entry more ih =>
    obtain ⟨row, pieces⟩ := entry
    have hmore := ih fun e he => hall e (List.mem_cons_of_mem _ he)
    have hnone : l.limit.filter (fun limit => limit < recordSize pieces + 2) = none := by
      rw [Option.filter_eq_none_iff]
      intro limit hlimit
      have := fun hlt => hall _ List.mem_cons_self ⟨limit, hlimit, hlt⟩
      simpa using this
    rw [batched_cons]
    simp only [hnone]
    split
    · obtain ⟨hfailure, hflatten⟩ := hmore [pieces] (recordSize pieces)
      exact ⟨hfailure, by rw [List.flatten_cons, hflatten]; rfl⟩
    · obtain ⟨hfailure, hflatten⟩ := hmore (batch ++ [pieces]) (size + recordSize pieces)
      exact ⟨hfailure, by rw [hflatten, List.append_assoc]; rfl⟩

/-- The first row above the limit ends the loop. -/
theorem batched_above {entries : List (ρ × List Bytes)} {e : ρ × List Bytes} (he : e ∈ entries)
    (habove : AboveRowLimit l e.2) (batch : List (List Bytes)) (size : Nat) :
    ∃ row pieces limit, (row, pieces) ∈ entries ∧ l.limit = some limit ∧
      limit < recordSize pieces + 2 ∧ (batched l entries batch size).2 =
        some (.rowAboveLimit row (recordSize pieces + 2) limit) := by
  induction entries generalizing batch size with
  | nil => cases he
  | cons entry more ih =>
    obtain ⟨row, pieces⟩ := entry
    rw [batched_cons]
    cases hfilter : l.limit.filter fun limit => limit < recordSize pieces + 2 with
    | some limit =>
      obtain ⟨hlimit, hlt⟩ := Option.filter_eq_some_iff.mp hfilter
      exact ⟨row, pieces, limit, List.mem_cons_self, hlimit, by simpa using hlt, rfl⟩
    | none =>
      have hmem : e ∈ more := by
        rcases List.mem_cons.mp he with rfl | hmem
        · obtain ⟨limit, hlimit, hlt⟩ := habove
          rw [Option.filter_eq_none_iff] at hfilter
          exact absurd (hfilter limit hlimit) (by simpa using hlt)
        · exact hmem
      simp only
      split
      · obtain ⟨row', pieces', limit, hin, hrest⟩ := ih hmem [pieces] (recordSize pieces)
        exact ⟨row', pieces', limit, List.mem_cons_of_mem _ hin, hrest⟩
      · obtain ⟨row', pieces', limit, hin, hrest⟩ :=
          ih hmem (batch ++ [pieces]) (size + recordSize pieces)
        exact ⟨row', pieces', limit, List.mem_cons_of_mem _ hin, hrest⟩

end Batches

/-! ## 4. The frames of a model -/

section Emitted

variable {ρ κ : Type} [LinearOrder κ] (pk : ρ → κ) (encode : ρ → List Bytes) (q : Query) (l : Limits)
  (table : List ρ)

/-- The frames of the batches, each in its parts, and the number of rows; a failure comes last. -/
def emitFrames (failure : Option (RecordsFailure ρ)) :
    List (List (List Bytes)) → Except (RecordsFailure ρ) (List (List Bytes) × Nat)
  | [] =>
    match failure with
    | some e => .error e
    | none => .ok ([], 0)
  | batch :: batches =>
    let pieces := framedRecords batch
    match frameParts .records pieces with
    | none => .error (.frameAboveLimit (recordSize pieces))
    | some parts => do
      let (frames, count) ← emitFrames failure batches
      return (parts :: frames, batch.length + count)

/-- The frames of one model: `serialize_batches`, and `frame_parts` around each of its batches. -/
def emitRecords : Option (Except (RecordsFailure ρ) (List (List Bytes) × Nat)) :=
  (q.pages pk encode l.rows table).map fun pages =>
    let entries := pages.flatMap fun chunk => chunk.map fun row => (row, encode row)
    let (batches, failure) := batched l entries [] 0
    emitFrames failure batches

/-- The frame of some rows. -/
def batchFrame (group : List ρ) : Frame :=
  ⟨.records, arrayText (group.map fun row => (encode row).flatten)⟩

/-- **What the frames are to be**: the rows in groups, in order, and a frame for each. -/
structure Framed (groups : List (List ρ)) (frames : List (List Bytes)) : Prop where
  all : groups.flatten = table
  good : ∀ group ∈ groups, Good l (group.map encode)
  fits : ∀ group ∈ groups, (batchFrame encode group).Fits
  frames : frames.map List.flatten = groups.map fun group => (batchFrame encode group).bytes

/-- One row alone is too much for a frame, or for its own limit. -/
def TooBig (pieces : List Bytes) : Prop :=
  AboveRowLimit l pieces ∨ maxFrameBytes < recordSize pieces + 2

/-- The failure is about one row that is too big. -/
def OneRow : RecordsFailure ρ → Prop
  | .rowAboveLimit row size limit =>
    row ∈ table ∧ size = recordSize (encode row) + 2 ∧ l.limit = some limit ∧ limit < size
  | .frameAboveLimit length =>
    ∃ row ∈ table, length = recordSize (encode row) + 2 ∧ maxFrameBytes < length

variable {encode l table}

theorem batchFrame_length (group : List ρ) :
    (batchFrame encode group).body.length = bodyLength (group.map encode) := by
  rw [← framedRecords_size, recordSize_eq, framedRecords_flatten, List.map_map]
  rfl

theorem frameParts_some {group : List ρ} (h : (batchFrame encode group).Fits) :
    ∃ parts, frameParts .records (framedRecords (group.map encode)) = some parts ∧
      parts.flatten = (batchFrame encode group).bytes := by
  have hbody : (framedRecords (group.map encode)).flatten = (batchFrame encode group).body := by
    rw [framedRecords_flatten, List.map_map]
    rfl
  have hparts := frameParts_flatten .records (framedRecords (group.map encode))
  rw [hbody, if_neg (Nat.not_lt.mpr h)] at hparts
  exact Option.map_eq_some_iff.mp hparts

variable {batch : List (List Bytes)}

theorem frameParts_none (h : maxFrameBytes < bodyLength batch) :
    frameParts .records (framedRecords batch) = none := by
  have hparts := frameParts_flatten .records (framedRecords batch)
  rw [← recordSize_eq, framedRecords_size, if_pos h] at hparts
  exact Option.map_eq_none_iff.mp hparts

/-- Batches that fit give a frame each. -/
theorem emitFrames_ok {groups : List (List ρ)}
    (hfits : ∀ group ∈ groups, (batchFrame encode group).Fits) :
    ∃ frames, emitFrames (none : Option (RecordsFailure ρ))
        (groups.map fun group => group.map encode) = .ok (frames, groups.flatten.length) ∧
      frames.map List.flatten = groups.map fun group => (batchFrame encode group).bytes := by
  induction groups with
  | nil => exact ⟨[], rfl, rfl⟩
  | cons group groups ih =>
    obtain ⟨parts, hparts, hbytes⟩ := frameParts_some (hfits group List.mem_cons_self)
    obtain ⟨frames, hframes, hmap⟩ := ih fun g hg => hfits g (List.mem_cons_of_mem _ hg)
    refine ⟨parts :: frames, ?_, by rw [List.map_cons, List.map_cons, hbytes, hmap]⟩
    rw [List.map_cons, emitFrames]
    simp only [hparts, hframes]
    rw [List.flatten_cons, List.length_append, List.length_map]
    rfl

/-- A batch that does not fit ends it, and so does the failure behind the batches. -/
theorem emitFrames_error {failure : Option (RecordsFailure ρ)} {batches : List (List (List Bytes))}
    (h : failure ≠ none ∨ ∃ batch ∈ batches, maxFrameBytes < bodyLength batch) :
    ∃ e, emitFrames failure batches = .error e ∧ (failure = some e ∨
      ∃ batch ∈ batches, maxFrameBytes < bodyLength batch ∧
        e = .frameAboveLimit (bodyLength batch)) := by
  induction batches with
  | nil =>
    cases failure with
    | none => exact absurd h (by rintro (h | ⟨_, h, _⟩); exacts [h rfl, List.not_mem_nil h])
    | some e => exact ⟨e, rfl, .inl rfl⟩
  | cons batch batches ih =>
    rw [emitFrames]
    by_cases hbatch : maxFrameBytes < bodyLength batch
    · simp only [frameParts_none hbatch, framedRecords_size]
      exact ⟨_, rfl, .inr ⟨batch, List.mem_cons_self, hbatch, rfl⟩⟩
    · have hmore : failure ≠ none ∨ ∃ batch ∈ batches, maxFrameBytes < bodyLength batch := by
        rcases h with h | ⟨other, hother, hlt⟩
        · exact .inl h
        · rcases List.mem_cons.mp hother with rfl | hother
          · exact absurd hlt hbatch
          · exact .inr ⟨other, hother, hlt⟩
      obtain ⟨e, he, hwhere⟩ := ih hmore
      have hwhere' : failure = some e ∨ ∃ other ∈ batch :: batches,
          maxFrameBytes < bodyLength other ∧ e = .frameAboveLimit (bodyLength other) :=
        hwhere.imp_right fun ⟨other, hother, hrest⟩ => ⟨other, List.mem_cons_of_mem _ hother, hrest⟩
      have hparts := frameParts_flatten .records (framedRecords batch)
      rw [← recordSize_eq, framedRecords_size, if_neg hbatch] at hparts
      obtain ⟨parts, hparts, -⟩ := Option.map_eq_some_iff.mp hparts
      simp only [hparts, he]
      exact ⟨e, rfl, hwhere'⟩

/-- Batches of the rows' records are the records of groups of rows. -/
theorem groups_of_batches {batches : List (List (List Bytes))}
    (h : batches.flatten = table.map encode) :
    ∃ groups : List (List ρ), groups.flatten = table ∧
      batches = groups.map fun group => group.map encode := by
  induction batches generalizing table with
  | nil => exact ⟨[], (List.map_eq_nil_iff.mp h.symm).symm, rfl⟩
  | cons batch batches ih =>
    rw [List.flatten_cons] at h
    obtain ⟨group, rest, rfl, hgroup, hrest⟩ := List.map_eq_append_iff.mp h.symm
    obtain ⟨groups, hgroups, hbatches⟩ := ih hrest.symm
    exact ⟨group :: groups, by rw [List.flatten_cons, hgroups],
      by rw [List.map_cons, hgroup, hbatches]⟩

/-- The rows of all pages are the rows of the table. -/
theorem emitRecords_eq (hrows : 0 < l.rows)
    (hsorted : q.keyset = true → table.Pairwise fun a b => pk a < pk b) :
    emitRecords pk encode q l table =
      some (let (batches, failure) := batched l (table.map fun row => (row, encode row)) [] 0
        emitFrames failure batches) := by
  obtain ⟨pages, hpages, rfl⟩ := pages_flatten pk encode l.rows q hrows hsorted
  rw [emitRecords, hpages, Option.map_some, List.map_flatten]
  rfl

theorem bodyLength_single (pieces : List Bytes) : bodyLength [pieces] = recordSize pieces + 2 := by
  rw [bodyLength, List.map_singleton, List.sum_singleton]
  rfl

theorem le_bodyLength {pieces : List Bytes} (h : pieces ∈ batch) :
    recordSize pieces + 2 ≤ bodyLength batch := by
  have hsum := List.single_le_sum (fun _ _ => Nat.zero_le _) _ (List.mem_map_of_mem (f := recordSize) h)
  rw [bodyLength]
  omega

/-- A batch above the limit for a frame is one record alone. -/
theorem Good.alone (h : Good l batch) (hceiling : l.ceiling ≤ maxFrameBytes)
    (hlong : maxFrameBytes < bodyLength batch) : ∃ pieces, batch = [pieces] := by
  rcases h.size with hsize | hone
  · omega
  · exact List.length_eq_one_iff.mp hone

theorem entry_of_mem {row : ρ} {pieces : List Bytes}
    (h : (row, pieces) ∈ table.map fun row => (row, encode row)) :
    row ∈ table ∧ pieces = encode row := by
  obtain ⟨other, hother, heq⟩ := List.mem_map.mp h
  cases heq
  exact ⟨hother, rfl⟩

/-- A row above its limit ends the loop, and the failure is about such a row. -/
theorem batched_refused (h : ∃ row ∈ table, AboveRowLimit l (encode row)) :
    ∃ e, (batched l (table.map fun row => (row, encode row)) [] 0).2 = some e ∧
      OneRow encode l table e := by
  obtain ⟨row, hrow, habove⟩ := h
  obtain ⟨found, pieces, limit, hfound, hlimit, hlt, heq⟩ :=
    batched_above (List.mem_map_of_mem (f := fun row => (row, encode row)) hrow) habove [] 0
  obtain ⟨htable, rfl⟩ := entry_of_mem hfound
  exact ⟨_, heq, htable, rfl, hlimit, hlt⟩

/-- Without such a row every record is in a batch. -/
theorem batched_whole (h : ¬ ∃ row ∈ table, AboveRowLimit l (encode row)) :
    (batched l (table.map fun row => (row, encode row)) [] 0).2 = none ∧
      (batched l (table.map fun row => (row, encode row)) [] 0).1.flatten = table.map encode := by
  have hnone : ∀ e ∈ table.map (fun row => (row, encode row)), ¬ AboveRowLimit l e.2 := by
    intro ⟨row, pieces⟩ he habove
    obtain ⟨htable, rfl⟩ := entry_of_mem he
    exact h ⟨row, htable, habove⟩
  have hall := batched_all hnone [] 0
  rw [List.nil_append, List.map_map] at hall
  exact hall

/-- A batch above the limit for a frame is one row that is too big. -/
theorem batched_long (hrows : 0 < l.rows) (hceiling : l.ceiling ≤ maxFrameBytes)
    (hbatch : batch ∈ (batched l (table.map fun row => (row, encode row)) [] 0).1)
    (hlong : maxFrameBytes < bodyLength batch) : ∃ row ∈ table, batch = [encode row] := by
  have hgood := batched_good hrows _ rfl (.inl rfl) batch hbatch
  obtain ⟨pieces, rfl⟩ := hgood.alone hceiling hlong
  rcases batched_mem _ [] 0 _ hbatch pieces List.mem_cons_self with h | ⟨row, h⟩
  · exact absurd h List.not_mem_nil
  · obtain ⟨htable, rfl⟩ := entry_of_mem h
    exact ⟨row, htable, rfl⟩

/-- **A row that is too big is refused**, and nothing else is. -/
theorem emitRecords_refused (hrows : 0 < l.rows) (hceiling : l.ceiling ≤ maxFrameBytes)
    (hsorted : q.keyset = true → table.Pairwise fun a b => pk a < pk b)
    (hbig : ∃ row ∈ table, TooBig l (encode row)) :
    ∃ e, emitRecords pk encode q l table = some (.error e) ∧ OneRow encode l table e := by
  rw [emitRecords_eq pk q hrows hsorted]
  have hends : (batched l (table.map fun row => (row, encode row)) [] 0).2 ≠ none ∨
      ∃ batch ∈ (batched l (table.map fun row => (row, encode row)) [] 0).1,
        maxFrameBytes < bodyLength batch := by
    by_cases habove : ∃ row ∈ table, AboveRowLimit l (encode row)
    · obtain ⟨e, he, -⟩ := batched_refused habove
      exact .inl (he ▸ Option.some_ne_none e)
    · obtain ⟨row, hrow, hbig⟩ := hbig
      have hlong := hbig.resolve_left fun h => habove ⟨row, hrow, h⟩
      have hflatten := (batched_whole habove).2 ▸ List.mem_map_of_mem (f := encode) hrow
      obtain ⟨batch, hbatch, hpieces⟩ := List.mem_flatten.mp hflatten
      exact .inr ⟨batch, hbatch, Nat.lt_of_lt_of_le hlong (le_bodyLength hpieces)⟩
  obtain ⟨e, he, hwhere⟩ := emitFrames_error hends
  refine ⟨e, congrArg some he, ?_⟩
  rcases hwhere with hsome | ⟨batch, hbatch, hlong, rfl⟩
  · by_cases habove : ∃ row ∈ table, AboveRowLimit l (encode row)
    · obtain ⟨e', he', hone⟩ := batched_refused habove
      exact Option.some.inj (hsome.symm.trans he') ▸ hone
    · exact absurd ((batched_whole habove).1.symm.trans hsome) nofun
  · obtain ⟨row, hrow, rfl⟩ := batched_long hrows hceiling hbatch hlong
    rw [bodyLength_single] at hlong ⊢
    exact ⟨row, hrow, rfl, hlong⟩

/-- **Rows that are not too big are framed.** -/
theorem emitRecords_framed (hrows : 0 < l.rows) (hceiling : l.ceiling ≤ maxFrameBytes)
    (hsorted : q.keyset = true → table.Pairwise fun a b => pk a < pk b)
    (hfit : ∀ row ∈ table, ¬ TooBig l (encode row)) :
    ∃ frames groups, emitRecords pk encode q l table = some (.ok (frames, table.length)) ∧
      Framed encode l table groups frames := by
  rw [emitRecords_eq pk q hrows hsorted]
  have hlimit : ¬ ∃ row ∈ table, AboveRowLimit l (encode row) := fun ⟨row, hrow, habove⟩ =>
    hfit row hrow (.inl habove)
  obtain ⟨hnone, hflatten⟩ := batched_whole hlimit
  obtain ⟨groups, hgroups, hbatches⟩ := groups_of_batches hflatten
  have hmem : ∀ group ∈ groups, group.map encode ∈
      (batched l (table.map fun row => (row, encode row)) [] 0).1 := fun group hgroup =>
    hbatches ▸ List.mem_map_of_mem hgroup
  have hfits : ∀ group ∈ groups, (batchFrame encode group).Fits := by
    intro group hgroup
    refine Nat.not_lt.mp fun hlong => ?_
    rw [batchFrame_length] at hlong
    obtain ⟨row, hrow, hone⟩ := batched_long hrows hceiling (hmem group hgroup) hlong
    rw [hone, bodyLength_single] at hlong
    exact hfit row hrow (.inr hlong)
  obtain ⟨frames, hframes, hbytes⟩ := emitFrames_ok hfits
  refine ⟨frames, groups, ?_, hgroups, fun group hgroup => ?_, hfits, hbytes⟩
  · rw [← hgroups]
    refine congrArg some (Eq.trans ?_ hframes)
    rw [← hbatches, hgroups, ← hnone]
  · exact batched_good hrows _ rfl (.inl rfl) _ (hmem group hgroup)

end Emitted

/-! ## 5. Reading the frames back -/

/-- The records read from the pieces, up to the frame behind them. -/
def readBack (D : Decoding) (order : List Text) (position : Nat) (pieces : List Bytes) :
    Except Failure (List (List Value)) :=
  (exec (recordBatches D nextFrame (fuelFor pieces))
    { frames := FrameReader.ofPieces pieces, order, position, phase := .records }).1

/-- `json.loads` of an array: the values of the texts in it. -/
def Decoding.ReadsArrays (D : Decoding) : Prop :=
  ∀ texts values, List.Forall₂ (fun text value => D.loadsText text = some value) texts values →
    D.loadsText (arrayText texts) = some (.arr values)

/-- What the serializer gives for a row of a model of this rank. -/
structure Serialized (D : Decoding) (order : List Text) (found : Nat) (pieces : List Bytes)
    (value : Value) : Prop where
  loads : D.loadsText pieces.flatten = some value
  record : isDict value = true
  fields : isDict (member value "fields") = true
  model : ∃ label, member value "model" = .str label ∧ rank order label = some found

/-- The primary key of the record is a plain value. -/
def PlainKey (value : Value) : Prop := isScalar (member value "pk") = true

section ReadBack

variable {ρ : Type} {D : Decoding} {order : List Text} {position found : Nat}
  {encode : ρ → List Bytes} {value : ρ → Value} {l : Limits} {table : List ρ}
  {groups : List (List ρ)} {frames : List (List Bytes)}

theorem readBack_eq (D : Decoding) (order : List Text) (position : Nat) (pieces : List Bytes) :
    readBack D order position pieces = (exec (recordBatches D nextBytes (fuelFor pieces))
      { frames := pieces.flatten, order, position, phase := .records }).1 := by
  have h := (mirrorsFlat_recordBatches D (fuelFor pieces)
    { frames := FrameReader.ofPieces pieces, order, position, phase := .records }).1
  rw [mapError_id] at h
  exact h

theorem risesTo_replicate {current : Nat} (n : Nat) (h : current ≤ found) :
    ∃ last, RisesTo current (List.replicate n found) last := by
  induction n generalizing current with
  | zero => exact ⟨current, rfl⟩
  | succ n ih =>
    obtain ⟨last, hlast⟩ := ih (Nat.le_refl found)
    exact ⟨last, h, hlast⟩

theorem Framed.stored (h : Framed encode l table groups frames) :
    frames.flatten.flatten = stored ((groups.map fun group => (batchFrame encode group).body).map
      (Frame.mk .records)) := by
  rw [List.flatten_flatten, h.frames, Payload.stored, List.flatMap_def, List.map_map, List.map_map]
  rfl

theorem Framed.values (h : Framed encode l table groups frames) :
    (groups.map fun group => group.map value).flatten = table.map value := by
  rw [← h.all, List.map_flatten]

/-- **The frames are read back** where every primary key is a plain value, in whatever pieces. -/
theorem readBack_of_plain (hD : D.ReadsArrays) (hposition : position ≤ found)
    (hrecords : ∀ row ∈ table, Serialized D order found (encode row) (value row))
    (hplain : ∀ row ∈ table, PlainKey (value row)) (h : Framed encode l table groups frames)
    {behind : Bytes} (hbehind : (Frame.mk .trailer behind).Fits) {pieces : List Bytes}
    (hpieces : pieces.flatten = frames.flatten.flatten ++ (Frame.mk .trailer behind).bytes) :
    readBack D order position pieces = .ok (groups.map fun group => group.map value) := by
  rw [h.stored] at hpieces
  have hbodies : List.Forall₂ (BatchOf D) (groups.map fun group => (batchFrame encode group).body)
      (groups.map fun group => group.map value) := by
    rw [List.forall₂_map_left_iff, List.forall₂_map_right_iff, List.forall₂_same]
    intro group hgroup
    refine hD _ _ ?_
    rw [List.forall₂_map_left_iff, List.forall₂_map_right_iff, List.forall₂_same]
    exact fun row hrow => (hrecords row (h.all ▸ List.mem_flatten.mpr ⟨group, hgroup, hrow⟩)).loads
  have hranked : List.Forall₂ (Ranked order) (groups.map fun group => group.map value).flatten
      (List.replicate table.length found) := by
    rw [h.values, ← List.map_const', List.forall₂_map_left_iff, List.forall₂_map_right_iff,
      List.forall₂_same]
    intro row hrow
    obtain ⟨-, hrecord, hfields, hmodel⟩ := hrecords row hrow
    exact ⟨hrecord, hfields, hmodel, hplain row hrow⟩
  obtain ⟨last, hrises⟩ := risesTo_replicate table.length hposition
  have hfits : ∀ f ∈ (groups.map fun group => (batchFrame encode group).body).map (Frame.mk .records),
      f.Fits := by
    intro f hf
    obtain ⟨body, hbody, rfl⟩ := List.mem_map.mp hf
    obtain ⟨group, hgroup, rfl⟩ := List.mem_map.mp hbody
    exact h.fits group hgroup
  have hfuel : (groups.map fun group => (batchFrame encode group).body).length < fuelFor pieces := by
    have hle := length_le_stored ((groups.map fun group => (batchFrame encode group).body).map
      (Frame.mk .records))
    rw [fuelFor, hpieces, List.length_append]
    rw [List.length_map] at hle
    omega
  let t : PayloadReader Bytes := { frames := pieces.flatten, order, position, phase := .records }
  have hahead : ahead t = stored ((groups.map fun group => (batchFrame encode group).body).map
      (Frame.mk .records)) ++ ((Frame.mk .trailer behind).bytes ++ []) := by
    rw [List.append_nil]
    exact hpieces
  obtain ⟨u, hread, -⟩ := recordBatches_complete (D := D) (t := t) (ready_none rfl) rfl hfuel hbodies
    hranked hrises hfits hahead hbehind nofun
  rw [readBack_eq, hread]

/-- **What is read back has plain keys.** -/
theorem plain_of_readBack (h : Framed encode l table groups frames) {pieces : List Bytes}
    (hread : readBack D order position pieces = .ok (groups.map fun group => group.map value)) :
    ∀ row ∈ table, PlainKey (value row) := by
  rw [readBack_eq] at hread
  obtain ⟨-, ranks, -, -, hranked, -⟩ :=
    recordBatches_sound (t := { frames := pieces.flatten, order, position, phase := .records })
      (ready_none rfl) (Prod.ext hread rfl)
  rw [h.values, List.forall₂_map_left_iff] at hranked
  exact ((List.forall₂_and_left _ _).mp (hranked.imp fun row found hrow => ⟨hrow.2.2.2, hrow⟩)).1

/-- **Every row is kept**: it is too big and refused, or the rows are framed in groups, and the frames
    are read back as the same records, in whatever pieces and whatever trailer stands behind them. -/
def Kept (D : Decoding) (order : List Text) (position : Nat) (encode : ρ → List Bytes)
    (value : ρ → Value) (l : Limits) (table : List ρ)
    (emitted : Option (Except (RecordsFailure ρ) (List (List Bytes) × Nat))) : Prop :=
  (∃ e, emitted = some (.error e) ∧ OneRow encode l table e) ∨
    ∃ frames groups, emitted = some (.ok (frames, table.length)) ∧ Framed encode l table groups frames ∧
      ∀ behind pieces, (Frame.mk .trailer behind).Fits →
        pieces.flatten = frames.flatten.flatten ++ (Frame.mk .trailer behind).bytes →
        readBack D order position pieces = .ok (groups.map fun group => group.map value)

variable {κ : Type} [LinearOrder κ] {pk : ρ → κ} {q : Query}

/-- A list for a key is not kept, unless a row is too big. -/
theorem plain_of_kept (hrows : 0 < l.rows) (hceiling : l.ceiling ≤ maxFrameBytes)
    (hsorted : q.keyset = true → table.Pairwise fun a b => pk a < pk b)
    (h : Kept D order position encode value l table (emitRecords pk encode q l table))
    (hfit : ∀ row ∈ table, ¬ TooBig l (encode row)) : ∀ row ∈ table, PlainKey (value row) := by
  obtain ⟨frames, groups, hemitted, -⟩ := emitRecords_framed pk q hrows hceiling hsorted hfit
  rcases h with ⟨e, herror, -⟩ | ⟨frames', groups', -, hframed, hback⟩
  · rw [hemitted] at herror
    exact absurd (Option.some.inj herror) nofun
  · exact plain_of_readBack hframed (hback [] [_] (Nat.zero_le _) List.flatten_singleton)

end ReadBack

/-- **Batching keeps every row exactly where each primary key is a plain value**, or a row is too big
    and refused. -/
theorem batching_keeps_iff {ρ κ : Type} [LinearOrder κ] (D : Decoding) (order : List Text)
    (position found : Nat) (pk : ρ → κ) (encode : ρ → List Bytes) (value : ρ → Value) (q : Query)
    (l : Limits) (table : List ρ) (hrows : 0 < l.rows) (hceiling : l.ceiling ≤ maxFrameBytes)
    (hsorted : q.keyset = true → table.Pairwise fun a b => pk a < pk b) (hD : D.ReadsArrays)
    (hposition : position ≤ found)
    (hrecords : ∀ row ∈ table, Serialized D order found (encode row) (value row)) :
    Kept D order position encode value l table (emitRecords pk encode q l table) ↔
      (∃ row ∈ table, TooBig l (encode row)) ∨ ∀ row ∈ table, PlainKey (value row) := by
  by_cases hbig : ∃ row ∈ table, TooBig l (encode row)
  · have hrefused := emitRecords_refused pk q hrows hceiling hsorted hbig
    exact ⟨fun _ => .inl hbig, fun _ => .inl hrefused⟩
  · have hfit : ∀ row ∈ table, ¬ TooBig l (encode row) := fun row hrow h => hbig ⟨row, hrow, h⟩
    constructor
    · exact fun h => .inr (plain_of_kept hrows hceiling hsorted h hfit)
    · intro h
      obtain ⟨frames, groups, hemitted, hframed⟩ := emitRecords_framed pk q hrows hceiling hsorted hfit
      exact .inr ⟨frames, groups, hemitted, hframed, fun behind pieces hbehind hpieces =>
        readBack_of_plain hD hposition hrecords (h.resolve_left hbig) hframed hbehind hpieces⟩

/-! ## 6. One row -/

section Compact

theorem jsonBytes_of_compact {text : Bytes} {value : Value}
    (h : Decoding.compact.loadsText text = some value) : jsonBytes value = text := by
  by_cases hex : ∃ value, jsonBytes value = text
  · have hvalue : some hex.choose = some value := (dif_pos hex).symm.trans h
    rw [← Option.some.inj hvalue]
    exact hex.choose_spec
  · exact absurd ((dif_neg hex).symm.trans h) nofun

theorem renderItems_bytes (values : List Value) :
    (Json.renderItems values).map (fun c => UInt8.ofNat c.toNat) =
      (values.map jsonBytes).flatMap (comma ++ ·) ++ closeBracket := by
  induction values with
  | nil => rfl
  | cons value values ih =>
    rw [Json.renderItems, List.map_cons, List.map_append, ih, List.map_cons, List.flatMap_cons,
      List.append_assoc, List.append_assoc]
    rfl

theorem jsonBytes_arr (values : List Value) :
    jsonBytes (.arr values) = arrayText (values.map jsonBytes) := by
  cases values with
  | nil => rfl
  | cons value values =>
    rw [jsonBytes, Json.render, List.map_cons, List.map_append, renderItems_bytes, arrayText,
      List.map_cons, intersperse_comma, List.append_assoc, List.append_assoc]
    rfl

theorem compact_readsArrays : Decoding.compact.ReadsArrays := by
  intro texts values h
  have htexts : texts = values.map jsonBytes := by
    induction h with
    | nil => rfl
    | cons hvalue _ ih => rw [List.map_cons, ← ih, jsonBytes_of_compact hvalue]
  rw [htexts, ← jsonBytes_arr]
  exact (compact_reads _).2

def pairLabel : Text := Text.ofString "app.pair"

/-- A record of no fields, with this key. -/
def pairRecord (pk : Value) : Value :=
  dict [("model", .str pairLabel), ("pk", pk), ("fields", dict [])]

theorem pairRecord_serialized (pk : Value) :
    Serialized .compact [pairLabel] 0 [jsonBytes (pairRecord pk)] (pairRecord pk) where
  loads := by
    rw [List.flatten_singleton]
    exact (compact_reads _).2
  record := rfl
  fields := congrArg isDict (member_dict _ _)
  model := ⟨pairLabel, member_dict _ _, by decide⟩

theorem pairRecord_pk (pk : Value) : member (pairRecord pk) "pk" = pk := member_dict _ _

/-- The limits of a backup. -/
def backupLimits : Limits := ⟨500, some maxFrameBytes, 8 * 1024 * 1024⟩

/-- The key of a row of two columns. -/
def compositePk : Value := .arr [nat 1, nat 2]

theorem compositePk_fits : ¬ TooBig backupLimits [jsonBytes (pairRecord compositePk)] := by
  have hsize : (jsonBytes (pairRecord compositePk)).length ≤ 100 := by decide
  have hmax : 102 ≤ maxFrameBytes := by decide
  have hrecord : recordSize [jsonBytes (pairRecord compositePk)] ≤ 100 := hsize
  rintro (⟨limit, hlimit, hlt⟩ | hlt)
  · obtain rfl : maxFrameBytes = limit := Option.some.inj hlimit
    omega
  · omega

/-- **A composite key**: one row whose key is a list is framed, and its frame is not read back. -/
theorem composite_key : ¬ Kept .compact [pairLabel] 0
    (fun _ : Unit => [jsonBytes (pairRecord compositePk)]) (fun _ => pairRecord compositePk)
    backupLimits [()] (emitRecords (fun _ => 0) (fun _ => [jsonBytes (pairRecord compositePk)])
      ⟨false, false⟩ backupLimits [()]) := by
  intro h
  have hplain := plain_of_kept (by decide) (by decide)
    (fun hkeyset => absurd hkeyset Bool.false_ne_true) h (fun _ _ => compositePk_fits) ()
    List.mem_cons_self
  rw [PlainKey, pairRecord_pk] at hplain
  exact absurd hplain (by decide)

/-- Two rows with numbers for keys. -/
theorem batching_keeps_two : Kept .compact [pairLabel] 0 (fun n => [jsonBytes (pairRecord (nat n))])
    (fun n => pairRecord (nat n)) backupLimits [1, 2]
    (emitRecords id (fun n => [jsonBytes (pairRecord (nat n))]) ⟨true, false⟩ backupLimits [1, 2]) := by
  refine (batching_keeps_iff .compact [pairLabel] 0 0 id _ _ _ _ _ (by decide) (by decide)
    (fun _ => by decide) compact_readsArrays (Nat.le_refl 0)
    fun n _ => pairRecord_serialized (nat n)).mpr (.inr fun n _ => ?_)
  rw [PlainKey, pairRecord_pk]
  rfl

end Compact

end Dbs.Payload

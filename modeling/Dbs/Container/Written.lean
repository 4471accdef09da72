/-
  File:      Dbs/Container/Written.lean
  Subject:   WHAT THE WRITER HAS STORED, at every point of a run over a sink that never fails.

  The state of the writer of a payload is spelled out: `stored n` are the bytes of the first `n` steps
  of the schedule, `holding` the fields that storing changes. Every operation moves between such
  states, whatever the pieces and the number of workers.

  * `exec_place`, `exec_flush`, `ends_queue`, `ends_write` -- one operation each;
  * `ends_writeAll` -- a whole run ends with `Contents.bytes`, and raises only when the payload has
    more blocks than a container holds.
-/
import Dbs.Container.Contents

namespace Dbs

open Octets Effects

/-- A sink none of whose writes raises. -/
def never : Nat → Bool := fun _ => false

/-! ## 1. Storing -/

namespace StreamWriter

/-- `w` after one more write of its sink. -/
def emitted (w : StreamWriter) (data : Bytes) : StreamWriter :=
  { w with out := w.out ++ data, emits := w.emits + 1
           containerBytes := w.containerBytes + data.length }

theorem exec_emit (data : Bytes) (w : StreamWriter) :
    exec (emit never data) w = (.ok (), w.emitted data) := rfl

/-- `w` with a slot fed to the digest and at the end of the window. -/
def windowed (w : StreamWriter) (slot : Bytes) : StreamWriter :=
  { w with tags := w.tags ++ [slot.drop (slot.length - slotTagSize)], window := w.window ++ [slot] }

theorem exec_place_of_le {w : StreamWriter} {slot : Bytes}
    (h : w.window.length + 1 ≤ w.layout.interleave) :
    exec (place never slot) w = (.ok (), (w.emitted slot).windowed slot) := by
  rw [place, exec_bind_ok (exec_emit _ _), exec_bind_ok (exec_modify _ _),
    exec_bind_ok (exec_get _), if_neg, exec_pure]
  · rfl
  · show ¬ (w.window ++ [slot]).length > w.layout.interleave
    rw [List.length_append, List.length_singleton]
    omega

theorem exec_place_of_lt {w : StreamWriter} {slot first : Bytes} {rest : List Bytes}
    (h : w.layout.interleave < w.window.length + 1) (hw : w.window ++ [slot] = first :: rest) :
    exec (place never slot) w =
      (.ok (), ({ (w.emitted slot).windowed slot with window := rest }).emitted first) := by
  rw [place, exec_bind_ok (exec_emit _ _), exec_bind_ok (exec_modify _ _),
    exec_bind_ok (exec_get _), if_pos, exec_bind_ok (exec_set _ _), exec_emit]
  · simp only [emitted, windowed, hw]
    rfl
  · show (w.window ++ [slot]).length > w.layout.interleave
    rw [List.length_append, List.length_singleton]
    omega

end StreamWriter

namespace Contents

variable (P : Primitives) (c : Contents)

/-- The bytes of the first `n` steps of the schedule. -/
def stored (n : Nat) : Bytes :=
  (((List.range n).flatMap (scheduleStep c.blocks c.layout.interleave)).map
    fun copy => c.slot P copy.1).flatten

/-- The slots that wait to be stored again after `n` steps. -/
def windowAt (n : Nat) : List Bytes :=
  (List.range' (n - c.layout.interleave) (n - (n - c.layout.interleave))).map (c.slot P)

/-- `w` after the first `n` slots are stored. -/
def holding (n : Nat) (w : StreamWriter) : StreamWriter :=
  { w with tags := (List.range n).map (c.tag P), window := c.windowAt P n
           out := c.header.seal P ++ c.stored P n
           containerBytes := headerSize + (c.stored P n).length
           emits := 1 + n + (n - c.layout.interleave) }

variable {c}

theorem stored_succ {n : Nat} (h : n < c.blocks) : c.stored P (n + 1) = c.stored P n ++
    (c.slot P n ++ if c.layout.interleave ≤ n then c.slot P (n - c.layout.interleave) else []) := by
  rw [stored, List.range_succ, List.flatMap_append, List.map_append, List.flatten_append,
    List.flatMap_singleton, scheduleStep, if_pos h]
  congr 1
  split <;> simp

theorem windowAt_length (n : Nat) : (c.windowAt P n).length = n - (n - c.layout.interleave) := by
  rw [windowAt, List.length_map, List.length_range']

theorem slot_drop_tag (i : Nat) :
    (c.slot P i).drop ((c.slot P i).length - slotTagSize) = c.tag P i := by
  have hl : (c.slot P i).length - slotTagSize = (c.encoded P i).length := by
    rw [slot, List.length_append, tag_length, Nat.add_sub_cancel]
  rw [hl, slot]
  exact List.drop_left' rfl

/-- The window before one more slot is placed, with that slot behind it. -/
theorem windowAt_append (n : Nat) : c.windowAt P n ++ [c.slot P n] =
    (List.range' (n - c.layout.interleave) (n - (n - c.layout.interleave) + 1)).map (c.slot P) := by
  have h : n - c.layout.interleave + (n - (n - c.layout.interleave)) = n := by omega
  rw [List.range'_concat, List.map_append, Nat.one_mul, h]
  rfl

variable {w : StreamWriter}

/-- **Placing a slot**: it is stored, and so is the one that leaves the window. -/
theorem exec_place {n : Nat} (h : n < c.blocks) (hw : w.header = c.header) :
    exec (StreamWriter.place never (c.slot P n))
      (c.holding P n w) = (.ok (), c.holding P (n + 1) w) := by
  have hs := stored_succ P h
  have ha := windowAt_append P (c := c) n
  have hd := slot_drop_tag P (c := c) n
  have hlen : (c.windowAt P n).length = n - (n - c.layout.interleave) := windowAt_length P n
  have hlay : (c.holding P n w).layout.interleave = c.layout.interleave := by
    rw [StreamWriter.layout]
    exact congrArg (·.layout.interleave) hw
  have htags : (List.range n).map (c.tag P) ++ [c.tag P n] = (List.range (n + 1)).map (c.tag P) := by
    rw [List.range_succ, List.map_append]; rfl
  by_cases hI : c.layout.interleave ≤ n
  · have hsplit : c.windowAt P n ++ [c.slot P n] =
        c.slot P (n - c.layout.interleave) :: c.windowAt P (n + 1) := by
      rw [ha, List.range'_succ, List.map_cons, windowAt,
        show n + 1 - c.layout.interleave = n - c.layout.interleave + 1 by omega,
        show n + 1 - (n - c.layout.interleave + 1) = n - (n - c.layout.interleave) by omega]
    have hlt : (c.holding P n w).layout.interleave < (c.holding P n w).window.length + 1 := by
      show _ < (c.windowAt P n).length + 1
      omega
    rw [if_pos hI] at hs
    rw [StreamWriter.exec_place_of_lt hlt hsplit]
    simp only [StreamWriter.emitted, StreamWriter.windowed, holding, hs, htags, hd,
      List.append_assoc, List.length_append]
    congr 2 <;> omega
  · have hsame : c.windowAt P n ++ [c.slot P n] = c.windowAt P (n + 1) := by
      rw [ha, windowAt, show n + 1 - c.layout.interleave = n - c.layout.interleave by omega,
        show n + 1 - (n - c.layout.interleave) = n - (n - c.layout.interleave) + 1 by omega]
    have hle : (c.holding P n w).window.length + 1 ≤ (c.holding P n w).layout.interleave := by
      show (c.windowAt P n).length + 1 ≤ _
      omega
    rw [if_neg hI, List.append_nil] at hs
    rw [StreamWriter.exec_place_of_le hle]
    simp only [StreamWriter.emitted, StreamWriter.windowed, holding, hs, htags, hd, hsame,
      List.append_assoc, List.length_append]
    congr 2 <;> omega

theorem exec_place_range (hw : w.header = c.header) (n m : Nat) (h : n + m ≤ c.blocks) :
    exec (((List.range' n m).map (c.slot P)).forM (StreamWriter.place never)) (c.holding P n w) =
      (.ok (), c.holding P (n + m) w) := by
  induction m generalizing n with
  | zero => rfl
  | succ m ih =>
    rw [List.range'_succ, List.map_cons, exec_forM_cons, exec_place P (by omega) hw]
    show exec _ (c.holding P (n + 1) w) = _
    rw [ih (n + 1) (by omega), Nat.add_assoc n 1 m, Nat.add_comm 1 m]

/-! ## 2. A batch -/

/-- The slot of one numbered chunk. -/
def slotOfJob (w : StreamWriter) (finalIndex : Option Nat) (job : Nat × Bytes) : Bytes :=
  let cipher : ChunkCipher := ⟨w.dataKey, w.header.noncePrefix, w.sealedHeader P⟩
  let final := some job.1 == finalIndex
  let encoded := Rs.encode (blockOf w.layout.blockSize job.1 (cipher.seal P job.1 job.2 final) final)
    w.layout.nsym
  encoded ++ slotTag P w.header.containerId encoded

/-- Encoding together is encoding one by one. -/
theorem encodeJobs_eq (w : StreamWriter) (finalIndex : Option Nat) (jobs : List (Nat × Bytes)) :
    w.encodeJobs P jobs finalIndex = jobs.map (slotOfJob P w finalIndex) := by
  simp only [StreamWriter.encodeJobs, Rs.encodeMany_eq_map, List.map_map]
  rfl

/-- Groups change nothing. -/
theorem groups_eq (w : StreamWriter) (finalIndex : Option Nat) (jobs : List (Nat × Bytes)) :
    (pieces batchBlocks jobs).flatMap (w.encodeJobs P · finalIndex) =
      jobs.map (slotOfJob P w finalIndex) := by
  rw [funext fun g => encodeJobs_eq P w finalIndex g, List.flatMap_def, ← List.map_flatten,
    pieces_flatten (by decide)]

/-- `w` writes `c`. -/
structure Writes (w : StreamWriter) : Prop where
  header : w.header = c.header
  dataKey : w.dataKey = c.dataKey

/-- `w` with `k` slots stored and the next `m` chunks in the batch. -/
def batched (k m : Nat) (w : StreamWriter) : StreamWriter :=
  c.holding P k { w with batch := (List.range' k m).map c.chunk, nextIndex := k }

theorem numbered_chunks (k m : Nat) :
    (((List.range' k m).map c.chunk).zipIdx.map fun x => (k + x.2, x.1)) =
      (List.range' k m).map fun i => (i, c.chunk i) := by
  refine List.ext_getElem (by simp) fun i h1 h2 => ?_
  simp

theorem slotOfJob_eq (hw : c.Writes w) {finalIndex : Option Nat} {i : Nat}
    (hf : (some i == finalIndex) = c.final i) :
    slotOfJob P w finalIndex (i, c.chunk i) = c.slot P i := by
  simp only [slotOfJob, hf, StreamWriter.layout, StreamWriter.sealedHeader, hw.header, hw.dataKey]
  rfl

/-- The last chunk of a closing batch, and no other, is the final one. -/
theorem final_of_flush {k m i : Nat} {final : Bool} (hb : k + m ≤ c.blocks)
    (hf : final = true ↔ k + m = c.blocks) (hi : i < k + m) :
    (some i == if final then some (k + m - 1) else none) = c.final i := by
  rw [Contents.final]
  cases final with
  | true =>
    have := hf.mp rfl
    rw [if_pos rfl, Bool.eq_iff_iff, beq_iff_eq, beq_iff_eq, Option.some_inj]
    omega
  | false =>
    have : k + m ≠ c.blocks := fun h => Bool.false_ne_true (hf.mpr h)
    rw [if_neg Bool.false_ne_true, Bool.eq_iff_iff, beq_iff_eq, beq_iff_eq]
    exact ⟨nofun, fun h => absurd h (by omega)⟩

variable {k m : Nat}

/-- **Flushing a batch** stores its slots, unless they are more than a container holds. -/
theorem exec_flush {final : Bool} (hw : c.Writes w) (hm : 0 < m)
    (hb : k + m ≤ c.blocks) (hf : final = true ↔ k + m = c.blocks) (hle : k + m ≤ maxBlocks) :
    exec (StreamWriter.flush P never final) (c.batched P k m w) =
      (.ok (), c.batched P (k + m) 0 w) := by
  have hlen : (c.batched P k m w).batch.length = m := by
    show ((List.range' k m).map c.chunk).length = m
    simp
  have hne : ¬ (c.batched P k m w).batch.isEmpty = true := by
    rw [List.isEmpty_iff_length_eq_zero, hlen]; omega
  have hidx : (c.batched P k m w).nextIndex = k := rfl
  have hjobs := numbered_chunks (c := c) k m
  have hslots : ((List.range' k m).map fun i => (i, c.chunk i)).map
      (slotOfJob P (c.batched P k m w) (if final then some (k + m - 1) else none)) =
      (List.range' k m).map (c.slot P) := by
    rw [List.map_map]
    refine List.map_congr_left fun i hi => slotOfJob_eq P ⟨hw.header, hw.dataKey⟩ ?_
    rw [List.mem_range'_1] at hi
    exact final_of_flush hb hf (by omega)
  rw [StreamWriter.flush, exec_bind_ok (exec_get _), if_neg hne]
  simp only [hlen, hidx]
  rw [if_neg (by omega), exec_bind_ok (exec_set _ _), groups_eq,
    show (c.batched P k m w).batch = (List.range' k m).map c.chunk from rfl, hjobs, hslots,
    List.length_map, List.length_range']
  have hw' : ({ w with batch := [], nextIndex := k + m } : StreamWriter).header = c.header := hw.header
  exact exec_place_range P hw' k m hb

theorem ends_flush {final : Bool} (hw : c.Writes w) (hm : 0 < m)
    (hb : k + m ≤ c.blocks) (hf : final = true ↔ k + m = c.blocks) :
    Ends (fun _ t => t = c.batched P (k + m) 0 w ∧ k + m ≤ maxBlocks)
      (fun _ _ => maxBlocks < c.blocks)
      (exec (StreamWriter.flush P never final) (c.batched P k m w)) := by
  rcases Nat.lt_or_ge maxBlocks (k + m) with h | h
  · have hlen : (c.batched P k m w).batch.length = m := by
      show ((List.range' k m).map c.chunk).length = m
      simp
    have hne : ¬ (c.batched P k m w).batch.isEmpty = true := by
      rw [List.isEmpty_iff_length_eq_zero, hlen]; omega
    have hidx : (c.batched P k m w).nextIndex = k := rfl
    rw [StreamWriter.flush, exec_bind_ok (exec_get _), if_neg hne]
    simp only [hlen, hidx]
    rw [if_pos h, exec_bind_error (exec_throw _ _)]
    show maxBlocks < c.blocks
    omega
  · rw [exec_flush P hw hm hb hf h]
    exact ⟨rfl, h⟩

/-! ## 3. Pieces -/

/-- **Queueing the next chunk**, while another one follows. -/
theorem ends_queue (hw : c.Writes w) (hb : k + m + 1 < c.blocks) :
    Ends (fun _ t => ∃ k' m', k' + m' = k + m + 1 ∧ t = c.batched P k' m' w)
      (fun _ _ => maxBlocks < c.blocks)
      (exec (StreamWriter.queue P never (c.chunk (k + m))) (c.batched P k m w)) := by
  have hnext : exec (modify fun v : StreamWriter => { v with batch := v.batch ++ [c.chunk (k + m)] } :
      Writing PUnit) (c.batched P k m w) = (.ok ⟨⟩, c.batched P k (m + 1) w) := by
    rw [exec_modify]
    simp only [batched, holding, List.range'_concat, List.map_append, Nat.one_mul]
    rfl
  rw [StreamWriter.queue, exec_bind_ok hnext, exec_bind_ok (exec_get _)]
  split
  · refine (ends_flush P hw (Nat.succ_pos m) (by omega) ?_).mono ?_ fun _ _ h => h
    · exact ⟨by simp, fun h => absurd h (by omega)⟩
    · exact fun _ t ht => ⟨k + (m + 1), 0, rfl, ht.1⟩
  · exact ⟨k, m + 1, rfl, rfl⟩

/-- **Queueing full chunks** off the next `v` bytes of the payload leaves at most one chunk of them,
    and something if there was something. -/
theorem ends_queueFull (hw : c.Writes w) (fuel v : Nat)
    (hv : v ≤ fuel) (hp : (k + m) * c.layout.chunkCapacity + v ≤ c.payload.length) :
    Ends (fun rest t => ∃ k' m' v', t = c.batched P k' m' w ∧
        rest = slice c.payload ((k' + m') * c.layout.chunkCapacity) v' ∧
        (k' + m') * c.layout.chunkCapacity + v' = (k + m) * c.layout.chunkCapacity + v ∧
        v' ≤ c.layout.chunkCapacity ∧ (0 < v → 0 < v') ∧
        (v ≤ c.layout.chunkCapacity → k' + m' = k + m))
      (fun _ _ => maxBlocks < c.blocks)
      (exec (StreamWriter.queueFull P never fuel
        (slice c.payload ((k + m) * c.layout.chunkCapacity) v)) (c.batched P k m w)) := by
  have hc := capacity_pos (c := c)
  induction fuel generalizing v k m with
  | zero =>
    refine ⟨k, m, v, rfl, rfl, rfl, by omega, id, fun _ => rfl⟩
  | succ fuel ih =>
    have hlay : (c.batched P k m w).layout.chunkCapacity = c.layout.chunkCapacity :=
      congrArg (·.layout.chunkCapacity) hw.header
    have hvl : (slice c.payload ((k + m) * c.layout.chunkCapacity) v).length = v :=
      slice_length_eq hp
    have hsucc : (k + m + 1) * c.layout.chunkCapacity =
      (k + m) * c.layout.chunkCapacity + c.layout.chunkCapacity := Nat.succ_mul _ _
    rw [StreamWriter.queueFull, exec_bind_ok (exec_get _)]
    simp only [hlay, hvl]
    split
    · rename_i hgt
      have hlt : k + m + 1 < c.blocks := lt_blocks (by rw [hsucc]; omega)
      have htake : (slice c.payload ((k + m) * c.layout.chunkCapacity) v).take
          c.layout.chunkCapacity = c.chunk (k + m) := by
        rw [chunk_eq (by omega), take_slice, Nat.min_eq_left (by omega)]
      rw [htake, drop_slice, ← hsucc]
      refine ends_bind (ends_queue P hw hlt) ?_
      rintro _ t ⟨k', m', hkm, rfl⟩
      rw [← hkm]
      refine (ih _ (by omega) (by rw [hkm, hsucc]; omega)).mono ?_ fun _ _ h => h
      rintro rest t ⟨k₂, m₂, v₂, h1, h2, h3, h4, h5, -⟩
      refine ⟨k₂, m₂, v₂, h1, h2, ?_, h4, fun _ => h5 (by omega), fun _ => by omega⟩
      rw [hkm, hsucc] at h3
      omega
    · exact ⟨k, m, v, rfl, rfl, rfl, by omega, id, fun _ => rfl⟩

/-- `v` is the writer after `fed` bytes of the payload. -/
structure Fed (fed : Nat) (v : StreamWriter) : Prop where
  writes : c.Writes v
  closed : v.closed = false
  summary : v.summary = none
  plaintextBytes : v.plaintextBytes = fed
  cut : ∃ k m, v = c.batched P k m v ∧ (k + m) * c.layout.chunkCapacity ≤ fed ∧
    fed ≤ (k + m + 1) * c.layout.chunkCapacity ∧
    (0 < k + m → (k + m) * c.layout.chunkCapacity < fed) ∧
    v.pending = slice c.payload ((k + m) * c.layout.chunkCapacity)
      (fed - (k + m) * c.layout.chunkCapacity)

variable {v : StreamWriter}

theorem exec_ensureOpen (h : v.closed = false) : exec StreamWriter.ensureOpen v = (.ok (), v) := by
  rw [StreamWriter.ensureOpen, exec_bind_ok (exec_get _), h]
  rfl

/-- `view` is what is left of a piece that ends at `total`: `p` bytes are pending, and either nothing
    is left or nothing is pending. -/
structure Filled (total : Nat) (v : StreamWriter) (view : Bytes) (t : StreamWriter) : Prop where
  intro ::
  cut : ∃ k m p n, t = c.batched P k m { v with pending := t.pending } ∧
    t.pending = slice c.payload ((k + m) * c.layout.chunkCapacity) p ∧
    view = slice c.payload ((k + m) * c.layout.chunkCapacity + p) n ∧
    (k + m) * c.layout.chunkCapacity + p + n = total ∧ p ≤ c.layout.chunkCapacity ∧
    (0 < k + m → 0 < p + n) ∧ (p = 0 ∨ n = 0)

theorem ends_fillPending {fed n : Nat} (hv : c.Fed P fed v) (hp : fed + n ≤ c.payload.length) :
    Ends (c.Filled P (fed + n) v) (fun _ _ => maxBlocks < c.blocks)
      (exec (StreamWriter.fillPending P never (slice c.payload fed n)) v) := by
  obtain ⟨k, m, he, h1, h2, h3, h4⟩ := hv.cut
  have hc := capacity_pos (c := c)
  set q := (k + m) * c.layout.chunkCapacity with hq
  have hsucc : (k + m + 1) * c.layout.chunkCapacity = q + c.layout.chunkCapacity := Nat.succ_mul _ _
  have hlay : v.layout.chunkCapacity = c.layout.chunkCapacity :=
    congrArg (·.layout.chunkCapacity) hv.writes.header
  have hlen : (slice c.payload fed n).length = n := slice_length_eq hp
  have hpl : v.pending.length = fed - q := by rw [h4]; exact slice_length_eq (by omega)
  have hfed : q + (fed - q) = fed := by omega
  have hnil : v.pending = [] ↔ fed = q := by rw [← List.length_eq_zero_iff, hpl]; omega
  have hdata : slice c.payload fed n = [] ↔ n = 0 := by rw [← List.length_eq_zero_iff, hlen]
  rw [StreamWriter.fillPending, exec_bind_ok (exec_get _)]
  split
  · rename_i h
    simp only [hlay, hpl]
    have htake : v.pending ++ (slice c.payload fed n).take (c.layout.chunkCapacity - (fed - q)) =
        slice c.payload q (fed - q + min (c.layout.chunkCapacity - (fed - q)) n) := by
      rw [slice_add, hfed, h4, take_slice]
    have hq0 : 0 < fed - q := by
      have := mt hnil.mpr h.1
      omega
    rw [exec_bind_ok (exec_set _ _), htake, drop_slice]
    split
    · -- the whole piece is pending now
      rename_i hview
      have hn : n ≤ c.layout.chunkCapacity - (fed - q) := by
        by_contra hgt
        have := congrArg List.length hview
        rw [slice_length_eq (by omega), List.length_nil] at this
        omega
      rw [Nat.min_eq_right hn, hview]
      refine ⟨k, m, fed - q + n, 0, ?_, rfl, by simp, by omega, by omega, by omega, Or.inr rfl⟩
      rw [he]
      rfl
    · -- what was pending is a full chunk, and the piece goes on
      rename_i hview
      have hn : c.layout.chunkCapacity - (fed - q) < n := by
        by_contra hle
        rw [show n - (c.layout.chunkCapacity - (fed - q)) = 0 by omega] at hview
        exact hview (slice_length_zero _ _)
      have hlt : k + m + 1 < c.blocks := lt_blocks (by rw [hsucc]; omega)
      have hchunk : slice c.payload q (fed - q + min (c.layout.chunkCapacity - (fed - q)) n) =
          c.chunk (k + m) := by
        rw [chunk_eq (by omega), Nat.min_eq_left (by omega)]
        congr 1
        omega
      rw [hchunk]
      have hset : ({ v with pending := c.chunk (k + m) } : StreamWriter) =
          c.batched P k m { v with pending := c.chunk (k + m) } := by
        rw [he]
        rfl
      rw [hset]
      refine ends_bind (ends_queue P ⟨hv.writes.header, hv.writes.dataKey⟩ hlt) ?_
      rintro _ t ⟨k', m', hkm, rfl⟩
      rw [exec_bind_ok (exec_modify _ _), exec_pure]
      refine ⟨k', m', 0, n - (c.layout.chunkCapacity - (fed - q)), rfl, by simp, ?_, ?_, by omega,
        by omega, Or.inl rfl⟩
      · rw [hkm, hsucc]
        congr 1
        omega
      · rw [hkm, hsucc]
        omega
  · rename_i h
    have h' : fed = q ∨ n = 0 := by
      by_contra hno
      exact h ⟨mt hnil.mp (mt Or.inl hno), mt hdata.mp (mt Or.inr hno)⟩
    refine ⟨k, m, fed - q, n, he, h4, by rw [hfed], by omega, by omega, by omega, ?_⟩
    omega

/-- **One write**, of whatever length. -/
theorem ends_write {fed n : Nat} (hv : c.Fed P fed v) (hp : fed + n ≤ c.payload.length) :
    Ends (fun _ t => c.Fed P (fed + n) t) (fun _ _ => maxBlocks < c.blocks)
      (exec (StreamWriter.write P never (slice c.payload fed n)) v) := by
  have hc := capacity_pos (c := c)
  have hlen : (slice c.payload fed n).length = n := slice_length_eq hp
  rw [StreamWriter.write, exec_bind_ok (exec_ensureOpen hv.closed)]
  refine ends_bind (ends_fillPending P hv hp) ?_
  rintro view t ⟨k, m, p, n', ht, hpend, rfl, hsum, hpc, hpos, hor⟩
  have hwr : c.Writes { v with pending := t.pending } := ⟨hv.writes.header, hv.writes.dataKey⟩
  have hvl : (slice c.payload ((k + m) * c.layout.chunkCapacity + p) n').length = n' :=
    slice_length_eq (by omega)
  -- either nothing is pending, or nothing is left and the loop does not turn
  have hloop : Ends (fun rest u => ∃ k' m', u = c.batched P k' m' { v with pending := t.pending } ∧
      t.pending ++ rest = slice c.payload ((k' + m') * c.layout.chunkCapacity)
        (fed + n - (k' + m') * c.layout.chunkCapacity) ∧
      (k' + m') * c.layout.chunkCapacity ≤ fed + n ∧
      fed + n ≤ (k' + m' + 1) * c.layout.chunkCapacity ∧
      (0 < k' + m' → (k' + m') * c.layout.chunkCapacity < fed + n))
      (fun _ _ => maxBlocks < c.blocks)
      (exec (StreamWriter.queueFull P never n'
        (slice c.payload ((k + m) * c.layout.chunkCapacity + p) n')) t) := by
    have hsucc : (k + m + 1) * c.layout.chunkCapacity =
        (k + m) * c.layout.chunkCapacity + c.layout.chunkCapacity := Nat.succ_mul _ _
    rcases hor with rfl | rfl
    · have hnil : t.pending = [] := by rw [hpend]; exact slice_length_zero _ _
      have hq := ends_queueFull P hwr n' n' (k := k) (m := m) le_rfl (by omega)
      rw [← ht] at hq
      refine hq.mono ?_ fun _ _ h => h
      rintro rest u ⟨k', m', v', h1, rfl, h2, h3, h4, h5⟩
      have hsucc' : (k' + m' + 1) * c.layout.chunkCapacity =
        (k' + m') * c.layout.chunkCapacity + c.layout.chunkCapacity := Nat.succ_mul _ _
      refine ⟨k', m', h1, ?_, by omega, by omega, fun h => ?_⟩
      · rw [hnil, List.nil_append]
        congr 1
        omega
      · rcases Nat.eq_zero_or_pos n' with h0 | h0
        · have := hpos (by rw [← h5 (by omega)]; exact h)
          omega
        · have := h4 h0
          omega
    · rw [StreamWriter.queueFull, exec_pure, slice_length_zero]
      refine ⟨k, m, ht, ?_, by omega, by omega, fun h => ?_⟩
      · rw [List.append_nil, hpend]
        congr 1
        omega
      · have := hpos h
        omega
  rw [hvl]
  refine ends_bind hloop ?_
  rintro rest u ⟨k', m', rfl, h1, h2, h3, h4⟩
  rw [exec_bind_ok (exec_modify _ _), exec_pure]
  refine ⟨⟨hwr.header, hwr.dataKey⟩, hv.closed, hv.summary, ?_, k', m', rfl, h2, h3, h4, h1⟩
  show v.plaintextBytes + (slice c.payload fed n).length = _
  rw [hlen, hv.plaintextBytes]

/-! ## 4. Closing -/

/-- After the last first copy the window holds what is still to be stored. -/
theorem stored_add (t : Nat) : c.stored P (c.blocks + t) = c.stored P c.blocks ++
    ((List.range' (c.blocks - c.layout.interleave)
      (c.blocks + t - c.layout.interleave - (c.blocks - c.layout.interleave))).map
        (c.slot P)).flatten := by
  induction t with
  | zero =>
    rw [Nat.add_zero, Nat.sub_self]
    simp
  | succ t ih =>
    have hb : ¬ c.blocks + t < c.blocks := by omega
    have hstep : c.stored P (c.blocks + (t + 1)) = c.stored P (c.blocks + t) ++
        if c.layout.interleave ≤ c.blocks + t then
          c.slot P (c.blocks + t - c.layout.interleave) else [] := by
      rw [← Nat.add_assoc, stored, List.range_succ, List.flatMap_append, List.map_append,
        List.flatten_append, List.flatMap_singleton, scheduleStep, if_neg hb]
      congr 1
      split <;> simp
    rw [hstep, ih]
    by_cases hI : c.layout.interleave ≤ c.blocks + t
    · have hn : c.blocks + (t + 1) - c.layout.interleave - (c.blocks - c.layout.interleave) =
          c.blocks + t - c.layout.interleave - (c.blocks - c.layout.interleave) + 1 := by omega
      have hlast : c.blocks - c.layout.interleave +
          (c.blocks + t - c.layout.interleave - (c.blocks - c.layout.interleave)) =
            c.blocks + t - c.layout.interleave := by omega
      rw [if_pos hI, hn, List.range'_concat, Nat.one_mul, hlast, List.map_append,
        List.flatten_append, List.map_singleton, List.flatten_singleton, List.append_assoc]
    · have hn : c.blocks + (t + 1) - c.layout.interleave - (c.blocks - c.layout.interleave) =
          c.blocks + t - c.layout.interleave - (c.blocks - c.layout.interleave) := by omega
      rw [if_neg hI, hn, List.append_nil]

theorem stored_blocks : c.stored P c.blocks ++ (c.windowAt P c.blocks).flatten =
    (c.slots P).flatten := by
  have h := stored_add P (c := c) c.layout.interleave
  rw [Nat.add_sub_cancel] at h
  exact h.symm

/-- `w` with its window stored. -/
def drained (w : StreamWriter) : StreamWriter :=
  { w with window := [], out := w.out ++ w.window.flatten, emits := w.emits + w.window.length
           containerBytes := w.containerBytes + w.window.flatten.length }

theorem exec_drainWindow (window : List Bytes) (w : StreamWriter) (hw : w.window = window) :
    exec (StreamWriter.drainWindow never window.length) w = (.ok (), drained w) := by
  induction window generalizing w with
  | nil => simp [StreamWriter.drainWindow, drained, hw]; cases w; simp_all
  | cons slot rest ih =>
    rw [List.length_cons, StreamWriter.drainWindow, exec_bind_ok (exec_get _), hw]
    simp only
    rw [exec_bind_ok (exec_set _ _), exec_bind_ok (StreamWriter.exec_emit _ _), ih _ rfl]
    simp only [drained, StreamWriter.emitted, hw, List.flatten_cons, List.length_append,
      List.length_cons, List.append_assoc, Prod.mk.injEq, true_and]
    congr 1 <;> omega

/-- What a closed writer has done. -/
structure Closed (w : StreamWriter) (summary : StreamSummary) : Prop where
  out : w.out = c.bytes P
  blocks : summary.blocks = c.blocks
  plaintextBytes : summary.plaintextBytes = c.payload.length
  containerBytes : summary.containerBytes = (c.bytes P).length
  sha256 : summary.sha256 = P.sha256 (c.bytes P)
  blocks_le : c.blocks ≤ maxBlocks

/-- **The stores of a close** complete the container. -/
theorem ends_finishContainer (hv : c.Fed P c.payload.length v) :
    Ends (fun _ t => t.out = c.bytes P ∧ t.nextIndex = c.blocks ∧ c.blocks ≤ maxBlocks ∧
        t.plaintextBytes = c.payload.length ∧ t.containerBytes = (c.bytes P).length)
      (fun _ _ => maxBlocks < c.blocks)
      (exec (StreamWriter.finishContainer P never) v) := by
  obtain ⟨k, m, he, h1, h2, h3, h4⟩ := hv.cut
  have hn : c.blocks = k + m + 1 := blocks_of_bounds h2 h3
  have hlast : v.pending = c.chunk (k + m) := by
    rw [h4, chunk_eq (by omega), slice, slice]
    have hl : (c.payload.drop ((k + m) * c.layout.chunkCapacity)).length ≤ c.layout.chunkCapacity := by
      rw [Nat.succ_mul] at h2
      rw [List.length_drop]
      omega
    rw [List.take_of_length_le hl, List.take_of_length_le (by rw [List.length_drop])]
  set w : StreamWriter :=
    { v with pending := [], finalChunkLen := (c.chunk (k + m)).length + tagLength } with hw
  have hstart : exec (modify fun v : StreamWriter => { v with
      pending := [], finalChunkLen := v.pending.length + tagLength
      batch := v.batch ++ [v.pending] } : Writing PUnit) v =
        (.ok ⟨⟩, c.batched P k (m + 1) w) := by
    rw [exec_modify, hlast, hw]
    conv_lhs => rw [he]
    simp only [batched, holding, List.range'_concat, List.map_append, Nat.one_mul]
    rfl
  rw [StreamWriter.finishContainer, exec_bind_ok hstart]
  refine ends_bind (ends_flush P ⟨hv.writes.header, hv.writes.dataKey⟩ (Nat.succ_pos m) (by omega)
    ⟨fun _ => hn.symm, fun _ => rfl⟩) ?_
  rintro _ t ⟨rfl, hmax⟩
  have hkm : k + (m + 1) = c.blocks := by omega
  rw [hkm, exec_bind_ok (exec_get _), exec_bind_ok (exec_drainWindow _ _ rfl),
    exec_bind_ok (exec_get _)]
  have htrailer : (drained (c.batched P c.blocks 0 w)).trailerOf P = c.trailer P := by
    simp only [StreamWriter.trailerOf, trailer, drained, batched, holding, hw, hv.plaintextBytes,
      hv.writes.header, show c.blocks - 1 = k + m by omega]
  have hheader : (drained (c.batched P c.blocks 0 w)).sealedHeader P = c.header.seal P :=
    congrArg (fun h : StreamHeader => h.seal P) hv.writes.header
  simp only [htrailer, hheader]
  rw [exec_bind_ok (StreamWriter.exec_emit _ _), exec_bind_ok (StreamWriter.exec_emit _ _),
    StreamWriter.exec_emit]
  have hout : c.header.seal P ++ c.stored P c.blocks ++ (c.windowAt P c.blocks).flatten ++
      (c.trailer P).seal P ++ (c.trailer P).seal P ++ c.header.seal P = c.bytes P := by
    rw [bytes, ← stored_blocks P]
    simp only [List.append_assoc]
  refine ⟨hout, rfl, by omega, hv.plaintextBytes, ?_⟩
  rw [← hout]
  simp only [StreamWriter.emitted, drained, batched, holding, List.length_append,
    StreamHeader.seal_length]

/-- **Closing** the writer of the whole payload. -/
theorem ends_close (hv : c.Fed P c.payload.length v) :
    Ends (fun summary t => c.Closed P t summary) (fun _ _ => maxBlocks < c.blocks)
      (exec (StreamWriter.close P never) v) := by
  rw [StreamWriter.close, exec_bind_ok (exec_get _), hv.summary]
  simp only
  rw [exec_bind_ok (exec_ensureOpen hv.closed)]
  refine ends_bind (ends_tryCatch (ends_finishContainer P hv) ?_) ?_
  · intro e t h
    rw [exec_bind_ok (exec_modify _ _), exec_throw]
    exact h
  · rintro _ t ⟨h1, h2, h3, h4, h5⟩
    rw [exec_bind_ok (exec_get _), exec_bind_ok (exec_set _ _), exec_pure]
    exact ⟨h1, h2, h4, h5, congrArg P.sha256 h1, h3⟩

end Contents

/-! ## 5. Whole runs -/

/-- What a writer that is given these pieces writes. -/
def contentsOf (w : StreamWriter) (pieces : List Bytes) : Contents :=
  ⟨w.header, w.dataKey, pieces.flatten⟩

/-- A new writer has written nothing of any payload. -/
structure Fresh (P : Primitives) (w : StreamWriter) : Prop where
  fed : ∀ payload, (Contents.mk w.header w.dataKey payload).Fed P 0 w

/-- **A whole run**, from a new writer: it stores the container of the joined pieces. -/
theorem ends_writeAll (P : Primitives) {w : StreamWriter} (hw : Fresh P w) (pieces : List Bytes) :
    Ends (fun summary t => (contentsOf w pieces).Closed P t summary)
      (fun _ _ => maxBlocks < (contentsOf w pieces).blocks)
      (exec (StreamWriter.writeAll P never pieces) w) := by
  set c := contentsOf w pieces with hc
  have hturn : ∀ done piece rest s, pieces = done ++ piece :: rest →
      c.Fed P done.flatten.length s →
      Ends (fun _ t => c.Fed P (done ++ [piece]).flatten.length t) (fun _ _ => maxBlocks < c.blocks)
        (exec (do let _ ← StreamWriter.write P never piece) s) := by
    intro done piece rest s hl hs
    have hpay : c.payload = done.flatten ++ (piece ++ rest.flatten) := by
      show pieces.flatten = _
      rw [hl, List.flatten_append, List.flatten_cons]
    have hpiece : slice c.payload done.flatten.length piece.length = piece := by
      rw [hpay, slice_append_right _ _ _ le_rfl, Nat.sub_self]
      exact List.take_left' rfl
    have hlen : done.flatten.length + piece.length ≤ c.payload.length := by
      rw [hpay]
      simp only [List.length_append]
      omega
    have h := Contents.ends_write P hs hlen
    rw [hpiece] at h
    refine ends_bind h fun _ t ht => ?_
    rw [List.flatten_append, List.flatten_singleton, List.length_append]
    exact ht
  refine ends_bind (ends_forM hturn (hw.fed _)) fun _ t ht => ?_
  exact Contents.ends_close P ht

theorem fresh_emitted (P : Primitives) (header : StreamHeader) (dataKey : Bytes) (workers : Nat) :
    Fresh P (StreamWriter.emitted { header, dataKey, workers } (header.seal P)) := by
  refine ⟨fun payload => ⟨⟨rfl, rfl⟩, rfl, rfl, rfl, 0, 0, ?_, ?_, ?_, nofun, ?_⟩⟩
  · simp only [Contents.batched, Contents.holding, Contents.windowAt, Contents.stored,
      StreamWriter.emitted, StreamHeader.seal_length]
    simp
  · simp
  · exact Nat.zero_le _
  · rw [Nat.zero_sub, slice_length_zero]
    rfl

namespace StreamWriter

variable {P : Primitives}

/-- What `newHeader` builds from. -/
structure HeaderOf (P : Primitives) (drawn : Drawn) (passphrase : Bytes) (params : KDFParams)
    (layout : StreamLayout) (flags : Nat) (header : StreamHeader) : Prop where
  flags : header.flags = flags
  layout : header.layout = layout
  kdfParams : header.kdfParams = params
  salt : header.salt = drawn.salt
  containerId : header.containerId = drawn.containerId
  noncePrefix : header.noncePrefix = drawn.noncePrefix
  wrapped : ∃ kek, deriveKey P passphrase drawn.salt params = .ok kek ∧
    header.wrapNonce = drawn.wrapNonce ∧
    header.wrappedKey = wrapKey P kek drawn.wrapNonce drawn.dataKey header.keyBinding

variable {layout : StreamLayout} {params : KDFParams} {passphrase : Bytes}

theorem newHeader_ok {drawn : Drawn} {flags : Nat} {hf : flags < 2 ^ 16} {hl : layout.Valid}
    {hk : params.validateUntrusted = .ok ()} {header : StreamHeader}
    (h : newHeader P drawn passphrase params layout flags hf hl hk = .ok header) :
    HeaderOf P drawn passphrase params layout flags header := by
  unfold newHeader at h
  cases hkek : deriveKey P passphrase drawn.salt params with
  | error e => rw [hkek] at h; cases h
  | ok kek =>
    rw [hkek] at h
    cases h
    exact ⟨rfl, rfl, rfl, rfl, rfl, rfl, kek, hkek, rfl,
      congrArg (wrapKey P kek drawn.wrapNonce drawn.dataKey)
        (StreamHeader.keyBinding_congr rfl rfl rfl rfl rfl rfl)⟩

variable {drawn : Drawn} {workers flags : Nat} {w : StreamWriter}

/-- A writer is there when its header could be made and stored. -/
theorem create_stored {fails : Nat → Bool}
    (h : create P fails drawn passphrase params layout workers flags = .ok w) :
    ∃ hf hl hk header, newHeader P drawn passphrase params layout flags hf hl hk = .ok header ∧
      exec (emit fails (header.seal P)) { header, dataKey := drawn.dataKey, workers } =
      (.ok (), w) := by
  unfold create at h
  split at h
  · cases h
  split at h
  · rename_i hl hf
    split at h
    · cases h
    split at h
    · cases h
    · rename_i hk
      cases hh : newHeader P drawn passphrase params layout flags hf ⟨hl⟩ hk with
      | error e => rw [hh] at h; cases h
      | ok header =>
        refine ⟨hf, ⟨hl⟩, hk, header, hh, ?_⟩
        rw [hh] at h
        dsimp only [bind, Except.bind] at h
        generalize exec (emit fails (header.seal P)) { header, dataKey := drawn.dataKey, workers } =
          x at h ⊢
        obtain ⟨stored, t⟩ := x
        cases stored with
        | error e => cases h
        | ok u =>
          cases h
          rfl
  · cases h

/-- **A new writer** has stored its header and nothing else; its header does not depend on the number
    of workers. -/
theorem create_ok (h : create P never drawn passphrase params layout workers flags = .ok w) :
    Fresh P w ∧ w.dataKey = drawn.dataKey ∧
      HeaderOf P drawn passphrase params layout flags w.header := by
  obtain ⟨_, _, _, header, hh, hemit⟩ := create_stored h
  cases hemit
  exact ⟨fresh_emitted P header drawn.dataKey workers, rfl, newHeader_ok hh⟩

/-- The header is decided by what it is built from. -/
theorem HeaderOf.unique {drawn : Drawn} {flags : Nat} {header header' : StreamHeader}
    (h : HeaderOf P drawn passphrase params layout flags header)
    (h' : HeaderOf P drawn passphrase params layout flags header') : header = header' := by
  obtain ⟨kek, hk, hn, hw⟩ := h.wrapped
  obtain ⟨kek', hk', hn', hw'⟩ := h'.wrapped
  have h1 := h.flags.trans h'.flags.symm
  have h2 := h.layout.trans h'.layout.symm
  have h3 := h.kdfParams.trans h'.kdfParams.symm
  have h4 := h.salt.trans h'.salt.symm
  have h5 := h.containerId.trans h'.containerId.symm
  have h6 := h.noncePrefix.trans h'.noncePrefix.symm
  have h7 := hn.trans hn'.symm
  have h8 : header.wrappedKey = header'.wrappedKey := by
    rw [hw, hw', StreamHeader.keyBinding_congr h1 h2 h3 h4 h5 h6]
    rw [hk] at hk'
    cases hk'
    rfl
  cases header
  cases header'
  rw [StreamHeader.mk.injEq]
  exact ⟨h1, h2, h3, h4, h5, h6, h7, h8⟩

/-- A writer comes out for every valid layout. -/
theorem create_returns (drawn : Drawn) (passphrase : Bytes) (hk : params.validateUntrusted = .ok ())
    (hl : layoutProblem layout.blockSize layout.nsym layout.interleave = none) {workers flags : Nat}
    (hw : 1 ≤ workers) (hf : flags < 2 ^ 16) :
    ∃ w, create P never drawn passphrase params layout workers flags = .ok w := by
  have hv := (KDFParams.validateUntrusted_ok hk).1
  have hh : ∃ header, newHeader P drawn passphrase params layout flags hf ⟨hl⟩ hk = .ok header := by
    unfold newHeader deriveKey
    rw [hv]
    exact ⟨_, rfl⟩
  obtain ⟨header, hh⟩ := hh
  unfold create
  split
  · rename_i problem hp
    rw [hl] at hp
    cases hp
  · rw [dif_pos hf, if_neg (by omega)]
    split
    · rename_i e he
      rw [hk] at he
      cases he
    · rw [hh]
      exact ⟨_, rfl⟩

end StreamWriter

/-- The bytes of a run that ends with a closed writer. -/
def written (P : Primitives) (w : StreamWriter) (pieces : List Bytes) : Option Bytes :=
  match exec (StreamWriter.writeAll P never pieces) w with
  | (.ok _, t) => some t.out
  | (.error _, _) => none

/-- **What a run stores** is decided by the header, the data key and the joined pieces. -/
theorem written_eq {P : Primitives} {w : StreamWriter} (hw : Fresh P w) (pieces : List Bytes) :
    written P w pieces = if (contentsOf w pieces).blocks ≤ maxBlocks then
      some ((contentsOf w pieces).bytes P) else none := by
  have h := ends_writeAll P hw pieces
  unfold written
  revert h
  cases exec (StreamWriter.writeAll P never pieces) w with
  | mk r t =>
    intro h
    cases r with
    | ok summary =>
      have hc : (contentsOf w pieces).Closed P t summary := h
      rw [if_pos hc.blocks_le]
      exact congrArg some hc.out
    | error e =>
      have hc : maxBlocks < (contentsOf w pieces).blocks := h
      rw [if_neg (by omega)]

/-- A run of a new writer that finishes stored its contents. -/
theorem written_ok {P : Primitives} {drawn : Drawn} {passphrase : Bytes} {params : KDFParams}
    {layout : StreamLayout} {workers flags : Nat} {w : StreamWriter}
    (h : StreamWriter.create P never drawn passphrase params layout workers flags = .ok w)
    {pieces : List Bytes} {C : Bytes} (hC : written P w pieces = some C) :
    (contentsOf w pieces).blocks ≤ maxBlocks ∧ C = (contentsOf w pieces).bytes P := by
  rw [written_eq (StreamWriter.create_ok h).1] at hC
  split at hC
  · exact ⟨‹_›, (Option.some.inj hC).symm⟩
  · exact absurd hC.symm (Option.some_ne_none C)

end Dbs

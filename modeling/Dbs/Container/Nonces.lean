/-
  File:      Dbs/Container/Nonces.lean
  Subject:   NO NONCE TWICE, AND NO COUNT TOO LARGE: every sequence of writes, closes and aborts on one
             writer, whichever writes of the sink raise and wherever exceptions fall.

  A flush takes the indices of its chunks before it seals any of them, so an index that was ever
  sealed lies below `nextIndex` for good.

  * `StreamWriter.Counted` -- the bytes taken in fit the chunks taken in; `ends_storeRest` -- so
    the trailer's counts fit their fields;
  * `Numbered` -- every seal has an index of its own, below `nextIndex`; `numbered_flush`;
  * `nonces_unique` -- after any sequence of calls.
-/
import Dbs.Container.Interrupted
import Dbs.Container.RoundTrip

namespace Dbs

open Octets Effects

namespace StreamWriter

variable (P : Primitives) (fails : Nat → Bool)

/-! ## 1. The counts of a writer -/

/-- `t` is `w` with `k` more chunks taken into the batch or numbered. -/
structure Advanced (k : Nat) (w t : StreamWriter) : Prop where
  header : t.header = w.header
  pending : t.pending = w.pending
  plaintextBytes : t.plaintextBytes = w.plaintextBytes
  finalChunkLen : t.finalChunkLen = w.finalChunkLen
  chunks : t.nextIndex + t.batch.length = w.nextIndex + w.batch.length + k
  nextIndex : w.nextIndex ≤ maxBlocks → t.nextIndex ≤ maxBlocks

theorem Advanced.refl (w : StreamWriter) : Advanced 0 w w := ⟨rfl, rfl, rfl, rfl, rfl, id⟩

theorem Advanced.trans {j k : Nat} {w t u : StreamWriter} (h : Advanced j w t)
    (h' : Advanced k t u) : Advanced (j + k) w u where
  header := h'.header.trans h.header
  pending := h'.pending.trans h.pending
  plaintextBytes := h'.plaintextBytes.trans h.plaintextBytes
  finalChunkLen := h'.finalChunkLen.trans h.finalChunkLen
  chunks := by have := h.chunks; have := h'.chunks; omega
  nextIndex := fun hw => h'.nextIndex (h.nextIndex hw)

/-- What storing leaves alone. -/
structure SameCounts (w t : StreamWriter) : Prop where
  header : t.header = w.header
  batch : t.batch = w.batch
  pending : t.pending = w.pending
  nextIndex : t.nextIndex = w.nextIndex
  plaintextBytes : t.plaintextBytes = w.plaintextBytes
  finalChunkLen : t.finalChunkLen = w.finalChunkLen

theorem SameCounts.advanced {w t : StreamWriter} (h : SameCounts w t) : Advanced 0 w t where
  __ := h
  chunks := by rw [h.nextIndex, h.batch]; rfl
  nextIndex := fun hw => h.nextIndex ▸ hw

variable {P fails} {w : StreamWriter}

theorem keeps_emit (data : Bytes) : Keeps (SameCounts w) (emit fails data) := by
  intro t h
  rw [emit, exec_bind_ok (exec_get _)]
  simp only
  split
  · rw [exec_bind_ok (exec_set _ _)]
    exact ⟨h.1, h.2, h.3, h.4, h.5, h.6⟩
  · exact ⟨h.1, h.2, h.3, h.4, h.5, h.6⟩

theorem keeps_place (slot : Bytes) : Keeps (SameCounts w) (place fails slot) := by
  refine keeps_bind (keeps_emit slot) fun _ t h => ?_
  rw [exec_bind_ok (exec_modify _ _), exec_bind_ok (exec_get _)]
  split
  · rw [exec_bind_ok (exec_set _ _)]
    exact keeps_emit _ _ ⟨h.1, h.2, h.3, h.4, h.5, h.6⟩
  · exact ⟨h.1, h.2, h.3, h.4, h.5, h.6⟩

theorem keeps_drainWindow (fuel : Nat) : Keeps (SameCounts w) (drainWindow fails fuel) := by
  induction fuel with
  | zero => exact keeps_pure _
  | succ fuel ih =>
    intro t h
    rw [drainWindow, exec_bind_ok (exec_get _)]
    cases t.window with
    | nil => exact h
    | cons slot rest =>
      simp only
      rw [exec_bind_ok (exec_set _ _)]
      exact keeps_bind (keeps_emit slot) (fun _ => ih) _ ⟨h.1, h.2, h.3, h.4, h.5, h.6⟩

/-- **Flushing** numbers the chunks of the batch: none is added and none is lost. -/
theorem ends_flush (final : Bool) :
    Ends (fun _ t => Advanced 0 w t ∧ t.batch = []) (fun _ t => Advanced 0 w t)
      (exec (flush P fails final) w) := by
  rw [flush, exec_bind_ok (exec_get _)]
  split
  · rename_i he
    exact ⟨.refl w, List.isEmpty_iff.mp he⟩
  simp only
  split
  · exact .refl w
  rename_i hle
  rw [exec_bind_ok (exec_set _ _)]
  generalize hjobs : w.batch.zipIdx.map _ = jobs
  have hlen : jobs.length = w.batch.length := by rw [← hjobs, List.length_map, List.length_zipIdx]
  set t : StreamWriter := { w with batch := [], nextIndex := w.nextIndex + jobs.length } with ht
  have hmove : Advanced 0 w t := by
    refine ⟨rfl, rfl, rfl, rfl, ?_, fun _ => ?_⟩
    · show w.nextIndex + jobs.length + 0 = _
      rw [hlen]
    · show w.nextIndex + jobs.length ≤ maxBlocks
      omega
  have hkeep := keeps_forM (@keeps_place fails t)
    ((pieces batchBlocks jobs).flatMap
      (w.encodeJobs P · (if final = true then some (w.nextIndex + w.batch.length - 1) else none)))
  refine (keeps_iff_ends.mp hkeep _ ⟨rfl, rfl, rfl, rfl, rfl, rfl⟩).mono ?_ ?_
  · exact fun _ u hu => ⟨hmove.trans hu.advanced, hu.batch⟩
  · exact fun _ u hu => hmove.trans hu.advanced

theorem ends_queue (chunk : Bytes) :
    Ends (fun _ t => Advanced 1 w t) (fun _ t => Advanced 1 w t)
      (exec (queue P fails chunk) w) := by
  have hmove : Advanced 1 w { w with batch := w.batch ++ [chunk] } :=
    ⟨rfl, rfl, rfl, rfl, by rw [List.length_append, List.length_singleton, Nat.add_assoc], id⟩
  rw [queue, exec_bind_ok (exec_modify _ _), exec_bind_ok (exec_get _)]
  split
  · exact (ends_flush false).mono (fun _ t h => hmove.trans h.1) fun _ t h => hmove.trans h
  · exact hmove

/-- Queueing full chunks takes a chunk's bytes for each chunk it adds. -/
theorem ends_queueFull (fuel : Nat) (view : Bytes) :
    Ends (fun rest t => ∃ k, Advanced k w t ∧
        w.layout.chunkCapacity * k + rest.length = view.length ∧
        (view.length ≤ fuel → rest.length ≤ w.layout.chunkCapacity))
      (fun _ t => ∃ k, Advanced k w t)
      (exec (queueFull P fails fuel view) w) := by
  induction fuel generalizing view w with
  | zero => exact ⟨0, .refl w, by omega, fun h => by omega⟩
  | succ fuel ih =>
    have hpos : 0 < w.layout.chunkCapacity := w.header.layout_valid.capacity_pos
    rw [queueFull, exec_bind_ok (exec_get _)]
    simp only
    split
    · rename_i hlt
      refine ends_bind ((ends_queue _).mono (fun _ t h => h) fun _ t h => ⟨1, h⟩) fun _ t h => ?_
      have hcap : t.layout.chunkCapacity = w.layout.chunkCapacity :=
        congrArg (·.layout.chunkCapacity) h.header
      refine (ih (w := t) (view.drop w.layout.chunkCapacity)).mono ?_ ?_
      · intro rest u hu
        obtain ⟨k, hk, hlen, hrest⟩ := hu
        rw [List.length_drop, hcap] at hlen hrest
        refine ⟨1 + k, h.trans hk, ?_, fun hv => hrest (by omega)⟩
        rw [Nat.mul_add, Nat.mul_one]
        omega
      · intro e u hu
        obtain ⟨k, hk⟩ := hu
        exact ⟨1 + k, h.trans hk⟩
    · rename_i hle
      exact ⟨0, .refl w, by omega, fun _ => by omega⟩

/-- **The bytes taken in fit the chunks taken in** and what is pending. -/
structure Counted (w : StreamWriter) : Prop where
  nextIndex : w.nextIndex ≤ maxBlocks
  pending : w.pending.length ≤ w.layout.chunkCapacity
  plaintextBytes : w.plaintextBytes ≤
    w.layout.chunkCapacity * (w.nextIndex + w.batch.length) + w.pending.length

theorem Counted.advanced {k : Nat} {t : StreamWriter} (hw : Counted w) (h : Advanced k w t) :
    Counted t := by
  have hcap : t.layout.chunkCapacity = w.layout.chunkCapacity :=
    congrArg (·.layout.chunkCapacity) h.header
  refine ⟨h.nextIndex hw.nextIndex, ?_, ?_⟩
  · rw [h.pending, hcap]
    exact hw.pending
  · rw [h.plaintextBytes, h.pending, hcap, h.chunks, Nat.mul_add]
    have := hw.plaintextBytes
    omega

/-- What is left of `data` is not counted yet: it goes behind what is pending, or there is none. -/
structure Taking (data view : Bytes) (w : StreamWriter) : Prop where
  counted : Counted w
  plaintextBytes : w.plaintextBytes + data.length ≤
    w.layout.chunkCapacity * (w.nextIndex + w.batch.length) + w.pending.length + view.length
  apart : w.pending = [] ∨ view = []

theorem ends_fillPending (hw : Counted w) (data : Bytes) :
    Ends (fun view t => Taking data view t) (fun _ t => Counted t)
      (exec (fillPending P fails data) w) := by
  have hp := hw.pending
  have hb := hw.plaintextBytes
  rw [fillPending, exec_bind_ok (exec_get _)]
  simp only
  split
  · set room := w.layout.chunkCapacity - w.pending.length with hroom
    set v : StreamWriter := { w with pending := w.pending ++ data.take room } with hv
    have hvp : v.pending.length = w.pending.length + min room data.length := by
      rw [hv, List.length_append, List.length_take]
    have hvc : Counted v := by
      refine ⟨hw.nextIndex, ?_, ?_⟩
      · rw [hvp]
        show _ ≤ w.layout.chunkCapacity
        omega
      · rw [hvp]
        show w.plaintextBytes ≤ w.layout.chunkCapacity * (w.nextIndex + w.batch.length) + _
        omega
    rw [exec_bind_ok (exec_set _ _)]
    split
    · rename_i hnil
      have hdrop : data.length - room = 0 := by rw [← List.length_drop, hnil]; rfl
      refine ⟨hvc, ?_, .inr hnil⟩
      rw [hvp, hnil]
      show w.plaintextBytes + data.length ≤
        w.layout.chunkCapacity * (w.nextIndex + w.batch.length) + _ + 0
      omega
    · rename_i hne
      have hlt : room < data.length := by
        by_contra hge
        exact hne (List.drop_of_length_le (by omega))
      refine ends_bind (M := fun _ t => Advanced 1 v t) ?_ fun _ t h => ?_
      · exact (ends_queue _).mono (fun _ t h => h) fun _ t h => hvc.advanced h
      · rw [exec_bind_ok (exec_modify _ _)]
        have hcap : t.layout.chunkCapacity = w.layout.chunkCapacity :=
          congrArg (·.layout.chunkCapacity) h.header
        have hbytes : w.plaintextBytes + data.length ≤ t.layout.chunkCapacity *
            (t.nextIndex + t.batch.length) + 0 + (data.drop room).length := by
          rw [h.chunks, hcap, Nat.mul_add, List.length_drop]
          show _ ≤ w.layout.chunkCapacity * (w.nextIndex + w.batch.length) + _ + _ + _
          omega
        refine ⟨⟨h.nextIndex hw.nextIndex, Nat.zero_le _, ?_⟩, ?_, .inl rfl⟩
        · show t.plaintextBytes ≤ t.layout.chunkCapacity * (t.nextIndex + t.batch.length) + 0
          rw [h.plaintextBytes]
          show w.plaintextBytes ≤ _
          rw [List.length_drop] at hbytes
          omega
        · show t.plaintextBytes + data.length ≤ _
          rw [h.plaintextBytes]
          exact hbytes
  · rename_i hor
    refine ⟨hw, Nat.add_le_add_right hb _, ?_⟩
    exact (Classical.not_and_iff_not_or_not.mp hor).imp not_not.mp not_not.mp

/-- **A write keeps the counts**, whether it returns or raises. -/
theorem ends_write (hw : Counted w) (data : Bytes) :
    Ends (fun _ t => Counted t) (fun _ t => Counted t) (exec (write P fails data) w) := by
  have hopen : Ends (fun _ t => t = w) (fun _ t => Counted t) (exec ensureOpen w) := by
    rw [ensureOpen, exec_bind_ok (exec_get _)]
    split
    · exact hw
    · exact rfl
  refine ends_bind hopen fun _ t ht => ?_
  subst ht
  refine ends_bind (ends_fillPending hw data) fun view t ht => ?_
  have hfull := @ends_queueFull P fails t view.length view
  refine ends_bind (hfull.mono (fun _ _ h => h) ?_) fun rest u hu => ?_
  · intro e u hu
    obtain ⟨k, hk⟩ := hu
    exact ht.counted.advanced hk
  · obtain ⟨k, hk, hlen, hrest⟩ := hu
    have hcap : u.layout.chunkCapacity = t.layout.chunkCapacity :=
      congrArg (·.layout.chunkCapacity) hk.header
    have hpend := ht.counted.pending
    have hbytes := ht.plaintextBytes
    have hjoin : t.pending.length + rest.length ≤ t.layout.chunkCapacity := by
      rcases ht.apart with h | h
      · rw [h, List.length_nil, Nat.zero_add]
        exact hrest le_rfl
      · rw [h, List.length_nil] at hlen
        omega
    rw [exec_bind_ok (exec_modify _ _)]
    refine ⟨hk.nextIndex ht.counted.nextIndex, ?_, ?_⟩
    · show (u.pending ++ rest).length ≤ u.layout.chunkCapacity
      rw [List.length_append, hk.pending, hcap]
      exact hjoin
    · show u.plaintextBytes + data.length ≤
        u.layout.chunkCapacity * (u.nextIndex + u.batch.length) + (u.pending ++ rest).length
      rw [List.length_append, hk.pending, hk.plaintextBytes, hcap, hk.chunks, Nat.mul_add]
      omega

/-- **The counts of a close** fit the fields of its trailer. -/
theorem ends_storeRest (hw : Counted w) :
    Ends (fun _ t => Recorder.counted (t.trailerOf P)) (fun _ _ => True)
      (exec (storeRest P fails) w) := by
  have hbounds := w.header.layout_valid.bounds
  have hp := hw.pending
  have hb := hw.plaintextBytes
  set v : StreamWriter := { w with
    pending := [], finalChunkLen := w.pending.length + tagLength, batch := w.batch ++ [w.pending] }
  have hflush := @ends_flush P fails v true
  rw [storeRest, exec_bind_ok (exec_modify _ _)]
  refine ends_bind (hflush.mono (fun _ _ h => h) fun _ _ _ => trivial) fun _ t ht => ?_
  obtain ⟨h, hbatch⟩ := ht
  have hnum := h.chunks
  have hnext := h.nextIndex hw.nextIndex
  have hcap : w.layout.chunkCapacity ≤ 2 ^ 24 := by
    show w.header.layout.blockSize - chunkOverhead ≤ 2 ^ 24
    omega
  rw [hbatch] at hnum
  change t.nextIndex + 0 = w.nextIndex + (w.batch ++ [w.pending]).length + 0 at hnum
  rw [List.length_append, List.length_singleton] at hnum
  have hmul : w.layout.chunkCapacity * t.nextIndex ≤ 2 ^ 24 * 2 ^ 32 :=
    Nat.mul_le_mul hcap (by unfold maxBlocks maxChunks at hnext; omega)
  have hall : w.plaintextBytes ≤ w.layout.chunkCapacity * t.nextIndex := by
    rw [show t.nextIndex = w.nextIndex + w.batch.length + 1 by omega, Nat.mul_succ]
    omega
  rw [exec_bind_ok (exec_get _)]
  refine (keeps_iff_ends.mp (keeps_drainWindow (w := t) _) _ ⟨rfl, rfl, rfl, rfl, rfl, rfl⟩).mono ?_
    fun _ _ _ => trivial
  intro _ u hu
  refine ⟨?_, ?_, ?_⟩
  · show u.nextIndex < 256 ^ 8
    rw [hu.nextIndex]
    unfold maxBlocks maxChunks at hnext
    omega
  · show u.plaintextBytes < 256 ^ 8
    rw [hu.plaintextBytes, h.plaintextBytes]
    show w.plaintextBytes < 256 ^ 8
    omega
  · show u.finalChunkLen < 256 ^ 4
    rw [hu.finalChunkLen, h.finalChunkLen]
    show w.pending.length + tagLength < 256 ^ 4
    unfold tagLength
    omega

end StreamWriter

namespace Recorder

variable (P : Primitives) (fails interrupted : Nat → Bool)

/-! ## 2. The seals -/

/-- **Every seal has an index of its own**, below the writer's next one. -/
structure Numbered (r : Recorder) : Prop where
  lt_nextIndex : ∀ s ∈ r.seals, s.index < r.writer.nextIndex
  noncePrefix : ∀ s ∈ r.seals, s.noncePrefix.length = noncePrefixLength
  nodup : (r.seals.map Sealing.index).Nodup
  nextIndex : r.writer.nextIndex ≤ maxBlocks
  trailers : ∀ t ∈ r.trailers, Struct.Fits trailerBody t.values

/-- `u` is `r` with seals of some of the jobs. -/
structure SealedOf (jobs : List (Nat × Bytes)) (r u : Recorder) : Prop where
  writer : u.writer = r.writer
  trailers : u.trailers = r.trailers
  seals : ∃ made, u.seals = r.seals ++ made ∧ (made.map Sealing.index).Sublist (jobs.map Prod.fst) ∧
    ∀ s ∈ made, s.noncePrefix.length = noncePrefixLength

theorem SealedOf.refl (jobs : List (Nat × Bytes)) {r u : Recorder} (hw : u.writer = r.writer)
    (ht : u.trailers = r.trailers) (hs : u.seals = r.seals) : SealedOf jobs r u :=
  ⟨hw, ht, [], by rw [hs, List.append_nil], List.nil_sublist _, by simp⟩

theorem SealedOf.append {jobs jobs' : List (Nat × Bytes)} {r u v : Recorder} (h : SealedOf jobs r u)
    (h' : SealedOf jobs' u v) : SealedOf (jobs ++ jobs') r v := by
  obtain ⟨made, hs, hsub, hp⟩ := h.seals
  obtain ⟨made', hs', hsub', hp'⟩ := h'.seals
  refine ⟨h'.writer.trans h.writer, h'.trailers.trans h.trailers, made ++ made', ?_, ?_, ?_⟩
  · rw [hs', hs, List.append_assoc]
  · rw [List.map_append, List.map_append]
    exact hsub.append hsub'
  · intro s hm
    exact (List.mem_append.mp hm).elim (hp s) (hp' s)

theorem SealedOf.left {jobs : List (Nat × Bytes)} (jobs' : List (Nat × Bytes)) {r u : Recorder}
    (h : SealedOf jobs r u) : SealedOf (jobs ++ jobs') r u :=
  h.append (.refl jobs' rfl rfl rfl)

variable {interrupted} {r : Recorder}

theorem ends_point : Ends (fun _ u => u = { r with points := r.points + 1 })
    (fun _ u => u = { r with points := r.points + 1 }) (exec (point interrupted) r) := by
  rw [point, exec_bind_ok (exec_get _), exec_bind_ok (exec_set _ _)]
  split
  · exact rfl
  · exact rfl

theorem ends_change (f : StreamWriter → StreamWriter) :
    Ends (fun _ u => u = { r with writer := f r.writer, points := r.points + 1 })
      (fun _ u => u = { r with writer := f r.writer, points := r.points + 1 })
      (exec (change interrupted f) r) := by
  rw [change, exec_bind_ok (exec_modify _ _)]
  exact ends_point

section

variable (w : StreamWriter)

include w

theorem ends_encodeBlocks (finalIndex : Option Nat) (jobs : List (Nat × Bytes)) :
    Ends (fun _ u => SealedOf jobs r u) (fun _ u => SealedOf jobs r u)
      (exec (encodeBlocks P interrupted w finalIndex jobs) r) := by
  induction jobs generalizing r with
  | nil => exact .refl [] rfl rfl rfl
  | cons job jobs ih =>
    obtain ⟨index, chunk⟩ := job
    refine ends_bind (ends_point.mono (fun _ _ h => h) ?_) fun _ u hu => ?_
    · exact fun _ u hu => .refl _ (by rw [hu]) (by rw [hu]) (by rw [hu])
    rw [sealChunk, bind_assoc, exec_bind_ok (exec_modify _ _), pure_bind]
    have hone : SealedOf [(index, chunk)] r { u with seals := u.seals ++
        [⟨w.dataKey, w.header.noncePrefix, index, some index == finalIndex, chunk⟩] } := by
      refine ⟨by rw [hu], by rw [hu], _, by rw [hu], List.Sublist.refl _, fun s hs => ?_⟩
      rw [List.mem_singleton] at hs
      rw [hs]
      exact w.header.noncePrefix_length
    refine ends_bind (ih.mono (fun _ _ h => h) fun _ _ h => ?_) fun _ _ h => ?_
    · exact hone.append h
    · exact hone.append h

theorem ends_encode (jobs : List (Nat × Bytes)) (finalIndex : Option Nat) :
    Ends (fun _ u => SealedOf jobs r u) (fun _ u => SealedOf jobs r u)
      (exec (encode P interrupted w jobs finalIndex) r) := by
  refine ends_bind (ends_encodeBlocks P w finalIndex jobs) fun _ u h => ?_
  have hpoint : ∀ v, v = { u with points := u.points + 1 } → SealedOf jobs r v := by
    intro v hv
    obtain ⟨made, hs⟩ := h.seals
    exact ⟨by rw [hv]; exact h.writer, by rw [hv]; exact h.trailers, made, by rw [hv]; exact hs⟩
  exact ends_bind (ends_point.mono (fun _ v hv => hpoint v hv) fun _ v hv => hpoint v hv)
    fun _ _ hv => hv

theorem ends_encodeInTurn (finalIndex : Option Nat) (groups : List (List (Nat × Bytes))) :
    Ends (fun _ u => SealedOf groups.flatten r u) (fun _ u => SealedOf groups.flatten r u)
      (exec (encodeInTurn P interrupted w finalIndex groups) r) := by
  induction groups generalizing r with
  | nil => exact .refl [] rfl rfl rfl
  | cons group groups ih =>
    refine ends_bind ((ends_encode P w group finalIndex).mono (fun _ _ h => h) ?_) fun _ u hu => ?_
    · exact fun _ u hu => hu.left _
    refine ends_bind (ih.mono (fun _ _ h => h) fun _ _ h => ?_) fun _ _ h => ?_
    · exact hu.append h
    · exact hu.append h

/-- A group that raises does not keep the others from sealing theirs. -/
theorem ends_encodePooled (finalIndex : Option Nat) (groups : List (List (Nat × Bytes))) :
    Ends (fun _ u => SealedOf groups.flatten r u) (fun _ u => SealedOf groups.flatten r u)
      (exec (encodePooled P interrupted w finalIndex groups) r) := by
  induction groups generalizing r with
  | nil => exact .refl [] rfl rfl rfl
  | cons group groups ih =>
    refine ends_bind (M := fun _ u => SealedOf group r u) ?_ fun _ u hu => ?_
    · refine ends_tryCatch (ends_encode P w group finalIndex) fun e u hu => ?_
      refine ends_bind (M := fun _ v => SealedOf (group :: groups).flatten r v) ?_ fun _ v hv => hv
      refine ends_tryCatch (M := fun _ v => SealedOf (group :: groups).flatten r v) ?_
        fun _ v hv => hv
      exact ih.mono (fun _ _ h => hu.append h) fun _ _ h => hu.append h
    · refine ends_bind (ih.mono (fun _ _ h => h) fun _ _ h => ?_) fun _ _ h => ?_
      · exact hu.append h
      · exact hu.append h

theorem ends_encodeAll (finalIndex : Option Nat) (groups : List (List (Nat × Bytes))) :
    Ends (fun _ u => SealedOf groups.flatten r u) (fun _ u => SealedOf groups.flatten r u)
      (exec (encodeAll P interrupted w finalIndex groups) r) := by
  rw [encodeAll]
  split
  · exact ends_encodePooled P w finalIndex groups
  · exact ends_encodeInTurn P w finalIndex groups

end

/-! ## 3. What every operation keeps -/

variable {P fails}

theorem Numbered.of_same {r u : Recorder} (h : Numbered r) (hs : u.seals = r.seals)
    (ht : u.trailers = r.trailers) (hw : u.writer.nextIndex = r.writer.nextIndex) : Numbered u where
  lt_nextIndex := by rw [hs, hw]; exact h.lt_nextIndex
  noncePrefix := by rw [hs]; exact h.noncePrefix
  nodup := by rw [hs]; exact h.nodup
  nextIndex := by rw [hw]; exact h.nextIndex
  trailers := by rw [ht]; exact h.trailers

theorem numbered_point : Keeps Numbered (point interrupted) := by
  rw [keeps_iff_ends]
  intro r h
  exact ends_point.mono (fun _ u hu => hu ▸ h.of_same rfl rfl rfl) fun _ u hu =>
    hu ▸ h.of_same rfl rfl rfl

/-- Statements that leave `nextIndex` alone. -/
theorem numbered_change {f : StreamWriter → StreamWriter}
    (hf : ∀ w, (f w).nextIndex = w.nextIndex) : Keeps Numbered (change interrupted f) := by
  rw [keeps_iff_ends]
  intro r h
  refine (ends_change f).mono ?_ ?_
  · exact fun _ u hu => hu ▸ h.of_same rfl rfl (hf _)
  · exact fun _ u hu => hu ▸ h.of_same rfl rfl (hf _)

theorem numbered_emit (data : Bytes) : Keeps Numbered (emit fails interrupted data) := by
  refine keeps_bind keeps_get fun r => ?_
  simp only
  split
  · refine keeps_bind (keeps_modify fun u hu => hu.of_same rfl rfl rfl) fun _ => keeps_throw _
  · exact keeps_bind (numbered_change fun _ => rfl) fun _ => numbered_change fun _ => rfl

theorem numbered_ensureOpen : Keeps Numbered ensureOpen := by
  refine keeps_bind keeps_get fun r => ?_
  exact keeps_ite (keeps_throw _) (keeps_pure _)

theorem numbered_place (slot : Bytes) : Keeps Numbered (place fails interrupted slot) := by
  refine keeps_bind (numbered_emit slot) fun _ => ?_
  refine keeps_bind (numbered_change fun _ => rfl) fun _ => ?_
  refine keeps_bind (numbered_change fun _ => rfl) fun _ => ?_
  refine keeps_bind keeps_get fun r => keeps_ite ?_ (keeps_pure _)
  exact keeps_bind (numbered_change fun _ => rfl) fun _ => numbered_emit _

/-- The indices of a batch begin at the writer's next one. -/
theorem jobs_fst (first : Nat) (batch : List Bytes) :
    (batch.zipIdx.map fun (chunk, offset) => (first + offset, chunk)).map Prod.fst =
      List.range' first batch.length := by
  rw [List.map_map]
  refine List.ext_getElem (by simp) fun i h1 h2 => ?_
  simp

/-- Indices that were taken before they are sealed. -/
theorem Numbered.sealedOf {r u v : Recorder} (h : Numbered r) {jobs : List (Nat × Bytes)} {n : Nat}
    (hjobs : jobs.map Prod.fst = List.range' r.writer.nextIndex n)
    (hu : u.seals = r.seals ∧ u.trailers = r.trailers ∧
      u.writer.nextIndex = r.writer.nextIndex + n)
    (hle : r.writer.nextIndex + n ≤ maxBlocks) (hv : SealedOf jobs u v) : Numbered v := by
  obtain ⟨hus, hut, hun⟩ := hu
  obtain ⟨made, hs, hsub, hp⟩ := hv.seals
  rw [hjobs] at hsub
  rw [hus] at hs
  have hnext : v.writer.nextIndex = r.writer.nextIndex + n := by rw [hv.writer, hun]
  have hmade : ∀ s ∈ made, r.writer.nextIndex ≤ s.index ∧ s.index < r.writer.nextIndex + n := by
    intro s hm
    have := hsub.subset (List.mem_map_of_mem hm)
    rwa [List.mem_range'_1] at this
  refine ⟨?_, ?_, ?_, by omega, by rw [hv.trailers, hut]; exact h.trailers⟩
  · intro s hm
    rw [hs, List.mem_append] at hm
    rcases hm with hm | hm
    · have := h.lt_nextIndex s hm
      omega
    · have := (hmade s hm).2
      omega
  · intro s hm
    rw [hs, List.mem_append] at hm
    exact hm.elim (h.noncePrefix s) (hp s)
  · rw [hs, List.map_append]
    refine h.nodup.append (hsub.nodup List.nodup_range') ?_
    intro i hi hi'
    obtain ⟨s, hm, rfl⟩ := List.mem_map.mp hi
    obtain ⟨s', hm', he⟩ := List.mem_map.mp hi'
    have := h.lt_nextIndex s hm
    have := (hmade s' hm').1
    omega

/-- **A flush keeps every index unique**, wherever it is cut short. -/
theorem numbered_flush (final : Bool) : Keeps Numbered (flush P fails interrupted final) := by
  rw [keeps_iff_ends]
  intro r h
  rw [flush, exec_bind_ok (exec_get _)]
  simp only
  split
  · exact h
  split
  · exact h
  rename_i hle
  set jobs := r.writer.batch.zipIdx.map
    fun (chunk, offset) => (r.writer.nextIndex + offset, chunk) with hjobs
  have hlen : jobs.length = r.writer.batch.length := by
    rw [hjobs, List.length_map, List.length_zipIdx]
  have hfst : jobs.map Prod.fst = List.range' r.writer.nextIndex jobs.length := by
    rw [hlen]
    exact jobs_fst _ _
  refine ends_bind ((ends_change _).mono (fun _ _ h => h) ?_) fun _ u hu => ?_
  · exact fun _ u hu => hu ▸ h.of_same rfl rfl rfl
  -- the indices are taken: nothing is sealed under them yet
  have htaken : ∀ v, v = { u with writer := { u.writer with
      nextIndex := u.writer.nextIndex + jobs.length }, points := u.points + 1 } →
      v.seals = r.seals ∧ v.trailers = r.trailers ∧
        v.writer.nextIndex = r.writer.nextIndex + jobs.length := by
    intro v hv
    rw [hv, hu]
    exact ⟨rfl, rfl, rfl⟩
  refine ends_bind ((ends_change _).mono (fun _ _ h => h) ?_) fun _ v hv => ?_
  · exact fun _ v hv => h.sealedOf hfst (htaken v hv) (by omega) (.refl jobs rfl rfl rfl)
  have hpieces : (pieces batchBlocks jobs).flatten = jobs := pieces_flatten (by decide) jobs
  have hsealed : ∀ t, SealedOf (pieces batchBlocks jobs).flatten v t → Numbered t := by
    intro t ht
    rw [hpieces] at ht
    exact h.sealedOf hfst (htaken v hv) (by omega) ht
  refine ends_bind (M := fun _ t => Numbered t)
    ((ends_encodeAll P r.writer _ _).mono (fun _ t ht => hsealed t ht) fun _ t ht => hsealed t ht)
    fun slots t ht => ?_
  exact keeps_iff_ends.mp
    (keeps_bind numbered_point fun _ => keeps_forM (fun slot => numbered_place slot) slots) t ht

theorem numbered_queue (chunk : Bytes) : Keeps Numbered (queue P fails interrupted chunk) := by
  refine keeps_bind (numbered_change fun _ => rfl) fun _ => keeps_bind keeps_get fun r => ?_
  exact keeps_ite (numbered_flush false) (keeps_pure _)

theorem numbered_queueFull (fuel : Nat) (view : Bytes) :
    Keeps Numbered (queueFull P fails interrupted fuel view) := by
  induction fuel generalizing view with
  | zero => exact keeps_pure _
  | succ fuel ih =>
    refine keeps_bind keeps_get fun r => keeps_ite ?_ (keeps_pure _)
    exact keeps_bind (numbered_queue _) fun _ => ih _

theorem numbered_fillPending (data : Bytes) :
    Keeps Numbered (fillPending P fails interrupted data) := by
  refine keeps_bind keeps_get fun r => keeps_ite ?_ (keeps_pure _)
  refine keeps_bind (numbered_change fun _ => rfl) fun _ => keeps_ite (keeps_pure _) ?_
  refine keeps_bind (numbered_queue _) fun _ => ?_
  exact keeps_bind (numbered_change fun _ => rfl) fun _ => keeps_pure _

theorem numbered_write (data : Bytes) : Keeps Numbered (write P fails interrupted data) := by
  refine keeps_bind numbered_ensureOpen fun _ => keeps_bind (numbered_fillPending data) fun view => ?_
  refine keeps_bind (numbered_queueFull _ view) fun rest => ?_
  refine keeps_bind (numbered_change fun _ => rfl) fun _ => ?_
  exact keeps_bind (numbered_change fun _ => rfl) fun _ => keeps_pure _

theorem numbered_abort : Keeps Numbered (abort interrupted) := by
  refine keeps_bind (numbered_change fun _ => rfl) fun _ => ?_
  refine keeps_bind (numbered_change fun _ => rfl) fun _ => ?_
  exact keeps_bind (numbered_change fun _ => rfl) fun _ => numbered_change fun _ => rfl

theorem numbered_drainWindow (fuel : Nat) : Keeps Numbered (drainWindow fails interrupted fuel) := by
  induction fuel with
  | zero => exact keeps_pure _
  | succ fuel ih =>
    refine keeps_bind keeps_get fun r => ?_
    cases r.writer.window with
    | nil => exact keeps_pure _
    | cons slot rest =>
      refine keeps_bind (numbered_change fun _ => rfl) fun _ => ?_
      exact keeps_bind (numbered_emit slot) fun _ => ih

/-- A trailer whose counts fit fits as a whole. -/
theorem fits_trailer {w : StreamWriter} (h : counted (w.trailerOf P)) :
    Struct.Fits trailerBody (w.trailerOf P).values :=
  ⟨by decide, by decide, by decide, w.header.containerId_length, h.1, h.2.1, h.2.2,
    P.blake2b_length _ _ _ _, trivial⟩

theorem numbered_packTrailer (w : StreamWriter) :
    Keeps Numbered (packTrailer P (w.trailerOf P)) := by
  rw [packTrailer]
  split
  · rename_i hc
    refine keeps_bind (keeps_modify fun r h => ?_) fun _ => keeps_pure _
    refine ⟨h.lt_nextIndex, h.noncePrefix, h.nodup, h.nextIndex, fun t' ht' => ?_⟩
    rcases List.mem_append.mp ht' with ht' | ht'
    · exact h.trailers t' ht'
    · rw [List.mem_singleton.mp ht']
      exact fits_trailer hc
  · exact keeps_throw _

theorem numbered_storeRest : Keeps Numbered (storeRest P fails interrupted) := by
  refine keeps_bind keeps_get fun r => keeps_bind (numbered_change fun _ => rfl) fun _ => ?_
  refine keeps_bind (numbered_change fun _ => rfl) fun _ => ?_
  refine keeps_bind (numbered_change fun _ => rfl) fun _ => ?_
  refine keeps_bind (numbered_flush true) fun _ => keeps_bind keeps_get fun u => ?_
  exact numbered_drainWindow _

theorem numbered_finishContainer : Keeps Numbered (finishContainer P fails interrupted) := by
  refine keeps_bind numbered_storeRest fun _ => keeps_bind keeps_get fun r => ?_
  refine keeps_bind (numbered_packTrailer _) fun trailer => ?_
  refine keeps_bind (numbered_emit trailer) fun _ => keeps_bind (numbered_emit trailer) fun _ => ?_
  exact keeps_bind (numbered_emit _) fun _ => numbered_point

theorem numbered_close : Keeps Numbered (close P fails interrupted) := by
  refine keeps_bind keeps_get fun r => ?_
  cases r.writer.summary with
  | some summary => exact keeps_pure _
  | none =>
    refine keeps_bind numbered_ensureOpen fun _ => keeps_bind ?_ fun _ => ?_
    · exact keeps_tryCatch numbered_finishContainer fun e =>
        keeps_bind numbered_abort fun _ => keeps_throw e
    · refine keeps_bind keeps_get fun u => keeps_bind (numbered_change fun _ => rfl) fun _ => ?_
      exact keeps_bind (numbered_change fun _ => rfl) fun _ => keeps_pure _

end Recorder

/-! ## 4. Any sequence of calls -/

inductive Call
  | write (data : Bytes)
  | close
  | abort

namespace StreamWriter

variable (P : Primitives) (fails : Nat → Bool)

def call : Call → Writing Unit
  | .write data => do let _ ← write P fails data
  | .close => do let _ ← close P fails
  | .abort => modify abort

/-- The calls one after another, whatever became of the ones before. -/
def calls (cs : List Call) (w : StreamWriter) : StreamWriter :=
  cs.foldl (fun w c => (exec (call P fails c) w).2) w

/-- A writer that still takes calls has its bytes in its chunks. -/
def Usable (w : StreamWriter) : Prop := w.closed = false → Counted w

variable {P fails}

variable {w : StreamWriter}

theorem ends_ensureOpen : Ends (fun _ t => t = w ∧ w.closed = false)
    (fun _ t => t = w ∧ w.closed = true) (exec ensureOpen w) := by
  rw [ensureOpen, exec_bind_ok (exec_get _)]
  cases hc : w.closed with
  | true | false => exact ⟨rfl, rfl⟩

theorem usable_of_closed (h : w.closed = true) : Usable w :=
  fun h' => absurd (h.symm.trans h') (by decide)

theorem usable_call (c : Call) : Keeps Usable (call P fails c) := by
  rw [keeps_iff_ends]
  intro w h
  cases c with
  | write data =>
    by_cases hc : w.closed = true
    · have hraise : exec (write P fails data) w =
          (.error (.valueError "This StreamWriter is closed."), w) := by
        rw [write, exec_bind_error (x := ensureOpen)]
        rw [ensureOpen, exec_bind_ok (exec_get _), if_pos hc]
        rfl
      rw [call, exec_bind_error hraise]
      exact h
    · have hw := h (Bool.eq_false_iff.mpr hc)
      refine ends_bind ((ends_write hw data).mono (fun _ _ ht => ht) ?_) fun _ t ht _ => ht
      exact fun _ t ht _ => ht
  | close =>
    refine ends_bind (M := fun _ t => Usable t) ?_ fun _ t ht => ht
    rw [close, exec_bind_ok (exec_get _)]
    cases hs : w.summary with
    | some summary => exact h
    | none =>
      refine ends_bind (ends_ensureOpen.mono (fun _ _ ht => ht) ?_) fun _ t ht => ?_
      · exact fun _ t ht => ht.1 ▸ h
      have hcatch : Ends (fun _ _ => True) (fun _ u => Usable u)
          (exec (tryCatch (finishContainer P fails) fun e => do modify abort; throw e) t) := by
        refine ends_tryCatch (M := fun _ _ => True) ?_ fun e u _ => ?_
        · exact keeps_iff_ends.mp (fun _ _ => trivial) t trivial
        · rw [exec_bind_ok (exec_modify _ _), exec_throw]
          exact usable_of_closed rfl
      refine ends_bind hcatch fun _ u _ => ?_
      rw [exec_bind_ok (exec_get _), exec_bind_ok (exec_set _ _), exec_pure]
      exact usable_of_closed rfl
  | abort => exact usable_of_closed rfl

/-- What a new writer has counted. -/
theorem create_counted {drawn : Drawn} {passphrase : Bytes} {params : KDFParams}
    {layout : StreamLayout} {workers flags : Nat}
    (h : create P fails drawn passphrase params layout workers flags = .ok w) :
    w.nextIndex = 0 ∧ w.pending = [] ∧ w.plaintextBytes = 0 := by
  obtain ⟨-, -, -, header, -, hemit⟩ := create_stored h
  have hkeep := @keeps_emit fails { header, dataKey := drawn.dataKey, workers } (header.seal P) _
    ⟨rfl, rfl, rfl, rfl, rfl, rfl⟩
  rw [hemit] at hkeep
  exact ⟨hkeep.nextIndex, hkeep.pending, hkeep.plaintextBytes⟩

end StreamWriter

namespace Recorder

variable (P : Primitives) (fails interrupted : Nat → Bool)

def call : Call → Recording Unit
  | .write data => do let _ ← write P fails interrupted data
  | .close => do let _ ← close P fails interrupted
  | .abort => abort interrupted

def calls (cs : List Call) (r : Recorder) : Recorder :=
  cs.foldl (fun r c => (exec (call P fails interrupted c) r).2) r

variable {P fails interrupted} {r : Recorder}

theorem numbered_call (c : Call) : Keeps Numbered (call P fails interrupted c) := by
  cases c with
  | write data => exact keeps_bind (numbered_write data) fun _ => keeps_pure _
  | close => exact keeps_bind numbered_close fun _ => keeps_pure _
  | abort => exact numbered_abort

theorem numbered_calls (cs : List Call) (h : Numbered r) :
    Numbered (calls P fails interrupted cs r) := by
  induction cs generalizing r with
  | nil => exact h
  | cons c cs ih => exact ih (numbered_call c r h)

section

variable (hn : ∀ n, interrupted n = false)
include hn

theorem follows_finishContainer (hr : StreamWriter.Counted r.writer) :
    Follows (finishContainer P fails interrupted) r (StreamWriter.finishContainer P fails)
      r.writer := by
  rw [StreamWriter.finishContainer_eq]
  have hrest := follows_storeRest P fails hn (r := r)
  refine mirrors_bind hrest fun _ u hu => ?_
  -- the guard of `struct.pack` lets the trailer pass
  have hcounted : counted (u.writer.trailerOf P) := by
    have h1 := hrest.1
    have h2 := hrest.2
    have hends := @StreamWriter.ends_storeRest P fails r.writer hr
    rw [hu] at h1 h2
    revert h1 h2 hends
    cases exec (StreamWriter.storeRest P fails) r.writer with
    | mk res t =>
      intro h1 h2 hends
      cases res with
      | ok _ =>
        change u.writer = t at h2
        rw [h2]
        exact hends
      | error e => cases h1
  have hpack : exec (packTrailer P (u.writer.trailerOf P)) u =
      (.ok ((u.writer.trailerOf P).seal P),
        { u with trailers := u.trailers ++ [u.writer.trailerOf P] }) := by
    rw [packTrailer, if_pos hcounted]
    rfl
  refine mirrors_left (exec_get _) (mirrors_left hpack (mirrors_right (exec_get _) ?_))
  refine mirrors_bind (follows_emit fails hn _) fun _ v _ => ?_
  refine mirrors_bind (follows_emit fails hn _) fun _ v _ => ?_
  rw [← bind_pure (StreamWriter.emit fails _)]
  refine mirrors_bind (follows_emit fails hn _) fun _ v _ => ?_
  rw [Mirrors, exec_point hn]
  exact ⟨rfl, rfl⟩

/-- **A close that nothing interrupts** is the writer's. -/
theorem follows_close (hr : StreamWriter.Usable r.writer) :
    Follows (close P fails interrupted) r (StreamWriter.close P fails) r.writer := by
  refine mirrors_left (exec_get _) (mirrors_right (exec_get _) ?_)
  cases r.writer.summary with
  | some summary => exact ⟨rfl, rfl⟩
  | none =>
    refine mirrors_bind follows_ensureOpen fun _ u hu => ?_
    have hcounted : StreamWriter.Counted u.writer := by
      have h : u = r ∧ r.writer.closed = false := by
        rw [ensureOpen, exec_bind_ok (exec_get _)] at hu
        cases hc : r.writer.closed with
        | true => rw [hc] at hu; cases hu
        | false => rw [hc] at hu; exact ⟨(Prod.mk.inj hu).2.symm, rfl⟩
      rw [h.1]
      exact hr h.2
    refine mirrors_bind ?_ fun _ v _ => ?_
    · refine mirrors_tryCatch (follows_finishContainer hn hcounted) fun e v => ?_
      exact mirrors_bind (follows_abort hn) fun _ v _ => ⟨rfl, rfl⟩
    · refine mirrors_left (exec_get _) (mirrors_left (exec_change hn _) ?_)
      refine mirrors_left (exec_change hn _) (mirrors_right (exec_get _) ?_)
      exact mirrors_right (exec_set _ _) ⟨rfl, rfl⟩

theorem follows_call (hr : StreamWriter.Usable r.writer) (c : Call) :
    Follows (call P fails interrupted c) r (StreamWriter.call P fails c) r.writer := by
  cases c with
  | write data => exact mirrors_bind (follows_write P fails hn data) fun _ _ _ => ⟨rfl, rfl⟩
  | close => exact mirrors_bind (follows_close hn hr) fun _ _ _ => ⟨rfl, rfl⟩
  | abort => exact follows_abort hn

/-- **Calls that nothing interrupts** are the writer's own. -/
theorem follows_calls (cs : List Call) (hr : StreamWriter.Usable r.writer) :
    (calls P fails interrupted cs r).writer = StreamWriter.calls P fails cs r.writer ∧
      StreamWriter.Usable (calls P fails interrupted cs r).writer := by
  induction cs generalizing r with
  | nil => exact ⟨rfl, hr⟩
  | cons c cs ih =>
    have hc : (exec (call P fails interrupted c) r).2.writer =
        (exec (StreamWriter.call P fails c) r.writer).2 := (follows_call hn hr c).2
    have hu : StreamWriter.Usable (exec (StreamWriter.call P fails c) r.writer).2 :=
      StreamWriter.usable_call c r.writer hr
    rw [← hc] at hu
    have h := ih hu
    rw [hc] at h
    exact h

/-- No call is refused by `struct.pack`. -/
theorem call_ne_structError (hr : StreamWriter.Usable r.writer) (c : Call) :
    (exec (call P fails interrupted c) r).1 ≠ .error .structError := by
  have hc : (exec (call P fails interrupted c) r).1 =
      Except.mapError Ended.raised (exec (StreamWriter.call P fails c) r.writer).1 :=
        (follows_call hn hr c).1
  rw [hc]
  cases (exec (StreamWriter.call P fails c) r.writer).1 with
  | ok _ | error _ => nofun

end

end Recorder

/-! ## 5. One writer -/

/-- **No nonce twice, no count too large.** After any calls on a new writer the nonces of its seals
    are pairwise different, every index is one the nonce has room for, and every trailer packed fits
    its fields; where nothing came from outside, `struct.pack` has refused none. -/
theorem nonces_unique {P : Primitives} {fails : Nat → Bool} {drawn : Drawn} {passphrase : Bytes}
    {params : KDFParams} {layout : StreamLayout} {workers flags : Nat} {w : StreamWriter}
    (h : StreamWriter.create P fails drawn passphrase params layout workers flags = .ok w)
    (interrupted : Nat → Bool) (cs : List Call) :
    let r := Recorder.calls P fails interrupted cs { writer := w }
    (r.seals.map Sealing.nonce).Nodup ∧ (∀ s ∈ r.seals, s.index < maxChunks) ∧
      (∀ t ∈ r.trailers, Struct.Fits trailerBody t.values) ∧
      ((∀ n, interrupted n = false) →
        ∀ c, (exec (Recorder.call P fails interrupted c) r).1 ≠ .error .structError) := by
  intro r
  obtain ⟨hnext, hpending, hbytes⟩ := StreamWriter.create_counted h
  have hstart : Recorder.Numbered { writer := w } :=
    ⟨by simp, by simp, by simp, by rw [hnext]; exact Nat.zero_le _, by simp⟩
  have hr : r.Numbered := Recorder.numbered_calls cs hstart
  have hlt : ∀ s ∈ r.seals, s.index < maxChunks := by
    intro s hs
    have h1 := hr.lt_nextIndex s hs
    have h2 := hr.nextIndex
    unfold maxBlocks at h2
    omega
  refine ⟨?_, hlt, hr.trailers, fun hn c => ?_⟩
  · refine List.Nodup.map_on ?_ hr.nodup.of_map
    intro s hs s' hs' he
    have hi := (chunkNonce_inj ((hr.noncePrefix s hs).trans (hr.noncePrefix s' hs').symm)
      (hlt s hs) (hlt s' hs') he).1
    exact List.inj_on_of_nodup_map hr.nodup hs hs' hi
  · have husable : StreamWriter.Usable w := by
      intro _
      refine ⟨by rw [hnext]; exact Nat.zero_le _, by rw [hpending]; exact Nat.zero_le _, ?_⟩
      rw [hbytes]
      exact Nat.zero_le _
    exact Recorder.call_ne_structError hn
      (Recorder.follows_calls hn cs husable).2 c

/-- A close that an exception cuts short after its tenth statement, and a second one. -/
theorem nonces_unique_cutShort : ∃ w,
    StreamWriter.create .plain never .plain [] {} .small 1 0 = .ok w ∧
    let r := Recorder.calls .plain never (· == 10) [.write (ascii "once"), .close, .close]
      { writer := w }
    (r.seals.map Sealing.nonce).Nodup ∧ ∀ s ∈ r.seals, s.index < maxChunks := by
  obtain ⟨w, hcreate⟩ : ∃ w, StreamWriter.create .plain never .plain [] {} .small 1 0 = .ok w :=
    StreamWriter.create_returns .plain [] rfl layoutProblem_small le_rfl (by decide)
  obtain ⟨hnodup, hlt, -⟩ :=
    nonces_unique hcreate (· == 10) [.write (ascii "once"), .close, .close]
  exact ⟨w, hcreate, hnodup, hlt⟩

end Dbs

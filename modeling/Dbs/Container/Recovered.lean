/-
  File:      Dbs/Container/Recovered.lean
  Subject:   READING WHAT WAS WRITTEN: the reader of a container whose header and end are found, and
             what its passes yield when one slot of every block is intact.

  * `create_eq` -- from the header, the end and the passphrase to the reader;
  * `locateEnd_trailer`, `locateEnd_scan` -- the end from a trailer, and without one;
  * `clean_slot` -- an intact slot is the block that was written; `exec_yieldChunk` -- which decrypts
    to its chunk;
  * `ends_chunks` -- so `chunks` yields the payload, whichever of the two copies is intact.
-/
import Dbs.Container.Scan
import Dbs.Container.Written

namespace Dbs

open Octets Effects Struct

variable (P : Primitives)

/-! ## 1. The reader -/

namespace Contents

variable (c : Contents)

/-- The passphrase unwraps the data key. -/
def Keyed (passphrase : Bytes) : Prop :=
  ∃ kek, deriveKey P passphrase c.header.salt c.header.kdfParams = .ok kek ∧
    unwrapKey P kek c.header.wrapNonce c.header.wrappedKey c.header.keyBinding = .ok c.dataKey

/-- The reader of `c` over a source. -/
def reader (D : Bytes) (trailer : Option StreamTrailer) (metadataDamaged : List String) :
    StreamReader where
  source := D
  header := c.header
  cipher := some (c.cipher P)
  trailer
  blocks := c.blocks
  metadataDamaged

section Fields

variable {D : Bytes} {trailer : Option StreamTrailer} {metadataDamaged : List String}

@[simp] theorem reader_header : (c.reader P D trailer metadataDamaged).header = c.header := rfl

@[simp] theorem reader_layout : (c.reader P D trailer metadataDamaged).layout = c.layout := rfl

@[simp] theorem reader_blocks : (c.reader P D trailer metadataDamaged).blocks = c.blocks := rfl

@[simp] theorem reader_trailer : (c.reader P D trailer metadataDamaged).trailer = trailer := rfl

end Fields

end Contents

variable {P} {c : Contents} {D : Bytes}

theorem create_eq {passphrase : Bytes} (hk : c.Keyed P passphrase) {damaged damaged' : List String}
    {trailer : Option StreamTrailer} (hh : locateHeader P D = .ok (c.header, damaged))
    (he : locateEnd P D c.header = .ok (trailer, c.blocks, damaged')) :
    StreamReader.create P D (some passphrase) =
      .ok (c.reader P D trailer (damaged ++ damaged')) := by
  obtain ⟨kek, h1, h2⟩ := hk
  rw [StreamReader.create, hh]
  simp only [bind, Except.bind, pure, Except.pure, h1, h2, he]
  rfl

/-- The trailers stand behind the slots. -/
theorem trailer_start (hD : D.length = c.layout.containerSize c.blocks) :
    D.length - headerSize - 2 * trailerSize = headerSize + 2 * c.blocks * c.layout.slotSize := by
  rw [hD, StreamLayout.containerSize]
  omega

theorem agrees_size (hD : D.length = c.layout.containerSize c.blocks) :
    (c.layout.containerSize (c.trailer P).blocks == D.length) = true := by
  have h : (c.trailer P).blocks = c.blocks := rfl
  rw [h, hD, beq_self_eq_true]

/-- **The end from a trailer**, where one of its copies is intact. -/
theorem locateEnd_trailer (hb : c.blocks ≤ maxBlocks)
    (hD : D.length = c.layout.containerSize c.blocks)
    (h : ∀ k < 2, readAt D (headerSize + 2 * c.blocks * c.layout.slotSize + k * trailerSize)
        trailerSize = (c.trailer P).seal P ∨
      StreamTrailer.open P (readAt D (headerSize + 2 * c.blocks * c.layout.slotSize +
        k * trailerSize) trailerSize) c.header = none)
    (h' : ∃ k < 2, readAt D (headerSize + 2 * c.blocks * c.layout.slotSize + k * trailerSize)
      trailerSize = (c.trailer P).seal P) :
    ∃ damaged, locateEnd P D c.header = .ok (some (c.trailer P), c.blocks, damaged) := by
  obtain ⟨damaged, hr⟩ := readTrailers_found (c.trailer_fitting P hb) (by omega)
    (fun found => c.layout.containerSize found.blocks == D.length) (agrees_size hD) h h'
  rw [← trailer_start hD] at hr
  exact ⟨damaged, locateEnd_of_trailer hr⟩

theorem locateEnd_both (hb : c.blocks ≤ maxBlocks) (hD : D.length = c.layout.containerSize c.blocks)
    (h : ∀ k < 2, readAt D (headerSize + 2 * c.blocks * c.layout.slotSize + k * trailerSize)
        trailerSize = (c.trailer P).seal P) :
    locateEnd P D c.header = .ok (some (c.trailer P), c.blocks, []) := by
  have hr := readTrailers_both (c.trailer_fitting P hb) (by omega)
    (fun found => c.layout.containerSize found.blocks == D.length) (agrees_size hD) h
  rw [← trailer_start hD] at hr
  exact locateEnd_of_trailer hr

/-- **The end without a trailer where the size puts it**: the scan gives the number of blocks, and a
    trailer may still stand behind the slots. -/
theorem locateEnd_scan (h : FirstCopies P c D)
    (hno : (readTrailers P D c.header (D.length - headerSize - 2 * trailerSize)
      fun found => c.layout.containerSize found.blocks == D.length).1 = none)
    (ht : ∀ k < 2, readAt D (headerSize + 2 * c.blocks * c.layout.slotSize + k * trailerSize)
        trailerSize = (c.trailer P).seal P ∨
      StreamTrailer.open P (readAt D (headerSize + 2 * c.blocks * c.layout.slotSize +
        k * trailerSize) trailerSize) c.header = none) :
    ∃ trailer damaged, (trailer = none ∨ trailer = some (c.trailer P)) ∧
      locateEnd P D c.header = .ok (trailer, c.blocks, damaged) := by
  have he := locateEnd_of_scan hno h.scanBlockCount_eq
  by_cases hk : ∃ k < 2, readAt D (headerSize + 2 * c.blocks * c.layout.slotSize + k * trailerSize)
      trailerSize = (c.trailer P).seal P
  · obtain ⟨damaged, hr⟩ := readTrailers_found (c.trailer_fitting P h.blocks_le) (by omega)
      (fun found => found.blocks == c.blocks) (beq_self_eq_true _) ht hk
    exact ⟨_, damaged, Or.inr rfl, he.trans (by rw [show c.header.layout = c.layout from rfl, hr])⟩
  · have hr := readTrailers_none (fun found => found.blocks == c.blocks)
      fun k hlt => (ht k hlt).resolve_left fun he => hk ⟨k, hlt, he⟩
    exact ⟨_, _, Or.inl rfl, he.trans (by rw [show c.header.layout = c.layout from rfl, hr])⟩

/-! ## 2. Intact slots -/

namespace Contents

variable (P c)

/-- Block `i` as a reader resolves it. -/
def resolvedBlock (i : Nat) : Block := ⟨c.block P i, (c.ciphertext P i).length, c.tag P i⟩

variable {P c}

theorem block_padding (i : Nat) :
    (c.block P i).drop (descriptorSize + (c.ciphertext P i).length) =
      zeros (c.layout.blockSize - (descriptorSize + (c.ciphertext P i).length)) := by
  have hl : (pack descriptor (c.descriptorValues P i)).length = descriptorSize := pack_length _ _
  rw [block_eq, ← List.append_assoc]
  have hlen : (pack descriptor (c.descriptorValues P i) ++ c.ciphertext P i).length =
      descriptorSize + (c.ciphertext P i).length := by rw [List.length_append, hl]
  refine (List.drop_left' hlen).trans ?_
  exact congrArg (fun n => zeros (c.layout.blockSize - n)) hlen

variable {i : Nat}

/-- The ciphertext of a full block. -/
theorem ciphertext_length_full (h : i + 1 < c.blocks) :
    (c.ciphertext P i).length = c.layout.maxChunkLen := by
  have h1 := c.ciphertext_length P i
  have h2 := c.chunk_full h
  have h3 := c.header.layout_valid.bounds
  simp only [StreamLayout.chunkCapacity, chunkOverhead, StreamLayout.maxChunkLen, descriptorSize,
    tagLength, layout] at *
  omega

theorem ciphertext_length_bounds (i : Nat) : tagLength ≤ (c.ciphertext P i).length ∧
    (c.ciphertext P i).length ≤ c.layout.maxChunkLen := by
  have h1 := c.ciphertext_length P i
  have h2 := c.chunk_length_le i
  have h3 := c.header.layout_valid.bounds
  simp only [StreamLayout.chunkCapacity, chunkOverhead, StreamLayout.maxChunkLen, descriptorSize,
    tagLength, layout] at *
  omega

/-- The trailer a reader may have of `c`. -/
def KnownTrailer (P : Primitives) (c : Contents) (trailer : Option StreamTrailer) : Prop :=
  trailer = none ∨ trailer = some (c.trailer P)

variable {D : Bytes} {trailer : Option StreamTrailer} {damaged : List String}

/-- **The reader's checks pass** for a block that was written. -/
theorem chunkLen_block (ht : c.KnownTrailer P trailer) (hi : i < c.blocks)
    (hb : c.blocks ≤ maxBlocks) :
    (c.reader P D trailer damaged).chunkLen (c.block P i) i =
      some (c.ciphertext P i).length := by
  have hl : (c.block P i).length = c.layout.blockSize := c.block_length P i
  have hfields : fields descriptor (c.block P i) = c.descriptorValues P i := by
    rw [block_eq]
    exact fields_pack_append (fits_descriptor P (by omega)) _
  have hres : slice (c.block P i) 13 3 = zeros 3 := by
    rw [block_eq]
    exact descriptor_reserved P _
  have hbounds := ciphertext_length_bounds (P := P) (c := c) i
  rw [StreamReader.chunkLen]
  simp only [reader_layout, reader_blocks, reader_trailer, hl, hfields, descriptorValues, hres,
    hbounds, block_padding, flagOf, Contents.final, ne_eq, not_true_eq_false, if_false, and_self]
  by_cases hlast : i + 1 = c.blocks
  · have hno : trailer.any (fun t => (c.ciphertext P i).length != t.finalChunkLen) = false := by
      rcases ht with rfl | rfl
      · rfl
      · have hfin : (c.trailer P).finalChunkLen = (c.ciphertext P i).length := by
          rw [c.ciphertext_length]
          show (c.chunk (c.blocks - 1)).length + tagLength = _
          rw [show c.blocks - 1 = i by omega]
        rw [Option.any_some, hfin, bne_self_eq_false]
    simp only [hlast, beq_self_eq_true, Bool.not_true, Bool.false_eq_true, if_false, hno,
      not_true_eq_false, or_self]
  · have hne : (i + 1 == c.blocks) = false := by simpa using hlast
    simp only [hne, Bool.not_false, if_true, ciphertext_length_full (P := P) (c := c) (i := i)
      (by omega), not_true_eq_false, or_self, if_false]

/-- **An intact slot is the block that was written.** -/
theorem clean_slot (ht : c.KnownTrailer P trailer) (hi : i < c.blocks) (hb : c.blocks ≤ maxBlocks) :
    (c.reader P D trailer damaged).clean P (c.slot P i) i = some (c.resolvedBlock P i) := by
  have hl : (c.slot P i).length = c.layout.slotSize := c.slot_length P i
  have he : (c.encoded P i).length = c.layout.encodedSize := c.encoded_length P i
  have htake : (c.slot P i).take c.layout.encodedSize = c.encoded P i := List.take_left' he
  have hdrop : (c.slot P i).drop c.layout.encodedSize = c.tag P i := List.drop_left' he
  have hstrip : Rs.stripParity (c.encoded P i) c.layout.nsym = some (c.block P i) :=
    Rs.stripParity_encode c.header.layout_valid.nsym_lt _
  have htag : slotTag P c.header.containerId (c.encoded P i) = c.tag P i := rfl
  rw [StreamReader.clean]
  simp only [reader_layout, reader_header, htake, hdrop, htag, hl, hstrip, ne_eq,
    not_true_eq_false, if_false, chunkLen_block ht hi hb]
  rfl

/-! ## 3. Chunks -/

theorem ciphertextOf_resolvedBlock (i : Nat) :
    StreamReader.ciphertextOf (c.resolvedBlock P i) = c.ciphertext P i := by
  have hl : (pack descriptor (c.descriptorValues P i)).length = descriptorSize := pack_length _ _
  rw [StreamReader.ciphertextOf]
  simp only [resolvedBlock]
  rw [block_eq, slice_append_right _ _ _ hl.le, hl, Nat.sub_self]
  exact List.take_left' rfl

/-- What was sealed opens. -/
def Opens (P : Primitives) (c : Contents) : Prop := ∀ i < c.blocks,
  (c.cipher P).open P i (c.ciphertext P i) (c.final i) = .ok (c.chunk i)

theorem opens (h : P.OpensWhatItSeals) : c.Opens P := fun i _ => (c.cipher P).open_seal P h i _ _

/-- **A block that was written is yielded** as its chunk. -/
theorem exec_yieldChunk (ho : c.Opens P) (hi : i < c.blocks) (s : Pass (List Bytes)) :
    exec ((c.reader P D trailer damaged).yieldChunk P (c.cipher P) i (some (c.resolvedBlock P i))) s =
      (.ok (), { s with
        report := { s.report with unverifiedBlocks := s.report.unverifiedBlocks.erase i }
        out := s.out ++ if c.chunk i = [] then [] else [c.chunk i] }) := by
  have hopen : (c.cipher P).open P i (StreamReader.ciphertextOf (c.resolvedBlock P i))
      (i + 1 == (c.reader P D trailer damaged).blocks) = .ok (c.chunk i) := by
    rw [ciphertextOf_resolvedBlock]
    exact ho i hi
  rw [StreamReader.yieldChunk]
  simp only [hopen]
  rw [StreamReader.discardUnverified, exec_bind_ok (exec_modify _ _)]
  by_cases h : c.chunk i = []
  · rw [if_neg (not_not.mpr h), exec_pure, if_pos h, List.append_nil]
  · rw [if_pos h, exec_modify, if_neg h]

/-! ## 4. Passes -/

/-- One of the two copies of block `i` is as it was written; the second one counts where the first
    does not pass for a block. -/
def OneCopy (r : StreamReader) (P : Primitives) (c : Contents) (i : Nat) : Prop :=
  r.copyAt (i, true) = c.slot P i ∨ (r.intact P i = none ∧ r.copyAt (i, false) = c.slot P i)

section Pass

variable (ht : c.KnownTrailer P trailer) (hb : c.blocks ≤ maxBlocks)

include ht hb

theorem intact_of_first {i : Nat} (hi : i < c.blocks)
    (h : (c.reader P D trailer damaged).copyAt (i, true) = c.slot P i) :
    (c.reader P D trailer damaged).intact P i = some (c.resolvedBlock P i) := by
  rw [StreamReader.intact, h]
  exact clean_slot ht hi hb

/-- The second copy alone settles the block. -/
theorem repair_of_second {i : Nat} (hi : i < c.blocks)
    (h : (c.reader P D trailer damaged).copyAt (i, false) = c.slot P i)
    (report : StreamRepairReport) (first : Option Bytes) :
    (c.reader P D trailer damaged).repair P report i first
      ((c.reader P D trailer damaged).whole (i, false)) =
      (some (c.resolvedBlock P i), { report with blocksUsedB := report.blocksUsedB + 1 }) := by
  have hw : (c.reader P D trailer damaged).whole (i, false) = some (c.slot P i) := by
    rw [StreamReader.whole, h, reader_layout, c.slot_length P, if_pos (beq_self_eq_true _)]
  have hc : (some (c.slot P i)).bind (fun raw => (c.reader P D trailer damaged).clean P raw i) =
      some (c.resolvedBlock P i) := clean_slot ht hi hb
  rw [hw, StreamReader.repair]
  simp only [hc]

/-- **One intact copy is enough.** -/
theorem outcome_eq {i : Nat} (hi : i < c.blocks)
    (h : OneCopy (c.reader P D trailer damaged) P c i) :
    (c.reader P D trailer damaged).outcome P i = some (c.resolvedBlock P i) := by
  rw [StreamReader.outcome]
  rcases h with h | ⟨hn, h⟩
  · rw [intact_of_first ht hb hi h]
  · rw [hn]
    simp only
    rw [repair_of_second ht hb hi h]

end Pass

/-- Nothing in the report speaks against the container. -/
structure Unharmed (report : StreamRepairReport) : Prop where
  failedBlocks : report.failedBlocks = []
  problems : report.problems = []
  unverifiedBlocks : report.unverifiedBlocks = []

variable {report : StreamRepairReport}

theorem Unharmed.ok (h : Unharmed report) : report.ok = true := by
  rw [StreamRepairReport.ok, h.failedBlocks, h.problems]
  rfl

/-- There is nothing to discard. -/
theorem Unharmed.clear (h : Unharmed report) : { report with unverifiedBlocks := [] } = report := by
  have hu := h.unverifiedBlocks
  cases report
  cases hu
  rfl

theorem Unharmed.noteComplete {r : StreamReader} (h : Unharmed report)
    (copy : Nat × Bool) : Unharmed (r.noteComplete copy report) := by
  unfold StreamReader.noteComplete
  split
  · exact h
  · exact { h with }

theorem Unharmed.firstReport {r : StreamReader} (h : Unharmed report)
    (i : Nat) : Unharmed (r.firstReport P i report) := by
  have hn := h.noteComplete (r := r) (i, true)
  unfold StreamReader.firstReport
  simp only
  split
  · exact { hn with }
  · exact hn

theorem Unharmed.secondReport (ht : c.KnownTrailer P trailer) (hb : c.blocks ≤ maxBlocks)
    (h : Unharmed report) (hi : i < c.blocks)
    (hc : OneCopy (c.reader P D trailer damaged) P c i) (checkSpares : Bool) :
    Unharmed ((c.reader P D trailer damaged).secondReport P checkSpares i report) := by
  have hn := h.noteComplete (r := c.reader P D trailer damaged) (i, false)
  unfold StreamReader.secondReport
  rcases hc with hc | ⟨hno, hc⟩
  · simp only [intact_of_first ht hb hi hc]
    generalize (c.reader P D trailer damaged).noteComplete (i, false) report = noted at hn ⊢
    split
    · exact { hn with }
    · exact hn
  · simp only [hno, repair_of_second ht hb hi hc]
    generalize (c.reader P D trailer damaged).noteComplete (i, false) report = noted at hn ⊢
    exact { hn with }

/-- The digest over the blocks that were written is the trailer's. -/
theorem checkDigest_eq (ht : c.KnownTrailer P trailer)
    (h : Unharmed report) : (c.reader P D trailer damaged).checkDigest P
      ((List.range c.blocks).map (c.tag P)) report = report := by
  unfold StreamReader.checkDigest
  rcases ht with rfl | rfl
  · rfl
  · have hd : blocksDigest P c.header.containerId ((List.range c.blocks).map (c.tag P)) =
        (c.trailer P).blocksDigest := rfl
    have hf : ¬ (report.failedBlocks ≠ []) := not_not.mpr h.failedBlocks
    simp only [reader_trailer, reader_header]
    rw [if_neg hf]
    simp only [hd, if_true]
    exact h.clear

/-- **The payload comes back** when one copy of every block is intact, whatever property `Q` of the
    report the arrivals keep. -/
theorem ends_chunks (ht : c.KnownTrailer P trailer) (hb : c.blocks ≤ maxBlocks) (ho : c.Opens P)
    (hc : ∀ i < c.blocks, OneCopy (c.reader P D trailer damaged) P c i) (checkSpares : Bool)
    {Q : StreamRepairReport → Prop} (hQ0 : Q (c.reader P D trailer damaged).freshReport)
    (hQ1 : ∀ i < c.blocks, ∀ report, Q report →
      Q ((c.reader P D trailer damaged).firstReport P i report))
    (hQ2 : ∀ i < c.blocks, ∀ report, Q report →
      Q ((c.reader P D trailer damaged).secondReport P checkSpares i report)) :
    Ends (fun _ t => t.out.flatten = c.payload ∧ t.report.ok = true ∧ Q t.report) (fun _ _ => False)
      (exec ((c.reader P D trailer damaged).chunks P checkSpares)
        ((c.reader P D trailer damaged).start [])) := by
  set r := c.reader P D trailer damaged with hr
  let J (n : Nat) (report : StreamRepairReport) (digest out : List Bytes) : Prop :=
    out.flatten = ((List.range n).map c.chunk).flatten ∧ digest = (List.range n).map (c.tag P) ∧
      Unharmed report ∧ Q report
  have hcarries : r.Carries P checkSpares (r.yieldChunk P (c.cipher P)) J (fun _ _ => False) := by
    refine ⟨?_, ?_, ?_⟩
    · rintro i n report digest out hi - ⟨h1, h2, h3, h4⟩
      exact ⟨h1, h2, h3.firstReport i, hQ1 i hi report h4⟩
    · rintro i n report digest out hi - ⟨h1, h2, h3, h4⟩
      exact ⟨h1, h2, h3.secondReport ht hb hi (hc i hi) checkSpares, hQ2 i hi report h4⟩
    · rintro s hlt ⟨h1, h2, h3, h4⟩
      have hi : s.nextIndex < c.blocks := hlt
      rw [StreamReader.deliver, exec_bind_ok (exec_modify _ _), outcome_eq ht hb hi (hc _ hi),
        exec_yieldChunk ho hi]
      have hsame : { s.report with unverifiedBlocks :=
          s.report.unverifiedBlocks.erase s.nextIndex } = s.report := by
        rw [h3.unverifiedBlocks, List.erase_nil]
        exact h3.clear
      refine ⟨⟨_, _, _, rfl⟩, ?_, ?_, ?_, ?_⟩
      · show (s.out ++ if c.chunk s.nextIndex = [] then [] else [c.chunk s.nextIndex]).flatten = _
        rw [List.flatten_append, h1, List.range_succ, List.map_append, List.flatten_append]
        congr 1
        split
        · rename_i hnil
          simp [hnil]
        · rfl
      · show s.digest ++ [c.tag P s.nextIndex] = _
        rw [h2, List.range_succ, List.map_append]
        rfl
      · show Unharmed { s.report with unverifiedBlocks := _ }
        rw [hsame]
        exact h3
      · show Q { s.report with unverifiedBlocks := _ }
        rw [hsame]
        exact h4
  have h0 : J 0 r.freshReport [] [] := ⟨rfl, rfl, ⟨rfl, rfl, rfl⟩, hQ0⟩
  rw [StreamReader.chunks]
  refine ends_bind (StreamReader.ends_pass hcarries h0) ?_
  rintro _ t ⟨report, ⟨h1, h2, h3, h4⟩, h5⟩
  rw [h2] at h5
  have hrep : t.report = report := h5.trans (checkDigest_eq ht h3)
  rw [exec_bind_ok (exec_get _), hrep, h3.ok]
  exact ⟨h1.trans c.flatten_chunks, by rw [hrep]; exact h3.ok, by rw [hrep]; exact h4⟩

end Contents

end Dbs

/-
  File:      Dbs/Container/RoundTrip.lean
  Subject:   WHAT IS WRITTEN IS READ: the reader over the bytes of a finished writer yields the payload
             and finds nothing to repair.

  * `keyed_of_create` -- the passphrase a container was written with opens it;
  * `create_intact` -- the reader of an undamaged container;
  * `roundTrip` -- for every valid layout, payload, way of splitting it and number of workers.
-/
import Dbs.Container.Recovered

namespace Dbs

open Octets Effects

variable {P : Primitives}

/-! ## 1. Undamaged containers -/

/-- The passphrase given to the writer gives the reader the data key. -/
theorem keyed_of_create (hP : P.OpensWhatItSeals) {drawn : Drawn} {passphrase : Bytes}
    {params : KDFParams} {layout : StreamLayout} {workers flags : Nat} {w : StreamWriter}
    (h : StreamWriter.create P never drawn passphrase params layout workers flags = .ok w)
    (pieces : List Bytes) : (contentsOf w pieces).Keyed P passphrase := by
  obtain ⟨-, hkey, hheader⟩ := StreamWriter.create_ok h
  obtain ⟨kek, h1, h2, h3⟩ := hheader.wrapped
  refine ⟨kek, ?_, ?_⟩
  · show deriveKey P passphrase w.header.salt w.header.kdfParams = .ok kek
    rw [hheader.salt, hheader.kdfParams, h1]
  · show unwrapKey P kek w.header.wrapNonce w.header.wrappedKey w.header.keyBinding = .ok w.dataKey
    rw [h2, h3, hkey]
    exact unwrapKey_wrapKey P hP _ _ _ drawn.dataKey_length

namespace Contents

variable {c : Contents}

/-- Every copy of an undamaged container is the slot of its block. -/
theorem copyAt_bytes {trailer : Option StreamTrailer} {damaged : List String} {i : Nat}
    (hi : i < c.blocks) (second : Bool) :
    (c.reader P (c.bytes P) trailer damaged).copyAt (i, second) = c.slot P i :=
  c.slotAt_bytes P (i, second) hi

/-- **An undamaged container opens** and no copy of its metadata is reported. -/
theorem create_intact (hb : c.blocks ≤ maxBlocks) {passphrase : Bytes}
    (hk : c.Keyed P passphrase) : StreamReader.create P (c.bytes P) (some passphrase) =
      .ok (c.reader P (c.bytes P) (some (c.trailer P)) []) := by
  have hl : 2 * headerSize ≤ (c.bytes P).length := by
    rw [c.bytes_length, StreamLayout.containerSize]
    omega
  exact create_eq hk (locateHeader_both hl (c.bytes_front P) (c.bytes_back P))
    (locateEnd_both hb (c.bytes_length P) fun k hlt => c.bytes_trailer P hlt)

/-- Nothing was healed. -/
structure Pristine (report : StreamRepairReport) : Prop where
  blocksRsCorrected : report.blocksRsCorrected = 0
  blocksUsedB : report.blocksUsedB = 0
  blocksMerged : report.blocksMerged = 0
  copiesAvailable : report.copiesAvailable = 2
  sparesDamaged : report.sparesDamaged = []
  metadataDamaged : report.metadataDamaged = []

theorem Pristine.healed {report : StreamRepairReport} (h : Pristine report) :
    report.healed = false := by
  rw [StreamRepairReport.healed, h.blocksRsCorrected, h.blocksUsedB, h.blocksMerged,
    h.copiesAvailable, h.sparesDamaged, h.metadataDamaged]
  cases report.ok <;> rfl

/-- **Reading an undamaged container** yields the payload; with the spare copies checked, too. -/
theorem ends_chunks_intact (hb : c.blocks ≤ maxBlocks) (ho : c.Opens P) (checkSpares : Bool) :
    Ends (fun _ t => t.out.flatten = c.payload ∧ t.report.ok = true ∧ Pristine t.report)
      (fun _ _ => False)
      (exec ((c.reader P (c.bytes P) (some (c.trailer P)) []).chunks P checkSpares)
        ((c.reader P (c.bytes P) (some (c.trailer P)) []).start [])) := by
  have ht : c.KnownTrailer P (some (c.trailer P)) := Or.inr rfl
  set r := c.reader P (c.bytes P) (some (c.trailer P)) [] with hr
  have hfirst : ∀ i < c.blocks, r.intact P i = some (c.resolvedBlock P i) := fun i hi =>
    intact_of_first ht hb hi (copyAt_bytes hi true)
  have hcomplete : ∀ i < c.blocks, ∀ second,
      ((r.copyAt (i, second)).length == r.layout.slotSize) = true := by
    intro i hi second
    rw [copyAt_bytes hi second, c.slot_length P]
    exact beq_self_eq_true _
  have hsecond : ∀ i < c.blocks, ∀ report, r.secondReport P checkSpares i report = report := by
    intro i hi report
    have hn : r.noteComplete (i, false) report = report := by
      rw [StreamReader.noteComplete, if_pos (hcomplete i hi false)]
    have hspare : r.spareIntact P (r.copyAt (i, false)) (some (c.tag P i)) = true := by
      have he : (c.encoded P i).length = c.layout.encodedSize := c.encoded_length P i
      have htake : (c.slot P i).take c.layout.encodedSize = c.encoded P i := List.take_left' he
      have hdrop : (c.slot P i).drop c.layout.encodedSize = c.tag P i := List.drop_left' he
      have htag : slotTag P c.header.containerId (c.encoded P i) = c.tag P i := rfl
      rw [copyAt_bytes hi false, StreamReader.spareIntact]
      simp only [hr, reader_layout, reader_header, c.slot_length P, htake, hdrop, htag, ne_eq,
        not_true_eq_false, or_self, if_false, beq_self_eq_true]
    rw [StreamReader.secondReport, hn, hfirst i hi]
    simp only [resolvedBlock, hspare, Bool.not_true, Bool.and_false, Bool.false_eq_true, if_false]
  refine ends_chunks ht hb ho (fun i hi => Or.inl (copyAt_bytes hi true)) checkSpares
    ⟨rfl, rfl, rfl, rfl, rfl, rfl⟩ ?_ fun i hi report h => ?_
  · intro i hi report h
    have hn : r.noteComplete (i, true) report = report := by
      rw [StreamReader.noteComplete, if_pos (hcomplete i hi true)]
    rw [StreamReader.firstReport, hn, hfirst i hi]
    exact ⟨h.1, h.2, h.3, h.4, h.5, h.6⟩
  · rw [hsecond i hi report]
    exact h

end Contents

/-! ## 2. A small container -/

/-- The smallest blocks, in the order first copy, second copy. -/
def StreamLayout.small : StreamLayout := ⟨512, 2, 1⟩

def Drawn.plain : Drawn where
  salt := zeros saltLength
  containerId := zeros containerIdLength
  noncePrefix := zeros noncePrefixLength
  dataKey := List.replicate keyLength 1
  wrapNonce := zeros nonceLength
  salt_length := zeros_length _
  containerId_length := zeros_length _
  noncePrefix_length := zeros_length _
  dataKey_length := List.length_replicate
  wrapNonce_length := zeros_length _

theorem layoutProblem_small :
    layoutProblem StreamLayout.small.blockSize StreamLayout.small.nsym
      StreamLayout.small.interleave = none := by decide

/-- A writer of small blocks comes out, and what it is given is stored. -/
theorem exists_small (P : Primitives) (pieces : List Bytes) (blocks : Nat)
    (hb : max 1 ((pieces.flatten.length + 479) / 480) = blocks) (hle : blocks ≤ maxBlocks) :
    ∃ w, StreamWriter.create P never .plain [] {} .small 1 0 = .ok w ∧
      (contentsOf w pieces).layout = .small ∧ (contentsOf w pieces).blocks = blocks ∧
      written P w pieces = some ((contentsOf w pieces).bytes P) := by
  have hcreated : ∃ w, StreamWriter.create P never .plain [] {} .small 1 0 = .ok w :=
    StreamWriter.create_returns .plain [] rfl layoutProblem_small le_rfl (by decide)
  obtain ⟨w, hcreate⟩ := hcreated
  obtain ⟨hfresh, -, hheader⟩ := StreamWriter.create_ok hcreate
  have hlayout : (contentsOf w pieces).layout = .small := hheader.layout
  have hblocks : (contentsOf w pieces).blocks = blocks := by
    rw [Contents.blocks_eq, hlayout]
    exact hb
  refine ⟨w, hcreate, hlayout, hblocks, ?_⟩
  rw [written_eq hfresh, if_pos (by rw [hblocks]; exact hle)]

/-! ## 3. The round trip -/

/-- **The round trip.** For every valid layout and every payload, however it is split into pieces and
    whatever the number of workers: the writer finishes exactly when the payload has no more chunks
    than a container holds, the bytes depend on the joined payload alone, and a reader of them yields
    the payload, counts its chunks and reports nothing healed or repaired. -/
theorem roundTrip (hP : P.OpensWhatItSeals) (drawn : Drawn) (passphrase : Bytes)
    (params : KDFParams) (hk : params.validateUntrusted = .ok ()) (layout : StreamLayout)
    (hl : layoutProblem layout.blockSize layout.nsym layout.interleave = none) (workers : Nat)
    (hw : 1 ≤ workers) (flags : Nat) (hf : flags < 2 ^ 16) (pieces : List Bytes)
    (checkSpares : Bool) :
    let blocks := max 1 ((pieces.flatten.length + layout.chunkCapacity - 1) / layout.chunkCapacity)
    ∃ w, StreamWriter.create P never drawn passphrase params layout workers flags = .ok w ∧
      ((written P w pieces).isSome = true ↔ blocks ≤ maxBlocks) ∧
      (∀ workers' w' pieces', pieces'.flatten = pieces.flatten →
        StreamWriter.create P never drawn passphrase params layout workers' flags = .ok w' →
        written P w' pieces' = written P w pieces) ∧
      ∀ D, written P w pieces = some D → ∃ r t,
        StreamReader.create P D (some passphrase) = .ok r ∧
        exec (r.chunks P checkSpares) (r.start []) = (.ok (), t) ∧
        t.out.flatten = pieces.flatten ∧ t.report.ok = true ∧ t.report.healed = false ∧
        r.metadataDamaged = [] ∧ r.blocks = blocks := by
  obtain ⟨w, hcreate⟩ := StreamWriter.create_returns (P := P) drawn passphrase hk hl hw hf
  obtain ⟨hfresh, hkey, hheader⟩ := StreamWriter.create_ok hcreate
  have hblocks : (contentsOf w pieces).blocks =
      max 1 ((pieces.flatten.length + layout.chunkCapacity - 1) / layout.chunkCapacity) := by
    rw [Contents.blocks_eq]
    show max 1 ((pieces.flatten.length + w.header.layout.chunkCapacity - 1) /
      w.header.layout.chunkCapacity) = _
    rw [hheader.layout]
  refine ⟨w, hcreate, ?_, ?_, ?_⟩
  · rw [written_eq hfresh, hblocks]
    split <;> simp_all
  · intro workers' w' pieces' hflat hcreate'
    obtain ⟨hfresh', hkey', hheader'⟩ := StreamWriter.create_ok hcreate'
    have hsame : contentsOf w' pieces' = contentsOf w pieces := by
      rw [contentsOf, contentsOf, hkey, hkey', hflat,
        StreamWriter.HeaderOf.unique hheader' hheader]
    rw [written_eq hfresh', written_eq hfresh, hsame]
  · intro D hD
    rw [written_eq hfresh] at hD
    split at hD
    · rename_i hb
      cases hD
      have ho := Contents.opens (c := contentsOf w pieces) hP
      obtain ⟨u, t, he, h1, h2, h3⟩ :=
        (Contents.ends_chunks_intact hb ho checkSpares).returns fun _ _ h => h
      exact ⟨_, t, Contents.create_intact hb (keyed_of_create hP hcreate pieces), he, h1, h2,
        h3.healed, rfl, hblocks⟩
    · cases hD

/-- Two writes to a container of one block. -/
theorem roundTrip_small : ∃ w D r t,
    StreamWriter.create .plain never .plain [] {} .small 1 0 = .ok w ∧
    written .plain w [ascii "round", ascii "trip"] = some D ∧
    StreamReader.create .plain D (some []) = .ok r ∧ r.blocks = 1 ∧
    exec (r.chunks .plain true) (r.start []) = (.ok (), t) ∧
    t.out.flatten = ascii "roundtrip" ∧ t.report.healed = false := by
  obtain ⟨w, hcreate, hwritten, -, hread⟩ := roundTrip Primitives.plain_opens .plain [] {} rfl .small
    layoutProblem_small 1 le_rfl 0 (by decide) [ascii "round", ascii "trip"] true
  obtain ⟨D, hD⟩ := Option.isSome_iff_exists.mp (hwritten.mpr (by decide))
  obtain ⟨r, t, h1, h2, h3, -, h5, -, h7⟩ := hread D hD
  exact ⟨w, D, r, t, hcreate, hD, h1, h7, h2, h3, h5⟩

end Dbs

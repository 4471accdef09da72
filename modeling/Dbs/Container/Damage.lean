/-
  File:      Dbs/Container/Damage.lean
  Subject:   WHAT A READER SURVIVES: a container cut off behind the first copy of its last block, and
             one burst of at most `burstTolerance` bytes anywhere in it.

  * `Survives` -- what both damages leave: a header copy, an end that is found, one copy of every
    block; `recovered` -- then the payload is read;
  * `truncation_recovered` -- without a trailer the scan finds the number of blocks; `truncation_misled`
    -- unless what is left reads as a trailer that fits the new size;
  * `Burst`, `Detected` -- one run of changed bytes, and what is assumed of changed copies;
    `burst_recovered` -- it never reaches both copies of a block, nor both headers, nor both trailers
    and a first copy.
-/
import Dbs.Container.RoundTrip

namespace Dbs

open Octets Effects

variable {P : Primitives} {c : Contents}

/-! ## 1. What is left -/

/-- One copy of the header is as it was written; the copy at the back counts where the one in front
    does not verify. -/
def OneHeader (P : Primitives) (header : StreamHeader) (D : Bytes) : Prop :=
  readAt D 0 headerSize = header.seal P ∨
    (2 * headerSize ≤ D.length ∧ verifiedHeaderCopy P (readAt D 0 headerSize) = none ∧
      readAt D (D.length - headerSize) headerSize = header.seal P)

theorem OneHeader.locateHeader {header : StreamHeader} {D : Bytes} (h : OneHeader P header D) :
    ∃ damaged, locateHeader P D = .ok (header, damaged) := by
  rcases h with h | ⟨hl, hf, hb⟩
  · exact locateHeader_front h
  · exact locateHeader_back hl hf hb

namespace Contents

/-- A trailer copy is as it was written, or it does not open. -/
def TrailersHold (P : Primitives) (c : Contents) (D : Bytes) : Prop := ∀ k < 2,
  readAt D (headerSize + 2 * c.blocks * c.layout.slotSize + k * trailerSize) trailerSize =
      (c.trailer P).seal P ∨
    StreamTrailer.open P (readAt D (headerSize + 2 * c.blocks * c.layout.slotSize +
      k * trailerSize) trailerSize) c.header = none

/-- The trailer that is read where the size of the source puts one. -/
def trailerBySize (P : Primitives) (c : Contents) (D : Bytes) : Option StreamTrailer :=
  (readTrailers P D c.header (D.length - headerSize - 2 * trailerSize)
    fun found => c.layout.containerSize found.blocks == D.length).1

/-- **What is left of a container** is enough to find its header and its end. -/
structure Survives (P : Primitives) (c : Contents) (D : Bytes) : Prop where
  blocks_le : c.blocks ≤ maxBlocks
  header : OneHeader P c.header D
  finish : ∃ trailer damaged, c.KnownTrailer P trailer ∧
    locateEnd P D c.header = .ok (trailer, c.blocks, damaged)

/-- The payload is read from what survives with one copy of every block. -/
theorem Survives.recovered {D : Bytes} (h : c.Survives P D) (hP : P.OpensWhatItSeals)
    {passphrase : Bytes} (hkeyed : c.Keyed P passphrase)
    (hone : ∀ trailer damaged, ∀ i < c.blocks, OneCopy (c.reader P D trailer damaged) P c i)
    (checkSpares : Bool) :
    ∃ r t, StreamReader.create P D (some passphrase) = .ok r ∧ r.blocks = c.blocks ∧
      exec (r.chunks P checkSpares) (r.start []) = (.ok (), t) ∧ t.out.flatten = c.payload := by
  obtain ⟨damaged, hheader⟩ := h.header.locateHeader
  obtain ⟨trailer, damaged', ht, hend⟩ := h.finish
  have hread := ends_chunks ht h.blocks_le (opens hP) (hone trailer (damaged ++ damaged'))
    checkSpares (Q := fun _ => True) trivial (fun _ _ _ _ => trivial) (fun _ _ _ _ => trivial)
  obtain ⟨u, t, he, h1, -, -⟩ := hread.returns fun _ _ h => h
  exact ⟨_, t, create_eq hkeyed hheader hend, rfl, he, h1⟩

end Contents

/-- The end is found from the first copies, unless a foreign trailer stands where the size puts one. -/
theorem FirstCopies.finish {D : Bytes} (h : FirstCopies P c D)
    (hown : ∀ t, c.trailerBySize P D = some t → t = c.trailer P) (ht : c.TrailersHold P D) :
    ∃ trailer damaged, c.KnownTrailer P trailer ∧
      locateEnd P D c.header = .ok (trailer, c.blocks, damaged) := by
  cases hr : c.trailerBySize P D with
  | none => exact locateEnd_scan h hr ht
  | some t =>
    obtain rfl := hown t hr
    rw [Contents.trailerBySize] at hr
    cases hread : readTrailers P D c.header (D.length - headerSize - 2 * trailerSize)
        fun found => c.layout.containerSize found.blocks == D.length with
    | mk found damaged =>
      rw [hread] at hr
      obtain rfl : found = some (c.trailer P) := hr
      exact ⟨_, damaged, Or.inr rfl, locateEnd_of_trailer hread⟩

/-! ## 2. Truncation -/

namespace Contents

/-- First copies lie before the first copy of the last block. -/
theorem firstCopyPosition_le {k : Nat} (hk : k < c.blocks) :
    firstCopyPosition k c.layout.interleave ≤
      firstCopyPosition (c.blocks - 1) c.layout.interleave := by
  rcases Nat.lt_or_ge k (c.blocks - 1) with h | h
  · exact (firstCopyPosition_lt_of_lt h).le
  · rw [show k = c.blocks - 1 by omega]

/-- The slots up to the first copy of the last block end before `m`. -/
def Keeps (c : Contents) (m : Nat) : Prop :=
  headerSize + (firstCopyPosition (c.blocks - 1) c.layout.interleave + 1) * c.layout.slotSize ≤ m

theorem Keeps.first {m k : Nat} (hm : c.Keeps m) (hk : k < c.blocks) :
    headerSize + firstCopyPosition k c.layout.interleave * c.layout.slotSize +
      c.layout.slotSize ≤ m := by
  have hle : (firstCopyPosition k c.layout.interleave + 1) * c.layout.slotSize ≤
      (firstCopyPosition (c.blocks - 1) c.layout.interleave + 1) * c.layout.slotSize :=
    Nat.mul_le_mul_right _ (Nat.succ_le_succ (firstCopyPosition_le hk))
  rw [Nat.add_mul, Nat.one_mul] at hle
  unfold Keeps at hm
  omega

end Contents

/-- `D` is `C`, cut off at `m`; its front header may be damaged. -/
structure CutOff (C : Bytes) (m : Nat) (D : Bytes) : Prop where
  length_eq : D.length = (C.take m).length
  behind : D.drop headerSize = (C.take m).drop headerSize

namespace CutOff

variable {m : Nat} {D : Bytes}

theorem readAt_eq {C : Bytes} (h : CutOff C m D) (start n : Nat) :
    readAt D (headerSize + start) n = readAt (C.take m) (headerSize + start) n := by
  rw [readAt, readAt, ← slice_drop, ← slice_drop, h.behind]

theorem firstCopies (h : CutOff (c.bytes P) m D) (hm : c.Keeps m) (hb : c.blocks ≤ maxBlocks) :
    FirstCopies P c D := by
  refine ⟨fun k hk => ?_, hb⟩
  refine (h.readAt_eq _ _).trans ?_
  rw [readAt, slice_take (hm.first hk)]
  exact c.slotAt_bytes P (k, true) hk

/-- A trailer copy is kept in full, or what is left of it is too short to open. -/
theorem trailersHold (h : CutOff (c.bytes P) m D) : c.TrailersHold P D := by
  intro k hk
  rw [Nat.add_assoc, h.readAt_eq, ← Nat.add_assoc]
  rcases Nat.lt_or_ge m (headerSize + 2 * c.blocks * c.layout.slotSize + k * trailerSize +
    trailerSize) with hlt | hge
  · right
    rw [StreamTrailer.open, if_pos]
    rw [readAt, slice_length, List.length_take]
    have : 0 < trailerSize := by decide
    omega
  · left
    rw [readAt, slice_take hge]
    exact c.bytes_trailer P hk

end CutOff

/-- **Truncation.** Cut the end of a container off, so that the slots up to the first copy of the last
    block stay, a header copy is valid, and no trailer but the container's own is read at the new end:
    the scan of the slots finds the number of blocks, and the payload is yielded. -/
theorem truncation_recovered (hP : P.OpensWhatItSeals) {drawn : Drawn} {passphrase : Bytes}
    {params : KDFParams} {layout : StreamLayout} {workers flags : Nat} {w : StreamWriter}
    (hcreate : StreamWriter.create P never drawn passphrase params layout workers flags = .ok w)
    {pieces : List Bytes} {C : Bytes} (hC : written P w pieces = some C) {m : Nat} {D : Bytes}
    (hcut : CutOff C m D) (hm : (contentsOf w pieces).Keeps m) (hheader : OneHeader P w.header D)
    (hown : ∀ t, (contentsOf w pieces).trailerBySize P D = some t →
      t = (contentsOf w pieces).trailer P) (checkSpares : Bool) :
    scanBlockCount P D w.header.layout = .ok (contentsOf w pieces).blocks ∧
    ∃ r t, StreamReader.create P D (some passphrase) = .ok r ∧
      r.blocks = (contentsOf w pieces).blocks ∧
      exec (r.chunks P checkSpares) (r.start []) = (.ok (), t) ∧
      t.out.flatten = pieces.flatten := by
  obtain ⟨hb, rfl⟩ := written_ok hcreate hC
  have hfirst := hcut.firstCopies hm hb
  have hsurvives : (contentsOf w pieces).Survives P D :=
    ⟨hb, hheader, hfirst.finish hown hcut.trailersHold⟩
  exact ⟨hfirst.scanBlockCount_eq, hsurvives.recovered hP (keyed_of_create hP hcreate pieces)
    (fun _ _ i hi => Or.inl (hfirst.slot i hi)) checkSpares⟩

theorem open_marker {raw : Bytes} {header : StreamHeader} {t : StreamTrailer}
    (h : StreamTrailer.open P raw header = some t) : raw.take 8 = trailerMarker := by
  rw [StreamTrailer.open] at h
  simp only [Option.ite_none_left_eq_some] at h
  obtain ⟨-, -, h⟩ := h
  cases hf : Struct.fields trailerBody (raw.take trailerBodySize) with
  | mk marker rest =>
    have hm : (raw.take trailerBodySize).take 8 = marker := congrArg Prod.fst hf
    obtain ⟨version, length, containerId, blocks, plaintextBytes, finalLen, digest, ⟨⟩⟩ := rest
    simp only [hf, Option.ite_none_left_eq_some, not_or, not_not] at h
    rw [List.take_take] at hm
    exact hm.trans h.1.1

theorem seal_marker (t : StreamTrailer) : (t.seal P)[0]? = some 68 := rfl

/-- Without its last byte a container has its trailers one place further on. -/
theorem trailerBySize_cut {D : Bytes} (hD : CutOff (c.bytes P) ((c.bytes P).length - 1) D) :
    c.trailerBySize P D = none := by
  have hsize := c.bytes_length P
  have hblocks := c.blocks_pos
  have hslot := c.layout.slotSize_pos
  have hpos : 0 < 2 * c.blocks * c.layout.slotSize := Nat.mul_pos (by omega) hslot
  set body := 2 * c.blocks * c.layout.slotSize with hbody
  rw [StreamLayout.containerSize, ← hbody] at hsize
  have hlen : D.length - headerSize - 2 * trailerSize = headerSize + (body - 1) := by
    rw [hD.length_eq, List.length_take]
    omega
  have hnone : ∀ k < 2, StreamTrailer.open P
      (readAt D (headerSize + (body - 1) + k * trailerSize) trailerSize) c.header = none := by
    intro k hk
    have hk' : k * trailerSize ≤ trailerSize := by
      rcases Nat.lt_or_ge k 1 with h | h
      · rw [Nat.lt_one_iff.mp h, Nat.zero_mul]
        exact Nat.zero_le _
      · rw [show k = 1 by omega, Nat.one_mul]
    have hts : 2 ≤ trailerSize := by decide
    have hhs : 1 ≤ headerSize := by decide
    -- in the place of the marker's second letter stands its first one
    have hfirst : (readAt D (headerSize + (body - 1) + k * trailerSize) trailerSize)[1]? =
        some 68 := by
      rw [Nat.add_assoc, hD.readAt_eq, readAt, slice_getElem? _ hts,
        List.getElem?_take_of_lt (by omega),
        show headerSize + (body - 1 + k * trailerSize) + 1 = headerSize + body + k * trailerSize + 0
          by omega, ← slice_getElem? _ (show 0 < trailerSize by omega), hbody, c.bytes_trailer P hk]
      exact seal_marker _
    cases ho : StreamTrailer.open P
        (readAt D (headerSize + (body - 1) + k * trailerSize) trailerSize) c.header with
    | none => rfl
    | some t =>
      have hm := congrArg (·[1]?) (open_marker ho)
      rw [List.getElem?_take_of_lt (by decide), hfirst] at hm
      exact absurd hm (by decide)
  rw [Contents.trailerBySize, hlen, readTrailers_none _ hnone]

/-- A container without its last byte. -/
theorem truncation_recovered_small : ∃ w C r t,
    StreamWriter.create .plain never .plain [] {} .small 1 0 = .ok w ∧
    written .plain w [ascii "payload"] = some C ∧
    StreamReader.create .plain (C.take (C.length - 1)) (some []) = .ok r ∧
    exec (r.chunks .plain false) (r.start []) = (.ok (), t) ∧ t.out.flatten = ascii "payload" := by
  obtain ⟨w, hcreate, hlayout, hblocks, hwritten⟩ := exists_small .plain
    [ascii "payload"] 1 (by decide) (by decide)
  set c := contentsOf w [ascii "payload"]
  have hsize : (c.bytes .plain).length = c.layout.containerSize c.blocks := c.bytes_length .plain
  have hkeeps : c.Keeps ((c.bytes .plain).length - 1) := by
    rw [hsize, hblocks, hlayout, Contents.Keeps, hblocks, hlayout]
    decide
  have hfront : OneHeader .plain w.header ((c.bytes .plain).take ((c.bytes .plain).length - 1)) := by
    refine Or.inl ?_
    rw [readAt, slice_take (by rw [hsize, hblocks, hlayout]; decide)]
    exact c.bytes_front .plain
  obtain ⟨-, r, t, h1, -, h2, h3⟩ := truncation_recovered Primitives.plain_opens hcreate hwritten
    (m := (c.bytes .plain).length - 1) ⟨rfl, rfl⟩ hkeeps hfront
    (fun t ht => by rw [trailerBySize_cut ⟨rfl, rfl⟩] at ht; cases ht) false
  exact ⟨w, _, r, t, hcreate, hwritten, h1, h2, h3⟩

/-- Two copies of one block apart, so that the first copies of two blocks come first. -/
def StreamLayout.wide : StreamLayout := ⟨512, 2, 2⟩

/-- Where a container of one block has its trailers, one of two blocks has its first block again. -/
theorem readAt_again (P : Primitives) (hl : c.layout = .wide) (hblocks : c.blocks = 2) {s n : Nat}
    (h : s + n ≤ 200) : readAt ((c.bytes P).take (StreamLayout.wide.containerSize 1))
      (headerSize + 2 * StreamLayout.wide.slotSize + s) n = slice (c.block P 0) s n := by
  have hslot : StreamLayout.wide.slotSize = 534 := rfl
  have hcut : headerSize + 2 * StreamLayout.wide.slotSize + s + n ≤
      StreamLayout.wide.containerSize 1 := by
    unfold StreamLayout.containerSize trailerSize trailerBodySize sealedChecksumSize
    omega
  have hat := c.slotAt_bytes P (0, false) (by omega)
  rw [show copyPosition c.blocks c.layout.interleave (0, false) = 2 by rw [hblocks, hl]; rfl] at hat
  have hencoded : c.layout.encodedSize = 518 := by rw [hl]; rfl
  have hmessage : Rs.messageLength c.layout.nsym = 253 := by rw [hl]; rfl
  rw [slotAt, hl] at hat
  rw [readAt, slice_take hcut, ← slice_slice (n := StreamLayout.wide.slotSize) (by omega), hat,
    Contents.slot, slice_append_left _ _ (by rw [c.encoded_length]; omega),
    ← slice_take (d := c.encoded P 0) (k := Rs.codewordSize) (by unfold Rs.codewordSize; omega),
    c.encoded_take, Rs.codeword, slice_append_left _ _ (by
      rw [List.length_take]
      have := c.messageLength_le_block (P := P) 0
      omega), slice_take (by omega)]

/-- A trailer of one block, for a container of no payload. -/
def foreign : StreamTrailer := ⟨zeros containerIdLength, 1, 0, tagLength, zeros 32⟩

/-- A payload of two blocks, with that trailer in it. -/
def misleading (P : Primitives) : Bytes := zeros 84 ++ (foreign.seal P ++ zeros 400)

theorem misleading_length : (misleading P).length = 584 := by
  rw [misleading, List.length_append, List.length_append, foreign.seal_length, zeros_length,
    zeros_length]
  rfl

/-- Behind the descriptor and the zeros the block shows the trailer. -/
theorem block_misleading (hl : c.layout = .wide) (hp : c.payload = misleading .plain) :
    slice (c.block .plain 0) trailerSize trailerSize = foreign.seal .plain := by
  have hchunk : c.chunk 0 = (misleading .plain).take 480 := by
    rw [c.chunk_eq c.blocks_pos, hp, show c.layout.chunkCapacity = 480 by rw [hl]; rfl, Nat.zero_mul]
    rfl
  have hlen : (c.chunk 0).length = 480 := by
    rw [hchunk, List.length_take, misleading_length]
    rfl
  have hcipher : c.ciphertext .plain 0 = c.chunk 0 ++ zeros 16 := rfl
  have hmark := foreign.seal_length .plain
  rw [Contents.block_eq, slice_append_right _ _ _ (by rw [Struct.pack_length]; decide),
    Struct.pack_length,
    hcipher, List.append_assoc, slice_append_left _ _ (by rw [hlen]; decide), hchunk,
    slice_take (by decide), ← hmark]
  exact slice_middle (zeros 84) (foreign.seal .plain) (zeros 400)

/-- The bytes in front of a block's number open as no trailer. -/
theorem open_block (P : Primitives) (c : Contents) :
    StreamTrailer.open P (slice (c.block P 0) 0 trailerSize) c.header = none := by
  cases ho : StreamTrailer.open P (slice (c.block P 0) 0 trailerSize) c.header with
  | none => rfl
  | some t =>
    have hm := congrArg (·[0]?) (open_marker ho)
    have hzero : (c.block P 0)[0]? = some 0 := rfl
    rw [List.getElem?_take_of_lt (by decide), slice_getElem? _ (by decide), Nat.add_zero, hzero] at hm
    exact absurd hm (by decide)

/-- **A number of blocks that is not the container's**: two blocks, cut where a container of one block
    ends. The payload's bytes are read as the trailer that would stand there. -/
theorem truncation_misled : ∃ w C r,
    StreamWriter.create .plain never .plain [] {} .wide 1 0 = .ok w ∧
    written .plain w [misleading .plain] = some C ∧
    (contentsOf w [misleading .plain]).blocks = 2 ∧
    (contentsOf w [misleading .plain]).Keeps (StreamLayout.wide.containerSize 1) ∧
    OneHeader .plain w.header (C.take (StreamLayout.wide.containerSize 1)) ∧
    StreamReader.create .plain (C.take (StreamLayout.wide.containerSize 1)) (some []) = .ok r ∧
    r.blocks = 1 := by
  obtain ⟨w, hcreate⟩ : ∃ w, StreamWriter.create .plain never .plain [] {} .wide 1 0 = .ok w :=
    StreamWriter.create_returns .plain [] rfl (by decide) le_rfl (by decide)
  obtain ⟨hfresh, -, hheader⟩ := StreamWriter.create_ok hcreate
  set c := contentsOf w [misleading .plain] with hc
  have hl : c.layout = .wide := hheader.layout
  have hp : c.payload = misleading .plain := List.flatten_singleton
  have hblocks : c.blocks = 2 := by
    rw [Contents.blocks_eq, hl, hp, misleading_length]
    rfl
  have hwritten : written .plain w [misleading .plain] = some (c.bytes .plain) := by
    rw [written_eq hfresh, if_pos (by rw [← hc, hblocks]; decide)]
  set D := (c.bytes .plain).take (StreamLayout.wide.containerSize 1) with hD
  have hlen : D.length = StreamLayout.wide.containerSize 1 := by
    rw [hD, List.length_take, c.bytes_length, hblocks, hl]
    exact Nat.min_eq_left (by decide)
  have hfront : OneHeader .plain w.header D := by
    refine .inl ?_
    rw [hD, readAt, slice_take (by decide)]
    exact c.bytes_front .plain
  have hfit : foreign.Fitting w.header :=
    ⟨hheader.containerId.symm, by decide, by rw [hheader.layout]; decide,
      by rw [hheader.layout]; rfl, rfl⟩
  have hfirst : StreamTrailer.open .plain
      (readAt D (headerSize + 2 * StreamLayout.wide.slotSize + 0 * trailerSize) trailerSize)
        w.header = none := by
    rw [Nat.zero_mul, readAt_again .plain hl hblocks (by decide)]
    exact open_block .plain c
  have hsecond : readAt D (headerSize + 2 * StreamLayout.wide.slotSize + 1 * trailerSize) trailerSize =
      foreign.seal .plain := by
    rw [Nat.one_mul, readAt_again .plain hl hblocks (by decide), block_misleading hl hp]
  obtain ⟨damaged, hread⟩ := readTrailers_found hfit (by omega)
    (fun found => w.header.layout.containerSize found.blocks == D.length)
    (by rw [hheader.layout, hlen]; exact beq_self_eq_true _) (fun k hk => by
      obtain rfl | rfl : k = 0 ∨ k = 1 := by omega
      · exact .inr hfirst
      · exact .inl hsecond) ⟨1, by decide, hsecond⟩
  rw [show headerSize + 2 * StreamLayout.wide.slotSize = D.length - headerSize - 2 * trailerSize by
    rw [hlen]; rfl] at hread
  obtain ⟨damaged', hlocated⟩ := hfront.locateHeader
  have hr := create_eq (c := contentsOf w []) (keyed_of_create Primitives.plain_opens hcreate [])
    hlocated (locateEnd_of_trailer hread)
  refine ⟨w, _, _, hcreate, hwritten, hblocks, ?_, hfront, hr, rfl⟩
  rw [Contents.Keeps, hblocks, hl]
  decide

/-! ## 3. A burst -/

/-- At most the bytes from `start` up to `start + length` differ. -/
structure Burst (C D : Bytes) (start length : Nat) : Prop where
  length_eq : D.length = C.length
  outside : ∀ i, i < start ∨ start + length ≤ i → D[i]? = C[i]?

theorem Burst.readAt_eq {C D : Bytes} {start length s n : Nat} (h : Burst C D start length)
    (hs : s + n ≤ start ∨ start + length ≤ s) : readAt D s n = readAt C s n :=
  slice_congr fun i h1 h2 => h.outside i (by omega)

/-- **What changed shows**: a changed copy of the header, of the trailer or of a slot fails its own
    checksum or tag. -/
structure Detected (P : Primitives) (header : StreamHeader) (blocks : Nat) (C D : Bytes) :
    Prop where
  headers : ∀ start, start = 0 ∨ start = C.length - headerSize →
    readAt D start headerSize ≠ readAt C start headerSize →
    verifiedHeaderCopy P (readAt D start headerSize) = none
  trailers : ∀ k < 2, ∀ start,
    start = headerSize + 2 * blocks * header.layout.slotSize + k * trailerSize →
    readAt D start trailerSize ≠ readAt C start trailerSize →
    StreamTrailer.open P (readAt D start trailerSize) header = none
  slots : ∀ p < 2 * blocks, ∀ raw, raw = slotAt header.layout D p →
    raw ≠ slotAt header.layout C p →
    slotTag P header.containerId (raw.take header.layout.encodedSize) ≠
      raw.drop header.layout.encodedSize

theorem burst_append (a b : Bytes) {x y : Bytes} (h : y.length = x.length) :
    Burst (a ++ (x ++ b)) (a ++ (y ++ b)) a.length x.length := by
  refine ⟨by simp [h], fun i hi => ?_⟩
  rcases hi with hi | hi
  · rw [List.getElem?_append_left hi, List.getElem?_append_left hi]
  · rw [List.getElem?_append_right (by omega), List.getElem?_append_right (by omega),
      List.getElem?_append_right (by omega), List.getElem?_append_right (by omega), h]

namespace Burst

variable {D : Bytes} {start length : Nat}

/-- The slots between the two copies of a block. -/
theorem length_le (hlen : length ≤ c.layout.burstTolerance c.blocks) :
    ∃ d, length ≤ d * c.layout.slotSize ∧ d < c.blocks ∧
      d = if c.layout.interleave < c.blocks then c.layout.interleave else c.blocks - 1 := by
  have hpos := c.blocks_pos
  refine ⟨_, hlen, ?_, rfl⟩
  split <;> omega

/-- The burst does not reach both copies of the header. -/
theorem oneHeader (h : Burst (c.bytes P) D start length)
    (hd : Detected P c.header c.blocks (c.bytes P) D)
    (hlen : length ≤ c.layout.burstTolerance c.blocks) : OneHeader P c.header D := by
  obtain ⟨d, h1, h2, -⟩ := length_le hlen
  have hsize := c.bytes_length P
  rw [StreamLayout.containerSize] at hsize
  have hmul : d * c.layout.slotSize ≤ 2 * c.blocks * c.layout.slotSize :=
    Nat.mul_le_mul_right _ (by omega)
  by_cases hf : readAt D 0 headerSize = readAt (c.bytes P) 0 headerSize
  · exact Or.inl (hf.trans (c.bytes_front P))
  · have hback : readAt D ((c.bytes P).length - headerSize) headerSize =
        readAt (c.bytes P) ((c.bytes P).length - headerSize) headerSize := by
      refine h.readAt_eq (Or.inr ?_)
      by_contra hlt
      exact hf (h.readAt_eq (by omega))
    refine Or.inr ⟨by rw [h.length_eq]; omega, hd.headers 0 (Or.inl rfl) hf, ?_⟩
    rw [h.length_eq]
    exact hback.trans (c.bytes_back P)

theorem trailersHold (hd : Detected P c.header c.blocks (c.bytes P) D) : c.TrailersHold P D := by
  intro k hk
  by_cases he : readAt D (headerSize + 2 * c.blocks * c.layout.slotSize + k * trailerSize)
      trailerSize = readAt (c.bytes P)
        (headerSize + 2 * c.blocks * c.layout.slotSize + k * trailerSize) trailerSize
  · exact Or.inl (he.trans (c.bytes_trailer P hk))
  · exact Or.inr (hd.trailers k hk _ rfl he)

/-- Where the burst reaches both trailers, it starts behind the first copies. -/
theorem firstCopies (h : Burst (c.bytes P) D start length)
    (hlen : length ≤ c.layout.burstTolerance c.blocks) (hb : c.blocks ≤ maxBlocks)
    (hlost : ∀ k < 2, readAt D (headerSize + 2 * c.blocks * c.layout.slotSize + k * trailerSize)
      trailerSize ≠ (c.trailer P).seal P) : FirstCopies P c D := by
  obtain ⟨d, h1, h2, h3⟩ := length_le hlen
  have hreach : headerSize + 2 * c.blocks * c.layout.slotSize + 1 * trailerSize <
      start + length := by
    by_contra hle
    refine hlost 1 (by omega) (Eq.trans (h.readAt_eq (Or.inr (by omega))) ?_)
    exact c.bytes_trailer P (by omega)
  have hsplit : 2 * c.blocks * c.layout.slotSize =
      (2 * c.blocks - d) * c.layout.slotSize + d * c.layout.slotSize := by
    rw [← Nat.add_mul, Nat.sub_add_cancel (by omega)]
  have hkeeps : c.Keeps start := by
    have hp : firstCopyPosition (c.blocks - 1) c.layout.interleave + 1 ≤ 2 * c.blocks - d := by
      unfold firstCopyPosition
      split at h3 <;> split <;> omega
    have hm := Nat.mul_le_mul_right c.layout.slotSize hp
    unfold Contents.Keeps
    omega
  refine ⟨fun k hk => ?_, hb⟩
  refine Eq.trans (h.readAt_eq (Or.inl (hkeeps.first hk))) ?_
  exact c.slotAt_bytes P (k, true) hk

theorem finish (h : Burst (c.bytes P) D start length)
    (hd : Detected P c.header c.blocks (c.bytes P) D)
    (hlen : length ≤ c.layout.burstTolerance c.blocks) (hb : c.blocks ≤ maxBlocks) :
    ∃ trailer damaged, c.KnownTrailer P trailer ∧
      locateEnd P D c.header = .ok (trailer, c.blocks, damaged) := by
  have hsize : D.length = c.layout.containerSize c.blocks := h.length_eq.trans (c.bytes_length P)
  by_cases hk : ∃ k < 2, readAt D (headerSize + 2 * c.blocks * c.layout.slotSize +
      k * trailerSize) trailerSize = (c.trailer P).seal P
  · obtain ⟨damaged, he⟩ := locateEnd_trailer hb hsize (trailersHold hd) hk
    exact ⟨_, damaged, Or.inr rfl, he⟩
  · have hlost : ∀ k < 2, readAt D (headerSize + 2 * c.blocks * c.layout.slotSize +
        k * trailerSize) trailerSize ≠ (c.trailer P).seal P := fun k hlt he => hk ⟨k, hlt, he⟩
    refine (h.firstCopies hlen hb hlost).finish (fun t ht => ?_) (trailersHold hd)
    have hnone := readTrailers_none
      (fun found => c.layout.containerSize found.blocks == D.length) fun k hlt =>
        (trailersHold hd k hlt).resolve_left (hlost k hlt)
    rw [← trailer_start hsize] at hnone
    rw [Contents.trailerBySize, hnone] at ht
    cases ht

/-- Whatever happens to the slots, the header and the end are found. -/
theorem survives (h : Burst (c.bytes P) D headerSize (2 * c.blocks * c.layout.slotSize))
    (hb : c.blocks ≤ maxBlocks) : c.Survives P D := by
  have hsize : D.length = c.layout.containerSize c.blocks := h.length_eq.trans (c.bytes_length P)
  have hfront : readAt D 0 headerSize = c.header.seal P :=
    (h.readAt_eq (Or.inl (by omega))).trans (c.bytes_front P)
  have htrailer : ∀ k < 2, readAt D (headerSize + 2 * c.blocks * c.layout.slotSize +
      k * trailerSize) trailerSize = (c.trailer P).seal P := fun k hk =>
    (h.readAt_eq (Or.inr (Nat.le_add_right _ _))).trans (c.bytes_trailer P hk)
  exact ⟨hb, Or.inl hfront, _, _, Or.inr rfl, locateEnd_both hb hsize htrailer⟩

/-- **The burst leaves one copy of every block.** -/
theorem oneCopy (h : Burst (c.bytes P) D start length)
    (hd : Detected P c.header c.blocks (c.bytes P) D)
    (hlen : length ≤ c.layout.burstTolerance c.blocks) {trailer : Option StreamTrailer}
    {damaged : List String} {i : Nat} (hi : i < c.blocks) :
    Contents.OneCopy (c.reader P D trailer damaged) P c i := by
  obtain ⟨d, h1, -, h3⟩ := length_le hlen
  set first := firstCopyPosition i c.layout.interleave with hfirst
  set second := secondCopyPosition i c.blocks c.layout.interleave with hsecond
  have hs1 : slotAt c.layout (c.bytes P) first = c.slot P i :=
    c.slotAt_bytes P (i, true) hi
  have hs2 : slotAt c.layout (c.bytes P) second = c.slot P i :=
    c.slotAt_bytes P (i, false) hi
  by_cases he : slotAt c.layout D first = slotAt c.layout (c.bytes P) first
  · exact Or.inl (he.trans hs1)
  · refine Or.inr ⟨?_, ?_⟩
    · have htag := hd.slots first (firstCopyPosition_lt hi) _ rfl he
      have hc : (c.reader P D trailer damaged).copyAt (i, true) = slotAt c.layout D first := rfl
      rw [StreamReader.intact, hc, StreamReader.clean]
      split
      · rfl
      · exact if_pos htag
    · show slotAt c.layout D second = c.slot P i
      refine Eq.trans (h.readAt_eq (Or.inr ?_)) hs2
      have hapart : first + d < second := by
        rw [h3]
        exact copies_apart hi
      have hm : (first + d + 1) * c.layout.slotSize ≤ second * c.layout.slotSize :=
        Nat.mul_le_mul_right _ hapart
      have hsum : (first + d + 1) * c.layout.slotSize =
          first * c.layout.slotSize + c.layout.slotSize + d * c.layout.slotSize := by ring
      by_contra hgt
      refine he (h.readAt_eq ?_)
      omega

end Burst

/-- **A burst is healed.** Whatever run of at most `burstTolerance` bytes of a container is replaced,
    and wherever it lies, the payload is yielded, if the copies it changed fail their checksum. -/
theorem burst_recovered (hP : P.OpensWhatItSeals) {drawn : Drawn} {passphrase : Bytes}
    {params : KDFParams} {layout : StreamLayout} {workers flags : Nat} {w : StreamWriter}
    (hcreate : StreamWriter.create P never drawn passphrase params layout workers flags = .ok w)
    {pieces : List Bytes} {C : Bytes} (hC : written P w pieces = some C) {D : Bytes}
    {start length : Nat} (hburst : Burst C D start length)
    (hlen : length ≤ layout.burstTolerance (contentsOf w pieces).blocks)
    (hdetected : Detected P w.header (contentsOf w pieces).blocks C D) (checkSpares : Bool) :
    ∃ r t, StreamReader.create P D (some passphrase) = .ok r ∧
      exec (r.chunks P checkSpares) (r.start []) = (.ok (), t) ∧
      t.out.flatten = pieces.flatten := by
  obtain ⟨hb, rfl⟩ := written_ok hcreate hC
  obtain ⟨-, -, hheader⟩ := StreamWriter.create_ok hcreate
  rw [← hheader.layout] at hlen
  have hsurvives : (contentsOf w pieces).Survives P D :=
    ⟨hb, hburst.oneHeader hdetected hlen, hburst.finish hdetected hlen hb⟩
  obtain ⟨r, t, h1, -, h2, h3⟩ := hsurvives.recovered hP (keyed_of_create hP hcreate pieces)
    (fun _ _ i hi => hburst.oneCopy hdetected hlen hi) checkSpares
  exact ⟨r, t, h1, h2, h3⟩

theorem burst_set (C : Bytes) (k : Nat) (b : UInt8) : Burst C (C.set k b) k 1 :=
  ⟨List.length_set, fun i hi => List.getElem?_set_ne (by omega)⟩

theorem Contents.slotAt_first (P : Primitives) (c : Contents) :
    slotAt c.layout (c.bytes P) 0 = c.slot P 0 := by
  have hz : firstCopyPosition 0 c.layout.interleave = 0 := by
    unfold firstCopyPosition
    split <;> omega
  have h := c.slotAt_bytes P (0, true) c.blocks_pos
  rwa [copyPosition, if_pos rfl, hz] at h

/-- The first byte of the first slot's tag. -/
theorem bytes_tag_getElem? (P : Primitives) (c : Contents) :
    (c.bytes P)[headerSize + c.layout.encodedSize]? = (c.tag P 0)[0]? := by
  have hs := c.slotAt_first P
  have he : (c.encoded P 0).length = c.layout.encodedSize := c.encoded_length P 0
  have hg := congrArg (·[c.layout.encodedSize]?) hs
  rw [Contents.slot, List.getElem?_append_right he.le, he, Nat.sub_self, slotAt,
    slice_getElem? _ (by rw [StreamLayout.slotSize, slotTagSize]; omega), Nat.zero_mul] at hg
  exact hg

theorem set_tag_ne {b : UInt8} (hb : (c.tag P 0)[0]? ≠ some b) :
    (c.bytes P).set (headerSize + c.layout.encodedSize) b ≠ c.bytes P := by
  intro he
  have hold := bytes_tag_getElem? P c
  have htag : 0 < (c.tag P 0).length := by rw [Contents.tag_length]; decide
  rw [List.getElem?_eq_getElem htag] at hold hb
  have hnew := List.getElem?_set_self (a := b) (List.getElem?_eq_some_iff.mp hold).1
  rw [he, hold] at hnew
  exact hb hnew

/-- A changed byte of a tag is detected, whatever the hash function. -/
theorem detected_set {b : UInt8} (hb : (c.tag P 0)[0]? ≠ some b) :
    Detected P c.header c.blocks (c.bytes P)
      ((c.bytes P).set (headerSize + c.layout.encodedSize) b) := by
  have hburst := burst_set (c.bytes P) (headerSize + c.layout.encodedSize) b
  have hsize := c.bytes_length P
  rw [StreamLayout.containerSize] at hsize
  have hslot : c.layout.slotSize = c.layout.encodedSize + 16 := rfl
  have hmul : c.layout.slotSize ≤ 2 * c.blocks * c.layout.slotSize :=
    Nat.le_mul_of_pos_left _ (Nat.mul_pos (by decide) c.blocks_pos)
  refine ⟨fun start hs hne => absurd (hburst.readAt_eq ?_) hne,
    fun k _ start hs hne => absurd (hburst.readAt_eq ?_) hne, ?_⟩
  · rcases hs with h0 | hback
    · left
      rw [h0]
      omega
    · right
      rw [hback]
      omega
  · right
    rw [hs, show c.header.layout = c.layout from rfl]
    have := Nat.zero_le (k * trailerSize)
    omega
  · rintro p hp raw rfl hne htag
    have hzero : p = 0 := by
      by_contra hpos
      have hm : 1 * c.layout.slotSize ≤ p * c.layout.slotSize :=
        Nat.mul_le_mul_right _ (Nat.one_le_iff_ne_zero.mpr hpos)
      have hsame := hburst.readAt_eq (s := headerSize + p * c.layout.slotSize)
        (n := c.layout.slotSize) (Or.inr (by omega))
      exact hne hsame
    subst hzero
    have hfirst : slotAt c.layout (c.bytes P) 0 = c.slot P 0 := c.slotAt_first P
    have he : (c.encoded P 0).length = c.layout.encodedSize := c.encoded_length P 0
    -- the encoded block is as it was, its tag is not
    have htake : (slotAt c.layout ((c.bytes P).set (headerSize + c.layout.encodedSize) b) 0).take
        c.layout.encodedSize = c.encoded P 0 := by
      have hsame := hburst.readAt_eq (s := headerSize) (n := c.layout.encodedSize) (Or.inl le_rfl)
      have hcut := congrArg (List.take c.layout.encodedSize) hfirst
      rw [slotAt, take_slice, Nat.zero_mul, Nat.add_zero, Nat.min_eq_left (by omega)] at hcut ⊢
      rw [Contents.slot, List.take_left' he] at hcut
      exact hsame.trans hcut
    have hchanged := congrArg (·[0]?) htag
    rw [show c.header.layout = c.layout from rfl, htake, List.getElem?_drop, slotAt,
      slice_getElem? _ (by omega), Nat.zero_mul, Nat.add_zero, Nat.add_zero,
      List.getElem?_set_self (by omega)] at hchanged
    exact hb hchanged

/-- The plain hash function gives other bytes. -/
theorem Contents.tag_plain_ne (c : Contents) : (c.tag .plain 0)[0]? ≠ some 0 := by
  have htag : (c.tag .plain 0)[0]? = some 11 := rfl
  rw [htag]
  decide

/-- Two blocks, and one changed byte in the tag of the first slot. -/
theorem burst_recovered_small : ∃ w C D r t,
    StreamWriter.create .plain never .plain [] {} .small 1 0 = .ok w ∧
    written .plain w [List.replicate 500 7] = some C ∧ D ≠ C ∧
    Burst C D (headerSize + StreamLayout.small.encodedSize) 1 ∧
    StreamReader.create .plain D (some []) = .ok r ∧
    exec (r.chunks .plain false) (r.start []) = (.ok (), t) ∧
    t.out.flatten = List.replicate 500 7 := by
  obtain ⟨w, hcreate, hlayout, hblocks, hwritten⟩ := exists_small .plain
    [List.replicate 500 7] 2
    (by rw [List.flatten_singleton, List.length_replicate]; rfl) (by decide)
  set c := contentsOf w [List.replicate 500 7]
  have hne := set_tag_ne c.tag_plain_ne
  have hlen : 1 ≤ StreamLayout.small.burstTolerance c.blocks := by
    rw [hblocks]
    decide
  have hburst := burst_set (c.bytes .plain) (headerSize + c.layout.encodedSize) 0
  have hdetected := detected_set c.tag_plain_ne
  obtain ⟨r, t, h1, h2, h3⟩ :=
    burst_recovered Primitives.plain_opens hcreate hwritten hburst hlen hdetected false
  rw [hlayout] at hburst hne h1
  exact ⟨w, c.bytes .plain, (c.bytes .plain).set (headerSize + StreamLayout.small.encodedSize) 0,
    r, t, hcreate, hwritten, hne, hburst, h1, h2, by rw [h3, List.flatten_singleton]⟩

end Dbs

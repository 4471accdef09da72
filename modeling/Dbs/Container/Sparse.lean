/-
  File:      Dbs/Container/Sparse.lean
  Subject:   SPARSE DAMAGE IN BOTH COPIES OF A BLOCK: when the reader rebuilds it.

  Every codeword of the block is near in one of its copies, and one copy has kept its tag. The reader
  takes each codeword from the first copy that is a codeword, else from the first that decodes; it
  looks at the tag only once, when all are chosen.

  * `handOn`, `ends_pass_handOn` -- a pass hands on every block once and in order, as its `outcome`;
  * `ciphertext_decides` -- of the blocks a reader accepts only the written one has its ciphertext;
  * `SparselyDamaged`, `TakesWritten` -- the damage, and that what is taken is what was written;
    `outcome_iff` -- the block comes back exactly then;
  * `sparse_recovered_iff` -- for every block of a pass over a container that opens.
-/
import Dbs.Container.Damage

namespace Dbs

open Octets Effects Struct ReedSolomon

variable {P : Primitives} {c : Contents}

/-! ## 1. What a pass hands on -/

/-- The consumer that keeps what it is handed. -/
def handOn (index : Nat) (block : Option Block) : Reading (List (Nat × Option Block)) Unit :=
  modify fun s => { s with out := s.out ++ [(index, block)] }

/-- The first `n` blocks are handed on as their outcomes, and their tags are in the digest. -/
def HandedOn (P : Primitives) (r : StreamReader) (n : Nat) (_ : StreamRepairReport)
    (digest : List Bytes) (out : List (Nat × Option Block)) : Prop :=
  out = ((List.range n).map fun i => (i, r.outcome P i)) ∧
    digest = (List.range n).flatMap fun i => ((r.outcome P i).map (·.tag)).toList

theorem carries_handOn (r : StreamReader) (checkSpares : Bool) (fail : Raised → Pass _ → Prop) :
    r.Carries P checkSpares handOn (HandedOn P r) fail := by
  refine ⟨fun _ _ _ _ _ _ _ h => h, fun _ _ _ _ _ _ _ h => h, fun s _ h => ?_⟩
  obtain ⟨hout, hdigest⟩ := h
  rw [StreamReader.deliver, exec_bind_ok (exec_modify _ _), handOn, exec_modify]
  refine ⟨⟨_, _, _, rfl⟩, ?_, ?_⟩
  · show s.out ++ [(s.nextIndex, r.outcome P s.nextIndex)] = _
    rw [hout, List.range_succ, List.map_append]
    rfl
  · show s.digest ++ ((r.outcome P s.nextIndex).map (·.tag)).toList = _
    rw [hdigest, List.range_succ, List.flatMap_append, List.flatMap_singleton]

/-- **Every block is handed on once, in order, as its outcome.** -/
theorem ends_pass_handOn (r : StreamReader) (checkSpares : Bool) :
    Ends (fun _ t => t.out = (List.range r.blocks).map fun i => (i, r.outcome P i))
      (fun _ _ => False) (exec (r.pass P checkSpares handOn) (r.start [])) := by
  refine (StreamReader.ends_pass (carries_handOn r checkSpares _) ⟨rfl, rfl⟩).mono ?_ fun _ _ h => h
  rintro _ t ⟨_, h, -⟩
  exact h.1

/-! ## 2. The written block is the only one with its ciphertext -/

namespace Contents

variable {D : Bytes} {trailer : Option StreamTrailer} {damaged : List String}

/-- What the reader's checks of a block say. -/
theorem chunkLen_some {data : Bytes} {i n : Nat}
    (h : (c.reader P D trailer damaged).chunkLen data i = some n) :
    data.length = c.layout.blockSize ∧
      packDescriptor i n (c.flagOf i) = pack descriptor (fields descriptor data) ∧
      slice data 13 3 = zeros 3 ∧ n ≤ c.layout.maxChunkLen ∧
      data.drop (descriptorSize + n) = zeros (c.layout.blockSize - (descriptorSize + n)) := by
  rw [StreamReader.chunkLen] at h
  cases hf : fields descriptor data with
  | mk found rest =>
    obtain ⟨len, flags, ⟨⟩⟩ := rest
    simp only [hf, Option.ite_none_left_eq_some, not_or, not_not] at h
    obtain ⟨hl, ⟨rfl, hflags⟩, hpad, hrest⟩ := h
    have hflag : flags = c.flagOf found := hflags
    subst hflag
    by_cases hlast : (found + 1 == c.blocks) = true
    · simp only [reader_blocks, hlast, Bool.not_true, Bool.false_eq_true, if_false,
        Option.ite_none_left_eq_some, not_not, Option.some.injEq] at hrest
      obtain ⟨hbounds, -, hzero, rfl⟩ := hrest
      exact ⟨hl, rfl, hpad, hbounds.2, hzero⟩
    · -- a full block has no padding
      have hfull : (found + 1 == c.blocks) = false := by simpa using hlast
      simp only [reader_blocks, hfull, Bool.not_false, if_true, Option.ite_none_right_eq_some,
        Option.some.injEq] at hrest
      obtain ⟨hlen, rfl⟩ := hrest
      have hl' : data.length = c.layout.blockSize := hl
      have hlen' : len = c.layout.maxChunkLen := hlen
      refine ⟨hl', rfl, hpad, hlen'.le, ?_⟩
      have hb : c.layout.blockSize ≤ descriptorSize + len := by
        rw [hlen', StreamLayout.maxChunkLen]
        omega
      rw [List.drop_of_length_le (by omega), Nat.sub_eq_zero_of_le hb]
      rfl

/-- A block that is accepted, from its descriptor, its ciphertext and its padding. -/
theorem accepted_eq {data : Bytes} {i n : Nat}
    (h : (c.reader P D trailer damaged).chunkLen data i = some n) :
    data = packDescriptor i n (c.flagOf i) ++ (slice data descriptorSize n ++
      zeros (c.layout.blockSize - (descriptorSize + n))) := by
  obtain ⟨hl, hfields, hpad, hn, hzero⟩ := chunkLen_some h
  have hb := c.header.layout_valid.bounds
  have hsize : (data.take descriptorSize).length = size descriptor := by
    rw [List.length_take, hl]
    simp only [layout, descriptorSize]
    show min 16 _ = 16
    omega
  have hfront : fields descriptor (data.take descriptorSize) = fields descriptor data := by
    simp only [fields, descriptor, descriptorSize, List.drop_take, List.take_take]
    rfl
  have hclear : PadsClear descriptor (data.take descriptorSize) := by
    refine ⟨?_, trivial⟩
    show ((((data.take 16).drop 8).drop 4).drop 1).take 3 = zeros 3
    rw [← hpad]
    simp only [slice, List.drop_take, List.take_take, List.drop_drop]
    rfl
  have hpack := pack_fields hsize hclear
  rw [hfront, ← hfields] at hpack
  rw [hpack, ← hzero, slice, ← List.drop_drop, List.take_append_drop, List.take_append_drop]

/-- **Of the blocks a reader accepts only the written one has its ciphertext.** -/
theorem ciphertext_decides {data : Bytes} {i n : Nat}
    (h : (c.reader P D trailer damaged).chunkLen data i = some n)
    (hc : slice data descriptorSize n = c.ciphertext P i) : data = c.block P i := by
  obtain ⟨hl, -, -, hn, -⟩ := chunkLen_some h
  have hb := c.header.layout_valid.bounds
  have hlen : n = (c.ciphertext P i).length := by
    rw [← hc, slice_length, hl]
    rw [StreamLayout.maxChunkLen] at hn
    simp only [layout, descriptorSize] at *
    omega
  have hpos : (packDescriptor i n (c.flagOf i) ++ c.ciphertext P i).length =
      descriptorSize + n := by
    rw [List.length_append, packDescriptor_length, ← hlen]
  rw [accepted_eq h, hc, block_eq, descriptorValues, ← hpos, hlen]
  rfl

/-! ## 3. Sparse damage -/

/-- **What the damage leaves of the two slots of a block**: one of them still carries its tag, and every
    codeword is within `nsym / 2` errors of what was written in one of them; the other copy of that
    codeword may be anything. -/
structure SparselyDamaged (P : Primitives) (c : Contents) (i : Nat) (first second : Bytes) :
    Prop where
  first_length : first.length = c.layout.slotSize
  second_length : second.length = c.layout.slotSize
  tag : first.drop c.layout.encodedSize = c.tag P i ∨ second.drop c.layout.encodedSize = c.tag P i
  near : ∀ j < (Rs.messages c.layout.nsym (c.block P i)).length,
    hamming (Rs.codewordAt (first.take c.layout.encodedSize) j)
        (Rs.codewordAt (c.encoded P i) j) ≤ c.layout.nsym / 2 ∨
      hamming (Rs.codewordAt (second.take c.layout.encodedSize) j)
        (Rs.codewordAt (c.encoded P i) j) ≤ c.layout.nsym / 2

/-- The message bytes of a slot are those of block `i`. -/
def MessageKept (P : Primitives) (c : Contents) (i : Nat) (raw : Bytes) : Prop :=
  Rs.stripParity (raw.take c.layout.encodedSize) c.layout.nsym = some (c.block P i)

/-- **What is taken is what was written**: a slot that passes for intact has kept its message, and where
    none passes, no codeword misleads. -/
def TakesWritten (P : Primitives) (c : Contents) (r : StreamReader) (i : Nat) : Prop :=
  if (r.clean P (r.copyAt (i, true)) i).isSome then c.MessageKept P i (r.copyAt (i, true))
  else if (r.clean P (r.copyAt (i, false)) i).isSome then c.MessageKept P i (r.copyAt (i, false))
  else ∀ j < (Rs.messages c.layout.nsym (c.block P i)).length,
    ¬ Rs.Misleads c.layout.nsym (Rs.messageAt c.layout.nsym (c.block P i) j)
      (Rs.codewordAt ((r.copyAt (i, true)).take c.layout.encodedSize) j)
      (Rs.codewordAt ((r.copyAt (i, false)).take c.layout.encodedSize) j)

/-- The reader resolves block `i` to its exact ciphertext. -/
def Recovers (P : Primitives) (c : Contents) (i : Nat) (block : Option Block) : Prop :=
  block.map StreamReader.ciphertextOf = some (c.ciphertext P i)

variable {i : Nat}

/-- An accepted block recovers the ciphertext exactly when it is the one that was written. -/
theorem recovers_iff (ht : c.KnownTrailer P trailer) (hb : c.blocks ≤ maxBlocks)
    (hi : i < c.blocks) {data tag : Bytes} {n : Nat}
    (h : (c.reader P D trailer damaged).chunkLen data i = some n) :
    c.Recovers P i (some ⟨data, n, tag⟩) ↔ data = c.block P i := by
  rw [Recovers, Option.map_some, Option.some.injEq]
  constructor
  · exact ciphertext_decides h
  · rintro rfl
    rw [chunkLen_block ht hi hb, Option.some.injEq] at h
    subst h
    exact ciphertextOf_resolvedBlock i

/-- A slot that passes for intact gives its message bytes. -/
theorem clean_some {raw : Bytes} {block : Block}
    (h : (c.reader P D trailer damaged).clean P raw i = some block) :
    Rs.stripParity (raw.take c.layout.encodedSize) c.layout.nsym = some block.data ∧
      (c.reader P D trailer damaged).chunkLen block.data i = some block.chunkLen := by
  rw [StreamReader.clean] at h
  simp only [Option.ite_none_left_eq_some] at h
  obtain ⟨-, -, h⟩ := h
  cases hs : Rs.stripParity (raw.take (c.reader P D trailer damaged).layout.encodedSize)
      (c.reader P D trailer damaged).layout.nsym with
  | none => rw [hs] at h; cases h
  | some data =>
    rw [hs] at h
    cases hn : (c.reader P D trailer damaged).chunkLen data i with
    | none => simp only [hn] at h; cases h
    | some n =>
      simp only [hn, Option.some.injEq] at h
      subst h
      exact ⟨hs, hn⟩

/-- A slot with another tag does not pass for intact. -/
theorem clean_of_tag_ne {raw : Bytes} (h : slotTag P c.header.containerId
    (raw.take c.layout.encodedSize) ≠ raw.drop c.layout.encodedSize) :
    (c.reader P D trailer damaged).clean P raw i = none := by
  rw [StreamReader.clean]
  split
  · rfl
  · exact if_pos h

theorem recovers_clean (ht : c.KnownTrailer P trailer) (hb : c.blocks ≤ maxBlocks)
    (hi : i < c.blocks) {raw : Bytes} {block : Block}
    (h : (c.reader P D trailer damaged).clean P raw i = some block) :
    c.Recovers P i (some block) ↔ c.MessageKept P i raw := by
  obtain ⟨hs, hn⟩ := clean_some h
  rw [recovers_iff ht hb hi hn, MessageKept, hs, Option.some.injEq]

/-- The written slot's parts. -/
theorem SparselyDamaged.toNear {first second : Bytes} (h : c.SparselyDamaged P i first second) :
    Rs.Near c.layout.nsym (c.block P i) (first.take c.layout.encodedSize)
      (second.take c.layout.encodedSize) := by
  have he : (c.encoded P i).length = c.layout.encodedSize := c.encoded_length P i
  have hlen : ∀ raw : Bytes, raw.length = c.layout.slotSize →
      (raw.take c.layout.encodedSize).length = (Rs.encode (c.block P i) c.layout.nsym).length := by
    intro raw hraw
    rw [← show c.encoded P i = Rs.encode (c.block P i) c.layout.nsym from rfl, he, List.length_take,
      hraw, StreamLayout.slotSize]
    omega
  exact ⟨hlen first h.first_length, hlen second h.second_length, h.near⟩

/-- **A block rebuilt from two sparsely damaged slots** is the written one exactly when no codeword
    misleads. -/
theorem recovers_repair (hcodec : P.codec.BoundedDistance) (ht : c.KnownTrailer P trailer)
    (hb : c.blocks ≤ maxBlocks) (hi : i < c.blocks) {first second : Bytes}
    (h : c.SparselyDamaged P i first second)
    (hno : (c.reader P D trailer damaged).clean P second i = none) (report : StreamRepairReport) :
    c.Recovers P i ((c.reader P D trailer damaged).repair P report i (some first) (some second)).1 ↔
      ∀ j < (Rs.messages c.layout.nsym (c.block P i)).length,
        ¬ Rs.Misleads c.layout.nsym (Rs.messageAt c.layout.nsym (c.block P i) j)
          (Rs.codewordAt (first.take c.layout.encodedSize) j)
          (Rs.codewordAt (second.take c.layout.encodedSize) j) := by
  obtain ⟨repaired, hdata, hiff⟩ := Rs.repairFromCopies_of_near hcodec
    c.header.layout_valid.nsym_lt h.toNear
  rw [show c.header.layout = c.layout from rfl] at hdata hiff
  rw [← hiff]
  have hbind : (some second).bind
      (fun raw => (c.reader P D trailer damaged).clean P raw i) = none := hno
  rw [StreamReader.repair]
  simp only [hbind, Option.toList_some, List.cons_append, List.nil_append, List.isEmpty_cons,
    Bool.false_eq_true, if_false, List.map_cons, List.map_nil, reader_layout, hdata]
  by_cases he : repaired = c.block P i
  · -- the written block is accepted, and its tag is there
    subst he
    refine iff_of_true ?_ rfl
    simp only [chunkLen_block ht hi hb]
    have htag : slotTag P (c.reader P D trailer damaged).header.containerId
        (Rs.encode (c.block P i) c.layout.nsym) ∈
          [first.drop c.layout.encodedSize, second.drop c.layout.encodedSize] := by
      show c.tag P i ∈ _
      rcases h.tag with ht | ht
      · rw [ht]
        exact List.mem_cons_self
      · rw [ht]
        exact List.mem_cons_of_mem _ List.mem_cons_self
    rw [if_pos htag]
    exact congrArg some (ciphertextOf_resolvedBlock i)
  · refine iff_of_false ?_ he
    cases hn : (c.reader P D trailer damaged).chunkLen repaired i with
    | none =>
      intro hr
      cases hr
    | some n =>
      have hne : ∀ tag, ¬ c.Recovers P i (some ⟨repaired, n, tag⟩) := fun tag hr =>
        he ((recovers_iff ht hb hi hn).mp hr)
      have hnone : ¬ c.Recovers P i none := fun h => by cases h
      simp only
      split
      · exact hne _
      · split
        · exact hnone
        · exact hne _

/-- **A sparsely damaged block comes back exactly when what is taken of it is what was written.** -/
theorem outcome_iff (hcodec : P.codec.BoundedDistance) (ht : c.KnownTrailer P trailer)
    (hb : c.blocks ≤ maxBlocks) {r : StreamReader} (hr : r = c.reader P D trailer damaged)
    (hi : i < c.blocks) (h : c.SparselyDamaged P i (r.copyAt (i, true)) (r.copyAt (i, false))) :
    c.Recovers P i (r.outcome P i) ↔ c.TakesWritten P r i := by
  subst hr
  have hwhole : ∀ copy, ((c.reader P D trailer damaged).copyAt copy).length = c.layout.slotSize →
      (c.reader P D trailer damaged).whole copy =
        some ((c.reader P D trailer damaged).copyAt copy) := by
    intro copy hl
    rw [StreamReader.whole, hl, reader_layout, if_pos (beq_self_eq_true _)]
  rw [StreamReader.outcome, StreamReader.intact, TakesWritten]
  cases h1 : (c.reader P D trailer damaged).clean P
      ((c.reader P D trailer damaged).copyAt (i, true)) i with
  | some block =>
    rw [Option.isSome_some, if_pos rfl]
    exact recovers_clean ht hb hi h1
  | none =>
    rw [Option.isSome_none, if_neg Bool.false_ne_true, hwhole _ h.first_length,
      hwhole _ h.second_length]
    cases h2 : (c.reader P D trailer damaged).clean P
        ((c.reader P D trailer damaged).copyAt (i, false)) i with
    | some block =>
      rw [Option.isSome_some, if_pos rfl, ← recovers_clean ht hb hi h2]
      have hbind : (some ((c.reader P D trailer damaged).copyAt (i, false))).bind
          (fun raw => (c.reader P D trailer damaged).clean P raw i) = some block := h2
      rw [StreamReader.repair]
      simp only [hbind]
    | none =>
      rw [Option.isSome_none, if_neg Bool.false_ne_true]
      exact recovers_repair hcodec ht hb hi h h2 _

end Contents

/-! ## 4. A container of one small block -/

section Slots

variable (P c)

/-- The container of one small block with two slots in place of its own. -/
def withSlots (first second : Bytes) : Bytes :=
  c.header.seal P ++ ((first ++ second) ++
    ((c.trailer P).seal P ++ ((c.trailer P).seal P ++ c.header.seal P)))

/-- The slot of block 0 with another byte at place `k` of its tag. -/
def retagged (k : Nat) : Bytes :=
  c.encoded P 0 ++ (c.tag P 0).set k ((c.tag P 0).getD k 0 + 1)

/-- The second slot with its byte 17 changed. -/
def nearSlot : Bytes := (c.slot P 0).set 17 ((c.slot P 0).getD 17 0 + 1)

variable {P c}

theorem octet_succ_ne (x : UInt8) : x + 1 ≠ x := by
  simp

theorem encoded_length_small (hl : c.layout = .small) : (c.encoded P 0).length = 518 := by
  rw [c.encoded_length, hl]
  decide

theorem nearSlot_length (hl : c.layout = .small) : (nearSlot P c).length = 534 := by
  rw [nearSlot, List.length_set, c.slot_length, hl]
  decide

theorem retagged_length (hl : c.layout = .small) (k : Nat) : (retagged P c k).length = 534 := by
  rw [retagged, List.length_append, List.length_set, c.tag_length, encoded_length_small hl]
  rfl

theorem take_retagged (k : Nat) : (retagged P c k).take c.layout.encodedSize = c.encoded P 0 :=
  List.take_left' (c.encoded_length P 0)

theorem drop_retagged (k : Nat) : (retagged P c k).drop c.layout.encodedSize =
    (c.tag P 0).set k ((c.tag P 0).getD k 0 + 1) :=
  List.drop_left' (c.encoded_length P 0)

theorem tag_set_getElem? {k : Nat} (hk : k < 16) :
    ((c.tag P 0).set k ((c.tag P 0).getD k 0 + 1))[k]? ≠ (c.tag P 0)[k]? := by
  have hlt : k < (c.tag P 0).length := by rw [c.tag_length]; exact hk
  rw [List.getElem?_set_self hlt, List.getD_eq_getElem _ _ hlt, List.getElem?_eq_getElem hlt, ne_eq,
    Option.some.injEq]
  exact octet_succ_ne _

/-- A changed tag is not the block's. -/
theorem drop_retagged_ne {k : Nat} (hk : k < 16) :
    (retagged P c k).drop c.layout.encodedSize ≠ c.tag P 0 := by
  rw [drop_retagged]
  intro h
  exact tag_set_getElem? (P := P) hk (congrArg (·[k]?) h)

/-- One changed byte of the encoded block is near in every codeword. -/
theorem hamming_slice_set_le (w : Bytes) (k s n : Nat) (b : UInt8) :
    hamming (slice (w.set k b) s n) (slice w s n) ≤ 1 := by
  rw [slice, slice, List.drop_set]
  split
  · rw [hamming_self]
    exact Nat.zero_le 1
  · rw [List.take_set]
    exact hamming_set_le _ _ _

variable {first second : Bytes} (hl : c.layout = .small) (h1 : first.length = 534)
  (h2 : second.length = 534)

include hl h1 h2

/-- The reader finds the two slots in their places. -/
theorem slotAt_withSlots : slotAt c.layout (withSlots P c first second) 0 = first ∧
    slotAt c.layout (withSlots P c first second) 1 = second := by
  have hs : c.layout.slotSize = 534 := by rw [hl]; decide
  have hh : (c.header.seal P).length = headerSize := c.header.seal_length P
  constructor
  · rw [slotAt, withSlots, slice_append_right _ _ _ (by omega), hh, hs, Nat.zero_mul, Nat.add_zero,
      Nat.sub_self, List.append_assoc, slice_append_left _ _ (by omega), slice_zero]
    exact List.take_of_length_le h1.le
  · rw [slotAt, withSlots, slice_append_right _ _ _ (by omega), hh, hs, Nat.one_mul,
      Nat.add_sub_cancel_left, List.append_assoc, slice_append_right _ _ _ h1.le, h1, Nat.sub_self,
      slice_append_left _ _ (by omega), slice_zero]
    exact List.take_of_length_le h2.le

/-- Only the slots differ from what was written. -/
theorem burst_withSlots (hblocks : c.blocks = 1) :
    Burst (c.bytes P) (withSlots P c first second) headerSize
    (2 * c.blocks * c.layout.slotSize) := by
  have hslots : (c.slots P).flatten.length = 2 * c.blocks * c.layout.slotSize :=
    c.flatten_slots_length P
  have hh : (c.header.seal P).length = headerSize := c.header.seal_length P
  have hbytes : c.bytes P = c.header.seal P ++ ((c.slots P).flatten ++
      ((c.trailer P).seal P ++ ((c.trailer P).seal P ++ c.header.seal P))) := by
    simp only [Contents.bytes, List.append_assoc]
  rw [hbytes, withSlots, ← hslots, ← hh]
  refine burst_append _ _ ?_
  have hs : c.layout.slotSize = 534 := by rw [hl]; decide
  rw [hslots, List.length_append, h1, h2, hblocks, hs]

/-- **The reader** of a container with two other slots. -/
theorem opened_withSlots (hblocks : c.blocks = 1) {passphrase : Bytes} (hkeyed : c.Keyed P passphrase) :
    ∃ trailer damaged, c.KnownTrailer P trailer ∧
      StreamReader.create P (withSlots P c first second) (some passphrase) =
        .ok (c.reader P (withSlots P c first second) trailer damaged) ∧
      (c.reader P (withSlots P c first second) trailer damaged).copyAt (0, true) = first ∧
      (c.reader P (withSlots P c first second) trailer damaged).copyAt (0, false) = second := by
  have hD : c.Survives P (withSlots P c first second) :=
    (burst_withSlots hl h1 h2 hblocks).survives (by rw [hblocks]; decide)
  obtain ⟨damaged, hheader⟩ := hD.header.locateHeader
  obtain ⟨trailer, damaged', ht, hend⟩ := hD.finish
  have hslots := slotAt_withSlots (P := P) hl h1 h2
  refine ⟨trailer, damaged ++ damaged', ht, create_eq hkeyed hheader hend, ?_, ?_⟩
  · refine Eq.trans ?_ hslots.1
    rw [StreamReader.copyAt, Contents.reader_layout, Contents.reader_blocks, hblocks, hl]
    rfl
  · refine Eq.trans ?_ hslots.2
    rw [StreamReader.copyAt, Contents.reader_layout, Contents.reader_blocks, hblocks, hl]
    rfl

end Slots

/-- **Sparse damage.** In a pass over a container that opens, a block whose slots are sparsely damaged
    is handed on once, and with its exact ciphertext exactly when what the reader takes of it is what
    was written. -/
theorem sparse_recovered_iff (hP : P.OpensWhatItSeals) (hcodec : P.codec.BoundedDistance)
    {drawn : Drawn} {passphrase : Bytes} {params : KDFParams} {layout : StreamLayout}
    {workers flags : Nat} {w : StreamWriter}
    (hcreate : StreamWriter.create P never drawn passphrase params layout workers flags = .ok w)
    {pieces : List Bytes} {D : Bytes} (hD : (contentsOf w pieces).Survives P D)
    (checkSpares : Bool) :
    ∃ r t, StreamReader.create P D (some passphrase) = .ok r ∧
      exec (r.pass P checkSpares handOn) (r.start []) = (.ok (), t) ∧
      t.out.map (·.1) = List.range (contentsOf w pieces).blocks ∧
      ∀ i < (contentsOf w pieces).blocks,
        (contentsOf w pieces).SparselyDamaged P i (r.copyAt (i, true)) (r.copyAt (i, false)) →
        ((∃ block, (i, block) ∈ t.out ∧ (contentsOf w pieces).Recovers P i block) ↔
          (contentsOf w pieces).TakesWritten P r i) := by
  set c := contentsOf w pieces
  obtain ⟨damaged, hheader⟩ := hD.header.locateHeader
  obtain ⟨trailer, damaged', ht, hend⟩ := hD.finish
  obtain ⟨u, t, he, hout⟩ := (ends_pass_handOn (P := P)
    (c.reader P D trailer (damaged ++ damaged')) checkSpares).returns fun _ _ h => h
  refine ⟨_, t, create_eq (keyed_of_create hP hcreate pieces) hheader hend, he, ?_, ?_⟩
  · rw [hout, List.map_map]
    exact List.map_id _
  · intro i hi hdamage
    rw [← Contents.outcome_iff hcodec ht hD.blocks_le rfl hi hdamage]
    constructor
    · rintro ⟨block, hmem, hrec⟩
      rw [hout] at hmem
      obtain ⟨j, -, hj⟩ := List.mem_map.mp hmem
      cases hj
      exact hrec
    · intro hrec
      refine ⟨_, ?_, hrec⟩
      rw [hout]
      exact List.mem_map_of_mem (List.mem_range.mpr hi)

/-- With one changed byte in a block the hash shows another sum. -/
theorem tag_near_ne (hl : c.layout = .small) : slotTag .plain c.header.containerId
    ((c.encoded .plain 0).set 17 ((c.slot .plain 0).getD 17 0 + 1)) ≠ c.tag .plain 0 := by
  have hlen := encoded_length_small (P := .plain) hl
  have hbyte : (c.slot .plain 0).getD 17 0 = (c.encoded .plain 0)[17] := by
    rw [Contents.slot, List.getD_append _ _ _ _ (by omega), List.getD_eq_getElem _ _ (by omega)]
  intro h
  have hsum : ((c.encoded .plain 0).set 17 ((c.slot .plain 0).getD 17 0 + 1)).sum =
      (c.encoded .plain 0).sum := by
    have h1 := congrArg (·[1]?) h
    exact Option.some.inj h1
  rw [List.sum_set', dif_pos (by omega), hbyte] at hsum
  have hone := add_left_cancel (hsum.trans (add_zero _).symm)
  rw [← add_assoc, neg_add_cancel, zero_add] at hone
  exact absurd hone (by decide)

/-- The second slot of a damaged block: its tag, and a block that has one other byte. -/
theorem nearSlot_eq (hl : c.layout = .small) : nearSlot P c =
    (c.encoded P 0).set 17 ((c.slot P 0).getD 17 0 + 1) ++ c.tag P 0 := by
  have hlen := encoded_length_small (P := P) hl
  rw [nearSlot, Contents.slot, List.set_append_left _ _ (by omega)]

/-- One byte is changed in each slot, in the tag of the first one and in the block of the second: the
    block comes back. -/
theorem sparse_recovered_small : ∃ w r t block,
    StreamWriter.create .plain never .plain [] {} .small 1 0 = .ok w ∧
    StreamReader.create .plain (withSlots .plain (contentsOf w [ascii "payload"])
      (retagged .plain (contentsOf w [ascii "payload"]) 0)
      (nearSlot .plain (contentsOf w [ascii "payload"]))) (some []) = .ok r ∧
    exec (r.pass .plain false handOn) (r.start []) = (.ok (), t) ∧ (0, block) ∈ t.out ∧
    (contentsOf w [ascii "payload"]).Recovers .plain 0 block := by
  obtain ⟨w, hcreate, hl, hblocks, -⟩ := exists_small .plain [ascii "payload"] 1
    (by decide) (by decide)
  set c := contentsOf w [ascii "payload"]
  have hfirst := retagged_length (P := .plain) hl 0
  have hsecond := nearSlot_length (P := .plain) hl
  have hD : c.Survives .plain (withSlots .plain c (retagged .plain c 0) (nearSlot .plain c)) :=
    (burst_withSlots hl hfirst hsecond hblocks).survives (by rw [hblocks]; decide)
  obtain ⟨r, t, hr, hpass, -, hout⟩ := sparse_recovered_iff Primitives.plain_opens
    Primitives.plain_boundedDistance hcreate hD false
  obtain ⟨trailer, damaged, -, hcreated, h1, h2⟩ := opened_withSlots hl hfirst hsecond hblocks
    (keyed_of_create Primitives.plain_opens hcreate [ascii "payload"])
  obtain rfl := Except.ok.inj (hcreated.symm.trans hr)
  have hpos : 0 < c.blocks := c.blocks_pos
  have hnear : (nearSlot .plain c).take c.layout.encodedSize =
      (c.encoded .plain 0).set 17 ((c.slot .plain 0).getD 17 0 + 1) := by
    rw [nearSlot_eq hl]
    exact List.take_left' (by rw [List.length_set, c.encoded_length])
  have htag : (nearSlot .plain c).drop c.layout.encodedSize = c.tag .plain 0 := by
    rw [nearSlot_eq hl]
    exact List.drop_left' (by rw [List.length_set, c.encoded_length])
  have hdamage : c.SparselyDamaged .plain 0 (retagged .plain c 0) (nearSlot .plain c) := by
    have hs : c.layout.slotSize = 534 := by rw [hl]; rfl
    refine ⟨hfirst.trans hs.symm, hsecond.trans hs.symm, Or.inr htag, fun j _ => Or.inl ?_⟩
    · rw [take_retagged, hamming_self]
      exact Nat.zero_le _
  let r := c.reader .plain (withSlots .plain c (retagged .plain c 0) (nearSlot .plain c)) trailer damaged
  have hkept : c.TakesWritten .plain r 0 := by
    have hno1 : r.clean .plain (retagged .plain c 0) 0 = none :=
      Contents.clean_of_tag_ne (by rw [take_retagged]; exact (drop_retagged_ne (by decide)).symm)
    have hno2 : r.clean .plain (nearSlot .plain c) 0 = none :=
      Contents.clean_of_tag_ne (by rw [hnear, htag]; exact tag_near_ne hl)
    rw [Contents.TakesWritten, h1, h2, hno1, hno2]
    intro j hj
    have hword : Rs.codewordAt ((retagged .plain c 0).take c.layout.encodedSize) j =
        Rs.codeword c.layout.nsym (Rs.messageAt c.layout.nsym (c.block .plain 0) j) := by
      rw [take_retagged]
      exact Rs.codewordAt_encode c.header.layout_valid.nsym_lt hj
    have hconsistent : Rs.consistent c.layout.nsym (Rs.codeword c.layout.nsym
        (Rs.messageAt c.layout.nsym (c.block .plain 0) j)) = true :=
      Rs.consistent_codeword (slice_length_le _ _ _)
    rw [hword, Rs.Misleads, if_pos hconsistent]
    exact not_not.mpr rfl
  obtain ⟨block, hmem, hrec⟩ := (hout 0 hpos (by rw [h1, h2]; exact hdamage)).mpr hkept
  exact ⟨w, _, t, block, hcreate, hr, hpass, hmem, hrec⟩

/-! ## 5. A codeword of another message -/

section Misled

variable (P c)

/-- The first message of block 0 with its byte 16 changed. -/
def alteredMessage : Bytes :=
  (Rs.messageAt 2 (c.block P 0) 0).set 16 ((Rs.messageAt 2 (c.block P 0) 0).getD 16 0 + 1)

/-- The first slot with the codeword of the altered message in place of its first one. -/
def misleadingSlot : Bytes :=
  Rs.codeword 2 (alteredMessage P c) ++ ((c.encoded P 0).drop Rs.codewordSize ++ c.tag P 0)

/-- The container of one small block with these slots. -/
def misled : Bytes :=
  c.header.seal P ++ ((misleadingSlot P c ++ nearSlot P c) ++
    ((c.trailer P).seal P ++ ((c.trailer P).seal P ++ c.header.seal P)))

variable {P c}

section

variable (hl : c.layout = .small)

include hl

theorem messageAt_length : (Rs.messageAt 2 (c.block P 0) 0).length = 253 := by
  rw [Rs.messageAt, slice_length, c.block_length, hl]
  decide

theorem alteredMessage_length : (alteredMessage P c).length = 253 := by
  rw [alteredMessage, List.length_set, messageAt_length hl]

theorem alteredMessage_ne : alteredMessage P c ≠ Rs.messageAt 2 (c.block P 0) 0 := by
  intro he
  have h16 : 16 < (Rs.messageAt 2 (c.block P 0) 0).length := by rw [messageAt_length hl]; decide
  have hg := congrArg (·[16]?) he
  simp only [alteredMessage] at hg
  rw [List.getElem?_set_self h16, List.getD_eq_getElem _ _ h16, List.getElem?_eq_getElem h16,
    Option.some.injEq] at hg
  exact absurd hg (octet_succ_ne _)

theorem codeword_altered_length : (Rs.codeword 2 (alteredMessage P c)).length = 255 := by
  have h := alteredMessage_length (P := P) hl
  rw [Rs.codeword_length (by rw [h]; decide), h]

theorem misleadingSlot_length : (misleadingSlot P c).length = 534 := by
  rw [misleadingSlot, List.length_append, List.length_append, List.length_drop,
    codeword_altered_length hl, encoded_length_small hl, c.tag_length]
  rfl

end

/-- A slot that has kept its message has kept that of every codeword. -/
theorem Contents.MessageKept.messageOf {raw : Bytes} (h : c.MessageKept P 0 raw)
    (hl : c.layout = .small) (hraw : raw.length = 534) :
    Rs.messageOf 2 (Rs.codewordAt (raw.take 518) 0) = Rs.messageAt 2 (c.block P 0) 0 := by
  have hlen : (raw.take 518).length = 518 := by rw [List.length_take, hraw]; rfl
  have hstrip := Rs.slice_stripParity (by decide : 2 < Rs.codewordSize) (raw.take 518)
    (by rw [hlen]; decide) 0 (by rw [hlen]; decide)
  have hkept : Rs.stripParity (raw.take 518) 2 = some (c.block P 0) := by
    have he : c.layout.encodedSize = 518 := by rw [hl]; decide
    rw [Contents.MessageKept, he, hl] at h
    exact h
  rw [← hstrip, hkept]
  rfl

theorem sparselyDamaged_misled (hl : c.layout = .small) :
    c.SparselyDamaged P 0 (misleadingSlot P c) (nearSlot P c) := by
  have hs : c.layout.slotSize = 534 := by rw [hl]; decide
  have he : c.layout.encodedSize = 518 := by rw [hl]; decide
  have hlen := encoded_length_small (P := P) hl
  refine ⟨by rw [hs, misleadingSlot_length hl], by rw [hs, nearSlot_length hl], Or.inr ?_,
    fun j _ => Or.inr ?_⟩
  · rw [he, nearSlot, List.drop_set, if_pos (by decide)]
    exact List.drop_left' hlen
  · have htake : (nearSlot P c).take 518 =
        (c.encoded P 0).set 17 ((c.slot P 0).getD 17 0 + 1) := by
      have hslot : (c.slot P 0).take 518 = c.encoded P 0 := List.take_left' hlen
      rw [nearSlot, List.take_set, hslot]
    rw [he, htake, show c.layout.nsym / 2 = 1 by rw [hl]; rfl]
    exact hamming_slice_set_le _ _ _ _ _

theorem slot_getElem? (hl : c.layout = .small) :
    (Rs.messageAt 2 (c.block P 0) 0)[17]? = (c.slot P 0)[17]? := by
  have hlen := encoded_length_small (P := P) hl
  have hword := c.encoded_take P 0
  have hm : (c.block P 0).take (Rs.messageLength c.layout.nsym) = Rs.messageAt 2 (c.block P 0) 0 := by
    rw [hl]
    rfl
  rw [hm, hl] at hword
  have hg := congrArg (·[17]?) hword
  rw [List.getElem?_take_of_lt (by decide), Rs.codeword,
    List.getElem?_append_left (by rw [messageAt_length hl]; decide)] at hg
  rw [Contents.slot, List.getElem?_append_left (by omega), hg]

/-- **The reader takes the wrong message.** The first slot's first codeword is consistent, and belongs
    to another message; whichever of the two slots passes for intact has lost its message, too. -/
theorem not_takesWritten_misled (hl : c.layout = .small) {r : StreamReader}
    (h1 : r.copyAt (0, true) = misleadingSlot P c) (h2 : r.copyAt (0, false) = nearSlot P c) :
    ¬ c.TakesWritten P r 0 := by
  have he : c.layout.encodedSize = 518 := by rw [hl]; decide
  have hn : c.layout.nsym = 2 := by rw [hl]; rfl
  have hm := messageAt_length (P := P) hl
  have hword : Rs.codewordAt ((misleadingSlot P c).take 518) 0 =
      Rs.codeword 2 (alteredMessage P c) := by
    rw [Rs.codewordAt, Nat.zero_mul, slice_zero, List.take_take]
    exact List.take_left' (codeword_altered_length hl)
  have hmle : (alteredMessage P c).length ≤ Rs.messageLength 2 := by
    rw [alteredMessage_length hl]
    decide
  rw [Contents.TakesWritten, h1, h2]
  split
  · intro hkept
    have h := hkept.messageOf hl (misleadingSlot_length hl)
    rw [hword, Rs.messageOf_codeword hmle] at h
    exact alteredMessage_ne hl h
  · split
    · intro hkept
      have h := congrArg (·[17]?) (hkept.messageOf hl (nearSlot_length hl))
      have hlen := nearSlot_length (P := P) hl
      rw [nearSlot, List.length_set] at hlen
      have h17 : 17 < (c.slot P 0).length := by omega
      have hold : (Rs.messageAt 2 (c.block P 0) 0)[17]? = (c.slot P 0)[17]? := slot_getElem? hl
      rw [Rs.messageOf, Rs.codewordAt, slice_length, List.length_take, nearSlot, List.length_set, hlen,
        List.getElem?_take_of_lt (by decide), slice_getElem? _ (by decide),
        List.getElem?_take_of_lt (by decide), Nat.zero_mul, Nat.zero_add,
        List.getElem?_set_self h17, hold,
        List.getElem?_eq_getElem h17, List.getD_eq_getElem _ _ h17, Option.some.injEq] at h
      exact absurd h (octet_succ_ne _)
    · intro hno
      have hcount : 0 < (Rs.messages c.layout.nsym (c.block P 0)).length := by
        rw [Rs.messages, pieces, List.length_map, List.length_range, c.block_length, hl]
        decide
      refine hno 0 hcount ?_
      rw [he, hn, hword, Rs.Misleads, if_pos (Rs.consistent_codeword hmle)]
      intro hsame
      exact alteredMessage_ne hl (Rs.codeword_inj
        (by rw [alteredMessage_length hl, messageAt_length hl]) hsame)

end Misled

/-- **Three changed bytes against one.** A container of one small block whose first slot holds the
    codeword of another message, and whose second slot differs in one byte: both tags are intact, every
    codeword is near in the second slot, and the block does not come back. -/
theorem sparse_not_recovered : ∃ w D r t,
    StreamWriter.create .plain never .plain [] {} .small 1 0 = .ok w ∧
    written .plain w [ascii "payload"] = some ((contentsOf w [ascii "payload"]).bytes .plain) ∧
    D = misled .plain (contentsOf w [ascii "payload"]) ∧
    StreamReader.create .plain D (some []) = .ok r ∧
    exec (r.pass .plain false handOn) (r.start []) = (.ok (), t) ∧
    (contentsOf w [ascii "payload"]).SparselyDamaged .plain 0 (r.copyAt (0, true))
      (r.copyAt (0, false)) ∧
    ¬ ∃ block, (0, block) ∈ t.out ∧ (contentsOf w [ascii "payload"]).Recovers .plain 0 block := by
  obtain ⟨w, hcreate, hl, hblocks, hwritten⟩ := exists_small .plain [ascii "payload"] 1
    (by decide) (by decide)
  set c := contentsOf w [ascii "payload"]
  have hb : c.blocks ≤ maxBlocks := by rw [hblocks]; decide
  obtain ⟨trailer, damaged, ht, hcreated, h1, h2⟩ :=
    opened_withSlots hl (misleadingSlot_length (P := .plain) hl)
    (nearSlot_length (P := .plain) hl) hblocks
    (keyed_of_create Primitives.plain_opens hcreate [ascii "payload"])
  set r := c.reader .plain (withSlots .plain c (misleadingSlot .plain c) (nearSlot .plain c)) trailer
    damaged with hr
  obtain ⟨u, t, he, hout⟩ := (ends_pass_handOn (P := .plain) r false).returns fun _ _ h => h
  have hdamage : c.SparselyDamaged .plain 0 (r.copyAt (0, true)) (r.copyAt (0, false)) := by
    rw [h1, h2]
    exact sparselyDamaged_misled hl
  refine ⟨w, _, r, t, hcreate, hwritten, rfl, hcreated, he, hdamage, ?_⟩
  rintro ⟨block, hmem, hrec⟩
  rw [hout] at hmem
  obtain ⟨j, -, hj⟩ := List.mem_map.mp hmem
  cases hj
  rw [Contents.outcome_iff Primitives.plain_boundedDistance ht hb hr (by omega) hdamage] at hrec
  exact not_takesWritten_misled hl h1 h2 hrec

end Dbs

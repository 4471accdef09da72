/-
  File:      Dbs/Container/Contents.lean
  Subject:   WHAT A CONTAINER IS, from its header, its data key and its payload alone: the chunks, the
             slot of every block, and the bytes of the whole file.

  The writer reaches these bytes through buffers, batches and a window; the reader starts from them.
  `Contents` is what the two have in common.

  * `chunksOf` -- the payload cut into chunks; the last one may be short, and is there even when the
    payload is empty;
  * `Contents.slot`, `trailer`, `bytes`; `bytes_length` -- the file's length;
  * `slotAt` -- the slot a reader finds at a position; `slotAt_bytes` -- of an intact file it is the
    slot of the block whose copy lies there.
-/
import Dbs.Container.Writer

namespace Dbs

open Octets

/-! ## 1. Chunks -/

/-- Full chunks and the rest; an empty payload is one empty chunk. -/
def chunksOf (capacity : Nat) (payload : Bytes) : List Bytes :=
  if payload = [] then [[]] else pieces capacity payload

section Chunks

variable {capacity : Nat}

section

variable (hc : 0 < capacity)

include hc

theorem chunksOf_length (payload : Bytes) :
    (chunksOf capacity payload).length = max 1 ((payload.length + capacity - 1) / capacity) := by
  unfold chunksOf
  split
  · rename_i h
    rw [h, List.length_nil, Nat.zero_add, Nat.div_eq_of_lt (by omega)]
    rfl
  · rename_i h
    have hl := List.length_pos_iff.mpr h
    have : 0 < (payload.length + capacity - 1) / capacity := Nat.div_pos (by omega) hc
    rw [pieces, List.length_map, List.length_range]
    omega

theorem chunksOf_pos (payload : Bytes) : 0 < (chunksOf capacity payload).length := by
  rw [chunksOf_length hc]; omega

theorem chunksOf_flatten (payload : Bytes) : (chunksOf capacity payload).flatten = payload := by
  unfold chunksOf
  split
  · rename_i h; rw [h]; rfl
  · exact pieces_flatten hc payload

theorem chunksOf_length_le (payload : Bytes) :
    ∀ c ∈ chunksOf capacity payload, c.length ≤ capacity := by
  unfold chunksOf
  split
  · simp
  · exact (cut_pieces hc payload).length_le

theorem chunksOf_full (payload : Bytes) {i : Nat}
    (hi : i + 1 < (chunksOf capacity payload).length) :
    ((chunksOf capacity payload).getD i []).length = capacity := by
  unfold chunksOf at hi ⊢
  split at hi
  · simp at hi
  · rename_i h
    rw [if_neg h]
    exact (cut_pieces hc payload).length_eq hi

end

end Chunks

theorem StreamLayout.Valid.capacity_pos {L : StreamLayout} (h : L.Valid) : 0 < L.chunkCapacity := by
  have := h.bounds
  unfold StreamLayout.chunkCapacity chunkOverhead descriptorSize tagLength
  omega

/-! ## 2. The container -/

/-- What a container was written from. -/
structure Contents where
  header : StreamHeader
  dataKey : Bytes
  payload : Bytes

namespace Contents

variable (P : Primitives) (c : Contents)

/-- The writer's layout. -/
def layout : StreamLayout := c.header.layout

/-- The payload, cut for the blocks. -/
def chunks : List Bytes := chunksOf c.layout.chunkCapacity c.payload

/-- One for each chunk. -/
def blocks : Nat := c.chunks.length

/-- The plaintext of a block. -/
def chunk (i : Nat) : Bytes := c.chunks.getD i []

/-- The last block carries the final flag. -/
def final (i : Nat) : Bool := i + 1 == c.blocks

/-- What every chunk is sealed with. -/
def cipher : ChunkCipher := ⟨c.dataKey, c.header.noncePrefix, c.header.seal P⟩

/-- A chunk, sealed. -/
def ciphertext (i : Nat) : Bytes := (c.cipher P).seal P i (c.chunk i) (c.final i)

/-- With its descriptor and padding. -/
def block (i : Nat) : Bytes := blockOf c.layout.blockSize i (c.ciphertext P i) (c.final i)

/-- With its parity. -/
def encoded (i : Nat) : Bytes := Rs.encode (c.block P i) c.layout.nsym

/-- The tag behind it. -/
def tag (i : Nat) : Bytes := slotTag P c.header.containerId (c.encoded P i)

/-- What a copy of it stores. -/
def slot (i : Nat) : Bytes := c.encoded P i ++ c.tag P i

/-- What stands at the end, twice. -/
def trailer : StreamTrailer where
  containerId := c.header.containerId
  blocks := c.blocks
  plaintextBytes := c.payload.length
  finalChunkLen := (c.chunk (c.blocks - 1)).length + tagLength
  blocksDigest := blocksDigest P c.header.containerId ((List.range c.blocks).map (c.tag P))

/-- The slots in the order they are stored. -/
def slots : List Bytes := (copies c.blocks c.layout.interleave).map fun copy => c.slot P copy.1

/-- The container's bytes. -/
def bytes : Bytes :=
  c.header.seal P ++ (c.slots P).flatten ++ (c.trailer P).seal P ++ (c.trailer P).seal P ++
    c.header.seal P

variable {c}

theorem capacity_pos : 0 < c.layout.chunkCapacity := c.header.layout_valid.capacity_pos

theorem blocks_pos : 0 < c.blocks := chunksOf_pos capacity_pos _

theorem blocks_eq : c.blocks =
    max 1 ((c.payload.length + c.layout.chunkCapacity - 1) / c.layout.chunkCapacity) :=
  chunksOf_length capacity_pos _

theorem chunk_length_le (i : Nat) : (c.chunk i).length ≤ c.layout.chunkCapacity := by
  rcases Nat.lt_or_ge i c.chunks.length with h | h
  · rw [chunk, List.getD_eq_getElem _ _ h]
    exact chunksOf_length_le capacity_pos _ _ (List.getElem_mem h)
  · rw [chunk, List.getD_eq_default _ _ h]
    exact Nat.zero_le _

theorem chunk_full {i : Nat} (h : i + 1 < c.blocks) :
    (c.chunk i).length = c.layout.chunkCapacity := chunksOf_full capacity_pos _ h

theorem lt_blocks {n : Nat} (h : n * c.layout.chunkCapacity < c.payload.length) : n < c.blocks := by
  have hc := capacity_pos (c := c)
  have : n + 1 ≤ (c.payload.length + c.layout.chunkCapacity - 1) / c.layout.chunkCapacity := by
    rw [Nat.le_div_iff_mul_le hc, Nat.succ_mul]
    omega
  rw [blocks_eq]
  omega

/-- A number of full chunks with a last one behind them is one less than the number of blocks. -/
theorem blocks_of_bounds {n : Nat} (h1 : c.payload.length ≤ (n + 1) * c.layout.chunkCapacity)
    (h2 : 0 < n → n * c.layout.chunkCapacity < c.payload.length) : c.blocks = n + 1 := by
  have hc := capacity_pos (c := c)
  have hle : (c.payload.length + c.layout.chunkCapacity - 1) / c.layout.chunkCapacity ≤ n + 1 := by
    refine Nat.lt_succ_iff.mp ((Nat.div_lt_iff_lt_mul hc).mpr ?_)
    rw [Nat.succ_mul]
    omega
  have hge : n < c.blocks := by
    rcases Nat.eq_zero_or_pos n with rfl | hn
    · exact blocks_pos
    · exact lt_blocks (h2 hn)
  have hb := c.blocks_eq
  omega

theorem chunk_eq {i : Nat} (h : i < c.blocks) :
    c.chunk i = slice c.payload (i * c.layout.chunkCapacity) c.layout.chunkCapacity := by
  rw [chunk, chunks, chunksOf]
  split
  · rename_i hp
    rw [blocks, chunks, chunksOf, if_pos hp, List.length_singleton] at h
    obtain rfl : i = 0 := by omega
    rw [hp, slice_eq_nil _ (Nat.zero_le _)]
    rfl
  · rename_i hp
    rw [blocks, chunks, chunksOf, if_neg hp, pieces, List.length_map, List.length_range] at h
    rw [pieces, List.getD_eq_getElem?_getD, List.getElem?_map, List.getElem?_range h]
    rfl

/-- The chunks, joined in order, are the payload. -/
theorem flatten_chunks : ((List.range c.blocks).map c.chunk).flatten = c.payload := by
  have h : (List.range c.blocks).map c.chunk = c.chunks := by
    refine List.ext_getElem (by simp [blocks]) fun i h1 h2 => ?_
    rw [List.getElem_map, List.getElem_range, chunk, List.getD_eq_getElem _ _ h2]
  rw [h, chunks, chunksOf_flatten capacity_pos]

variable (c)

theorem ciphertext_length (i : Nat) : (c.ciphertext P i).length = (c.chunk i).length + tagLength :=
  ChunkCipher.seal_length P _ _ _ _

theorem packDescriptor_length (a b d : Nat) : (packDescriptor a b d).length = descriptorSize :=
  Struct.pack_length _ _

theorem block_length (i : Nat) : (c.block P i).length = c.layout.blockSize := by
  have h1 := c.ciphertext_length P i
  have h2 := c.chunk_length_le i
  have h3 := c.header.layout_valid.bounds
  have h4 := packDescriptor_length i (c.ciphertext P i).length
    (if c.final i then finalFlag else 0)
  simp only [StreamLayout.chunkCapacity, chunkOverhead, descriptorSize, tagLength, layout] at *
  rw [block, blockOf]
  simp only [List.length_append, zeros_length, h4, layout]
  omega

theorem encoded_length (i : Nat) : (c.encoded P i).length = c.layout.encodedSize := by
  have hn : c.layout.nsym < Rs.codewordSize := c.header.layout_valid.nsym_lt
  rw [encoded, Rs.encode_length hn, block_length]
  rfl

theorem tag_length (i : Nat) : (c.tag P i).length = slotTagSize := P.blake2b_length _ _ _ _

theorem slot_length (i : Nat) : (c.slot P i).length = c.layout.slotSize := by
  rw [slot, List.length_append, encoded_length, tag_length]
  rfl

theorem slots_length : (c.slots P).length = 2 * c.blocks := by
  rw [slots, List.length_map, copies_length]

theorem mem_slots_length : ∀ s ∈ c.slots P, s.length = c.layout.slotSize := by
  intro s hs
  obtain ⟨copy, -, rfl⟩ := List.mem_map.mp hs
  exact c.slot_length P copy.1

theorem flatten_slots_length : (c.slots P).flatten.length = 2 * c.blocks * c.layout.slotSize := by
  rw [flatten_length_of_eq (c.mem_slots_length P), slots_length]

theorem bytes_length : (c.bytes P).length = c.layout.containerSize c.blocks := by
  simp only [bytes, List.length_append, StreamHeader.seal_length, StreamTrailer.seal_length,
    flatten_slots_length, StreamLayout.containerSize]
  omega

/-- The headers and the trailers lie at the ends. -/
theorem bytes_front : slice (c.bytes P) 0 headerSize = c.header.seal P := by
  rw [bytes, slice_zero]
  simp only [List.append_assoc]
  exact List.take_left' (c.header.seal_length P)

theorem bytes_trailer {k : Nat} (hk : k < 2) :
    slice (c.bytes P) (headerSize + 2 * c.blocks * c.layout.slotSize + k * trailerSize)
      trailerSize = (c.trailer P).seal P := by
  have h1 : (c.header.seal P ++ (c.slots P).flatten).length =
      headerSize + 2 * c.blocks * c.layout.slotSize := by
    rw [List.length_append, c.header.seal_length, flatten_slots_length]
  have h2 : ((c.trailer P).seal P).length = trailerSize := (c.trailer P).seal_length P
  have hb : c.bytes P = (c.header.seal P ++ (c.slots P).flatten) ++ ((c.trailer P).seal P ++
      ((c.trailer P).seal P ++ c.header.seal P)) := by
    simp only [bytes, List.append_assoc]
  rw [hb, slice_append_right _ _ _ (by omega), h1, Nat.add_sub_cancel_left]
  obtain rfl | rfl : k = 0 ∨ k = 1 := by omega
  · rw [Nat.zero_mul, slice_zero]
    exact List.take_left' h2
  · rw [Nat.one_mul, slice_append_right _ _ _ h2.le, h2, Nat.sub_self, slice_zero]
    exact List.take_left' h2

theorem bytes_back :
    slice (c.bytes P) ((c.bytes P).length - headerSize) headerSize = c.header.seal P := by
  have hl : (c.header.seal P).length = headerSize := c.header.seal_length P
  have hb : c.bytes P = (c.header.seal P ++ (c.slots P).flatten ++ (c.trailer P).seal P ++
      (c.trailer P).seal P) ++ c.header.seal P := rfl
  have hn : (c.bytes P).length - headerSize = (c.header.seal P ++ (c.slots P).flatten ++
      (c.trailer P).seal P ++ (c.trailer P).seal P).length := by
    rw [hb, List.length_append, hl, Nat.add_sub_cancel]
  rw [hn, hb, slice_append_right _ _ _ le_rfl, Nat.sub_self, slice_zero]
  exact List.take_of_length_le hl.le

theorem trailer_fitting (h : c.blocks ≤ maxBlocks) : (c.trailer P).Fitting c.header := by
  have hpos := c.blocks_pos
  have hle := c.chunk_length_le (c.blocks - 1)
  have hb := c.header.layout_valid.bounds
  refine ⟨rfl, ⟨hpos, h⟩, ?_, ?_, P.blake2b_length _ _ _ _⟩
  · simp only [trailer, StreamLayout.maxChunkLen, StreamLayout.chunkCapacity, chunkOverhead,
      descriptorSize, tagLength, layout] at *
    omega
  · have hflat : c.payload.length =
        (c.blocks - 1) * c.layout.chunkCapacity + (c.chunk (c.blocks - 1)).length := by
      obtain ⟨n, hn⟩ : ∃ n, c.blocks = n + 1 := ⟨c.blocks - 1, by omega⟩
      have hfull : ∀ x ∈ (List.range n).map c.chunk, x.length = c.layout.chunkCapacity := by
        intro x hx
        obtain ⟨i, hi, rfl⟩ := List.mem_map.mp hx
        have := List.mem_range.mp hi
        exact c.chunk_full (by omega)
      conv_lhs => rw [← c.flatten_chunks]
      rw [hn, List.range_succ, List.map_append, List.flatten_append, List.length_append,
        flatten_length_of_eq hfull]
      simp
    show c.payload.length + tagLength = _
    rw [hflat]
    exact Nat.add_assoc _ _ _

end Contents

/-! ## 3. Slots by their position -/

/-- What a reader takes for the slot at a position: short where the file ends in it. -/
def slotAt (L : StreamLayout) (D : Bytes) (position : Nat) : Bytes :=
  slice D (headerSize + position * L.slotSize) L.slotSize

namespace Contents

variable (P : Primitives) (c : Contents)

/-- **At the position of a copy lies the slot of its block.** -/
theorem slotAt_bytes (copy : Nat × Bool) (h : copy.1 < c.blocks) :
    slotAt c.layout (c.bytes P) (copyPosition c.blocks c.layout.interleave copy) =
      c.slot P copy.1 := by
  set p := copyPosition c.blocks c.layout.interleave copy with hp
  have hg : (c.slots P)[p]? = some (c.slot P copy.1) := by
    rw [slots, List.getElem?_map, hp, copies_getElem? h]
    rfl
  have hlt : p < (c.slots P).length := by
    by_contra hge
    rw [List.getElem?_eq_none (by omega)] at hg
    cases hg
  have hend : (p + 1) * c.layout.slotSize ≤ (c.slots P).flatten.length := by
    rw [flatten_slots_length, ← slots_length]
    exact Nat.mul_le_mul_right _ hlt
  have hsum : p * c.layout.slotSize + c.layout.slotSize = (p + 1) * c.layout.slotSize := by ring
  have hl : (c.header.seal P).length = headerSize := c.header.seal_length P
  rw [slotAt, bytes, List.append_assoc, List.append_assoc, List.append_assoc,
    slice_append_right _ _ _ (by omega), hl, Nat.add_sub_cancel_left,
    slice_append_left _ _ (by omega)]
  exact flatten_slice (c.mem_slots_length P) hg

end Contents

end Dbs

/-
  File:      Dbs/Container/Layout.lean
  Subject:   WHERE THE SLOTS OF A CONTAINER LIE (container/stream.py): block sizes, the limits a layout
             is held to, and the interleaved schedule of the two copies of every block.

  * `layoutProblem` -- the limits; `StreamLayout` with the sizes derived from it;
  * `schedule` -- the order in which the copies are stored, step by step;
  * `schedule_eq` -- the slot of a copy from its index alone: `firstCopyPosition`,
    `secondCopyPosition`; `copies_apart` -- the two copies of a block are more than
    `burstTolerance` slots apart.
-/
import Dbs.Container.Rs

namespace Dbs

open Octets

/-! ## 1. Layouts -/

/-- The tag of AES-GCM. -/
def tagLength : Nat := 16

/-- What an index of four bytes tells apart. -/
def maxChunks : Nat := 2 ^ 32

/-- The smallest block. -/
def minBlockSize : Nat := 512

/-- The largest block. -/
def maxBlockSize : Nat := 16 * 1024 * 1024

/-- The fewest parity bytes. -/
def minNsym : Nat := 2

/-- The most parity bytes. -/
def maxNsym : Nat := 128

/-- The widest interleave. -/
def maxInterleave : Nat := 4096

/-- What an interleave may hold in memory. -/
def maxWindowBytes : Nat := 64 * 1024 * 1024

/-- The most blocks of a container. -/
def maxBlocks : Nat := maxChunks - 1

/-- Blocks encoded together. -/
def batchBlocks : Nat := 16

/-- Slots read together. -/
def readBatchSlots : Nat := 16

/-- Blocks of a batch of the scan. -/
def scanBatchBlocks : Nat := 256

/-- The tag behind a slot. -/
def slotTagSize : Nat := 16

/-- The size of `>QIB3x`, the descriptor in front of a block's ciphertext. -/
def descriptorSize : Nat := 16

/-- What a block holds beside plaintext. -/
def chunkOverhead : Nat := descriptorSize + tagLength

/-- What is wrong with a layout, if anything. (Values that are no integers are left out by type.) -/
def layoutProblem (blockSize nsym interleave : Nat) : Option String :=
  if ¬ (minBlockSize ≤ blockSize ∧ blockSize ≤ maxBlockSize) then
    some s!"block_size={blockSize} is outside [{minBlockSize}, {maxBlockSize}]."
  else if ¬ (minNsym ≤ nsym ∧ nsym ≤ maxNsym) then
    some s!"nsym={nsym} is outside [{minNsym}, {maxNsym}]."
  else if ¬ (1 ≤ interleave ∧ interleave ≤ maxInterleave) then
    some s!"interleave={interleave} is outside [1, {maxInterleave}]."
  else
    let window := interleave * (Rs.encodedLength blockSize nsym + slotTagSize)
    if window > maxWindowBytes then
      some (s!"interleave={interleave} with block_size={blockSize} needs a {window} byte " ++
        s!"window, above the {maxWindowBytes} byte limit.")
    else none

/-- How a container stores its blocks. -/
structure StreamLayout where
  blockSize : Nat
  nsym : Nat
  interleave : Nat

namespace StreamLayout

variable (L : StreamLayout)

/-- A block with its parity. -/
def encodedSize : Nat := Rs.encodedLength L.blockSize L.nsym

/-- And with its tag. -/
def slotSize : Nat := L.encodedSize + slotTagSize

/-- The plaintext of a full block. -/
def chunkCapacity : Nat := L.blockSize - chunkOverhead

/-- The ciphertext of a full block. -/
def maxChunkLen : Nat := L.blockSize - descriptorSize

/-- The longest run of damaged bytes that never reaches both copies of a block. -/
def burstTolerance (blocks : Nat) : Nat :=
  let distance := if L.interleave < blocks then L.interleave else blocks - 1
  distance * L.slotSize

/-- The layout is inside the limits: the writer refuses any other, and a header that names another
    one is refused by the reader. -/
structure Valid : Prop where
  problem : layoutProblem L.blockSize L.nsym L.interleave = none

theorem Valid.bounds {L : StreamLayout} (h : L.Valid) :
    512 ≤ L.blockSize ∧ L.blockSize ≤ 16777216 ∧ 2 ≤ L.nsym ∧ L.nsym ≤ 128 ∧
      1 ≤ L.interleave ∧ L.interleave ≤ 4096 := by
  have hp := h.problem
  unfold layoutProblem at hp
  split at hp
  · cases hp
  split at hp
  · cases hp
  split at hp
  · cases hp
  rename_i h1 h2 h3
  simp only [minBlockSize, maxBlockSize, minNsym, maxNsym, maxInterleave] at h1 h2 h3
  omega

theorem Valid.nsym_lt {L : StreamLayout} (h : L.Valid) : L.nsym < Rs.codewordSize := by
  have := h.bounds
  unfold Rs.codewordSize
  omega

theorem slotSize_pos : 0 < L.slotSize := by unfold slotSize slotTagSize; omega

/-- A slot is longer than the block in it. -/
theorem Valid.blockSize_lt_slotSize {L : StreamLayout} (h : L.Valid) : L.blockSize < L.slotSize := by
  have hn := h.nsym_lt
  have hm : Rs.messageLength L.nsym ≤ Rs.codewordSize := by unfold Rs.messageLength; omega
  have hd := Nat.div_add_mod L.blockSize (Rs.messageLength L.nsym)
  have hc : Rs.messageLength L.nsym * (L.blockSize / Rs.messageLength L.nsym) ≤
      L.blockSize / Rs.messageLength L.nsym * Rs.codewordSize := by
    rw [Nat.mul_comm]
    exact Nat.mul_le_mul_left _ hm
  unfold slotSize encodedSize Rs.encodedLength slotTagSize
  simp only
  split <;> omega

end StreamLayout

/-! ## 2. The schedule -/

/-- The slot of a first copy. -/
def firstCopyPosition (index interleave : Nat) : Nat :=
  if index < interleave then index else 2 * index - interleave

/-- What one step of the schedule stores: the first copy of its own block, while there is one, and
    the second copy of the block `interleave` steps before. -/
def scheduleStep (blocks interleave step : Nat) : List (Nat × Bool) :=
  (if step < blocks then [(step, true)] else []) ++
    if interleave ≤ step then [(step - interleave, false)] else []

/-- The copies in the order they are stored. -/
def copies (blocks interleave : Nat) : List (Nat × Bool) :=
  (List.range (blocks + interleave)).flatMap (scheduleStep blocks interleave)

/-- Position, block index and whether it is the first copy, for every slot in order. -/
def schedule (blocks interleave : Nat) : List (Nat × Nat × Bool) :=
  (copies blocks interleave).zipIdx.map
    fun ((index, firstCopy), position) => (position, index, firstCopy)

/-- The slot of a block's second copy: `index` second copies and every first copy up to that of
    block `index + interleave` come before it. -/
def secondCopyPosition (index blocks interleave : Nat) : Nat :=
  index + min (index + interleave + 1) blocks

/-- The slot of either copy. -/
def copyPosition (blocks interleave : Nat) (copy : Nat × Bool) : Nat :=
  if copy.2 then firstCopyPosition copy.1 interleave
  else secondCopyPosition copy.1 blocks interleave

theorem scheduleStep_length (blocks interleave step : Nat) :
    (scheduleStep blocks interleave step).length =
      (if step < blocks then 1 else 0) + if interleave ≤ step then 1 else 0 := by
  unfold scheduleStep
  split <;> split <;> rfl

/-- After `n` steps the first copies below `n` and the second copies below `n - interleave` are
    stored. -/
theorem steps_length (blocks interleave n : Nat) :
    ((List.range n).flatMap (scheduleStep blocks interleave)).length =
      min n blocks + (n - interleave) := by
  induction n with
  | zero => simp
  | succ n ih =>
    rw [List.range_succ, List.flatMap_append, List.length_append, ih, List.flatMap_singleton,
      scheduleStep_length]
    split <;> split <;> omega

theorem steps_zipIdx (blocks interleave n : Nat) :
    ((List.range n).flatMap (scheduleStep blocks interleave)).zipIdx =
      ((List.range n).flatMap (scheduleStep blocks interleave)).map
        fun copy => (copy, copyPosition blocks interleave copy) := by
  induction n with
  | zero => rfl
  | succ n ih =>
    rw [List.range_succ, List.flatMap_append, List.flatMap_singleton, List.zipIdx_append,
      List.map_append, ih, Nat.zero_add, steps_length]
    congr 1
    unfold scheduleStep
    by_cases h1 : n < blocks
    · have hp : min n blocks + (n - interleave) = firstCopyPosition n interleave := by
        unfold firstCopyPosition; split <;> omega
      by_cases h2 : interleave ≤ n
      · have hs : min n blocks + (n - interleave) + 1 =
            secondCopyPosition (n - interleave) blocks interleave := by
          unfold secondCopyPosition; omega
        simp [h1, h2, copyPosition, ← hp, ← hs]
      · simp [h1, h2, copyPosition, ← hp]
    · by_cases h2 : interleave ≤ n
      · have hs : min n blocks + (n - interleave) =
            secondCopyPosition (n - interleave) blocks interleave := by
          unfold secondCopyPosition; omega
        simp [h1, h2, copyPosition, ← hs]
      · simp [h1, h2]

/-- **Every copy lies where its index says.** -/
theorem schedule_eq (blocks interleave : Nat) : schedule blocks interleave =
    (copies blocks interleave).map fun copy => (copyPosition blocks interleave copy, copy) := by
  rw [schedule, copies, steps_zipIdx, List.map_map]
  rfl

theorem copies_length (blocks interleave : Nat) : (copies blocks interleave).length = 2 * blocks := by
  rw [copies, steps_length]
  omega

theorem mem_copies {blocks interleave index : Nat} {firstCopy : Bool} :
    (index, firstCopy) ∈ copies blocks interleave ↔ index < blocks := by
  simp only [copies, List.mem_flatMap, List.mem_range, scheduleStep, List.mem_append]
  constructor
  · rintro ⟨step, hs, h | h⟩
    · split at h <;> simp_all
    · split at h <;> simp_all
      omega
  · intro h
    cases firstCopy with
    | true => exact ⟨index, by omega, Or.inl (by simp [h])⟩
    | false => exact ⟨index + interleave, by omega, Or.inr (by simp)⟩

/-- Every copy lies at its position, and nowhere else. -/
theorem copies_getElem? {blocks interleave : Nat} {copy : Nat × Bool} (h : copy.1 < blocks) :
    (copies blocks interleave)[copyPosition blocks interleave copy]? = some copy := by
  have hm : copy ∈ copies blocks interleave := mem_copies.mpr h
  obtain ⟨p, hp, he⟩ := List.getElem_of_mem hm
  have hz : (copies blocks interleave).zipIdx[p]? = some (copy, p) := by
    rw [List.getElem?_zipIdx, List.getElem?_eq_getElem hp, he]
    simp
  rw [copies, steps_zipIdx, ← copies, List.getElem?_map, List.getElem?_eq_getElem hp, he] at hz
  have hpos : copyPosition blocks interleave copy = p := by simpa using hz
  rw [hpos, List.getElem?_eq_getElem hp, he]

theorem schedule_length (blocks interleave : Nat) :
    (schedule blocks interleave).length = 2 * blocks := by
  rw [schedule_eq, List.length_map, copies_length]

theorem firstCopyPosition_lt {index blocks interleave : Nat} (h : index < blocks) :
    firstCopyPosition index interleave < 2 * blocks := by
  unfold firstCopyPosition
  split <;> omega

/-- First copies are stored in the order of their blocks. -/
theorem firstCopyPosition_lt_of_lt {i j interleave : Nat} (h : i < j) :
    firstCopyPosition i interleave < firstCopyPosition j interleave := by
  unfold firstCopyPosition
  split <;> split <;> omega

/-- **The two copies of a block are further apart than any burst that is tolerated reaches.** -/
theorem copies_apart {index blocks interleave : Nat} (h : index < blocks) :
    firstCopyPosition index interleave + (if interleave < blocks then interleave else blocks - 1) <
      secondCopyPosition index blocks interleave := by
  unfold firstCopyPosition secondCopyPosition
  split <;> split <;> omega

end Dbs

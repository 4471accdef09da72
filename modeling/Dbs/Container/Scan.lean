/-
  File:      Dbs/Container/Scan.lean
  Subject:   THE SCAN FOR THE LAST BLOCK: without a trailer the reader walks over the positions of the
             first copies until a block carries the final flag.

  * `descriptorOf_block` -- the first codeword of a slot names the block's index and its flag;
  * `firstDescriptors_getElem?` -- it is read as it stands where the slots before it are intact;
  * `FirstCopies.scanBlockCount_eq` -- the scan stops at the last block, and not before.
-/
import Dbs.Container.Opened

namespace Dbs

open Octets Struct

/-! ## 1. Descriptors -/

namespace Contents

variable (P : Primitives) (c : Contents)

def flagOf (i : Nat) : Nat := if c.final i then finalFlag else 0

def descriptorValues (i : Nat) : Values descriptor :=
  (i, (c.ciphertext P i).length, c.flagOf i, ())

/-- A block in front of its padding. -/
theorem block_eq (i : Nat) : c.block P i = pack descriptor (c.descriptorValues P i) ++
    (c.ciphertext P i ++ zeros (c.layout.blockSize - (packDescriptor i (c.ciphertext P i).length
      (c.flagOf i) ++ c.ciphertext P i).length)) := by
  rw [← List.append_assoc]
  rfl

variable {c}

theorem ciphertext_length_lt (i : Nat) : (c.ciphertext P i).length < 256 ^ 4 := by
  have h1 := c.ciphertext_length P i
  have h2 := c.chunk_length_le i
  have h3 := c.header.layout_valid.bounds
  simp only [StreamLayout.chunkCapacity, layout, tagLength] at *
  omega

theorem fits_descriptor {i : Nat} (hi : i < maxBlocks) :
    Fits descriptor (c.descriptorValues P i) := by
  refine ⟨?_, ciphertext_length_lt P i, ?_, trivial⟩
  · unfold maxBlocks maxChunks at hi
    omega
  · unfold flagOf finalFlag
    split <;> decide

theorem descriptor_reserved {i : Nat} (rest : Bytes) :
    slice (pack descriptor (c.descriptorValues P i) ++ rest) 13 3 = zeros 3 := by
  have hl : (pack descriptor (c.descriptorValues P i)).length = 16 := pack_length _ _
  rw [slice_append_left _ _ (by rw [hl])]
  iterate 3 refine (slice_pack_uint _ _ _ (by decide)).trans ?_
  exact slice_pack_pad 3 _

/-- Any long enough front of a block names it. -/
theorem descriptorOf_block {i n : Nat} (hi : i < maxBlocks) (hn : descriptorSize ≤ n) :
    descriptorOf (some ((c.block P i).take n)) = some (i, c.flagOf i) := by
  have hl : (pack descriptor (c.descriptorValues P i)).length = descriptorSize := pack_length _ _
  rw [block_eq, List.take_append, hl, List.take_of_length_le (by rw [hl]; exact hn)]
  set rest := List.take (n - descriptorSize) (c.ciphertext P i ++ _)
  have hlen : ¬ (pack descriptor (c.descriptorValues P i) ++ rest).length < descriptorSize := by
    rw [List.length_append, hl]
    omega
  have hflag : ¬ (c.flagOf i / 2 ≠ 0 ∨
      slice (pack descriptor (c.descriptorValues P i) ++ rest) 13 3 ≠ zeros 3) := by
    rw [descriptor_reserved]
    unfold flagOf finalFlag
    split <;> decide
  rw [descriptorOf, if_neg hlen, fields_pack_append (fits_descriptor P hi)]
  simp only [descriptorValues]
  exact if_neg hflag

theorem messageLength_le_block (i : Nat) :
    Rs.messageLength c.layout.nsym ≤ (c.block P i).length := by
  have h := c.header.layout_valid.bounds
  rw [block_length]
  unfold Rs.messageLength Rs.codewordSize
  show 255 - c.layout.nsym ≤ c.layout.blockSize
  simp only [layout] at *
  omega

theorem encoded_take (i : Nat) : (c.encoded P i).take Rs.codewordSize =
    Rs.codeword c.layout.nsym ((c.block P i).take (Rs.messageLength c.layout.nsym)) :=
  Rs.encode_take c.header.layout_valid.nsym_lt (messageLength_le_block P i)

end Contents

/-! ## 2. First codewords -/

variable {P : Primitives}

/-- What `describe` gives while the codewords are there in full. -/
theorem describe_getElem? (messageOf : Nat → Bytes → Option Bytes) {L : List Bytes} {m : Nat}
    (h : ∀ j ≤ m, ∃ w, L[j]? = some w ∧ w.length = Rs.codewordSize) (number : Nat) {w : Bytes}
    (hw : L[m]? = some w) :
    (describe messageOf L number)[m]? = some (descriptorOf (messageOf (number + m) w)) := by
  induction m generalizing L number with
  | zero =>
    obtain ⟨v, hv, hl⟩ := h 0 le_rfl
    cases L with
    | nil => cases hw
    | cons x L =>
      simp only [List.getElem?_cons_zero, Option.some.injEq] at hv hw
      subst hv
      subst hw
      rw [describe, if_neg (not_not.mpr hl)]
      rfl
  | succ m ih =>
    obtain ⟨v, hv, hl⟩ := h 0 (Nat.zero_le _)
    cases L with
    | nil => cases hw
    | cons x L =>
      simp only [List.getElem?_cons_zero, Option.some.injEq] at hv
      subst hv
      rw [describe, if_neg (not_not.mpr hl), List.getElem?_cons_succ,
        ih (fun j hj => by simpa using h (j + 1) (by omega)) (number + 1) (by simpa using hw),
        Nat.add_assoc, Nat.add_comm 1 m]

theorem filter_getElem? {p : Bytes → Bool} {L : List Bytes} {m : Nat}
    (h : ∀ j ≤ m, ∃ w, L[j]? = some w ∧ p w = true) : (L.filter p)[m]? = L[m]? := by
  induction m generalizing L with
  | zero =>
    obtain ⟨v, hv, hp⟩ := h 0 le_rfl
    cases L with
    | nil => cases hv
    | cons x L =>
      simp only [List.getElem?_cons_zero, Option.some.injEq] at hv
      subst hv
      rw [List.filter_cons_of_pos hp]
      rfl
  | succ m ih =>
    obtain ⟨v, hv, hp⟩ := h 0 (Nat.zero_le _)
    cases L with
    | nil => cases hv
    | cons x L =>
      simp only [List.getElem?_cons_zero, Option.some.injEq] at hv
      subst hv
      rw [List.filter_cons_of_pos hp, List.getElem?_cons_succ, List.getElem?_cons_succ]
      exact ih fun j hj => by simpa using h (j + 1) (by omega)

/-- **A codeword that verifies is read as it stands**, when those before it are there in full. -/
theorem firstDescriptors_getElem? {D : Bytes} {nsym : Nat} {offsets : List Nat} {m : Nat} {o : Nat}
    (h : ∀ j ≤ m, ∃ o, offsets[j]? = some o ∧
      (readAt D o Rs.codewordSize).length = Rs.codewordSize)
    (ho : offsets[m]? = some o) (hc : Rs.consistent nsym (readAt D o Rs.codewordSize) = true) :
    (firstDescriptors P D nsym offsets)[m]? = some (descriptorOf
      (some ((readAt D o Rs.codewordSize).take (Rs.codewordSize - nsym)))) := by
  have hfull : ∀ j ≤ m, ∃ w, (offsets.map fun o => readAt D o Rs.codewordSize)[j]? = some w ∧
      w.length = Rs.codewordSize := by
    intro j hj
    obtain ⟨o', ho', hl⟩ := h j hj
    exact ⟨_, by rw [List.getElem?_map, ho']; rfl, hl⟩
  have hm : (offsets.map fun o => readAt D o Rs.codewordSize)[m]? =
      some (readAt D o Rs.codewordSize) := by rw [List.getElem?_map, ho]; rfl
  rw [firstDescriptors, describe_getElem? _ hfull 0 hm, Nat.zero_add, if_neg]
  -- it is the `m`th of the full codewords too, and not among the damaged ones
  have hfilter := filter_getElem?
    (p := fun codeword => codeword.length == Rs.codewordSize) (m := m)
    fun j hj => (hfull j hj).imp fun w hw => ⟨hw.1, by simpa using hw.2⟩
  rw [hm] at hfilter
  split
  · exact List.not_mem_nil
  · exact Rs.mem_damagedCodewords (fun x hx => by simpa using (List.mem_filter.mp hx).2) hfilter hc

/-! ## 3. The scan -/

section Lists

variable {α β : Type}

theorem lt_takeWhile_length {p : α → Bool} {L : List α} {m : Nat}
    (h : ∀ j ≤ m, ∃ x, L[j]? = some x ∧ p x = true) : m < (L.takeWhile p).length := by
  induction m generalizing L with
  | zero =>
    obtain ⟨v, hv, hp⟩ := h 0 le_rfl
    cases L with
    | nil => cases hv
    | cons x L =>
      simp only [List.getElem?_cons_zero, Option.some.injEq] at hv
      subst hv
      rw [List.takeWhile_cons_of_pos hp]
      exact Nat.succ_pos _
  | succ m ih =>
    obtain ⟨v, hv, hp⟩ := h 0 (Nat.zero_le _)
    cases L with
    | nil => cases hv
    | cons x L =>
      simp only [List.getElem?_cons_zero, Option.some.injEq] at hv
      subst hv
      rw [List.takeWhile_cons_of_pos hp]
      exact Nat.succ_lt_succ (ih fun j hj => by simpa using h (j + 1) (by omega))

/-- The first hit of a search. -/
theorem findSome?_of_getElem? {f : α → Option β} {L : List α} {m : Nat} {b : β}
    (h : ∀ j < m, ∃ x, L[j]? = some x ∧ f x = none) (hm : ∃ x, L[m]? = some x ∧ f x = some b) :
    L.findSome? f = some b := by
  induction m generalizing L with
  | zero =>
    obtain ⟨v, hv, hf⟩ := hm
    cases L with
    | nil => cases hv
    | cons x L =>
      simp only [List.getElem?_cons_zero, Option.some.injEq] at hv
      subst hv
      rw [List.findSome?_cons, hf]
  | succ m ih =>
    obtain ⟨v, hv, hf⟩ := h 0 (Nat.succ_pos m)
    cases L with
    | nil => cases hv
    | cons x L =>
      simp only [List.getElem?_cons_zero, Option.some.injEq] at hv
      subst hv
      rw [List.findSome?_cons, hf]
      exact ih (fun j hj => by simpa using h (j + 1) (by omega)) (by simpa using hm)

theorem findSome?_eq_none_of_getElem? {f : α → Option β} {L : List α}
    (h : ∀ j < L.length, ∃ x, L[j]? = some x ∧ f x = none) : L.findSome? f = none := by
  rw [List.findSome?_eq_none_iff]
  intro x hx
  obtain ⟨j, hj⟩ := List.getElem?_of_mem hx
  obtain ⟨y, hy, hf⟩ := h j (List.getElem?_eq_some_iff.mp hj).1
  rw [hj] at hy
  cases hy
  exact hf

end Lists

section Scan

variable (P) (c : Contents) (D : Bytes)

/-- The first copies of all blocks are intact. -/
structure FirstCopies : Prop where
  slot : ∀ k < c.blocks, slotAt c.layout D (firstCopyPosition k c.layout.interleave) = c.slot P k
  blocks_le : c.blocks ≤ maxBlocks

/-- One candidate of the scan. -/
def candidateAt (L : StreamLayout) (k : Nat) : Nat × Nat × Nat :=
  (k, firstCopyPosition k L.interleave, headerSize + firstCopyPosition k L.interleave * L.slotSize)

variable {P c D}

theorem codewordSize_le_slotSize : Rs.codewordSize ≤ c.layout.slotSize := by
  have h1 := c.header.layout_valid.bounds
  have h2 := c.header.layout_valid.blockSize_lt_slotSize
  unfold Rs.codewordSize
  simp only [Contents.layout] at *
  omega

theorem FirstCopies.readAt_eq (h : FirstCopies P c D) {k : Nat} (hk : k < c.blocks) :
    readAt D (candidateAt c.layout k).2.2 Rs.codewordSize = Rs.codeword c.layout.nsym
      ((c.block P k).take (Rs.messageLength c.layout.nsym)) := by
  have hs := h.slot k hk
  have hle := codewordSize_le_slotSize (c := c)
  have hen : Rs.codewordSize ≤ (c.encoded P k).length := by
    have := c.messageLength_le_block P k
    have hl := congrArg List.length (c.encoded_take P k)
    have hn : c.layout.nsym < Rs.codewordSize := c.header.layout_valid.nsym_lt
    have hm : ((c.block P k).take (Rs.messageLength c.layout.nsym)).length =
        Rs.messageLength c.layout.nsym := by rw [List.length_take]; omega
    rw [Rs.codeword_length hm.le, hm, Rs.messageLength_add hn, List.length_take] at hl
    omega
  rw [readAt, ← c.encoded_take P k, ← @List.take_append_of_le_length _ _ (c.tag P k) _ hen]
  show _ = (c.slot P k).take _
  rw [← hs, slotAt, take_slice, Nat.min_eq_left hle]
  rfl

theorem FirstCopies.offset_lt (h : FirstCopies P c D) {k : Nat} (hk : k < c.blocks) :
    (candidateAt c.layout k).2.2 < D.length := by
  have hl := congrArg List.length (h.slot k hk)
  have hp := c.layout.slotSize_pos
  rw [c.slot_length P, slotAt, slice_length] at hl
  simp only [candidateAt]
  omega

theorem scanBatch_getElem? {L : StreamLayout} {size index j : Nat}
    (hj : j < (scanBatch L size index).length) :
    (scanBatch L size index)[j]? = some (candidateAt L (index + j)) := by
  have hpre : scanBatch L size index <+: (List.range' index
      (min (index + scanBatchBlocks) maxBlocks - index)).map (candidateAt L) :=
    List.takeWhile_prefix _
  have hlt : j < min (index + scanBatchBlocks) maxBlocks - index := by
    have := hpre.length_le
    rw [List.length_map, List.length_range'] at this
    omega
  obtain ⟨rest, hrest⟩ := hpre
  rw [← List.getElem?_append_left hj, hrest, List.getElem?_map, List.getElem?_range' hlt,
    Nat.one_mul]
  rfl

theorem FirstCopies.lt_scanBatch (h : FirstCopies P c D) {index k : Nat} (hi : index ≤ k)
    (hk : k < c.blocks) (hb : k < index + scanBatchBlocks) :
    k - index < (scanBatch c.layout D.length index).length := by
  refine lt_takeWhile_length fun j hj => ⟨candidateAt c.layout (index + j), ?_, ?_⟩
  · have hm := h.blocks_le
    have hlt : j < min (index + scanBatchBlocks) maxBlocks - index := by omega
    rw [List.getElem?_map, List.getElem?_range' hlt, Nat.one_mul]
    rfl
  · exact decide_eq_true (h.offset_lt (by omega))

/-- What the scan makes of a candidate. -/
theorem FirstCopies.descriptor (h : FirstCopies P c D) {index j : Nat} (hj : index + j < c.blocks)
    (hb : j < (scanBatch c.layout D.length index).length) :
    (firstDescriptors P D c.layout.nsym ((scanBatch c.layout D.length index).map
      fun (_, _, offset) => offset))[j]? = some (some (index + j, c.flagOf (index + j))) := by
  have hn : c.layout.nsym < Rs.codewordSize := c.header.layout_valid.nsym_lt
  have hoff : ∀ i ≤ j, ((scanBatch c.layout D.length index).map fun (_, _, offset) => offset)[i]? =
      some (candidateAt c.layout (index + i)).2.2 := by
    intro i hi
    rw [List.getElem?_map, scanBatch_getElem? (by omega)]
    rfl
  have hlen : ∀ k, ((c.block P k).take (Rs.messageLength c.layout.nsym)).length =
      Rs.messageLength c.layout.nsym := by
    intro k
    have := c.messageLength_le_block P k
    rw [List.length_take]
    omega
  have hm : descriptorSize ≤ Rs.messageLength c.layout.nsym := by
    have := c.header.layout_valid.bounds
    unfold Rs.messageLength Rs.codewordSize descriptorSize
    simp only [Contents.layout] at *
    omega
  have hcw : ∀ k < c.blocks, (readAt D (candidateAt c.layout k).2.2 Rs.codewordSize).length =
      Rs.codewordSize := by
    intro k hk
    rw [h.readAt_eq hk, Rs.codeword_length (hlen k).le, hlen, Rs.messageLength_add hn]
  rw [firstDescriptors_getElem? (fun i hi => ⟨_, hoff i hi, hcw _ (by omega)⟩) (hoff j le_rfl),
    h.readAt_eq hj]
  · rw [show Rs.codewordSize - c.layout.nsym = Rs.messageLength c.layout.nsym from rfl,
      Rs.codeword, List.take_append_of_le_length (hlen _).ge,
      List.take_of_length_le (hlen _).le, c.descriptorOf_block P _ hm]
    have := h.blocks_le
    omega
  · rw [h.readAt_eq hj]
    exact Rs.consistent_codeword (hlen _).le

theorem countFrom_flagOf {k position : Nat} :
    countFrom c.layout.interleave k position (some (k, c.flagOf k)) =
      if k + 1 = c.blocks then some c.blocks else none := by
  unfold countFrom Contents.flagOf Contents.final finalFlag
  by_cases h : k + 1 = c.blocks
  · simp [h]
  · simp [h]

/-- **The scan finds the last block**: the fuel is counted down with the candidates still to come. -/
theorem FirstCopies.scanFrom_eq (h : FirstCopies P c D) (fuel : Nat) {index : Nat}
    (hi : index < c.blocks) (hf : c.blocks ≤ index + fuel) :
    scanFrom P D c.layout fuel index = .ok c.blocks := by
  induction fuel generalizing index with
  | zero => omega
  | succ fuel ih =>
    have hpos : 0 < (scanBatch c.layout D.length index).length := by
      have hbatch : index - index < (scanBatch c.layout D.length index).length :=
        h.lt_scanBatch le_rfl hi (by unfold scanBatchBlocks; omega)
      omega
    set batch := scanBatch c.layout D.length index with hbatch
    set descriptors := firstDescriptors P D c.layout.nsym (batch.map fun (_, _, offset) => offset)
      with hdescriptors
    have hlast : batch.getLast? = some (candidateAt c.layout (index + (batch.length - 1))) := by
      rw [List.getLast?_eq_getElem?]
      exact scanBatch_getElem? (by rw [← hbatch]; omega)
    have hentry : ∀ j < batch.length, index + j < c.blocks → ∃ x,
        (batch.zip descriptors)[j]? = some x ∧
        countFrom c.layout.interleave x.1.1 x.1.2.1 x.2 =
          if index + j + 1 = c.blocks then some c.blocks else none := by
      intro j hj hjb
      refine ⟨(candidateAt c.layout (index + j), some (index + j, c.flagOf (index + j))), ?_,
        countFrom_flagOf⟩
      rw [List.getElem?_zip_eq_some]
      exact ⟨scanBatch_getElem? hj, h.descriptor hjb hj⟩
    rw [scanFrom]
    simp only [← hbatch, hlast, ← hdescriptors]
    rcases Nat.lt_or_ge (c.blocks - 1) (index + batch.length) with hin | hout
    · -- the last block is in this batch
      have hfound : (batch.zip descriptors).findSome? (fun x =>
          countFrom c.layout.interleave x.1.1 x.1.2.1 x.2) = some c.blocks := by
        refine findSome?_of_getElem? (m := c.blocks - 1 - index) (fun j hj => ?_) ?_
        · obtain ⟨x, hx, hv⟩ := hentry j (by omega) (by omega)
          exact ⟨x, hx, by rw [hv, if_neg (by omega)]⟩
        · obtain ⟨x, hx, hv⟩ := hentry (c.blocks - 1 - index) (by omega) (by omega)
          exact ⟨x, hx, by rw [hv, if_pos (by omega)]⟩
      rw [hfound]
    · have hnone : (batch.zip descriptors).findSome? (fun x =>
          countFrom c.layout.interleave x.1.1 x.1.2.1 x.2) = none := by
        refine findSome?_eq_none_of_getElem? fun j hj => ?_
        rw [List.length_zip] at hj
        obtain ⟨x, hx, hv⟩ := hentry j (by omega) (by omega)
        exact ⟨x, hx, by rw [hv, if_neg (by omega)]⟩
      rw [hnone]
      exact ih (by show index + (batch.length - 1) + 1 < _; omega)
        (by show _ ≤ index + (batch.length - 1) + 1 + fuel; omega)

theorem FirstCopies.scanBlockCount_eq (h : FirstCopies P c D) :
    scanBlockCount P D c.layout = .ok c.blocks := by
  have hp := c.blocks_pos
  refine h.scanFrom_eq _ hp ?_
  -- the last block's first copy lies at least one slot of bytes for each block before it
  have hlt := h.offset_lt (k := c.blocks - 1) (by omega)
  have hs := c.layout.slotSize_pos
  have hpos : c.blocks - 1 ≤ firstCopyPosition (c.blocks - 1) c.layout.interleave := by
    unfold firstCopyPosition
    split <;> omega
  have hm := Nat.le_mul_of_pos_right (firstCopyPosition (c.blocks - 1) c.layout.interleave) hs
  simp only [candidateAt] at hlt
  omega

end Scan

end Dbs

/-
  File:      Dbs/Container/Decoder.lean
  Subject:   DECODING ONLY WHAT IS DAMAGED (container/rs.py, decode, decode_whole, repair_from_copies).

  `decode` splits a stored block into its codewords, keeps those whose parity matches and gives only
  the others to the third-party decoder; `decode_whole` gives it everything. The decoder works through
  its input codeword by codeword, so both come to the same.

  * `decode`, `decodeWhole` -- the two ways; `Codec.ByCodeword` -- what is assumed of the decoder;
  * `decodeDamaged_eq` -- the loop over the damaged codewords puts each message in its place;
  * `decode_eq_decodeWhole` -- the two ways agree, failures included;
  * `repairFromCopies_eq` -- a repair from two copies is the choice for each codeword, joined;
  * `decoding_refines` -- both.
-/
import Dbs.Container.Repair
import Dbs.Lib.Rows

namespace Dbs.Rs

open Octets ReedSolomon
open Rows (mapM_eq_some_map mapM_congr mapM_eq_none)

/-! ## 1. The two ways -/

section Definitions

variable (codec : Codec)

def decodeWhole (encoded : Bytes) (nsym : Nat) : Option Bytes := codec nsym encoded []

/-- The loop over the damaged codewords. -/
def decodeDamaged (encoded : Bytes) (nsym : Nat) : List Nat → Bytes → Option Bytes
  | [], data => some data
  | index :: damaged, data =>
    match decodeCodeword codec (codewordAt encoded index) nsym [] with
    | none => none
    | some repaired =>
      decodeDamaged encoded nsym damaged (splice data (index * messageLength nsym) repaired)

def decode (encoded : Bytes) (nsym : Nat) : Option Bytes :=
  match damagedCodewords encoded nsym with
  | none => decodeWhole codec encoded nsym
  | some damaged =>
    if damaged = [] then stripParity encoded nsym
    else decodeDamaged codec encoded nsym damaged ((stripParity encoded nsym).getD [])

end Definitions

/-- What is assumed of the decoder: a longer input is decoded codeword by codeword, a codeword without
    errors comes back as its message, and a message is as long as its codeword without the parity. -/
structure Codec.ByCodeword (codec : Codec) : Prop where
  whole : ∀ nsym < codewordSize, ∀ encoded : Bytes, codec nsym encoded [] =
    ((pieces codewordSize encoded).mapM fun stored => codec nsym stored []).map List.flatten
  intact : ∀ nsym < codewordSize, ∀ m : Bytes, m ≠ [] → m.length ≤ messageLength nsym →
    codec nsym (codeword nsym m) [] = some m
  length : ∀ nsym < codewordSize, ∀ (stored : Bytes) (erasures : List Nat) (m : Bytes),
    nsym < stored.length → stored.length ≤ codewordSize → codec nsym stored erasures = some m →
    m.length + nsym = stored.length

/-! ## 2. Lists of results -/

theorem flatMap_range_split {α : Type} (q : Nat → List α) (i k : Nat) :
    (List.range (i + 1 + k)).flatMap q =
      (List.range i).flatMap q ++ (q i ++ (List.range' (i + 1) k).flatMap q) := by
  have hsplit : List.range (i + 1 + k) = List.range i ++ i :: List.range' (i + 1) k := by
    rw [List.range_eq_range', List.range_eq_range', Nat.add_assoc, ← List.range'_append_1,
      Nat.zero_add, Nat.add_comm 1 k, List.range'_succ]
  rw [hsplit, List.flatMap_append, List.flatMap_cons]

/-- **A piece put in the place of piece `i`** takes that piece's place in the list. -/
theorem splice_flatMap {q : Nat → Bytes} {m n i : Nat} {x : Bytes} (hi : i < n)
    (hq : ∀ j < i, (q j).length = m) (hx : x.length = (q i).length) :
    splice ((List.range n).flatMap q) (i * m) x = (List.range n).flatMap (Function.update q i x) := by
  obtain ⟨k, rfl⟩ := Nat.exists_eq_add_of_lt hi
  have hfront : ((List.range i).flatMap q).length = i * m := by
    rw [List.flatMap_def, flatten_length_of_eq (n := m), List.length_map, List.length_range]
    intro l hl
    obtain ⟨j, hj, rfl⟩ := List.mem_map.mp hl
    exact hq j (List.mem_range.mp hj)
  have hbefore : (List.range i).flatMap (Function.update q i x) = (List.range i).flatMap q :=
    List.flatMap_congr fun j hj => Function.update_of_ne (List.mem_range.mp hj).ne _ _
  have hbehind : (List.range' (i + 1) k).flatMap (Function.update q i x) =
      (List.range' (i + 1) k).flatMap q :=
    List.flatMap_congr fun j hj => Function.update_of_ne (by
      have := (List.mem_range'_1.mp hj).1
      omega) _ _
  rw [Nat.add_right_comm, flatMap_range_split, flatMap_range_split, hbefore, hbehind,
    Function.update_self, splice, List.take_left' hfront, ← hfront, List.append_assoc]
  congr 2
  rw [← List.drop_drop, List.drop_left, hx, List.drop_left]

/-! ## 3. The loop over the damaged codewords -/

variable {codec : Codec} {nsym : Nat}

variable {damaged : List Nat} {encoded : Bytes}

/-- A codeword that does not decode ends the loop. -/
theorem decodeDamaged_none {j : Nat} (hj : j ∈ damaged)
    (h : decodeCodeword codec (codewordAt encoded j) nsym [] = none) (data : Bytes) :
    decodeDamaged codec encoded nsym damaged data = none := by
  induction damaged generalizing data with
  | nil => cases hj
  | cons index damaged ih =>
    rw [decodeDamaged]
    rcases List.mem_cons.mp hj with rfl | hmem
    · rw [h]
    · cases decodeCodeword codec (codewordAt encoded index) nsym [] with
      | none => rfl
      | some repaired => exact ih hmem _

/-- **The loop replaces the damaged messages**: by induction on the damaged codewords, with the
    messages `q` that stand in the block so far. -/
theorem decodeDamaged_eq {n : Nat} {p : Nat → Bytes}
    (hp : ∀ j < n, decodeCodeword codec (codewordAt encoded j) nsym [] = some (p j))
    (hd : ∀ j ∈ damaged, j < n) (q : Nat → Bytes) (hlen : ∀ j < n, (p j).length = (q j).length)
    (hq : ∀ j, j + 1 < n → (q j).length = messageLength nsym) :
    decodeDamaged codec encoded nsym damaged ((List.range n).flatMap q) =
      some ((List.range n).flatMap fun j => if j ∈ damaged then p j else q j) := by
  induction damaged generalizing q with
  | nil => simp [decodeDamaged]
  | cons index damaged ih =>
    have hi := hd index List.mem_cons_self
    have hlen' : ∀ j < n, (Function.update q index (p index) j).length = (q j).length := by
      intro j hj
      rcases eq_or_ne j index with rfl | hne
      · rw [Function.update_self, hlen j hj]
      · rw [Function.update_of_ne hne]
    rw [decodeDamaged, hp index hi]
    simp only
    rw [splice_flatMap hi (fun j hj => hq j (by omega)) (hlen index hi),
      ih (fun j hj => hd j (List.mem_cons_of_mem _ hj)) _
        (fun j hj => by rw [hlen' j hj, hlen j hj])
        (fun j hj => by rw [hlen' j (by omega), hq j hj])]
    refine congrArg some (List.flatMap_congr fun j _ => ?_)
    rcases eq_or_ne j index with rfl | hne
    · rw [Function.update_self, if_pos List.mem_cons_self, ite_self]
    · simp only [Function.update_of_ne hne, List.mem_cons, hne, false_or]

/-! ## 4. The two ways agree -/

section Stored

variable {encoded : Bytes}

theorem pieces_eq_map (encoded : Bytes) : pieces codewordSize encoded =
    (List.range (codewordCount encoded.length)).map (codewordAt encoded) := rfl

theorem codewordAt_length_le (encoded : Bytes) (j : Nat) :
    (codewordAt encoded j).length ≤ codewordSize := slice_length_le _ _ _

theorem length_codewordAt (hn : nsym < codewordSize) (hwf : isWellFormed encoded.length nsym = true)
    {j : Nat} (hj : j < codewordCount encoded.length) : nsym < (codewordAt encoded j).length :=
  length_of_mem_pieces hn hwf (List.mem_map_of_mem (List.mem_range.mpr hj))

/-- Only the last codeword is short. -/
theorem length_codewordAt_full {j : Nat} (hj : j + 1 < codewordCount encoded.length) :
    (codewordAt encoded j).length = codewordSize := by
  refine slice_length_eq ?_
  unfold codewordCount codewordSize at *
  omega

theorem mem_damaged {damaged : List Nat} (h : damagedCodewords encoded nsym = some damaged) (j : Nat) :
    j ∈ damaged ↔ j < codewordCount encoded.length ∧
      consistent nsym (codewordAt encoded j) = false := by
  rw [damagedCodewords] at h
  split at h
  · cases h
    rw [List.mem_map]
    constructor
    · rintro ⟨⟨w, i⟩, hmem, rfl⟩
      obtain ⟨hw, hc⟩ := List.mem_filter.mp hmem
      rw [List.mem_zipIdx_iff_getElem?] at hw
      obtain ⟨hi, -⟩ := List.getElem?_eq_some_iff.mp hw
      rw [pieces_eq_map, List.length_map, List.length_range] at hi
      rw [pieces_eq_map, List.getElem?_map, List.getElem?_range hi, Option.map_some,
        Option.some.injEq] at hw
      refine ⟨hi, ?_⟩
      rw [hw]
      simpa using hc
    · rintro ⟨hj, hc⟩
      refine ⟨(codewordAt encoded j, j), List.mem_filter.mpr ⟨?_, by simp [hc]⟩, rfl⟩
      rw [List.mem_zipIdx_iff_getElem?, pieces_eq_map, List.getElem?_map, List.getElem?_range hj]
      rfl
  · cases h

end Stored

theorem Codec.ByCodeword.consistent (h : codec.ByCodeword) (hn : nsym < codewordSize) {w : Bytes}
    (hw : nsym < w.length) (hle : w.length ≤ codewordSize) (hc : Rs.consistent nsym w = true) :
    codec nsym w [] = some (messageOf nsym w) := by
  have hne : messageOf nsym w ≠ [] := by
    refine List.ne_nil_of_length_pos ?_
    rw [messageOf_length]
    omega
  have hd := h.intact nsym hn _ hne (messageOf_length_le w hle)
  rwa [← (consistent_iff hle).mp hc] at hd

theorem decodeWhole_eq (h : codec.ByCodeword) (hn : nsym < codewordSize) (encoded : Bytes) :
    decodeWhole codec encoded nsym = ((List.range (codewordCount encoded.length)).mapM fun j =>
      codec nsym (codewordAt encoded j) []).map List.flatten := by
  rw [decodeWhole, h.whole nsym hn, pieces_eq_map, List.mapM_map]
  rfl

theorem stripParity_eq_flatMap (hwf : isWellFormed encoded.length nsym = true) :
    stripParity encoded nsym = some ((List.range (codewordCount encoded.length)).flatMap fun j =>
      messageOf nsym (codewordAt encoded j)) := by
  rw [stripParity, if_pos hwf, pieces_eq_map, List.flatMap_map]

/-- Without damage the loop has nothing to do. -/
theorem decode_eq_decodeDamaged {encoded data : Bytes}
    (hd : damagedCodewords encoded nsym = some damaged) (hs : stripParity encoded nsym = some data) :
    decode codec encoded nsym = decodeDamaged codec encoded nsym damaged data := by
  rw [decode, hd, hs]
  simp only
  split
  · rename_i hnil
    rw [hnil, decodeDamaged]
  · rfl

/-- **Decoding the damaged codewords is decoding everything**, with the same failures. -/
theorem decode_eq_decodeWhole (h : codec.ByCodeword) (hn : nsym < codewordSize) (encoded : Bytes) :
    decode codec encoded nsym = decodeWhole codec encoded nsym := by
  cases hdamaged : damagedCodewords encoded nsym with
  | none => rw [decode, hdamaged]
  | some damaged =>
    have hwf : isWellFormed encoded.length nsym = true := by
      rw [damagedCodewords] at hdamaged
      by_contra hno
      rw [if_neg hno] at hdamaged
      cases hdamaged
    have hmem := mem_damaged hdamaged
    have hkept : ∀ j < codewordCount encoded.length, j ∉ damaged →
        codec nsym (codewordAt encoded j) [] = some (messageOf nsym (codewordAt encoded j)) := by
      intro j hj hno
      refine h.consistent hn (length_codewordAt hn hwf hj) (codewordAt_length_le encoded j) ?_
      by_contra hc
      exact hno ((hmem j).mpr ⟨hj, by simpa using hc⟩)
    rw [decode_eq_decodeDamaged hdamaged (stripParity_eq_flatMap hwf), decodeWhole_eq h hn]
    by_cases hall : ∀ j < codewordCount encoded.length,
        ∃ m, codec nsym (codewordAt encoded j) [] = some m
    · choose! p hp using hall
      have hlen : ∀ j < codewordCount encoded.length,
          (p j).length = (messageOf nsym (codewordAt encoded j)).length := by
        intro j hj
        have := h.length nsym hn _ _ _ (length_codewordAt hn hwf hj) (codewordAt_length_le encoded j)
          (hp j hj)
        rw [messageOf_length]
        omega
      have hfull : ∀ j, j + 1 < codewordCount encoded.length →
          (messageOf nsym (codewordAt encoded j)).length = messageLength nsym := by
        intro j hj
        rw [messageOf_length, length_codewordAt_full hj, messageLength]
      rw [decodeDamaged_eq hp (fun j hj => ((hmem j).mp hj).1) _ hlen hfull,
        mapM_eq_some_map fun j hj => hp j (List.mem_range.mp hj), Option.map_some, ← List.flatMap_def]
      refine congrArg some (List.flatMap_congr fun j hj => ?_)
      split
      · rfl
      · rename_i hno
        have hj := List.mem_range.mp hj
        exact Option.some.inj ((hkept j hj hno).symm.trans (hp j hj))
    · obtain ⟨j, hj, hnone⟩ : ∃ j < codewordCount encoded.length,
          codec nsym (codewordAt encoded j) [] = none := by
        by_contra hno
        refine hall fun j hj => Option.ne_none_iff_exists'.mp fun hnone => hno ⟨j, hj, hnone⟩
      have hbad : j ∈ damaged := by
        by_contra hno
        rw [hkept j hj hno] at hnone
        cases hnone
      rw [decodeDamaged_none hbad hnone, mapM_eq_none (List.mem_range.mpr hj) hnone, Option.map_none]

/-! ## 5. Repair from two copies -/

/-- A message that comes from one stored codeword: its own, where the parity matches, or a decode. -/
def FromWord (codec : Codec) (nsym : Nat) (stored piece : Bytes) : Prop :=
  (consistent nsym stored = true ∧ piece = messageOf nsym stored) ∨
    ∃ erasures, codec nsym stored erasures = some piece

theorem firstDecoded_mem {decode : Bytes → Option Bytes} {l : List Bytes} {start source : Nat}
    {piece : Bytes} (h : firstDecoded decode l start = some (source, piece)) :
    ∃ stored ∈ l, decode stored = some piece := by
  induction l generalizing start with
  | nil => cases h
  | cons stored l ih =>
    rw [firstDecoded] at h
    cases hd : decode stored with
    | some decoded =>
      rw [hd] at h
      cases h
      exact ⟨stored, List.mem_cons_self, hd⟩
    | none =>
      rw [hd] at h
      obtain ⟨w, hw, hdw⟩ := ih h
      exact ⟨w, List.mem_cons_of_mem _ hw, hdw⟩

theorem decodeAny_mem {codewords : List Bytes} {source : Nat} {piece : Bytes}
    (h : decodeAny codec codewords nsym = some (source, piece)) :
    ∃ stored ∈ codewords, ∃ erasures, codec nsym stored erasures = some piece := by
  unfold decodeAny at h
  cases hfirst : firstDecoded (fun candidate => decodeCodeword codec candidate nsym []) codewords 0 with
  | some found =>
    rw [hfirst] at h
    cases h
    obtain ⟨stored, hmem, hd⟩ := firstDecoded_mem hfirst
    exact ⟨stored, hmem, [], hd⟩
  | none =>
    rw [hfirst] at h
    simp only at h
    split at h
    · split at h
      · obtain ⟨stored, hmem, hd⟩ := firstDecoded_mem h
        exact ⟨stored, hmem, _, hd⟩
      · cases h
    · cases h

/-- **What is chosen for a codeword** comes from one copy's codeword at that place. -/
theorem choose_fromWord {copies : List Bytes} {index : Nat} {piece : Bytes}
    (h : choose codec copies nsym index = some piece) :
    ∃ copy ∈ copies, FromWord codec nsym (codewordAt copy index) piece := by
  rw [choose] at h
  cases hfind : copies.findIdx? fun copy => consistent nsym (codewordAt copy index) with
  | some source =>
    rw [hfind] at h
    cases h
    obtain ⟨hlt, hc, -⟩ := List.findIdx?_eq_some_iff_getElem.mp hfind
    rw [List.getD_eq_getElem _ _ hlt]
    exact ⟨copies[source], List.getElem_mem hlt, .inl ⟨hc, rfl⟩⟩
  | none =>
    rw [hfind] at h
    obtain ⟨⟨source, decoded⟩, hany, rfl⟩ := Option.map_eq_some_iff.mp h
    obtain ⟨stored, hmem, hd⟩ := decodeAny_mem hany
    obtain ⟨copy, hcopy, rfl⟩ := List.mem_map.mp hmem
    exact ⟨copy, hcopy, .inr hd⟩

/-- A codeword for which nothing can be chosen ends the repair. -/
theorem repairFrom_none {copies stripped : List Bytes} {l : List Nat} {j : Nat} (hj : j ∈ l)
    (h : choose codec copies nsym j = none) (repaired : Bytes) (used : Finset Nat) (decoded : Bool) :
    (repairFrom codec copies stripped nsym l repaired used decoded).data = none := by
  induction l generalizing repaired used decoded with
  | nil => cases hj
  | cons index l ih =>
    have hrest : j ∈ l → ∀ repaired used decoded,
        (repairFrom codec copies stripped nsym l repaired used decoded).data = none :=
      fun hmem => ih hmem
    rw [repairFrom]
    cases hfind : copies.findIdx? fun copy => consistent nsym (codewordAt copy index) with
    | some source =>
      rcases List.mem_cons.mp hj with rfl | hmem
      · rw [choose, hfind] at h
        cases h
      · exact hrest hmem _ _ _
    | none =>
      cases hany : decodeAny codec (copies.map (codewordAt · index)) nsym with
      | none => rfl
      | some found =>
        rcases List.mem_cons.mp hj with rfl | hmem
        · rw [choose, hfind, hany] at h
          cases h
        · exact hrest hmem _ _ _

theorem codewordAt_length_eq {first second : Bytes} (hl : second.length = first.length) (j : Nat) :
    (codewordAt second j).length = (codewordAt first j).length := by
  rw [codewordAt, codewordAt, slice_length, slice_length, hl]

/-- What comes from a stored codeword is as long as its message. -/
theorem FromWord.length (h : codec.ByCodeword) (hn : nsym < codewordSize) {stored piece : Bytes}
    (hw : nsym < stored.length) (hle : stored.length ≤ codewordSize)
    (hp : FromWord codec nsym stored piece) : piece.length + nsym = stored.length := by
  rcases hp with ⟨-, rfl⟩ | ⟨erasures, hd⟩
  · rw [messageOf_length]
    omega
  · exact h.length nsym hn _ _ _ hw hle hd

/-- **A repair from two copies** joins what is chosen for each codeword, and fails where nothing can be
    chosen for one of them. -/
theorem repairFromCopies_eq (h : codec.ByCodeword) (hn : nsym < codewordSize) (first second : Bytes) :
    (repairFromCopies codec [first, second] nsym).data =
      if second.length = first.length ∧ isWellFormed first.length nsym = true then
        ((List.range (codewordCount first.length)).mapM (choose codec [first, second] nsym)).map
          List.flatten
      else none := by
  split
  · rename_i hok
    obtain ⟨hl, hwf⟩ := hok
    by_cases hall : ∀ j < codewordCount first.length, ∃ p, choose codec [first, second] nsym j = some p
    · choose! p hp using hall
      rw [mapM_eq_some_map fun j hj => hp j (List.mem_range.mp hj), Option.map_some, ← List.flatMap_def]
      refine repairFromCopies_data hn hl hwf fun j hj => ⟨hp j hj, ?_⟩
      obtain ⟨copy, hcopy, hfrom⟩ := choose_fromWord (hp j hj)
      have hlen : (codewordAt copy j).length = (codewordAt first j).length := by
        rcases List.mem_pair.mp hcopy with rfl | rfl
        · rfl
        · exact codewordAt_length_eq hl j
      rw [← hlen]
      exact hfrom.length h hn (by rw [hlen]; exact length_codewordAt hn hwf hj)
        (codewordAt_length_le copy j)
    · obtain ⟨j, hj, hnone⟩ : ∃ j < codewordCount first.length,
          choose codec [first, second] nsym j = none := by
        by_contra hno
        refine hall fun j hj => Option.ne_none_iff_exists'.mp fun hnone => hno ⟨j, hj, hnone⟩
      have hsame : ¬ (([first, second].any fun copy => copy.length != first.length) ||
          !isWellFormed first.length nsym) = true := by
        simp [hl, hwf]
      rw [repairFromCopies, if_neg hsame, mapM_eq_none (List.mem_range.mpr hj) hnone, Option.map_none]
      exact repairFrom_none (List.mem_range.mpr hj) hnone _ _ _
  · rename_i hno
    have hdiffer : (([first, second].any fun copy => copy.length != first.length) ||
        !isWellFormed first.length nsym) = true := by
      by_contra hsame
      refine hno ?_
      simpa using hsame
    rw [repairFromCopies, if_pos hdiffer]

/-- **The fast decode is the whole one, and a repair never mixes codewords.** For every input `decode`
    and `decodeWhole` agree, in their failures too. A repair from two copies of one well-formed length
    joins what is chosen for each codeword; that is the codeword's own message where its parity matches
    in a copy, else a decode of that codeword of one of the copies, and as long as the message. -/
theorem decoding_refines (codec : Codec) (h : codec.ByCodeword) (nsym : Nat)
    (hrange : minNsym ≤ nsym ∧ nsym ≤ maxNsym) :
    (∀ encoded, decode codec encoded nsym = decodeWhole codec encoded nsym) ∧
    ∀ first second : Bytes,
      (repairFromCopies codec [first, second] nsym).data =
        (if second.length = first.length ∧ isWellFormed first.length nsym = true then
          ((List.range (codewordCount first.length)).mapM (choose codec [first, second] nsym)).map
            List.flatten
        else none) ∧
      (second.length = first.length → isWellFormed first.length nsym = true →
        ∀ index < codewordCount first.length, ∀ piece,
          choose codec [first, second] nsym index = some piece →
          (FromWord codec nsym (codewordAt first index) piece ∨
            FromWord codec nsym (codewordAt second index) piece) ∧
          piece.length + nsym = (codewordAt first index).length) := by
  have hn : nsym < codewordSize := lt_of_le_of_lt hrange.2 (by decide)
  refine ⟨decode_eq_decodeWhole h hn, fun first second => ⟨repairFromCopies_eq h hn first second, ?_⟩⟩
  intro hl hwf index hi piece hp
  have hlen := codewordAt_length_eq hl index
  have hlong := length_codewordAt hn hwf hi
  obtain ⟨copy, hcopy, hfrom⟩ := choose_fromWord hp
  rcases List.mem_pair.mp hcopy with rfl | rfl
  · exact ⟨.inl hfrom, hfrom.length h hn hlong (codewordAt_length_le copy index)⟩
  · rw [← hlen] at hlong ⊢
    exact ⟨.inr hfrom, hfrom.length h hn hlong (codewordAt_length_le copy index)⟩

/-- A codeword on its own is one piece. -/
theorem pieces_single {w : Bytes} (h0 : w ≠ []) (hle : w.length ≤ codewordSize) :
    pieces codewordSize w = [w] := by
  rw [pieces_cons (by decide) h0, List.take_of_length_le hle, List.drop_of_length_le hle, pieces_nil]

/-- A decoder that corrects `nsym / 2` errors of each codeword meets the assumptions. -/
theorem exists_byCodeword : ∃ codec : Codec, codec.ByCodeword ∧
    ∀ nsym < codewordSize, ∀ stored m : Bytes, nsym < stored.length → stored.length ≤ codewordSize →
      (codec nsym stored [] = some m ↔
        m.length + nsym = stored.length ∧ hamming stored (codeword nsym m) ≤ nsym / 2) := by
  obtain ⟨codec, hcodec⟩ := exists_boundedDistance_codec
  let joined : Codec := fun nsym encoded _ =>
    ((pieces codewordSize encoded).mapM fun stored => codec nsym stored []).map List.flatten
  have hsingle : ∀ nsym (stored : Bytes) erasures, stored ≠ [] → stored.length ≤ codewordSize →
      joined nsym stored erasures = codec nsym stored [] := by
    intro nsym stored erasures h0 hle
    show ((pieces codewordSize stored).mapM fun w => codec nsym w []).map List.flatten = _
    rw [pieces_single h0 hle, List.mapM_cons, List.mapM_nil]
    cases codec nsym stored [] with
    | none => rfl
    | some m => exact congrArg some (List.append_nil m)
  have hnear : ∀ nsym < codewordSize, ∀ (stored m : Bytes) erasures, nsym < stored.length →
      stored.length ≤ codewordSize → (joined nsym stored erasures = some m ↔
        m.length + nsym = stored.length ∧ hamming stored (codeword nsym m) ≤ nsym / 2) := by
    intro nsym hn stored m erasures hw hle
    rw [hsingle nsym stored erasures (List.ne_nil_of_length_pos (by omega)) hle,
      hcodec nsym hn stored hle m]
  refine ⟨joined, ⟨fun nsym hn encoded => ?_, fun nsym hn m h0 hm => ?_, ?_⟩,
    fun nsym hn stored m hw hle => hnear nsym hn stored m [] hw hle⟩
  · have hmapM : (pieces codewordSize encoded).mapM (fun stored => joined nsym stored []) =
        (pieces codewordSize encoded).mapM fun stored => codec nsym stored [] := by
      have hcut := cut_pieces (by decide : 0 < codewordSize) encoded
      exact mapM_congr fun w hw =>
        hsingle nsym w [] (hcut.ne_nil (by decide) w hw) (hcut.length_le w hw)
    rw [hmapM]
  · have ha := messageLength_add hn
    have hpos := List.length_pos_of_ne_nil h0
    rw [hnear nsym hn _ m [] (by rw [codeword_length hm]; omega) (by rw [codeword_length hm]; omega),
      codeword_length hm]
    exact ⟨rfl, by simp⟩
  · intro nsym hn stored erasures m hw hle hd
    exact ((hnear nsym hn stored m erasures hw hle).mp hd).1

/-- Two parity bytes, and a decoder that corrects one error in each codeword. -/
theorem decoding_refines_two : ∃ codec : Codec, codec.ByCodeword ∧
    (∀ encoded, decode codec encoded 2 = decodeWhole codec encoded 2) ∧
    (repairFromCopies codec [[7], [7]] 2).data = none := by
  obtain ⟨codec, h, -⟩ := exists_byCodeword
  obtain ⟨hdecode, hrepair⟩ := decoding_refines codec h 2 (by decide)
  exact ⟨codec, h, hdecode, by rw [(hrepair [7] [7]).1]; rfl⟩

end Dbs.Rs

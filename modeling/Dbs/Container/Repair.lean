/-
  File:      Dbs/Container/Repair.lean
  Subject:   WHAT A REPAIR FROM TWO COPIES GIVES (container/rs.py, repair_from_copies): codeword by
             codeword, the message of the copy that is chosen.

  * `Codec.BoundedDistance` -- what is assumed of the decoder; `exists_boundedDistance_codec` -- such
    a decoder exists;
  * `choose` -- the message taken for one codeword; `repairFromCopies_data` -- a repair joins them;
  * `Misleads` -- the word that is taken belongs to another message; `choose_of_near` -- a codeword that
    is near in one copy is recovered exactly when that does not happen.
-/
import Dbs.Container.Rs

namespace Dbs.Rs

open Octets ReedSolomon

/-! ## 1. The decoder -/

/-- The decoder returns the message whose codeword is within `nsym / 2` errors of the stored word, if
    there is one, and fails otherwise. (Without erasures; with them nothing is assumed.) -/
def Codec.BoundedDistance (codec : Codec) : Prop :=
  ∀ nsym, nsym < codewordSize → ∀ stored : Bytes, stored.length ≤ codewordSize → ∀ m,
    codec nsym stored [] = some m ↔
      m.length + nsym = stored.length ∧ hamming stored (codeword nsym m) ≤ nsym / 2

theorem exists_boundedDistance_codec : ∃ codec : Codec, codec.BoundedDistance := by
  let Stored (nsym : Nat) (w : Bytes) : Prop :=
    ∃ m : Bytes, m.length ≤ messageLength nsym ∧ w = codeword nsym m
  have hfar : ∀ nsym, nsym < codewordSize → ∀ c d, Stored nsym c → Stored nsym d →
      c.length = d.length → hamming c d ≤ 2 * (nsym / 2) → c = d := by
    rintro nsym hn _ _ ⟨m, hm, rfl⟩ ⟨m', hm', rfl⟩ hl hd
    rw [codeword_length hm, codeword_length hm'] at hl
    have he : m = m' := codeword_of_near hn hm (by omega) (by omega)
    rw [he]
  have hex : ∀ nsym, ∃ decode : Bytes → Option Bytes,
      nsym < codewordSize → IsBoundedDistance (Stored nsym) (nsym / 2) decode := by
    intro nsym
    by_cases hn : nsym < codewordSize
    · obtain ⟨decode, h⟩ := exists_boundedDistance (hfar nsym hn)
      exact ⟨decode, fun _ => h⟩
    · exact ⟨fun _ => none, fun h => absurd h hn⟩
  choose decode hdecode using hex
  refine ⟨fun nsym stored _ => (decode nsym stored).map (messageOf nsym), fun nsym hn stored hs m => ?_⟩
  have ha := messageLength_add hn
  rw [Option.map_eq_some_iff]
  constructor
  · rintro ⟨w, hw, rfl⟩
    obtain ⟨⟨m, hm, rfl⟩, hl, hd⟩ := (hdecode nsym hn stored w).mp hw
    rw [messageOf_codeword hm]
    exact ⟨by rw [← hl, codeword_length hm], hd⟩
  · rintro ⟨hl, hd⟩
    have hm : m.length ≤ messageLength nsym := by omega
    refine ⟨codeword nsym m, (hdecode nsym hn stored _).mpr ⟨⟨m, hm, rfl⟩, ?_, hd⟩,
      messageOf_codeword hm⟩
    rw [codeword_length hm, hl]

/-! ## 2. The codewords of a repair -/

variable (codec : Codec)

/-- The message taken for codeword `index`. -/
def choose (copies : List Bytes) (nsym index : Nat) : Option Bytes :=
  match copies.findIdx? fun copy => consistent nsym (codewordAt copy index) with
  | some source => some (messageOf nsym (codewordAt (copies.getD source []) index))
  | none => (decodeAny codec (copies.map (codewordAt · index)) nsym).map (·.2)

variable {codec} {nsym : Nat}

theorem cut_map_messageOf {L : List Bytes} (h : Cut codewordSize L)
    (hl : ∀ w ∈ L, nsym < w.length) : Cut (messageLength nsym) (L.map (messageOf nsym)) := by
  induction h with
  | nil => exact .nil
  | last w h0 hw =>
    have := hl w List.mem_cons_self
    exact .last _ (by rw [messageOf_length]; omega) (messageOf_length_le w hw)
  | cons w L hw _ ih =>
    refine .cons _ _ ?_ (ih fun x hx => hl x (List.mem_cons_of_mem _ hx))
    rw [messageOf_length, hw, messageLength]

/-- Every stored codeword of a well-formed string is longer than its parity. -/
theorem length_of_mem_pieces (hn : nsym < codewordSize) {encoded w : Bytes}
    (hwf : isWellFormed encoded.length nsym = true) (hw : w ∈ pieces codewordSize encoded) :
    nsym < w.length := by
  obtain ⟨i, hi, rfl⟩ := List.mem_map.mp hw
  simp only [isWellFormed, Bool.or_eq_true, beq_iff_eq, decide_eq_true_iff] at hwf
  rw [codewordSize] at hwf
  rw [List.mem_range, codewordSize] at hi
  rw [codewordSize] at hn
  rw [slice_length, codewordSize]
  omega

theorem pieces_getElem? {n i : Nat} {d : Bytes} (hi : i < (d.length + n - 1) / n) :
    (pieces n d)[i]? = some (slice d (i * n) n) := by
  rw [pieces, List.getElem?_map, List.getElem?_range hi]
  rfl

/-- **A slice of the stripped block** is the message part of the codeword at that place. -/
theorem slice_stripParity (hn : nsym < codewordSize) (encoded : Bytes)
    (hwf : isWellFormed encoded.length nsym = true) (index : Nat)
    (hi : index < codewordCount encoded.length) :
    slice ((stripParity encoded nsym).getD []) (index * messageLength nsym) (messageLength nsym) =
      messageOf nsym (codewordAt encoded index) := by
  have h0 := messageLength_pos hn
  have hcut := cut_map_messageOf (cut_pieces (by decide) encoded)
    fun w hw => length_of_mem_pieces hn hwf hw
  have hp := pieces_flatten_of_cut h0 hcut
  have hg : ((pieces codewordSize encoded).map (messageOf nsym))[index]? =
      some (messageOf nsym (codewordAt encoded index)) := by
    rw [List.getElem?_map, pieces_getElem? hi]
    rfl
  rw [stripParity, if_pos hwf, Option.getD_some, List.flatMap_def]
  have hlt : index < (pieces (messageLength nsym)
      ((pieces codewordSize encoded).map (messageOf nsym)).flatten).length := by
    rw [hp]
    exact (List.getElem?_eq_some_iff.mp hg).1
  rw [pieces, List.length_map, List.length_range] at hlt
  rw [← hp, pieces_getElem? hlt] at hg
  exact Option.some.inj hg

section Splices

variable {data piece : Bytes} {k n : Nat}

/-- A piece in its place leaves the length as it is. -/
theorem splice_length (hp : piece.length = min n (data.length - k * n)) :
    (splice data (k * n) piece).length = data.length := by
  rw [splice, List.length_append, List.length_append, List.length_take, List.length_drop]
  omega

theorem splice_take (hp : piece.length = min n (data.length - k * n)) :
    (splice data (k * n) piece).take ((k + 1) * n) = data.take (k * n) ++ piece := by
  rw [Nat.add_mul, Nat.one_mul, splice]
  rcases Nat.lt_or_ge (data.length - k * n) n with h | h
  · rw [List.drop_of_length_le (by omega), List.append_nil, List.take_of_length_le]
    rw [List.length_append, List.length_take]
    omega
  · rcases Nat.eq_zero_or_pos n with rfl | h0
    · have : piece = [] := List.length_eq_zero_iff.mp (by omega)
      simp [this]
    · refine List.take_left' ?_
      rw [List.length_append, List.length_take]
      omega

end Splices

/-- **The pieces that are chosen stand one behind the other**: by induction on the codewords that are
    left, with the places in front of `k` done. -/
theorem repairFrom_data {copies stripped : List Bytes} {p : Nat → Bytes} (n : Nat) {k : Nat}
    {repaired : Bytes} (used : Finset Nat) (decoded : Bool)
    (hp : ∀ j, k ≤ j → j < k + n → choose codec copies nsym j = some (p j) ∧
      (p j).length = min (messageLength nsym) (repaired.length - j * messageLength nsym))
    (hstrip : ∀ j, k ≤ j → j < k + n → ∀ source,
      (copies.findIdx? fun copy => consistent nsym (codewordAt copy j)) = some source →
      slice (stripped.getD source []) (j * messageLength nsym) (messageLength nsym) = p j)
    (hall : repaired.length ≤ (k + n) * messageLength nsym) :
    (repairFrom codec copies stripped nsym (List.range' k n) repaired used decoded).data =
      some (repaired.take (k * messageLength nsym) ++ (List.range' k n).flatMap p) := by
  induction n generalizing k repaired used decoded with
  | zero =>
    rw [Nat.add_zero] at hall
    rw [List.range'_zero, repairFrom, List.flatMap_nil, List.append_nil,
      List.take_of_length_le hall]
  | succ n ih =>
    obtain ⟨hchosen, hlen⟩ := hp k le_rfl (by omega)
    have hnext : ∀ used decoded,
        (repairFrom codec copies stripped nsym (List.range' (k + 1) n)
          (splice repaired (k * messageLength nsym) (p k)) used decoded).data =
        some (repaired.take (k * messageLength nsym) ++ (p k ++
          (List.range' (k + 1) n).flatMap p)) := by
      intro used decoded
      rw [ih used decoded, splice_take hlen, List.append_assoc]
      · rw [splice_length hlen]
        exact fun j h1 h2 => hp j (by omega) (by omega)
      · exact fun j h1 h2 => hstrip j (by omega) (by omega)
      · rw [splice_length hlen, Nat.add_right_comm]
        exact hall
    rw [List.range'_succ, repairFrom, List.flatMap_cons]
    cases hfind : copies.findIdx? fun copy => consistent nsym (codewordAt copy k) with
    | some source =>
      simp only [hstrip k le_rfl (by omega) source hfind]
      exact hnext _ _
    | none =>
      rw [choose, hfind] at hchosen
      cases hany : decodeAny codec (copies.map (codewordAt · k)) nsym with
      | none => rw [hany] at hchosen; cases hchosen
      | some found =>
        obtain ⟨source, piece⟩ := found
        rw [hany] at hchosen
        obtain rfl : piece = p k := Option.some.inj hchosen
        exact hnext _ _

/-- **A repair of two copies** joins what is chosen for each codeword. -/
theorem repairFromCopies_data (hn : nsym < codewordSize) {first second : Bytes}
    (hl : second.length = first.length) (hwf : isWellFormed first.length nsym = true)
    {p : Nat → Bytes}
    (hp : ∀ j < codewordCount first.length, choose codec [first, second] nsym j = some (p j) ∧
      (p j).length + nsym = (codewordAt first j).length) :
    (repairFromCopies codec [first, second] nsym).data =
      some ((List.range (codewordCount first.length)).flatMap p) := by
  have hwf' : isWellFormed second.length nsym = true := hl ▸ hwf
  have hsame : ¬ (([first, second].any fun copy => copy.length != first.length) ||
      !isWellFormed first.length nsym) = true := by
    simp [hl, hwf]
  -- every piece is as long as the slice it replaces
  have hlen : ∀ j < codewordCount first.length, (p j).length = min (messageLength nsym)
      (((stripParity first nsym).getD []).length - j * messageLength nsym) := by
    intro j hj
    have h1 := congrArg List.length (slice_stripParity hn _ hwf _ hj)
    rw [slice_length, messageOf_length] at h1
    have h2 := (hp j hj).2
    omega
  have hall : ((stripParity first nsym).getD []).length ≤
      (0 + codewordCount first.length) * messageLength nsym := by
    have hle : ∀ w ∈ pieces codewordSize first,
        (messageOf nsym w).length ≤ messageLength nsym := fun w hw =>
      messageOf_length_le w ((cut_pieces (by decide) first).length_le w hw)
    rw [stripParity, if_pos hwf, Option.getD_some, List.length_flatMap, Nat.zero_add]
    refine (List.sum_le_card_nsmul _ (messageLength nsym) ?_).trans (le_of_eq ?_)
    · intro n hlen
      obtain ⟨w, hw, rfl⟩ := List.mem_map.mp hlen
      exact hle w hw
    · rw [List.length_map, pieces, List.length_map, List.length_range]
      rfl
  rw [repairFromCopies, if_neg hsame, List.range_eq_range']
  refine (repairFrom_data _ ∅ false (fun j _ hj => ⟨(hp j (by omega)).1, hlen j (by omega)⟩)
    ?_ hall).trans ?_
  · intro j _ hj source hfind
    have hchosen := (hp j (by omega)).1
    rw [choose, hfind] at hchosen
    rw [← Option.some.inj hchosen]
    have hsource : source < 2 := (List.findIdx?_eq_some_iff_getElem.mp hfind).1
    obtain rfl | rfl : source = 0 ∨ source = 1 := by omega
    · exact slice_stripParity hn _ hwf _ (by omega)
    · exact slice_stripParity hn _ hwf' _ (by rw [hl]; omega)
  · simp

/-! ## 3. Which message is taken -/

/-- Of the two stored words of the codeword of `m`, the one that is taken belongs to another message:
    the first one that is a codeword, or else the first one, if another codeword is near it. -/
def Misleads (nsym : Nat) (m first second : Bytes) : Prop :=
  if consistent nsym first then first ≠ codeword nsym m
  else if consistent nsym second then second ≠ codeword nsym m
  else ∃ m', m' ≠ m ∧ m'.length = m.length ∧ hamming first (codeword nsym m') ≤ nsym / 2

section Taken

variable {m : Bytes} {word : Bytes}

/-- A consistent word of the right length belongs to `m` exactly when it is its codeword. -/
theorem messageOf_eq_iff (hm : m.length ≤ messageLength nsym) (hn : nsym < codewordSize)
    (hl : word.length = m.length + nsym) (hc : consistent nsym word = true) :
    messageOf nsym word = m ↔ word = codeword nsym m := by
  have ha := messageLength_add hn
  rw [consistent_iff (by omega)] at hc
  constructor
  · intro he
    rw [hc, he]
  · rintro rfl
    exact messageOf_codeword hm

/-- **A codeword that is near in one of its copies** is recovered exactly when the word that is taken
    does not belong to another message. -/
theorem choose_of_near (hcodec : codec.BoundedDistance) (hn : nsym < codewordSize)
    {first second : Bytes} {index : Nat} (hm : m.length ≤ messageLength nsym)
    (hf : (codewordAt first index).length = m.length + nsym)
    (hs : (codewordAt second index).length = m.length + nsym)
    (hnear : hamming (codewordAt first index) (codeword nsym m) ≤ nsym / 2 ∨
      hamming (codewordAt second index) (codeword nsym m) ≤ nsym / 2) :
    ∃ piece, choose codec [first, second] nsym index = some piece ∧ piece.length = m.length ∧
      (piece = m ↔ ¬ Misleads nsym m (codewordAt first index) (codewordAt second index)) := by
  have ha := messageLength_add hn
  set a := codewordAt first index with hA
  set b := codewordAt second index with hB
  have hdecode : ∀ word : Bytes, word.length = m.length + nsym → ∀ piece,
      decodeCodeword codec word nsym [] = some piece ↔
        piece.length = m.length ∧ hamming word (codeword nsym piece) ≤ nsym / 2 := by
    intro word hw piece
    rw [decodeCodeword, hcodec nsym hn word (by omega) piece, hw, Nat.add_right_cancel_iff]
  rw [Misleads]
  by_cases hca : consistent nsym a = true
  · have hfind : [first, second].findIdx?
        (fun copy => consistent nsym (codewordAt copy index)) = some 0 := by
      simp [List.findIdx?_cons, ← hA, hca]
    refine ⟨messageOf nsym a, by rw [choose, hfind]; rfl, by rw [messageOf_length]; omega, ?_⟩
    rw [if_pos hca, not_not]
    exact messageOf_eq_iff hm hn hf hca
  · by_cases hcb : consistent nsym b = true
    · have hfind : [first, second].findIdx?
          (fun copy => consistent nsym (codewordAt copy index)) = some 1 := by
        simp [List.findIdx?_cons, ← hA, ← hB, hca, hcb]
      refine ⟨messageOf nsym b, by rw [choose, hfind]; rfl, by rw [messageOf_length]; omega, ?_⟩
      rw [if_neg hca, if_pos hcb, not_not]
      exact messageOf_eq_iff hm hn hs hcb
    · have hfind : [first, second].findIdx?
          (fun copy => consistent nsym (codewordAt copy index)) = none := by
        simp [List.findIdx?_cons, ← hA, ← hB, hca, hcb]
      rw [if_neg hca, if_neg hcb]
      cases hd : decodeCodeword codec a nsym [] with
      | some piece =>
        obtain ⟨hlen, hclose⟩ := (hdecode a hf piece).mp hd
        refine ⟨piece, ?_, hlen, ?_⟩
        · rw [choose, hfind]
          simp only [List.map_cons, List.map_nil, decodeAny, firstDecoded, ← hA, hd, Option.map_some]
        · constructor
          · rintro rfl ⟨m', hne, hl', hd'⟩
            have h' := (hdecode a hf m').mpr ⟨hl', hd'⟩
            rw [hd] at h'
            exact hne (Option.some.inj h').symm
          · intro hno
            by_contra hne
            exact hno ⟨piece, hne, hlen, hclose⟩
      | none =>
        -- the first word is near no codeword, so the second one is near that of `m`
        have hno : ∀ m', m'.length = m.length → ¬ hamming a (codeword nsym m') ≤ nsym / 2 := by
          intro m' hl' hd'
          have h' := (hdecode a hf m').mpr ⟨hl', hd'⟩
          rw [hd] at h'
          cases h'
        have hb : decodeCodeword codec b nsym [] = some m :=
          (hdecode b hs m).mpr ⟨rfl, hnear.resolve_left (hno m rfl)⟩
        refine ⟨m, ?_, rfl, iff_of_true rfl ?_⟩
        · rw [choose, hfind]
          simp only [List.map_cons, List.map_nil, decodeAny, firstDecoded, ← hA, ← hB, hd, hb,
            Option.map_some]
        · rintro ⟨m', -, hl', hd'⟩
          exact hno m' hl' hd'

end Taken

/-! ## 4. A repaired block -/

/-- Codeword `j` of a block, and its message. -/
def messageAt (nsym : Nat) (data : Bytes) (j : Nat) : Bytes :=
  slice data (j * messageLength nsym) (messageLength nsym)

theorem codewordCount_encode (hn : nsym < codewordSize) (data : Bytes) :
    codewordCount (encode data nsym).length = (messages nsym data).length := by
  have h := congrArg List.length (pieces_encode hn data)
  rwa [pieces, List.length_map, List.length_range, List.length_map] at h

theorem messages_eq_map (nsym : Nat) (data : Bytes) : messages nsym data =
    (List.range (messages nsym data).length).map (messageAt nsym data) := by
  rw [messages, pieces, List.length_map, List.length_range]
  rfl

theorem messages_getElem? {data : Bytes} {j : Nat} (hj : j < (messages nsym data).length) :
    (messages nsym data)[j]? = some (messageAt nsym data j) := by
  rw [messages, pieces, List.length_map, List.length_range] at hj
  exact pieces_getElem? hj

theorem codewordAt_encode (hn : nsym < codewordSize) {data : Bytes} {j : Nat}
    (hj : j < (messages nsym data).length) :
    codewordAt (encode data nsym) j = codeword nsym (messageAt nsym data j) := by
  have hg : (pieces codewordSize (encode data nsym))[j]? =
      some (codeword nsym (messageAt nsym data j)) := by
    rw [pieces_encode hn, List.getElem?_map, messages_getElem? hj]
    rfl
  rw [pieces_getElem? (by rw [← codewordCount_encode hn data] at hj; exact hj)] at hg
  exact Option.some.inj hg

/-- The two stored copies of a block: as long as what was written, and every codeword near in one. -/
structure Near (nsym : Nat) (data first second : Bytes) : Prop where
  first_length : first.length = (encode data nsym).length
  second_length : second.length = (encode data nsym).length
  near : ∀ j < (messages nsym data).length,
    hamming (codewordAt first j) (codewordAt (encode data nsym) j) ≤ nsym / 2 ∨
      hamming (codewordAt second j) (codewordAt (encode data nsym) j) ≤ nsym / 2

/-- **A repair of near copies returns a block**, and the one that was written exactly when no codeword
    misleads. -/
theorem repairFromCopies_of_near (hcodec : codec.BoundedDistance) (hn : nsym < codewordSize)
    {data first second : Bytes} (h : Near nsym data first second) :
    ∃ repaired, (repairFromCopies codec [first, second] nsym).data = some repaired ∧
      (repaired = data ↔ ∀ j < (messages nsym data).length,
        ¬ Misleads nsym (messageAt nsym data j) (codewordAt first j) (codewordAt second j)) := by
  have hwf : isWellFormed first.length nsym = true := by
    rw [h.first_length, encode_length hn]
    exact isWellFormed_encodedLength hn _
  have hcount : codewordCount first.length = (messages nsym data).length := by
    rw [h.first_length, codewordCount_encode hn]
  have hm : ∀ j < (messages nsym data).length,
      (messageAt nsym data j).length ≤ messageLength nsym := fun j _ => slice_length_le _ _ _
  have hlen : ∀ copy : Bytes, copy.length = (encode data nsym).length →
      ∀ j < (messages nsym data).length,
        (codewordAt copy j).length = (messageAt nsym data j).length + nsym := by
    intro copy hcopy j hj
    rw [codewordAt, slice_length, hcopy, ← slice_length, ← codewordAt, codewordAt_encode hn hj,
      codeword_length (hm j hj)]
  have hex : ∀ j, ∃ piece, j < (messages nsym data).length →
      choose codec [first, second] nsym j = some piece ∧
      piece.length = (messageAt nsym data j).length ∧ (piece = messageAt nsym data j ↔
        ¬ Misleads nsym (messageAt nsym data j) (codewordAt first j) (codewordAt second j)) := by
    intro j
    by_cases hj : j < (messages nsym data).length
    · have hnear := h.near j hj
      rw [codewordAt_encode hn hj] at hnear
      obtain ⟨piece, hp⟩ := choose_of_near hcodec hn (hm j hj) (hlen first h.first_length j hj)
        (hlen second h.second_length j hj) hnear
      exact ⟨piece, fun _ => hp⟩
    · exact ⟨[], fun hlt => absurd hlt hj⟩
  choose p hp using hex
  have hdata := repairFromCopies_data hn (h.second_length.trans h.first_length.symm) hwf
    (p := p) fun j hj => by
      obtain ⟨h1, h2, -⟩ := hp j (hcount ▸ hj)
      exact ⟨h1, by rw [h2, hlen first h.first_length j (hcount ▸ hj)]⟩
  refine ⟨_, hdata, ?_⟩
  -- pieces of the right lengths spell the block exactly when each of them is its message
  have hspell : ((List.range (messages nsym data).length).map (messageAt nsym data)).flatten =
      data := by
    rw [← messages_eq_map, messages_flatten hn]
  rw [hcount, List.flatMap_def]
  constructor
  · intro he j hj
    have hlist := List.eq_iff_flatten_eq.mpr ⟨he.trans hspell.symm, by
      rw [List.map_map, List.map_map]
      exact List.map_congr_left fun j hj => (hp j (List.mem_range.mp hj)).2.1⟩
    exact ((hp j hj).2.2).mp (List.map_inj_left.mp hlist j (List.mem_range.mpr hj))
  · intro hno
    refine Eq.trans (congrArg List.flatten (List.map_congr_left fun j hj => ?_)) hspell
    exact ((hp j (List.mem_range.mp hj)).2.2).mpr (hno j (List.mem_range.mp hj))

/-- Where every codeword is consistent in a copy nothing is decoded. -/
theorem repairFrom_decoded {copies stripped : List Bytes} {l : List Nat}
    (h : ∀ j ∈ l, ∃ source,
      (copies.findIdx? fun copy => consistent nsym (codewordAt copy j)) = some source)
    (repaired : Bytes) (used : Finset Nat) (decoded : Bool) :
    (repairFrom codec copies stripped nsym l repaired used decoded).decoded = decoded := by
  induction l generalizing repaired used with
  | nil => rfl
  | cons j l ih =>
    obtain ⟨source, hfind⟩ := h j List.mem_cons_self
    rw [repairFrom]
    simp only [hfind]
    exact ih (fun i hi => h i (List.mem_cons_of_mem _ hi)) _ _

/-- **Two encoded copies of a block** are joined to it, and nothing is decoded. -/
theorem repairFromCopies_encode (codec : Codec) (hn : nsym < codewordSize) (data : Bytes) :
    (repairFromCopies codec [encode data nsym, encode data nsym] nsym).data = some data ∧
      (repairFromCopies codec [encode data nsym, encode data nsym] nsym).decoded = false := by
  have hwf : isWellFormed (encode data nsym).length nsym = true := by
    rw [encode_length hn]
    exact isWellFormed_encodedLength hn _
  have hm : ∀ j, (messageAt nsym data j).length ≤ messageLength nsym := fun j =>
    slice_length_le _ _ _
  have hfind : ∀ j < codewordCount (encode data nsym).length,
      ([encode data nsym, encode data nsym].findIdx? fun copy =>
        consistent nsym (codewordAt copy j)) = some 0 := by
    intro j hj
    rw [codewordCount_encode hn] at hj
    rw [List.findIdx?_cons, codewordAt_encode hn hj, consistent_codeword (hm j), if_pos rfl]
  constructor
  · rw [repairFromCopies_data hn rfl hwf (p := messageAt nsym data), codewordCount_encode hn,
      List.flatMap_def, ← messages_eq_map, messages_flatten hn]
    intro j hj
    rw [choose, hfind j hj]
    rw [codewordCount_encode hn] at hj
    rw [codewordAt_encode hn hj, codeword_length (hm j)]
    refine ⟨?_, rfl⟩
    show some (messageOf nsym (codewordAt (encode data nsym) j)) = _
    rw [codewordAt_encode hn hj, messageOf_codeword (hm j)]
  · have hsame : ¬ (([encode data nsym, encode data nsym].any fun copy =>
        copy.length != (encode data nsym).length) || !isWellFormed (encode data nsym).length nsym) =
          true := by
      simp [hwf]
    rw [repairFromCopies, if_neg hsame]
    exact repairFrom_decoded (fun j hj => ⟨0, hfind j (List.mem_range.mp hj)⟩) _ _ _

end Dbs.Rs

/-
  File:      Dbs/Container/Opened.lean
  Subject:   OPENING A CONTAINER: when the reader finds the header, the number of blocks and the trailer
             of what was written.

  * `locateHeader_front`, `locateHeader_back` -- either copy of the header is enough;
  * `readTrailers_found`, `readTrailers_none` -- either copy of the trailer;
  * `locateEnd_of_trailer`, `locateEnd_of_scan` -- the end is where a trailer or the scan says.
-/
import Dbs.Container.Resolve

namespace Dbs

open Octets Effects Struct

variable {P : Primitives} {c : Contents} {D : Bytes}

/-! ## 1. The header -/

theorem verifiedHeaderCopy_seal (h : StreamHeader) :
    verifiedHeaderCopy P (h.seal P) = some (h.seal P) := by
  have ho := h.open_seal P []
  rw [List.append_nil] at ho
  rw [verifiedHeaderCopy, ho]
  rfl

/-- A header copy that verifies decides the header. -/
theorem parse_chosen (h : StreamHeader) :
    StreamHeader.parse (((openSealedHeader P (h.seal P)).map (·.2)).getD []) = .ok h := by
  have ho := h.open_seal P []
  rw [List.append_nil] at ho
  rw [ho]
  exact h.parse_packBody

variable {h : StreamHeader}

theorem locateHeader_front (hf : readAt D 0 headerSize = h.seal P) :
    ∃ damaged, locateHeader P D = .ok (h, damaged) := by
  have hs : ∀ rest : List Nat, (((0 :: rest).map fun offset =>
      verifiedHeaderCopy P (readAt D offset headerSize)).findSome? id) = some (h.seal P) := by
    intro rest
    rw [List.map_cons, hf, verifiedHeaderCopy_seal]
    rfl
  rw [locateHeader]
  simp only [hs, parse_chosen]
  exact ⟨_, rfl⟩

theorem locateHeader_back (hl : 2 * headerSize ≤ D.length)
    (hf : verifiedHeaderCopy P (readAt D 0 headerSize) = none)
    (hb : readAt D (D.length - headerSize) headerSize = h.seal P) :
    ∃ damaged, locateHeader P D = .ok (h, damaged) := by
  have hs : ([0, D.length - headerSize].map fun offset =>
      verifiedHeaderCopy P (readAt D offset headerSize)).findSome? id = some (h.seal P) := by
    rw [List.map_cons, List.map_cons, hf, hb, verifiedHeaderCopy_seal]
    rfl
  rw [locateHeader]
  simp only [if_pos hl, hs, parse_chosen]
  exact ⟨_, rfl⟩

/-- Two intact copies: nothing is damaged. -/
theorem locateHeader_both (hl : 2 * headerSize ≤ D.length) (hf : readAt D 0 headerSize = h.seal P)
    (hb : readAt D (D.length - headerSize) headerSize = h.seal P) :
    locateHeader P D = .ok (h, []) := by
  rw [locateHeader]
  simp only [if_pos hl, List.map_cons, List.map_nil, hf, hb, verifiedHeaderCopy_seal,
    List.findSome?_cons, id, parse_chosen]
  simp [bind, Except.bind, pure, Except.pure]

/-! ## 2. The trailer -/

variable {header : StreamHeader} {t : StreamTrailer}

/-- One copy of the trailer is there. -/
theorem readTrailers_found (ht : t.Fitting header)
    {start : Nat} (hs : headerSize ≤ start) (agrees : StreamTrailer → Bool) (ha : agrees t = true)
    (h : ∀ k < 2, readAt D (start + k * trailerSize) trailerSize = t.seal P ∨
      StreamTrailer.open P (readAt D (start + k * trailerSize) trailerSize) header = none)
    (h' : ∃ k < 2, readAt D (start + k * trailerSize) trailerSize = t.seal P) :
    ∃ damaged, readTrailers P D header start agrees = (some t, damaged) := by
  have hopen : (StreamTrailer.open P (t.seal P) header).filter agrees = some t := by
    rw [StreamTrailer.open_seal P ht, Option.filter_some, if_pos ha]
  have hk : ∀ k < 2, (StreamTrailer.open P (readAt D (start + k * trailerSize) trailerSize)
      header).filter agrees = some t ∨ (StreamTrailer.open P
        (readAt D (start + k * trailerSize) trailerSize) header).filter agrees = none := by
    intro k hk
    rcases h k hk with h | h
    · rw [h]; exact Or.inl hopen
    · rw [h]; exact Or.inr rfl
  have hfound : ([1, 2].map fun number => (StreamTrailer.open P
      (readAt D (start + (number - 1) * trailerSize) trailerSize) header).filter
        agrees).findSome? id = some t := by
    simp only [List.map_cons, List.map_nil, List.findSome?_cons, id]
    rcases hk 0 (by omega) with h0 | h0
    · rw [h0]
    · obtain ⟨k, hlt, hki⟩ := h'
      rw [h0]
      rcases hk 1 (by omega) with h1 | h1
      · rw [h1]
      · have hnone : (StreamTrailer.open P (readAt D (start + k * trailerSize) trailerSize)
            header).filter agrees = none := by
          obtain rfl | rfl : k = 0 ∨ k = 1 := by omega
          · exact h0
          · exact h1
        rw [hki, hopen] at hnone
        cases hnone
  rw [readTrailers, if_neg (by omega)]
  simp only [hfound]
  exact ⟨_, rfl⟩

theorem readTrailers_both (ht : t.Fitting header)
    {start : Nat} (hs : headerSize ≤ start) (agrees : StreamTrailer → Bool) (ha : agrees t = true)
    (h : ∀ k < 2, readAt D (start + k * trailerSize) trailerSize = t.seal P) :
    readTrailers P D header start agrees = (some t, []) := by
  have hopen : (StreamTrailer.open P (t.seal P) header).filter agrees = some t := by
    rw [StreamTrailer.open_seal P ht, Option.filter_some, if_pos ha]
  have h0 := h 0 (by omega)
  have h1 := h 1 (by omega)
  rw [readTrailers, if_neg (by omega)]
  simp only [List.map_cons, List.map_nil, Nat.sub_self, Nat.add_one_sub_one, h0, h1, hopen,
    List.findSome?_cons, id]
  simp

theorem readTrailers_none {start : Nat} (agrees : StreamTrailer → Bool)
    (h : ∀ k < 2, StreamTrailer.open P (readAt D (start + k * trailerSize) trailerSize) header =
      none) : readTrailers P D header start agrees = (none, []) := by
  have h0 := h 0 (by omega)
  have h1 := h 1 (by omega)
  rw [readTrailers]
  split
  · rfl
  · simp only [List.map_cons, List.map_nil, Nat.sub_self, Nat.add_one_sub_one, h0, h1,
      List.findSome?_cons, id]
    rfl

/-! ## 3. The end -/

theorem locateEnd_of_trailer {damaged : List String}
    (h : readTrailers P D header (D.length - headerSize - 2 * trailerSize)
      (fun found => header.layout.containerSize found.blocks == D.length) = (some t, damaged)) :
    locateEnd P D header = .ok (some t, t.blocks, damaged) := by
  unfold locateEnd
  simp only [h]
  rfl

/-- Without a trailer where the size puts it, the scan and the place behind the slots decide. -/
theorem locateEnd_of_scan {count : Nat}
    (h : (readTrailers P D header (D.length - headerSize - 2 * trailerSize)
      (fun found => header.layout.containerSize found.blocks == D.length)).1 = none)
    (hs : scanBlockCount P D header.layout = .ok count) :
    locateEnd P D header = match readTrailers P D header
        (headerSize + 2 * count * header.layout.slotSize) (fun found => found.blocks == count) with
      | (some trailer, damaged) => .ok (some trailer, count, damaged)
      | (none, _) => .ok (none, count, ["trailer (both copies)"]) := by
  cases hr : readTrailers P D header (D.length - headerSize - 2 * trailerSize)
      (fun found => header.layout.containerSize found.blocks == D.length) with
  | mk t damaged =>
    rw [hr] at h
    obtain rfl : t = none := h
    cases hsecond : readTrailers P D header (headerSize + 2 * count * header.layout.slotSize)
        (fun found => found.blocks == count) with
    | mk t d =>
      unfold locateEnd
      cases t <;> simp [hr, hs, hsecond, bind, Except.bind, pure, Except.pure]

end Dbs

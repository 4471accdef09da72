/-
  File:      Dbs/Container/TailSearch.lean
  Subject:   FINDING A SEALED HEADER AT THE END OF A FILE (container/format.py): the search a reader
             of the first format makes, and the codecs of the metadata it finds.

  * `rfind`, `verifiedSealedTail` -- the search, from the last magic to the first;
  * `verifiedHeaders` -- every header that verifies, of either format;
  * `CollisionFree` -- no shorter end of the sealed bytes has their checksum;
  * `verifiedSealedTail_append` -- the sealed header is found whatever precedes it;
  * `metadata_codecs` -- the codecs in both directions, and the search.
-/
import Dbs.Container.Reader

namespace Dbs

open Octets Struct

/-! ## 1. The first format's header -/

/-- `>8sHHIQQQ16s8x`. -/
def v1HeaderFields : Format :=
  [.raw 8, .uint 2, .uint 2, .uint 4, .uint 8, .uint 8, .uint 8, .raw 16, .pad 8]

def v1HeaderSize : Nat := 64

structure V1Header where
  version : Nat
  flags : Nat
  blockSize : Nat
  manifestOffset : Nat
  manifestLen : Nat
  manifestDupOffset : Nat
  manifestHash : Bytes

def parseV1Header (raw : Bytes) : Option V1Header :=
  if raw.length < v1HeaderSize then none
  else
    let (found, version, flags, blockSize, manifestOffset, manifestLen, manifestDupOffset,
      manifestHash, ()) := fields v1HeaderFields (raw.take v1HeaderSize)
    if found ≠ magic then none
    else
      some { version, flags, blockSize, manifestOffset, manifestLen, manifestDupOffset, manifestHash }

/-- A header of the first format whose manifest stands where the writer puts it. -/
def v1Layout (raw : Bytes) (size : Nat) : Option V1Header :=
  (parseV1Header raw).filter fun header => header.version == v1FormatVersion &&
    header.manifestOffset == v1HeaderSize &&
    header.manifestDupOffset == v1HeaderSize + header.manifestLen &&
    decide (v1HeaderSize + header.manifestLen ≤ size)

/-! ## 2. Headers that verify -/

/-- `μ` are the manifests of the first format: the JSON objects its bytes decode to. -/
structure VerifiedHeader (μ : Type) where
  version : Nat
  offset : Nat
  raw : Bytes
  body : Bytes := []
  header : Option V1Header := none
  manifest : Option μ := none

variable (P : Primitives) {μ : Type} (decodeManifest : Bytes → Option μ)

def manifestHash (manifest : Bytes) : Bytes := P.blake2b 16 [] [] manifest

/-- A header of the first format with either copy of its manifest. -/
def verifiedV1 (source : Bytes) (offset : Nat) : Option (VerifiedHeader μ) :=
  let raw := readAt source offset v1HeaderSize
  match v1Layout raw source.length with
  | none => none
  | some header =>
    [v1HeaderSize, v1HeaderSize + header.manifestLen].findSome? fun manifestOffset =>
      let candidate := readAt source manifestOffset header.manifestLen
      if candidate.length ≠ header.manifestLen ∨
        manifestHash P candidate ≠ header.manifestHash then none
      else (decodeManifest candidate).map fun manifest =>
        { version := v1FormatVersion, offset, raw, header, manifest }

def verifiedSealedFront (source : Bytes) : Option (VerifiedHeader μ) :=
  let raw := readAt source 0 sealedMaxSize
  (openSealedHeader P raw).map fun (version, body) =>
    { version, offset := 0, body,
      raw := raw.take (sealedPrefixSize + body.length + sealedChecksumSize) }

/-- `data.rfind(pattern, 0, stop)`, where the last place it may begin is in front of `places`. -/
def rfindBelow (pattern data : Bytes) : (places : Nat) → Option Nat
  | 0 => none
  | position + 1 =>
    if slice data position pattern.length = pattern then some position
    else rfindBelow pattern data position

/-- `data.rfind(pattern, 0, stop)`. -/
def rfind (pattern data : Bytes) (stop : Nat) : Option Nat :=
  rfindBelow pattern data (min stop data.length + 1 - pattern.length)

theorem rfindBelow_some {pattern data : Bytes} {places position : Nat}
    (h : rfindBelow pattern data places = some position) :
    position < places ∧ slice data position pattern.length = pattern := by
  induction places with
  | zero => cases h
  | succ n ih =>
    rw [rfindBelow] at h
    split at h
    · rename_i hs
      cases h
      exact ⟨Nat.lt_succ_self _, hs⟩
    · obtain ⟨hlt, hs⟩ := ih h
      exact ⟨Nat.lt_succ_of_lt hlt, hs⟩

/-- The last place is found. -/
theorem rfindBelow_ge {pattern data : Bytes} {places q : Nat} (hq : q < places)
    (hs : slice data q pattern.length = pattern) :
    ∃ position, rfindBelow pattern data places = some position ∧ q ≤ position := by
  induction places with
  | zero => omega
  | succ n ih =>
    rw [rfindBelow]
    split
    · exact ⟨n, rfl, by omega⟩
    · rename_i hn
      have hne : q ≠ n := by
        rintro rfl
        exact hn hs
      exact ih (by omega)

theorem rfind_magic_lt {data : Bytes} {stop position : Nat}
    (h : rfind magic data stop = some position) :
    position + 8 ≤ stop ∧ position + 8 ≤ data.length := by
  have hlt := (rfindBelow_some h).1
  have hl : magic.length = 8 := by decide
  rw [hl] at hlt
  omega

/-- The turns of the search that are left in front of `stop`. -/
def searchTail (start : Nat) (tail : Bytes) (stop : Nat) : Option (VerifiedHeader μ) :=
  match _h : rfind magic tail stop with
  | none => none
  | some position =>
    match openSealedHeader P (tail.drop position) with
    | none => searchTail start tail position
    | some (version, body) =>
      if sealedPrefixSize + body.length + sealedChecksumSize = tail.length - position then
        some { version, offset := start + position, raw := tail.drop position, body }
      else searchTail start tail position
termination_by stop
decreasing_by
  all_goals exact Nat.lt_of_lt_of_le (Nat.lt_add_of_pos_right (by decide)) (rfind_magic_lt _h).1

/-- The last sealed header that ends with the file. -/
def verifiedSealedTail (source : Bytes) : Option (VerifiedHeader μ) :=
  let span := min source.length sealedMaxSize
  let start := source.length - span
  let tail := readAt source start span
  searchTail P start tail tail.length

/-- Every header that verifies, in the order a reader tries them. -/
def verifiedHeaders (source : Bytes) : List (VerifiedHeader μ) :=
  (verifiedV1 P decodeManifest source 0).toList ++ (verifiedSealedFront P source).toList ++
    (if 2 * v1HeaderSize ≤ source.length then
      (verifiedV1 P decodeManifest source (source.length - v1HeaderSize)).toList else []) ++
    ((verifiedSealedTail P source).filter fun tail => decide (0 < tail.offset)).toList

/-! ## 3. The search -/

section Search

variable {P}

/-- No shorter end of the sealed bytes has the same checksum. -/
def CollisionFree (P : Primitives) (unsealed : Bytes) : Prop :=
  ∀ k, sealedChecksum P (unsealed.drop k) = sealedChecksum P unsealed → unsealed.drop k = unsealed

/-- The part of a sealed header under its checksum. -/
def unsealedPart (sealedHeader : Bytes) : Bytes :=
  sealedHeader.take (sealedHeader.length - sealedChecksumSize)

/-- Two places of the magic do not overlap. -/
theorem magic_apart {data : Bytes} {q p : Nat} (hq : slice data q 8 = magic)
    (hp : slice data p 8 = magic)
    (hlt : q < p) : q + 8 ≤ p := by
  by_contra hgt
  obtain ⟨k, rfl⟩ : ∃ k, p = q + k := ⟨p - q, by omega⟩
  have hover : magic.drop k = magic.take (8 - k) := by
    have h1 : magic.drop k = slice data (q + k) (8 - k) := by rw [← hq, drop_slice]
    have h2 : magic.take (8 - k) = slice data (q + k) (8 - k) := by
      rw [← hp, take_slice, Nat.min_eq_left (by omega)]
    rw [h1, h2]
  have hnone : ∀ k < 8, 0 < k → magic.drop k ≠ magic.take (8 - k) := by decide
  exact hnone k (by omega) (by omega) hover

theorem sealedBytes_magic (version : Nat) (body : Bytes) :
    slice (sealedBytes P version body) 0 8 = magic := by
  have hl : (magic.take 8 ++ zeros (8 - magic.length)).length = 8 := by decide
  rw [sealedBytes, slice_zero, List.append_assoc]
  show (((magic.take 8 ++ zeros (8 - magic.length)) ++ _) ++ _).take 8 = magic
  rw [List.append_assoc, List.take_left' hl]
  decide

theorem unsealedPart_sealedBytes (version : Nat) (body : Bytes) :
    sealedBytes P version body = unsealedPart (sealedBytes P version body) ++
      sealedChecksum P (unsealedPart (sealedBytes P version body)) := by
  have hu : unsealedPart (sealedBytes P version body) = pack sealedPrefix (prefixValues version
      (sealedPrefixSize + body.length + sealedChecksumSize)) ++ body := by
    rw [unsealedPart, sealedBytes_length, Nat.add_sub_cancel, sealedBytes]
    exact List.take_left' (unsealed_length version body)
  rw [hu]
  rfl

/-- **Nothing behind its beginning opens**: an end of the sealed bytes that reaches to their end and
    opens is all of them. -/
theorem drop_opens {version v : Nat} {body b : Bytes} {k : Nat}
    (hfree : CollisionFree P (unsealedPart (sealedBytes P version body)))
    (hopen : openSealedHeader P ((sealedBytes P version body).drop k) = some (v, b))
    (hend : sealedPrefixSize + b.length + sealedChecksumSize =
      ((sealedBytes P version body).drop k).length) : k = 0 := by
  obtain ⟨-, -, -, htake⟩ := openSealedHeader_some hopen
  rw [hend, List.take_length] at htake
  set whole := sealedBytes P version body with hwhole
  have hl : whole.length = (unsealedPart whole).length + sealedChecksumSize := by
    conv_lhs => rw [hwhole, unsealedPart_sealedBytes]
    rw [List.length_append, ← hwhole, sealedChecksum, P.blake2b_length]
  have hl' : (sealedBytes P v b).length = (unsealedPart (sealedBytes P v b)).length +
      sealedChecksumSize := by
    conv_lhs => rw [unsealedPart_sealedBytes]
    rw [List.length_append, sealedChecksum, P.blake2b_length]
  have hlen : whole.length - k = (sealedBytes P v b).length := by rw [← htake, List.length_drop]
  have hk : k ≤ (unsealedPart whole).length := by
    rw [sealedBytes_length v b] at hlen
    have : 1 ≤ sealedPrefixSize := by decide
    omega
  -- both consist of what is sealed and its checksum
  have hsplit : (unsealedPart whole).drop k ++ sealedChecksum P (unsealedPart whole) =
      unsealedPart (sealedBytes P v b) ++ sealedChecksum P (unsealedPart (sealedBytes P v b)) := by
    rw [← unsealedPart_sealedBytes, ← htake, ← List.drop_append_of_le_length hk]
    congr 1
    exact (unsealedPart_sealedBytes version body).symm
  obtain ⟨hunsealed, hchecksum⟩ := List.append_inj hsplit (by rw [List.length_drop]; omega)
  have hsame := hfree k (by rw [hunsealed]; exact hchecksum.symm)
  have := congrArg List.length hsame
  rw [List.length_drop] at this
  have hpos : 0 < (unsealedPart whole).length := by
    rw [sealedBytes_length] at hl
    unfold sealedPrefixSize sealedChecksumSize at hl
    omega
  omega

/-- **The search comes to the sealed header**, from every place behind its magic. -/
theorem searchTail_append {version : Nat} {body : Bytes} (hv : v1FormatVersion < version)
    (hfits : version < 2 ^ 16)
    (hl : sealedPrefixSize + body.length + sealedChecksumSize ≤ sealedMaxSize)
    (hfree : CollisionFree P (unsealedPart (sealedBytes P version body))) (front : Bytes) (start : Nat)
    {stop : Nat} (hstop : front.length + 8 ≤ stop) :
    searchTail P start (front ++ sealedBytes P version body) stop =
      some ({ version, offset := start + front.length, raw := sealedBytes P version body, body } :
        VerifiedHeader μ) := by
  have hbytes : (sealedBytes P version body).length =
      sealedPrefixSize + body.length + sealedChecksumSize := sealedBytes_length version body
  have hq : slice (front ++ sealedBytes P version body) front.length 8 = magic := by
    rw [slice_append_right _ _ _ le_rfl, Nat.sub_self]
    exact sealedBytes_magic version body
  have hml : magic.length = 8 := by decide
  induction stop using Nat.strong_induction_on with
  | _ stop ih =>
    have hplaces : front.length < min stop (front ++ sealedBytes P version body).length + 1 -
        magic.length := by
      rw [hml, List.length_append, hbytes]
      unfold sealedPrefixSize sealedChecksumSize
      omega
    obtain ⟨position, hfind, hge⟩ := rfindBelow_ge hplaces (by rw [hml]; exact hq)
    have hfind' : rfind magic (front ++ sealedBytes P version body) stop = some position := hfind
    have hp := (rfindBelow_some hfind).2
    have hlt := (rfind_magic_lt hfind').1
    rw [hml] at hp
    rw [searchTail]
    split
    · rename_i h
      rw [hfind'] at h
      cases h
    · rename_i p h
      rw [hfind', Option.some.injEq] at h
      subst h
      rcases Nat.eq_or_lt_of_le hge with rfl | hgt
      · -- the header itself
        have hdrop : (front ++ sealedBytes P version body).drop front.length =
            sealedBytes P version body := List.drop_left' rfl
        have hopen := open_sealedBytes (P := P) hv hfits hl []
        rw [List.append_nil] at hopen
        rw [hdrop, hopen]
        simp only
        rw [if_pos (by rw [List.length_append, hbytes]; omega)]
      · -- a magic inside of it
        have hagain := ih position (by omega) (magic_apart hq hp hgt)
        have hdrop : (front ++ sealedBytes P version body).drop position =
            (sealedBytes P version body).drop (position - front.length) := by
          rw [List.drop_append, List.drop_of_length_le hge, List.nil_append]
        split
        · exact hagain
        · rename_i v b hopen
          rw [if_neg]
          · exact hagain
          · intro hend
            rw [hdrop] at hopen
            have hzero := drop_opens hfree hopen (by
              rw [hend, List.length_drop, List.length_append]
              omega)
            omega

theorem tail_span (a : Nat) {b n : Nat} (h : b ≤ n) :
    a + b - min (a + b) n ≤ a ∧ a - (a + b - min (a + b) n) + b ≤ min (a + b) n := by
  omega

/-- **The sealed header is found** at the end, whatever precedes it. -/
theorem verifiedSealedTail_append {version : Nat} {body sealedHeader : Bytes}
    (hs : sealHeader P version body = .ok sealedHeader) (hfits : version < 2 ^ 16)
    (hfree : CollisionFree P (unsealedPart sealedHeader)) (front : Bytes) :
    verifiedSealedTail P (front ++ sealedHeader) =
      some ({ version, offset := front.length, raw := sealedHeader, body } : VerifiedHeader μ) := by
  obtain ⟨hv, hl, rfl⟩ := sealHeader_eq_ok.mp hs
  have hbytes : (sealedBytes P version body).length =
      sealedPrefixSize + body.length + sealedChecksumSize := sealedBytes_length version body
  set whole := sealedBytes P version body with hwhole
  rw [verifiedSealedTail]
  obtain ⟨start, hstart⟩ :
      ∃ start, start = (front ++ whole).length - min (front ++ whole).length sealedMaxSize := ⟨_, rfl⟩
  have hsize : (front ++ whole).length = front.length + whole.length := List.length_append
  obtain ⟨hle, hspan⟩ := tail_span (front.length) (hbytes.trans_le hl)
  rw [← hsize, ← hstart] at hle hspan
  have htail : readAt (front ++ whole) start (min (front ++ whole).length sealedMaxSize) =
      front.drop start ++ whole := by
    rw [readAt, slice, List.drop_append_of_le_length hle]
    refine List.take_of_length_le ?_
    rw [List.length_append, List.length_drop]
    exact hspan
  simp only [← hstart, htail]
  rw [hwhole, searchTail_append hv hfits hl hfree (front.drop start) start
    (by rw [List.length_append, sealedBytes_length]; unfold sealedPrefixSize sealedChecksumSize; omega)]
  rw [List.length_drop, Nat.add_sub_cancel' hle]

/-- A header alone in its file is found at the front. -/
theorem verifiedSealedFront_self {version : Nat} {body sealedHeader : Bytes}
    (hs : sealHeader P version body = .ok sealedHeader) (hfits : version < 2 ^ 16) :
    verifiedSealedFront P sealedHeader =
      some ({ version, offset := 0, raw := sealedHeader, body } : VerifiedHeader μ) := by
  obtain ⟨hv, hl, rfl⟩ := sealHeader_eq_ok.mp hs
  have hbytes := sealedBytes_length (P := P) version body
  have hopen := open_sealedBytes (P := P) hv hfits hl []
  rw [List.append_nil] at hopen
  have hread : readAt (sealedBytes P version body) 0 sealedMaxSize = sealedBytes P version body := by
    rw [readAt, slice_zero]
    exact List.take_of_length_le (by omega)
  rw [verifiedSealedFront, hread, hopen, Option.map_some]
  simp only [← hbytes, List.take_length]

end Search

/-! ## 4. The metadata -/

/-- **The codecs of a container's metadata.** For headers and trailers parsing undoes packing, and what
    is accepted is packed to the same bytes; so is every sealed head that opens. A sealed header is
    found at the end of a file whatever bytes precede it, and is among the headers that verify. -/
theorem metadata_codecs (P : Primitives) :
    (∀ h : StreamHeader, StreamHeader.parse h.packBody = .ok h) ∧
    (∀ body h, StreamHeader.parse body = .ok h → h.packBody = body) ∧
    (∀ (header : StreamHeader) (t : StreamTrailer), t.Fitting header →
      StreamTrailer.open P (t.seal P) header = some t) ∧
    (∀ raw header t, StreamTrailer.open P raw header = some t → t.seal P = raw ∧ t.Fitting header) ∧
    (∀ raw version body, openSealedHeader P raw = some (version, body) → ∃ sealedHeader rest,
      raw = sealedHeader ++ rest ∧ sealHeader P version body = .ok sealedHeader) ∧
    ∀ version body sealedHeader, sealHeader P version body = .ok sealedHeader → version < 2 ^ 16 →
      (∀ rest, openSealedHeader P (sealedHeader ++ rest) = some (version, body)) ∧
      (CollisionFree P (unsealedPart sealedHeader) →
        ∀ (μ : Type) (decodeManifest : Bytes → Option μ) (front : Bytes),
          verifiedSealedTail P (front ++ sealedHeader) = some
            ({ version, offset := front.length, raw := sealedHeader, body } : VerifiedHeader μ) ∧
          { version, offset := front.length, raw := sealedHeader, body } ∈
            verifiedHeaders P decodeManifest (front ++ sealedHeader)) := by
  refine ⟨fun h => h.parse_packBody, fun _ _ h => StreamHeader.packBody_parse h,
    fun _ _ h => StreamTrailer.open_seal P h, fun _ _ _ h => StreamTrailer.open_some P h, ?_, ?_⟩
  · intro raw version body h
    obtain ⟨hv, -, hl, htake⟩ := openSealedHeader_some h
    exact ⟨_, _, (List.take_append_drop (sealedPrefixSize + body.length + sealedChecksumSize) raw).symm,
      sealHeader_eq_ok.mpr ⟨hv, hl, htake⟩⟩
  · intro version body sealedHeader hs hfits
    refine ⟨?_, fun hfree μ decodeManifest front => ?_⟩
    · obtain ⟨hv, hl, rfl⟩ := sealHeader_eq_ok.mp hs
      exact open_sealedBytes hv hfits hl
    · have htail := @verifiedSealedTail_append P μ _ _ _ hs hfits hfree front
      refine ⟨htail, ?_⟩
      rw [verifiedHeaders, htail]
      rcases Nat.eq_zero_or_pos front.length with hzero | hpos
      · -- alone in its file it is the front header
        obtain rfl := List.length_eq_zero_iff.mp hzero
        rw [List.nil_append, verifiedSealedFront_self hs hfits]
        refine List.mem_append_left _ (List.mem_append_left _ (List.mem_append_right _ ?_))
        exact List.mem_singleton_self _
      · refine List.mem_append_right _ ?_
        rw [Option.filter_some, if_pos (decide_eq_true hpos)]
        exact List.mem_singleton_self _

/-- A sealed header with a body of one byte, behind bytes that begin like another one. -/
theorem metadata_codecs_behindMagic : ∃ sealedHeader,
    sealHeader .plain formatVersion [5] = .ok sealedHeader ∧
    CollisionFree .plain (unsealedPart sealedHeader) ∧
    verifiedSealedTail .plain ((magic ++ [9]) ++ sealedHeader) = some
      ({ version := formatVersion, offset := 9, raw := sealedHeader, body := [5] } :
        VerifiedHeader Unit) := by
  have hs : sealHeader .plain formatVersion [5] = .ok (sealedBytes .plain formatVersion [5]) :=
    sealHeader_eq_ok.mpr ⟨by decide, by decide, rfl⟩
  have hfree : CollisionFree .plain (unsealedPart (sealedBytes .plain formatVersion [5])) := by
    have hl : (unsealedPart (sealedBytes .plain formatVersion [5])).length = 13 := by decide +kernel
    have hfew : ∀ k < 14,
        sealedChecksum .plain ((unsealedPart (sealedBytes .plain formatVersion [5])).drop k) =
          sealedChecksum .plain (unsealedPart (sealedBytes .plain formatVersion [5])) →
        (unsealedPart (sealedBytes .plain formatVersion [5])).drop k =
          unsealedPart (sealedBytes .plain formatVersion [5]) := by decide +kernel
    intro k h
    rcases Nat.lt_or_ge k 14 with hk | hk
    · exact hfew k hk h
    · have hnil : ∀ n, 13 ≤ n → (unsealedPart (sealedBytes .plain formatVersion [5])).drop n = [] :=
        fun n hn => List.drop_of_length_le (by rw [hl]; exact hn)
      have h13 := hfew 13 (by decide)
      rw [hnil 13 le_rfl] at h13
      rw [hnil k (by omega)] at h ⊢
      exact h13 h
  refine ⟨_, hs, hfree, ?_⟩
  obtain ⟨-, -, -, -, -, h⟩ := metadata_codecs .plain
  exact ((h formatVersion [5] _ hs (by decide)).2 hfree Unit (fun _ => none) (magic ++ [9])).1

end Dbs

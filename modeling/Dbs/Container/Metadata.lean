/-
  File:      Dbs/Container/Metadata.lean
  Subject:   THE SEALED HEADER AND THE TRAILER OF A CONTAINER (container/format.py,
             container/stream.py).

  * `sealHeader`, `openSealedHeader` -- a checksummed head of known length; `open_sealedBytes`,
    `openSealedHeader_some` -- each undoes the other;
  * `StreamHeader` -- the header's fields with the limits its parser holds them to, so a header
    outside them cannot be built; `parse_packBody`, `packBody_parse` -- parsing undoes packing, and
    packing parsing;
  * `StreamTrailer` -- block count, sizes and the digest over the slot tags; `open_seal`, `open_some`
    -- a sealed trailer opens under the header it was written for, and nothing else does.
-/
import Dbs.Crypto.Chunked
import Dbs.Container.Layout

namespace Dbs

open Octets Struct

variable (P : Primitives)

/-! ## 1. Sealed heads -/

/-- What every container begins with. -/
def magic : Bytes := ascii "DBSCON01"

/-- The version number of the first container format. -/
def v1FormatVersion : Nat := 1

/-- The version that is written. -/
def formatVersion : Nat := 2

/-- `>8sHH`: magic, version and total length. -/
def sealedPrefix : Format := [.raw 8, .uint 2, .uint 2]

/-- The fields in front of a body. -/
def prefixValues (version length : Nat) : Values sealedPrefix := (magic, version, length, ())

/-- Magic, version and length. -/
def sealedPrefixSize : Nat := 12

/-- Behind the body. -/
def sealedChecksumSize : Nat := 16

/-- With an empty body. -/
def sealedMinSize : Nat := sealedPrefixSize + sealedChecksumSize

/-- The longest header. -/
def sealedMaxSize : Nat := 4096

/-- What its checksum is personalised with. -/
def sealedPerson : Bytes := ascii "dbs/sealed-head"

/-- The checksum of prefix and body. -/
def sealedChecksum (unsealed : Bytes) : Bytes :=
  P.blake2b sealedChecksumSize [] sealedPerson unsealed

/-- A body between prefix and checksum. -/
def sealHeader (version : Nat) (body : Bytes) : Except Raised Bytes :=
  let length := sealedPrefixSize + body.length + sealedChecksumSize
  if version ≤ v1FormatVersion ∨ ¬ (sealedMinSize ≤ length ∧ length ≤ sealedMaxSize) then
    .error (.valueError "A sealed header needs version 2 or later and at most 4 KiB.")
  else
    let unsealed := pack sealedPrefix (prefixValues version length) ++ body
    .ok (unsealed ++ sealedChecksum P unsealed)

/-- Version and body of a sealed head at the start of `raw`; `none` where it does not verify. -/
def openSealedHeader (raw : Bytes) : Option (Nat × Bytes) :=
  if raw.length < sealedMinSize then none
  else
    let (found, version, length, ()) := fields sealedPrefix raw
    if found ≠ magic ∨ version ≤ v1FormatVersion then none
    else if ¬ (sealedMinSize ≤ length ∧ length ≤ min raw.length sealedMaxSize) then none
    else
      let unsealed := raw.take (length - sealedChecksumSize)
      if sealedChecksum P unsealed ≠ slice raw (length - sealedChecksumSize) sealedChecksumSize then
        none
      else some (version, unsealed.drop sealedPrefixSize)

/-- The bytes a sealed head consists of. -/
def sealedBytes (version : Nat) (body : Bytes) : Bytes :=
  let unsealed := pack sealedPrefix (prefixValues version
    (sealedPrefixSize + body.length + sealedChecksumSize)) ++ body
  unsealed ++ sealedChecksum P unsealed

section Sealed

variable {P} {version : Nat} {body raw : Bytes}

theorem sealHeader_eq_ok {s : Bytes} : sealHeader P version body = .ok s ↔
    v1FormatVersion < version ∧ sealedPrefixSize + body.length + sealedChecksumSize ≤ sealedMaxSize ∧
      s = sealedBytes P version body := by
  have hmin : sealedMinSize ≤ sealedPrefixSize + body.length + sealedChecksumSize := by
    unfold sealedMinSize
    omega
  rw [sealHeader]
  simp only
  by_cases hg : version ≤ v1FormatVersion ∨ ¬ (sealedMinSize ≤ sealedPrefixSize + body.length +
      sealedChecksumSize ∧ sealedPrefixSize + body.length + sealedChecksumSize ≤ sealedMaxSize)
  · rw [if_pos hg]
    refine ⟨fun h => (by cases h), fun ⟨h1, h2, _⟩ => ?_⟩
    rcases hg with hg | hg
    · omega
    · exact absurd ⟨hmin, h2⟩ hg
  · rw [if_neg hg, Except.ok.injEq]
    rw [not_or, not_not] at hg
    exact ⟨fun h => ⟨by omega, hg.2.2, h.symm⟩, fun h => h.2.2.symm⟩

theorem unsealed_length (version : Nat) (body : Bytes) :
    (pack sealedPrefix (prefixValues version (sealedPrefixSize + body.length + sealedChecksumSize)) ++
      body).length = sealedPrefixSize + body.length := by
  rw [List.length_append, pack_length]
  rfl

theorem sealedBytes_length (version : Nat) (body : Bytes) :
    (sealedBytes P version body).length = sealedPrefixSize + body.length + sealedChecksumSize := by
  have hc : (sealedChecksum P (pack sealedPrefix (prefixValues version (sealedPrefixSize + body.length +
      sealedChecksumSize)) ++ body)).length = sealedChecksumSize := P.blake2b_length _ _ _ _
  rw [sealedBytes, List.length_append, unsealed_length, hc]

/-- **A sealed head opens to its body**, whatever follows it. -/
theorem open_sealedBytes (hv : v1FormatVersion < version) (hfits : version < 2 ^ 16)
    (hl : sealedPrefixSize + body.length + sealedChecksumSize ≤ sealedMaxSize) (rest : Bytes) :
    openSealedHeader P (sealedBytes P version body ++ rest) = some (version, body) := by
  set length := sealedPrefixSize + body.length + sealedChecksumSize with hlength
  set unsealed := pack sealedPrefix (prefixValues version length) ++ body with hu
  have hs : sealedBytes P version body = unsealed ++ sealedChecksum P unsealed := rfl
  have hul : unsealed.length = length - sealedChecksumSize := by
    rw [hu, unsealed_length, hlength, Nat.add_sub_cancel]
  have hcl : (sealedChecksum P unsealed).length = sealedChecksumSize := P.blake2b_length _ _ _ _
  have hlen : (sealedBytes P version body ++ rest).length = length + rest.length := by
    rw [List.length_append, sealedBytes_length]
  have hmin : sealedMinSize ≤ length := by rw [hlength]; unfold sealedMinSize; omega
  have hfit : Fits sealedPrefix (prefixValues version length) := by
    have hmax : length ≤ 4096 := hl
    exact ⟨by decide, by omega, by omega, trivial⟩
  have hfield : fields sealedPrefix (sealedBytes P version body ++ rest) =
    prefixValues version length := by
    rw [hs, hu, List.append_assoc, List.append_assoc]
    exact fields_pack_append hfit _
  have htake : (sealedBytes P version body ++ rest).take (length - sealedChecksumSize) = unsealed := by
    rw [hs, List.append_assoc]
    exact List.take_left' hul
  have hslice : slice (sealedBytes P version body ++ rest) (length - sealedChecksumSize)
      sealedChecksumSize = sealedChecksum P unsealed := by
    rw [hs, List.append_assoc, slice_append_right _ _ _ hul.le, hul, Nat.sub_self]
    exact List.take_left' hcl
  have hdrop : unsealed.drop sealedPrefixSize = body := by
    rw [hu]
    exact List.drop_left' (pack_length _ _)
  rw [openSealedHeader, if_neg (by omega), hfield]
  simp only [prefixValues]
  rw [if_neg (by simp only [ne_eq, not_true_eq_false, false_or]; omega),
    if_neg (not_not.mpr ⟨hmin, le_min (by omega) hl⟩), htake, hslice, if_neg (not_not.mpr rfl), hdrop]

/-- **What opens was sealed**: the head is the sealed form of what it opens to. -/
theorem openSealedHeader_some (h : openSealedHeader P raw = some (version, body)) :
    v1FormatVersion < version ∧ version < 2 ^ 16 ∧
      sealedPrefixSize + body.length + sealedChecksumSize ≤ sealedMaxSize ∧
      raw.take (sealedPrefixSize + body.length + sealedChecksumSize) = sealedBytes P version body := by
  rw [openSealedHeader, Option.ite_none_left_eq_some] at h
  obtain ⟨hmin, h⟩ := h
  have hsize : (raw.take sealedPrefixSize).length = size sealedPrefix := by
    rw [List.length_take]
    unfold sealedMinSize sealedPrefixSize at *
    show min 12 raw.length = 12
    omega
  have hfront : fields sealedPrefix (raw.take sealedPrefixSize) = fields sealedPrefix raw := by
    simp only [fields, sealedPrefix, sealedPrefixSize, List.drop_take, List.take_take]
    rfl
  have hpack := pack_fields (f := sealedPrefix) hsize trivial
  have hfit := fits_fields sealedPrefix _ hsize
  rw [hfront] at hpack hfit
  cases hf : fields sealedPrefix raw with
  | mk found rest =>
    obtain ⟨v, length, ⟨⟩⟩ := rest
    rw [hf] at hpack hfit
    simp only [hf, Option.ite_none_left_eq_some, not_or, not_not, not_le, Option.some.injEq,
      Prod.mk.injEq] at h
    obtain ⟨⟨rfl, hv⟩, ⟨hlow, hhigh⟩, hchecksum, rfl, hbody⟩ := h
    have hlen : length ≤ raw.length := hhigh.trans (min_le_left _ _)
    have hl : sealedPrefixSize + body.length + sealedChecksumSize = length := by
      rw [← hbody, List.length_drop, List.length_take]
      unfold sealedMinSize sealedPrefixSize sealedChecksumSize at *
      omega
    refine ⟨hv, hfit.2.1, hl ▸ hhigh.trans (min_le_right _ _), ?_⟩
    have hunsealed : pack sealedPrefix (prefixValues v length) ++ body =
        raw.take (length - sealedChecksumSize) := by
      have hle : sealedPrefixSize ≤ length - sealedChecksumSize := by
        unfold sealedMinSize sealedPrefixSize sealedChecksumSize at *
        omega
      have hp : pack sealedPrefix (prefixValues v length) = raw.take sealedPrefixSize := hpack
      rw [hp, ← hbody, ← List.take_append_drop sealedPrefixSize (raw.take (length - _)),
        List.take_take, Nat.min_eq_left hle, List.drop_append_of_le_length (by
          rw [List.length_take]
          have := hsize
          rw [List.length_take] at this
          exact this.ge), List.drop_of_length_le (by rw [List.length_take]; omega), List.nil_append]
    rw [sealedBytes, hl, hunsealed, hchecksum, slice, ← List.take_add]
    congr 1
    unfold sealedMinSize sealedChecksumSize at *
    omega

end Sealed

/-! ## 2. The stream header -/

/-- A random id. -/
def containerIdLength : Nat := 16

/-- `>HHIIIIHH16s16s7sx12s48s`. -/
def headerBody : Format :=
  [.uint 2, .uint 2, .uint 4, .uint 4, .uint 4, .uint 4, .uint 2, .uint 2,
   .raw 16, .raw 16, .raw 7, .pad 1, .raw 12, .raw 48]

/-- The body of every header. -/
def headerBodySize : Nat := 124

/-- Where a zero stands. -/
def headerPadOffset : Nat := 63

/-- The header with its seal. -/
def headerSize : Nat := sealedPrefixSize + headerBodySize + sealedChecksumSize

/-- The body in front of the wrapped key. -/
def keyBindingSize : Nat := headerBodySize - nonceLength - wrappedKeyLength

/-- A header whose fields are inside the limits every reader enforces. -/
structure StreamHeader where
  flags : Nat
  layout : StreamLayout
  kdfParams : KDFParams
  salt : Bytes
  containerId : Bytes
  noncePrefix : Bytes
  wrapNonce : Bytes
  wrappedKey : Bytes
  flags_lt : flags < 2 ^ 16
  layout_valid : layout.Valid
  kdf_valid : kdfParams.validateUntrusted = .ok ()
  salt_length : salt.length = saltLength
  containerId_length : containerId.length = containerIdLength
  noncePrefix_length : noncePrefix.length = noncePrefixLength
  wrapNonce_length : wrapNonce.length = nonceLength
  wrappedKey_length : wrappedKey.length = wrappedKeyLength

namespace StreamHeader

variable (h : StreamHeader)

/-- The fields in the order of the body. -/
def values : Values headerBody :=
  (h.flags, h.layout.nsym, h.layout.blockSize, h.layout.interleave, h.kdfParams.timeCost,
   h.kdfParams.memoryCost, h.kdfParams.parallelism, 0, h.salt, h.containerId, h.noncePrefix,
   h.wrapNonce, h.wrappedKey, ())

/-- The body's bytes. -/
def packBody : Bytes := pack headerBody h.values

/-- What the wrapped key is bound to. -/
def keyBinding : Bytes := h.packBody.take keyBindingSize

/-- The guard of `sealHeader` never fires for a header (`sealHeader_packBody`). -/
def «seal» : Bytes :=
  match sealHeader P formatVersion h.packBody with
  | .ok sealed => sealed
  | .error _ => []

theorem fits_values : Fits headerBody h.values := by
  have hl := h.layout_valid.bounds
  have hk := KDFParams.validateUntrusted_ok h.kdf_valid
  have hf := h.flags_lt
  exact ⟨by simpa using hf, by omega, by omega, by omega, by omega, by omega, by omega, by decide,
    h.salt_length, h.containerId_length, h.noncePrefix_length, h.wrapNonce_length,
    h.wrappedKey_length, trivial⟩

theorem packBody_length : h.packBody.length = headerBodySize := pack_length _ _

theorem sealHeader_packBody : sealHeader P formatVersion h.packBody = .ok (h.seal P) := by
  have hg : ¬ (formatVersion ≤ v1FormatVersion ∨
      ¬ (sealedMinSize ≤ sealedPrefixSize + h.packBody.length + sealedChecksumSize ∧
        sealedPrefixSize + h.packBody.length + sealedChecksumSize ≤ sealedMaxSize)) := by
    rw [h.packBody_length]
    decide
  rw [StreamHeader.seal, sealHeader]
  simp only [if_neg hg]

/-- The bytes a header is sealed to. -/
theorem seal_eq_sealedBytes : h.seal P = sealedBytes P formatVersion h.packBody :=
  (sealHeader_eq_ok.mp (sealHeader_packBody P h)).2.2

theorem seal_length : (h.seal P).length = headerSize := by
  rw [seal_eq_sealedBytes, sealedBytes_length, h.packBody_length]
  rfl

/-- **A sealed header opens to its body**, whatever follows it. -/
theorem open_seal (rest : Bytes) :
    openSealedHeader P (h.seal P ++ rest) = some (formatVersion, h.packBody) := by
  rw [seal_eq_sealedBytes]
  exact open_sealedBytes (by decide) (by decide) (by rw [h.packBody_length]; decide) rest

/-- The key binding leaves out the wrapped key and its nonce. -/
theorem keyBinding_congr {h h' : StreamHeader} (h1 : h.flags = h'.flags) (h2 : h.layout = h'.layout)
    (h3 : h.kdfParams = h'.kdfParams) (h4 : h.salt = h'.salt) (h5 : h.containerId = h'.containerId)
    (h6 : h.noncePrefix = h'.noncePrefix) : h.keyBinding = h'.keyBinding := by
  rw [keyBinding, keyBinding, packBody, packBody, values, values, h1, h2, h3, h4, h5, h6]
  iterate 8 refine take_pack_uint _ _ _ ?_
  iterate 3 refine take_pack_raw _ _ _ ?_
  exact take_pack_pad _ _ rfl

/-- The key-derivation parameters a header can name. -/
def paramsOf (timeCost memoryCost parallelism : Nat) : KDFParams :=
  { timeCost, memoryCost, parallelism }

/-- The error of limits that are not kept. -/
def refused : Raised → Raised
  | .cryptoError message =>
    .containerError s!"The header's key-derivation parameters are refused: {message}"
  | other => other

/-- The header of unpacked fields, if they describe a usable one. -/
def ofValues (pad : Bytes) : (v : Values headerBody) → Fits headerBody v →
    Except Raised StreamHeader
  | (flags, nsym, blockSize, interleave, timeCost, memoryCost, parallelism, reserved, salt,
      containerId, noncePrefix, wrapNonce, wrappedKey, ()), hfit =>
    if reserved ≠ 0 ∨ pad ≠ zeros 1 then
      .error (.containerError "The format version 2 header has unknown fields set.")
    else
      match hp : layoutProblem blockSize nsym interleave with
      | some problem =>
        .error (.containerError s!"The header describes an unusable layout: {problem}")
      | none =>
        match hk : (paramsOf timeCost memoryCost parallelism).validateUntrusted with
        | .error e => .error (refused e)
        | .ok () =>
          .ok {
            flags, layout := ⟨blockSize, nsym, interleave⟩,
            kdfParams := paramsOf timeCost memoryCost parallelism,
            salt, containerId, noncePrefix, wrapNonce, wrappedKey
            flags_lt := hfit.1
            layout_valid := ⟨hp⟩
            kdf_valid := hk
            salt_length := hfit.2.2.2.2.2.2.2.2.1
            containerId_length := hfit.2.2.2.2.2.2.2.2.2.1
            noncePrefix_length := hfit.2.2.2.2.2.2.2.2.2.2.1
            wrapNonce_length := hfit.2.2.2.2.2.2.2.2.2.2.2.1
            wrappedKey_length := hfit.2.2.2.2.2.2.2.2.2.2.2.2.1 }

/-- The header of a body. -/
def parse (body : Bytes) : Except Raised StreamHeader :=
  if hl : body.length = size headerBody then
    ofValues (slice body headerPadOffset 1) (fields headerBody body)
      (fits_fields headerBody body hl)
  else .error (.containerError "The format version 2 header has the wrong size.")

theorem packBody_pad : slice h.packBody headerPadOffset 1 = zeros 1 := by
  -- eight numbers and three byte strings stand before the pad byte
  iterate 8 refine (slice_pack_uint _ _ _ (by decide)).trans ?_
  iterate 3 refine (slice_pack_raw _ _ _ (by decide)).trans ?_
  exact slice_pack_pad 1 _

theorem paramsOf_eq : paramsOf h.kdfParams.timeCost h.kdfParams.memoryCost h.kdfParams.parallelism =
    h.kdfParams := by
  have hlen := (KDFParams.validateUntrusted_ok h.kdf_valid).2.2.2.2
  generalize h.kdfParams = p at hlen ⊢
  obtain ⟨timeCost, memoryCost, parallelism, keyLength⟩ := p
  obtain rfl : keyLength = 32 := hlen
  rfl

theorem ofValues_values : ofValues (zeros 1) h.values h.fits_values = .ok h := by
  have hp := h.layout_valid.problem
  have hk := h.kdf_valid
  have hz : ¬ ((0 : Nat) ≠ 0 ∨ zeros 1 ≠ zeros 1) := by decide
  rw [← h.paramsOf_eq] at hk
  unfold ofValues values
  simp only
  rw [if_neg hz]
  split
  · rename_i problem hp'
    rw [hp] at hp'
    cases hp'
  · split
    · rename_i e hk'
      rw [hk] at hk'
      cases hk'
    · have he := h.paramsOf_eq
      cases h
      simp only [Except.ok.injEq]
      congr 1

/-- **Parsing undoes packing.** -/
theorem parse_packBody : parse h.packBody = .ok h := by
  have hl : h.packBody.length = size headerBody := h.packBody_length
  have hf : fields headerBody h.packBody = h.values := fields_pack h.fits_values
  have hc : ∀ v (hv : Fits headerBody v), v = h.values → ofValues (zeros 1) v hv = .ok h := by
    rintro v hv rfl
    exact h.ofValues_values
  rw [parse, dif_pos hl, h.packBody_pad]
  exact hc _ _ hf

/-- What the fields of a header that was accepted say. -/
theorem ofValues_ok {pad : Bytes} {v : Values headerBody} {hfit : Fits headerBody v}
    {found : StreamHeader} (h : ofValues pad v hfit = .ok found) : found.values = v ∧
    pad = zeros 1 := by
  obtain ⟨flags, nsym, blockSize, interleave, timeCost, memoryCost, parallelism, reserved, salt,
    containerId, noncePrefix, wrapNonce, wrappedKey, ⟨⟩⟩ := v
  unfold ofValues at h
  simp only at h
  split at h
  · cases h
  · rename_i hclear
    rw [not_or, not_not, not_not] at hclear
    obtain ⟨rfl, hpad⟩ := hclear
    split at h
    · cases h
    · split at h
      · cases h
      · cases h
        exact ⟨rfl, hpad⟩

/-- **Packing undoes parsing**: a body that is accepted is packed to the same bytes. -/
theorem packBody_parse {body : Bytes} {found : StreamHeader} (h : parse body = .ok found) :
    found.packBody = body := by
  rw [parse] at h
  split at h
  · rename_i hl
    obtain ⟨hvalues, hpad⟩ := ofValues_ok h
    rw [packBody, hvalues]
    refine pack_fields hl ?_
    simp only [PadsClear, headerBody, List.drop_drop]
    exact ⟨hpad, trivial⟩
  · cases h

end StreamHeader

/-! ## 3. The trailer -/

/-- What every trailer begins with. -/
def trailerMarker : Bytes := ascii "DBSEND02"

/-- `>8sHH16sQQI4x32s`. -/
def trailerBody : Format :=
  [.raw 8, .uint 2, .uint 2, .raw 16, .uint 8, .uint 8, .uint 4, .pad 4, .raw 32]

/-- Without its checksum. -/
def trailerBodySize : Nat := 84

/-- Where zeros stand. -/
def trailerPadOffset : Nat := 48

/-- With its checksum. -/
def trailerSize : Nat := trailerBodySize + sealedChecksumSize

/-- What its checksum is personalised with. -/
def trailerPerson : Bytes := ascii "dbs/v2-trailer"

/-- The checksum of a body. -/
def trailerChecksum (body : Bytes) : Bytes := P.blake2b sealedChecksumSize [] trailerPerson body

/-- What is known when all is written. -/
structure StreamTrailer where
  containerId : Bytes
  blocks : Nat
  plaintextBytes : Nat
  finalChunkLen : Nat
  blocksDigest : Bytes
deriving DecidableEq

/-- The container's length for a number of blocks: two headers, two trailers, two copies of each. -/
def StreamLayout.containerSize (L : StreamLayout) (blocks : Nat) : Nat :=
  2 * headerSize + 2 * trailerSize + 2 * blocks * L.slotSize

namespace StreamTrailer

variable (t : StreamTrailer)

/-- The fields in the order of the body. -/
def values : Values trailerBody :=
  (trailerMarker, formatVersion, trailerSize, t.containerId, t.blocks, t.plaintextBytes,
   t.finalChunkLen, t.blocksDigest, ())

/-- The body and its checksum. -/
def «seal» : Bytes :=
  let body := pack trailerBody t.values
  body ++ trailerChecksum P body

/-- The trailer in `raw`; `none` where the checksum fails or a field contradicts the header. -/
def «open» (raw : Bytes) (header : StreamHeader) : Option StreamTrailer :=
  if raw.length ≠ trailerSize then none
  else
    let body := raw.take trailerBodySize
    if trailerChecksum P body ≠ raw.drop trailerBodySize then none
    else
      let (marker, version, length, containerId, blocks, plaintextBytes, finalLen, digest, ()) :=
        fields trailerBody body
      let layout := header.layout
      if marker ≠ trailerMarker ∨ version ≠ formatVersion ∨ length ≠ trailerSize then none
      else if containerId ≠ header.containerId ∨ slice body trailerPadOffset 4 ≠ zeros 4 then none
      else if ¬ (1 ≤ blocks ∧ blocks ≤ maxBlocks) then none
      else if ¬ (tagLength ≤ finalLen ∧ finalLen ≤ layout.maxChunkLen) then none
      else if plaintextBytes + tagLength ≠ (blocks - 1) * layout.chunkCapacity + finalLen then none
      else some ⟨containerId, blocks, plaintextBytes, finalLen, digest⟩

/-- The trailer says about a container under `header` what the reader checks. -/
structure Fitting (header : StreamHeader) : Prop where
  containerId : t.containerId = header.containerId
  blocks : 1 ≤ t.blocks ∧ t.blocks ≤ maxBlocks
  finalChunkLen : tagLength ≤ t.finalChunkLen ∧ t.finalChunkLen ≤ header.layout.maxChunkLen
  plaintextBytes : t.plaintextBytes + tagLength =
    (t.blocks - 1) * header.layout.chunkCapacity + t.finalChunkLen
  digest : t.blocksDigest.length = 32

theorem seal_length : (t.seal P).length = trailerSize := by
  have hp : (pack trailerBody t.values).length = trailerBodySize := pack_length _ _
  rw [StreamTrailer.seal, List.length_append, hp, trailerChecksum, P.blake2b_length]
  rfl

variable {header : StreamHeader}

theorem Fitting.fits {t : StreamTrailer} (h : t.Fitting header) : Fits trailerBody t.values := by
  have hl := header.layout_valid.bounds
  have hb := h.blocks
  have hf := h.finalChunkLen
  have hc : (t.blocks - 1) * header.layout.chunkCapacity ≤ 2 ^ 32 * 2 ^ 24 :=
    Nat.mul_le_mul (by unfold maxBlocks maxChunks at hb; omega)
      (by unfold StreamLayout.chunkCapacity; omega)
  have hp := h.plaintextBytes
  unfold StreamLayout.maxChunkLen tagLength at *
  unfold maxBlocks maxChunks at hb
  exact ⟨by decide, by decide, by decide, by rw [h.containerId]; exact header.containerId_length,
    by omega, by omega, by omega, h.digest, trivial⟩

theorem pack_pad : slice (pack trailerBody t.values) trailerPadOffset 4 = zeros 4 := by
  refine (slice_pack_raw _ _ _ (by decide)).trans ?_
  iterate 2 refine (slice_pack_uint _ _ _ (by decide)).trans ?_
  refine (slice_pack_raw _ _ _ (by decide)).trans ?_
  iterate 3 refine (slice_pack_uint _ _ _ (by decide)).trans ?_
  exact slice_pack_pad 4 _

/-- **A sealed trailer opens** under the header it was written for. -/
theorem open_seal {t : StreamTrailer} (h : t.Fitting header) :
    StreamTrailer.open P (t.seal P) header = some t := by
  have hl : (t.seal P).length = trailerSize := seal_length P t
  have hp : (pack trailerBody t.values).length = trailerBodySize := pack_length _ _
  have htake : (t.seal P).take trailerBodySize = pack trailerBody t.values := List.take_left' hp
  have hdrop : (t.seal P).drop trailerBodySize = trailerChecksum P (pack trailerBody t.values) :=
    List.drop_left' hp
  rw [StreamTrailer.open, if_neg (not_not.mpr hl), htake, hdrop]
  simp only
  rw [if_neg (not_not.mpr rfl), fields_pack h.fits, t.pack_pad, values]
  simp only
  rw [if_neg (by decide), if_neg (by simp [h.containerId]), if_neg (not_not.mpr h.blocks),
    if_neg (not_not.mpr h.finalChunkLen), if_neg (not_not.mpr h.plaintextBytes)]

/-- **What opens was sealed**: bytes that open as a trailer are its sealed form, and it fits the
    header. -/
theorem open_some {raw : Bytes} {t : StreamTrailer}
    (h : StreamTrailer.open P raw header = some t) : t.seal P = raw ∧ t.Fitting header := by
  rw [StreamTrailer.open, Option.ite_none_left_eq_some, not_not] at h
  obtain ⟨hl, h⟩ := h
  have hsize : (raw.take trailerBodySize).length = size trailerBody := by
    rw [List.length_take, hl]
    rfl
  have hfit := fits_fields trailerBody _ hsize
  cases hf : fields trailerBody (raw.take trailerBodySize) with
  | mk marker rest =>
    obtain ⟨version, length, containerId, blocks, plaintextBytes, finalLen, digest, ⟨⟩⟩ := rest
    rw [hf] at hfit
    simp only [hf, Option.ite_none_left_eq_some, not_or, not_not, Option.some.injEq] at h
    obtain ⟨hchecksum, ⟨rfl, rfl, rfl⟩, ⟨hid, hpad⟩, hblocks, hfinal, hplain, rfl⟩ := h
    refine ⟨?_, hid, hblocks, hfinal, hplain, hfit.2.2.2.2.2.2.2.1⟩
    have hpads : PadsClear trailerBody (raw.take trailerBodySize) := by
      simp only [PadsClear, trailerBody, List.drop_drop]
      exact ⟨hpad, trivial⟩
    have hpack := pack_fields hsize hpads
    rw [hf] at hpack
    rw [StreamTrailer.seal, values]
    simp only
    rw [hpack, hchecksum, List.take_append_drop]

end StreamTrailer

end Dbs

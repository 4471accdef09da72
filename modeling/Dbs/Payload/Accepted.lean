/-
  File:      Dbs/Payload/Accepted.lean
  Subject:   WHAT THE READER ACCEPTS: exactly the payloads whose manifest is not too long.

  * `readPayload_sound`, `readPayload_complete`, `readThrough_iff` -- the two directions, and both;
  * `payload_grammar` -- the reader is the grammar, in whatever pieces the bytes come;
    `too_many_files` -- a payload with one entry more than the manifest may list.
-/
import Dbs.Payload.Fueled
import Dbs.Payload.Written

namespace Dbs.Payload

open Octets Effects
open Json (Value Text)

/-! ## 1. The payload -/

section Payload

variable {D : Decoding} {t u : PayloadReader Bytes} {tail : Bytes}

theorem stored_frames (p : Parts) : stored p.frames = (Frame.mk .header p.header).bytes ++
    (stored (p.manifests.map (Frame.mk .manifest)) ++ (stored (filesFrom 0 p.files) ++
      (stored (p.records.map (Frame.mk .records))
      ++ ((Frame.mk .trailer p.trailer).bytes ++ [])))) := by
  rw [Parts.frames, stored_cons, stored_append, stored_append, stored_append]
  rfl

variable {p : Parts}

theorem mem_frames {f : Frame} : f ∈ p.frames ↔ f = ⟨.header, p.header⟩ ∨
    f ∈ p.manifests.map (Frame.mk .manifest) ∨ f ∈ filesFrom 0 p.files ∨
    f ∈ p.records.map (Frame.mk .records) ∨ f = ⟨.trailer, p.trailer⟩ := by
  rw [Parts.frames, List.mem_cons, List.mem_append, List.mem_append, List.mem_append,
    List.mem_singleton]

variable {c : Contents} {fuel : Nat}

/-- **What is read through is a payload**, and its manifest is not too long. -/
theorem readPayload_sound {bytes : Bytes}
    (h : exec (readPayload D nextBytes fuel) { frames := bytes } = (.ok c, u)) :
    ∃ p : Parts, bytes = stored p.frames ∧ Grammar D p c ∧ c.files.length ≤ maxFiles := by
  obtain ⟨⟨⟩, v1, hheader, h1⟩ := bind_eq_ok h
  obtain ⟨-, header, value, head, tail1, hf1, ha1, hl1, hc1, rfl⟩ :=
    (readHeader_ok (ready_none rfl)).mp hheader
  obtain ⟨⟨⟩, v2, hmanifest, h2⟩ := bind_eq_ok h1
  obtain ⟨manifests, entries, tail2, hmanifests, hf2, ha2, hmax, hahead2, hready2, pending2,
    frames2, rfl⟩ :=
    readManifest_sound (ready_none rfl) hmanifest
  obtain ⟨files, v3, hread3, h3⟩ := bind_eq_ok h2
  obtain ⟨parts, tail3, hfiles, hf3, ha3, hahead3, hready3, pending3, frames3, rfl⟩ :=
    readFiles_sound hready2 hread3
  obtain ⟨records, v4, hread4, h4⟩ := bind_eq_ok h3
  obtain ⟨bodies, ranks, tail4, hbodies, hranked,
    ⟨last, hrises, hahead4, hready4, pending4, frames4, hv4⟩,
    hf4, ha4⟩ := recordBatches_sound hready3 hread4
  obtain ⟨⟨⟩, v5, hread5, h5⟩ := bind_eq_ok h4
  obtain ⟨-, trailer, value5, tr, tail5, hf5, ha5, hl5, hc5, rfl⟩ := (readTrailer_ok hready4).mp hread5
  obtain ⟨⟨⟩, v6, hfinish, h6⟩ := bind_eq_ok h5
  obtain ⟨-, hnil, rfl⟩ := finish_ok.mp hfinish
  rw [exec_bind_ok (exec_get _)] at h6
  obtain ⟨hcontents, -⟩ := Prod.mk.inj h6
  obtain rfl := (Except.ok.inj hcontents).symm
  subst hv4
  -- what was read stands behind one another
  obtain rfl : tail5 = [] := hnil
  rw [hahead4] at ha5
  rw [hahead3, ha5] at ha4
  rw [hahead2, ha4] at ha3
  have hbytes : bytes = (Frame.mk .header header).bytes ++ tail1 := ha1
  have hafter : tail1 = stored (manifests.map (Frame.mk .manifest)) ++ tail2 := ha2
  refine ⟨⟨header, manifests, parts, bodies, trailer⟩, ?_,
    ⟨?_, ⟨value, hl1, hc1⟩, ⟨entries, hmanifests, ?_⟩,
    hbodies, ⟨ranks, hranked, ?_⟩, ⟨value5, hl5, hc5⟩⟩, ?_⟩
  · rw [stored_frames, hbytes, hafter, ha3]
  · intro f hf
    rcases mem_frames.mp hf with rfl | hf | hf | hf | rfl
    · exact hf1
    · exact hf2 f hf
    · exact hf3 f hf
    · exact hf4 f hf
    · exact hf5
  · exact hfiles
  · exact ((risesTo_iff_pairwise).mp ⟨last, hrises⟩).tail
  · have hlen := hmax (Nat.zero_le _)
    rw [← hfiles.length.2]
    exact hlen

/-- Something other than a manifest stands behind it. -/
theorem behind_manifest (p : Parts) : ∃ f fs, filesFrom 0 p.files ++
    (p.records.map (Frame.mk .records) ++ [⟨.trailer, p.trailer⟩]) = f :: fs ∧ f.kind ≠ .manifest := by
  cases p.files with
  | nil =>
    cases p.records with
    | nil => exact ⟨_, _, rfl, nofun⟩
    | cons body bodies => exact ⟨_, _, rfl, nofun⟩
  | cons file files =>
    obtain ⟨chunks, last⟩ := file
    cases chunks with
    | nil => exact ⟨_, _, rfl, nofun⟩
    | cons chunk chunks => exact ⟨_, _, rfl, nofun⟩

theorem length_le_stored (frames : List Frame) : frames.length ≤ (stored frames).length := by
  induction frames with
  | nil => exact Nat.le_refl 0
  | cons f frames ih =>
    rw [stored_cons, List.length_append, bytes_length, List.length_cons]
    omega

theorem chunks_le_filesFrom {index : Nat} {files : List (List Bytes × Bytes)}
    {file : List Bytes × Bytes}
    (h : file ∈ files) : file.1.length ≤ (filesFrom index files).length := by
  induction files generalizing index with
  | nil => exact absurd h List.not_mem_nil
  | cons first files ih =>
    rw [filesFrom, List.length_append, fileFrames, List.length_append, List.length_map]
    rcases List.mem_cons.mp h with rfl | h
    · omega
    · exact Nat.le_trans (ih h) (Nat.le_add_left _ _)

/-- The bytes behind the files. -/
def behindFiles (p : Parts) : Bytes :=
  stored (p.records.map (Frame.mk .records)) ++ ((Frame.mk .trailer p.trailer).bytes ++ [])

theorem frames_length (p : Parts) : p.frames.length = 1 + (p.manifests.length +
    ((filesFrom 0 p.files).length + (p.records.length + 1))) := by
  rw [Parts.frames, List.length_cons, List.length_append, List.length_append, List.length_append,
    List.length_map, List.length_map, List.length_singleton, Nat.add_comm]

/-- The reader in front of the files of a payload. -/
structure AtFiles (D : Decoding) (p : Parts) (c : Contents) (t : PayloadReader Bytes) : Prop where
  ready : Ready t
  phase : t.phase = .files
  files : FilesOf D 0 p.files t.entries c.files
  ahead : ahead t = stored (filesFrom 0 p.files) ++ behindFiles p
  header : t.header = c.header
  order : t.order = orderOf c.header
  position : t.position = 0

/-- **The header and the manifest are read**: the manifest ends before the first frame of another
    kind. -/
theorem before_files (hp : Grammar D p c)
    (hmax : c.files.length ≤ maxFiles) (hfuel : p.frames.length < fuel) :
    ∃ t u, exec (readHeader D nextBytes) { frames := stored p.frames } = (.ok ⟨⟩, t) ∧
      exec (readManifest D nextBytes fuel) t = (.ok ⟨⟩, u) ∧ AtFiles D p c u := by
  obtain ⟨hfits, ⟨value, hloads, hchecked⟩, ⟨entries, hmanifests, hfiles⟩, -⟩ := hp
  have hcount := frames_length p
  have hheader := (readHeader_ok (t := { frames := stored p.frames }) (ready_none rfl)).mpr
    ⟨rfl, p.header, value, c.header, _, hfits _ (mem_frames.mpr (.inl rfl)), stored_frames p, hloads,
      hchecked, rfl⟩
  obtain ⟨f, fs, hbehind, hkind⟩ := behind_manifest p
  have hrest : stored (filesFrom 0 p.files) ++ (stored (p.records.map (Frame.mk .records)) ++
      ((Frame.mk .trailer p.trailer).bytes ++ [])) = f.bytes ++ stored fs := by
    rw [← stored_cons, ← hbehind, stored_append, stored_append]
    rfl
  have hf : f.Fits := by
    apply hfits
    rw [Parts.frames, hbehind]
    exact List.mem_cons_of_mem _ (List.mem_append_right _ List.mem_cons_self)
  rw [hrest] at hheader
  have hentries : entries.flatten.length ≤ maxFiles := hfiles.length.2 ▸ hmax
  have hmanifestFuel : p.manifests.length < fuel := by omega
  obtain ⟨u, hread, hahead, hready, pending, frames, rfl⟩ :=
    readManifest_complete
      (t := { frames := stored (p.manifests.map (Frame.mk .manifest)) ++ (f.bytes ++ stored fs),
              header := c.header, order := orderOf c.header, phase := .manifest })
      (ready_none rfl) rfl hmanifestFuel hmanifests
      (fun f hf => hfits f (mem_frames.mpr (.inr (.inl hf)))) rfl hf hkind hentries
  rw [← hrest] at hahead
  exact ⟨_, _, hheader, hread, hready, rfl, hfiles, hahead, rfl, rfl, rfl⟩

/-- **The records, the trailer and the end are read.** -/
theorem behind_files (hp : Grammar D p c)
    (hfuel : p.frames.length < fuel) (ht : Ready t) (hphase : t.phase = .records)
    (hheader : t.header = c.header) (horder : t.order = orderOf c.header) (hposition : t.position = 0)
    (hahead : ahead t = behindFiles p) :
    ∃ u v w, exec (recordBatches D nextBytes fuel) t = (.ok c.records, u) ∧
      exec (readTrailer D nextBytes) u = (.ok ⟨⟩, v) ∧ exec (finish nextBytes) v = (.ok ⟨⟩, w) ∧
      w.header = c.header ∧ w.trailer = c.trailer := by
  obtain ⟨hfits, -, -, hbodies, ⟨ranks, hranked, hpair⟩, ⟨value, hloads, hchecked⟩⟩ := hp
  have hcount := frames_length p
  have hrecordFuel : p.records.length < fuel := by omega
  have htrailer : (Frame.mk .trailer p.trailer).Fits :=
    hfits _ (mem_frames.mpr (.inr (.inr (.inr (.inr rfl)))))
  obtain ⟨last, hrises⟩ : ∃ last, RisesTo 0 ranks last :=
    risesTo_iff_pairwise.mpr (List.pairwise_cons.mpr ⟨fun _ _ => Nat.zero_le _, hpair⟩)
  rw [← horder] at hranked
  rw [← hposition] at hrises
  obtain ⟨u, hread, hahead, hready, pending, frames, rfl⟩ :=
    recordBatches_complete (f := ⟨.trailer, p.trailer⟩) ht hphase hrecordFuel hbodies
      hranked hrises (fun f hf => hfits f (mem_frames.mpr (.inr (.inr (.inr (.inl hf)))))) hahead
      htrailer nofun
  have htrail := (readTrailer_ok hready).mpr
    ⟨rfl, p.trailer, value, c.trailer, [], htrailer, hahead, hloads, hchecked, rfl⟩
  exact ⟨_, _, _, hread, htrail, finish_ok.mpr ⟨rfl, rfl, rfl⟩, hheader, rfl⟩

/-- **A payload whose manifest is not too long is read through.** -/
theorem readPayload_complete (hp : Grammar D p c)
    (hmax : c.files.length ≤ maxFiles) (hfuel : p.frames.length < fuel) :
    ∃ u, exec (readPayload D nextBytes fuel) { frames := stored p.frames } = (.ok c, u) := by
  obtain ⟨t1, t2, hread1, hread2, hat⟩ := before_files hp hmax hfuel
  have hcut : p.files.length ≤ 2 ^ 32 := by
    rw [hat.files.length.1]
    exact Nat.le_trans hmax (by decide)
  have hfileFuel : ∀ file ∈ p.files, file.1.length < fuel := by
    intro file hfile
    have hle : file.1.length ≤ (filesFrom 0 p.files).length := chunks_le_filesFrom hfile
    have hcount := frames_length p
    omega
  obtain ⟨t3, hread3, hahead3, hready3, pending, frames, rfl⟩ :=
    readFiles_complete hat.ready hat.phase hat.files hcut hfileFuel
      (fun f hf => hp.limit f (mem_frames.mpr (.inr (.inr (.inl hf))))) hat.ahead
  obtain ⟨t4, t5, t6, hread4, hread5, hread6, hheader, htrailer⟩ :=
    behind_files hp hfuel hready3 rfl hat.header hat.order hat.position hahead3
  unfold readPayload
  rw [exec_bind_ok hread1, exec_bind_ok hread2, exec_bind_ok hread3, exec_bind_ok hread4,
    exec_bind_ok hread5, exec_bind_ok hread6, exec_bind_ok (exec_get _), hheader, htrailer]
  exact ⟨_, rfl⟩

end Payload

/-- **The payload grammar**: a payload is read through exactly when its bytes are those of well-formed
    parts and its manifest is not too long; what is read is what the parts say, in whatever pieces. -/
theorem readThrough_iff (D : Decoding) (pieces : List Bytes) (c : Contents) :
    readThrough D pieces = .ok c ↔
      (∃ p : Parts, pieces.flatten = p.bytes ∧ Grammar D p c) ∧ c.files.length ≤ maxFiles := by
  rw [readThrough_eq]
  unfold readBytes
  constructor
  · intro h
    cases hopen : exec openBytes pieces.flatten with
    | mk r frames =>
      rw [hopen] at h
      cases r with
      | error e => exact absurd h nofun
      | ok r =>
        obtain ⟨p, hbytes, hp, hmax⟩ := readPayload_sound (Prod.ext h rfl)
        exact ⟨⟨p, by rw [openBytes_ok.mp hopen, hbytes]; rfl, hp⟩, hmax⟩
  · intro h
    obtain ⟨⟨p, hbytes, hp⟩, hmax⟩ := h
    have hlen : p.frames.length < pieces.flatten.length + 1 := by
      have := length_le_stored p.frames
      rw [hbytes, Parts.bytes, List.length_append]
      omega
    rw [openBytes_ok.mpr hbytes]
    obtain ⟨u, hu⟩ := readPayload_complete hp hmax hlen
    exact congrArg Prod.fst hu

/-- The reader is the grammar up to the length of the manifest, it refuses everything else, and the
    pieces play no part. -/
theorem payload_grammar (D : Decoding) (pieces : List Bytes) :
    (∀ c, readThrough D pieces = .ok c ↔
      (∃ p : Parts, pieces.flatten = p.bytes ∧ Grammar D p c) ∧ c.files.length ≤ maxFiles) ∧
    readThrough D pieces ≠ .error .outOfFuel ∧
    readThrough D pieces = readThrough D [pieces.flatten] := by
  refine ⟨readThrough_iff D pieces, readThrough_whole D pieces, ?_⟩
  rw [readThrough_eq, readThrough_eq, List.flatten_singleton]

/-! ## 2. One entry too many -/

section Overlong

def noFile : FileEntry :=
  ⟨Text.ofString "", Text.ofString "", 0, none, none, none, null, Text.ofString ""⟩

def skippedEnd (index : Nat) : Value :=
  fileEnd index 0 (Text.ofString "") (Text.ofString "missing")

def skippedRead : FileRead := { entry := noFile, chunks := [], skipped := Text.ofString "missing" }

def emptyHeader : Value := dict [("version", nat 2), ("order", .arr [])]

def emptyTrailer : Value :=
  dict [("stats", dict [("models", .arr []), ("records", nat 0), ("files", nat 0),
    ("skipped_files", .arr [])])]

/-- 2^11 frames of 2^21 entries each, and every file skipped. -/
def overlong : Parts where
  header := jsonBytes emptyHeader
  manifests := List.replicate (2 ^ 11)
    (jsonBytes (.arr (List.replicate (2 ^ 21) (manifestItem noFile))))
  files := (List.range' 0 (2 ^ 32)).map fun index => ([], jsonBytes (skippedEnd index))
  records := []
  trailer := jsonBytes emptyTrailer

def overlongContents : Contents where
  header := emptyHeader
  files := List.replicate (2 ^ 32) skippedRead
  records := []
  trailer := emptyTrailer

theorem renderItems_replicate (n : Nat) (v : Value) :
    (Json.renderItems (List.replicate n v)).length = n * ((Json.render v).length + 1) + 1 := by
  induction n with
  | zero => rw [Nat.zero_mul]; rfl
  | succ n ih =>
    rw [List.replicate_succ, Json.renderItems, List.length_cons, List.length_append, ih, Nat.succ_mul]
    omega

theorem jsonBytes_replicate_le (n : Nat) (v : Value) :
    (jsonBytes (.arr (List.replicate n v))).length ≤ n * ((Json.render v).length + 1) + 2 := by
  rw [jsonBytes, List.length_map]
  cases n with
  | zero => exact Nat.le_add_left _ _
  | succ n =>
    rw [List.replicate_succ, Json.render, List.length_cons, List.length_append, renderItems_replicate,
      Nat.succ_mul]
    omega

theorem missing_ne : Text.ofString "missing" ≠ Text.ofString "" := fun h =>
  absurd (Text.ofString_inj h) (by decide)

theorem skippedEnd_length (index : Nat) :
    (jsonBytes (skippedEnd index)).length = 30 + (Nat.toDigits 10 index).length := by
  have hend : skippedEnd index =
      dict [("index", nat index), ("skipped", .str (Text.ofString "missing"))] := by
    rw [skippedEnd, fileEnd, if_pos missing_ne]
  have hindex : (Json.escaped (Text.ofString "index")).length = 7 := by decide
  have hskipped : (Json.escaped (Text.ofString "skipped")).length = 9 := by decide
  have hmissing : (Json.escaped (Text.ofString "missing")).length = 9 := by decide
  have hnumber : (Json.Scalar.int index).text = Nat.toDigits 10 index := rfl
  rw [hend, jsonBytes, List.length_map]
  simp only [dict, List.map_cons, List.map_nil, Json.render, Json.renderMembers, nat, List.length_cons,
    List.length_append, List.length_nil, hindex, hskipped, hmissing, hnumber]
  omega

theorem skippedEnd_le {index : Nat} (h : index < 2 ^ 32) :
    (jsonBytes (skippedEnd index)).length ≤ maxFrameBytes := by
  have hdigits := (Nat.length_toDigits_le_iff (b := 10) (n := index) (k := 10) (by decide)
    (by decide)).mpr
    (Nat.lt_trans h (by decide))
  have hmax : 40 ≤ maxFrameBytes := by decide
  rw [skippedEnd_length]
  omega

theorem mem_filesFrom_skipped {f : Frame} {first index n : Nat}
    (h : f ∈ filesFrom first ((List.range' index n).map fun i => ([], jsonBytes (skippedEnd i)))) :
    ∃ i < index + n, f = ⟨.fileEnd, jsonBytes (skippedEnd i)⟩ := by
  induction n generalizing first index with
  | zero => exact absurd h List.not_mem_nil
  | succ n ih =>
    rw [List.range'_succ, List.map_cons, filesFrom, List.mem_append] at h
    rcases h with h | h
    · exact ⟨index, by omega, List.mem_singleton.mp h⟩
    · obtain ⟨i, hi, hf⟩ := ih h
      exact ⟨i, by omega, hf⟩

theorem filesOf_skipped (index n : Nat) :
    FilesOf .compact index ((List.range' index n).map fun i => ([], jsonBytes (skippedEnd i)))
      (List.replicate n noFile) (List.replicate n skippedRead) := by
  induction n generalizing index with
  | zero => exact .nil index
  | succ n ih =>
    rw [List.range'_succ, List.map_cons, List.replicate_succ, List.replicate_succ]
    exact .cons (fileOf_skipped noFile [] missing_ne (compact_reads _)) (ih (index + 1))

theorem mapM_replicate {α β : Type} {f : α → Except Failure β} {a : α} {b : β} (h : f a = .ok b)
    (n : Nat) :
    (List.replicate n a).mapM f = .ok (List.replicate n b) := by
  induction n with
  | zero => rfl
  | succ n ih =>
    rw [List.replicate_succ, List.mapM_cons, h, ih]
    rfl

theorem forall₂_replicate {α β : Type} {R : α → β → Prop} {a : α} {b : β} (h : R a b) (n : Nat) :
    List.Forall₂ R (List.replicate n a) (List.replicate n b) := by
  induction n with
  | zero => exact .nil
  | succ n ih => exact .cons h ih

theorem grammar_overlong : Grammar .compact overlong overlongContents where
  limit := by
    intro f hf
    rcases mem_frames.mp hf with rfl | hf | hf | hf | rfl
    · exact Nat.le_trans (show (jsonBytes emptyHeader).length ≤ 100 by decide) (by decide)
    · obtain ⟨body, hbody, rfl⟩ := List.mem_map.mp hf
      rw [List.eq_of_mem_replicate hbody]
      have hitem : (Json.render (manifestItem noFile)).length = 78 := by decide
      have hlen := jsonBytes_replicate_le (2 ^ 21) (manifestItem noFile)
      rw [hitem] at hlen
      exact Nat.le_trans hlen (by decide)
    · obtain ⟨i, hi, rfl⟩ := mem_filesFrom_skipped hf
      exact skippedEnd_le (by omega)
    · exact absurd hf List.not_mem_nil
    · exact Nat.le_trans (show (jsonBytes emptyTrailer).length ≤ 100 by decide) (by decide)
  header := ⟨emptyHeader, compact_loads _, rfl⟩
  files := by
    refine ⟨List.replicate (2 ^ 11) (List.replicate (2 ^ 21) noFile), ?_, ?_⟩
    · refine forall₂_replicate ⟨_, compact_loads _, mapM_replicate ?_ _⟩ _
      exact (checkedEntry_manifestItem noFile noFile).mpr ⟨rfl, rfl⟩
    · rw [List.flatten_replicate_replicate]
      exact filesOf_skipped 0 (2 ^ 32)
  records := .nil
  ranks := ⟨[], .nil, .nil⟩
  trailer := ⟨emptyTrailer, compact_loads _, rfl⟩

/-- **One entry too many**: a payload of the grammar that lists 2^32 files is not read through. -/
theorem too_many_files : Grammar .compact overlong overlongContents ∧
    readThrough .compact [overlong.bytes] ≠ .ok overlongContents := by
  refine ⟨grammar_overlong, fun h => ?_⟩
  have hlen := ((readThrough_iff _ _ _).mp h).2
  rw [overlongContents, List.length_replicate] at hlen
  exact absurd hlen (by decide)

end Overlong

end Dbs.Payload

/-
  File:      Dbs/Payload/Grammar.lean
  Subject:   WHAT A PAYLOAD IS: the magic, a header, manifest frames, each file's data and end,
             records in the order of their ranks, a trailer, and nothing behind it.

  * `Parts` -- the bodies of the frames, in their places; `Parts.bytes`;
  * `Grammar` -- bodies that are well formed, and what they say; `FileOf`, `Ranked`;
  * `next_ok` -- a frame is read exactly where one stands; `bytes_inj`;
  * `ahead`, `Moved` -- the bytes not read yet, one frame looked at among them; `peek_ok`,
    `takeFrame_ok`.
-/
import Dbs.Payload.Pieces

namespace Dbs.Payload

open Octets Effects
open Json (Value Text)

/-! ## 1. The grammar -/

/-- The bodies of a payload's frames: of a file its chunks and its end. -/
structure Parts where
  header : Bytes
  manifests : List Bytes
  files : List (List Bytes × Bytes)
  records : List Bytes
  trailer : Bytes

def dataFrame (index : Nat) (chunk : Bytes) : Frame :=
  ⟨.fileData, indexBytes index ++ chunk⟩

def fileFrames (index : Nat) (file : List Bytes × Bytes) : List Frame :=
  file.1.map (dataFrame index) ++ [⟨.fileEnd, file.2⟩]

def filesFrom : Nat → List (List Bytes × Bytes) → List Frame
  | _, [] => []
  | index, file :: files => fileFrames index file ++ filesFrom (index + 1) files

def stored (frames : List Frame) : Bytes := frames.flatMap Frame.bytes

def Parts.frames (p : Parts) : List Frame :=
  ⟨.header, p.header⟩ :: (p.manifests.map (Frame.mk .manifest) ++ (filesFrom 0 p.files ++
    (p.records.map (Frame.mk .records) ++ [⟨.trailer, p.trailer⟩])))

def Parts.bytes (p : Parts) : Bytes := payloadMagic ++ stored p.frames

def ManifestOf (D : Decoding) (body : Bytes) (entries : List FileEntry) : Prop :=
  ∃ values, D.loads body = some (.arr values) ∧ values.mapM checkedEntry = .ok entries

/-- The end of a file: its size and digest are those of its data, or it says why it was skipped. -/
def FileOf (D : Decoding) (index : Nat) (entry : FileEntry) (file : List Bytes × Bytes)
    (read : FileRead) : Prop :=
  ∃ value, D.loads file.2 = some value ∧ isDict value = true ∧
    equals (member value "index") index = true ∧
    ((member value "skipped" = null ∧
        count (member value "size") = some file.1.flatten.length ∧
        member value "sha256" = .str (D.hexdigest file.1.flatten) ∧
        read = { entry := { entry with sha256 := D.hexdigest file.1.flatten }, chunks := file.1,
                 size := file.1.flatten.length, sha256 := D.hexdigest file.1.flatten }) ∨
      ∃ reason, member value "skipped" = .str reason ∧ reason ≠ Text.ofString "" ∧
        read = { entry, chunks := file.1, skipped := reason })

/-- The files from an index on, with their entries. -/
inductive FilesOf (D : Decoding) :
    Nat → List (List Bytes × Bytes) → List FileEntry → List FileRead → Prop
  | nil (index : Nat) : FilesOf D index [] [] []
  | cons {index : Nat} {file : List Bytes × Bytes} {files : List (List Bytes × Bytes)}
      {entry : FileEntry} {entries : List FileEntry} {read : FileRead} {reads : List FileRead}
      (h : FileOf D index entry file read) (hs : FilesOf D (index + 1) files entries reads) :
      FilesOf D index (file :: files) (entry :: entries) (read :: reads)

/-- A well-formed record of a model of this rank. -/
def Ranked (order : List Text) (record : Value) (found : Nat) : Prop :=
  isDict record = true ∧ isDict (member record "fields") = true ∧
    (∃ label, member record "model" = .str label ∧ rank order label = some found) ∧
    isScalar (member record "pk") = true

/-- The parts are well formed, and say `c`. -/
structure Grammar (D : Decoding) (p : Parts) (c : Contents) : Prop where
  limit : ∀ f ∈ p.frames, f.Fits
  header : ∃ value, D.loads p.header = some value ∧ checkedHeader value = .ok c.header
  files : ∃ entries, List.Forall₂ (ManifestOf D) p.manifests entries ∧
    FilesOf D 0 p.files entries.flatten c.files
  records : List.Forall₂ (fun body batch => D.loadsText body = some (.arr batch)) p.records c.records
  ranks : ∃ ranks, List.Forall₂ (Ranked (orderOf c.header)) c.records.flatten ranks ∧
    ranks.Pairwise (· ≤ ·)
  trailer : ∃ value, D.loads p.trailer = some value ∧ checkedTrailer value = .ok c.trailer

/-! ## 2. A frame where one stands -/

section Frames

variable {f g : Frame} {bytes tail rest : Bytes}

theorem framePrefix_size : Struct.size framePrefix = 5 := rfl

theorem ofCode_code (kind : FrameKind) : FrameKind.ofCode kind.code = some kind := by
  cases kind <;> rfl

theorem code_of_ofCode {code : Nat} {kind : FrameKind} (h : FrameKind.ofCode code = some kind) :
    kind.code = code := by
  unfold FrameKind.ofCode at h
  simpa using List.find?_some h

theorem code_lt (kind : FrameKind) : kind.code < 256 := by
  cases kind <;> decide

theorem Frame.Fits.head_fits (h : f.Fits) : Struct.Fits framePrefix f.head :=
  ⟨code_lt f.kind, Nat.lt_of_le_of_lt h (by decide), trivial⟩

theorem bytes_length (f : Frame) : f.bytes.length = 5 + f.body.length := by
  rw [Frame.bytes, List.length_append, Struct.pack_length]
  rfl

theorem takeBytes_ok {size : Nat} {body : Bytes} : exec (takeBytes size) bytes = (.ok body, rest) ↔
    body.length = size ∧ bytes = body ++ rest := by
  unfold takeBytes
  rw [exec_bind_ok (exec_get bytes)]
  split
  · rename_i hsize
    rw [exec_bind_ok (exec_set bytes _)]
    constructor
    · intro h
      obtain ⟨hbody, rfl⟩ := Prod.mk.inj h
      rw [← Except.ok.inj hbody]
      exact ⟨List.length_take_of_le hsize, (List.take_append_drop size bytes).symm⟩
    · intro h
      rw [h.2, List.take_left' h.1, List.drop_left' h.1]
      rfl
  · rename_i hsize
    constructor
    · exact fun h => absurd (congrArg Prod.fst h) nofun
    · intro h
      rw [h.2, List.length_append, h.1] at hsize
      omega

/-- **A frame is read where one stands.** -/
theorem next_of_frame (hf : f.Fits) : exec nextBytes (f.bytes ++ rest) = (.ok (some f), rest) := by
  have hlen : Struct.size framePrefix ≤ (f.bytes ++ rest).length := by
    rw [List.length_append, bytes_length, framePrefix_size]
    omega
  have htake : (f.bytes ++ rest).take (Struct.size framePrefix) = Struct.pack framePrefix f.head := by
    rw [Frame.bytes, List.append_assoc, List.take_left' (Struct.pack_length _ _)]
  have hdrop : (f.bytes ++ rest).drop (Struct.size framePrefix) = f.body ++ rest := by
    rw [Frame.bytes, List.append_assoc, List.drop_left' (Struct.pack_length _ _)]
  unfold nextBytes
  rw [exec_bind_ok (exec_get _), if_pos hlen, htake, Struct.fields_pack hf.head_fits, hdrop]
  dsimp only [Frame.head]
  rw [ofCode_code]
  dsimp only
  rw [if_neg (Nat.not_lt.mpr hf), exec_bind_ok (exec_set _ _),
    exec_bind_ok (takeBytes_ok.mpr ⟨rfl, rfl⟩)]
  rfl

theorem frame_of_next (h : exec nextBytes bytes = (.ok (some f), rest)) :
    f.Fits ∧ bytes = f.bytes ++ rest := by
  unfold nextBytes at h
  rw [exec_bind_ok (exec_get _)] at h
  split at h
  · rename_i hlen
    have hhead : (bytes.take (Struct.size framePrefix)).length = Struct.size framePrefix :=
      List.length_take_of_le hlen
    have hpack := Struct.pack_fields hhead trivial
    -- what the prefix says
    obtain ⟨head, hfields⟩ : ∃ head : Struct.Values framePrefix,
        Struct.fields framePrefix (bytes.take (Struct.size framePrefix)) = head := ⟨_, rfl⟩
    rw [hfields] at h hpack
    obtain ⟨code, length, u⟩ : Nat × Nat × Unit := head
    cases hkind : FrameKind.ofCode code with
    | none =>
      simp only [hkind] at h
      exact absurd (congrArg Prod.fst h) nofun
    | some kind =>
      simp only [hkind] at h
      split at h
      · exact absurd (congrArg Prod.fst h) nofun
      · rename_i hlimit
        obtain ⟨_, bytes', hset, h⟩ := bind_eq_ok h
        rw [exec_set] at hset
        obtain ⟨body, tail, hbody, h⟩ := bind_eq_ok h
        rw [← (Prod.mk.inj hset).2] at hbody
        obtain ⟨hlength, hdrop⟩ := takeBytes_ok.mp hbody
        obtain ⟨hframe, hrest⟩ := Prod.mk.inj h
        have hf : f = ⟨kind, body⟩ := (Option.some.inj (Except.ok.inj hframe)).symm
        have hhead : f.head = (code, length, u) := by
          rw [hf, Frame.head, code_of_ofCode hkind, hlength]; rfl
        refine ⟨?_, ?_⟩
        · rw [hf, Frame.Fits, hlength]; exact Nat.not_lt.mp hlimit
        · rw [Frame.bytes, hhead, hpack, hf, ← hrest, List.append_assoc, ← hdrop,
            List.take_append_drop]
  · split at h
    · exact absurd (congrArg Prod.fst h) nofun
    · exact absurd (congrArg Prod.fst h) nofun

/-- **A frame is read exactly where one stands.** -/
theorem next_ok : exec nextBytes bytes = (.ok (some f), rest) ↔ f.Fits ∧ bytes = f.bytes ++ rest :=
  ⟨frame_of_next, fun h => h.2 ▸ next_of_frame h.1⟩

/-- It ends exactly where nothing is left. -/
theorem next_end : exec nextBytes bytes = (.ok none, rest) ↔ bytes = [] ∧ rest = [] := by
  constructor
  · intro h
    unfold nextBytes at h
    rw [exec_bind_ok (exec_get _)] at h
    split at h
    · obtain ⟨head, hfields⟩ : ∃ head : Struct.Values framePrefix,
          Struct.fields framePrefix (bytes.take (Struct.size framePrefix)) = head := ⟨_, rfl⟩
      rw [hfields] at h
      obtain ⟨code, length, u⟩ : Nat × Nat × Unit := head
      cases hkind : FrameKind.ofCode code with
      | none =>
        simp only [hkind] at h
        exact absurd (congrArg Prod.fst h) nofun
      | some kind =>
        simp only [hkind] at h
        split at h
        · exact absurd (congrArg Prod.fst h) nofun
        · obtain ⟨-, _, -, h⟩ := bind_eq_ok h
          obtain ⟨body, tail, -, h⟩ := bind_eq_ok h
          exact absurd (congrArg Prod.fst h) nofun
    · split at h
      · exact absurd (congrArg Prod.fst h) nofun
      · rename_i hempty
        have hnil := List.length_eq_zero_iff.mp (not_not.mp hempty)
        exact ⟨hnil, (Prod.mk.inj h).2 ▸ hnil⟩
  · intro h
    rw [h.1, h.2]
    rfl

theorem bytes_inj (hf : f.Fits) (hg : g.Fits) (h : f.bytes ++ rest = g.bytes ++ tail) :
    f = g ∧ rest = tail := by
  have hread := (next_ok.mpr ⟨hf, rfl⟩).symm.trans (next_ok.mpr ⟨hg, h⟩)
  obtain ⟨hframe, hrest⟩ := Prod.mk.inj hread
  exact ⟨Option.some.inj (Except.ok.inj hframe), hrest⟩

end Frames

/-! ## 3. One frame ahead -/

section Ahead

variable {t u : PayloadReader Bytes} {f : Frame} {tail : Bytes}

/-- The bytes not read yet, the frame looked at among them. -/
def ahead (t : PayloadReader Bytes) : Bytes := (t.pending.elim [] Frame.bytes) ++ t.frames

/-- The frame looked at is one. -/
def Ready (t : PayloadReader Bytes) : Prop := ∀ f ∈ t.pending, f.Fits

/-- Only frames have been read, up to `tail`. -/
structure Moved (t u : PayloadReader Bytes) (tail : Bytes) : Prop where
  ahead : ahead u = tail
  ready : Ready u
  same : ∃ pending frames, u = { t with pending, frames }

theorem ready_some (hf : f.Fits) (h : t.pending = some f) : Ready t :=
  fun _ hg => Option.some.inj (h.symm.trans hg) ▸ hf

theorem ready_none (h : t.pending = none) : Ready t := fun _ hg => absurd (h.symm.trans hg) nofun

theorem ahead_none (h : t.pending = none) : ahead t = t.frames := by rw [ahead, h]; rfl

theorem ahead_some (h : t.pending = some f) : ahead t = f.bytes ++ t.frames := by rw [ahead, h]; rfl

theorem peek_ok (ht : Ready t) : exec (peek nextBytes) t = (.ok f, u) ↔
    ∃ tail, f.Fits ∧ ahead t = f.bytes ++ tail ∧ u = { t with pending := some f, frames := tail } := by
  unfold peek
  rw [exec_bind_ok (exec_get t)]
  cases hp : t.pending with
  | some g =>
    have hg := ht g hp
    have hsame : t = { t with pending := some g, frames := t.frames } := by rw [← hp]
    rw [ahead_some hp]
    constructor
    · intro h
      obtain ⟨hfound, hu⟩ := Prod.mk.inj h
      rw [← Except.ok.inj hfound]
      exact ⟨t.frames, hg, rfl, hu ▸ hsame⟩
    · intro h
      obtain ⟨tail, hf, hahead, rfl⟩ := h
      obtain ⟨rfl, rfl⟩ := bytes_inj hg hf hahead
      exact congrArg (Prod.mk _) hsame
  | none =>
    rw [ahead_none hp]
    have hnext : exec (focus PayloadReader.frames (fun t frames => { t with frames }) nextBytes) t =
        ((exec nextBytes t.frames).1, { t with frames := (exec nextBytes t.frames).2 }) :=
      exec_focus _ _ _ t
    constructor
    · intro h
      obtain ⟨found, v, hfound, h⟩ := bind_eq_ok h
      obtain ⟨hr, hv⟩ := Prod.mk.inj (hnext.symm.trans hfound)
      cases found with
      | none => exact absurd (congrArg Prod.fst h) nofun
      | some g =>
        rw [exec_bind_ok (exec_modify _ v)] at h
        obtain ⟨hg, hu⟩ := Prod.mk.inj h
        obtain rfl := Except.ok.inj hg
        obtain ⟨hf, hframes⟩ := next_ok.mp (Prod.ext hr rfl :
          exec nextBytes t.frames = (.ok (some g), (exec nextBytes t.frames).2))
        exact ⟨_, hf, hframes, by rw [← hu, ← hv]⟩
    · intro h
      obtain ⟨tail, hf, hahead, rfl⟩ := h
      have hread := next_ok.mpr ⟨hf, hahead⟩
      rw [hread] at hnext
      rw [exec_bind_ok hnext]
      rfl

theorem takeFrame_ok (ht : Ready t) : exec (takeFrame nextBytes) t = (.ok f, u) ↔
    ∃ tail, f.Fits ∧ ahead t = f.bytes ++ tail ∧ u = { t with pending := none, frames := tail } := by
  unfold takeFrame
  constructor
  · intro h
    obtain ⟨found, v, hfound, h⟩ := bind_eq_ok h
    obtain ⟨tail, hf, hahead, rfl⟩ := (peek_ok ht).mp hfound
    rw [exec_bind_ok (exec_modify _ _)] at h
    obtain ⟨hg, hu⟩ := Prod.mk.inj h
    cases hg
    exact ⟨tail, hf, hahead, hu.symm⟩
  · intro h
    obtain ⟨tail, hf, hahead, rfl⟩ := h
    rw [exec_bind_ok ((peek_ok ht).mpr ⟨tail, hf, hahead, rfl⟩), exec_bind_ok (exec_modify _ _)]
    rfl

theorem expect_ok {phase : Phase} : exec (expect phase) t = (.ok ⟨⟩, u) ↔ t.phase = phase ∧ u = t := by
  unfold expect
  rw [exec_bind_ok (exec_get t)]
  by_cases h : t.phase = phase
  · rw [if_neg (not_not.mpr h)]
    exact ⟨fun hu => ⟨h, (Prod.mk.inj hu).2.symm⟩, fun hu => hu.2 ▸ rfl⟩
  · rw [if_pos h]
    exact ⟨fun hu => absurd (congrArg Prod.fst hu) nofun, fun hu => absurd hu.1 h⟩

theorem parsed_ok {value : Option Value} {what : String} {v : Value} :
    exec (parsed value what) t = (.ok v, u) ↔ value = some v ∧ u = t := by
  cases value with
  | none => exact ⟨fun h => absurd (congrArg Prod.fst h) nofun, fun h => absurd h.1 nofun⟩
  | some value =>
    constructor
    · intro h
      obtain ⟨hv, hu⟩ := Prod.mk.inj h
      exact ⟨congrArg some (Except.ok.inj hv), hu.symm⟩
    · intro h
      rw [h.2, ← Option.some.inj h.1]
      rfl

theorem give_ok {α : Type} {x : Except Failure α} {a : α} :
    exec (give x) t = (.ok a, u) ↔ x = .ok a ∧ u = t := by
  rw [exec_give, Prod.mk.injEq]
  exact and_congr_right fun _ => eq_comm

end Ahead

end Dbs.Payload

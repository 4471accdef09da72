/-
  File:      Dbs/Payload/Carried.lean
  Subject:   WHAT A PRODUCED PAYLOAD CARRIES: the reader's side of engine/frames.py against the
             production of engine/backup.py.

  * `accepted_whole` -- a payload that reads through is no beginning of another one;
  * `Carries` -- what went in comes out; `Accurate` -- and the statistics count it;
  * `Legible` -- what the serializer gives is read back, and the rows stand in the order of the pages;
  * `grammar_produced` -- what is emitted is a payload of the grammar where every key is a plain value;
  * `produced_read` -- so it reads through, in whatever pieces, and carries the backup.
-/
import Dbs.Payload.Produced

namespace Dbs.Payload

open Octets Effects
open Json (Value Text Keyed)

/-! ## 1. Beginnings of payloads -/

section Beginnings

/-- **Frames that begin others** are the first of them. -/
theorem frames_of_prefix {fs gs : List Frame} {rest : Bytes} (hfs : ∀ f ∈ fs, f.Fits)
    (hgs : ∀ g ∈ gs, g.Fits) (h : stored fs ++ rest = stored gs) : fs <+: gs := by
  induction fs generalizing gs with
  | nil => exact List.nil_prefix
  | cons f fs ih =>
    cases gs with
    | nil =>
      have hlen := length_le_stored (f :: fs)
      rw [(List.append_eq_nil_iff.mp h).1] at hlen
      exact absurd hlen (Nat.not_succ_le_zero _)
    | cons g gs =>
      rw [stored_cons, stored_cons, List.append_assoc] at h
      obtain ⟨rfl, hrest⟩ := bytes_inj (hfs f List.mem_cons_self) (hgs g List.mem_cons_self) h
      exact List.cons_prefix_cons.mpr ⟨rfl, ih (fun x hx => hfs x (List.mem_cons_of_mem _ hx))
        (fun x hx => hgs x (List.mem_cons_of_mem _ hx)) hrest⟩

theorem kind_ne_of_mem_filesFrom {index : Nat} {files : List (List Bytes × Bytes)} {f : Frame}
    (h : f ∈ filesFrom index files) : f.kind ≠ .trailer := by
  induction files generalizing index with
  | nil => exact absurd h List.not_mem_nil
  | cons file files ih =>
    rw [filesFrom, fileFrames, List.mem_append, List.mem_append] at h
    rcases h with (h | h) | h
    · obtain ⟨chunk, -, rfl⟩ := List.mem_map.mp h
      intro h
      cases h
    · rw [List.mem_singleton.mp h]
      intro h
      cases h
    · exact ih h

/-- The trailer stands behind all other frames. -/
theorem kind_ne_of_mem_bodyFrames {p : Parts} {f : Frame} (h : f ∈ bodyFrames p) :
    f.kind ≠ .trailer := by
  rw [bodyFrames, List.mem_cons, List.mem_append, List.mem_append, List.mem_map, List.mem_map] at h
  rcases h with rfl | ⟨_, -, rfl⟩ | h | ⟨_, -, rfl⟩
  · intro h
    cases h
  · intro h
    cases h
  · exact kind_ne_of_mem_filesFrom h
  · intro h
    cases h

/-- **A payload that reads through is no beginning of another one**: nothing can be cut off, and nothing
    can follow. -/
theorem accepted_whole (D : Decoding) {pieces pieces' : List Bytes} {c c' : Contents}
    (h : readThrough D pieces = .ok c) (h' : readThrough D pieces' = .ok c')
    (hbegins : pieces.flatten <+: pieces'.flatten) : pieces.flatten = pieces'.flatten ∧ c = c' := by
  obtain ⟨⟨p, hp, hgrammar⟩, -⟩ := (readThrough_iff D pieces c).mp h
  obtain ⟨⟨q, hq, hgrammar'⟩, -⟩ := (readThrough_iff D pieces' c').mp h'
  obtain ⟨rest, hrest⟩ := hbegins
  rw [hp, hq, Parts.bytes, Parts.bytes, List.append_assoc] at hrest
  have hframes := frames_of_prefix hgrammar.limit hgrammar'.limit (List.append_cancel_left hrest)
  rw [frames_eq_body q] at hframes
  have hsame : pieces.flatten = pieces'.flatten := by
    rcases List.prefix_concat_iff.mp hframes with hall | hbody
    · rw [hp, hq, Parts.bytes, Parts.bytes, hall, frames_eq_body q]
    · have hlast : ⟨.trailer, p.trailer⟩ ∈ p.frames := mem_frames.mpr (.inr (.inr (.inr (.inr rfl))))
      exact absurd rfl (kind_ne_of_mem_bodyFrames (hbody.subset hlast))
  rw [readThrough_eq, hsame, ← readThrough_eq, h'] at h
  exact ⟨hsame, (Except.ok.inj h).symm⟩

end Beginnings

/-! ## 2. The parts of a production are a payload -/

/-- `json.loads` gives back what `json_bytes` wrote of a value whose objects hold no key twice. -/
def Decoding.ReadsKeyed (D : Decoding) : Prop := ∀ value, Keyed value → D.Reads value

section Keys

theorem keyed_dict {members : List (String × Value)} (hnodup : (members.map Prod.fst).Nodup)
    (hmembers : Json.KeyedMembers (members.map fun m => (Text.ofString m.1, m.2))) :
    Keyed (dict members) := by
  have hkeys : (members.map fun m => (Text.ofString m.1, m.2)).map Prod.fst =
      (members.map Prod.fst).map Text.ofString := by
    rw [List.map_map, List.map_map]
    rfl
  have hnodup' : ((members.map Prod.fst).map Text.ofString).Nodup :=
    hnodup.map fun _ _ h => Text.ofString_inj h
  exact ⟨hkeys ▸ hnodup', hmembers⟩

theorem keyed_optText (text : Option Text) : Keyed (optText text) := by
  cases text <;> trivial

theorem keyed_texts (texts : List Text) : Keyed (.arr (texts.map Value.str)) := by
  refine Json.keyedItems_iff.mpr fun v hv => ?_
  obtain ⟨text, -, rfl⟩ := List.mem_map.mp hv
  trivial

theorem keyed_headerValue {ρ κ : Type} (b : Backup ρ κ) : Keyed (headerValue b) := by
  have hmigrations : Keyed (.obj (b.migrations.map fun m => (m.1, Value.str m.2))) := by
    refine ⟨?_, Json.keyedMembers_iff.mpr fun m hm => ?_⟩
    · rw [List.map_map]
      exact b.migrations_nodup
    · obtain ⟨m, -, rfl⟩ := List.mem_map.mp hm
      trivial
  exact keyed_dict (by simp) ⟨trivial, trivial, trivial, hmigrations, keyed_texts _, trivial⟩

theorem keyed_trailerValue (stats : Stats) : Keyed (trailerValue stats) := by
  have hmodels : Keyed (.arr
    (stats.models.map fun m => dict [("model", .str m.1), ("count", nat m.2)])) := by
    refine Json.keyedItems_iff.mpr fun v hv => ?_
    obtain ⟨m, -, rfl⟩ := List.mem_map.mp hv
    exact keyed_dict (by simp) ⟨trivial, trivial, trivial⟩
  have hstats : Keyed stats.value :=
    keyed_dict (by simp) ⟨hmodels, trivial, trivial, keyed_texts _, trivial⟩
  exact keyed_dict (by simp) ⟨hstats, trivial⟩

theorem keyed_manifestItem {entry : FileEntry} (h : Keyed entry.pk) : Keyed (manifestItem entry) :=
  keyed_dict (by simp)
    ⟨trivial, trivial, keyed_optText _, h, keyed_optText _, trivial, keyed_optText _, trivial⟩

theorem keyed_manifestValue (batch : List SourceFile) : Keyed (manifestValue batch) := by
  refine Json.keyedItems_iff.mpr fun v hv => ?_
  obtain ⟨source, -, rfl⟩ := List.mem_map.mp hv
  exact keyed_manifestItem source.pk_keyed

theorem keyed_fileEnd (index size : Nat) (sha256 skipped : Text) :
    Keyed (fileEnd index size sha256 skipped) := by
  unfold fileEnd
  split
  · exact keyed_dict (by simp) ⟨trivial, trivial, trivial⟩
  · exact keyed_dict (by simp) ⟨trivial, trivial, trivial, trivial⟩

end Keys

/-! ## 3. What it says -/

section Carried

variable {ρ κ : Type} {D : Decoding} {b : Backup ρ κ} {stats : Stats}

/-- What the serializer gives for the rows of a model. -/
structure Serializes (D : Decoding) (model : Selected ρ κ) : Prop where
  loads : ∀ row ∈ model.table, D.loadsText (model.encode row).flatten = some (model.record row)
  record : ∀ row ∈ model.table, isDict (model.record row) = true
  fields : ∀ row ∈ model.table, isDict (member (model.record row) "fields") = true
  label : ∀ row ∈ model.table, member (model.record row) "model" = .str model.label

/-- Every key that is written is a plain value. -/
structure PlainKeys (b : Backup ρ κ) : Prop where
  files : ∀ source ∈ b.sources, isScalar source.entry.pk = true
  rows : ∀ model ∈ b.selection, ∀ row ∈ model.table, PlainKey (model.record row)

/-- A file as it is to be read. -/
def SourceFile.read (D : Decoding) (source : SourceFile) : FileRead :=
  match source.reason with
  | some reason =>
    { entry := { source.entry with sha256 := Text.ofString "" }, chunks :=
      source.chunks, skipped := reason }
  | none =>
    let data := source.chunks.flatten
    { entry := { source.entry with sha256 := D.hexdigest data }, chunks := source.chunks,
      size := data.length, sha256 := D.hexdigest data }

/-- **What went in comes out.** -/
structure Carries (D : Decoding) (b : Backup ρ κ) (stats : Stats) (c : Contents) : Prop where
  header : c.header = headerValue b
  files : c.files = b.sources.map (SourceFile.read D)
  records : c.records.flatten = b.selection.flatMap fun model => model.table.map model.record
  trailer : c.trailer = trailerValue stats

/-- The statistics are those of what went in. -/
structure Accurate (b : Backup ρ κ) (stats : Stats) : Prop where
  models : stats.models = b.selection.map fun model => (model.label, model.table.length)
  records : stats.records = (b.selection.map fun model => model.table.length).sum
  files : stats.files = b.sources.countP fun source => source.reason.isNone
  skipped : stats.skippedFiles = b.unlisted ++ b.sources.filterMap SourceFile.line

theorem any_items {values : List Value} {p : List Value → Bool} (h : p values = true) :
    (items (.arr values)).any p = true := h

theorem checkedHeader_headerValue (b : Backup ρ κ) : checkedHeader (headerValue b) = .ok
    (headerValue b) := by
  have hversion : member (headerValue b) "version" = nat payloadVersion := member_dict _ _
  have horder : member (headerValue b) "order" = .arr ((labels b.selection).map Value.str) :=
    member_dict _ _
  have hmigrations : member (headerValue b) "migrations" =
      .obj (b.migrations.map fun m => (m.1, .str m.2)) := member_dict _ _
  have hcreated : member (headerValue b) "created" = .str b.created := member_dict _ _
  have hdjango : member (headerValue b) "django_version" = .str b.djangoVersion := member_dict _ _
  have htexts : ((labels b.selection).map Value.str).all isText = true := by
    rw [List.all_map, List.all_eq_true]
    exact fun _ _ => rfl
  have hstates : (b.migrations.map fun m => (m.1, Value.str m.2)).all (fun m => isText m.2) = true := by
    rw [List.all_map, List.all_eq_true]
    exact fun _ _ => rfl
  unfold checkedHeader
  rw [guard_ok, hversion, equals_nat, horder]
  refine ⟨?_, ?_⟩
  · rw [decide_eq_true rfl]
    exact Bool.false_ne_true
  dsimp only
  rw [guard_ok, any_items htexts]
  refine ⟨Bool.false_ne_true, ?_⟩
  rw [hmigrations]
  dsimp only
  rw [hstates]
  simp only [List.forIn_cons, List.forIn_nil, hcreated, hdjango]
  rfl

theorem checkedTrailer_trailerValue (stats : Stats) :
    checkedTrailer (trailerValue stats) = .ok (trailerValue stats) := by
  have hstats : member (trailerValue stats) "stats" = stats.value := member_dict _ _
  have hmodels : member stats.value "models" =
      .arr (stats.models.map fun m => dict [("model", .str m.1), ("count", nat m.2)]) := member_dict _ _
  have hrecords : member stats.value "records" = nat stats.records := member_dict _ _
  have hfiles : member stats.value "files" = nat stats.files := member_dict _ _
  have hskipped : member stats.value "skipped_files" = .arr (stats.skippedFiles.map Value.str) :=
    member_dict _ _
  have hcounted : (stats.models.map fun m => dict [("model", .str m.1), ("count", nat m.2)]).all
      modelCounted = true := by
    rw [List.all_map, List.all_eq_true]
    intro m _
    have hmodel : member (dict [("model", .str m.1), ("count", nat m.2)]) "model" = .str m.1 :=
      member_dict _ _
    have hcount : member (dict [("model", .str m.1), ("count", nat m.2)]) "count" = nat m.2 :=
      member_dict _ _
    show modelCounted (dict [("model", .str m.1), ("count", nat m.2)]) = true
    rw [modelCounted, hmodel, hcount]
    rfl
  have htexts : (stats.skippedFiles.map Value.str).all isText = true := by
    rw [List.all_map, List.all_eq_true]
    exact fun _ _ => rfl
  unfold checkedTrailer
  rw [hstats]
  dsimp only
  rw [hmodels, hrecords, hfiles, hskipped, any_items hcounted, any_items htexts]
  rfl

theorem orderOf_headerValue (b : Backup ρ κ) : orderOf (headerValue b) = labels b.selection := by
  have horder : member (headerValue b) "order" = .arr ((labels b.selection).map Value.str) :=
    member_dict _ _
  rw [orderOf, horder]
  show ((labels b.selection).map Value.str).filterMap text? = _
  rw [List.filterMap_map]
  exact List.filterMap_some

/-! ### The manifest -/

/-- The entries as they are read. -/
def entriesOf (sources : List SourceFile) : List FileEntry :=
  sources.map fun source => { source.entry with sha256 := Text.ofString "" }

theorem manifestOf_batch {batch : List SourceFile} (hD : D.ReadsKeyed)
    (hplain : ∀ source ∈ batch, isScalar source.entry.pk = true) :
    ManifestOf D (jsonBytes (manifestValue batch)) (entriesOf batch) := by
  refine ⟨_, (hD _ (keyed_manifestValue batch)).1, ?_⟩
  induction batch with
  | nil => rfl
  | cons source batch ih =>
    have hone := (checkedEntry_manifestItem source.entry _).mpr ⟨hplain source List.mem_cons_self, rfl⟩
    have hmore := ih fun other hother => hplain other (List.mem_cons_of_mem _ hother)
    rw [List.map_cons, List.mapM_cons, hone, hmore]
    rfl

theorem manifests_produced (hD : D.ReadsKeyed) {sources : List SourceFile}
    (hplain : ∀ source ∈ sources, isScalar source.entry.pk = true) :
    ∃ entries, List.Forall₂ (ManifestOf D)
        ((pieces manifestBatch sources).map fun batch => jsonBytes (manifestValue batch)) entries ∧
      entries.flatten = entriesOf sources := by
  have hall : (pieces manifestBatch sources).flatten = sources := pieces_flatten (by decide) sources
  refine ⟨(pieces manifestBatch sources).map entriesOf, ?_, ?_⟩
  · rw [List.forall₂_map_left_iff, List.forall₂_map_right_iff, List.forall₂_same]
    intro batch hbatch
    exact manifestOf_batch hD fun source hsource =>
      hplain source (hall ▸ List.mem_flatten.mpr ⟨batch, hbatch, hsource⟩)
  · have hmap := List.map_flatten (f := fun source : SourceFile =>
      { source.entry with sha256 := Text.ofString "" }) (L := pieces manifestBatch sources)
    rw [hall] at hmap
    exact hmap.symm

/-! ### The files -/

theorem fileOf_source (hD : D.ReadsKeyed) (index : Nat) (source : SourceFile) :
    FileOf D index { source.entry with sha256 := Text.ofString "" }
      (source.chunks, jsonBytes (source.endValue D.hexdigest index)) (source.read D) := by
  unfold SourceFile.endValue SourceFile.read
  cases hreason : source.reason with
  | some reason =>
    exact fileOf_skipped _ source.chunks (source.reason_ne reason hreason)
      (hD _ (keyed_fileEnd _ _ _ _))
  | none => exact fileOf_fileEnd _ source.chunks (hD _ (keyed_fileEnd _ _ _ _))

theorem filesOf_sources (hD : D.ReadsKeyed) (index : Nat) (sources : List SourceFile) :
    FilesOf D index (fileParts D.hexdigest index sources) (entriesOf sources)
      (sources.map (SourceFile.read D)) := by
  induction sources generalizing index with
  | nil => exact .nil index
  | cons source sources ih => exact .cons (fileOf_source hD index source) (ih (index + 1))

/-! ### The records -/

/-- The ranks of the records of models in order. -/
def ranksFrom : (index : Nat) → List (Selected ρ κ) → List Nat
  | _, [] => []
  | index, model :: models => List.replicate model.table.length index ++ ranksFrom (index + 1) models

variable {models : List (Selected ρ κ)}

theorem le_of_mem_ranksFrom {index found : Nat}
    (h : found ∈ ranksFrom index models) : index ≤ found := by
  induction models generalizing index with
  | nil => exact absurd h List.not_mem_nil
  | cons model models ih =>
    rcases List.mem_append.mp h with h | h
    · exact Nat.le_of_eq (List.eq_of_mem_replicate h).symm
    · exact Nat.le_of_succ_le (ih h)

theorem pairwise_ranksFrom (index : Nat) (models : List (Selected ρ κ)) :
    (ranksFrom index models).Pairwise (· ≤ ·) := by
  induction models generalizing index with
  | nil => exact .nil
  | cons model models ih =>
    refine List.pairwise_append.mpr
      ⟨List.pairwise_replicate.mpr (.inr (Nat.le_refl _)), ih (index + 1), ?_⟩
    intro a ha found hfound
    rw [List.eq_of_mem_replicate ha]
    exact Nat.le_of_succ_le (le_of_mem_ranksFrom hfound)

/-- In an order without repetitions a label has one place. -/
theorem rank_of_nodup {order front more : List Text} {label : Text} (h : order = front ++ label :: more)
    (hnodup : order.Nodup) : rank order label = some front.length := by
  have hmore : label ∉ more := by
    rw [h] at hnodup
    exact (List.nodup_cons.mp (List.nodup_append.mp hnodup).2.1).1
  have hnone : (more.zipIdx (0 + front.length + 1)).reverse.find? (fun e => e.1 = label) = none := by
    refine List.find?_eq_none.mpr fun e he => ?_
    have hmem := List.fst_mem_of_mem_zipIdx (List.mem_reverse.mp he)
    rw [decide_eq_true_eq]
    exact fun heq => hmore (heq ▸ hmem)
  rw [rank, h, List.zipIdx_append, List.zipIdx_cons, List.reverse_append, List.reverse_cons,
    List.append_assoc, List.find?_append, hnone, Option.none_or, List.singleton_append, Nat.zero_add]
  exact congrArg (Option.map Prod.snd) (List.find?_cons_of_pos (decide_eq_true rfl))

theorem ranked_models {order : List Text} (front : List Text)
    (horder : order = front ++ labels models) (hnodup : order.Nodup)
    (hserializes : ∀ model ∈ models, Serializes D model)
    (hplain : ∀ model ∈ models, ∀ row ∈ model.table, PlainKey (model.record row)) :
    List.Forall₂ (Ranked order) (models.flatMap fun model => model.table.map model.record)
      (ranksFrom front.length models) := by
  induction models generalizing front with
  | nil => exact .nil
  | cons model models ih =>
    have hrank : rank order model.label = some front.length := rank_of_nodup horder hnodup
    have hthis := hserializes model List.mem_cons_self
    rw [List.flatMap_cons]
    refine List.rel_append ?_ ?_
    · rw [← List.map_const', List.forall₂_map_left_iff, List.forall₂_map_right_iff, List.forall₂_same]
      exact fun row hrow => ⟨hthis.record row hrow, hthis.fields row hrow,
        ⟨model.label, hthis.label row hrow, hrank⟩, hplain model List.mem_cons_self row hrow⟩
    · have hnext := ih (front ++ [model.label]) (by rw [horder, List.append_assoc]; rfl)
        (fun other hother => hserializes other (List.mem_cons_of_mem _ hother))
        (fun other hother => hplain other (List.mem_cons_of_mem _ hother))
      rw [List.length_append] at hnext
      exact hnext

variable [LinearOrder κ]

/-- A query by key gives the rows in the order of their keys. -/
def InOrder (model : Selected ρ κ) : Prop :=
  model.query.keyset = true → model.table.Pairwise fun x y => model.pk x < model.pk y

/-- **The batches of a model** are the records of its rows, each in a group of them. -/
theorem groups_of_batchesOf {model : Selected ρ κ} {batches : List (List (List Bytes))}
    (horder : InOrder model) (h : BatchesOf model batches) :
    ∃ groups : List (List ρ), groups.flatten = model.table ∧
      batches = groups.map fun group => group.map model.encode := by
  obtain ⟨pages, hpages, hbatched⟩ := h
  obtain ⟨pages', hpages', hflatten⟩ :=
    pages_flatten model.pk model.encode backupLimits.rows model.query (by decide) horder
  obtain rfl := Option.some.inj (hpages.symm.trans hpages')
  have hentries : (pages.flatMap fun chunk => chunk.map fun row => (row, model.encode row)) =
      model.table.map fun row => (row, model.encode row) := by
    rw [← hflatten, List.map_flatten]
    rfl
  rw [hentries] at hbatched
  have hnone : ¬ ∃ row ∈ model.table, AboveRowLimit backupLimits (model.encode row) := by
    intro habove
    obtain ⟨e, he, -⟩ := batched_refused habove
    rw [hbatched] at he
    cases he
  have hwhole := (batched_whole hnone).2
  rw [hbatched] at hwhole
  exact groups_of_batches hwhole

variable {batchess : List (List (List (List Bytes)))}

/-- **The frames of the models hold their records**, in order. -/
theorem values_of_batches (hD : D.ReadsArrays) (h : List.Forall₂ BatchesOf models batchess)
    (horder : ∀ model ∈ models, InOrder model) (hserializes : ∀ model ∈ models, Serializes D model) :
    ∃ values, List.Forall₂ (BatchOf D)
      (batchess.flatten.map fun batch => (recordsFrame batch).body) values ∧
      values.flatten = models.flatMap fun model => model.table.map model.record := by
  induction h with
  | nil => exact ⟨[], .nil, rfl⟩
  | @cons model batches models batchess hbatches _ ih =>
    obtain ⟨values, hvalues, hflatten⟩ :=
      ih (fun other hother => horder other (List.mem_cons_of_mem _ hother))
      (fun other hother => hserializes other (List.mem_cons_of_mem _ hother))
    obtain ⟨groups, hgroups, rfl⟩ := groups_of_batchesOf (horder model List.mem_cons_self) hbatches
    have hthis := hserializes model List.mem_cons_self
    refine ⟨(groups.map fun group => group.map model.record) ++ values, ?_, ?_⟩
    · rw [List.flatten_cons, List.map_append]
      refine List.rel_append ?_ hvalues
      rw [List.map_map, List.forall₂_map_left_iff, List.forall₂_map_right_iff, List.forall₂_same]
      intro group hgroup
      refine hD _ _ ?_
      rw [List.map_map, List.forall₂_map_left_iff, List.forall₂_map_right_iff, List.forall₂_same]
      exact fun row hrow => hthis.loads row (hgroups ▸ List.mem_flatten.mpr ⟨group, hgroup, hrow⟩)
    · rw [List.flatten_append, hflatten, List.flatMap_cons, ← List.map_flatten, hgroups]

/-! ## 4. The round trip -/

theorem counts_of_batches
    (h : List.Forall₂ BatchesOf models batchess) (horder : ∀ model ∈ models, InOrder model) :
    List.zipWith (fun model batches => (model.label, batches.flatten.length)) models batchess =
      models.map fun model => (model.label, model.table.length) := by
  induction h with
  | nil => rfl
  | @cons model batches models batchess hbatches _ ih =>
    obtain ⟨groups, hgroups, rfl⟩ := groups_of_batchesOf (horder model List.mem_cons_self) hbatches
    rw [List.zipWith_cons_cons, List.map_cons, ih fun other hother => horder other
      (List.mem_cons_of_mem _ hother), ← List.map_flatten, hgroups, List.length_map]

/-- Counted by batches, the statistics are those of the tables. -/
theorem Counted.accurate (h : Counted b [] stats batchess)
    (horder : ∀ model ∈ b.selection, InOrder model) : Accurate b stats := by
  have hmodels : stats.models = b.selection.map fun model => (model.label, model.table.length) := by
    rw [h.models, counts_of_batches h.batches horder]
  refine ⟨hmodels, ?_, h.files, h.skipped⟩
  rw [h.records, hmodels, List.map_map]
  rfl

/-- What the reader is to give, with the records in these batches. -/
def carried (D : Decoding) (b : Backup ρ κ) (stats : Stats)
    (values : List (List Value)) : Contents where
  header := headerValue b
  files := b.sources.map (SourceFile.read D)
  records := values
  trailer := trailerValue stats

omit [LinearOrder κ] in
theorem grammar_produced {values : List (List Value)}
    (hD : D.ReadsKeyed) (hplain : PlainKeys b) (hlabels : (labels b.selection).Nodup)
    (hserializes : ∀ model ∈ b.selection, Serializes D model)
    (hfits : ∀ f ∈ (partsOf D.hexdigest b stats batchess).frames, f.Fits)
    (hvalues : List.Forall₂ (BatchOf D)
      (batchess.flatten.map fun batch => (recordsFrame batch).body) values)
    (hflatten : values.flatten = b.selection.flatMap fun model => model.table.map model.record) :
    Grammar D (partsOf D.hexdigest b stats batchess) (carried D b stats values) where
  limit := hfits
  header := ⟨_, (hD _ (keyed_headerValue b)).1, checkedHeader_headerValue b⟩
  files := by
    obtain ⟨entries, hmanifests, hentries⟩ := manifests_produced hD hplain.files
    exact ⟨entries, hmanifests, hentries ▸ filesOf_sources hD 0 b.sources⟩
  records := hvalues
  ranks := by
    refine ⟨ranksFrom 0 b.selection, ?_, pairwise_ranksFrom 0 b.selection⟩
    show List.Forall₂ (Ranked (orderOf (headerValue b))) values.flatten _
    rw [orderOf_headerValue, hflatten]
    exact ranked_models [] rfl hlabels hserializes hplain.rows
  trailer := ⟨_, (hD _ (keyed_trailerValue stats)).1, checkedTrailer_trailerValue stats⟩

/-- The payloads of a backup can be told: what the serializer gives is read back, the labels of the
    models are different, and the rows of a model stand in the order of its pages. -/
structure Legible (D : Decoding) (b : Backup ρ κ) : Prop where
  keyed : D.ReadsKeyed
  arrays : D.ReadsArrays
  labels : (labels b.selection).Nodup
  inOrder : ∀ model ∈ b.selection, InOrder model
  serializes : ∀ model ∈ b.selection, Serializes D model

/-- **What a production that returned has emitted reads through**, in whatever pieces it comes, where
    every key is a plain value; what is read is what went in, and the statistics count it. -/
theorem produced_read (D : Decoding) (b : Backup ρ κ) (hlegible : Legible D b) (hplain : PlainKeys b)
    {stats : Stats} {t : Stream} (hrun : exec (produce D.hexdigest b) {} = (.ok stats, t))
    (pieces : List Bytes) (hpieces : pieces.flatten = t.emitted.flatten) :
    Accurate b stats ∧ ∃ c, readThrough D pieces = .ok c ∧ Carries D b stats c := by
  obtain ⟨batchess, hcounted, hfits, hbytes⟩ := (produce_ends D.hexdigest b).of_ok hrun
  obtain ⟨values, hvalues, hflatten⟩ :=
    values_of_batches hlegible.arrays hcounted.batches hlegible.inOrder hlegible.serializes
  refine ⟨hcounted.accurate hlegible.inOrder, carried D b stats values,
    (readThrough_iff D pieces _).mpr ⟨⟨_, hpieces.trans hbytes, ?_⟩, ?_⟩, rfl, rfl, hflatten, rfl⟩
  · exact grammar_produced hlegible.keyed hplain hlegible.labels hlegible.serializes hfits hvalues
      hflatten
  · rw [carried, List.length_map]
    exact hcounted.count

end Carried

/-! ## 5. A backup of two rows -/

section Pairs

/-- A file of two chunks, and one that is not there. -/
def pairSources : List SourceFile :=
  [{ entry := { noFile with kind := Text.ofString "root", name := Text.ofString "a.txt", size := 3 },
     pk_keyed := trivial, described := Text.ofString "/srv/a.txt", chunks := [ascii "ab", ascii "c"],
     reason := none, reason_ne := fun _ h => absurd h.symm (Option.some_ne_none _) },
   { entry := { noFile with kind := Text.ofString "root", name := Text.ofString "b.txt", size := 1 },
     pk_keyed := trivial, described := Text.ofString "/srv/b.txt", chunks := [],
     reason := some (Text.ofString "missing"),
     reason_ne := fun _ h => Option.some.inj h ▸ missing_ne }]

def pairs : Selected Nat Nat where
  label := pairLabel
  query := ⟨true, false⟩
  table := [1, 2]
  pk := id
  encode n := [jsonBytes (pairRecord (nat n))]
  record n := pairRecord (nat n)

def pairBackup : Backup Nat Nat where
  created := Text.ofString "2026-01-01T00:00:00+00:00"
  djangoVersion := Text.ofString "5.2"
  migrations := [(Text.ofString "app", Text.ofString "0001_initial")]
  migrations_nodup := List.nodup_singleton _
  selection := [pairs]
  sources := pairSources
  unlisted := []
  allowMissingFiles := true

theorem pairBackup_returns :
    (exec (produce Decoding.compact.hexdigest pairBackup) {}).1.isOk = true := by decide +kernel

theorem pairBackup_run :
    ∃ stats t, exec (produce Decoding.compact.hexdigest pairBackup) {} = (.ok stats, t) := by
  have hreturns := pairBackup_returns
  generalize exec (produce Decoding.compact.hexdigest pairBackup) {} = run at hreturns ⊢
  obtain ⟨result, t⟩ := run
  cases result with
  | ok stats => exact ⟨stats, t, rfl⟩
  | error e => cases hreturns

theorem pairs_serializes : Serializes .compact pairs where
  loads n _ := (pairRecord_serialized (nat n)).loads
  record n _ := (pairRecord_serialized (nat n)).record
  fields n _ := (pairRecord_serialized (nat n)).fields
  label _ _ := member_dict _ _

theorem pairBackup_plain : PlainKeys pairBackup where
  files source hsource := by
    have hmem : source ∈ pairSources := hsource
    rw [pairSources] at hmem
    rcases List.mem_cons.mp hmem with rfl | hsource
    · rfl
    · rw [List.mem_singleton.mp hsource]
      rfl
  rows model hmodel n _ := by
    rw [List.mem_singleton.mp hmodel, PlainKey]
    exact congrArg isScalar (pairRecord_pk (nat n))

theorem pairBackup_legible : Legible .compact pairBackup where
  keyed value _ := compact_reads value
  arrays := compact_readsArrays
  labels := List.nodup_singleton _
  inOrder model hmodel _ := by
    rw [List.mem_singleton.mp hmodel]
    decide
  serializes model hmodel := by
    rw [List.mem_singleton.mp hmodel]
    exact pairs_serializes

theorem produced_read_pairs : ∃ (stats : Stats) (t : Stream), Accurate pairBackup stats ∧
    ∃ c, readThrough .compact [t.emitted.flatten] = .ok c ∧ Carries .compact pairBackup stats c := by
  obtain ⟨stats, t, hrun⟩ := pairBackup_run
  exact ⟨stats, t, produced_read .compact pairBackup pairBackup_legible pairBackup_plain hrun _
    List.flatten_singleton⟩

/-- Its payload in the pieces as they were emitted, and in one. -/
theorem accepted_whole_pairs :
    ∃ (t : Stream) (c c' : Contents), readThrough .compact t.emitted = .ok c ∧
    readThrough .compact [t.emitted.flatten] = .ok c' ∧
    (t.emitted.flatten = [t.emitted.flatten].flatten ∧ c = c') := by
  obtain ⟨stats, t, hrun⟩ := pairBackup_run
  have hread := fun pieces =>
    produced_read .compact pairBackup pairBackup_legible pairBackup_plain hrun pieces
  obtain ⟨-, c, hc, -⟩ := hread t.emitted rfl
  obtain ⟨-, c', hc', -⟩ := hread [t.emitted.flatten] List.flatten_singleton
  refine ⟨t, c, c', hc, hc', accepted_whole .compact hc hc' ?_⟩
  rw [List.flatten_singleton]

end Pairs

end Dbs.Payload

/-
  File:      Dbs/Payload/Phases.lean
  Subject:   THE PHASES OF THE READER, each against its part of the grammar.

  * `readManifests_sound`, `readManifests_complete` -- the manifest frames;
  * `finishFile_ok` -- a file's end; `readChunks_…`, `readFilesFrom_…` -- a file, and the files in
    order;
  * `RisesTo` -- ranks that never fall; `checkedRecords_ok`; `readBatches_…` -- the frames of records;
  * `readHeader_ok`, `readManifest_…`, `readFiles_…`, `recordBatches_…`, `readTrailer_ok`, `finish_ok`.
-/
import Dbs.Payload.Grammar

namespace Dbs.Payload

open Octets Effects
open Json (Value Text)

/-! ## 1. The manifest -/

section Manifest

variable {D : Decoding} {t u : PayloadReader Bytes} {tail : Bytes}

theorem stored_cons (f : Frame) (frames : List Frame) :
    stored (f :: frames) = f.bytes ++ stored frames := List.flatMap_cons

theorem forall₂_append_left {α β : Type} {R : α → β → Prop} {as bs : List α} {cs : List β}
    (h : List.Forall₂ R (as ++ bs) cs) :
    ∃ cs₁ cs₂, List.Forall₂ R as cs₁ ∧ List.Forall₂ R bs cs₂ ∧ cs = cs₁ ++ cs₂ := by
  induction as generalizing cs with
  | nil => exact ⟨[], cs, .nil, h, rfl⟩
  | cons a as ih =>
    cases h with
    | cons ha hs =>
      obtain ⟨cs₁, cs₂, h1, h2, rfl⟩ := ih hs
      exact ⟨_ :: cs₁, cs₂, .cons ha h1, h2, rfl⟩

theorem stored_append (fs gs : List Frame) : stored (fs ++ gs) = stored fs ++ stored gs :=
  List.flatMap_append

theorem items_eq_some {value : Value} {values : List Value} :
    items value = some values ↔ value = .arr values := by
  cases value with
  | arr vs => exact ⟨fun h => congrArg Value.arr (Option.some.inj h), fun h => Value.arr.inj h ▸ rfl⟩
  | scalar _ | str _ | obj _ => exact ⟨nofun, nofun⟩

theorem readItems_ok {body : Bytes} : exec (readItems D body) t = (.ok ⟨⟩, u) ↔
    ∃ entries, ManifestOf D body entries ∧ (t.entries ++ entries).length ≤ maxFiles ∧
      u = { t with entries := t.entries ++ entries } := by
  unfold readItems
  constructor
  · intro h
    obtain ⟨value, v, hvalue, hread⟩ := bind_eq_ok h
    obtain ⟨hloads, rfl⟩ := parsed_ok.mp hvalue
    cases hitems : items value with
    | none =>
      simp only [hitems] at hread
      exact absurd (congrArg Prod.fst hread) nofun
    | some values =>
      simp only [hitems] at hread
      obtain ⟨entries, v', hentries, hcount⟩ := bind_eq_ok hread
      obtain ⟨hmap, rfl⟩ := give_ok.mp hentries
      rw [exec_bind_ok (exec_modify _ _), exec_bind_ok (exec_get _)] at hcount
      split at hcount
      · exact absurd (congrArg Prod.fst hcount) nofun
      · rename_i hlen
        rw [items_eq_some] at hitems
        exact ⟨entries, ⟨values, by rw [hloads, hitems], hmap⟩, Nat.not_lt.mp hlen,
          (Prod.mk.inj hcount).2.symm⟩
  · intro h
    obtain ⟨entries, ⟨values, hloads, hmap⟩, hlen, rfl⟩ := h
    rw [exec_bind_ok (parsed_ok.mpr ⟨hloads, rfl⟩)]
    show exec (give (values.mapM checkedEntry) >>= _) t = _
    rw [exec_bind_ok (give_ok.mpr ⟨hmap, rfl⟩), exec_bind_ok (exec_modify _ _),
      exec_bind_ok (exec_get _), if_neg (Nat.not_lt.mpr hlen)]
    rfl

theorem readManifests_sound {fuel : Nat} (ht : Ready t)
    (h : exec (readManifests D nextBytes fuel) t = (.ok ⟨⟩, u)) :
    ∃ bodies entries tail, List.Forall₂ (ManifestOf D) bodies entries ∧
      (∀ f ∈ bodies.map (Frame.mk .manifest), f.Fits) ∧
      ahead t = stored (bodies.map (Frame.mk .manifest)) ++ tail ∧
      (t.entries.length ≤ maxFiles → (t.entries ++ entries.flatten).length ≤ maxFiles) ∧
      Moved { t with entries := t.entries ++ entries.flatten } u tail := by
  induction fuel generalizing t with
  | zero => exact absurd (congrArg Prod.fst h) nofun
  | succ fuel ih =>
    obtain ⟨f, v, hpeek, h⟩ := bind_eq_ok h
    obtain ⟨tail, hf, hahead, rfl⟩ := (peek_ok ht).mp hpeek
    split at h
    · rename_i hkind
      obtain ⟨g, v, htake, h⟩ := bind_eq_ok h
      obtain ⟨tail', hg, hahead', rfl⟩ := (takeFrame_ok (ready_some hf rfl)).mp htake
      obtain ⟨rfl, rfl⟩ := bytes_inj hf hg hahead'
      obtain ⟨⟨⟩, v, hitems, h⟩ := bind_eq_ok h
      obtain ⟨entries, hmanifest, hlen, rfl⟩ := readItems_ok.mp hitems
      obtain ⟨bodies, entriess, tail', hbodies, hfits, hrest, hmax, hmoved⟩ := ih (ready_none rfl) h
      have hframe : f = ⟨.manifest, f.body⟩ := by rw [← hkind]
      refine ⟨f.body :: bodies, entries :: entriess, tail', .cons hmanifest hbodies, ?_, ?_, ?_, ?_⟩
      · intro g hg
        rcases List.mem_cons.mp hg with rfl | hg
        · exact hframe ▸ hf
        · exact hfits g hg
      · rw [List.map_cons, stored_cons, ← hframe, List.append_assoc, ← hrest, hahead]
        rfl
      · intro _
        rw [List.flatten_cons, ← List.append_assoc]
        exact hmax hlen
      · rw [List.flatten_cons, ← List.append_assoc]
        obtain ⟨h1, h2, pending, frames, rfl⟩ := hmoved
        exact ⟨h1, h2, pending, frames, rfl⟩
    · obtain rfl := (Prod.mk.inj h).2
      refine ⟨[], [], f.bytes ++ tail, .nil, fun g hg => absurd hg List.not_mem_nil, hahead, ?_, ?_⟩
      · rw [List.flatten_nil, List.append_nil]; exact fun h => h
      · rw [List.flatten_nil, List.append_nil]
        exact ⟨rfl, ready_some hf rfl, _, _, rfl⟩

theorem readManifests_complete {fuel : Nat} {bodies : List Bytes} {entries : List (List FileEntry)}
    {f : Frame} (ht : Ready t) (hfuel : bodies.length < fuel)
    (hbodies : List.Forall₂ (ManifestOf D) bodies entries)
    (hfits : ∀ f ∈ bodies.map (Frame.mk .manifest), f.Fits)
    (hahead : ahead t = stored (bodies.map (Frame.mk .manifest)) ++ (f.bytes ++ tail))
    (hf : f.Fits) (hkind : f.kind ≠ .manifest)
    (hlen : (t.entries ++ entries.flatten).length ≤ maxFiles) :
    ∃ u, exec (readManifests D nextBytes fuel) t = (.ok ⟨⟩, u) ∧
      Moved { t with entries := t.entries ++ entries.flatten } u (f.bytes ++ tail) := by
  induction fuel generalizing t bodies entries with
  | zero => exact absurd hfuel (Nat.not_lt_zero _)
  | succ fuel ih =>
    unfold readManifests
    cases hbodies with
    | nil =>
      rw [exec_bind_ok ((peek_ok ht).mpr ⟨tail, hf, hahead, rfl⟩), if_neg hkind]
      refine ⟨_, rfl, rfl, ready_some hf rfl, some f, tail, ?_⟩
      rw [List.flatten_nil, List.append_nil]
    | @cons body items bodies entriess hmanifest hbodies =>
      have hbody : (Frame.mk .manifest body).Fits := hfits _ List.mem_cons_self
      rw [List.map_cons, stored_cons, List.append_assoc] at hahead
      rw [exec_bind_ok ((peek_ok ht).mpr ⟨_, hbody, hahead, rfl⟩), if_pos rfl,
        exec_bind_ok ((takeFrame_ok (ready_some hbody rfl)).mpr ⟨_, hbody, rfl, rfl⟩)]
      rw [List.flatten_cons, ← List.append_assoc t.entries] at hlen ⊢
      have hitems : (t.entries ++ items).length ≤ maxFiles := by
        rw [List.length_append] at hlen
        omega
      let frames := stored (bodies.map (Frame.mk .manifest)) ++ (f.bytes ++ tail)
      have hread : exec (readItems D body) { t with pending := none, frames } =
          (.ok ⟨⟩, { t with pending := none, frames, entries := t.entries ++ items }) :=
        readItems_ok.mpr ⟨items, hmanifest, hitems, rfl⟩
      obtain ⟨u, hu, h1, h2, pending, frames, rfl⟩ :=
        ih (t := { t with pending := none, frames, entries := t.entries ++ items }) (ready_none rfl)
          (Nat.lt_of_succ_lt_succ hfuel) hbodies (fun g hg => hfits g (List.mem_cons_of_mem _ hg))
          rfl hlen
      exact ⟨_, (exec_bind_ok hread).trans hu, h1, h2, pending, frames, rfl⟩

end Manifest

/-! ## 2. The files -/

section Files

variable {D : Decoding} {t u : PayloadReader Bytes} {tail : Bytes} {index : Nat} {entry : FileEntry}
  {chunks more : List Bytes} {read : FileRead}

variable {value : Value}

theorem text?_eq_some {text : Text} : text? value = some text ↔ value = .str text := by
  cases value with
  | str x => exact ⟨fun h => congrArg Value.str (Option.some.inj h), fun h => Value.str.inj h ▸ rfl⟩
  | arr _ | scalar _ | obj _ => exact ⟨nofun, nofun⟩

/-- A guard that throws lets the rest through exactly where it does not hold. -/
theorem guard_ok {α β : Type} {c : Prop} [Decidable c] {e : Failure} {f : β → Except Failure α}
    {x : Except Failure α} {a : α} :
    (if c then throw e >>= f else x) = .ok a ↔ ¬ c ∧ x = .ok a := by
  split
  · rename_i h
    exact ⟨fun hx => absurd hx nofun, fun hx => absurd h hx.1⟩
  · rename_i h
    exact ⟨fun hx => ⟨h, hx⟩, fun hx => hx.2⟩

theorem finishFile_null (hnull : member value "skipped" = null) :
    finishFile D index entry chunks value = .ok read ↔ isDict value = true ∧
      equals (member value "index") index = true ∧
      count (member value "size") = some chunks.flatten.length ∧
      member value "sha256" = .str (D.hexdigest chunks.flatten) ∧
      read = { entry := { entry with sha256 := D.hexdigest chunks.flatten }, chunks,
               size := chunks.flatten.length, sha256 := D.hexdigest chunks.flatten } := by
  unfold finishFile
  rw [guard_ok, hnull, Bool.or_eq_true, not_or, Bool.not_eq_true', Bool.not_eq_true', Bool.not_eq_false,
    Bool.not_eq_false, and_assoc]
  refine and_congr_right fun _ => and_congr_right fun _ => ?_
  dsimp only [null]
  cases hsize : count (member value "size") with
  | none => exact iff_of_false nofun fun h => Option.some_ne_none _ h.1.symm
  | some size =>
    cases hsha : text? (member value "sha256") with
    | none =>
      refine iff_of_false nofun fun h => ?_
      rw [h.2.1] at hsha
      cases hsha
    | some sha256 =>
      rw [text?_eq_some.mp hsha]
      dsimp only
      rw [guard_ok, not_or, not_not, not_not]
      constructor
      · intro h
        obtain ⟨⟨rfl, rfl⟩, h⟩ := h
        exact ⟨rfl, rfl, (Except.ok.inj h).symm⟩
      · intro h
        obtain ⟨h1, h2, rfl⟩ := h
        cases h1
        obtain rfl := Value.str.inj h2
        exact ⟨⟨rfl, rfl⟩, rfl⟩

theorem finishFile_skipped (hskipped : member value "skipped" ≠ null) :
    finishFile D index entry chunks value = .ok read ↔ isDict value = true ∧
      equals (member value "index") index = true ∧
      ∃ reason, member value "skipped" = .str reason ∧ reason ≠ Text.ofString "" ∧
        read = { entry, chunks, skipped := reason } := by
  unfold finishFile
  rw [guard_ok, Bool.or_eq_true, not_or, Bool.not_eq_true', Bool.not_eq_true', Bool.not_eq_false,
    Bool.not_eq_false, and_assoc]
  refine and_congr_right fun _ => and_congr_right fun _ => ?_
  cases htext : text? (member value "skipped") with
  | none =>
    split
    · rename_i h
      exact absurd h hskipped
    · refine ⟨fun h => ?_, fun h => ?_⟩
      · simp only [htext] at h
        exact absurd h nofun
      · obtain ⟨reason, h, -⟩ := h
        rw [text?_eq_some.mpr h] at htext
        exact absurd htext nofun
  | some reason =>
    rw [text?_eq_some.mp htext]
    show (if reason = Text.ofString "" then _ else _) = _ ↔ _
    rw [guard_ok]
    constructor
    · intro h
      exact ⟨reason, rfl, h.1, (Except.ok.inj h.2).symm⟩
    · intro h
      obtain ⟨reason', h1, h2, rfl⟩ := h
      obtain rfl := Value.str.inj h1
      exact ⟨h2, rfl⟩

/-- **A file's end is accepted exactly where the grammar has it.** -/
theorem finishFile_ok {file : List Bytes × Bytes} (hvalue : D.loads file.2 = some value) :
    finishFile D index entry file.1 value = .ok read ↔ FileOf D index entry file read := by
  have hof : FileOf D index entry file read ↔ isDict value = true ∧
      equals (member value "index") index = true ∧
      ((member value "skipped" = null ∧ count (member value "size") = some file.1.flatten.length ∧
          member value "sha256" = .str (D.hexdigest file.1.flatten) ∧
          read = { entry := { entry with sha256 := D.hexdigest file.1.flatten }, chunks := file.1,
                   size := file.1.flatten.length, sha256 := D.hexdigest file.1.flatten }) ∨
        ∃ reason, member value "skipped" = .str reason ∧ reason ≠ Text.ofString "" ∧
          read = { entry, chunks := file.1, skipped := reason }) := by
    constructor
    · intro h
      obtain ⟨value', hvalue', h⟩ := h
      obtain rfl := Option.some.inj (hvalue.symm.trans hvalue')
      exact h
    · exact fun h => ⟨value, hvalue, h⟩
  rw [hof]
  by_cases hnull : member value "skipped" = null
  · rw [finishFile_null hnull, hnull]
    refine and_congr_right fun _ => and_congr_right fun _ => ⟨fun h => .inl ⟨rfl, h⟩, fun h => ?_⟩
    rcases h with h | h
    · exact h.2
    · obtain ⟨_, h, -⟩ := h
      exact absurd h nofun
  · rw [finishFile_skipped hnull]
    refine and_congr_right fun _ => and_congr_right fun _ => ⟨.inr, fun h => ?_⟩
    rcases h with h | h
    · exact absurd h.1 hnull
    · exact h

theorem indexBytes_length (index : Nat) : (indexBytes index).length = Struct.size fileIndex :=
  Struct.pack_length _ _

theorem indexBytes_eq (index : Nat) : indexBytes index = toBe 4 index := List.append_nil _

/-- A body begins with this index. -/
theorem index_ok {body : Bytes} (hindex : index < 2 ^ 32) :
    ¬ (body.length < Struct.size fileIndex ∨ ofBe (slice body 0 4) ≠ index) ↔
      body = indexBytes index ++ body.drop (Struct.size fileIndex) := by
  rw [not_or, not_not, Nat.not_lt, indexBytes_eq]
  constructor
  · intro h
    have hlen : (slice body 0 4).length = 4 := List.length_take_of_le h.1
    have hbytes := toBe_ofBe (slice body 0 4)
    rw [hlen, h.2] at hbytes
    rw [hbytes]
    exact (List.take_append_drop 4 body).symm
  · intro h
    rw [h]
    have hlen : (toBe 4 index).length = 4 := toBe_length 4 index
    refine ⟨?_, ?_⟩
    · rw [List.length_append, hlen]
      exact Nat.le_add_right _ _
    · rw [slice_zero, List.take_left' hlen, ofBe_toBe hindex]

theorem index_lt {body : Bytes} (h : ofBe (slice body 0 4) = index) : index < 2 ^ 32 := by
  have hlen := slice_length_le body 0 4
  calc index = ofBe (slice body 0 4) := h.symm
    _ < 256 ^ (slice body 0 4).length := ofBe_lt _
    _ ≤ 256 ^ 4 := Nat.pow_le_pow_right (by decide) hlen
    _ = 2 ^ 32 := by decide

/-- The frames of a file whose reading goes on. -/
theorem stored_fileFrames_cons (index : Nat) (chunk : Bytes) (more : List Bytes) (last : Bytes) :
    stored (fileFrames index (chunk :: more, last)) =
      (dataFrame index chunk).bytes ++ stored (fileFrames index (more, last)) := stored_cons _ _

theorem fits_fileFrames_cons {chunk : Bytes} {last : Bytes}
    (hf : (dataFrame index chunk).Fits) (hs : ∀ f ∈ fileFrames index (more, last), f.Fits) :
    ∀ f ∈ fileFrames index (chunk :: more, last), f.Fits := by
  intro f hmem
  rcases List.mem_cons.mp hmem with rfl | hmem
  · exact hf
  · exact hs f hmem

variable {fuel : Nat}

theorem readChunks_sound (ht : Ready t)
    (h : exec (readChunks D nextBytes index entry fuel chunks) t = (.ok read, u)) :
    ∃ more last tail, FileOf D index entry (chunks ++ more, last) read ∧
      (∀ f ∈ fileFrames index (more, last), f.Fits) ∧
      ahead t = stored (fileFrames index (more, last)) ++ tail ∧ Moved t u tail := by
  induction fuel generalizing t chunks with
  | zero => exact absurd (congrArg Prod.fst h) nofun
  | succ fuel ih =>
    obtain ⟨f, v, htake, h⟩ := bind_eq_ok h
    obtain ⟨tail, hf, hahead, rfl⟩ := (takeFrame_ok ht).mp htake
    obtain ⟨kind, body⟩ := f
    cases kind with
    | fileData =>
      simp only at h
      split at h
      · exact absurd (congrArg Prod.fst h) nofun
      · rename_i hindex
        have hlt : index < 2 ^ 32 := index_lt (not_not.mp (not_or.mp hindex).2)
        have hbody := (index_ok hlt).mp hindex
        obtain ⟨more, last, tail', hfile, hfits, hrest, hmoved⟩ := ih (ready_none rfl) h
        have hframe : (⟨.fileData, body⟩ : Frame) =
            dataFrame index (body.drop (Struct.size fileIndex)) := congrArg (Frame.mk _) hbody
        rw [hframe] at hf hahead
        refine ⟨body.drop (Struct.size fileIndex) :: more, last, tail', ?_,
          fits_fileFrames_cons hf hfits, ?_, ?_⟩
        · rw [List.append_assoc] at hfile
          exact hfile
        · rw [stored_fileFrames_cons, List.append_assoc, ← hrest]
          exact hahead
        · obtain ⟨h1, h2, pending, frames, rfl⟩ := hmoved
          exact ⟨h1, h2, pending, frames, rfl⟩
    | fileEnd =>
      obtain ⟨value, v, hvalue, h⟩ := bind_eq_ok h
      obtain ⟨hloads, rfl⟩ := parsed_ok.mp hvalue
      obtain ⟨hfinish, rfl⟩ := give_ok.mp h
      refine ⟨[], body, tail, ?_, ?_, ?_, rfl, ready_none rfl, _, _, rfl⟩
      · rw [List.append_nil]
        exact (finishFile_ok hloads).mp hfinish
      · intro f hmem
        rw [List.mem_singleton.mp hmem]
        exact hf
      · rw [hahead]
        exact congrArg (· ++ tail) (List.append_nil _).symm
    | header => exact absurd (congrArg Prod.fst h) nofun
    | manifest => exact absurd (congrArg Prod.fst h) nofun
    | records => exact absurd (congrArg Prod.fst h) nofun
    | trailer => exact absurd (congrArg Prod.fst h) nofun

/-- What a data frame holds behind its index. -/
theorem dataFrame_chunk (index : Nat) (chunk : Bytes) :
    (dataFrame index chunk).body.drop (Struct.size fileIndex) = chunk :=
  List.drop_left' (indexBytes_length index)

/-- A chunk of the file is read. -/
theorem readChunks_turn {last chunk : Bytes} (chunks : List Bytes) (ht : Ready t)
    (hindex : index < 2 ^ 32)
    (hfits : (dataFrame index chunk).Fits)
    (hahead : ahead t = stored (fileFrames index (chunk :: more, last)) ++ tail) :
    exec (readChunks D nextBytes index entry (fuel + 1) chunks) t =
      exec (readChunks D nextBytes index entry fuel (chunks ++ [chunk]))
        { t with pending := none, frames := stored (fileFrames index (more, last)) ++ tail } := by
  rw [stored_fileFrames_cons, List.append_assoc] at hahead
  rw [readChunks, exec_bind_ok ((takeFrame_ok ht).mpr ⟨_, hfits, hahead, rfl⟩)]
  have hguard := (index_ok hindex).mpr
    (congrArg (indexBytes index ++ ·) (dataFrame_chunk index chunk).symm)
  exact (congrArg (fun x => exec x _) (if_neg hguard)).trans (by rw [dataFrame_chunk])

/-- **A file is read up to its end**, and the end decides: by induction on the chunks that are left. -/
theorem readChunks_run {last : Bytes} (chunks : List Bytes) (ht : Ready t) (hindex : index < 2 ^ 32)
    (hfuel : more.length < fuel) (hvalue : D.loads last = some value)
    (hfits : ∀ f ∈ fileFrames index (more, last), f.Fits)
    (hahead : ahead t = stored (fileFrames index (more, last)) ++ tail) :
    exec (readChunks D nextBytes index entry fuel chunks) t =
      (finishFile D index entry (chunks ++ more) value,
        { t with pending := none, frames := tail }) := by
  induction fuel generalizing t chunks more with
  | zero => exact absurd hfuel (Nat.not_lt_zero _)
  | succ fuel ih =>
    cases more with
    | nil =>
      have hend : (⟨.fileEnd, last⟩ : Frame).Fits := hfits _ List.mem_cons_self
      rw [readChunks, exec_bind_ok ((takeFrame_ok ht).mpr
        ⟨tail, hend, by rw [hahead]; exact congrArg (· ++ tail) (List.append_nil _), rfl⟩)]
      show exec (parsed (D.loads last) _ >>= _) _ = _
      rw [exec_bind_ok (parsed_ok.mpr ⟨hvalue, rfl⟩), List.append_nil]
      exact exec_give _ _
    | cons chunk more =>
      rw [readChunks_turn chunks ht hindex (hfits _ List.mem_cons_self) hahead,
        ih (chunks ++ [chunk]) (ready_none rfl) (Nat.lt_of_succ_lt_succ hfuel)
          (fun f hf => hfits f (List.mem_cons_of_mem _ hf)) rfl, List.append_assoc]
      rfl

theorem readChunks_complete {last : Bytes} (ht : Ready t) (hindex : index < 2 ^ 32)
    (hfuel : more.length < fuel) (hfile : FileOf D index entry (chunks ++ more, last) read)
    (hfits : ∀ f ∈ fileFrames index (more, last), f.Fits)
    (hahead : ahead t = stored (fileFrames index (more, last)) ++ tail) :
    ∃ u, exec (readChunks D nextBytes index entry fuel chunks) t = (.ok read, u) ∧ Moved t u tail := by
  obtain ⟨value, hloads, -⟩ := id hfile
  refine ⟨_, ?_, rfl, ready_none rfl, none, tail, rfl⟩
  rw [readChunks_run chunks ht hindex hfuel hloads hfits hahead, (finishFile_ok hloads).mpr hfile]

theorem stored_filesFrom_cons (index : Nat) (file : List Bytes × Bytes)
    (files : List (List Bytes × Bytes)) :
    stored (filesFrom index (file :: files)) =
      stored (fileFrames index file) ++ stored (filesFrom (index + 1) files) := stored_append _ _

theorem readFilesFrom_sound {entries : List FileEntry} {reads : List FileRead} (ht : Ready t)
    (h : exec (readFilesFrom D nextBytes fuel index entries) t = (.ok reads, u)) :
    ∃ files tail, FilesOf D index files entries reads ∧ (∀ f ∈ filesFrom index files, f.Fits) ∧
      ahead t = stored (filesFrom index files) ++ tail ∧ Moved t u tail := by
  induction entries generalizing t u index reads with
  | nil =>
    obtain ⟨hreads, rfl⟩ := Prod.mk.inj h
    cases hreads
    exact ⟨[], ahead t, .nil index, fun f hf => absurd hf List.not_mem_nil, rfl, rfl, ht, _, _, rfl⟩
  | cons entry entries ih =>
    obtain ⟨read, v, hread, h⟩ := bind_eq_ok h
    obtain ⟨chunks, last, tail, hfile, hfits, hahead, hmoved⟩ := readChunks_sound ht hread
    obtain ⟨h1, h2, pending, frames, rfl⟩ := hmoved
    obtain ⟨reads', v, hreads, h⟩ := bind_eq_ok h
    obtain ⟨files, tail', hfiles, hfits', hahead', hmoved⟩ := ih h2 hreads
    obtain ⟨h3, h4, pending, frames, rfl⟩ := hmoved
    obtain ⟨hlist, rfl⟩ := Prod.mk.inj h
    cases hlist
    refine ⟨(chunks, last) :: files, tail', .cons hfile hfiles, ?_, ?_, h3, h4, _, _, rfl⟩
    · intro f hf
      rcases List.mem_append.mp hf with hf | hf
      · exact hfits f hf
      · exact hfits' f hf
    · rw [stored_filesFrom_cons, List.append_assoc, ← hahead', h1]
      exact hahead

theorem readFilesFrom_complete {entries : List FileEntry} {reads : List FileRead}
    {files : List (List Bytes × Bytes)} (ht : Ready t) (hfiles : FilesOf D index files entries reads)
    (hindex : index + files.length ≤ 2 ^ 32) (hfuel : ∀ file ∈ files, file.1.length < fuel)
    (hfits : ∀ f ∈ filesFrom index files, f.Fits)
    (hahead : ahead t = stored (filesFrom index files) ++ tail) :
    ∃ u, exec (readFilesFrom D nextBytes fuel index entries) t = (.ok reads, u) ∧ Moved t u tail := by
  induction hfiles generalizing t with
  | nil index => exact ⟨t, rfl, hahead, ht, _, _, rfl⟩
  | @cons index file files entry entries read reads hfile hfiles ih =>
    rw [List.length_cons] at hindex
    rw [stored_filesFrom_cons, List.append_assoc] at hahead
    -- a file begins with no chunk read
    have hwhole : FileOf D index entry ([] ++ file.1, file.2) read := hfile
    obtain ⟨v, hread, h1, h2, pending, frames, rfl⟩ := readChunks_complete ht
      (by omega) (hfuel file List.mem_cons_self) hwhole
      (fun f hf => hfits f (List.mem_append_left _ hf)) hahead
    obtain ⟨u, hreads, h3, h4, pending, frames, rfl⟩ := ih h2 (by omega)
      (fun file hmem => hfuel file (List.mem_cons_of_mem _ hmem))
      (fun f hf => hfits f (List.mem_append_right _ hf)) h1
    refine ⟨_, ?_, h3, h4, pending, frames, rfl⟩
    unfold readFilesFrom
    rw [exec_bind_ok hread, exec_bind_ok hreads]
    rfl

end Files

/-! ## 3. The records -/

section Records

variable {D : Decoding} {t u : PayloadReader Bytes} {tail : Bytes} {order : List Text}

/-- Ranks that never fall, from one to another. -/
def RisesTo : Nat → List Nat → Nat → Prop
  | current, [], last => last = current
  | current, found :: ranks, last => current ≤ found ∧ RisesTo found ranks last

variable {current last : Nat}

theorem risesTo_append {ranks more : List Nat} :
    RisesTo current (ranks ++ more) last ↔
      ∃ middle, RisesTo current ranks middle ∧ RisesTo middle more last := by
  induction ranks generalizing current with
  | nil => exact ⟨fun h => ⟨current, rfl, h⟩, fun ⟨_, h1, h2⟩ => h1 ▸ h2⟩
  | cons found ranks ih =>
    rw [List.cons_append]
    constructor
    · intro h
      obtain ⟨middle, h1, h2⟩ := ih.mp h.2
      exact ⟨middle, ⟨h.1, h1⟩, h2⟩
    · intro h
      obtain ⟨middle, h1, h2⟩ := h
      exact ⟨h1.1, ih.mpr ⟨middle, h1.2, h2⟩⟩

theorem risesTo_iff_pairwise {current : Nat} {ranks : List Nat} :
    (∃ last, RisesTo current ranks last) ↔ (current :: ranks).Pairwise (· ≤ ·) := by
  induction ranks generalizing current with
  | nil => exact ⟨fun _ => List.pairwise_singleton _ _, fun _ => ⟨current, rfl⟩⟩
  | cons found ranks ih =>
    rw [List.pairwise_cons]
    constructor
    · intro h
      obtain ⟨last, hle, h⟩ := h
      have hrest := ih.mp ⟨last, h⟩
      refine ⟨fun r hr => ?_, hrest⟩
      rcases List.mem_cons.mp hr with rfl | hr
      · exact hle
      · exact Nat.le_trans hle (List.rel_of_pairwise_cons hrest hr)
    · intro h
      obtain ⟨last, hlast⟩ := ih.mpr h.2
      exact ⟨last, h.1 found List.mem_cons_self, hlast⟩

theorem checkedRecord_ok {current found : Nat} {record : Value} :
    checkedRecord order current record = .ok found ↔ Ranked order record found ∧ current ≤ found := by
  unfold checkedRecord Ranked
  rw [guard_ok, Bool.or_eq_true, not_or, Bool.not_eq_true', Bool.not_eq_true', Bool.not_eq_false,
    Bool.not_eq_false, and_assoc, and_assoc, and_assoc]
  refine and_congr_right fun _ => and_congr_right fun _ => ?_
  cases hmodel : member record "model" with
  | arr _ | obj _ | scalar _ =>
    exact iff_of_false nofun fun h => by obtain ⟨⟨⟨_, h, -⟩, -⟩, -⟩ := h; cases h
  | str label =>
    have hposition : position order (.str label) = pure (rank order label) := rfl
    dsimp only
    rw [hposition, pure_bind]
    cases hrank : rank order label with
    | none =>
      refine iff_of_false nofun fun h => ?_
      obtain ⟨⟨⟨label', hlabel, h⟩, -⟩, -⟩ := h
      cases hlabel
      cases hrank.symm.trans h
    | some position =>
      dsimp only
      rw [guard_ok, guard_ok, Nat.not_lt, Bool.not_eq_true', Bool.not_eq_false]
      constructor
      · intro h
        obtain ⟨hle, hpk, h⟩ := h
        cases h
        exact ⟨⟨⟨label, rfl, hrank⟩, hpk⟩, hle⟩
      · intro h
        obtain ⟨⟨⟨label', hlabel, h⟩, hpk⟩, hle⟩ := h
        cases hlabel
        obtain rfl := Option.some.inj (hrank.symm.trans h)
        exact ⟨hle, hpk, rfl⟩

theorem foldlM_records_ok {records : List Value} :
    records.foldlM (checkedRecord order) current = .ok last ↔
      ∃ ranks, List.Forall₂ (Ranked order) records ranks ∧ RisesTo current ranks last := by
  induction records generalizing current with
  | nil =>
    constructor
    · intro h
      exact ⟨[], .nil, (Except.ok.inj h).symm⟩
    · intro h
      obtain ⟨ranks, h1, h2⟩ := h
      cases h1
      exact congrArg Except.ok h2.symm
  | cons record records ih =>
    rw [List.foldlM_cons]
    constructor
    · intro h
      cases hrecord : checkedRecord order current record with
      | error e => rw [hrecord] at h; exact absurd h nofun
      | ok found =>
        rw [hrecord] at h
        obtain ⟨ranks, h1, h2⟩ := ih.mp h
        obtain ⟨hranked, hle⟩ := checkedRecord_ok.mp hrecord
        exact ⟨found :: ranks, .cons hranked h1, hle, h2⟩
    · intro h
      obtain ⟨ranks, h1, h2⟩ := h
      cases h1 with
      | cons hranked h1 =>
        rw [checkedRecord_ok.mpr ⟨hranked, h2.1⟩]
        exact ih.mpr ⟨_, h1, h2.2⟩

theorem checkedRecords_ok {value : Value} {records : List Value} :
    checkedRecords order value current = .ok (records, last) ↔ value = .arr records ∧
      ∃ ranks, List.Forall₂ (Ranked order) records ranks ∧ RisesTo current ranks last := by
  unfold checkedRecords
  rw [← items_eq_some, ← foldlM_records_ok]
  cases items value with
  | none => exact ⟨nofun, fun h => absurd h.1 nofun⟩
  | some values =>
    constructor
    · intro h
      cases hfold : values.foldlM (checkedRecord order) current with
      | error e =>
        simp only [hfold] at h
        exact absurd h nofun
      | ok found =>
        simp only [hfold] at h
        cases h
        exact ⟨rfl, hfold⟩
    · intro h
      obtain ⟨hvalues, hfold⟩ := h
      cases hvalues
      simp only [hfold]
      rfl

/-- What a frame of records holds. -/
def BatchOf (D : Decoding) (body : Bytes) (batch : List Value) : Prop :=
  D.loadsText body = some (.arr batch)

theorem readBatches_sound {fuel : Nat} {batches : List (List Value)} (ht : Ready t)
    (h : exec (readBatches D nextBytes fuel) t = (.ok batches, u)) :
    ∃ bodies ranks tail, List.Forall₂ (BatchOf D) bodies batches ∧
      List.Forall₂ (Ranked t.order) batches.flatten ranks ∧
      (∃ last, RisesTo t.position ranks last ∧ Moved { t with position := last } u tail) ∧
      (∀ f ∈ bodies.map (Frame.mk .records), f.Fits) ∧
      ahead t = stored (bodies.map (Frame.mk .records)) ++ tail := by
  induction fuel generalizing t u batches with
  | zero => exact absurd (congrArg Prod.fst h) nofun
  | succ fuel ih =>
    obtain ⟨f, v, hpeek, h⟩ := bind_eq_ok h
    obtain ⟨tail, hf, hahead, rfl⟩ := (peek_ok ht).mp hpeek
    split at h
    · rename_i hkind
      obtain ⟨g, v, htake, h⟩ := bind_eq_ok h
      obtain ⟨tail', hg, hahead', rfl⟩ := (takeFrame_ok (ready_some hf rfl)).mp htake
      obtain ⟨rfl, rfl⟩ := bytes_inj hf hg hahead'
      obtain ⟨value, v, hvalue, h⟩ := bind_eq_ok h
      obtain ⟨hloads, rfl⟩ := parsed_ok.mp hvalue
      rw [exec_bind_ok (exec_get _)] at h
      obtain ⟨⟨records, position⟩, v, hgive, hmore⟩ := bind_eq_ok h
      obtain ⟨hchecked, rfl⟩ := give_ok.mp hgive
      obtain ⟨rfl, ranks, hranked, hrises⟩ := checkedRecords_ok.mp hchecked
      rw [exec_bind_ok (exec_set _ _)] at hmore
      obtain ⟨batches', v, hbatches, hpure⟩ := bind_eq_ok hmore
      obtain ⟨hlist, rfl⟩ := Prod.mk.inj hpure
      cases hlist
      obtain ⟨bodies, ranks', tail', hbodies, hranked', ⟨last, hlast, hmoved⟩, hfits, hrest⟩ :=
        ih (ready_none rfl) hbatches
      have hframe : f = ⟨.records, f.body⟩ := by rw [← hkind]
      refine ⟨f.body :: bodies, ranks ++ ranks', tail', .cons hloads hbodies,
        List.rel_append hranked hranked', ⟨last, risesTo_append.mpr ⟨position, hrises, hlast⟩, ?_⟩,
        ?_, ?_⟩
      · obtain ⟨h1, h2, pending, frames, rfl⟩ := hmoved
        exact ⟨h1, h2, pending, frames, rfl⟩
      · intro g hg
        rcases List.mem_cons.mp hg with rfl | hg
        · exact hframe ▸ hf
        · exact hfits g hg
      · rw [List.map_cons, stored_cons, ← hframe, List.append_assoc, ← hrest, hahead]
        rfl
    · obtain ⟨hlist, rfl⟩ := Prod.mk.inj h
      cases hlist
      exact ⟨[], [], f.bytes ++ tail, .nil, .nil,
        ⟨t.position, rfl, rfl, ready_some hf rfl, _, _, rfl⟩,
        fun g hg => absurd hg List.not_mem_nil, hahead⟩

theorem readBatches_complete {fuel : Nat} {bodies : List Bytes} {batches : List (List Value)}
    {ranks : List Nat} {last : Nat} {f : Frame} (ht : Ready t) (hfuel : bodies.length < fuel)
    (hbodies : List.Forall₂ (BatchOf D) bodies batches)
    (hranked : List.Forall₂ (Ranked t.order) batches.flatten ranks)
      (hrises : RisesTo t.position ranks last)
    (hfits : ∀ f ∈ bodies.map (Frame.mk .records), f.Fits)
    (hahead : ahead t = stored (bodies.map (Frame.mk .records)) ++ (f.bytes ++ tail))
    (hf : f.Fits) (hkind : f.kind ≠ .records) :
    ∃ u, exec (readBatches D nextBytes fuel) t = (.ok batches, u) ∧
      Moved { t with position := last } u (f.bytes ++ tail) := by
  induction fuel generalizing t bodies batches ranks with
  | zero => exact absurd hfuel (Nat.not_lt_zero _)
  | succ fuel ih =>
    unfold readBatches
    cases hbodies with
    | nil =>
      rw [exec_bind_ok ((peek_ok ht).mpr ⟨tail, hf, hahead, rfl⟩), if_neg hkind]
      cases hranked
      obtain rfl : last = t.position := hrises
      exact ⟨_, rfl, rfl, ready_some hf rfl, some f, tail, rfl⟩
    | @cons body batch bodies batches hbatch hbodies =>
      have hbody : (Frame.mk .records body).Fits := hfits _ List.mem_cons_self
      rw [List.map_cons, stored_cons, List.append_assoc] at hahead
      rw [exec_bind_ok ((peek_ok ht).mpr ⟨_, hbody, hahead, rfl⟩), if_pos rfl,
        exec_bind_ok ((takeFrame_ok (ready_some hbody rfl)).mpr ⟨_, hbody, rfl, rfl⟩),
        exec_bind_ok (parsed_ok.mpr ⟨hbatch, rfl⟩), exec_bind_ok (exec_get _)]
      -- the ranks of this frame, and of those behind it
      rw [List.flatten_cons] at hranked
      obtain ⟨ranks, ranks', hbatchRanks, hranked', rfl⟩ := forall₂_append_left hranked
      obtain ⟨middle, hmiddle, hlast⟩ := risesTo_append.mp hrises
      have hchecked : checkedRecords t.order (.arr batch) t.position = .ok (batch, middle) :=
        checkedRecords_ok.mpr ⟨rfl, ranks, hbatchRanks, hmiddle⟩
      let frames := stored (bodies.map (Frame.mk .records)) ++ (f.bytes ++ tail)
      obtain ⟨u, hu, h1, h2, pending, frames, rfl⟩ :=
        ih (t := { t with pending := none, frames, position := middle }) (ready_none rfl)
          (Nat.lt_of_succ_lt_succ hfuel) hbodies hranked' hlast
          (fun g hg => hfits g (List.mem_cons_of_mem _ hg)) rfl
      refine ⟨_, (exec_bind_ok (give_ok.mpr ⟨hchecked, rfl⟩)).trans ?_, h1, h2, pending, frames, rfl⟩
      exact (exec_bind_ok (exec_set _ _)).trans ((exec_bind_ok hu).trans rfl)

end Records

/-! ## 4. The phases -/

section Whole

variable {D : Decoding} {t u : PayloadReader Bytes} {tail : Bytes}

/-- One frame of a kind in its phase, and what it holds is kept. -/
theorem readOne_ok {α : Type} {after : Phase} {kind : FrameKind} {what : String}
    {other : Frame → Failure} {checked : Value → Except Failure α}
    (keep : α → PayloadReader Bytes → PayloadReader Bytes) (ht : Ready t) :
    exec (do
      expect after
      let found ← takeFrame nextBytes
      if found.kind ≠ kind then throw (other found)
      let x ← give (checked (← parsed (D.loads found.body) what))
      modify (keep x)) t = (.ok ⟨⟩, u) ↔
    t.phase = after ∧ ∃ body value x tail, (Frame.mk kind body).Fits ∧
      ahead t = (Frame.mk kind body).bytes ++ tail ∧ D.loads body = some value ∧
      checked value = .ok x ∧ u = keep x { t with pending := none, frames := tail } := by
  constructor
  · intro h
    obtain ⟨⟨⟩, v, hexpect, hread⟩ := bind_eq_ok h
    obtain ⟨hphase, rfl⟩ := expect_ok.mp hexpect
    obtain ⟨f, v, htake, hkinds⟩ := bind_eq_ok hread
    obtain ⟨tail, hf, hahead, rfl⟩ := (takeFrame_ok ht).mp htake
    simp only at hkinds
    split at hkinds
    · exact absurd (congrArg Prod.fst hkinds) nofun
    · rename_i hkind
      obtain ⟨value, v, hvalue, hrest⟩ := bind_eq_ok hkinds
      obtain ⟨hloads, rfl⟩ := parsed_ok.mp hvalue
      obtain ⟨x, v, hgive, hmodify⟩ := bind_eq_ok hrest
      obtain ⟨hchecked, rfl⟩ := give_ok.mp hgive
      have hframe : f = ⟨kind, f.body⟩ := by rw [← not_not.mp hkind]
      rw [hframe] at hf hahead
      exact ⟨hphase, f.body, value, x, tail, hf, hahead, hloads, hchecked, (Prod.mk.inj hmodify).2.symm⟩
  · intro h
    obtain ⟨hphase, body, value, x, tail, hf, hahead, hloads, hchecked, rfl⟩ := h
    rw [exec_bind_ok (expect_ok.mpr ⟨hphase, rfl⟩),
      exec_bind_ok ((takeFrame_ok ht).mpr ⟨tail, hf, hahead, rfl⟩), if_neg (not_not.mpr rfl),
      exec_bind_ok (parsed_ok.mpr ⟨hloads, rfl⟩)]
    exact (exec_bind_ok (give_ok.mpr ⟨hchecked, rfl⟩)).trans (exec_modify _ _)

theorem readHeader_ok (ht : Ready t) : exec (readHeader D nextBytes) t = (.ok ⟨⟩, u) ↔
    t.phase = .header ∧ ∃ body value header tail, (Frame.mk .header body).Fits ∧
      ahead t = (Frame.mk .header body).bytes ++ tail ∧
      D.loads body = some value ∧ checkedHeader value = .ok header ∧
      u = { t with
        pending := none, frames := tail, header, order := orderOf header, phase := .manifest } :=
  readOne_ok (fun header t => { t with header, order := orderOf header, phase := .manifest }) ht

theorem readTrailer_ok (ht : Ready t) : exec (readTrailer D nextBytes) t = (.ok ⟨⟩, u) ↔
    t.phase = .trailer ∧ ∃ body value trailer tail, (Frame.mk .trailer body).Fits ∧
      ahead t = (Frame.mk .trailer body).bytes ++ tail ∧
      D.loads body = some value ∧ checkedTrailer value = .ok trailer ∧
      u = { t with pending := none, frames := tail, trailer, phase := .end } :=
  readOne_ok (fun trailer t => { t with trailer, phase := .end }) ht

/-- The end is looked for behind the frames taken. -/
theorem finish_ok : exec (finish nextBytes) t = (.ok ⟨⟩, u) ↔
    t.phase = .end ∧ t.frames = [] ∧ u = { t with phase := .done } := by
  unfold finish
  have hfocus : exec (focus PayloadReader.frames (fun t frames => { t with frames }) nextBytes) t =
      ((exec nextBytes t.frames).1, { t with frames := (exec nextBytes t.frames).2 }) :=
    exec_focus _ _ _ t
  constructor
  · intro h
    obtain ⟨⟨⟩, v, hexpect, hread⟩ := bind_eq_ok h
    obtain ⟨hphase, hsame⟩ := expect_ok.mp hexpect
    rw [hsame] at hread
    obtain ⟨found, v, hfound, hend⟩ := bind_eq_ok hread
    obtain ⟨hr, hv⟩ := Prod.mk.inj (hfocus.symm.trans hfound)
    cases found with
    | some g => exact absurd (congrArg Prod.fst hend) nofun
    | none =>
      obtain ⟨hframes, hrest⟩ := next_end.mp (Prod.ext hr rfl :
        exec nextBytes t.frames = (.ok none, (exec nextBytes t.frames).2))
      rw [hrest] at hv
      refine ⟨hphase, hframes, ?_⟩
      rw [← (Prod.mk.inj hend).2, ← hv, ← hframes]
  · intro h
    obtain ⟨hphase, hframes, rfl⟩ := h
    rw [next_end.mpr ⟨hframes, rfl⟩, ← hframes] at hfocus
    rw [exec_bind_ok (expect_ok.mpr ⟨hphase, rfl⟩), exec_bind_ok hfocus]
    rfl

theorem openBytes_ok {bytes rest : Bytes} :
    exec openBytes bytes = (.ok ⟨⟩, rest) ↔ bytes = payloadMagic ++ rest := by
  unfold openBytes
  constructor
  · intro h
    obtain ⟨magic, v, htake, h⟩ := bind_eq_ok h
    obtain ⟨-, hbytes⟩ := takeBytes_ok.mp htake
    split at h
    · exact absurd (congrArg Prod.fst h) nofun
    · rename_i hmagic
      rw [hbytes, not_not.mp hmagic, (Prod.mk.inj h).2]
  · intro h
    rw [exec_bind_ok (takeBytes_ok.mpr ⟨rfl, h⟩), if_neg (not_not.mpr rfl)]
    rfl

variable {reads : List FileRead}

theorem FilesOf.length {index : Nat} {files : List (List Bytes × Bytes)} {entries : List FileEntry}
    (h : FilesOf D index files entries reads) :
    files.length = reads.length ∧ entries.length = reads.length := by
  induction h with
  | nil index => exact ⟨rfl, rfl⟩
  | cons _ _ ih => exact ⟨congrArg Nat.succ ih.1, congrArg Nat.succ ih.2⟩

/-- A step on the state without its frames. -/
theorem Moved.map {t u : PayloadReader Bytes} {g : PayloadReader Bytes → PayloadReader Bytes}
    (h : Moved t u tail) (hpending : ∀ t, (g t).pending = t.pending)
    (hframes : ∀ t, (g t).frames = t.frames)
    (hwith : ∀ t pending frames, g { t with pending, frames } = { g t with pending, frames }) :
    Moved (g t) (g u) tail := by
  have hahead : ∀ t, Payload.ahead (g t) = Payload.ahead t := fun t => by
    rw [Payload.ahead, hpending, hframes]
    rfl
  have hready : ∀ t, Ready t → Ready (g t) := fun t ht f hf => ht f (hpending t ▸ hf)
  obtain ⟨h1, h2, pending, frames, rfl⟩ := h
  exact ⟨(hahead _).trans h1, hready _ h2, pending, frames, hwith t pending frames⟩

variable {fuel : Nat}

section

variable (ht : Ready t)

include ht

theorem readManifest_sound
    (h : exec (readManifest D nextBytes fuel) t = (.ok ⟨⟩, u)) :
    ∃ bodies entries tail, List.Forall₂ (ManifestOf D) bodies entries ∧
      (∀ f ∈ bodies.map (Frame.mk .manifest), f.Fits) ∧
      ahead t = stored (bodies.map (Frame.mk .manifest)) ++ tail ∧
      (t.entries.length ≤ maxFiles → (t.entries ++ entries.flatten).length ≤ maxFiles) ∧
      Moved { t with entries := t.entries ++ entries.flatten, phase := .files } u tail := by
  obtain ⟨⟨⟩, v, hexpect, hread⟩ := bind_eq_ok h
  obtain ⟨-, rfl⟩ := expect_ok.mp hexpect
  obtain ⟨⟨⟩, w, hmanifests, hphase⟩ := bind_eq_ok hread
  obtain ⟨-, rfl⟩ := Prod.mk.inj hphase
  obtain ⟨bodies, entries, tail, hbodies, hfits, hahead, hmax, hmoved⟩ :=
    readManifests_sound ht hmanifests
  exact ⟨bodies, entries, tail, hbodies, hfits, hahead, hmax,
    hmoved.map (g := fun t => { t with phase := .files }) (fun _ => rfl) (fun _ => rfl) fun _ _ _ =>
    rfl⟩

theorem readManifest_complete {bodies : List Bytes} {entries : List (List FileEntry)}
    {f : Frame} (hphase : t.phase = .manifest) (hfuel : bodies.length < fuel)
    (hbodies : List.Forall₂ (ManifestOf D) bodies entries)
    (hfits : ∀ f ∈ bodies.map (Frame.mk .manifest), f.Fits)
    (hahead : ahead t = stored (bodies.map (Frame.mk .manifest)) ++ (f.bytes ++ tail))
    (hf : f.Fits) (hkind : f.kind ≠ .manifest)
    (hlen : (t.entries ++ entries.flatten).length ≤ maxFiles) :
    ∃ u, exec (readManifest D nextBytes fuel) t = (.ok ⟨⟩, u) ∧
      Moved { t with entries := t.entries ++ entries.flatten, phase := .files } u
      (f.bytes ++ tail) := by
  obtain ⟨u, hu, hmoved⟩ := readManifests_complete ht hfuel hbodies hfits hahead hf hkind hlen
  unfold readManifest
  rw [exec_bind_ok (expect_ok.mpr ⟨hphase, rfl⟩), exec_bind_ok hu]
  exact ⟨_, rfl, hmoved.map (g := fun t => { t with phase := .files }) (fun _ => rfl) (fun _ => rfl)
    fun _ _ _ => rfl⟩

theorem readFiles_sound (h : exec (readFiles D nextBytes fuel) t = (.ok reads, u)) :
    ∃ files tail, FilesOf D 0 files t.entries reads ∧ (∀ f ∈ filesFrom 0 files, f.Fits) ∧
      ahead t = stored (filesFrom 0 files) ++ tail ∧ Moved { t with phase := .records } u tail := by
  obtain ⟨⟨⟩, v, hexpect, hread⟩ := bind_eq_ok h
  obtain ⟨-, hsame⟩ := expect_ok.mp hexpect
  rw [hsame, exec_bind_ok (exec_get t)] at hread
  obtain ⟨reads', w, hreads, hphase⟩ := bind_eq_ok hread
  rw [exec_bind_ok (exec_modify _ w)] at hphase
  obtain ⟨hlist, rfl⟩ := Prod.mk.inj hphase
  cases hlist
  obtain ⟨files, tail, hfiles, hfits, hahead, hmoved⟩ := readFilesFrom_sound ht hreads
  exact ⟨files, tail, hfiles, hfits, hahead,
    hmoved.map (g := fun t => { t with phase := .records }) (fun _ => rfl) (fun _ => rfl)
    fun _ _ _ => rfl⟩

theorem readFiles_complete {files : List (List Bytes × Bytes)}
    (hphase : t.phase = .files) (hfiles : FilesOf D 0 files t.entries reads)
    (hmax : files.length ≤ 2 ^ 32) (hfuel : ∀ file ∈ files, file.1.length < fuel)
    (hfits : ∀ f ∈ filesFrom 0 files, f.Fits) (hahead : ahead t = stored (filesFrom 0 files) ++ tail) :
    ∃ u, exec (readFiles D nextBytes fuel) t = (.ok reads, u) ∧
      Moved { t with phase := .records } u tail := by
  obtain ⟨u, hu, hmoved⟩ :=
    readFilesFrom_complete ht hfiles ((Nat.zero_add _).le.trans hmax) hfuel hfits hahead
  unfold readFiles
  rw [exec_bind_ok (expect_ok.mpr ⟨hphase, rfl⟩), exec_bind_ok (exec_get t), exec_bind_ok hu]
  exact ⟨_, rfl, hmoved.map (g := fun t => { t with phase := .records }) (fun _ => rfl) (fun _ => rfl)
    fun _ _ _ => rfl⟩

theorem recordBatches_sound {batches : List (List Value)}
    (h : exec (recordBatches D nextBytes fuel) t = (.ok batches, u)) :
    ∃ bodies ranks tail, List.Forall₂ (BatchOf D) bodies batches ∧
      List.Forall₂ (Ranked t.order) batches.flatten ranks ∧
      (∃ last, RisesTo t.position ranks last ∧
        Moved { t with position := last, phase := .trailer } u tail) ∧
      (∀ f ∈ bodies.map (Frame.mk .records), f.Fits) ∧
      ahead t = stored (bodies.map (Frame.mk .records)) ++ tail := by
  obtain ⟨⟨⟩, v, hexpect, hread⟩ := bind_eq_ok h
  obtain ⟨-, rfl⟩ := expect_ok.mp hexpect
  obtain ⟨batches', w, hbatches, hphase⟩ := bind_eq_ok hread
  rw [exec_bind_ok (exec_modify _ w)] at hphase
  obtain ⟨hlist, rfl⟩ := Prod.mk.inj hphase
  cases hlist
  obtain ⟨bodies, ranks, tail, hbodies, hranked, ⟨last, hrises, hmoved⟩, hfits, hahead⟩ :=
    readBatches_sound ht hbatches
  exact ⟨bodies, ranks, tail, hbodies, hranked, ⟨last, hrises,
    hmoved.map (g := fun t => { t with phase := .trailer }) (fun _ => rfl) (fun _ => rfl)
    fun _ _ _ => rfl⟩,
    hfits, hahead⟩

theorem recordBatches_complete {bodies : List Bytes} {batches : List (List Value)}
    {ranks : List Nat} {last : Nat} {f : Frame} (hphase : t.phase = .records)
    (hfuel : bodies.length < fuel) (hbodies : List.Forall₂ (BatchOf D) bodies batches)
    (hranked : List.Forall₂ (Ranked t.order) batches.flatten ranks)
      (hrises : RisesTo t.position ranks last)
    (hfits : ∀ f ∈ bodies.map (Frame.mk .records), f.Fits)
    (hahead : ahead t = stored (bodies.map (Frame.mk .records)) ++ (f.bytes ++ tail))
    (hf : f.Fits) (hkind : f.kind ≠ .records) :
    ∃ u, exec (recordBatches D nextBytes fuel) t = (.ok batches, u) ∧
      Moved { t with position := last, phase := .trailer } u (f.bytes ++ tail) := by
  obtain ⟨u, hu, hmoved⟩ :=
    readBatches_complete ht hfuel hbodies hranked hrises hfits hahead hf hkind
  unfold recordBatches
  rw [exec_bind_ok (expect_ok.mpr ⟨hphase, rfl⟩), exec_bind_ok hu]
  exact ⟨_, rfl, hmoved.map (g := fun t => { t with phase := .trailer }) (fun _ => rfl) (fun _ => rfl)
    fun _ _ _ => rfl⟩

end

end Whole

end Dbs.Payload

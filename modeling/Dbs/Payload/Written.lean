/-
  File:      Dbs/Payload/Written.lean
  Subject:   THE FRAMES AS THEY ARE WRITTEN (engine/frames.py).

  * `jsonBytes` -- `json.dumps` with compact separators, in UTF-8; `jsonBytes_inj`;
  * `frame`, `jsonFrame`, `manifestItem`, `fileDataFrame`, `fileEndFrame` -- the writer's side; a frame
    above the limit raises;
  * `Decoding.Reads` -- what was written is read back; `Decoding.compact` -- a reader of compact texts;
  * `checkedEntry_manifestItem` -- an entry is read back exactly when its primary key is a plain value;
    `fileOf_fileEnd`, `fileOf_skipped` -- a file's end is that of its data.
-/
import Dbs.Payload.Phases

namespace Dbs.Payload

open Octets
open Json (Value Text Scalar)

/-! ## 1. The bytes of a value -/

/-- `json_bytes`. -/
def jsonBytes (value : Value) : Bytes := (Json.render value).map fun c => UInt8.ofNat c.toNat

theorem ofNat_ofNat {c : Char} (h : c.toNat < 128) : Char.ofNat (UInt8.ofNat c.toNat).toNat = c := by
  rw [UInt8.toNat_ofNat', Nat.mod_eq_of_lt (by omega), Char.ofNat_toNat]

theorem render_of_jsonBytes (value : Value) :
    (jsonBytes value).map (fun b => Char.ofNat b.toNat) = Json.render value := by
  rw [jsonBytes, List.map_map]
  refine (List.map_congr_left fun c hc => ?_).trans (List.map_id _)
  exact ofNat_ofNat (Json.render_ascii value hc)

/-- **Two values with the same bytes are one.** -/
theorem jsonBytes_inj {v w : Value} (h : jsonBytes v = jsonBytes w) : v = w := by
  have htext : Json.render v = Json.render w := by
    rw [← render_of_jsonBytes v, h, render_of_jsonBytes]
  have hnil : Json.Delimited [] := fun _ _ h => nomatch h
  exact (Json.render_inj v w hnil hnil (congrArg (· ++ []) htext)).1

/-- `json.loads` gives back what `json_bytes` wrote of this value. -/
def Decoding.Reads (D : Decoding) (value : Value) : Prop :=
  D.loads (jsonBytes value) = some value ∧ D.loadsText (jsonBytes value) = some value

open Classical in
/-- A reader that knows the compact texts only. -/
noncomputable def Decoding.compact : Decoding :=
  let loads (body : Bytes) := if h : ∃ value, jsonBytes value = body then some h.choose else none
  { loads, loadsText := loads, hexdigest := fun _ => Text.ofString "" }

theorem compact_loads (value : Value) : Decoding.compact.loads (jsonBytes value) = some value := by
  have h : ∃ v, jsonBytes v = jsonBytes value := ⟨value, rfl⟩
  exact (dif_pos h).trans (congrArg some (jsonBytes_inj h.choose_spec))

theorem compact_reads (value : Value) : Decoding.compact.Reads value :=
  ⟨compact_loads value, compact_loads value⟩

/-! ## 2. Frames -/

/-- `frame`; above the limit it raises. -/
def frame (kind : FrameKind) (body : Bytes) : Option Bytes :=
  if body.length > maxFrameBytes then none else some (Frame.bytes ⟨kind, body⟩)

def jsonFrame (kind : FrameKind) (value : Value) : Option Bytes := frame kind (jsonBytes value)

def optText (text : Option Text) : Value := text.elim null .str

def nat (n : Nat) : Value := .scalar (.int n)

def dict (members : List (String × Value)) : Value :=
  .obj (members.map fun m => (Text.ofString m.1, m.2))

def manifestItem (entry : FileEntry) : Value :=
  dict [("kind", .str entry.kind), ("size", nat entry.size), ("model", optText entry.model),
    ("pk", entry.pk), ("field", optText entry.field), ("name", .str entry.name),
    ("root", optText entry.root)]

/-- `FILE_INDEX.pack` raises above four bytes. -/
def fileDataFrame (index : Nat) (chunk : Bytes) : Option Bytes :=
  if index < 2 ^ 32 then frame .fileData (indexBytes index ++ chunk) else none

/-- What `file_end_frame` writes. -/
def fileEnd (index size : Nat) (sha256 skipped : Text) : Value :=
  if skipped ≠ Text.ofString "" then dict [("index", nat index), ("skipped", .str skipped)]
  else dict [("index", nat index), ("size", nat size), ("sha256", .str sha256)]

def fileEndFrame (index size : Nat) (sha256 skipped : Text) : Option Bytes :=
  jsonFrame .fileEnd (fileEnd index size sha256 skipped)

/-! ## 3. What is read back -/

theorem lookup_map_ofString (members : List (String × Value)) (name : String) :
    (members.map fun m => (Text.ofString m.1, m.2)).lookup
    (Text.ofString name) = members.lookup name := by
  induction members with
  | nil => rfl
  | cons m members ih =>
    rw [List.map_cons, List.lookup_cons, List.lookup_cons, ih]
    have hkey : (Text.ofString name == Text.ofString m.1) = (name == m.1) := by
      by_cases h : name = m.1
      · rw [h, beq_self_eq_true, beq_self_eq_true]
      · rw [beq_false_of_ne h, beq_false_of_ne fun ht => h (Text.ofString_inj ht)]
    rw [hkey]

@[simp] theorem member_dict (members : List (String × Value)) (name : String) :
    member (dict members) name = (members.lookup name).getD null :=
  congrArg (Option.getD · null) (lookup_map_ofString members name)

theorem textOf_optText {value : Value} {name : String} {text : Option Text}
    (h : member value name = optText text) : textOf value name = .ok text := by
  unfold textOf
  rw [h]
  cases text <;> rfl

/-- **An entry is read back exactly when its primary key is a plain value**, without its digest. -/
theorem checkedEntry_manifestItem (entry read : FileEntry) :
    checkedEntry (manifestItem entry) = .ok read ↔
      isScalar entry.pk = true ∧ read = { entry with sha256 := Text.ofString "" } := by
  have hkind : member (manifestItem entry) "kind" = .str entry.kind := member_dict _ _
  have hname : member (manifestItem entry) "name" = .str entry.name := member_dict _ _
  have hsize : member (manifestItem entry) "size" = nat entry.size := member_dict _ _
  have hpk : member (manifestItem entry) "pk" = entry.pk := member_dict _ _
  have hmodel : textOf (manifestItem entry) "model" = .ok entry.model :=
    textOf_optText (member_dict _ _)
  have hfield : textOf (manifestItem entry) "field" = .ok entry.field :=
    textOf_optText (member_dict _ _)
  have hroot : textOf (manifestItem entry) "root" = .ok entry.root :=
    textOf_optText (member_dict _ _)
  unfold checkedEntry
  rw [guard_ok, hkind, hname, hsize, hmodel, hfield, hroot, hpk]
  show _ ∧ (if !isScalar entry.pk then _ else _) = _ ↔ _
  rw [guard_ok]
  have hguard : ¬ (!isScalar entry.pk) = true ↔ isScalar entry.pk = true := by
    rw [Bool.not_eq_true', Bool.not_eq_false]
  constructor
  · intro h
    exact ⟨hguard.mp h.2.1, (Except.ok.inj h.2.2).symm⟩
  · intro h
    exact ⟨Bool.false_ne_true, hguard.mpr h.1, congrArg Except.ok h.2.symm⟩

theorem equals_nat (n m : Nat) : equals (nat n) m = decide (n = m) := by
  show decide ((n : Int) = (m : Int)) = _
  exact decide_eq_decide.mpr Int.ofNat_inj

/-- **The end of a file that was read** is that of its data. -/
theorem fileOf_fileEnd {D : Decoding} {index : Nat} (entry : FileEntry) (chunks : List Bytes)
    (hreads : D.Reads (fileEnd index chunks.flatten.length (D.hexdigest chunks.flatten)
      (Text.ofString ""))) :
    FileOf D index entry (chunks, jsonBytes (fileEnd index chunks.flatten.length
        (D.hexdigest chunks.flatten) (Text.ofString "")))
      { entry := { entry with sha256 := D.hexdigest chunks.flatten }, chunks,
        size := chunks.flatten.length, sha256 := D.hexdigest chunks.flatten } := by
  have hend : fileEnd index chunks.flatten.length (D.hexdigest chunks.flatten) (Text.ofString "") =
      dict [("index", nat index), ("size", nat chunks.flatten.length),
        ("sha256", .str (D.hexdigest chunks.flatten))] := if_neg (not_not.mpr rfl)
  rw [hend] at hreads ⊢
  refine ⟨_, hreads.1, rfl, ?_, .inl ⟨member_dict _ _, ?_, member_dict _ _, rfl⟩⟩
  · rw [member_dict]
    exact (equals_nat index index).trans (decide_eq_true rfl)
  · rw [member_dict]
    rfl

/-- **The end of a file that was skipped** gives the reason, whatever was read of it. -/
theorem fileOf_skipped {D : Decoding} {index size : Nat} {sha256 reason : Text} (entry : FileEntry)
    (chunks : List Bytes) (hreason : reason ≠ Text.ofString "")
    (hreads : D.Reads (fileEnd index size sha256 reason)) :
    FileOf D index entry (chunks, jsonBytes (fileEnd index size sha256 reason))
      { entry, chunks, skipped := reason } := by
  have hend : fileEnd index size sha256 reason =
      dict [("index", nat index), ("skipped", .str reason)] := if_pos hreason
  rw [hend] at hreads ⊢
  refine ⟨_, hreads.1, rfl, ?_, .inr ⟨reason, member_dict _ _, hreason, rfl⟩⟩
  rw [member_dict]
  exact (equals_nat index index).trans (decide_eq_true rfl)

end Dbs.Payload

/-
  File:      Dbs/Merging.lean
  Subject:   A RESTORE THAT MERGES CHANGES WHAT THE BACKUP CARRIES (serialize.py, existing_rows and
             RowLoader): rows that are there are updated, in what is carried, and the others inserted.

  What Django says of the models is a parameter, with what is asked of it. A model is a table of its
  own; a many-to-many field is a set of each row, not one that two rows share. References by natural
  keys were resolved before. No statement fails; where the code raises, the transaction around it is
  rolled back.

  * `existingRows`, `deserialized`, `carriedColumns`, `updateCarriedFields`, `save`, `load` -- as the
    code has them, batch by batch;
  * `merged` -- what is promised; `Merges` -- it comes of every split of the records, and loading them
    once more, in any split, changes nothing;
  * `load_of_readable` -- in every split, each record finds its own cell as it was;
  * `Carried` -- the condition: a column is named by its own name only, and sets that come without
    columns are those of the default database too; `merges_iff` -- it is exact;
  * `not_merges` -- a column that is forgotten, and a set that goes to another database.
-/
import Dbs.Lib.Cells
import Dbs.Lib.Rows
import Mathlib.Data.Finset.Basic
import Mathlib.Data.List.ReduceOption

namespace Dbs.Merging

open Cells

/-! ## 1. What Django says -/

/-- What `_meta.get_field` gives. -/
structure Field where
  name : String
  concrete : Bool
  manyToMany : Bool
  primaryKey : Bool

/-- What a call raises: what its caller expects (`LookupError`, `ValidationError`), or anything else. -/
inductive Raised
  | expected
  | other

/-- What the value of a field is read as. -/
inductive Datum (Key Value : Type)
  | value (value : Value)
  | members (keys : List Key)

structure Django (Model Raw Key Value : Type) where
  /-- `apps.get_model` -/
  getModel : String → Except Raised Model
  /-- `_meta.pk.to_python` -/
  toPython : Model → Raw → Except Raised Key
  /-- `_meta.get_field` -/
  getField : Model → String → Option Field
  /-- The names of `_meta.get_fields()`. -/
  fieldNames : Model → List String
  /-- The names of `_meta.local_concrete_fields`, but the key and what is generated. -/
  columns : Model → List String
  default : Model → String → Value
  /-- What the deserializer makes of the value of a field, unless it raises. -/
  read : Model → String → Raw → Option (Datum Key Value)
  column_field : ∀ model, ∀ column ∈ columns model, ∃ field, getField model column = some field ∧
    field.name = column ∧ field.concrete = true ∧ field.manyToMany = false ∧ field.primaryKey = false
  column_name : ∀ model, ∀ column ∈ columns model, column ∈ fieldNames model
  column_read : ∀ model, ∀ column ∈ columns model, ∀ raw datum, read model column raw = some datum →
    ∃ value, datum = .value value

/-- A record of a backup. It may lack its `model`, but it has a key, and its fields, a dictionary, have
    no other one. -/
structure Record (Raw : Type) where
  model : Option String
  pk : Raw
  fields : List (String × Raw)

/-! ## 2. What databases hold -/

abbrev Alias := String

/-- `DEFAULT_DB_ALIAS` -/
def defaultAlias : Alias := "default"

/-- What a database holds under a key: the row with its columns, and the members of its sets. -/
structure Cell (Key Value : Type) where
  row : Option (String → Value)
  sets : String → Finset Key

/-- What the databases hold under a key. -/
abbrev Held (Key Value : Type) := Alias → Cell Key Value

abbrev State (Model Key Value : Type) := Model × Key → Held Key Value

/-- `set` for each of the sets. -/
def Cell.withSets {Key Value : Type} (cell : Cell Key Value) (sets : String → Option (Finset Key)) :
    Cell Key Value :=
  { cell with sets := fun name => (sets name).getD (cell.sets name) }

/-! ## 3. Records -/

section Records

variable {Model Raw Key Value : Type} [DecidableEq Model] [DecidableEq Key]
  (django : Django Model Raw Key Value) (using_ : Alias)

/-- The key of a record, where `existing_rows` does not pass over it; none where it raises. -/
def wanted (record : Record Raw) : Option (Option (Model × Key)) :=
  match record.model with
  | none => some none
  | some label => match django.getModel label with
    | .error .expected => some none
    | .error .other => none
    | .ok model => match django.toPython model record.pk with
      | .error .expected => some none
      | .error .other => none
      | .ok key => some (some (model, key))

/-- The query, in whatever slices: the keys that have a row. -/
def existingRows (s : State Model Key Value) (records : List (Record Raw)) :
    Option (List (Model × Key)) :=
  (records.mapM (wanted django)).map fun keys =>
    keys.reduceOption.filter fun key => (s key using_).row.isSome

/-- What a record came to, an object and the data of its sets, with the names that it carries. -/
structure Reading (Model Key Value : Type) where
  model : Model
  key : Key
  data : List (String × Datum Key Value)
  names : List String

namespace Reading

variable (reading : Reading Model Key Value)

def id : Model × Key := (reading.model, reading.key)

/-- The value that was read for a column. -/
def carried (column : String) : Option Value :=
  match reading.data.lookup column with
  | some (.value value) => some value
  | _ => none

/-- The column of the object. -/
def attr (column : String) : Value :=
  (reading.carried column).getD (django.default reading.model column)

/-- `m2m_data` -/
def sets (name : String) : Option (Finset Key) :=
  match reading.data.lookup name with
  | some (.members keys) => some keys.toFinset
  | _ => none

end Reading

/-- The loop of the deserializer, which passes over what is no field of the model. -/
def readFields (model : Model) : List (String × Raw) → Option (List (String × Datum Key Value))
  | [] => some []
  | (name, raw) :: fields =>
    if name ∈ django.fieldNames model then
      match django.read model name raw, readFields model fields with
      | some datum, some data => some ((name, datum) :: data)
      | _, _ => none
    else readFields model fields

/-- `_deserialized`: none where it raises, and nothing of a model that is not known. -/
def deserialized (record : Record Raw) : Option (Option (Reading Model Key Value)) :=
  match record.model with
  | none => none
  | some label => match django.getModel label with
    | .error .expected => some none
    | .error .other => none
    | .ok model => match django.toPython model record.pk, readFields django model record.fields with
      | .ok key, some data => some (some ⟨model, key, data, record.fields.map Prod.fst⟩)
      | _, _ => none

/-! ## 4. Saving -/

/-- `_carried_columns` -/
def carriedColumns (model : Model) (names : List String) : List String :=
  names.filterMap fun name => match django.getField model name with
    | none => none
    | some field =>
      if field.concrete && !field.manyToMany && !field.primaryKey then some field.name else none

namespace Reading

variable (reading : Reading Model Key Value)

/-- `save_base(raw=True)`, with these columns written. -/
def row (written : String → Bool) (old : Option (String → Value)) : String → Value := fun column =>
  if column ∈ django.columns reading.model ∧ written column = true then reading.attr django column
  else (old.map fun row => row column).getD (django.default reading.model column)

/-- The row is saved, and then its sets, in the same database. -/
def write (written : String → Bool) (held : Held Key Value) : Held Key Value :=
  let cell : Cell Key Value :=
    { held using_ with row := some (reading.row django written (held using_).row) }
  Function.update held using_ (cell.withSets reading.sets)

/-- `restored.save`, which updates or inserts. -/
def saved (held : Held Key Value) : Held Key Value := reading.write django using_ (fun _ => true) held

/-- `_update_carried_fields`: an object that was not saved is of no database, and `set` takes the
    default one. -/
def updateCarriedFields (held : Held Key Value) : Held Key Value :=
  let columns := carriedColumns django reading.model reading.names
  if columns = [] then
    Function.update held defaultAlias ((held defaultAlias).withSets reading.sets)
  else reading.write django using_ (· ∈ columns) held

end Reading

/-- The body of the loop of `save`. -/
def saveRecord (existing : List (Model × Key)) (s : State Model Key Value) (record : Record Raw) :
    Option (State Model Key Value) :=
  (deserialized django record).map fun restored => match restored with
    | none => s
    | some reading => Function.update s reading.id
      (if reading.id ∈ existing then reading.updateCarriedFields django using_ (s reading.id)
        else reading.saved django using_ (s reading.id))

/-- `RowLoader.save` -/
def save (s : State Model Key Value) (records : List (Record Raw)) : Option (State Model Key Value) :=
  (existingRows django using_ s records).bind fun existing =>
    records.foldlM (saveRecord django using_ existing) s

/-- One `save` for each batch. -/
def load (s : State Model Key Value) (batches : List (List (Record Raw))) :
    Option (State Model Key Value) := batches.foldlM (save django using_) s

/-! ## 5. What is promised -/

/-- The key of a record of a known model. -/
def keyOf (record : Record Raw) : Option (Model × Key) := (wanted django record).join

def Distinct (records : List (Record Raw)) : Prop := (records.filterMap (keyOf django)).Nodup

/-- What comes of the records that are not passed over. -/
def readings (records : List (Record Raw)) : List (Reading Model Key Value) :=
  records.filterMap fun record => (deserialized django record).join

/-- None is refused. -/
def Readable (records : List (Record Raw)) : Prop :=
  ∀ record ∈ records, (deserialized django record).isSome = true

instance (records : List (Record Raw)) : Decidable (Readable django records) :=
  inferInstanceAs (Decidable (∀ record ∈ records, _))

/-- A row keeps what is not carried, a new one has its defaults there; so do its sets. -/
def Reading.merged (reading : Reading Model Key Value) (held : Held Key Value) : Held Key Value :=
  let old := (held using_).row.getD (django.default reading.model)
  let row := fun column =>
    if column ∈ django.columns reading.model then (reading.carried column).getD (old column)
    else old column
  Function.update held using_ (Cell.withSets ⟨some row, (held using_).sets⟩ reading.sets)

/-- Every key of the backup has what it carries, and every other one what it had. -/
def merged (s : State Model Key Value) (records : List (Record Raw)) : Option (State Model Key Value) :=
  if Readable django records then
    some fun key => match (readings django records).find? fun reading => reading.id = key with
      | some reading => reading.merged django using_ (s key)
      | none => s key
  else none

/-- **A merging restore changes only what the backup carries**, however the records are split, and
    nothing when it is done again. -/
structure Merges (s : State Model Key Value) (records : List (Record Raw)) : Prop where
  merged : ∀ batches : List (List (Record Raw)), batches.flatten = records →
    load django using_ s batches = merged django using_ s records
  again : ∀ (batches others : List (List (Record Raw))) (t : State Model Key Value),
    batches.flatten = records → others.flatten = records → load django using_ s batches = some t →
      load django using_ t others = some t

/-- The condition, for a record and what the databases hold of its key. -/
def Reading.Carried (reading : Reading Model Key Value) (held : Held Key Value) : Prop :=
  let columns := carriedColumns django reading.model reading.names
  (∀ old ∈ (held using_).row, ∀ column ∈ django.columns reading.model, column ∈ columns →
      column ∈ reading.names ∨ old column = django.default reading.model column) ∧
    (columns = [] → using_ ≠ defaultAlias → ∀ name ∈ reading.names, ∀ keys ∈ reading.sets name,
      (held defaultAlias).sets name = keys ∧
        ((held using_).row.isSome = true → (held using_).sets name = keys))

end Records

/-! ## 6. What one record does -/

section Sets

variable {Model Raw Key Value : Type} {django : Django Model Raw Key Value}
  {using_ : Alias} {reading : Reading Model Key Value} {held : Held Key Value} {cell : Cell Key Value}
  {sets : String → Option (Finset Key)} {written other : String → Bool} {column : String}

theorem withSets_sets (name : String) :
    (cell.withSets sets).sets name = (sets name).getD (cell.sets name) := rfl

theorem withSets_eq_self :
    cell.withSets sets = cell ↔ ∀ name, ∀ keys ∈ sets name, cell.sets name = keys := by
  constructor
  · intro h name keys hkeys
    have hname := congrFun (congrArg Cell.sets h) name
    rw [withSets_sets, Option.mem_def.mp hkeys] at hname
    exact hname.symm
  · intro h
    rw [Cell.withSets]
    congr 1
    funext name
    cases hname : sets name with
    | none => rfl
    | some keys => exact (h name keys hname).symm

theorem withSets_idem : (cell.withSets sets).withSets sets = cell.withSets sets := by
  refine withSets_eq_self.mpr fun name keys hkeys => ?_
  rw [withSets_sets, Option.mem_def.mp hkeys, Option.getD_some]

theorem withSets_twice (row : Option (String → Value)) :
    Cell.withSets ⟨row, (cell.withSets sets).sets⟩ sets = Cell.withSets ⟨row, cell.sets⟩ sets := by
  simp only [Cell.withSets, Cell.mk.injEq, true_and]
  funext name
  cases sets name <;> rfl

theorem mem_carriedColumns (h : column ∈ django.columns reading.model)
    (hname : column ∈ reading.names) : column ∈ carriedColumns django reading.model reading.names := by
  obtain ⟨field, hfield, hcolumn, hconcrete, hmany, hkey⟩ :=
    django.column_field reading.model column h
  refine List.mem_filterMap.mpr ⟨column, hname, ?_⟩
  simp only [hfield, hconcrete, hmany, hkey, hcolumn]
  rfl

/-- The column as it was, or as a new row has it. -/
def Reading.before (django : Django Model Raw Key Value) (reading : Reading Model Key Value)
    (row : Option (String → Value)) (column : String) : Value :=
  row.getD (django.default reading.model) column

theorem row_eq (row : Option (String → Value)) : reading.row django written row column =
    if column ∈ django.columns reading.model ∧ written column = true then reading.attr django column
    else reading.before django row column := by
  cases row <;> rfl

/-- Columns that are written again are as they were. -/
theorem row_again (row : Option (String → Value))
    (h : ∀ column, written column = true → other column = true) :
    reading.row django written (some (reading.row django other row)) =
      reading.row django other row := by
  funext column
  rw [row_eq, Reading.before, Option.getD_some]
  split
  · next hc => rw [row_eq, if_pos ⟨hc.1, h column hc.2⟩]
  · rfl

theorem row_update_sets (database : Alias) (sets : String → Option (Finset Key)) :
    (Function.update held database ((held database).withSets sets) using_).row =
      (held using_).row := by
  by_cases h : using_ = database
  · rw [h, Function.update_self]
    rfl
  · rw [Function.update_of_ne h]

end Sets

section One

variable {Model Raw Key Value : Type} [DecidableEq Key] {django : Django Model Raw Key Value}
  {using_ : Alias} {reading : Reading Model Key Value} {held : Held Key Value}
  {written other : String → Bool} {column : String}

/-- What was read is what the record carries. -/
structure Reading.Whole (django : Django Model Raw Key Value) (reading : Reading Model Key Value) :
    Prop where
  carried : ∀ column ∈ django.columns reading.model,
    (reading.carried column).isSome = true ↔ column ∈ reading.names
  sets : ∀ name, ∀ keys ∈ reading.sets name, name ∈ reading.names

theorem write_again (h : ∀ column, written column = true → other column = true) :
    reading.write django using_ written (reading.write django using_ other held) =
      reading.write django using_ other held := by
  rw [Reading.write, Reading.write, Function.update_idem, Function.update_self, withSets_twice]
  dsimp only [Cell.withSets]
  rw [row_again _ h]

/-- Two ways to write come to the same when they do so in every column. -/
theorem write_eq_iff :
    reading.write django using_ written held = reading.write django using_ other held ↔
    ∀ column ∈ django.columns reading.model, written column = other column ∨
      reading.attr django column = reading.before django (held using_).row column := by
  rw [Reading.write, Reading.write, (Function.update_injective held using_).eq_iff]
  simp only [Cell.withSets, Cell.mk.injEq, Option.some.injEq, and_true, funext_iff]
  constructor
  · intro h column hcolumn
    have hrow := h column
    rw [row_eq, row_eq] at hrow
    cases hw : written column <;> cases ho : other column <;>
      simp only [hcolumn, hw, ho, Bool.false_eq_true, and_true, and_false, if_true, if_false] at hrow ⊢
    · exact Or.inl trivial
    · exact Or.inr hrow.symm
    · exact Or.inr hrow
    · exact Or.inl trivial
  · intro h column
    rw [row_eq, row_eq]
    by_cases hcolumn : column ∈ django.columns reading.model
    · rcases h column hcolumn with hsame | hattr
      · rw [hsame]
      · rw [hattr, ite_self, ite_self]
    · rw [if_neg fun hc => hcolumn hc.1, if_neg fun hc => hcolumn hc.1]

/-- What is promised, as a way to write. -/
theorem merged_eq_write : reading.merged django using_ held =
    reading.write django using_ (fun column => (reading.carried column).isSome) held := by
  rw [Reading.merged, Reading.write]
  congr 3
  refine congrArg some (funext fun column => ?_)
  rw [row_eq, Reading.attr]
  cases hcarried : reading.carried column with
  | none =>
    simp only [Option.getD_none, ite_self, Option.isSome_none, Bool.false_eq_true, and_false, if_false]
    rfl
  | some value =>
    simp only [Option.isSome_some, and_true]
    rfl

/-- What the loader does with a record, as its cell is. -/
def Reading.loaded (django : Django Model Raw Key Value) (using_ : Alias)
    (reading : Reading Model Key Value) (held : Held Key Value) : Held Key Value :=
  if (held using_).row.isSome = true then reading.updateCarriedFields django using_ held
  else reading.saved django using_ held

theorem Reading.Whole.carried_eq_none (h : reading.Whole django)
    (hcolumn : column ∈ django.columns reading.model) (hname : column ∉ reading.names) :
    reading.carried column = none :=
  Option.not_isSome_iff_eq_none.mp fun hsome => hname ((h.carried column hcolumn).mp hsome)

theorem row_write : (reading.write django using_ written held using_).row =
    some (reading.row django written (held using_).row) := by
  rw [Reading.write, Function.update_self]
  rfl

/-- A row that is missing is inserted with what is carried. -/
theorem loaded_eq_merged_of_none (h : (held using_).row = none) :
    reading.loaded django using_ held = reading.merged django using_ held := by
  rw [Reading.loaded, h, if_neg nofun, Reading.saved, merged_eq_write, write_eq_iff]
  intro column _
  rw [h, Reading.attr]
  cases reading.carried column with
  | none => exact Or.inr rfl
  | some value => exact Or.inl rfl

section Columns

-- some column is carried, and the sets go where the row goes
variable (hcolumns : carriedColumns django reading.model reading.names ≠ [])
include hcolumns

theorem update_of_columns : reading.updateCarriedFields django using_ held =
    reading.write django using_ (· ∈ carriedColumns django reading.model reading.names) held := by
  rw [Reading.updateCarriedFields]
  exact if_neg hcolumns

theorem loaded_twice_of_columns :
    reading.loaded django using_ (reading.loaded django using_ held) =
      reading.loaded django using_ held := by
  have hagain : ∀ other : String → Bool,
      (∀ column, decide (column ∈ carriedColumns django reading.model reading.names) = true →
        other column = true) →
      reading.loaded django using_ (reading.write django using_ other held) =
        reading.write django using_ other held := by
    intro other hother
    rw [Reading.loaded, row_write, if_pos Option.isSome_some, update_of_columns hcolumns]
    exact write_again hother
  by_cases hrow : (held using_).row.isSome = true
  · have hloaded : reading.loaded django using_ held =
        reading.write django using_ (· ∈ carriedColumns django reading.model reading.names) held := by
      rw [Reading.loaded, if_pos hrow, update_of_columns hcolumns]
    rw [hloaded]
    exact hagain _ fun _ hc => hc
  · have hloaded : reading.loaded django using_ held =
        reading.write django using_ (fun _ => true) held := by
      rw [Reading.loaded, if_neg hrow, Reading.saved]
    rw [hloaded]
    exact hagain _ fun _ _ => rfl

theorem loaded_eq_merged_of_columns (hwhole : reading.Whole django) :
    reading.loaded django using_ held = reading.merged django using_ held ↔
      reading.Carried django using_ held := by
  cases hrow : (held using_).row with
  | none =>
    refine ⟨fun _ => ⟨fun old hold => ?_, fun hnone => absurd hnone hcolumns⟩,
      fun _ => loaded_eq_merged_of_none hrow⟩
    rw [hrow] at hold
    cases hold
  | some old =>
    have hsome : (held using_).row.isSome = true := by rw [hrow]; rfl
    rw [Reading.loaded, if_pos hsome, update_of_columns hcolumns, merged_eq_write, write_eq_iff, hrow]
    constructor
    · intro h
      refine ⟨fun other hother column hcolumn hmem => ?_, fun hnone => absurd hnone hcolumns⟩
      rw [hrow] at hother
      cases hother
      by_cases hname : column ∈ reading.names
      · exact Or.inl hname
      · have hnone := hwhole.carried_eq_none hcolumn hname
        rcases h column hcolumn with hsame | hattr
        · rw [hnone, Option.isSome_none, decide_eq_false_iff_not] at hsame
          exact absurd hmem hsame
        · rw [Reading.attr, hnone] at hattr
          exact Or.inr hattr.symm
    · intro h column hcolumn
      by_cases hname : column ∈ reading.names
      · left
        rw [(hwhole.carried column hcolumn).mpr hname, decide_eq_true_iff]
        exact mem_carriedColumns hcolumn hname
      · have hnone := hwhole.carried_eq_none hcolumn hname
        by_cases hmem : column ∈ carriedColumns django reading.model reading.names
        · right
          rw [Reading.attr, hnone]
          exact ((h.1 old hrow column hcolumn hmem).resolve_left hname).symm
        · left
          rw [hnone, Option.isSome_none, decide_eq_false_iff_not]
          exact hmem

end Columns

theorem agree_iff (hwhole : reading.Whole django) (database : Alias) :
    (held database).withSets reading.sets = held database ↔
      ∀ name ∈ reading.names, ∀ keys ∈ reading.sets name, (held database).sets name = keys := by
  rw [withSets_eq_self]
  constructor
  · intro h name _
    exact h name
  · intro h name keys hkeys
    exact h name (hwhole.sets name keys hkeys) keys hkeys

section NoColumns

-- no column is carried, and the sets of a row that is there go to the default database
variable (hcolumns : carriedColumns django reading.model reading.names = [])
include hcolumns

theorem update_of_noColumns : reading.updateCarriedFields django using_ held =
    Function.update held defaultAlias ((held defaultAlias).withSets reading.sets) := by
  rw [Reading.updateCarriedFields]
  exact if_pos hcolumns

section

variable (hwhole : reading.Whole django)

include hwhole

theorem merged_of_noColumns
    (hrow : (held using_).row.isSome = true) : reading.merged django using_ held =
      Function.update held using_ ((held using_).withSets reading.sets) := by
  obtain ⟨old, hold⟩ := Option.isSome_iff_exists.mp hrow
  have hsame : reading.row django (fun column => (reading.carried column).isSome)
      (held using_).row = old := by
    funext column
    rw [row_eq, hold]
    refine if_neg fun h => ?_
    have hmem := mem_carriedColumns h.1 ((hwhole.carried column h.1).mp h.2)
    rw [hcolumns] at hmem
    cases hmem
  rw [merged_eq_write, Reading.write, hsame, ← hold]

theorem carried_of_noColumns :
    reading.Carried django using_ held ↔ (using_ ≠ defaultAlias →
      (held defaultAlias).withSets reading.sets = held defaultAlias ∧
        ((held using_).row.isSome = true → (held using_).withSets reading.sets = held using_)) := by
  rw [Reading.Carried, agree_iff hwhole, agree_iff hwhole, hcolumns]
  constructor
  · intro h hne
    exact ⟨fun name hname keys hkeys => (h.2 rfl hne name hname keys hkeys).1,
      fun hrow name hname keys hkeys => (h.2 rfl hne name hname keys hkeys).2 hrow⟩
  · intro h
    refine ⟨fun _ _ _ _ hmem => absurd hmem List.not_mem_nil, fun _ hne name hname keys hkeys => ?_⟩
    exact ⟨(h hne).1 name hname keys hkeys, fun hrow => (h hne).2 hrow name hname keys hkeys⟩

/-- The row is there. -/
theorem loaded_iff_of_present
    (hrow : (held using_).row.isSome = true) :
    (reading.loaded django using_ held = reading.merged django using_ held ∧
      reading.loaded django using_ (reading.loaded django using_ held) =
        reading.loaded django using_ held) ↔ reading.Carried django using_ held := by
  have hupdate : reading.loaded django using_ held =
      Function.update held defaultAlias ((held defaultAlias).withSets reading.sets) := by
    rw [Reading.loaded, if_pos hrow, update_of_noColumns hcolumns]
  have htwice : reading.loaded django using_ (reading.loaded django using_ held) =
      reading.loaded django using_ held := by
    rw [hupdate, Reading.loaded, row_update_sets, if_pos hrow, update_of_noColumns hcolumns,
      Function.update_idem, Function.update_self, withSets_idem]
  rw [and_iff_left htwice, hupdate, merged_of_noColumns hcolumns hwhole hrow,
    carried_of_noColumns hcolumns hwhole]
  by_cases hdefault : using_ = defaultAlias
  · rw [hdefault]
    exact ⟨fun _ hne => absurd rfl hne, fun _ => rfl⟩
  · constructor
    · intro h _
      have hthere := congrFun h defaultAlias
      have hhere := congrFun h using_
      rw [Function.update_self, Function.update_of_ne (Ne.symm hdefault)] at hthere
      rw [Function.update_self, Function.update_of_ne hdefault] at hhere
      exact ⟨hthere, fun _ => hhere.symm⟩
    · intro h
      rw [(h hdefault).1, (h hdefault).2 hrow, Function.update_eq_self, Function.update_eq_self]

/-- The row is not there, the first time. -/
theorem loaded_iff_of_missing (hrow : (held using_).row = none) :
    (reading.loaded django using_ held = reading.merged django using_ held ∧
      reading.loaded django using_ (reading.loaded django using_ held) =
        reading.loaded django using_ held) ↔ reading.Carried django using_ held := by
  have hsaved : reading.loaded django using_ held =
      reading.write django using_ (fun _ => true) held := by
    rw [Reading.loaded, hrow, if_neg nofun, Reading.saved]
  rw [and_iff_right (loaded_eq_merged_of_none hrow), carried_of_noColumns hcolumns hwhole, hsaved,
    Reading.loaded, row_write, if_pos Option.isSome_some, update_of_noColumns hcolumns,
    Function.update_eq_self_iff, hrow]
  by_cases hdefault : using_ = defaultAlias
  · refine ⟨fun _ hne => absurd hdefault hne, fun _ => ?_⟩
    rw [← hdefault, Reading.write, Function.update_self, withSets_idem]
  · have hthere : reading.write django using_ (fun _ => true) held defaultAlias = held defaultAlias :=
      Function.update_of_ne (Ne.symm hdefault) _ _
    rw [hthere]
    exact ⟨fun h _ => ⟨h, nofun⟩, fun h => (h hdefault).1⟩

end

end NoColumns

/-- **The condition is exact** for each record, in its cell. -/
theorem loaded_iff (hwhole : reading.Whole django) :
    (reading.loaded django using_ held = reading.merged django using_ held ∧
      reading.loaded django using_ (reading.loaded django using_ held) =
        reading.loaded django using_ held) ↔ reading.Carried django using_ held := by
  by_cases hcolumns : carriedColumns django reading.model reading.names = []
  · cases hrow : (held using_).row with
    | none => exact loaded_iff_of_missing hcolumns hwhole hrow
    | some old => exact loaded_iff_of_present hcolumns hwhole (by rw [hrow]; rfl)
  · rw [and_iff_left (loaded_twice_of_columns hcolumns)]
    exact loaded_eq_merged_of_columns hcolumns hwhole

end One

/-! ## 7. What was read -/

section Read

variable {Model Raw Key Value : Type} {django : Django Model Raw Key Value}
  {model : Model} {reading : Reading Model Key Value} {record : Record Raw}
  {records more : List (Record Raw)} {fields : List (String × Raw)}
  {data : List (String × Datum Key Value)} {name : String} {datum : Datum Key Value}

theorem readFields_cons {raw : Raw} (h : readFields django model ((name, raw) :: fields) = some data) :
    (name ∈ django.fieldNames model ∧ ∃ datum rest, django.read model name raw = some datum ∧
      readFields django model fields = some rest ∧ data = (name, datum) :: rest) ∨
    (name ∉ django.fieldNames model ∧ readFields django model fields = some data) := by
  rw [readFields] at h
  split at h
  · next hname =>
    split at h
    · next datum rest hread hrest =>
      exact Or.inl ⟨hname, datum, rest, hread, hrest, (Option.some.inj h).symm⟩
    · cases h
  · next hname => exact Or.inr ⟨hname, h⟩

/-- What is found in the data was read. -/
theorem read_of_lookup (h : readFields django model fields = some data)
    (hdatum : data.lookup name = some datum) :
    name ∈ fields.map Prod.fst ∧ ∃ raw, django.read model name raw = some datum := by
  induction fields generalizing data with
  | nil =>
    cases h
    cases hdatum
  | cons field fields ih =>
    obtain ⟨first, raw⟩ := field
    rcases readFields_cons h with ⟨-, found, rest, hread, hrest, rfl⟩ | ⟨-, hrest⟩
    · rw [List.lookup_cons] at hdatum
      split at hdatum
      · next heq =>
        obtain rfl := eq_of_beq heq
        cases hdatum
        exact ⟨List.mem_cons_self, raw, hread⟩
      · exact ⟨List.mem_cons_of_mem _ (ih hrest hdatum).1, (ih hrest hdatum).2⟩
    · exact ⟨List.mem_cons_of_mem _ (ih hrest hdatum).1, (ih hrest hdatum).2⟩

/-- What the record has of a field of the model is in the data. -/
theorem exists_lookup (h : readFields django model fields = some data)
    (hfield : name ∈ django.fieldNames model) (hname : name ∈ fields.map Prod.fst) :
    ∃ datum, data.lookup name = some datum := by
  induction fields generalizing data with
  | nil => cases hname
  | cons field fields ih =>
    obtain ⟨first, raw⟩ := field
    rcases readFields_cons h with ⟨-, found, rest, -, hrest, rfl⟩ | ⟨hnot, hrest⟩
    · rw [List.lookup_cons]
      split
      · exact ⟨found, rfl⟩
      · next hne =>
        refine ih hrest ((List.mem_cons.mp hname).resolve_left fun heq => ?_)
        rw [heq, beq_self_eq_true] at hne
        cases hne
    · refine ih hrest ((List.mem_cons.mp hname).resolve_left fun heq => ?_)
      exact hnot ((show name = first from heq) ▸ hfield)

theorem deserialized_whole [DecidableEq Key] (h : deserialized django record = some (some reading)) :
    reading.Whole django := by
  rw [deserialized] at h
  split at h
  · cases h
  · split at h
    · cases h
    · cases h
    · next model _ =>
      split at h
      · next key data hkey hdata =>
        obtain rfl := Option.some.inj (Option.some.inj h)
        refine ⟨fun column hcolumn => ⟨fun hsome => ?_, fun hname => ?_⟩, fun name keys hkeys => ?_⟩
        · rw [Reading.carried] at hsome
          split at hsome
          · next hlookup => exact (read_of_lookup hdata hlookup).1
          · cases hsome
        · obtain ⟨datum, hlookup⟩ := exists_lookup hdata (django.column_name model column hcolumn) hname
          obtain ⟨raw, hread⟩ := (read_of_lookup hdata hlookup).2
          obtain ⟨value, rfl⟩ := django.column_read model column hcolumn raw datum hread
          rw [Reading.carried, hlookup]
          rfl
        · rw [Reading.sets] at hkeys
          split at hkeys
          · next hlookup => exact (read_of_lookup hdata hlookup).1
          · cases hkeys
      · cases h

/-- Both readings of a record have one key. -/
theorem wanted_of_deserialized (h : deserialized django record = some (some reading)) :
    wanted django record = some (some reading.id) := by
  rw [deserialized] at h
  rw [wanted]
  split at h
  · cases h
  · split at h
    · cases h
    · cases h
    · split at h
      · next hkey _ =>
        obtain rfl := Option.some.inj (Option.some.inj h)
        simp only [hkey]
        rfl
      · cases h

theorem wanted_of_passed (h : deserialized django record = some none) :
    wanted django record = some none := by
  rw [deserialized] at h
  rw [wanted]
  split at h
  · cases h
  · split at h
    · rfl
    · cases h
    · split at h
      · cases Option.some.inj h
      · cases h

theorem readable_append :
    Readable django (records ++ more) ↔ Readable django records ∧ Readable django more :=
  List.forall_mem_append

theorem readings_append :
    readings django (records ++ more) = readings django records ++ readings django more :=
  List.filterMap_append

theorem wanted_eq_keyOf (h : (deserialized django record).isSome = true) :
    wanted django record = some (keyOf django record) := by
  obtain ⟨restored, hrestored⟩ := Option.isSome_iff_exists.mp h
  cases restored with
  | none => rw [keyOf, wanted_of_passed hrestored]; rfl
  | some reading => rw [keyOf, wanted_of_deserialized hrestored]; rfl

theorem mem_readings :
    reading ∈ readings django records ↔
      ∃ record ∈ records, deserialized django record = some (some reading) := by
  rw [readings, List.mem_filterMap]
  exact exists_congr fun record => and_congr_right fun _ => Option.join_eq_some_iff

theorem map_id_readings (h : Readable django records) :
    (readings django records).map Reading.id = records.filterMap (keyOf django) := by
  induction records with
  | nil => rfl
  | cons record records ih =>
    obtain ⟨hrecord, hrecords⟩ := List.forall_mem_cons.mp h
    obtain ⟨restored, hrestored⟩ := Option.isSome_iff_exists.mp hrecord
    have ih := ih hrecords
    rw [readings] at ih ⊢
    cases restored with
    | none =>
      have hkey : keyOf django record = none := by rw [keyOf, wanted_of_passed hrestored]; rfl
      rw [List.filterMap_cons_none hkey, ← ih,
        List.filterMap_cons_none (by rw [hrestored]; rfl)]
    | some reading =>
      have hkey : keyOf django record = some reading.id := by
        rw [keyOf, wanted_of_deserialized hrestored]; rfl
      rw [List.filterMap_cons_some hkey, ← ih,
        List.filterMap_cons_some (b := reading) (by rw [hrestored]; rfl), List.map_cons]

/-- The query finds the readings whose rows are there. -/
theorem exists_existingRows (using_ : Alias) (s : State Model Key Value) (h : Readable django records) :
    ∃ existing, existingRows django using_ s records = some existing ∧
      ∀ reading ∈ readings django records,
        reading.id ∈ existing ↔ (s reading.id using_).row.isSome = true := by
  have hkeys : records.mapM (wanted django) = some (records.map (keyOf django)) :=
    Rows.mapM_eq_some_map fun record hrecord => wanted_eq_keyOf (h record hrecord)
  refine ⟨_, by rw [existingRows, hkeys]; rfl, fun reading hreading => ?_⟩
  have hmem : reading.id ∈ (records.map (keyOf django)).reduceOption := by
    obtain ⟨record, hrecord, hrestored⟩ := mem_readings.mp hreading
    refine List.reduceOption_mem_iff.mpr (List.mem_map.mpr ⟨record, hrecord, ?_⟩)
    rw [keyOf, wanted_of_deserialized hrestored]
    rfl
  rw [List.mem_filter, and_iff_right hmem]

theorem whole_of_mem [DecidableEq Key] (h : reading ∈ readings django records) :
    reading.Whole django := by
  obtain ⟨record, -, hrestored⟩ := mem_readings.mp h
  exact deserialized_whole hrestored

end Read

/-! ## 8. Batches -/

section Batches

variable {Model Raw Key Value : Type} [DecidableEq Model] [DecidableEq Key]
  {django : Django Model Raw Key Value} {using_ : Alias} {s : State Model Key Value}
  {records : List (Record Raw)} {batches : List (List (Record Raw))}
  {reading : Reading Model Key Value} {existing : List (Model × Key)}

/-- What the loader does with a record, by what the query found. -/
def Reading.chosen (django : Django Model Raw Key Value) (using_ : Alias)
    (existing : List (Model × Key))
    (reading : Reading Model Key Value) (held : Held Key Value) : Held Key Value :=
  if reading.id ∈ existing then reading.updateCarriedFields django using_ held
  else reading.saved django using_ held

theorem foldlM_saveRecord (h : Readable django records) :
    records.foldlM (saveRecord django using_ existing) s =
      some (changed Reading.id (Reading.chosen django using_ existing)
        s (readings django records)) := by
  induction records generalizing s with
  | nil => rfl
  | cons record records ih =>
    obtain ⟨hrecord, hrecords⟩ := List.forall_mem_cons.mp h
    obtain ⟨restored, hrestored⟩ := Option.isSome_iff_exists.mp hrecord
    rw [List.foldlM_cons, saveRecord, hrestored]
    cases restored with
    | none =>
      rw [readings, List.filterMap_cons_none (by rw [hrestored]; rfl)]
      exact ih hrecords
    | some reading =>
      rw [readings, List.filterMap_cons_some (b := reading) (by rw [hrestored]; rfl)]
      exact ih hrecords

variable {t : State Model Key Value}

theorem readable_of_foldlM
    (h : records.foldlM (saveRecord django using_ existing) s = some t) : Readable django records := by
  induction records generalizing s with
  | nil => nofun
  | cons record records ih =>
    obtain ⟨m, hm, h⟩ := Option.bind_eq_some_iff.mp h
    obtain ⟨restored, hrestored, -⟩ := Option.map_eq_some_iff.mp hm
    exact List.forall_mem_cons.mpr ⟨by rw [hrestored]; rfl, ih h⟩

/-- A batch, whose query is as good as one for each record. -/
theorem save_of_readable (h : Readable django records) (hn : Distinct django records) :
    save django using_ s records =
      some (changed Reading.id (Reading.loaded django using_) s (readings django records)) := by
  obtain ⟨existing, hexisting, hiff⟩ := exists_existingRows using_ s h
  rw [save, hexisting, Option.bind_some, foldlM_saveRecord h]
  have hids : ((readings django records).map Reading.id).Nodup := by rwa [map_id_readings h]
  refine congrArg some ((changed_eq_iff hids).mpr fun reading hreading => ?_)
  rw [Reading.chosen, Reading.loaded]
  exact if_congr (hiff reading hreading) rfl rfl

theorem readable_of_save (h : save django using_ s records = some t) : Readable django records := by
  obtain ⟨existing, -, h⟩ := Option.bind_eq_some_iff.mp h
  exact readable_of_foldlM h

/-- **In every split, each record finds its cell as it was.** -/
theorem load_of_readable (h : Readable django batches.flatten) (hn : Distinct django batches.flatten) :
    load django using_ s batches =
      some (changed Reading.id (Reading.loaded django using_) s (readings django batches.flatten)) := by
  induction batches generalizing s with
  | nil => rfl
  | cons batch batches ih =>
    rw [List.flatten_cons, readable_append] at h
    rw [List.flatten_cons, Distinct, List.filterMap_append] at hn
    rw [load, List.foldlM_cons, save_of_readable h.1 hn.of_append_left, List.flatten_cons,
      readings_append, changed_append]
    exact ih h.2 hn.of_append_right

theorem readable_of_load (h : load django using_ s batches = some t) :
    Readable django batches.flatten := by
  induction batches generalizing s with
  | nil => nofun
  | cons batch batches ih =>
    obtain ⟨m, hm, h⟩ := Option.bind_eq_some_iff.mp h
    rw [List.flatten_cons, readable_append]
    exact ⟨readable_of_save hm, ih h⟩

theorem merged_of_readable (h : Readable django records) (hn : Distinct django records) :
    merged django using_ s records =
      some (changed Reading.id (Reading.merged django using_) s (readings django records)) := by
  have hids : ((readings django records).map Reading.id).Nodup := by rwa [map_id_readings h]
  rw [merged, if_pos h]
  refine congrArg some (funext fun key => ?_)
  by_cases hkey : key ∈ (readings django records).map Reading.id
  · obtain ⟨reading, hreading, rfl⟩ := List.mem_map.mp hkey
    rw [changed_of_mem hids hreading, Rows.find?_of_key hids hreading]
  · rw [changed_of_notMem hkey]
    cases hfind : (readings django records).find? fun reading => decide (reading.id = key) with
    | none => rfl
    | some reading =>
      have hid : reading.id = key := by simpa using List.find?_some hfind
      exact absurd (List.mem_map.mpr ⟨reading, List.mem_of_find?_eq_some hfind, hid⟩) hkey

/-- **A merging restore changes only what the backup carries**, and does so in every split and once
    more, exactly when each record's columns are named by their own names, and no set without a column
    is on its way to another database. -/
theorem merges_iff (django : Django Model Raw Key Value) (using_ : Alias) (s : State Model Key Value)
    (records : List (Record Raw)) (hn : Distinct django records) :
    Merges django using_ s records ↔ (Readable django records →
      ∀ reading ∈ readings django records, reading.Carried django using_ (s reading.id)) := by
  by_cases h : Readable django records
  · have hids : ((readings django records).map Reading.id).Nodup := by rwa [map_id_readings h]
    have hload : ∀ t (batches : List (List (Record Raw))), batches.flatten = records →
        load django using_ t batches =
          some (changed Reading.id (Reading.loaded django using_) t (readings django records)) := by
      rintro t batches rfl
      exact load_of_readable h hn
    have heach : (∀ reading ∈ readings django records, reading.Carried django using_ (s reading.id)) ↔
        changed Reading.id (Reading.loaded django using_) s (readings django records) =
          changed Reading.id (Reading.merged django using_) s (readings django records) ∧
        changed Reading.id (Reading.loaded django using_)
            (changed Reading.id (Reading.loaded django using_) s (readings django records))
            (readings django records) =
          changed Reading.id (Reading.loaded django using_) s (readings django records) := by
      rw [changed_eq_iff hids, changed_twice_iff hids, ← forall₂_and]
      exact forall₂_congr fun reading hreading => (loaded_iff (whole_of_mem hreading)).symm
    rw [forall_prop_of_true h, heach]
    have hone : [records].flatten = records := by rw [List.flatten_singleton]
    constructor
    · intro hmerges
      have hmerged := hmerges.merged [records] hone
      have hagain := hmerges.again [records] [records] _ hone hone (hload s _ hone)
      rw [hload s _ hone, merged_of_readable h hn] at hmerged
      rw [hload _ _ hone] at hagain
      exact ⟨Option.some.inj hmerged, Option.some.inj hagain⟩
    · rintro ⟨hmerged, hagain⟩
      refine ⟨fun batches hbatches => ?_, fun batches others t hbatches hothers ht => ?_⟩
      · rw [hload s _ hbatches, merged_of_readable h hn, hmerged]
      · rw [hload s _ hbatches] at ht
        cases ht
        rw [hload _ _ hothers, hagain]
  · rw [forall_prop_of_false h]
    refine iff_of_true ⟨fun batches hbatches => ?_, fun batches _ t hbatches _ ht => ?_⟩ trivial
    · rw [merged, if_neg h]
      refine Option.eq_none_iff_forall_ne_some.mpr fun t ht => h ?_
      rw [← hbatches]
      exact readable_of_load ht
    · refine absurd ?_ h
      rw [← hbatches]
      exact readable_of_load ht

end Batches

/-! ## 9. A column that is forgotten, and a set that goes astray -/

section Examples

inductive Table
  | account
  | member
deriving DecidableEq

inductive Json
  | null
  | number (number : Nat)
  | text (text : String)
  | keys (keys : List Nat)
deriving DecidableEq

def nameField : Field := ⟨"name", true, false, false⟩

/-- A foreign key, also found as `owner_id`. -/
def ownerField : Field := ⟨"owner", true, false, false⟩

def membersField : Field := ⟨"members", false, true, false⟩

def fieldsOf : Table → List (String × Field)
  | .account => [("name", nameField), ("owner", ownerField), ("owner_id", ownerField),
      ("members", membersField)]
  | .member => [("name", nameField)]

/-- Accounts with an owner and members. -/
def shop : Django Table Json Nat Json where
  getModel label :=
    if label = "shop.account" then .ok .account
    else if label = "shop.member" then .ok .member
    else .error .expected
  toPython _ raw := match raw with
    | .number key => .ok key
    | _ => .error .expected
  getField model name := (fieldsOf model).lookup name
  fieldNames model := match model with
    | .account => ["id", "name", "owner", "members"]
    | .member => ["id", "name"]
  columns model := match model with
    | .account => ["name", "owner"]
    | .member => ["name"]
  default _ column := if column = "name" then .text "" else .null
  read _ name raw := match raw with
    | .keys keys => if name = "members" then some (.members keys) else none
    | raw => if name = "members" then none else some (.value raw)
  column_field model column h := by
    cases model with
    | account =>
        rcases List.mem_pair.mp h with rfl | rfl
        · exact ⟨nameField, rfl, rfl, rfl, rfl, rfl⟩
        · exact ⟨ownerField, rfl, rfl, rfl, rfl, rfl⟩
    | member =>
        obtain rfl := List.mem_singleton.mp h
        exact ⟨nameField, rfl, rfl, rfl, rfl, rfl⟩
  column_name model := by cases model <;> decide
  column_read model column h raw datum hread := by
    have hname : column ≠ "members" := by
      rintro rfl
      cases model <;> exact absurd h (by decide)
    split at hread
    · rw [if_neg hname] at hread
      cases hread
    · rw [if_neg hname] at hread
      exact ⟨raw, (Option.some.inj hread).symm⟩

/-- Account 1 is there, in every database, without members. -/
def stocked : State Table Nat Json := fun key _ =>
  if key = (.account, 1) then
    ⟨some fun column => if column = "name" then .text "Ada" else .number 7, fun _ => ∅⟩
  else ⟨none, fun _ => ∅⟩

/-- An account that is there and one that is not, a column of before, and a model that is gone. -/
def backup : List (Record Json) :=
  [⟨some "shop.account", .number 1, [("name", .text "Eve"), ("members", .keys [3]), ("note", .null)]⟩,
    ⟨some "shop.account", .number 2, [("name", .text "Bob"), ("owner", .number 4)]⟩,
    ⟨some "shop.invoice", .text "A-1", []⟩, ⟨some "shop.member", .number 3, [("name", .text "Joe")]⟩]

instance {Model Raw Key Value : Type} [DecidableEq Key] [DecidableEq Value]
    (django : Django Model Raw Key Value) (using_ : Alias) (reading : Reading Model Key Value)
    (held : Held Key Value) : Decidable (reading.Carried django using_ held) :=
  inferInstanceAs (Decidable (_ ∧ _))

theorem merges_backup : Merges shop "other" stocked backup := by
  refine (merges_iff shop "other" stocked backup ?_).mpr fun _ => ?_
  · show (backup.filterMap (keyOf shop)).Nodup
    decide +kernel
  · decide +kernel

/-- A backup of when `owner_id` was a number of its own. -/
def forgotten : List (Record Json) :=
  [⟨some "shop.account", .number 1, [("name", .text "Eve"), ("owner_id", .number 5)]⟩]

/-- A backup of the members alone. -/
def strayed : List (Record Json) :=
  [⟨some "shop.account", .number 1, [("members", .keys [3])]⟩]

/-- **The owner is forgotten**, and **the members stray** to the default database. -/
theorem not_merges :
    ¬ Merges shop defaultAlias stocked forgotten ∧ ¬ Merges shop "other" stocked strayed := by
  constructor
  · intro h
    have howner := congrArg (Option.map fun t : State Table Nat Json =>
      ((t (.account, 1)) defaultAlias).row.map fun row => row "owner") (h.merged [forgotten] rfl)
    revert howner
    decide +kernel
  · intro h
    have hmembers := congrArg (Option.map fun t : State Table Nat Json =>
      ((t (.account, 1)) "other").sets "members") (h.merged [strayed] rfl)
    revert hmembers
    decide +kernel

end Examples

end Dbs.Merging

/-
  File:      Dbs/Payload/Splicing.lean
  Subject:   ONE ROW AS JSON (serialize.py, encode_record): large values are left out of the dump under
             random tokens, and their text is put where the tokens stand.

  * `Value`, `FieldValue`, `Row` -- what the serializer hands over; `dumps` -- `json.dumps` with the
    encoder's own texts for other objects;
  * `encodeRecord` -- the bytes of a row, in pieces;
  * `Piece`, `rowPieces` -- the dump of a row as text with holes; `dumps_row` -- the dump with any
    strings in the holes; `splice_pieces` -- the tokens are found again, one after another;
  * `encodeRecord_eq` -- the pieces joined are the plain dump.
-/
import Dbs.Lib.Base64
import Dbs.Lib.Dumps
import Dbs.Lib.Texts
import Dbs.Payload.Records

namespace Dbs.Splicing

open Octets Json Dumps

/-! ## 1. Values -/

/-- A value of any nesting; `other` are the objects that JSON does not have. -/
inductive Value (ω : Type) where
  | scalar (a : Scalar)
  | str (t : List Nat)
  | arr (items : List (Value ω))
  | obj (members : List (List Nat × Value ω))
  | other (o : ω)

/-- `DjangoJSONEncoder` on an interpreter: the text it has for an object, the integers that turn into
    text, and how many containers it writes in one another. -/
structure Encoder (ω : Type) where
  default : ω → Except Dumps.Raised (List Nat)
  fits : Int → Bool
  limit : Nat

variable {ω : Type} (enc : Encoder ω)

mutual

/-- `json.dumps(value, cls=DjangoJSONEncoder, ensure_ascii=False)`. -/
def dumps : (limit : Nat) → Value ω → Except Dumps.Raised (List Nat)
  | _, .scalar a => Dumps.dumps enc.fits 0 (.scalar a)
  | _, .str t => .ok (quoted t)
  | 0, .arr _ => .error .recursionError
  | limit + 1, .arr items => do
    return points "[" ++ (points ", ").intercalate (← dumpsItems limit items) ++ points "]"
  | 0, .obj _ => .error .recursionError
  | limit + 1, .obj members => do
    return points "\x7b" ++ (points ", ").intercalate (← dumpsMembers limit members) ++ points "\x7d"
  | _, .other o => do return quoted (← enc.default o)

def dumpsItems (limit : Nat) : List (Value ω) → Except Dumps.Raised (List (List Nat))
  | [] => .ok []
  | v :: items => do
    let text ← dumps limit v
    return text :: (← dumpsItems limit items)

def dumpsMembers (limit : Nat) : List (List Nat × Value ω) → Except Dumps.Raised (List (List Nat))
  | [] => .ok []
  | (k, v) :: members => do
    let text ← dumps limit v
    return (quoted k ++ points ": " ++ text) :: (← dumpsMembers limit members)

end

/-- `str.encode("utf-8")`. -/
def encodeUtf8 (t : List Nat) : Except Dumps.Raised Bytes :=
  match Texts.encode t with
  | some b => .ok b
  | none => .error .unicodeEncodeError

/-- What stands in `fields`: large binary values are `RawBytes`. -/
inductive FieldValue (ω : Type) where
  | raw (bytes : Bytes)
  | value (v : Value ω)

def base64Text (bytes : Bytes) : List Nat := (Base64.encode bytes).map UInt8.toNat

/-- The same value in a plain dump. -/
def FieldValue.plain : FieldValue ω → Value ω
  | .raw bytes => .str (base64Text bytes)
  | .value v => v

/-- A record: its members, `fields` among them. -/
structure Row (ω : Type) where
  before : List (List Nat × Value ω)
  fields : List (List Nat × FieldValue ω)
  after : List (List Nat × Value ω)

/-- The record with `fill` for the values of its fields. -/
def Row.record (row : Row ω) (fill : List Nat × FieldValue ω → Value ω) : Value ω :=
  .obj (row.before ++
    ((points "fields", .obj (row.fields.map fun m => (m.1, fill m))) :: row.after))

def Row.plain (row : Row ω) : Value ω := row.record fun m => m.2.plain

/-- `_dumps`. -/
def dumpsBytes (v : Value ω) : Except Dumps.Raised Bytes := do encodeUtf8 (← dumps enc enc.limit v)

/-! ## 2. Splicing -/

/-- `_spliced`. -/
def spliced : FieldValue ω → Bool
  | .raw _ => true
  | .value (.str t) => Payload.splicedValueBytes ≤ t.length
  | .value _ => false

def hexText (bytes : Bytes) : List Nat :=
  bytes.flatMap fun b => [hexDigit (b.toNat / 16), hexDigit (b.toNat % 16)]
where
  hexDigit (n : Nat) : Nat := if n < 10 then 48 + n else 87 + n

/-- `f"dbs-spliced-{secrets.token_hex(16)}"`. -/
def token (random : Bytes) : List Nat := points "dbs-spliced-" ++ hexText random

/-- `NEEDS_ESCAPING.search(value)`. -/
def needsEscaping (t : List Nat) : Bool := t.any fun p => p = 34 || p = 92 || p < 32

def quote : Bytes := [34]

/-- `_json_string`. -/
def jsonString : FieldValue ω → Except Dumps.Raised (List Bytes)
  | .raw bytes => .ok [quote, Base64.encode bytes, quote]
  | .value (.str t) =>
    if needsEscaping t then do return [← encodeUtf8 (quoted t)]
    else do return [quote, ← encodeUtf8 t, quote]
  | .value _ => .error .typeError

/-- The record as it is dumped: every spliced value is its token. -/
def Row.tokened (row : Row ω) (tokens : List Nat → Bytes) : Value ω :=
  row.record fun m => if spliced m.2 then .str (token (tokens m.1)) else m.2.plain

def Row.spliced (row : Row ω) : List (List Nat × FieldValue ω) :=
  row.fields.filter fun m => Splicing.spliced m.2

/-- The loop over the spliced values. -/
def splice (tokens : List Nat → Bytes) :
    List (List Nat × FieldValue ω) → List Nat → Except Dumps.Raised (List Bytes)
  | [], text => do return [← encodeUtf8 text]
  | (name, value) :: rest, text => do
    let (before, text) := Texts.partition (quoted (token (tokens name))) text
    let piece ← encodeUtf8 before
    let string ← jsonString value
    return piece :: (string ++ (← splice tokens rest text))

/-- `encode_record`, with the random bytes of the token for each name. -/
def encodeRecord (tokens : List Nat → Bytes) (row : Row ω) : Except Dumps.Raised (List Bytes) :=
  if row.spliced = [] then do return [← dumpsBytes enc row.plain]
  else do splice tokens row.spliced (← dumps enc enc.limit (row.tokened tokens))

/-! ## 3. A dump with holes -/

/-- Text of the dump, or the place of a spliced value. -/
inductive Piece (ω : Type) where
  | text (t : List Nat)
  | hole (name : List Nat) (value : FieldValue ω)

/-- The text, with the given texts in its holes. -/
def render (fill : List Nat → FieldValue ω → List Nat) (pieces : List (Piece ω)) : List Nat :=
  pieces.flatMap fun
    | .text t => t
    | .hole name value => fill name value

def holes (pieces : List (Piece ω)) : List (List Nat × FieldValue ω) :=
  pieces.filterMap fun
    | .text _ => none
    | .hole name value => some (name, value)

/-- One member of `fields`. -/
def memberPieces (limit : Nat) (m : List Nat × FieldValue ω) :
    Except Dumps.Raised (List (Piece ω)) :=
  if Splicing.spliced m.2 then .ok [.text (quoted m.1 ++ points ": "), .hole m.1 m.2]
  else do return [.text (quoted m.1 ++ points ": " ++ (← dumps enc limit m.2.plain))]

def fieldPieces (limit : Nat) : List (List Nat × FieldValue ω) →
    Except Dumps.Raised (List (List (Piece ω)))
  | [] => .ok []
  | m :: fields => do
    let pieces ← memberPieces enc limit m
    return pieces :: (← fieldPieces limit fields)

/-- An object, from the pieces of its members. -/
def objectPieces (members : List (List (Piece ω))) : List (Piece ω) :=
  [.text (points "\x7b")] ++ ([.text (points ", ")] : List (Piece ω)).intercalate members ++
    [.text (points "\x7d")]

/-- The object `fields`. -/
def fieldsPieces : (limit : Nat) → List (List Nat × FieldValue ω) → Except Dumps.Raised (List (Piece ω))
  | 0, _ => .error .recursionError
  | limit + 1, fields => do return objectPieces (← fieldPieces enc limit fields)

def textPieces (texts : List (List Nat)) : List (List (Piece ω)) := texts.map fun t => [.text t]

def rowPieces : (limit : Nat) → Row ω → Except Dumps.Raised (List (Piece ω))
  | 0, _ => .error .recursionError
  | limit + 1, row => do
    let before ← dumpsMembers enc limit row.before
    let fields ← fieldsPieces enc limit row.fields
    let after ← dumpsMembers enc limit row.after
    return objectPieces (textPieces before ++
      ((.text (quoted (points "fields") ++ points ": ") :: fields) :: textPieces after))

section Rendering

variable {enc : Encoder ω} (fill : List Nat → FieldValue ω → List Nat)

@[simp] theorem render_nil : render fill ([] : List (Piece ω)) = [] := rfl

@[simp] theorem render_text (t : List Nat) (pieces : List (Piece ω)) :
    render fill (.text t :: pieces) = t ++ render fill pieces := rfl

@[simp] theorem render_hole (name : List Nat) (value : FieldValue ω) (pieces : List (Piece ω)) :
    render fill (.hole name value :: pieces) = fill name value ++ render fill pieces := rfl

@[simp] theorem render_append (pieces more : List (Piece ω)) :
    render fill (pieces ++ more) = render fill pieces ++ render fill more := List.flatMap_append

theorem render_intercalate (separator : List Nat) (parts : List (List (Piece ω))) :
    render fill (([.text separator] : List (Piece ω)).intercalate parts) =
      separator.intercalate (parts.map (render fill)) := by
  induction parts with
  | nil => rfl
  | cons part parts ih =>
    cases parts with
    | nil => simp [List.intercalate]
    | cons next parts =>
      rw [List.intercalate_cons_cons, List.map_cons, List.map_cons, List.intercalate_cons_cons,
        render_append, render_append, ih, List.map_cons, render_text, render_nil, List.append_nil]

theorem render_texts (texts : List (List Nat)) :
    (textPieces texts : List (List (Piece ω))).map (render fill) = texts := by
  rw [textPieces, List.map_map]
  conv => rhs; rw [← List.map_id texts]
  exact List.map_congr_left fun t _ => List.append_nil t

theorem render_object (members : List (List (Piece ω))) :
    render fill (objectPieces members) =
      points "\x7b" ++ (points ", ").intercalate (members.map (render fill)) ++ points "\x7d" := by
  rw [objectPieces, render_append, render_append, render_intercalate, render_text, render_text,
    render_nil, List.append_nil, List.append_nil]

theorem dumpsMembers_append (limit : Nat) (front members : List (List Nat × Value ω)) :
    dumpsMembers enc limit (front ++ members) = do
      let texts ← dumpsMembers enc limit front
      return texts ++ (← dumpsMembers enc limit members) := by
  induction front with
  | nil =>
    rw [List.nil_append, dumpsMembers]
    cases dumpsMembers enc limit members <;> rfl
  | cons m front ih =>
    rw [List.cons_append, dumpsMembers, dumpsMembers, ih]
    cases dumps enc limit m.2 with
    | error e => rfl
    | ok text =>
      cases dumpsMembers enc limit front with
      | error e => rfl
      | ok texts => cases dumpsMembers enc limit members <;> rfl

variable {value : List Nat × FieldValue ω → Value ω}

/-- What the filled members are dumped to: strings for the spliced ones. -/
theorem dumps_fields (limit : Nat) (fields : List (List Nat × FieldValue ω))
    (hspliced : ∀ m ∈ fields, Splicing.spliced m.2 = true →
      dumps enc limit (value m) = .ok (fill m.1 m.2))
    (hother : ∀ m ∈ fields, Splicing.spliced m.2 = false → value m = m.2.plain) :
    dumpsMembers enc limit (fields.map fun m => (m.1, value m)) =
      (fieldPieces enc limit fields).map (List.map (render fill)) := by
  induction fields with
  | nil => rfl
  | cons m fields ih =>
    rw [List.map_cons, dumpsMembers, fieldPieces, memberPieces,
      ih (fun m hm => hspliced m (List.mem_cons_of_mem _ hm))
        fun m hm => hother m (List.mem_cons_of_mem _ hm)]
    cases hm : Splicing.spliced m.2 with
    | true =>
      rw [hspliced m List.mem_cons_self hm, if_pos rfl]
      cases fieldPieces enc limit fields with
      | error e => rfl
      | ok pieces =>
        show Except.ok _ = Except.ok _
        simp
    | false =>
      rw [hother m List.mem_cons_self hm, if_neg Bool.false_ne_true]
      cases dumps enc limit m.2.plain with
      | error e => rfl
      | ok text =>
        cases fieldPieces enc limit fields with
        | error e => rfl
        | ok pieces =>
          show Except.ok _ = Except.ok _
          simp

theorem dumps_fieldsObject (limit : Nat) (fields : List (List Nat × FieldValue ω))
    (hspliced : ∀ limit, ∀ m ∈ fields, Splicing.spliced m.2 = true →
      dumps enc limit (value m) = .ok (fill m.1 m.2))
    (hother : ∀ m ∈ fields, Splicing.spliced m.2 = false → value m = m.2.plain) :
    dumps enc limit (.obj (fields.map fun m => (m.1, value m))) =
      (fieldsPieces enc limit fields).map (render fill) := by
  cases limit with
  | zero => rfl
  | succ limit =>
    rw [dumps, dumps_fields fill limit fields (hspliced limit) hother, fieldsPieces]
    cases fieldPieces enc limit fields with
    | error e => rfl
    | ok pieces => exact congrArg Except.ok (render_object fill pieces).symm

/-- **The dump of a row, whatever strings its holes are filled with.** -/
theorem dumps_row (limit : Nat) (row : Row ω)
    (hspliced : ∀ limit, ∀ m ∈ row.fields, Splicing.spliced m.2 = true →
      dumps enc limit (value m) = .ok (fill m.1 m.2))
    (hother : ∀ m ∈ row.fields, Splicing.spliced m.2 = false → value m = m.2.plain) :
    dumps enc limit (row.record value) = (rowPieces enc limit row).map (render fill) := by
  unfold Row.record
  cases limit with
  | zero => rfl
  | succ limit =>
    rw [dumps, dumpsMembers_append, dumpsMembers, rowPieces,
      dumps_fieldsObject fill limit row.fields hspliced hother]
    cases dumpsMembers enc limit row.before with
    | error e => rfl
    | ok before =>
      cases fieldsPieces enc limit row.fields with
      | error e => rfl
      | ok fields =>
        cases dumpsMembers enc limit row.after with
        | error e => rfl
        | ok after =>
          refine congrArg Except.ok (Eq.trans ?_ (render_object fill _).symm)
          rw [List.map_append, List.map_cons, render_texts, render_texts, render_text]

theorem holes_append (pieces more : List (Piece ω)) :
    holes (pieces ++ more) = holes pieces ++ holes more := List.filterMap_append

theorem holes_intercalate (separator : List Nat) (parts : List (List (Piece ω))) :
    holes (([.text separator] : List (Piece ω)).intercalate parts) = parts.flatMap holes := by
  induction parts with
  | nil => rfl
  | cons part parts ih =>
    cases parts with
    | nil => simp [List.intercalate]
    | cons next parts =>
      rw [List.intercalate_cons_cons, holes_append, holes_append, ih, List.flatMap_cons]
      exact congrArg (· ++ _) (List.append_nil (holes part))

theorem holes_object (members : List (List (Piece ω))) :
    holes (objectPieces members) = members.flatMap holes := by
  rw [objectPieces, holes_append, holes_append, holes_intercalate]
  exact List.append_nil _

theorem holes_texts (texts : List (List Nat)) :
    (textPieces texts : List (List (Piece ω))).flatMap holes = [] := by
  rw [List.flatMap_eq_nil_iff]
  rintro part hpart
  obtain ⟨t, -, rfl⟩ := List.mem_map.mp hpart
  rfl

theorem holes_fields {limit : Nat} {fields : List (List Nat × FieldValue ω)}
    {pieces : List (List (Piece ω))} (h : fieldPieces enc limit fields = .ok pieces) :
    pieces.flatMap holes = fields.filter fun m => Splicing.spliced m.2 := by
  induction fields generalizing pieces with
  | nil =>
    rw [← Except.ok.inj h]
    rfl
  | cons m fields ih =>
    rw [fieldPieces, memberPieces] at h
    cases hm : Splicing.spliced m.2 with
    | true =>
      rw [if_pos hm] at h
      cases hrest : fieldPieces enc limit fields with
      | error e => rw [hrest] at h; exact absurd h nofun
      | ok rest =>
        rw [hrest] at h
        rw [← Except.ok.inj h, List.filter_cons, hm, ← ih hrest]
        rfl
    | false =>
      rw [if_neg (by rw [hm]; exact Bool.false_ne_true)] at h
      cases htext : dumps enc limit m.2.plain with
      | error e => rw [htext] at h; exact absurd h nofun
      | ok text =>
        rw [htext] at h
        cases hrest : fieldPieces enc limit fields with
        | error e => rw [hrest] at h; exact absurd h nofun
        | ok rest =>
          rw [hrest] at h
          rw [← Except.ok.inj h, List.filter_cons, hm, ← ih hrest]
          rfl

/-- **The holes of a row are its spliced values, in order.** -/
theorem holes_row {limit : Nat} {row : Row ω} {pieces : List (Piece ω)}
    (h : rowPieces enc limit row = .ok pieces) : holes pieces = row.spliced := by
  cases limit with
  | zero => exact absurd h nofun
  | succ limit =>
    rw [rowPieces] at h
    cases hbefore : dumpsMembers enc limit row.before with
    | error e => rw [hbefore] at h; exact absurd h nofun
    | ok before =>
      rw [hbefore] at h
      cases limit with
      | zero => exact absurd h nofun
      | succ limit =>
        rw [fieldsPieces] at h
        cases hfields : fieldPieces enc limit row.fields with
        | error e => rw [hfields] at h; exact absurd h nofun
        | ok fields =>
          rw [hfields] at h
          cases hafter : dumpsMembers enc (limit + 1) row.after with
          | error e => rw [hafter] at h; exact absurd h nofun
          | ok after =>
            rw [hafter] at h
            have hfieldHoles : holes (.text (quoted (points "fields") ++ points ": ") ::
                objectPieces fields) = row.spliced := by
              show holes (objectPieces fields) = _
              rw [holes_object, holes_fields hfields]
              rfl
            rw [← Except.ok.inj h, holes_object, List.flatMap_append, List.flatMap_cons,
              holes_texts, holes_texts, hfieldHoles, List.nil_append, List.append_nil]

end Rendering

/-! ## 4. The tokens found again -/

/-- What a plain dump has for a spliced value. -/
def plainText : FieldValue ω → List Nat
  | .raw bytes => quoted (base64Text bytes)
  | .value (.str t) => quoted t
  | .value _ => []

theorem quoted_eq {t : List Nat} (h : needsEscaping t = false) : quoted t = 34 :: (t ++ [34]) := by
  have hpoint : ∀ p ∈ t, escapePoint p = [p] := by
    intro p hp
    have hp' := List.any_eq_false.mp h p hp
    simp only [Bool.or_eq_true, decide_eq_true_eq, not_or] at hp'
    obtain ⟨⟨h34, h92⟩, h32⟩ := hp'
    unfold escapePoint
    rw [if_neg h34, if_neg h92, if_neg (by omega), if_neg (by omega), if_neg (by omega),
      if_neg (by omega), if_neg (by omega), if_neg h32]
  have hflat : t.flatMap escapePoint = t := by
    induction t with
    | nil => rfl
    | cons p t ih =>
      rw [List.flatMap_cons, hpoint p List.mem_cons_self, ih ?_ fun q hq =>
        hpoint q (List.mem_cons_of_mem _ hq)]
      · rfl
      · rw [needsEscaping, List.any_cons, Bool.or_eq_false_iff] at h
        exact h.2
  rw [quoted, hflat]

theorem needsEscaping_hexDigit : ∀ n < 16, hexText.hexDigit n ≠ 34 ∧ hexText.hexDigit n ≠ 92 ∧
    32 ≤ hexText.hexDigit n := by decide

theorem needsEscaping_token (random : Bytes) : needsEscaping (token random) = false := by
  rw [needsEscaping, List.any_eq_false]
  intro p hp
  simp only [Bool.or_eq_true, decide_eq_true_eq, not_or]
  have hdigit : ∀ n < 16, p = hexText.hexDigit n → (¬ p = 34 ∧ ¬ p = 92) ∧ ¬ p < 32 := by
    rintro n hn rfl
    obtain ⟨h1, h2, h3⟩ := needsEscaping_hexDigit n hn
    exact ⟨⟨h1, h2⟩, by omega⟩
  rcases List.mem_append.mp hp with hp | hp
  · have hall : ∀ q ∈ points "dbs-spliced-", (¬ q = 34 ∧ ¬ q = 92) ∧ ¬ q < 32 := by decide
    exact hall p hp
  · obtain ⟨b, -, hb⟩ := List.mem_flatMap.mp hp
    have hlt := b.toNat_lt
    simp only [List.mem_cons, List.not_mem_nil, or_false] at hb
    rcases hb with hb | hb
    · exact hdigit _ (by omega) hb
    · exact hdigit _ (Nat.mod_lt _ (by decide)) hb

theorem quote_not_mem_token (random : Bytes) : 34 ∉ token random := by
  intro hmem
  have := List.any_eq_false.mp (needsEscaping_token random) 34 hmem
  exact this rfl

theorem encodeUtf8_append (s t : List Nat) :
    encodeUtf8 (s ++ t) = do return (← encodeUtf8 s) ++ (← encodeUtf8 t) := by
  unfold encodeUtf8
  rw [Texts.encode_append]
  cases Texts.encode s with
  | none => rfl
  | some a => cases Texts.encode t <;> rfl

theorem encodeUtf8_ascii {t : List Nat} (h : ∀ p ∈ t, p < 0x80) :
    encodeUtf8 t = .ok (t.map UInt8.ofNat) := by
  rw [encodeUtf8, Texts.encode_ascii h]

/-- The characters of the base64 text need no escaping. -/
theorem base64Text_plain (bytes : Bytes) : needsEscaping (base64Text bytes) = false ∧
    ∀ p ∈ base64Text bytes, p < 0x80 := by
  have hchar : ∀ c ∈ Base64.encode bytes,
      ((¬ c.toNat = 34 ∧ ¬ c.toNat = 92) ∧ ¬ c.toNat < 32) ∧ c.toNat < 0x80 :=
    Base64.forall_encode (by decide) (by decide) bytes
  constructor
  · rw [needsEscaping, List.any_eq_false]
    intro p hp
    obtain ⟨c, hc, rfl⟩ := List.mem_map.mp hp
    simp only [Bool.or_eq_true, decide_eq_true_eq, not_or]
    exact (hchar c hc).1
  · intro p hp
    obtain ⟨c, hc, rfl⟩ := List.mem_map.mp hp
    exact (hchar c hc).2

theorem encodeUtf8_base64Text (bytes : Bytes) :
    encodeUtf8 (base64Text bytes) = .ok (Base64.encode bytes) := by
  rw [encodeUtf8_ascii (base64Text_plain bytes).2, base64Text, List.map_map]
  refine congrArg Except.ok ?_
  conv => rhs; rw [← List.map_id (Base64.encode bytes)]
  exact List.map_congr_left fun c _ => UInt8.ofNat_toNat

theorem encodeUtf8_quote : encodeUtf8 [34] = .ok quote := rfl

/-- A text between quotes. -/
theorem encodeUtf8_between (t : List Nat) :
    encodeUtf8 (34 :: (t ++ [34])) = do return quote ++ (← encodeUtf8 t) ++ quote := by
  have hcons : 34 :: (t ++ [34]) = [34] ++ (t ++ [34]) := rfl
  rw [hcons, encodeUtf8_append, encodeUtf8_append, encodeUtf8_quote]
  cases encodeUtf8 t with
  | error e => rfl
  | ok b => exact congrArg Except.ok (List.append_assoc quote b quote).symm

/-- **What is put in place of a token is what a plain dump has there.** -/
theorem jsonString_flatten {value : FieldValue ω} (h : Splicing.spliced value = true) :
    (jsonString value).map List.flatten = encodeUtf8 (plainText value) := by
  match value, h with
  | .raw bytes, _ =>
    rw [jsonString, plainText, quoted_eq (base64Text_plain bytes).1, encodeUtf8_between,
      encodeUtf8_base64Text]
    exact congrArg Except.ok (by simp)
  | .value (.str t), _ =>
    rw [jsonString, plainText]
    by_cases hescape : needsEscaping t = true
    · rw [if_pos hescape]
      cases encodeUtf8 (quoted t) with
      | error e => rfl
      | ok b => exact congrArg Except.ok (List.flatten_singleton)
    · rw [if_neg hescape, quoted_eq (Bool.not_eq_true _ ▸ hescape), encodeUtf8_between]
      cases encodeUtf8 t with
      | error e => rfl
      | ok b => exact congrArg Except.ok (by simp)

/-- **One token after another is found where it was put**: by induction on the pieces, with the text in
    front of them. -/
theorem splice_pieces (tokens : List Nat → Bytes) (pieces : List (Piece ω)) (front : List Nat)
    (hspliced : ∀ m ∈ holes pieces, Splicing.spliced m.2 = true)
    (hfree : ∀ m ∈ holes pieces,
      ¬ token (tokens m.1) <:+: front ++ render (fun _ value => plainText value) pieces) :
    (splice tokens (holes pieces)
        (front ++ render (fun name _ => quoted (token (tokens name))) pieces)).map List.flatten =
      encodeUtf8 (front ++ render (fun _ value => plainText value) pieces) := by
  induction pieces generalizing front with
  | nil =>
    show (splice tokens [] (front ++ [])).map List.flatten = encodeUtf8 (front ++ [])
    rw [List.append_nil, splice]
    cases encodeUtf8 front with
    | error e => rfl
    | ok b => exact congrArg Except.ok List.flatten_singleton
  | cons piece pieces ih =>
    cases piece with
    | text t =>
      have := ih (front ++ t) hspliced fun m hm => by
        rw [List.append_assoc]
        exact hfree m hm
      rwa [List.append_assoc, List.append_assoc] at this
    | hole name value =>
      have hmem : (name, value) ∈ holes (Piece.hole name value :: pieces) := List.mem_cons_self
      have hfront : ¬ token (tokens name) <:+: front := fun hin =>
        hfree _ hmem (hin.trans (List.prefix_append front _).isInfix)
      have hrest : ∀ m ∈ holes pieces,
          ¬ token (tokens m.1) <:+: [] ++ render (fun _ value => plainText value) pieces := by
        intro m hm hin
        refine hfree m (List.mem_cons_of_mem _ hm) (hin.trans ?_)
        rw [List.nil_append, render_hole, ← List.append_assoc]
        exact (List.suffix_append _ _).isInfix
      have hnext := ih [] (fun m hm => hspliced m (List.mem_cons_of_mem _ hm)) hrest
      rw [List.nil_append, List.nil_append] at hnext
      show (splice tokens ((name, value) :: holes pieces) _).map List.flatten = _
      rw [splice, render_hole, render_hole, quoted_eq (needsEscaping_token _),
        Texts.partition_quoted (quote_not_mem_token _) hfront, encodeUtf8_append, encodeUtf8_append,
        ← jsonString_flatten (hspliced _ hmem), ← hnext]
      dsimp only
      cases encodeUtf8 front with
      | error e => rfl
      | ok a =>
        cases jsonString value with
        | error e => rfl
        | ok b =>
          cases splice tokens (holes pieces)
              (render (fun name _ => quoted (token (tokens name))) pieces) with
          | error e => rfl
          | ok c => exact congrArg Except.ok (by simp)

/-! ## 5. A row spliced and a row dumped -/

theorem plain_of_spliced {value : FieldValue ω} (limit : Nat) (h : Splicing.spliced value = true) :
    dumps enc limit value.plain = .ok (plainText value) := by
  match value, h with
  | .raw bytes, _ => cases limit <;> rfl
  | .value (.str t), _ => cases limit <;> rfl

/-- **Spliced JSON is plain JSON**: the pieces of a record joined are the bytes of a plain dump with the
    same base64 text, or the same exception, where no token of the row is in that dump by itself. -/
theorem encodeRecord_eq (tokens : List Nat → Bytes) (row : Row ω)
    (hfree : ∀ text, dumps enc enc.limit row.plain = .ok text →
      ∀ m ∈ row.spliced, ¬ token (tokens m.1) <:+: text) :
    (encodeRecord enc tokens row).map List.flatten = dumpsBytes enc row.plain := by
  have hplain : dumps enc enc.limit row.plain =
      (rowPieces enc enc.limit row).map (render fun _ value => plainText value) :=
    dumps_row (fun _ value => plainText value) enc.limit row
      (fun limit m _ h => plain_of_spliced enc limit h) fun _ _ _ => rfl
  have htokened : dumps enc enc.limit (row.tokened tokens) =
      (rowPieces enc enc.limit row).map (render fun name _ => quoted (token (tokens name))) := by
    refine dumps_row _ enc.limit row (fun limit m _ h => ?_) fun m _ h => ?_
    · rw [if_pos h]
      cases limit <;> rfl
    · rw [if_neg (by rw [h]; exact Bool.false_ne_true)]
  unfold encodeRecord
  by_cases hnone : row.spliced = []
  · rw [if_pos hnone]
    cases dumpsBytes enc row.plain with
    | error e => rfl
    | ok b => exact congrArg Except.ok List.flatten_singleton
  · rw [if_neg hnone, htokened, dumpsBytes]
    cases hpieces : rowPieces enc enc.limit row with
    | error e =>
      rw [hplain, hpieces]
      rfl
    | ok pieces =>
      rw [hpieces] at hplain
      rw [hplain, ← holes_row hpieces]
      have hspliced : ∀ m ∈ holes pieces, Splicing.spliced m.2 = true := by
        intro m hm
        rw [holes_row hpieces] at hm
        exact (List.mem_filter.mp hm).2
      refine splice_pieces tokens pieces [] hspliced fun m hm => ?_
      rw [holes_row hpieces] at hm
      exact hfree _ hplain m hm

/-- An encoder that has no text for other objects. -/
def plainEncoder : Encoder Unit := ⟨fun _ => .error .typeError, fun _ => true, 100⟩

/-- A binary value between two others, one of them with a quote. -/
def blobRow : Row Unit where
  before := [(points "model", .str (points "app.blob")), (points "pk", .scalar .null)]
  fields := [(points "a", .value (.str (points "x\"y"))), (points "data", .raw [1, 2, 3]),
    (points "z", .value (.arr [.str (points "w"), .scalar .null]))]
  after := []

def sixteenZeros (_ : List Nat) : Bytes := zeros 16

def blobText : List Nat := points
  "\x7b\"model\": \"app.blob\", \"pk\": null, \"fields\": \x7b\"a\": \"x\\\"y\", \"data\": \"AQID\", \"z\": [\"w\", null]\x7d\x7d"

theorem dumps_blobRow : dumps plainEncoder plainEncoder.limit blobRow.plain = .ok blobText := by
  rfl

/-- **The row is spliced at its binary value.** -/
theorem encodeRecord_eq_blob : (encodeRecord plainEncoder sixteenZeros blobRow).map List.flatten =
    dumpsBytes plainEncoder blobRow.plain := by
  refine encodeRecord_eq plainEncoder sixteenZeros blobRow fun text htext m hm => ?_
  rw [← Except.ok.inj (dumps_blobRow.symm.trans htext)]
  show ¬ token (zeros 16) <:+: blobText
  decide +kernel

end Dbs.Splicing

/-
  File:      Dbs/Lib/Dumps.lean
  Subject:   JSON DATA AS PYTHON WRITES IT FOR A READER: `json.dumps(data, ensure_ascii=False)`, which
             can raise: for containers in containers beyond the interpreter's limit, and for an
             integer with more digits than it turns into text.

  * `Data` -- JSON data, strings by their code points; `get`; `str` -- the text of a scalar;
  * `dumps` -- the text, or what is raised;
  * `Data.All` -- a condition on every string and every integer, and a bound on the depth;
  * `dumps_kind` -- a text is there, and all its points are of a kind, exactly for the data whose
    strings and integers are and that are not too deep.
-/
import Dbs.Lib.Json

namespace Dumps

open Json

/-- JSON data. A key is looked up by its first member. -/
inductive Data where
  | scalar (a : Scalar)
  | str (t : List Nat)
  | arr (items : List Data)
  | obj (members : List (List Nat × Data))

/-- The exceptions of this development's readers and writers of JSON. -/
inductive Raised where
  | typeError
  | valueError
  | recursionError
  | unicodeEncodeError

/-- A literal of the source. -/
def points (s : String) : List Nat := s.toList.map Char.toNat

theorem points_ascii {s : String} (h : s.toList.all (fun c => c.toNat < 128) = true) :
    ∀ p ∈ points s, p < 128 := by
  intro p hp
  obtain ⟨c, hc, rfl⟩ := List.mem_map.mp hp
  exact of_decide_eq_true (List.all_eq_true.mp h c hc)

/-- `mapping.get(key)`. -/
def get (key : List Nat) : List (List Nat × Data) → Option Data
  | [] => none
  | (k, v) :: members => if k = key then some v else get key members

/-! ## 1. Text -/

/-- What `json.dumps` writes for one code point of a string. -/
def escapePoint (p : Nat) : List Nat :=
  if p = 34 then points "\\\""
  else if p = 92 then points "\\\\"
  else if p = 10 then points "\\n"
  else if p = 13 then points "\\r"
  else if p = 9 then points "\\t"
  else if p = 12 then points "\\f"
  else if p = 8 then points "\\b"
  else if p < 32 then points "\\u" ++ (hexDigits p).map Char.toNat
  else [p]

def quoted (t : List Nat) : List Nat :=
  34 :: (t.flatMap escapePoint ++ [34])

mutual

/-- `json.dumps`, `limit` containers in one another at most. -/
def dumps (fits : Int → Bool) : (limit : Nat) → Data → Except Raised (List Nat)
  | _, .scalar (.int n) => if fits n then .ok ((intText n).map Char.toNat) else .error .valueError
  | _, .scalar a => .ok (a.text.map Char.toNat)
  | _, .str t => .ok (quoted t)
  | 0, .arr _ => .error .recursionError
  | limit + 1, .arr items => do
    let texts ← dumpsItems fits limit items
    .ok (points "[" ++ (points ", ").intercalate texts ++ points "]")
  | 0, .obj _ => .error .recursionError
  | limit + 1, .obj members => do
    let texts ← dumpsMembers fits limit members
    .ok (points "\x7b" ++ (points ", ").intercalate texts ++ points "\x7d")

def dumpsItems (fits : Int → Bool) (limit : Nat) : List Data → Except Raised (List (List Nat))
  | [] => .ok []
  | v :: items => do
    let text ← dumps fits limit v
    let texts ← dumpsItems fits limit items
    .ok (text :: texts)

def dumpsMembers (fits : Int → Bool) (limit : Nat) :
    List (List Nat × Data) → Except Raised (List (List Nat))
  | [] => .ok []
  | (k, v) :: members => do
    let text ← dumps fits limit v
    let texts ← dumpsMembers fits limit members
    .ok ((quoted k ++ points ": " ++ text) :: texts)

end

/-- `str(a)`. -/
def str (fits : Int → Bool) : Scalar → Except Raised (List Nat)
  | .null => .ok (points "None")
  | .bool true => .ok (points "True")
  | .bool false => .ok (points "False")
  | .int n => if fits n then .ok ((intText n).map Char.toNat) else .error .valueError
  | .float x =>
    if x.text = "NaN".toList then .ok (points "nan")
    else if x.text = "Infinity".toList then .ok (points "inf")
    else if x.text = "-Infinity".toList then .ok (points "-inf")
    else .ok (x.text.map Char.toNat)

/-! ## 2. The data that have one -/

mutual

/-- Every string as `S` says and every integer as `I` says, in at most `limit` containers. -/
def Data.All (S : List Nat → Prop) (I : Int → Prop) : (limit : Nat) → Data → Prop
  | _, .scalar (.int n) => I n
  | _, .scalar _ => True
  | _, .str t => S t
  | 0, .arr _ => False
  | limit + 1, .arr items => AllItems S I limit items
  | 0, .obj _ => False
  | limit + 1, .obj members => AllMembers S I limit members

def AllItems (S : List Nat → Prop) (I : Int → Prop) (limit : Nat) : List Data → Prop
  | [] => True
  | v :: items => v.All S I limit ∧ AllItems S I limit items

def AllMembers (S : List Nat → Prop) (I : Int → Prop) (limit : Nat) : List (List Nat × Data) → Prop
  | [] => True
  | (k, v) :: members => (S k ∧ v.All S I limit) ∧ AllMembers S I limit members

end

theorem allItems_iff {S : List Nat → Prop} {I : Int → Prop} {limit : Nat} (items : List Data) :
    AllItems S I limit items ↔ ∀ v ∈ items, v.All S I limit := by
  induction items with
  | nil => simp [AllItems]
  | cons v items ih => rw [AllItems, ih, List.forall_mem_cons]

theorem allMembers_iff {S : List Nat → Prop} {I : Int → Prop} {limit : Nat}
    (members : List (List Nat × Data)) :
    AllMembers S I limit members ↔ ∀ m ∈ members, S m.1 ∧ m.2.All S I limit := by
  induction members with
  | nil => simp [AllMembers]
  | cons m members ih => rw [AllMembers, ih, List.forall_mem_cons]

theorem forall_intercalate {P : Nat → Prop} {between : List Nat} (hbetween : ∀ p ∈ between, P p)
    (texts : List (List Nat)) :
    (∀ p ∈ between.intercalate texts, P p) ↔ ∀ t ∈ texts, ∀ p ∈ t, P p := by
  induction texts with
  | nil => simp
  | cons t texts ih =>
    cases texts with
    | nil => simp
    | cons u texts =>
      rw [List.intercalate_cons_cons, List.forall_mem_append, List.forall_mem_append,
        List.forall_mem_cons, ih]
      exact ⟨fun h => ⟨h.1.1, h.2⟩, fun h => ⟨⟨h.1, hbetween⟩, h.2⟩⟩

mutual

/-- Two conditions on the same data: what one says of its strings, as deep as the other says. -/
theorem Data.All.within {S S' : List Nat → Prop} {I I' : Int → Prop} :
    ∀ {limit limit' : Nat} (d : Data),
    d.All S I limit → d.All S' I' limit' → d.All S I limit'
  | _, _, .scalar (.int n), h, _ => by
      rw [Data.All] at h ⊢
      exact h
  | _, _, .scalar .null, h, _ => by
      rw [Data.All]
      · trivial
      · exact nofun
  | _, _, .scalar (.bool b), h, _ => by
      rw [Data.All]
      · trivial
      · exact nofun
  | _, _, .scalar (.float x), h, _ => by
      rw [Data.All]
      · trivial
      · exact nofun
  | _, _, .str t, h, _ => by
      rw [Data.All] at h ⊢
      exact h
  | 0, _, .arr _, h, _ => h.elim
  | _ + 1, 0, .arr _, _, h => h.elim
  | limit + 1, limit' + 1, .arr items, h, h' => by
      rw [Data.All] at h h' ⊢
      exact allItems_within items h h'
  | 0, _, .obj _, h, _ => h.elim
  | _ + 1, 0, .obj _, _, h => h.elim
  | limit + 1, limit' + 1, .obj members, h, h' => by
      rw [Data.All] at h h' ⊢
      exact allMembers_within members h h'

theorem allItems_within {S S' : List Nat → Prop} {I I' : Int → Prop} {limit limit' : Nat} :
    ∀ items : List Data, AllItems S I limit items → AllItems S' I' limit' items →
      AllItems S I limit' items
  | [], _, _ => trivial
  | v :: items, h, h' => ⟨Data.All.within v h.1 h'.1, allItems_within items h.2 h'.2⟩

theorem allMembers_within {S S' : List Nat → Prop} {I I' : Int → Prop} {limit limit' : Nat} :
    ∀ members : List (List Nat × Data), AllMembers S I limit members → AllMembers S' I' limit' members →
      AllMembers S I limit' members
  | [], _, _ => trivial
  | (_, v) :: members, h, h' =>
      ⟨⟨h.1.1, Data.All.within v h.1.2 h'.1.2⟩, allMembers_within members h.2 h'.2⟩

end

/-- What `dumps` makes of the texts of the members. -/
theorem wrapped_iff {P : Nat → Prop} {front between back : List Nat} (hfront : ∀ p ∈ front, P p)
    (hbetween : ∀ p ∈ between, P p) (hback : ∀ p ∈ back, P p) {x : Except Raised (List (List Nat))} :
    (∃ text, (do
        let texts ← x
        Except.ok (front ++ between.intercalate texts ++ back)) = .ok text ∧ ∀ p ∈ text, P p) ↔
      ∃ texts, x = .ok texts ∧ ∀ t ∈ texts, ∀ p ∈ t, P p := by
  constructor
  · intro ⟨text, h, hkind⟩
    cases x with
    | error e => exact nomatch h
    | ok texts =>
      cases h
      obtain ⟨hleft, -⟩ := List.forall_mem_append.mp hkind
      exact ⟨texts, rfl, (forall_intercalate hbetween texts).mp (List.forall_mem_append.mp hleft).2⟩
  · intro ⟨texts, h, hkind⟩
    subst h
    exact ⟨_, rfl, List.forall_mem_append.mpr ⟨List.forall_mem_append.mpr
      ⟨hfront, (forall_intercalate hbetween texts).mpr hkind⟩, hback⟩⟩

/-- What it makes of the first member and the rest. -/
theorem first_iff {P : Nat → Prop} {x : Except Raised (List Nat)} {y : Except Raised (List (List Nat))}
    {f : List Nat → List Nat} {front : Prop} (hf : ∀ t, (∀ p ∈ f t, P p) ↔ front ∧ ∀ p ∈ t, P p) :
    (∃ texts, (do
        let text ← x
        let texts ← y
        Except.ok (f text :: texts)) = .ok texts ∧ ∀ t ∈ texts, ∀ p ∈ t, P p) ↔
      (front ∧ ∃ text, x = .ok text ∧ ∀ p ∈ text, P p) ∧
        ∃ texts, y = .ok texts ∧ ∀ t ∈ texts, ∀ p ∈ t, P p := by
  constructor
  · intro ⟨texts, h, hkind⟩
    cases x with
    | error e => exact nomatch h
    | ok text =>
      cases y with
      | error e => exact nomatch h
      | ok rest =>
        cases h
        obtain ⟨hfirst, hrest⟩ := List.forall_mem_cons.mp hkind
        obtain ⟨hfront, htext⟩ := (hf text).mp hfirst
        exact ⟨⟨hfront, text, rfl, htext⟩, rest, rfl, hrest⟩
  · intro ⟨⟨hfront, text, hx, htext⟩, texts, hy, htexts⟩
    subst hx hy
    exact ⟨_, rfl, List.forall_mem_cons.mpr ⟨(hf text).mpr ⟨hfront, htext⟩, htexts⟩⟩

section Kind

-- a kind of code points that has every ASCII character in it
variable {P : Nat → Prop} (hP : ∀ p < 128, P p)
include hP

theorem points_kind {s : String} (h : s.toList.all (fun c => c.toNat < 128) = true) :
    ∀ p ∈ points s, P p := fun p hp => hP p (points_ascii h p hp)

theorem tokens_kind {text : List Char} (h : ∀ c ∈ text, tokenChar c = true) :
    ∀ p ∈ text.map Char.toNat, P p := by
  intro p hp
  obtain ⟨c, hc, rfl⟩ := List.mem_map.mp hp
  exact hP c.toNat (tokenChar_ascii (h c hc))

theorem hexDigits_kind (n : Nat) : ∀ p ∈ (hexDigits n).map Char.toNat, P p := by
  intro p hp
  obtain ⟨c, hc, rfl⟩ := List.mem_map.mp hp
  refine hP c.toNat ?_
  simp only [hexDigits, List.mem_cons, List.not_mem_nil, or_false] at hc
  rcases hc with rfl | rfl | rfl | rfl <;> exact digitChar_ascii _ (Nat.mod_lt _ (by decide))

theorem escapePoint_kind (p : Nat) : (∀ q ∈ escapePoint p, P q) ↔ P p := by
  by_cases hp : p < 128
  · refine ⟨fun _ => hP p hp, fun _ => ?_⟩
    unfold escapePoint
    split_ifs
    any_goals exact points_kind hP (by decide)
    · exact List.forall_mem_append.mpr ⟨points_kind hP (by decide), hexDigits_kind hP p⟩
    · exact List.forall_mem_singleton.mpr (hP p hp)
  · rw [escapePoint]
    iterate 8 rw [if_neg (by omega)]
    exact List.forall_mem_singleton

theorem quoted_kind (t : List Nat) : (∀ p ∈ quoted t, P p) ↔ ∀ p ∈ t, P p := by
  have hquote : P 34 := hP 34 (by decide)
  rw [quoted, List.forall_mem_cons, List.forall_mem_append, List.forall_mem_singleton]
  refine ⟨fun h p hp => ?_, fun h => ⟨hquote, fun q hq => ?_, hquote⟩⟩
  · exact (escapePoint_kind hP p).mp fun q hq => h.2.1 q (List.mem_flatMap.mpr ⟨p, hp, hq⟩)
  · obtain ⟨p, hp, hq⟩ := List.mem_flatMap.mp hq
    exact (escapePoint_kind hP p).mpr (h p hp) q hq

/-- Every string of a kind, every integer short enough to be written. -/
def Kind (P : Nat → Prop) (fits : Int → Bool) : (limit : Nat) → Data → Prop :=
  Data.All (fun t => ∀ p ∈ t, P p) (fun n => fits n = true)

omit hP

theorem written_iff {text : List Nat} (h : ∀ p ∈ text, P p) :
    (∃ t, (Except.ok text : Except Raised (List Nat)) = .ok t ∧ ∀ p ∈ t, P p) ↔ True :=
  iff_true_intro ⟨text, rfl, h⟩

theorem raised_iff {e : Raised} :
    (∃ t, (Except.error e : Except Raised (List Nat)) = .ok t ∧ ∀ p ∈ t, P p) ↔ False :=
  iff_false_intro fun ⟨_, h, _⟩ => nomatch h

mutual

/-- **A text is there**, and all its points are of a kind, exactly for data of that kind. -/
theorem dumps_kind (hP : ∀ p < 128, P p) (fits : Int → Bool) : ∀ (limit : Nat) (d : Data),
    (∃ text, dumps fits limit d = .ok text ∧ ∀ p ∈ text, P p) ↔ Kind P fits limit d
  | _, .scalar (.int n) => by
      rw [dumps, Kind, Data.All]
      split
      · rename_i hn
        exact (written_iff (tokens_kind hP (Scalar.int n).text_tokens)).trans (iff_true_intro hn).symm
      · rename_i hn
        exact raised_iff.trans (iff_false_intro hn).symm
  | _, .scalar .null => by
      rw [dumps, Kind, Data.All]
      · exact written_iff (tokens_kind hP Scalar.null.text_tokens)
      all_goals exact nofun
  | _, .scalar (.bool b) => by
      rw [dumps, Kind, Data.All]
      · exact written_iff (tokens_kind hP (Scalar.bool b).text_tokens)
      all_goals exact nofun
  | _, .scalar (.float x) => by
      rw [dumps, Kind, Data.All]
      · exact written_iff (tokens_kind hP (Scalar.float x).text_tokens)
      all_goals exact nofun
  | _, .str t => by
      rw [dumps, Kind, Data.All, ← quoted_kind hP]
      exact ⟨fun ⟨_, h, hkind⟩ => Except.ok.inj h ▸ hkind, fun h => ⟨_, rfl, h⟩⟩
  | 0, .arr _ => by
      rw [dumps, Kind, Data.All]
      exact raised_iff
  | limit + 1, .arr items => by
      rw [dumps, Kind, Data.All, ← dumpsItems_kind hP fits limit items]
      exact wrapped_iff (points_kind hP (by decide)) (points_kind hP (by decide))
        (points_kind hP (by decide))
  | 0, .obj _ => by
      rw [dumps, Kind, Data.All]
      exact raised_iff
  | limit + 1, .obj members => by
      rw [dumps, Kind, Data.All, ← dumpsMembers_kind hP fits limit members]
      exact wrapped_iff (points_kind hP (by decide)) (points_kind hP (by decide))
        (points_kind hP (by decide))

theorem dumpsItems_kind (hP : ∀ p < 128, P p) (fits : Int → Bool) (limit : Nat) :
    ∀ items : List Data,
    (∃ texts, dumpsItems fits limit items = .ok texts ∧ ∀ t ∈ texts, ∀ p ∈ t, P p) ↔
      AllItems (fun t => ∀ p ∈ t, P p) (fun n => fits n = true) limit items
  | [] => by
      rw [dumpsItems, AllItems]
      exact iff_true_intro ⟨[], rfl, nofun⟩
  | v :: items => by
      rw [dumpsItems, AllItems, ← dumpsItems_kind hP fits limit items]
      refine (first_iff (f := id) fun t => iff_of_eq (true_and _).symm).trans ?_
      rw [true_and]
      exact and_congr_left' (dumps_kind hP fits limit v)

theorem dumpsMembers_kind (hP : ∀ p < 128, P p) (fits : Int → Bool) (limit : Nat) :
    ∀ members : List (List Nat × Data),
    (∃ texts, dumpsMembers fits limit members = .ok texts ∧ ∀ t ∈ texts, ∀ p ∈ t, P p) ↔
      AllMembers (fun t => ∀ p ∈ t, P p) (fun n => fits n = true) limit members
  | [] => by
      rw [dumpsMembers, AllMembers]
      exact iff_true_intro ⟨[], rfl, nofun⟩
  | (k, v) :: members => by
      rw [dumpsMembers, AllMembers, ← dumpsMembers_kind hP fits limit members, first_iff fun t => by
        rw [List.forall_mem_append, List.forall_mem_append, quoted_kind hP,
          and_iff_left (points_kind hP (by decide))]]
      exact and_congr_left' (and_congr_right' (dumps_kind hP fits limit v))

end

end Kind

end Dumps

/-
  File:      Dbs/Lib/Json.lean
  Subject:   JSON AS PYTHON WRITES IT: `json.dumps(value, sort_keys=True, separators=(",", ":"))`.

  * `Text` -- a Python string, by its code points; `escaped` -- its text in ASCII, every other unit as
    `\uXXXX`; `escaped_inj` -- no two strings have one text;
  * `Value` -- what `json.loads` gives; `render` -- its compact text; `render_inj` -- the text of a
    value ends where the value does, and is that of no other value; `render_ascii`;
  * `norm` -- the keys of every object in order; `dumps_inj` -- equal texts, equal values up to the
    order of keys;
  * `Text.enclosed` -- strings put together; `Keyed` -- no object holds a key twice.
-/
import Mathlib.Data.List.Sort
import Mathlib.Data.List.Lex

namespace Json

/-! ## 1. Strings -/

def isHigh (u : Nat) : Prop := 0xD800 ≤ u ∧ u < 0xDC00

def isLow (u : Nat) : Prop := 0xDC00 ≤ u ∧ u < 0xE000

/-- No surrogates side by side that UTF-16 reads as one character. -/
def NoPair : List Nat → Prop
  | p :: q :: l => ¬ (isHigh p ∧ isLow q) ∧ NoPair (q :: l)
  | _ => True

theorem NoPair.tail {p : Nat} {l : List Nat} (h : NoPair (p :: l)) : NoPair l := by
  cases l with
  | nil => trivial
  | cons q l => exact h.2

/-- A Python string that was read from JSON or from a column: surrogates may stand alone in it, a
    pair of them is one code point. -/
@[ext] structure Text where
  points : List Nat
  bound : ∀ p ∈ points, p < 0x110000
  noPair : NoPair points
deriving DecidableEq

theorem noPair_of_valid (l : List Char) : NoPair (l.map Char.toNat) := by
  induction l with
  | nil => trivial
  | cons c l ih =>
    cases l with
    | nil => trivial
    | cons d l =>
      refine ⟨fun h => ?_, ih⟩
      obtain ⟨h1, h2⟩ := h.1
      have hv : c.toNat < 0xD800 ∨ 0xDFFF < c.toNat ∧ c.toNat < 0x110000 := c.valid
      omega

/-- A string of characters, which holds no surrogates. -/
def Text.ofString (s : String) : Text where
  points := s.toList.map Char.toNat
  bound p hp := by
    obtain ⟨c, -, rfl⟩ := List.mem_map.mp hp
    have hv : c.toNat < 0xD800 ∨ 0xDFFF < c.toNat ∧ c.toNat < 0x110000 := c.valid
    omega
  noPair := noPair_of_valid s.toList

theorem Text.ofString_inj {s t : String} (h : Text.ofString s = Text.ofString t) : s = t := by
  have hpoints : s.toList.map Char.toNat = t.toList.map Char.toNat := congrArg Text.points h
  have hinj : Function.Injective Char.toNat := fun a b hab => Char.toNat_inj.mp hab
  exact String.toList_inj.mp (List.map_injective_iff.mpr hinj hpoints)

/-- The UTF-16 units of a code point. -/
def units (p : Nat) : List Nat :=
  if p < 0x10000 then [p] else [0xD800 + (p - 0x10000) / 0x400, 0xDC00 + (p - 0x10000) % 0x400]

theorem units_inj {l m : List Nat} (hl : ∀ p ∈ l, p < 0x110000) (hm : ∀ p ∈ m, p < 0x110000)
    (hpl : NoPair l) (hpm : NoPair m) (h : l.flatMap units = m.flatMap units) : l = m := by
  have hne : ∀ p, units p ≠ [] := fun p => by unfold units; split <;> exact List.cons_ne_nil _ _
  -- a plain unit is not the first half of a pair: its other half would stand behind it
  have hmixed : ∀ {p q : Nat} {l : List Nat} {rest : List Nat}, q < 0x110000 → ¬ q < 0x10000 →
      p < 0x10000 → (∀ x ∈ l, x < 0x110000) → NoPair (p :: l) →
      p :: l.flatMap units =
        (0xD800 + (q - 0x10000) / 0x400) :: (0xDC00 + (q - 0x10000) % 0x400) :: rest → False := by
    intro p q l rest hq hq' hp hl hpair h
    obtain ⟨h1, h2⟩ := List.cons.inj h
    cases l with
    | nil => cases h2
    | cons p2 l =>
      have hhigh : isHigh p := by unfold isHigh; omega
      rw [List.flatMap_cons, units] at h2
      split at h2
      · have h3 := (List.cons.inj h2).1
        exact hpair.1 ⟨hhigh, by unfold isLow; omega⟩
      · have h3 := (List.cons.inj h2).1
        have hp2 := hl p2 List.mem_cons_self
        omega
  induction l generalizing m with
  | nil =>
    cases m with
    | nil => rfl
    | cons q m =>
      rw [List.flatMap_cons] at h
      exact absurd (List.append_eq_nil_iff.mp h.symm).1 (hne q)
  | cons p l ih =>
    cases m with
    | nil =>
      rw [List.flatMap_cons] at h
      exact absurd (List.append_eq_nil_iff.mp h).1 (hne p)
    | cons q m =>
      have hp := hl p List.mem_cons_self
      have hq := hm q List.mem_cons_self
      have hl' := fun x hx => hl x (List.mem_cons_of_mem p hx)
      have hm' := fun x hx => hm x (List.mem_cons_of_mem q hx)
      have hrest := ih hl' hm' hpl.tail hpm.tail
      rw [List.flatMap_cons, List.flatMap_cons] at h
      by_cases hp' : p < 0x10000 <;> by_cases hq' : q < 0x10000
      · rw [units, units, if_pos hp', if_pos hq'] at h
        obtain ⟨h1, h2⟩ := List.cons.inj h
        rw [h1, hrest h2]
      · rw [units, units, if_pos hp', if_neg hq'] at h
        exact (hmixed hq hq' hp' hl' hpl h).elim
      · rw [units, units, if_neg hp', if_pos hq'] at h
        exact (hmixed hp hp' hq' hm' hpm h.symm).elim
      · rw [units, units, if_neg hp', if_neg hq'] at h
        obtain ⟨h1, h2⟩ := List.cons.inj h
        obtain ⟨h3, h4⟩ := List.cons.inj h2
        have hpq : p = q := by omega
        rw [hpq, hrest h4]

def hexDigits (u : Nat) : List Char :=
  [Nat.digitChar (u / 4096 % 16), Nat.digitChar (u / 256 % 16), Nat.digitChar (u / 16 % 16),
    Nat.digitChar (u % 16)]

def hexVal (c : Char) : Nat := if c.isDigit then c.toNat - 48 else c.toNat - 87

theorem hexVal_digitChar : ∀ d < 16, hexVal (Nat.digitChar d) = d := by decide

theorem toNat_ascii : ∀ u < 127, (Char.ofNat u).toNat = u := by decide

/-- `ensure_ascii`: what is not printable ASCII is written by its number. -/
def escapeUnit (u : Nat) : List Char :=
  if u = 34 then ['\\', '"']
  else if u = 92 then ['\\', '\\']
  else if u = 10 then ['\\', 'n']
  else if u = 13 then ['\\', 'r']
  else if u = 9 then ['\\', 't']
  else if u = 12 then ['\\', 'f']
  else if u = 8 then ['\\', 'b']
  else if 32 ≤ u ∧ u < 127 then [Char.ofNat u]
  else '\\' :: 'u' :: hexDigits u

def escaped (t : Text) : List Char :=
  '"' :: ((t.points.flatMap units).flatMap escapeUnit ++ ['"'])

/-- The unit an escape stands for, and what follows it. -/
def readUnit : List Char → Option (Nat × List Char)
  | '\\' :: '"' :: r => some (34, r)
  | '\\' :: '\\' :: r => some (92, r)
  | '\\' :: 'n' :: r => some (10, r)
  | '\\' :: 'r' :: r => some (13, r)
  | '\\' :: 't' :: r => some (9, r)
  | '\\' :: 'f' :: r => some (12, r)
  | '\\' :: 'b' :: r => some (8, r)
  | '\\' :: 'u' :: a :: b :: c :: d :: r =>
    some (4096 * hexVal a + 256 * hexVal b + 16 * hexVal c + hexVal d, r)
  | c :: r => some (c.toNat, r)
  | [] => none

theorem readUnit_escapeUnit {u : Nat} (hu : u < 0x10000) (r : List Char) :
    readUnit (escapeUnit u ++ r) = some (u, r) := by
  by_cases h34 : u = 34
  · subst h34; rfl
  by_cases h92 : u = 92
  · subst h92; rfl
  by_cases h10 : u = 10
  · subst h10; rfl
  by_cases h13 : u = 13
  · subst h13; rfl
  by_cases h9 : u = 9
  · subst h9; rfl
  by_cases h12 : u = 12
  · subst h12; rfl
  by_cases h8 : u = 8
  · subst h8; rfl
  rw [escapeUnit, if_neg h34, if_neg h92, if_neg h10, if_neg h13, if_neg h9, if_neg h12, if_neg h8]
  by_cases hp : 32 ≤ u ∧ u < 127
  · rw [if_pos hp, List.singleton_append]
    have hn : (Char.ofNat u).toNat = u := toNat_ascii u hp.2
    have hb : Char.ofNat u ≠ '\\' := fun h => h92 (hn.symm.trans (congrArg Char.toNat h))
    rw [readUnit, hn]
    -- none of the escapes begins so
    all_goals (intros; contradiction)
  · rw [if_neg hp]
    show some (4096 * hexVal (Nat.digitChar (u / 4096 % 16)) +
      256 * hexVal (Nat.digitChar (u / 256 % 16)) +
      16 * hexVal (Nat.digitChar (u / 16 % 16)) + hexVal (Nat.digitChar (u % 16)), r) = some (u, r)
    rw [hexVal_digitChar _ (by omega), hexVal_digitChar _ (by omega), hexVal_digitChar _ (by omega),
      hexVal_digitChar _ (by omega)]
    congr 2
    omega

variable {r s : List Char}

theorem escapeUnit_append_inj {u v : Nat} (hu : u < 0x10000) (hv : v < 0x10000)
    (h : escapeUnit u ++ r = escapeUnit v ++ s) : u = v ∧ r = s := by
  have hread := (readUnit_escapeUnit hu r).symm.trans
    ((congrArg readUnit h).trans (readUnit_escapeUnit hv s))
  exact Prod.mk.inj (Option.some.inj hread)

/-- No escape is the closing quote. -/
theorem escapeUnit_ne_quote {u : Nat} (hu : u < 0x10000) (r s : List Char) :
    escapeUnit u ++ r ≠ '"' :: s := by
  intro h
  have hread := (readUnit_escapeUnit hu r).symm.trans (congrArg readUnit h)
  have h34 : u = 34 := (Prod.mk.inj (Option.some.inj hread)).1
  subst h34
  exact absurd (List.cons.inj h).1 (by decide)

theorem units_lt {p u : Nat} (hp : p < 0x110000) (hu : u ∈ units p) : u < 0x10000 := by
  unfold units at hu
  split at hu
  · rw [List.mem_singleton.mp hu]
    assumption
  · rcases List.mem_cons.mp hu with rfl | hu
    · omega
    · rw [List.mem_singleton.mp hu]
      omega

theorem flatMap_escapeUnit_inj {a b : List Nat} (ha : ∀ u ∈ a, u < 0x10000)
    (hb : ∀ u ∈ b, u < 0x10000)
    (h : a.flatMap escapeUnit ++ '"' :: r = b.flatMap escapeUnit ++ '"' :: s) : a = b ∧ r = s := by
  induction a generalizing b with
  | nil =>
    cases b with
    | nil => exact ⟨rfl, (List.cons.inj h).2⟩
    | cons v b =>
      rw [List.flatMap_cons, List.append_assoc] at h
      exact absurd h.symm (escapeUnit_ne_quote (hb v List.mem_cons_self) _ _)
  | cons u a ih =>
    have hu := ha u List.mem_cons_self
    cases b with
    | nil =>
      rw [List.flatMap_cons, List.append_assoc] at h
      exact absurd h (escapeUnit_ne_quote hu _ _)
    | cons v b =>
      rw [List.flatMap_cons, List.flatMap_cons, List.append_assoc, List.append_assoc] at h
      obtain ⟨rfl, hrest⟩ := escapeUnit_append_inj hu (hb v List.mem_cons_self) h
      obtain ⟨rfl, hr⟩ := ih (fun x hx => ha x (List.mem_cons_of_mem u hx))
        (fun x hx => hb x (List.mem_cons_of_mem u hx)) hrest
      exact ⟨rfl, hr⟩

/-- **The text of a string** ends where the string does, and is that of no other string. -/
theorem escaped_inj {t t' : Text} (h : escaped t ++ r = escaped t' ++ s) : t = t' ∧ r = s := by
  have hlt : ∀ t : Text, ∀ u ∈ t.points.flatMap units, u < 0x10000 := by
    intro t u hu
    obtain ⟨p, hp, hu⟩ := List.mem_flatMap.mp hu
    exact units_lt (t.bound p hp) hu
  unfold escaped at h
  rw [List.cons_append, List.cons_append, List.append_assoc, List.append_assoc] at h
  obtain ⟨hunits, hr⟩ := flatMap_escapeUnit_inj (hlt t) (hlt t') (List.cons.inj h).2
  exact ⟨Text.ext (units_inj t.bound t'.bound t.noPair t'.noPair hunits), hr⟩

/-! ## 2. Numbers and constants -/

def tokenChar (c : Char) : Bool := c.isAlphanum || c == '+' || c == '-' || c == '.'

/-- The text that Python writes for a float: never that of an integer or of a constant. -/
def isFloatText (text : List Char) : Bool :=
  text.all tokenChar && text.any (fun c => c == '.' || c == 'e' || c == 'N' || c == 'I') &&
    text != ['t', 'r', 'u', 'e'] && text != ['f', 'a', 'l', 's', 'e']

/-- A float, by its `repr`. -/
@[ext] structure FloatText where
  text : List Char
  ok : isFloatText text = true
deriving DecidableEq

inductive Scalar where
  | null
  | bool (b : Bool)
  | int (n : Int)
  | float (x : FloatText)

def intText : Int → List Char
  | .ofNat n => Nat.toDigits 10 n
  | .negSucc n => '-' :: Nat.toDigits 10 (n + 1)

def Scalar.text : Scalar → List Char
  | .null => ['n', 'u', 'l', 'l']
  | .bool true => ['t', 'r', 'u', 'e']
  | .bool false => ['f', 'a', 'l', 's', 'e']
  | .int n => intText n
  | .float x => x.text

variable {c : Char}

theorem digits_isDigit {n : Nat} (h : c ∈ Nat.toDigits 10 n) : c.isDigit = true :=
  Nat.isDigit_of_mem_toDigits (by decide) (by decide) h

theorem digits_inj {n m : Nat} (h : Nat.toDigits 10 n = Nat.toDigits 10 m) : n = m := by
  have hv := congrArg (fun l => Nat.ofDigitChars 10 l 0) h
  simpa only [Nat.ofDigitChars_ten_toDigits] using hv

theorem intText_char {n : Int} (h : c ∈ intText n) : c.isDigit = true ∨ c = '-' := by
  cases n with
  | ofNat n => exact Or.inl (digits_isDigit h)
  | negSucc n =>
    rcases List.mem_cons.mp h with h | h
    · exact Or.inr h
    · exact Or.inl (digits_isDigit h)

theorem intText_inj {n m : Int} (h : intText n = intText m) : n = m := by
  have hminus : ∀ {k : Nat} {l : List Char}, Nat.toDigits 10 k = '-' :: l → False := by
    intro k l h
    have hd : ('-').isDigit = true := digits_isDigit (h ▸ List.mem_cons_self)
    cases hd
  cases n with
  | ofNat n =>
    cases m with
    | ofNat m => exact congrArg Int.ofNat (digits_inj h)
    | negSucc m => exact (hminus h).elim
  | negSucc n =>
    cases m with
    | ofNat m => exact (hminus h.symm).elim
    | negSucc m => exact congrArg Int.negSucc (Nat.succ.inj (digits_inj (List.cons.inj h).2))

theorem intText_ne {n : Int} {text : List Char} (hc : c ∈ text)
    (hd : c.isDigit = false) (hm : c ≠ '-') : intText n ≠ text := by
  intro h
  rcases intText_char (h ▸ hc) with h | h
  · rw [hd] at h
    cases h
  · exact hm h

/-- What tells a float from an integer. -/
theorem FloatText.mark (x : FloatText) :
    ∃ c ∈ x.text, c.isDigit = false ∧ c ≠ '-' ∧ c ≠ 'n' ∧ c ≠ 'u' ∧ c ≠ 'l' := by
  have hok := x.ok
  simp only [isFloatText, Bool.and_eq_true, List.any_eq_true, Bool.or_eq_true, beq_iff_eq] at hok
  obtain ⟨⟨⟨-, c, hc, h⟩, -⟩, -⟩ := hok
  refine ⟨c, hc, ?_⟩
  rcases h with ((rfl | rfl) | rfl) | rfl <;> decide

theorem FloatText.ne_constant (x : FloatText) :
    x.text ≠ ['t', 'r', 'u', 'e'] ∧ x.text ≠ ['f', 'a', 'l', 's', 'e'] := by
  have hok := x.ok
  simp only [isFloatText, Bool.and_eq_true, bne_iff_ne] at hok
  exact ⟨hok.1.2, hok.2⟩

theorem FloatText.ne_null (x : FloatText) : x.text ≠ ['n', 'u', 'l', 'l'] := by
  intro h
  obtain ⟨c, hc, -, -, hn, hu, hl⟩ := x.mark
  rw [h] at hc
  simp only [List.mem_cons, List.not_mem_nil, or_false] at hc
  rcases hc with h | h | h | h
  · exact hn h
  · exact hu h
  · exact hl h
  · exact hl h

theorem Scalar.text_inj {a b : Scalar} (h : a.text = b.text) : a = b := by
  have hint : ∀ {n : Int} {c : Char} {l : List Char}, c.isDigit = false → c ≠ '-' →
      intText n = c :: l → False := fun hd hm h => intText_ne List.mem_cons_self hd hm h
  have hfloat : ∀ {n : Int} {x : FloatText}, intText n = x.text → False := by
    intro n x h
    obtain ⟨c, hc, hd, hm, -⟩ := x.mark
    exact intText_ne hc hd hm h
  cases a with
  | null =>
    cases b with
    | null => rfl
    | bool b => cases b <;> cases h
    | int n => exact (hint (by decide) (by decide) h.symm).elim
    | float x => exact (x.ne_null h.symm).elim
  | bool a =>
    cases b with
    | null => cases a <;> cases h
    | bool b => cases a <;> cases b <;> first | rfl | cases h
    | int n => cases a <;> exact (hint (by decide) (by decide) h.symm).elim
    | float x =>
      cases a
      · exact (x.ne_constant.2 h.symm).elim
      · exact (x.ne_constant.1 h.symm).elim
  | int n =>
    cases b with
    | null => exact (hint (by decide) (by decide) h).elim
    | bool b => cases b <;> exact (hint (by decide) (by decide) h).elim
    | int m => rw [intText_inj h]
    | float x => exact (hfloat h).elim
  | float x =>
    cases b with
    | null => exact (x.ne_null h).elim
    | bool b =>
      cases b
      · exact (x.ne_constant.2 h).elim
      · exact (x.ne_constant.1 h).elim
    | int m => exact (hfloat h.symm).elim
    | float y => rw [FloatText.ext h]

theorem tokenChar_of_isDigit (h : c.isDigit = true) : tokenChar c = true := by
  simp only [tokenChar, Char.isAlphanum, h, Bool.or_true, Bool.true_or]

theorem Scalar.text_tokens (a : Scalar) : ∀ c ∈ a.text, tokenChar c = true := by
  cases a with
  | null => exact List.all_eq_true.mp (by decide)
  | bool b => cases b <;> exact List.all_eq_true.mp (by decide)
  | int n =>
    intro c hc
    rcases intText_char hc with h | rfl
    · exact tokenChar_of_isDigit h
    · rfl
  | float x =>
    have hok := x.ok
    simp only [isFloatText, Bool.and_eq_true, List.all_eq_true] at hok
    exact hok.1.1.1

theorem Scalar.text_ne_nil (a : Scalar) : a.text ≠ [] := by
  cases a with
  | null => exact List.cons_ne_nil _ _
  | bool b => cases b <;> exact List.cons_ne_nil _ _
  | int n =>
    cases n with
    | ofNat n => exact Nat.toDigits_ne_nil
    | negSucc n => exact List.cons_ne_nil _ _
  | float x =>
    intro h
    obtain ⟨c, hc, -⟩ := x.mark
    rw [show x.text = [] from h] at hc
    exact List.not_mem_nil hc

/-! ## 3. Values -/

inductive Value where
  | scalar (a : Scalar)
  | str (t : Text)
  | arr (items : List Value)
  | obj (members : List (Text × Value))

mutual

/-- The compact text. -/
def render : Value → List Char
  | .scalar a => a.text
  | .str t => escaped t
  | .arr [] => ['[', ']']
  | .arr (v :: items) => '[' :: (render v ++ renderItems items)
  | .obj [] => ['{', '}']
  | .obj ((k, v) :: members) => '{' :: (escaped k ++ ':' :: (render v ++ renderMembers members))

def renderItems : List Value → List Char
  | [] => [']']
  | v :: items => ',' :: (render v ++ renderItems items)

def renderMembers : List (Text × Value) → List Char
  | [] => ['}']
  | (k, v) :: members => ',' :: (escaped k ++ ':' :: (render v ++ renderMembers members))

end

/-- What follows does not go on with a number or a constant. -/
def Delimited (r : List Char) : Prop := ∀ c t, r = c :: t → tokenChar c = false

theorem delimited_cons {r : List Char} (h : tokenChar c = false) : Delimited (c :: r) := by
  rintro d t hd
  obtain ⟨rfl, -⟩ := List.cons.inj hd
  exact h

theorem delimited_items (items : List Value) (r : List Char) : Delimited (renderItems items ++ r) := by
  cases items <;> exact delimited_cons rfl

theorem delimited_members (members : List (Text × Value)) (r : List Char) :
    Delimited (renderMembers members ++ r) := by
  cases members <;> exact delimited_cons rfl

theorem tokens_append_inj {a b r s : List Char} (ha : ∀ c ∈ a, tokenChar c = true)
    (hb : ∀ c ∈ b, tokenChar c = true) (hr : Delimited r) (hs : Delimited s)
    (h : a ++ r = b ++ s) : a = b ∧ r = s := by
  have hclash : ∀ {c : Char} {l m : List Char}, tokenChar c = true → Delimited m → m = c :: l → False :=
    fun hc hm h => Bool.noConfusion (hc.symm.trans (hm _ _ h))
  induction a generalizing b with
  | nil =>
    cases b with
    | nil => exact ⟨rfl, h⟩
    | cons c b => exact (hclash (hb c List.mem_cons_self) hr h).elim
  | cons c a ih =>
    cases b with
    | nil => exact (hclash (ha c List.mem_cons_self) hs h.symm).elim
    | cons d b =>
      obtain ⟨rfl, hrest⟩ := List.cons.inj h
      obtain ⟨rfl, hr⟩ := ih (fun x hx => ha x (List.mem_cons_of_mem c hx))
        (fun x hx => hb x (List.mem_cons_of_mem c hx)) hrest
      exact ⟨rfl, hr⟩

/-- A value begins with a character of its own. -/
inductive Begins : Value → Char → Prop where
  | scalar (a : Scalar) (c : Char) (h : tokenChar c = true) : Begins (.scalar a) c
  | str (t : Text) : Begins (.str t) '"'
  | arr (items : List Value) : Begins (.arr items) '['
  | obj (members : List (Text × Value)) : Begins (.obj members) '{'

theorem render_begins (v : Value) : ∃ c t, render v = c :: t ∧ Begins v c := by
  cases v with
  | scalar a =>
    cases h : a.text with
    | nil => exact absurd h a.text_ne_nil
    | cons c t =>
      exact ⟨c, t, h, .scalar a c (a.text_tokens c (h ▸ List.mem_cons_self))⟩
  | str t => exact ⟨'"', _, rfl, .str t⟩
  | arr items =>
    cases items with
    | nil => exact ⟨'[', _, rfl, .arr _⟩
    | cons v items => exact ⟨'[', _, rfl, .arr _⟩
  | obj members =>
    cases members with
    | nil => exact ⟨'{', _, rfl, .obj _⟩
    | cons m members => exact ⟨'{', _, rfl, .obj _⟩

theorem begins_of_append {v w : Value} (h : render v ++ r = render w ++ s) :
    ∃ c, Begins v c ∧ Begins w c := by
  obtain ⟨c, t, hv, hc⟩ := render_begins v
  obtain ⟨d, t', hw, hd⟩ := render_begins w
  rw [hv, hw] at h
  exact ⟨c, hc, (List.cons.inj h).1 ▸ hd⟩

/-- No value begins with a closing bracket. -/
theorem render_ne_close {v : Value} (hc : c = ']' ∨ c = '}') {r s : List Char} :
    render v ++ r ≠ c :: s := by
  intro h
  obtain ⟨d, t, hv, hd⟩ := render_begins v
  rw [hv] at h
  obtain ⟨rfl, -⟩ := List.cons.inj h
  rcases hc with rfl | rfl
  · cases hd with
    | scalar a c h => cases h
  · cases hd with
    | scalar a c h => cases h

mutual

/-- **The text of a value** ends where the value does, and is that of no other value. -/
theorem render_inj : ∀ (v w : Value) {r s : List Char}, Delimited r → Delimited s →
    render v ++ r = render w ++ s → v = w ∧ r = s
  | .scalar a, w, r, s, hr, hs, h => by
      obtain ⟨c, hc, hd⟩ := begins_of_append h
      cases hc with
      | scalar a c htoken =>
          cases hd with
          | scalar b _ _ =>
              obtain ⟨htext, hrest⟩ := tokens_append_inj a.text_tokens b.text_tokens hr hs h
              rw [Scalar.text_inj htext]
              exact ⟨rfl, hrest⟩
          | str t => cases htoken
          | arr items => cases htoken
          | obj members => cases htoken
  | .str t, w, r, s, _, _, h => by
      obtain ⟨c, hc, hd⟩ := begins_of_append h
      cases hc with
      | str t =>
          cases hd with
          | scalar b c htoken => cases htoken
          | str t' =>
              obtain ⟨rfl, hrest⟩ := escaped_inj h
              exact ⟨rfl, hrest⟩
  | .arr [], w, r, s, _, _, h => by
      obtain ⟨c, hc, hd⟩ := begins_of_append h
      cases hc with
      | arr _ =>
          cases hd with
          | scalar b c htoken => cases htoken
          | arr items =>
              cases items with
              | nil => exact ⟨rfl, (List.cons.inj (List.cons.inj h).2).2⟩
              | cons w items =>
                  have hclose : ']' :: r = render w ++ (renderItems items ++ s) := by
                    simpa only [render, List.cons_append, List.nil_append, List.append_assoc,
                      List.cons.injEq, true_and] using h
                  exact absurd hclose.symm (render_ne_close (Or.inl rfl))
  | .arr (v :: items), w, r, s, _, _, h => by
      obtain ⟨c, hc, hd⟩ := begins_of_append h
      cases hc with
      | arr _ =>
        cases hd with
        | scalar b c htoken => cases htoken
        | arr items' =>
          cases items' with
          | nil =>
            have hclose : render v ++ (renderItems items ++ r) = ']' :: s := by
              simpa only [render, List.cons_append, List.nil_append, List.append_assoc,
                List.cons.injEq, true_and] using h
            exact absurd hclose (render_ne_close (Or.inl rfl))
          | cons w items' =>
            have hopen : render v ++ (renderItems items ++ r) =
                render w ++ (renderItems items' ++ s) := by
              simpa only [render, List.cons_append, List.append_assoc, List.cons.injEq, true_and]
                using h
            obtain ⟨rfl, hrest⟩ := render_inj v w (delimited_items items r)
              (delimited_items items' s) hopen
            obtain ⟨rfl, hr⟩ := renderItems_inj items items' hrest
            exact ⟨rfl, hr⟩
  | .obj [], w, r, s, _, _, h => by
      obtain ⟨c, hc, hd⟩ := begins_of_append h
      cases hc with
      | obj _ =>
        cases hd with
        | scalar b c htoken => cases htoken
        | obj members =>
          cases members with
          | nil => exact ⟨rfl, (List.cons.inj (List.cons.inj h).2).2⟩
          | cons m members => exact absurd (List.cons.inj (List.cons.inj h).2).1 (by decide)
  | .obj ((k, v) :: members), w, r, s, _, _, h => by
      obtain ⟨c, hc, hd⟩ := begins_of_append h
      cases hc with
      | obj _ =>
        cases hd with
        | scalar b c htoken => cases htoken
        | obj members' =>
          cases members' with
          | nil => exact absurd (List.cons.inj (List.cons.inj h).2).1 (by decide)
          | cons m members' =>
            obtain ⟨k', v'⟩ := m
            have hopen : escaped k ++ (':' :: (render v ++ (renderMembers members ++ r))) =
                escaped k' ++ (':' :: (render v' ++ (renderMembers members' ++ s))) := by
              simpa only [render, List.cons_append, List.append_assoc, List.cons.injEq, true_and]
                using h
            obtain ⟨rfl, hcolon⟩ := escaped_inj hopen
            have hvalue := (List.cons.inj hcolon).2
            obtain ⟨rfl, hrest⟩ := render_inj v v' (delimited_members members r)
              (delimited_members members' s) hvalue
            obtain ⟨rfl, hr⟩ := renderMembers_inj members members' hrest
            exact ⟨rfl, hr⟩

theorem renderItems_inj : ∀ (l m : List Value) {r s : List Char},
    renderItems l ++ r = renderItems m ++ s → l = m ∧ r = s
  | [], [], _, _, h => ⟨rfl, (List.cons.inj h).2⟩
  | [], _ :: _, _, _, h => absurd (List.cons.inj h).1 (by decide)
  | _ :: _, [], _, _, h => absurd (List.cons.inj h).1 (by decide)
  | v :: l, w :: m, r, s, h => by
      have hvalue : render v ++ (renderItems l ++ r) = render w ++ (renderItems m ++ s) := by
        simpa only [renderItems, List.cons_append, List.append_assoc, List.cons.injEq, true_and] using h
      obtain ⟨rfl, hrest⟩ := render_inj v w (delimited_items l r) (delimited_items m s) hvalue
      obtain ⟨rfl, hr⟩ := renderItems_inj l m hrest
      exact ⟨rfl, hr⟩

theorem renderMembers_inj : ∀ (l m : List (Text × Value)) {r s : List Char},
    renderMembers l ++ r = renderMembers m ++ s → l = m ∧ r = s
  | [], [], _, _, h => ⟨rfl, (List.cons.inj h).2⟩
  | [], _ :: _, _, _, h => absurd (List.cons.inj h).1 (by decide)
  | _ :: _, [], _, _, h => absurd (List.cons.inj h).1 (by decide)
  | (k, v) :: l, (k', v') :: m, r, s, h => by
      have hkey : escaped k ++ (':' :: (render v ++ (renderMembers l ++ r))) =
          escaped k' ++ (':' :: (render v' ++ (renderMembers m ++ s))) := by
        simpa only [renderMembers, List.cons_append, List.append_assoc, List.cons.injEq, true_and]
          using h
      obtain ⟨rfl, hcolon⟩ := escaped_inj hkey
      have hvalue := (List.cons.inj hcolon).2
      obtain ⟨rfl, hrest⟩ := render_inj v v' (delimited_members l r) (delimited_members m s) hvalue
      obtain ⟨rfl, hr⟩ := renderMembers_inj l m hrest
      exact ⟨rfl, hr⟩

end

/-! ## 4. The text is ASCII -/

theorem tokenChar_ascii (h : tokenChar c = true) : c.toNat < 128 := by
  -- no letter, digit or sign stands behind z
  have hz : ∀ d : Char, d.val ≤ 'z'.val → c.val ≤ d.val → c.toNat < 128 := fun d hd hle => by
    have hval : c.val.toNat ≤ 122 := Nat.le_trans hle hd
    exact Nat.lt_of_le_of_lt hval (by decide)
  simp only [tokenChar, Char.isAlphanum, Bool.or_eq_true, beq_iff_eq] at h
  rcases h with (((h | h) | rfl) | rfl) | rfl
  · rcases Bool.or_eq_true_iff.mp h with h | h
    · exact hz 'Z' (by decide) (of_decide_eq_true h).2
    · exact hz 'z' (by decide) (of_decide_eq_true (Bool.and_eq_true_iff.mp h).2)
  · exact hz '9' (by decide) (of_decide_eq_true (Bool.and_eq_true_iff.mp h).2)
  · decide
  · decide
  · decide

theorem digitChar_ascii : ∀ d < 16, (Nat.digitChar d).toNat < 128 := by decide

theorem escapeUnit_ascii {u : Nat} (h : c ∈ escapeUnit u) : c.toNat < 128 := by
  have hshort : ∀ l : List Char, l.all (fun d => d.toNat < 128) = true → c ∈ l → c.toNat < 128 :=
    fun _ hl hc => of_decide_eq_true (List.all_eq_true.mp hl c hc)
  unfold escapeUnit at h
  split at h
  · exact hshort _ (by decide) h
  split at h
  · exact hshort _ (by decide) h
  split at h
  · exact hshort _ (by decide) h
  split at h
  · exact hshort _ (by decide) h
  split at h
  · exact hshort _ (by decide) h
  split at h
  · exact hshort _ (by decide) h
  split at h
  · exact hshort _ (by decide) h
  split at h
  · rename_i hu
    rw [List.mem_singleton.mp h, toNat_ascii u hu.2]
    omega
  · rw [List.mem_cons, List.mem_cons] at h
    rcases h with rfl | rfl | h
    · decide
    · decide
    · rw [hexDigits, List.mem_cons, List.mem_cons, List.mem_cons, List.mem_singleton] at h
      rcases h with rfl | rfl | rfl | rfl
      all_goals exact digitChar_ascii _ (Nat.mod_lt _ (by decide))

theorem escaped_ascii {t : Text} (h : c ∈ escaped t) : c.toNat < 128 := by
  rw [escaped, List.mem_cons, List.mem_append, List.mem_singleton] at h
  rcases h with rfl | h | rfl
  · decide
  · obtain ⟨u, -, hc⟩ := List.mem_flatMap.mp h
    exact escapeUnit_ascii hc
  · decide

mutual

/-- **The text of a value is ASCII**, whatever its strings hold. -/
theorem render_ascii : ∀ (v : Value) {c : Char}, c ∈ render v → c.toNat < 128
  | .scalar a, _, h => tokenChar_ascii (a.text_tokens _ h)
  | .str _, _, h => escaped_ascii h
  | .arr [], c, h => by
      rcases List.mem_cons.mp h with rfl | h
      · decide
      · rw [List.mem_singleton.mp h]
        decide
  | .arr (v :: items), c, h => by
      rw [render, List.mem_cons, List.mem_append] at h
      rcases h with rfl | h | h
      · decide
      · exact render_ascii v h
      · exact renderItems_ascii items h
  | .obj [], c, h => by
      rcases List.mem_cons.mp h with rfl | h
      · decide
      · rw [List.mem_singleton.mp h]
        decide
  | .obj ((k, v) :: members), c, h => by
      rw [render, List.mem_cons, List.mem_append, List.mem_cons, List.mem_append] at h
      rcases h with rfl | h | rfl | h | h
      · decide
      · exact escaped_ascii h
      · decide
      · exact render_ascii v h
      · exact renderMembers_ascii members h

theorem renderItems_ascii : ∀ (items : List Value) {c : Char}, c ∈ renderItems items → c.toNat < 128
  | [], c, h => by rw [List.mem_singleton.mp h]; decide
  | v :: items, c, h => by
      rw [renderItems, List.mem_cons, List.mem_append] at h
      rcases h with rfl | h | h
      · decide
      · exact render_ascii v h
      · exact renderItems_ascii items h

theorem renderMembers_ascii : ∀ (members : List (Text × Value)) {c : Char},
    c ∈ renderMembers members → c.toNat < 128
  | [], c, h => by rw [List.mem_singleton.mp h]; decide
  | (k, v) :: members, c, h => by
      rw [renderMembers, List.mem_cons, List.mem_append, List.mem_cons, List.mem_append] at h
      rcases h with rfl | h | rfl | h | h
      · decide
      · exact escaped_ascii h
      · decide
      · exact render_ascii v h
      · exact renderMembers_ascii members h

end

/-! ## 5. Keys in order -/

/-- Python's order of strings: by code points. -/
def keyLe (a b : Text × Value) : Bool := decide (a.1.points ≤ b.1.points)

def sortKeys (members : List (Text × Value)) : List (Text × Value) :=
  members.insertionSort fun a b => keyLe a b = true

mutual

/-- Every object with its keys in order: two values that differ in the order of keys only are one. -/
def norm : Value → Value
  | .scalar a => .scalar a
  | .str t => .str t
  | .arr items => .arr (normItems items)
  | .obj members => .obj (sortKeys (normMembers members))

def normItems : List Value → List Value
  | [] => []
  | v :: items => norm v :: normItems items

def normMembers : List (Text × Value) → List (Text × Value)
  | [] => []
  | (k, v) :: members => (k, norm v) :: normMembers members

end

/-- `json.dumps(value, sort_keys=True, separators=(",", ":"))`. -/
def dumps (v : Value) : List Char := render (norm v)

theorem dumps_inj {v w : Value} (h : dumps v = dumps w) : norm v = norm w := by
  have hnil : Delimited [] := fun _ _ h => nomatch h
  refine (render_inj (norm v) (norm w) hnil hnil ?_).1
  rw [List.append_nil, List.append_nil]
  exact h

theorem normMembers_zip (keys : List Text) (values : List Value) :
    normMembers (keys.zip values) = keys.zip (values.map norm) := by
  induction keys generalizing values with
  | nil => rfl
  | cons k keys ih =>
    cases values with
    | nil => rfl
    | cons v values => exact congrArg ((k, norm v) :: ·) (ih values)

theorem eq_of_perm_of_keys {α β : Type} {l m : List (α × β)} (hp : l.Perm m)
    (hk : l.map Prod.fst = m.map Prod.fst) (hn : (m.map Prod.fst).Nodup) : l = m := by
  refine List.ext_getElem hp.length_eq fun i h1 h2 => ?_
  refine List.inj_on_of_nodup_map hn (hp.mem_iff.mp (List.getElem_mem h1)) (List.getElem_mem h2) ?_
  have hi := congrArg (fun l => l[i]?) hk
  simpa only [List.getElem?_map, List.getElem?_eq_getElem h1, List.getElem?_eq_getElem h2,
    Option.map_some, Option.some.injEq] using hi

/-- **The members of an object with fixed keys** are told by its sorted text. -/
theorem norm_obj_inj {keys : List Text} (hn : keys.Nodup) {a b : List Value}
    (ha : a.length = keys.length) (hb : b.length = keys.length)
    (h : norm (.obj (keys.zip a)) = norm (.obj (keys.zip b))) : a.map norm = b.map norm := by
  have hkeys : ∀ {c : List Value}, c.length = keys.length →
      (keys.zip (c.map norm)).map Prod.fst = keys := fun hc =>
    List.map_fst_zip (by rw [List.length_map, hc])
  have hvalues : ∀ {c : List Value}, c.length = keys.length →
      (keys.zip (c.map norm)).map Prod.snd = c.map norm := fun hc =>
    List.map_snd_zip (by rw [List.length_map, hc])
  simp only [norm, normMembers_zip, Value.obj.injEq] at h
  have hsort : ∀ l : List (Text × Value), (sortKeys l).Perm l := List.perm_insertionSort _
  have hperm : (keys.zip (a.map norm)).Perm (keys.zip (b.map norm)) :=
    (hsort _).symm.trans (h ▸ hsort _)
  have heq := eq_of_perm_of_keys hperm ((hkeys ha).trans (hkeys hb).symm) ((hkeys hb).symm ▸ hn)
  rw [← hvalues ha, ← hvalues hb, heq]

/-! ## 6. Values as programs build them -/

theorem NoPair.append {l m : List Nat} (hl : NoPair l) (hm : NoPair m)
    (hseam : ∀ p ∈ l.getLast?, ∀ q ∈ m.head?, ¬ (isHigh p ∧ isLow q)) : NoPair (l ++ m) := by
  induction l with
  | nil => exact hm
  | cons p l ih =>
    cases l with
    | nil =>
      cases m with
      | nil => trivial
      | cons q m => exact ⟨hseam p rfl q rfl, hm⟩
    | cons p' l =>
      refine ⟨hl.1, ih hl.2 fun x hx => hseam x ?_⟩
      rw [List.getLast?_cons_cons]
      exact hx

theorem not_surrogate (c : Char) : ¬ isHigh c.toNat ∧ ¬ isLow c.toNat := by
  have hv : c.toNat < 0xD800 ∨ 0xDFFF < c.toNat ∧ c.toNat < 0x110000 := c.valid
  unfold isHigh isLow
  omega

/-- Characters between two strings keep their ends apart. -/
theorem NoPair.around {l m : List Nat} (hl : NoPair l) (hm : NoPair m) {cs : List Char}
    (hcs : cs ≠ []) :
    NoPair (l ++ (cs.map Char.toNat ++ m)) := by
  have hright : NoPair (cs.map Char.toNat ++ m) := by
    refine (noPair_of_valid cs).append hm fun p hp q _ h => ?_
    obtain ⟨c, -, rfl⟩ := List.mem_map.mp (List.mem_of_getLast? hp)
    exact (not_surrogate c).1 h.1
  refine hl.append hright fun p _ q hq h => ?_
  obtain ⟨c, cs, rfl⟩ := List.exists_cons_of_ne_nil hcs
  cases hq
  exact (not_surrogate c).2 h.2

/-- `f"{s}<before>{t}<behind>"`. -/
def Text.enclosed (s : Text) (before : String) (t : Text) (behind : String)
    (hbefore : before.toList ≠ []) (hbehind : behind.toList ≠ []) : Text where
  points := s.points ++ (before.toList.map Char.toNat ++
    (t.points ++ (behind.toList.map Char.toNat ++ [])))
  bound p hp := by
    simp only [List.append_nil, List.mem_append] at hp
    rcases hp with hp | hp | hp | hp
    · exact s.bound p hp
    · exact (Text.ofString before).bound p hp
    · exact t.bound p hp
    · exact (Text.ofString behind).bound p hp
  noPair := s.noPair.around (t.noPair.around (m := []) trivial hbehind) hbefore

mutual

/-- The keys of every object in the value are distinct, as those of a dict are. -/
def Keyed : Value → Prop
  | .scalar _ => True
  | .str _ => True
  | .arr items => KeyedItems items
  | .obj members => (members.map Prod.fst).Nodup ∧ KeyedMembers members

def KeyedItems : List Value → Prop
  | [] => True
  | v :: items => Keyed v ∧ KeyedItems items

def KeyedMembers : List (Text × Value) → Prop
  | [] => True
  | (_, v) :: members => Keyed v ∧ KeyedMembers members

end

theorem keyedItems_iff {items : List Value} : KeyedItems items ↔ ∀ v ∈ items, Keyed v := by
  induction items with
  | nil => exact iff_of_true trivial fun v hv => absurd hv List.not_mem_nil
  | cons v items ih => rw [KeyedItems, ih, List.forall_mem_cons]

theorem keyedMembers_iff {members : List (Text × Value)} :
    KeyedMembers members ↔ ∀ m ∈ members, Keyed m.2 := by
  induction members with
  | nil => exact iff_of_true trivial fun v hv => absurd hv List.not_mem_nil
  | cons m members ih => rw [KeyedMembers, ih, List.forall_mem_cons]

end Json

/-
  File:      Dbs/Lib/Substitution.lean
  Subject:   REPLACING WHAT A SEARCH FINDS, from the left and without overlaps, by what a replacement
             template stands for.

  * `pieces` -- the characters that are kept and what is put in; `places` -- where something was found;
  * `pieces_eq_iff` -- two searches replace the same places by the same text exactly when the stricter
    one finds all that the other has found;
  * `template`, `expand` -- a template of Python's `re` for a pattern without groups;
  * `expand_eq_self_iff` -- a template stands for itself exactly when no backslash in it means anything.
-/
import Mathlib.Data.List.Basic
import Mathlib.Data.List.Count
import Mathlib.Tactic.Ring

namespace Substitution

abbrev Text := List Char

/-! ## 1. The search -/

inductive Piece
  | kept (c : Char)
  | put (text : Text)
deriving DecidableEq

def Piece.text : Piece → Text
  | .kept c => [c]
  | .put text => text

def join (pieces : List Piece) : Text := pieces.flatMap Piece.text

@[simp] theorem join_nil : join [] = [] := rfl

@[simp] theorem join_kept (c : Char) (ps : List Piece) : join (.kept c :: ps) = c :: join ps := rfl

@[simp] theorem join_put (t : Text) (ps : List Piece) : join (.put t :: ps) = t ++ join ps := rfl

theorem join_map_kept (t : Text) : join (t.map .kept) = t := by
  induction t with
  | nil => rfl
  | cons c t ih => rw [List.map_cons, join_kept, ih]

/-- What is searched for has `width` characters, and is found by the character before it and the text
    from it on; so many characters still belong to what was found. Behind an empty match one character
    is kept. -/
def pieces (found : Option Char → Text → Bool) (width : Nat) (new : Text) :
    Option Char → Nat → Text → List Piece
  | before, 0, [] => if found before [] then [.put new] else []
  | _, _ + 1, [] => []
  | _, skip + 1, c :: text => pieces found width new (some c) skip text
  | before, 0, c :: text =>
    if found before (c :: text) then
      .put new :: ((if width = 0 then [.kept c] else []) ++
        pieces found width new (some c) (width - 1) text)
    else .kept c :: pieces found width new (some c) 0 text

/-- Where something was found. -/
def places (found : Option Char → Text → Bool) (width : Nat) :
    Option Char → Nat → Text → List (Option Char × Text)
  | before, 0, [] => if found before [] then [(before, [])] else []
  | _, _ + 1, [] => []
  | _, skip + 1, c :: text => places found width (some c) skip text
  | before, 0, c :: text =>
    if found before (c :: text) then (before, c :: text) :: places found width (some c) (width - 1) text
    else places found width (some c) 0 text

section Search

variable {found strict : Option Char → Text → Bool} {width : Nat} {new other : Text}
  {before : Option Char} {skip : Nat} {text : Text} {c : Char}

theorem pieces_nil : pieces found width new before 0 [] = if found before [] then [.put new]
    else [] := rfl

theorem pieces_cons :
    pieces found width new before 0 (c :: text) =
      if found before (c :: text) then
        .put new :: ((if width = 0 then [.kept c] else []) ++
          pieces found width new (some c) (width - 1) text)
      else .kept c :: pieces found width new (some c) 0 text := rfl

theorem places_nil :
    places found width before 0 [] = if found before [] then [(before, [])] else [] := rfl

theorem places_cons :
    places found width before 0 (c :: text) =
      if found before (c :: text) then
        (before, c :: text) :: places found width (some c) (width - 1) text
      else places found width (some c) 0 text := rfl

theorem pieces_of_found (h : found before (c :: text) = true) :
    pieces found width new before 0 (c :: text) =
      .put new :: ((if width = 0 then [.kept c] else []) ++
        pieces found width new (some c) (width - 1) text) := by
  rw [pieces_cons, if_pos h]

theorem pieces_of_not_found (h : found before (c :: text) = false) :
    pieces found width new before 0 (c :: text) = .kept c :: pieces found width new (some c)
      0 text := by
  rw [pieces_cons, h]
  rfl

/-- Nothing is found behind characters of a kind. -/
theorem pieces_eq_kept {kind : Char → Prop} (hnone : ∀ b t, kind b → found (some b) t = false)
    {b : Char} (hb : kind b) (ht : ∀ c ∈ text, kind c) :
    pieces found width new (some b) skip text = (text.drop skip).map .kept := by
  induction text generalizing b skip with
  | nil =>
    cases skip with
    | zero =>
      rw [pieces_nil, hnone b [] hb]
      rfl
    | succ skip => rfl
  | cons c text ih =>
    have hc := ht c List.mem_cons_self
    have htext : ∀ d ∈ text, kind d := fun d hd => ht d (List.mem_cons_of_mem _ hd)
    cases skip with
    | zero =>
      rw [pieces_of_not_found (hnone b _ hb), ih hc htext]
      rfl
    | succ skip => exact ih hc htext

/-- **Two searches, one stricter than the other**, replace the same places by the same text exactly when
    every place found is a place of the stricter one too, and there is none or the texts agree. -/
theorem pieces_eq_iff (hstrict : ∀ b t, strict b t = true → found b t = true) :
    pieces found width new before skip text = pieces strict width other before skip text ↔
      (∀ place ∈ places found width before skip text, strict place.1 place.2 = true) ∧
        (places found width before skip text = [] ∨ new = other) := by
  have hnot : ∀ b t, found b t = false → strict b t = false := fun b t h =>
    Bool.eq_false_of_not_eq_true fun hs => Bool.noConfusion (h.symm.trans (hstrict b t hs))
  induction text generalizing before skip with
  | nil =>
    cases skip with
    | succ skip => exact iff_of_true rfl ⟨fun _ h => absurd h List.not_mem_nil, Or.inl rfl⟩
    | zero =>
      cases hfound : found before [] with
      | false => simp [pieces_nil, places_nil, hfound, hnot before [] hfound]
      | true => cases hs : strict before [] <;> simp [pieces_nil, places_nil, hfound, hs]
  | cons c text ih =>
    cases skip with
    | succ skip => exact ih
    | zero =>
      cases hfound : found before (c :: text) with
      | false =>
        rw [pieces_of_not_found hfound, pieces_of_not_found (hnot before _ hfound), places_cons, hfound]
        simpa using ih
      | true =>
        rw [pieces_of_found hfound, places_cons, if_pos hfound]
        cases hs : strict before (c :: text) with
        | false =>
          rw [pieces_of_not_found hs]
          simp [hs]
        | true =>
          rw [pieces_of_found hs]
          simp only [List.cons.injEq, Piece.put.injEq, List.append_cancel_left_eq, ih,
            List.forall_mem_cons, hs, true_and, List.cons_ne_nil, false_or]
          tauto

end Search

/-! ## 2. Replacement templates -/

/-- `whole`: the match itself. -/
inductive Token
  | literal (c : Char)
  | whole

def Token.text (found : Text) : Token → Text
  | .literal c => [c]
  | .whole => found

def isOctal (c : Char) : Bool := '0' ≤ c && c ≤ '7'

def octal (digits : Text) : Nat := digits.foldl (fun n c => 8 * n + (c.toNat - '0'.toNat)) 0

/-- `ESCAPES`. -/
def escapeOf : Char → Option Char
  | 'a' => some '\x07'
  | 'b' => some '\x08'
  | 't' => some '\t'
  | 'n' => some '\n'
  | 'v' => some '\x0b'
  | 'f' => some '\x0c'
  | 'r' => some '\r'
  | '\\' => some '\\'
  | _ => none

/-- What stands behind `\g`: a group by its number, of which there is only the match itself. -/
def group : Text → Option (List Token × Text)
  | '<' :: '0' :: text =>
    match text.dropWhile (· == '0') with
    | '>' :: rest => some ([.whole], rest)
    | _ => none
  | _ => none

/-- What stands behind a backslash and a digit that is not zero: three octal digits, or a group that
    does not exist. -/
def numbered : Text → Option (List Token × Text)
  | c :: d :: e :: rest =>
    if (isOctal c && isOctal d && isOctal e) = true ∧ octal [c, d, e] ≤ 0xff then
      some ([.literal (Char.ofNat (octal [c, d, e]))], rest)
    else none
  | _ => none

/-- What stands behind a backslash and a zero: two more octal digits at most. -/
def null : Text → List Token × Text
  | c :: d :: rest =>
    if isOctal c then
      if isOctal d then ([.literal (Char.ofNat (octal [c, d]))], rest)
      else ([.literal (Char.ofNat (octal [c]))], d :: rest)
    else ([.literal (Char.ofNat 0)], c :: d :: rest)
  | [c] => if isOctal c then ([.literal (Char.ofNat (octal [c]))], [])
      else ([.literal (Char.ofNat 0)], [c])
  | [] => ([.literal (Char.ofNat 0)], [])

/-- What stands behind a backslash; nothing where `re` refuses the template. -/
def escaped : Text → Option (List Token × Text)
  | [] => none
  | c :: text =>
    if c = 'g' then group text
    else if c = '0' then some (null text)
    else if c.isDigit then numbered (c :: text)
    else match escapeOf c with
      | some e => some ([.literal e], text)
      | none => if c.isAlpha then none else some ([.literal '\\', .literal c], text)

/-- `fuel` bounds the length. -/
def templateFrom : Nat → Text → Option (List Token)
  | _, [] => some []
  | 0, _ :: _ => none
  | fuel + 1, c :: text =>
    if c = '\\' then
      (escaped text).bind fun (tokens, rest) => (templateFrom fuel rest).map (tokens ++ ·)
    else (templateFrom fuel text).map (.literal c :: ·)

def template (text : Text) : Option (List Token) := templateFrom text.length text

/-- `match.expand(text)`. -/
def expand (text found : Text) : Option Text :=
  (template text).map fun tokens => tokens.flatMap (Token.text found)

/-- Behind a backslash it means something else than itself. -/
def isSpecial (c : Char) : Bool := c.isAlphanum || c == '\\'

/-- Every backslash stands before a character for which it means nothing. -/
def isPlain : Text → Bool
  | [] => true
  | [c] => c != '\\'
  | c :: d :: text => if c = '\\' then !isSpecial d && isPlain text else isPlain (d :: text)

section Templates

variable {c : Char} {text rest found : Text} {tokens : List Token} {fuel : Nat}

theorem isPlain_cons (h : c ≠ '\\') : isPlain (c :: text) = isPlain text := by
  cases text with
  | nil => simp [isPlain, h]
  | cons d text => rw [isPlain, if_neg h]

@[simp] theorem isPlain_backslash (d : Char) :
    isPlain ('\\' :: d :: text) = (!isSpecial d && isPlain text) := by
  rw [isPlain, if_pos rfl]

theorem group_cases (h : group text = some (tokens, rest)) : (∃ t, tokens = [t]) ∧ rest <:+ text := by
  unfold group at h
  split at h
  · next text =>
      split at h
      · next tail hdrop =>
          cases h
          have hsuffix := List.dropWhile_suffix (· == '0') (l := text)
          rw [hdrop] at hsuffix
          exact ⟨⟨_, rfl⟩, ((List.suffix_cons _ _).trans hsuffix).trans
            (List.suffix_append ['<', '0'] _)⟩
      · exact nomatch h
  · exact nomatch h

theorem numbered_cases (h : numbered (c :: text) = some (tokens, rest)) :
    (∃ t, tokens = [t]) ∧ rest <:+ text := by
  unfold numbered at h
  split at h
  · next d e tail heq =>
      obtain ⟨-, rfl⟩ := List.cons.inj heq
      obtain ⟨-, h⟩ := Option.ite_none_right_eq_some.mp h
      cases h
      exact ⟨⟨_, rfl⟩, List.suffix_append [d, e] _⟩
  · exact nomatch h

theorem null_cases (h : null text = (tokens, rest)) : (∃ t, tokens = [t]) ∧ rest <:+ text := by
  unfold null at h
  split at h
  · next d e tail =>
      split at h
      · split at h
        · cases h
          exact ⟨⟨_, rfl⟩, List.suffix_append [d, e] _⟩
        · cases h
          exact ⟨⟨_, rfl⟩, List.suffix_cons _ _⟩
      · cases h
        exact ⟨⟨_, rfl⟩, List.suffix_rfl⟩
  · split at h
    · cases h
      exact ⟨⟨_, rfl⟩, List.nil_suffix⟩
    · cases h
      exact ⟨⟨_, rfl⟩, List.suffix_rfl⟩
  · cases h
    exact ⟨⟨_, rfl⟩, List.suffix_rfl⟩

theorem isSpecial_of_escapeOf {e : Char} (h : escapeOf c = some e) : isSpecial c = true := by
  unfold escapeOf at h
  split at h <;> first | rfl | exact nomatch h

/-- **What a backslash does**: nothing, or it takes characters for one token. -/
theorem escaped_cases (h : escaped (c :: text) = some (tokens, rest)) :
    (isSpecial c = false ∧ tokens = [.literal '\\', .literal c] ∧ rest = text) ∨
      isSpecial c = true ∧ (∃ t, tokens = [t]) ∧ rest <:+ text := by
  rw [escaped] at h
  split at h
  · next hg => exact Or.inr ⟨by rw [hg]; rfl, group_cases h⟩
  · split at h
    · next hzero => exact Or.inr ⟨by rw [hzero]; rfl, null_cases (Option.some.inj h)⟩
    · split at h
      · next hdigit => exact Or.inr ⟨by simp [isSpecial, Char.isAlphanum, hdigit], numbered_cases h⟩
      · next hdigit =>
          split at h
          · next e he =>
              cases h
              exact Or.inr ⟨isSpecial_of_escapeOf he, ⟨_, rfl⟩, List.suffix_rfl⟩
          · next he =>
              obtain ⟨halpha, h⟩ := Option.ite_none_left_eq_some.mp h
              cases h
              refine Or.inl ⟨?_, rfl, rfl⟩
              have hback : c ≠ '\\' := fun hc => by rw [hc] at he; exact nomatch he
              simp [isSpecial, Char.isAlphanum, hdigit, halpha, hback]

theorem escaped_of_plain (h : isSpecial c = false) :
    escaped (c :: text) = some ([.literal '\\', .literal c], text) := by
  have hnone : escapeOf c = none :=
    Option.eq_none_iff_forall_ne_some.mpr fun e he =>
      Bool.noConfusion (h.symm.trans (isSpecial_of_escapeOf he))
  have hg : c ≠ 'g' := fun hc => by rw [hc] at h; exact nomatch h
  have hzero : c ≠ '0' := fun hc => by rw [hc] at h; exact nomatch h
  simp only [isSpecial, Char.isAlphanum, Bool.or_eq_false_iff] at h
  obtain ⟨⟨halpha, hdigit⟩, -⟩ := h
  simp [escaped, hg, hzero, hdigit, halpha, hnone]

/-- A backslash weighs more than the match. -/
def weight (found text : Text) : Nat := text.count '\\' * (found.length + 1) + text.length

@[simp] theorem weight_nil : weight found [] = 0 := by simp [weight]

theorem weight_append (s t : Text) : weight found (s ++ t) = weight found s + weight found t := by
  simp only [weight, List.count_append, List.length_append]
  ring

theorem weight_le_of_suffix (found : Text) (h : rest <:+ text) :
    weight found rest ≤ weight found text := by
  obtain ⟨front, rfl⟩ := h
  rw [weight_append]
  exact Nat.le_add_left _ _

theorem weight_token (hfound : '\\' ∉ found) (t : Token) :
    weight found (t.text found) ≤ found.length + 2 := by
  cases t with
  | literal c =>
    have hcount : [c].count '\\' * (found.length + 1) ≤ 1 * (found.length + 1) :=
      Nat.mul_le_mul_right _ List.count_le_length
    show [c].count '\\' * (found.length + 1) + 1 ≤ _
    omega
  | whole => simp [weight, Token.text, List.count_eq_zero.mpr hfound]

theorem flatMap_literal : (text.map .literal).flatMap (Token.text found) = text := by
  induction text with
  | nil => rfl
  | cons c text ih =>
    rw [List.map_cons, List.flatMap_cons, ih]
    rfl

theorem length_le_weight : text.length ≤ weight found text := Nat.le_add_left _ _

@[simp] theorem weight_backslash : weight found ['\\'] = found.length + 2 := by
  simp [weight]

/-- **A template is read as its own characters, or stands for something lighter.** -/
theorem templateFrom_cases (hfound : '\\' ∉ found) (h : templateFrom fuel text = some tokens) :
    isPlain text = true ∧ tokens = text.map .literal ∨
      isPlain text = false ∧ weight found (tokens.flatMap (Token.text found)) < weight found text := by
  induction fuel generalizing text tokens with
  | zero =>
    cases text with
    | nil => exact Or.inl ⟨rfl, (Option.some.inj h).symm⟩
    | cons c text => exact nomatch h
  | succ fuel ih =>
    cases text with
    | nil => exact Or.inl ⟨rfl, (Option.some.inj h).symm⟩
    | cons c text =>
      rw [templateFrom] at h
      split at h
      · next hc =>
          obtain ⟨⟨first, rest⟩, hescaped, h⟩ := Option.bind_eq_some_iff.mp h
          obtain ⟨others, hothers, rfl⟩ := Option.map_eq_some_iff.mp h
          have hrest : weight found (others.flatMap (Token.text found)) ≤ weight found rest := by
            rcases ih hothers with ⟨-, rfl⟩ | ⟨-, hless⟩
            · rw [flatMap_literal]
            · exact hless.le
          cases text with
          | nil => exact nomatch hescaped
          | cons d text =>
            rw [hc, isPlain_backslash]
            rcases escaped_cases hescaped with ⟨hd, rfl, rfl⟩ | ⟨hd, ⟨t, rfl⟩, hsuffix⟩
            · rw [hd, Bool.not_false, Bool.true_and]
              rcases ih hothers with ⟨hplain, rfl⟩ | ⟨hplain, hless⟩
              · exact Or.inl ⟨hplain, rfl⟩
              · refine Or.inr ⟨hplain, ?_⟩
                show weight found (['\\', d] ++ _) < weight found (['\\', d] ++ rest)
                rw [weight_append, weight_append]
                exact Nat.add_lt_add_left hless _
            · refine Or.inr ⟨by rw [hd, Bool.not_true, Bool.false_and], ?_⟩
              have htoken := weight_token hfound t
              have htext := weight_le_of_suffix found hsuffix
              have hone : [d].length ≤ weight found [d] := length_le_weight
              show weight found (t.text found ++ others.flatMap (Token.text found)) <
                weight found (['\\'] ++ ([d] ++ text))
              rw [weight_append, weight_append, weight_append, weight_backslash]
              rw [List.length_singleton] at hone
              omega
      · next hc =>
          obtain ⟨others, hothers, rfl⟩ := Option.map_eq_some_iff.mp h
          rw [isPlain_cons hc]
          rcases ih hothers with ⟨hplain, rfl⟩ | ⟨hplain, hless⟩
          · exact Or.inl ⟨hplain, rfl⟩
          · refine Or.inr ⟨hplain, ?_⟩
            show weight found ([c] ++ _) < weight found ([c] ++ text)
            rw [weight_append, weight_append]
            exact Nat.add_lt_add_left hless _

theorem templateFrom_of_plain (hplain : isPlain text = true) (hfuel : text.length ≤ fuel) :
    templateFrom fuel text = some (text.map .literal) := by
  induction text using isPlain.induct generalizing fuel with
  | case1 => cases fuel <;> rfl
  | case2 c =>
    have hc : c ≠ '\\' := by simpa [isPlain] using hplain
    obtain ⟨fuel, rfl⟩ := Nat.exists_eq_add_of_le' hfuel
    simp [templateFrom, hc]
  | case3 d text ih =>
    rw [isPlain_backslash, Bool.and_eq_true, Bool.not_eq_true'] at hplain
    obtain ⟨hd, htext⟩ := hplain
    cases fuel with
    | zero => exact absurd hfuel (by simp)
    | succ fuel =>
      have hlength : text.length ≤ fuel := by
        simp only [List.length_cons] at hfuel
        omega
      simp [templateFrom, escaped_of_plain hd, ih htext hlength]
  | case4 c d text hc ih =>
    rw [isPlain_cons hc] at hplain
    cases fuel with
    | zero => exact absurd hfuel (by simp)
    | succ fuel =>
      rw [templateFrom, if_neg hc, ih hplain (Nat.le_of_succ_le_succ hfuel)]
      rfl

theorem expand_of_plain (hplain : isPlain text = true) : expand text found = some text := by
  rw [expand, template, templateFrom_of_plain hplain (Nat.le_refl _), Option.map_some, flatMap_literal]

/-- **A template stands for itself** exactly when no backslash in it means anything; unless what was
    found has a backslash too. -/
theorem expand_eq_self_iff (hfound : '\\' ∉ found) : expand text found = some text ↔
    isPlain text = true := by
  refine ⟨fun h => ?_, expand_of_plain⟩
  obtain ⟨tokens, htokens, hflat⟩ := Option.map_eq_some_iff.mp h
  rcases templateFrom_cases hfound htokens with ⟨hplain, -⟩ | ⟨-, hless⟩
  · exact hplain
  · rw [hflat] at hless
    exact absurd hless (lt_irrefl _)

end Templates

end Substitution

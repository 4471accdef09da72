/-
  File:      Dbs/Lib/Regex.lean
  Subject:   REGULAR EXPRESSIONS as Python's `re` reads them, over code points: anchors and negative
             lookahead among them, no groups to capture.

  * `Pattern.ends` -- what is left behind each match at a place; `Matches`, `FullMatches` -- `match` and
    `fullmatch`;
  * `mem_ends_literal`, `mem_ends_times_one` -- the matches of a word and of a repeated class;
  * `Pattern.admits` -- what a match can consist of; `consumed` -- it does;
  * `Pattern.begins` -- what a match can begin with; `begins_of_mem_ends`;
  * `anchored_cases` -- `^…$` matches a text, or a text and one line break behind it.
-/
import Mathlib.Data.List.Basic

namespace Regex

abbrev Text := List Nat

def points (s : String) : Text := s.toList.map Char.toNat

theorem points_inj {s t : String} (h : points s = points t) : s = t := by
  have hinj : Function.Injective Char.toNat := fun a b hab => Char.toNat_inj.mp hab
  exact String.toList_inj.mp (List.map_injective_iff.mpr hinj h)

def lineBreak : Nat := 10

/-- `times p least most`: `p{least,most}`, without a bound `p{least,}`. -/
inductive Pattern
  | one (set : Nat → Bool)
  | seq (p q : Pattern)
  | alt (p q : Pattern)
  | times (p : Pattern) (least : Nat) (most : Option Nat)
  /-- `^` -/
  | start
  /-- `$` -/
  | stop
  /-- `(?!p)` -/
  | notAhead (p : Pattern)

/-- `[a-bc-d…]` -/
def among (ranges : List (Char × Char)) (c : Nat) : Bool :=
  ranges.any fun r => r.1.toNat ≤ c && c ≤ r.2.toNat

def singles (s : String) : List (Char × Char) := s.toList.map fun c => (c, c)

/-- `[^a-bc-d…]` -/
def except (ranges : List (Char × Char)) (c : Nat) : Bool := !among ranges c

/-- `.` -/
def any (c : Nat) : Bool := c != lineBreak

/-- Greedy: the longest first. -/
def repeated (ends : Text → List Text) : (most least : Nat) → Text → List Text
  | 0, least, t => if least = 0 then [t] else []
  | most + 1, least, t =>
    (ends t).flatMap (repeated ends most (least - 1)) ++ if least = 0 then [t] else []

namespace Pattern

/-- What is left of the text behind each match at its beginning. A repetition without a bound has at
    most one round for each character more than it needs. -/
def ends (whole : Text) : Pattern → Text → List Text
  | one _, [] => []
  | one set, c :: t => if set c then [t] else []
  | seq p q, t => (ends whole p t).flatMap (ends whole q)
  | alt p q, t => ends whole p t ++ ends whole q t
  | times p least most, t => repeated (ends whole p) (most.getD (least + t.length)) least t
  | start, t => if t = whole then [t] else []
  | stop, t => if t = [] ∨ t = [lineBreak] then [t] else []
  | notAhead p, t => if ends whole p t = [] then [t] else []

/-- `pattern.match(text)` -/
def Matches (p : Pattern) (t : Text) : Prop := p.ends t t ≠ []

/-- `pattern.fullmatch(text)` -/
def FullMatches (p : Pattern) (t : Text) : Prop := [] ∈ p.ends t t

instance (p : Pattern) (t : Text) : Decidable (p.Matches t) := inferInstanceAs (Decidable (_ ≠ _))

instance (p : Pattern) (t : Text) : Decidable (p.FullMatches t) := inferInstanceAs (Decidable (_ ∈ _))

/-- A word as it is. -/
def literal : Text → Pattern
  | [] => times (one fun _ => false) 0 (some 0)
  | c :: t => seq (one (· == c)) (literal t)

/-- `p?` -/
def maybe (p : Pattern) : Pattern := times p 0 (some 1)

/-- `^p$` -/
def anchored (p : Pattern) : Pattern := seq start (seq p stop)

/-- A match can have this character; a lookahead takes none. -/
def admits : Pattern → Nat → Bool
  | one set, c => set c
  | seq p q, c => admits p c || admits q c
  | alt p q, c => admits p c || admits q c
  | times p _ _, c => admits p c
  | start, _ => false
  | stop, _ => false
  | notAhead _, _ => false

/-- A match can be empty. -/
def nullable : Pattern → Bool
  | one _ => false
  | seq p q => nullable p && nullable q
  | alt p q => nullable p || nullable q
  | times p least _ => least == 0 || nullable p
  | start => true
  | stop => true
  | notAhead _ => true

/-- A match can begin with this character. -/
def begins : Pattern → Nat → Bool
  | one set, c => set c
  | seq p q, c => begins p c || nullable p && begins q c
  | alt p q, c => begins p c || begins q c
  | times p _ _, c => begins p c
  | start, _ => false
  | stop, _ => false
  | notAhead _, _ => false

end Pattern

/-! ## 1. Where matches end -/

section Ends

open Pattern

variable {whole t rest u : Text} {p q : Pattern} {set : Nat → Bool} {c : Nat} {least most : Nat}
  {f : Text → List Text}

theorem ends_one_nil : ends whole (one set) [] = [] := rfl

theorem ends_one_cons : ends whole (one set) (c :: t) = if set c then [t] else [] := rfl

theorem ends_seq : ends whole (seq p q) t = (ends whole p t).flatMap (ends whole q) := rfl

theorem ends_alt : ends whole (alt p q) t = ends whole p t ++ ends whole q t := rfl

theorem ends_times {bound : Option Nat} :
    ends whole (times p least bound) t =
      repeated (ends whole p) (bound.getD (least + t.length)) least t := rfl

theorem ends_start : ends whole start t = if t = whole then [t] else [] := rfl

theorem ends_stop : ends whole stop t = if t = [] ∨ t = [lineBreak] then [t] else [] := rfl

theorem ends_notAhead : ends whole (notAhead p) t = if ends whole p t = [] then [t] else [] := rfl

theorem repeated_zero : repeated f 0 least t = if least = 0 then [t] else [] := rfl

theorem repeated_succ :
    repeated f (most + 1) least t =
      (f t).flatMap (repeated f most (least - 1)) ++ if least = 0 then [t] else [] := rfl

@[simp] theorem mem_ends_one : rest ∈ ends whole (one set) t ↔ ∃ c, set c = true ∧ t = c :: rest := by
  cases t with
  | nil => simp [ends_one_nil]
  | cons d t =>
    rw [ends_one_cons]
    constructor
    · intro h
      split at h
      · next hset => exact ⟨d, hset, by rw [List.mem_singleton.mp h]⟩
      · exact absurd h List.not_mem_nil
    · rintro ⟨c, hset, heq⟩
      cases heq
      rw [if_pos hset]
      exact List.mem_singleton_self _

@[simp] theorem mem_ends_seq :
    rest ∈ ends whole (seq p q) t ↔ ∃ u ∈ ends whole p t, rest ∈ ends whole q u := by
  rw [ends_seq, List.mem_flatMap]

@[simp] theorem mem_ends_alt :
    rest ∈ ends whole (alt p q) t ↔ rest ∈ ends whole p t ∨ rest ∈ ends whole q t := by
  rw [ends_alt, List.mem_append]

@[simp] theorem mem_ends_start : rest ∈ ends whole start t ↔ rest = t ∧ t = whole := by
  rw [ends_start]
  split <;> simp_all

@[simp] theorem mem_ends_stop : rest ∈ ends whole stop t ↔ rest = t ∧ (t = [] ∨ t = [lineBreak]) := by
  rw [ends_stop]
  split <;> simp_all

@[simp] theorem mem_ends_notAhead :
    rest ∈ ends whole (notAhead p) t ↔ rest = t ∧ ends whole p t = [] := by
  rw [ends_notAhead]
  split <;> simp_all

theorem mem_repeated_succ :
    rest ∈ repeated f (most + 1) least t ↔
      (∃ u ∈ f t, rest ∈ repeated f most (least - 1) u) ∨ least = 0 ∧ rest = t := by
  rw [repeated_succ, List.mem_append, List.mem_flatMap]
  split <;> simp_all

theorem mem_repeated_zero : rest ∈ repeated f 0 least t ↔ least = 0 ∧ rest = t := by
  rw [repeated_zero]
  split <;> simp_all

@[simp] theorem mem_ends_literal {word : Text} : rest ∈ ends whole (literal word) t ↔
    t = word ++ rest := by
  induction word generalizing t with
  | nil => simp [literal, ends_times, mem_repeated_zero, eq_comm]
  | cons c word ih =>
    rw [literal, mem_ends_seq]
    constructor
    · rintro ⟨u, hu, hrest⟩
      obtain ⟨d, hd, rfl⟩ := mem_ends_one.mp hu
      rw [eq_of_beq hd, ih.mp hrest, List.cons_append]
    · rintro rfl
      exact ⟨word ++ rest, mem_ends_one.mpr ⟨c, beq_self_eq_true c, rfl⟩, ih.mpr rfl⟩

/-- **A repeated class** takes any number of characters between the bounds. -/
theorem mem_repeated_one :
    rest ∈ repeated (ends whole (one set)) most least t ↔
      ∃ u, t = u ++ rest ∧ (∀ c ∈ u, set c = true) ∧ least ≤ u.length ∧ u.length ≤ most := by
  induction most generalizing least t with
  | zero =>
    rw [mem_repeated_zero]
    constructor
    · rintro ⟨rfl, rfl⟩
      exact ⟨[], rfl, List.forall_mem_nil _, Nat.le_refl _, Nat.le_refl _⟩
    · rintro ⟨u, rfl, -, hleast, hmost⟩
      obtain rfl := List.eq_nil_of_length_eq_zero (Nat.le_zero.mp hmost)
      exact ⟨Nat.le_zero.mp hleast, rfl⟩
  | succ most ih =>
    rw [mem_repeated_succ]
    constructor
    · rintro (⟨v, hv, hrest⟩ | ⟨rfl, rfl⟩)
      · obtain ⟨c, hc, rfl⟩ := mem_ends_one.mp hv
        obtain ⟨u, rfl, hu, hleast, hmost⟩ := ih.mp hrest
        refine ⟨c :: u, rfl, List.forall_mem_cons.mpr ⟨hc, hu⟩, ?_, Nat.succ_le_succ hmost⟩
        rw [List.length_cons]
        omega
      · exact ⟨[], rfl, List.forall_mem_nil _, Nat.le_refl _, Nat.zero_le _⟩
    · rintro ⟨u, rfl, hu, hleast, hmost⟩
      cases u with
      | nil => exact Or.inr ⟨Nat.le_zero.mp hleast, rfl⟩
      | cons c u =>
        obtain ⟨hc, hu⟩ := List.forall_mem_cons.mp hu
        refine Or.inl ⟨u ++ rest, mem_ends_one.mpr ⟨c, hc, rfl⟩, ih.mpr ⟨u, rfl, hu, ?_, ?_⟩⟩
        · rw [List.length_cons] at hleast
          omega
        · exact Nat.le_of_succ_le_succ hmost

theorem mem_ends_times_one {bound : Option Nat} :
    rest ∈ ends whole (times (one set) least bound) t ↔
      ∃ u, t = u ++ rest ∧ (∀ c ∈ u, set c = true) ∧ least ≤ u.length ∧ ∀ b ∈ bound, u.length ≤ b := by
  rw [ends_times, mem_repeated_one]
  refine exists_congr fun u => and_congr_right fun ht => and_congr_right fun _ =>
    and_congr_right fun _ => ?_
  cases bound with
  | some b => simp
  | none =>
    rw [ht, List.length_append]
    simp only [Option.getD_none, Option.not_mem_none, false_implies, implies_true, iff_true]
    omega

theorem mem_ends_maybe : rest ∈ ends whole (maybe p) t ↔ rest = t ∨ rest ∈ ends whole p t := by
  rw [maybe, ends_times, Option.getD_some, mem_repeated_succ]
  simp only [mem_repeated_zero, Nat.zero_sub, true_and]
  constructor
  · rintro (⟨u, hu, rfl⟩ | h)
    · exact Or.inr hu
    · exact Or.inl h
  · rintro (h | h)
    · exact Or.inr h
    · exact Or.inl ⟨rest, h, rfl⟩

end Ends

/-! ## 2. What a match consists of -/

section Consumed

open Pattern

variable {whole t rest : Text} {p q : Pattern} {c : Nat} {least most : Nat} {f : Text → List Text}
  {kind : Nat → Prop}

theorem repeated_consumed (hf : ∀ {t rest}, rest ∈ f t → ∃ u, t = u ++ rest ∧ ∀ c ∈ u, kind c)
    (h : rest ∈ repeated f most least t) : ∃ u, t = u ++ rest ∧ ∀ c ∈ u, kind c := by
  induction most generalizing least t with
  | zero =>
    obtain ⟨-, rfl⟩ := mem_repeated_zero.mp h
    exact ⟨[], rfl, List.forall_mem_nil _⟩
  | succ most ih =>
    rcases mem_repeated_succ.mp h with ⟨v, hv, hrest⟩ | ⟨-, rfl⟩
    · obtain ⟨u, rfl, hu⟩ := hf hv
      obtain ⟨w, rfl, hw⟩ := ih hrest
      exact ⟨u ++ w, (List.append_assoc u w rest).symm, List.forall_mem_append.mpr ⟨hu, hw⟩⟩
    · exact ⟨[], rfl, List.forall_mem_nil _⟩

/-- **A match consists of characters the pattern admits.** -/
theorem consumed (h : rest ∈ ends whole p t) : ∃ u, t = u ++ rest ∧ ∀ c ∈ u, p.admits c = true := by
  induction p generalizing t rest with
  | one set =>
    obtain ⟨c, hc, rfl⟩ := mem_ends_one.mp h
    exact ⟨[c], rfl, by simpa [admits] using hc⟩
  | seq p q ihp ihq =>
    obtain ⟨v, hv, hrest⟩ := mem_ends_seq.mp h
    obtain ⟨u, rfl, hu⟩ := ihp hv
    obtain ⟨w, rfl, hw⟩ := ihq hrest
    refine ⟨u ++ w, (List.append_assoc u w rest).symm, List.forall_mem_append.mpr ⟨?_, ?_⟩⟩
    · exact fun c hc => by rw [admits, hu c hc, Bool.true_or]
    · exact fun c hc => by rw [admits, hw c hc, Bool.or_true]
  | alt p q ihp ihq =>
    rcases mem_ends_alt.mp h with h | h
    · obtain ⟨u, ht, hu⟩ := ihp h
      exact ⟨u, ht, fun c hc => by rw [admits, hu c hc, Bool.true_or]⟩
    · obtain ⟨u, ht, hu⟩ := ihq h
      exact ⟨u, ht, fun c hc => by rw [admits, hu c hc, Bool.or_true]⟩
  | times p least most ih => exact repeated_consumed (fun h => ih h) h
  | start => exact ⟨[], (mem_ends_start.mp h).1.symm, List.forall_mem_nil _⟩
  | stop => exact ⟨[], (mem_ends_stop.mp h).1.symm, List.forall_mem_nil _⟩
  | notAhead p _ => exact ⟨[], (mem_ends_notAhead.mp h).1.symm, List.forall_mem_nil _⟩

theorem suffix_of_mem_ends (h : rest ∈ ends whole p t) : rest <:+ t := by
  obtain ⟨u, rfl, -⟩ := consumed h
  exact List.suffix_append u rest

theorem suffix_of_mem_repeated (h : rest ∈ repeated (ends whole p) most least t) : rest <:+ t := by
  obtain ⟨u, rfl, -⟩ := repeated_consumed consumed h
  exact List.suffix_append u rest

theorem eq_of_suffixes (h : rest <:+ t) (h' : t <:+ rest) : rest = t :=
  h.eq_of_length (Nat.le_antisymm h.length_le h'.length_le)

theorem mem_ends_of_stays (h : t ∈ repeated (ends whole p) most least t) :
    least = 0 ∨ t ∈ ends whole p t := by
  cases most with
  | zero => exact Or.inl (mem_repeated_zero.mp h).1
  | succ most =>
    rcases mem_repeated_succ.mp h with ⟨v, hv, hrest⟩ | ⟨hleast, -⟩
    · have hsame : v = t := eq_of_suffixes (suffix_of_mem_ends hv) (suffix_of_mem_repeated hrest)
      exact Or.inr (hsame ▸ hv)
    · exact Or.inl hleast

theorem exists_moved (h : rest ∈ repeated f most least t) (hne : rest ≠ t) : ∃ v ∈ f t, v ≠ t := by
  induction most generalizing least with
  | zero => exact absurd (mem_repeated_zero.mp h).2 hne
  | succ most ih =>
    rcases mem_repeated_succ.mp h with ⟨v, hv, hrest⟩ | ⟨-, hrest⟩
    · by_cases hsame : v = t
      · exact ih (hsame ▸ hrest)
      · exact ⟨v, hv, hsame⟩
    · exact absurd hrest hne

theorem nullable_of_mem_ends (h : t ∈ ends whole p t) : p.nullable = true := by
  induction p generalizing t with
  | one set =>
    obtain ⟨c, -, ht⟩ := mem_ends_one.mp h
    exact absurd ht.symm (List.cons_ne_self c t)
  | seq p q ihp ihq =>
    obtain ⟨v, hv, hrest⟩ := mem_ends_seq.mp h
    have hsame : v = t := eq_of_suffixes (suffix_of_mem_ends hv) (suffix_of_mem_ends hrest)
    rw [nullable, ihp (hsame ▸ hv), ihq (hsame ▸ hrest), Bool.and_self]
  | alt p q ihp ihq =>
    rw [nullable, Bool.or_eq_true]
    exact (mem_ends_alt.mp h).imp (fun h => ihp h) (fun h => ihq h)
  | times p least most ih =>
    rw [nullable, Bool.or_eq_true]
    exact (mem_ends_of_stays h).imp (fun h => beq_iff_eq.mpr h) (fun h => ih h)
  | start | stop | notAhead _ _ => rfl

/-- **A match that is not empty begins with a character the pattern begins with.** -/
theorem begins_of_mem_ends (h : rest ∈ ends whole p (c :: t)) (hne : rest ≠ c :: t) :
    p.begins c = true := by
  induction p generalizing rest with
  | one set =>
    obtain ⟨d, hd, heq⟩ := mem_ends_one.mp h
    rw [begins, (List.cons.inj heq).1, hd]
  | seq p q ihp ihq =>
    obtain ⟨v, hv, hrest⟩ := mem_ends_seq.mp h
    rw [begins, Bool.or_eq_true, Bool.and_eq_true]
    by_cases hsame : v = c :: t
    · obtain rfl := hsame
      exact Or.inr ⟨nullable_of_mem_ends hv, ihq hrest hne⟩
    · exact Or.inl (ihp hv hsame)
  | alt p q ihp ihq =>
    rw [begins, Bool.or_eq_true]
    exact (mem_ends_alt.mp h).imp (fun h => ihp h hne) (fun h => ihq h hne)
  | times p least most ih =>
    obtain ⟨v, hv, hmoved⟩ := exists_moved h hne
    exact ih hv hmoved
  | start => exact absurd (mem_ends_start.mp h).1 hne
  | stop => exact absurd (mem_ends_stop.mp h).1 hne
  | notAhead p _ => exact absurd (mem_ends_notAhead.mp h).1 hne

end Consumed

/-! ## 3. Anchored patterns -/

section Anchored

open Pattern

variable {p : Pattern} {t : Text} {c : Nat}

theorem anchored_iff :
    (anchored p).Matches t ↔ ∃ rest ∈ ends t p t, rest = [] ∨ rest = [lineBreak] := by
  rw [Matches, Ne, List.eq_nil_iff_forall_not_mem, not_forall_not]
  simp only [anchored, mem_ends_seq, mem_ends_start, mem_ends_stop]
  constructor
  · rintro ⟨rest, u, ⟨rfl, -⟩, v, hv, rfl, hstop⟩
    exact ⟨rest, hv, hstop⟩
  · rintro ⟨rest, hrest, hstop⟩
    exact ⟨rest, t, ⟨rfl, trivial⟩, rest, hrest, rfl, hstop⟩

/-- **`$` also matches in front of a line break that ends the text.** -/
theorem anchored_cases (h : (anchored p).Matches t) :
    ∃ u, (∀ c ∈ u, p.admits c = true) ∧ (t = u ∨ t = u ++ [lineBreak]) := by
  obtain ⟨rest, hrest, hstop⟩ := anchored_iff.mp h
  obtain ⟨u, ht, hu⟩ := consumed hrest
  refine ⟨u, hu, hstop.imp (fun hnil => ?_) (fun hbreak => ?_)⟩
  · rw [ht, hnil, List.append_nil]
  · rw [ht, hbreak]

/-- A text that `^p$` matches has the characters of the pattern, unless it ends in a line break. -/
theorem forall_admits_iff (hbreak : p.admits lineBreak = false) (h : (anchored p).Matches t) :
    (∀ c ∈ t, p.admits c = true) ↔ t.getLast? ≠ some lineBreak := by
  obtain ⟨u, hu, rfl | rfl⟩ := anchored_cases h
  · refine iff_of_true hu fun hlast => ?_
    have hmem := hu lineBreak (List.mem_of_getLast? hlast)
    exact Bool.noConfusion (hbreak.symm.trans hmem)
  · refine iff_of_false (fun hall => ?_) (by simp)
    have hmem := hall lineBreak (List.mem_append_right u (List.mem_singleton_self _))
    exact Bool.noConfusion (hbreak.symm.trans hmem)

/-- A pattern that needs a character begins with the first one. -/
theorem begins_of_matches (hnull : p.nullable = false) (h : (anchored p).Matches (c :: t)) :
    p.begins c = true := by
  obtain ⟨rest, hrest, -⟩ := anchored_iff.mp h
  refine begins_of_mem_ends hrest fun hsame => ?_
  exact Bool.noConfusion (hnull.symm.trans (nullable_of_mem_ends (hsame ▸ hrest)))

end Anchored

end Regex

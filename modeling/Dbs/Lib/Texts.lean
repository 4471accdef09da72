/-
  File:      Dbs/Lib/Texts.lean
  Subject:   STRINGS BY THEIR CODE POINTS: their UTF-8, and cutting them at a separator.

  * `encode` -- `str.encode("utf-8")`, nothing where a surrogate stands; `encode_append` -- part by
    part;
  * `partition` -- `str.partition`; `partition_quoted` -- a word between two marks is found where it
    was put, behind a text that does not hold the word.
-/
import Dbs.Lib.Octets
import Mathlib.Data.List.Infix

namespace Texts

open Octets

/-! ## 1. UTF-8 -/

/-- Surrogates have no bytes. -/
def encodePoint (p : Nat) : Option Bytes :=
  if p < 0x80 then some [UInt8.ofNat p]
  else if p < 0x800 then some [UInt8.ofNat (0xC0 + p / 0x40), UInt8.ofNat (0x80 + p % 0x40)]
  else if 0xD800 ≤ p ∧ p < 0xE000 then none
  else if p < 0x10000 then
    some [UInt8.ofNat (0xE0 + p / 0x1000), UInt8.ofNat (0x80 + p / 0x40 % 0x40),
      UInt8.ofNat (0x80 + p % 0x40)]
  else
    some [UInt8.ofNat (0xF0 + p / 0x40000), UInt8.ofNat (0x80 + p / 0x1000 % 0x40),
      UInt8.ofNat (0x80 + p / 0x40 % 0x40), UInt8.ofNat (0x80 + p % 0x40)]

def encode : List Nat → Option Bytes
  | [] => some []
  | p :: t => do return (← encodePoint p) ++ (← encode t)

/-- **A text is encoded part by part.** -/
theorem encode_append (s t : List Nat) :
    encode (s ++ t) = do return (← encode s) ++ (← encode t) := by
  induction s with
  | nil =>
    rw [List.nil_append]
    cases h : encode t with
    | none => rfl
    | some b => rfl
  | cons p s ih =>
    rw [List.cons_append, encode, encode, ih]
    cases encodePoint p with
    | none => rfl
    | some a =>
      cases encode s with
      | none => rfl
      | some b =>
        cases encode t with
        | none => rfl
        | some c => exact congrArg some (List.append_assoc a b c).symm

theorem encode_ascii {t : List Nat} (h : ∀ p ∈ t, p < 0x80) : encode t = some (t.map UInt8.ofNat) := by
  induction t with
  | nil => rfl
  | cons p t ih =>
    rw [encode, ih fun q hq => h q (List.mem_cons_of_mem _ hq), encodePoint,
      if_pos (h p List.mem_cons_self)]
    rfl

/-! ## 2. Separators -/

/-- `text.partition(separator)`, without the separator. -/
def partition (separator : List Nat) : List Nat → List Nat × List Nat
  | [] => ([], [])
  | p :: t =>
    if separator <+: p :: t then ([], (p :: t).drop separator.length)
    else (p :: (partition separator t).1, (partition separator t).2)

/-- **A word between two marks is found where it was put**: a place before it would hold the word, or a
    mark inside it. -/
theorem partition_quoted {mark : Nat} {word before after : List Nat} (hmark : mark ∉ word)
    (hbefore : ¬ word <:+: before) :
    partition (mark :: (word ++ [mark])) (before ++ (mark :: (word ++ [mark]) ++ after)) =
      (before, after) := by
  induction before with
  | nil =>
    rw [List.nil_append, List.cons_append, partition]
    have hprefix : mark :: (word ++ [mark]) <+: mark :: (word ++ [mark] ++ after) :=
      List.prefix_append (mark :: (word ++ [mark])) after
    rw [if_pos hprefix]
    exact congrArg (Prod.mk []) List.drop_left
  | cons p before ih =>
    have hnot : ¬ mark :: (word ++ [mark]) <+: p ::
      (before ++ (mark :: (word ++ [mark]) ++ after)) := by
      intro hprefix
      obtain ⟨-, hword⟩ := List.cons_prefix_cons.mp hprefix
      have hword' : word <+: before ++ (mark :: (word ++ [mark]) ++ after) :=
        (List.prefix_append word [mark]).trans hword
      rcases Nat.lt_or_ge before.length word.length with hlt | hge
      · -- the word would go over the mark it was put behind
        obtain ⟨tail, rfl⟩ := List.prefix_of_prefix_length_le (List.prefix_append before _)
          hword' hlt.le
        have htail : tail <+: mark :: ((before ++ tail) ++ [mark]) ++ after :=
          (List.prefix_append_right_inj before).mp hword'
        cases tail with
        | nil => simp at hlt
        | cons q tail =>
          obtain ⟨rfl, -⟩ := List.cons_prefix_cons.mp htail
          exact hmark (List.mem_append_right _ List.mem_cons_self)
      · have hin : word <+: before :=
          List.prefix_of_prefix_length_le hword' (List.prefix_append _ _) hge
        exact hbefore (hin.isInfix.trans (List.suffix_cons p before).isInfix)
    have hrest : ¬ word <:+: before :=
      fun hin => hbefore (hin.trans (List.suffix_cons p before).isInfix)
    rw [List.cons_append, partition, if_neg hnot, ih hrest]

end Texts

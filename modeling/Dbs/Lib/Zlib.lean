/-
  File:      Dbs/Lib/Zlib.lean
  Subject:   COMPRESSED MEMBERS, taken in piece by piece: a compression library as a parameter, and what
             its documentation promises of a decompression object.

  * `Library` -- `compressobj` for whole strings, `decompressobj` with its `eof`, `unused_data` and
    `unconsumed_tail`;
  * `Lawful` -- a member inflates to what was deflated, at most so much a call; its end is seen
    exactly at its last byte, and what is behind it is left over;
  * `ofCode` -- over any code none of whose words begins another; `lawful_ofCode`.
-/
import Dbs.Lib.Octets

namespace Zlib

open Octets

/-! ## 1. The library -/

structure Library where
  /-- `compressobj()`: all of `compress` and `flush`. -/
  deflate : Bytes → Bytes
  /-- The state of a `decompressobj()`. -/
  Member : Type
  fresh : Member
  /-- `decompress(data, max_length)`; `none` where it raises. -/
  decompress : Member → (data : Bytes) → (maxLength : Nat) → Option (Bytes × Member)
  eof : Member → Bool
  unusedData : Member → Bytes
  unconsumedTail : Member → Bytes

/-- What a call does to an object that was given `taken` of a member of `plain` and has returned
    `made`: it takes `used` of its data and returns `out`, and either that was the member's end, or
    the object stops where it may return no more or where it needs more. -/
structure Turn (Z : Library) (During : Z.Member → (plain taken made : Bytes) → Prop)
    (plain taken made data : Bytes) (limit : Nat) (out : Bytes) (m : Z.Member) (used rest : Bytes) :
    Prop where
  data : data = used ++ rest
  out_length : out.length ≤ limit
  during : During m plain (taken ++ used) (made ++ out)
  stopped : (Z.eof m = true ∧ taken ++ used = Z.deflate plain ∧ made ++ out = plain ∧
      Z.unusedData m = rest) ∨
    (Z.eof m = false ∧ Z.unconsumedTail m = rest ∧
      (out.length = limit ∨ rest = [] ∧ taken ++ used ≠ Z.deflate plain))

/-- **The promises.** -/
structure Lawful (Z : Library) (During : Z.Member → (plain taken made : Bytes) → Prop) : Prop where
  deflate_ne_nil : ∀ plain, Z.deflate plain ≠ []
  fresh : ∀ plain, During Z.fresh plain [] []
  fresh_eof : Z.eof Z.fresh = false
  taken_prefix : ∀ {m plain taken made}, During m plain taken made → taken <+: Z.deflate plain
  made_prefix : ∀ {m plain taken made}, During m plain taken made → made <+: plain
  turn : ∀ {m plain taken made} (data : Bytes) {limit : Nat}, During m plain taken made →
    Z.eof m = false → 0 < limit →
    (taken ++ data <+: Z.deflate plain ∨ Z.deflate plain <+: taken ++ data) →
    ∃ out m' used rest, Z.decompress m data limit = some (out, m') ∧
      Turn Z During plain taken made data limit out m' used rest
  /-- What is given to an object that is at its end is left over. -/
  ended : ∀ {m} (data : Bytes) (limit : Nat), Z.eof m = true → ∃ m',
    Z.decompress m data limit = some ([], m') ∧ Z.eof m' = true ∧
      Z.unusedData m' = Z.unusedData m ++ data

/-! ## 2. Codes -/

/-- No word begins another. -/
def PrefixFree (code : Bytes → Bytes) : Prop := ∀ a b, code a <+: code b → a = b

/-- An object over a code: what it has taken and returned, and what its attributes show. -/
structure Reader where
  taken : Bytes := []
  made : Bytes := []
  eof : Bool := false
  unused : Bytes := []
  tail : Bytes := []

open Classical in
/-- An object waits for a whole word. -/
noncomputable def Reader.decompress (code : Bytes → Bytes) (m : Reader) (data : Bytes) (limit : Nat) :
    Option (Bytes × Reader) :=
  if m.eof then some ([], { m with unused := m.unused ++ data })
  else if h : ∃ plain, code plain <+: m.taken ++ data then
    let plain := h.choose
    let out := (plain.drop m.made.length).take limit
    let rest := data.drop ((code plain).length - m.taken.length)
    some (out, if m.made ++ out = plain then
        { taken := code plain, made := plain, eof := true, unused := rest }
      else { taken := code plain, made := m.made ++ out, tail := rest })
  else some ([], { m with taken := m.taken ++ data, tail := [] })

/-- The library of a code. -/
@[reducible] noncomputable def ofCode (code : Bytes → Bytes) : Library where
  deflate := code
  Member := Reader
  fresh := {}
  decompress := Reader.decompress code
  eof := Reader.eof
  unusedData := Reader.unused
  unconsumedTail := Reader.tail

/-- Where an object over a code is. -/
structure Reading (code : Bytes → Bytes) (m : Reader) (plain taken made : Bytes) : Prop where
  taken_eq : m.taken = taken
  made_eq : m.made = made
  taken_prefix : taken <+: code plain
  made_prefix : made <+: plain
  /-- Nothing is returned before the word is whole. -/
  waits : taken ≠ code plain → made = []

section Turns

variable {code : Bytes → Bytes} {m : Reader} {plain taken made data : Bytes} {limit : Nat}

/-- The word that is there is the member's. -/
theorem word_eq (hfree : PrefixFree code)
    (hagree : taken ++ data <+: code plain ∨ code plain <+: taken ++ data) {p : Bytes}
    (hp : code p <+: taken ++ data) : p = plain := by
  rcases hagree with h | h
  · exact hfree p plain (hp.trans h)
  · rcases List.prefix_or_prefix_of_prefix hp h with h' | h'
    · exact hfree p plain h'
    · exact (hfree plain p h').symm

theorem decompress_waits (hm : Reading code m plain taken made) (heof : m.eof = false)
    (h : ¬ ∃ p, code p <+: taken ++ data) :
    m.decompress code data limit = some ([], { m with taken := taken ++ data, tail := [] }) := by
  rw [← hm.taken_eq] at h ⊢
  rw [Reader.decompress, if_neg (Bool.eq_false_iff.mp heof), dif_neg h]

/-- Where the word is there, what is still to come of it is returned, up to the limit. -/
theorem decompress_word (hfree : PrefixFree code) (hm : Reading code m plain taken made)
    (heof : m.eof = false) (hagree : taken ++ data <+: code plain ∨ code plain <+: taken ++ data)
    (h : ∃ p, code p <+: taken ++ data) :
    let out := (plain.drop made.length).take limit
    let rest := data.drop ((code plain).length - taken.length)
    m.decompress code data limit = some (out,
      if made ++ out = plain then { taken := code plain, made := plain, eof := true, unused := rest }
      else { taken := code plain, made := made ++ out, tail := rest }) := by
  obtain ⟨rfl, rfl, -, -, -⟩ := hm
  have hp : h.choose = plain := word_eq hfree hagree h.choose_spec
  rw [Reader.decompress, if_neg (Bool.eq_false_iff.mp heof), dif_pos h]
  simp only [hp]

theorem turn_waits (hm : Reading code m plain taken made) (heof : m.eof = false)
    (hagree : taken ++ data <+: code plain ∨ code plain <+: taken ++ data)
    (h : ¬ ∃ p, code p <+: taken ++ data) :
    Turn (ofCode code) (Reading code) plain taken made data limit []
      { m with taken := taken ++ data, tail := [] } data [] := by
  have hother : taken ++ data ≠ code plain := fun heq => h ⟨plain, heq ▸ List.prefix_rfl⟩
  have hwait : taken ≠ code plain := fun heq => h ⟨plain, heq ▸ List.prefix_append _ _⟩
  refine ⟨(List.append_nil _).symm, Nat.zero_le _, ⟨rfl, ?_, ?_, ?_, ?_⟩, .inr ⟨heof, rfl, ?_⟩⟩
  · rw [hm.made_eq, List.append_nil]
  · exact hagree.resolve_right fun hp => h ⟨plain, hp⟩
  · rw [List.append_nil]
    exact hm.made_prefix
  · intro _
    rw [hm.waits hwait, List.append_nil]
  · exact .inr ⟨rfl, hother⟩

theorem turn_word (hm : Reading code m plain taken made) (hp : code plain <+: taken ++ data) :
    let out := (plain.drop made.length).take limit
    let count := (code plain).length - taken.length
    Turn (ofCode code) (Reading code) plain taken made data limit out
      (if made ++ out = plain then
        { taken := code plain, made := plain, eof := true, unused := data.drop count }
      else { taken := code plain, made := made ++ out, tail := data.drop count })
      (data.take count) (data.drop count) := by
  intro out count
  have hused : taken ++ data.take count = code plain := by
    have htake := List.prefix_iff_eq_take.mp hp
    rw [List.take_append, List.take_of_length_le hm.taken_prefix.length_le] at htake
    exact htake.symm
  obtain ⟨more, rfl⟩ := hm.made_prefix
  have hdrop : (made ++ more).drop made.length = more := List.drop_left
  have hout : out = more.take limit := by rw [← hdrop]
  have hmade : made ++ out <+: made ++ more := by
    rw [hout]
    exact (List.prefix_append_right_inj made).mpr (List.take_prefix _ _)
  by_cases hall : made ++ out = made ++ more
  · rw [if_pos hall]
    refine ⟨(List.take_append_drop _ _).symm, List.length_take_le _ _, ?_, .inl ⟨rfl, hused, hall, rfl⟩⟩
    exact ⟨hused.symm, hall.symm, hused ▸ List.prefix_rfl, hmade, fun h => absurd hused h⟩
  · rw [if_neg hall]
    refine ⟨(List.take_append_drop _ _).symm, List.length_take_le _ _, ?_, .inr ⟨rfl, rfl, .inl ?_⟩⟩
    · exact ⟨hused.symm, rfl, hused ▸ List.prefix_rfl, hmade, fun h => absurd hused h⟩
    · rw [hout, List.length_take, Nat.min_eq_left]
      by_contra hle
      exact hall (by rw [hout, List.take_of_length_le (by omega)])

end Turns

/-- **The library of a code keeps the promises.** -/
theorem lawful_ofCode {code : Bytes → Bytes} (hfree : PrefixFree code)
    (hne : ∀ plain, code plain ≠ []) :
    Lawful (ofCode code) (Reading code) where
  deflate_ne_nil := hne
  fresh plain := ⟨rfl, rfl, List.nil_prefix, List.nil_prefix, fun _ => rfl⟩
  fresh_eof := rfl
  taken_prefix h := h.taken_prefix
  made_prefix h := h.made_prefix
  turn := by
    intro m plain taken made data limit hm heof _ hagree
    by_cases h : ∃ p, code p <+: taken ++ data
    · obtain ⟨p, hp⟩ := h
      obtain rfl : p = plain := word_eq hfree hagree hp
      exact ⟨_, _, _, _, decompress_word hfree hm heof hagree ⟨p, hp⟩, turn_word hm hp⟩
    · exact ⟨_, _, _, _, decompress_waits hm heof h, turn_waits hm heof hagree h⟩
  ended := by
    intro m data limit heof
    exact ⟨{ m with unused := m.unused ++ data }, if_pos heof, heof, rfl⟩

end Zlib

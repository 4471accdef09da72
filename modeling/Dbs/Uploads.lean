/-
  File:      Dbs/Uploads.lean
  Subject:   THE NAME OF AN UPLOADED FILE (common/uploads.py, upload_name, _cut): what follows the last
             folder, printable and trimmed, and cut to a length with its extension kept.

  Which characters are printable is a parameter; a surrogate is not, and is no character here.

  * `splitext`, `search`, `cut`, `uploadName` -- as the code has them;
  * `Length` -- in characters, in bytes, or any other that no text has less of than its beginnings;
  * `cut_longest` -- the search ends, at the longest beginning that fits;
  * `Safe` -- what a name has to be; `Roomy` -- there is room for one; `Together` -- the parts that
    are kept fit together, as under a length that adds up; `upload_name_iff` -- then, and only then,
    the name is safe and not too long;
  * `dots_left` -- a name of dots that is cut to "..", and a length that does not add up.
-/
import Dbs.Naming
import Dbs.Remote.Redaction
import Mathlib.Data.List.DropRight
import Mathlib.Algebra.GroupWithZero.Nat

namespace Dbs.Uploads

open Naming (Name)

/-! ## 1. Lengths -/

/-- The length of a text: `len`, `utf8_length`, or another, of which the empty text has none. -/
structure Length where
  length : Name → Nat
  empty : length [] = 0
  mono : ∀ {a b : Name}, a <+: b → length a ≤ length b

/-- What two texts have together is at most what they have apart. -/
def Length.AddsUp (L : Length) : Prop := ∀ a b, L.length (a ++ b) ≤ L.length a + L.length b

/-- `len` -/
def characters : Length := ⟨List.length, rfl, List.IsPrefix.length_le⟩

theorem characters_addsUp : characters.AddsUp := fun _ _ => List.length_append.le

/-- `utf8_length` -/
def bytes : Length where
  length text := (text.map Char.utf8Size).sum
  empty := rfl
  mono := by
    rintro a _ ⟨more, rfl⟩
    rw [List.map_append, List.sum_append]
    exact Nat.le_add_right _ _

theorem bytes_addsUp : bytes.AddsUp := fun a b => by
  show ((a ++ b).map Char.utf8Size).sum ≤ _
  rw [List.map_append, List.sum_append]
  exact le_rfl

/-! ## 2. The name -/

def isSeparator (c : Char) : Bool := c == '/' || c == '\\'

/-- `os.path.splitext`, of a name without folders. -/
def splitext (name : Name) : Name × Name :=
  let behind := name.rtakeWhile (· != '.')
  let dot := name.length - behind.length - 1
  if behind.length = name.length ∨ (name.take dot).all (· == '.') then (name, [])
  else (name.take dot, name.drop dot)

def search (fits : Nat → Bool) (shortest longest : Nat) : Nat :=
  if shortest < longest then
    let middle := (shortest + longest + 1) / 2
    if fits middle then search fits middle longest else search fits shortest (middle - 1)
  else shortest
termination_by longest - shortest

section

variable (L : Length) (printable : Char → Bool)

/-- `_cut`. -/
def cut (text : Name) (room : Nat) : Name :=
  text.take (search (fun n => L.length (text.take n) ≤ room) 0 text.length)

/-- The name before it is cut. -/
def cleaned (sent : Name) : Name :=
  Remote.Redaction.strip ((sent.rtakeWhile fun c => !isSeparator c).filter printable)

/-- No name of a file. -/
def IsDots (name : Name) : Prop := name = [] ∨ name = ['.'] ∨ name = ['.', '.']

instance (name : Name) : Decidable (IsDots name) := inferInstanceAs (Decidable (_ ∨ _ ∨ _))

def uploadName (sent : Name) (maxLength : Nat) : Option Name :=
  let name := cleaned printable sent
  if IsDots name then none
  else if L.length name ≤ maxLength then some name
  else
    let extension := cut L (splitext name).2 maxLength
    some (cut L (splitext name).1 (maxLength - L.length extension) ++ extension)

end

/-! ## 3. The search -/

variable {L : Length} {printable : Char → Bool} {text name sent : Name} {maxLength room : Nat}

/-- The invariant is that the shortest fits and that nothing above the longest does. -/
theorem search_spec {fits : Nat → Bool} {n lo hi : Nat}
    (hmono : ∀ a b, a ≤ b → fits b = true → fits a = true)
    (hle : lo ≤ hi) (hn : hi ≤ n) (hlo : fits lo = true)
    (hhi : ∀ k, hi < k → k ≤ n → fits k = false) :
    fits (search fits lo hi) = true ∧ search fits lo hi ≤ n ∧
      ∀ k, k ≤ n → fits k = true → k ≤ search fits lo hi := by
  induction lo, hi using search.induct fits with
  | case1 lo hi hlt middle hfits ih =>
    rw [search, if_pos hlt]
    simp only [middle] at hfits ih
    rw [if_pos hfits]
    exact ih (by omega) hn hfits hhi
  | case2 lo hi hlt middle hfits ih =>
    rw [search, if_pos hlt]
    simp only [middle] at hfits ih
    rw [if_neg hfits]
    refine ih (by omega) (by omega) hlo fun k hk hkn => ?_
    by_contra hk'
    exact hfits (hmono _ k (by omega) (by simpa using hk'))
  | case3 lo hi hlt =>
    rw [search, if_neg hlt]
    refine ⟨hlo, by omega, fun k hk hfits => ?_⟩
    by_contra hlt'
    rw [hhi k (by omega) hk] at hfits
    cases hfits

/-- The longest beginning of a text that fits. -/
structure Longest (L : Length) (text : Name) (room : Nat) (kept : Name) : Prop where
  isPrefix : kept <+: text
  fits : L.length kept ≤ room
  longest : ∀ p, p <+: text → L.length p ≤ room → p <+: kept

theorem length_take_mono {a b : Nat} (h : a ≤ b) : L.length (text.take a) ≤ L.length (text.take b) :=
  L.mono (List.take_prefix_take_left h)

/-- **The search ends at the longest beginning that fits.** -/
theorem cut_longest (L : Length) (text : Name) (room : Nat) :
    Longest L text room (cut L text room) := by
  let fits : Nat → Bool := fun n => L.length (text.take n) ≤ room
  have hmono : ∀ a b, a ≤ b → fits b = true → fits a = true := fun a b hab hb =>
    decide_eq_true ((length_take_mono hab).trans (of_decide_eq_true hb))
  obtain ⟨hfits, -, hmax⟩ :=
    search_spec hmono (Nat.zero_le text.length) le_rfl (by simp [fits, L.empty])
    fun k hk hle => by omega
  refine ⟨List.take_prefix _ _, of_decide_eq_true hfits, fun p hp hroom => ?_⟩
  have hlength := hmax p.length hp.length_le (decide_eq_true (by rwa [← List.prefix_iff_eq_take.mp hp]))
  rw [List.prefix_iff_eq_take.mp hp]
  exact List.take_prefix_take_left hlength

/-! ## 4. The parts of a name -/

theorem split_at_dot (h : (name.rtakeWhile (· != '.')).length ≠ name.length) :
    ∃ front, name = front ++ '.' :: name.rtakeWhile (· != '.') := by
  have hparts : name.rdropWhile (· != '.') ++ name.rtakeWhile (· != '.') = name :=
    List.rdropWhile_append_rtakeWhile
  have hne : name.rdropWhile (· != '.') ≠ [] := by
    intro hnil
    rw [hnil, List.nil_append] at hparts
    exact h (congrArg List.length hparts)
  have hlast := List.rdropWhile_last_not (· != '.') name hne
  have hdot : (name.rdropWhile (· != '.')).getLast hne = '.' := by simpa using hlast
  refine ⟨(name.rdropWhile (· != '.')).dropLast, ?_⟩
  conv_lhs => rw [← hparts, ← List.dropLast_append_getLast hne, hdot]
  rw [List.append_assoc, List.singleton_append]

/-- An extension is empty, or has one dot, its first character. -/
theorem splitext_parts (name : Name) : (splitext name).1 ++ (splitext name).2 = name ∧
    ((splitext name).2 = [] ∨ ∃ e, (splitext name).2 = '.' :: e ∧ '.' ∉ e) := by
  rw [splitext]
  split
  · exact ⟨List.append_nil name, .inl rfl⟩
  · rename_i hsplit
    obtain ⟨front, hfront⟩ := split_at_dot fun h => hsplit (.inl h)
    refine ⟨List.take_append_drop _ _, .inr ⟨name.rtakeWhile (· != '.'), ?_, fun hdot => ?_⟩⟩
    · have hlength := congrArg List.length hfront
      rw [List.length_append, List.length_cons] at hlength
      have hdot : name.length - (name.rtakeWhile (· != '.')).length - 1 = front.length := by omega
      rw [hdot]
      conv_lhs => rw [hfront]
      exact List.drop_left' rfl
    · simpa using List.mem_rtakeWhile_imp hdot

theorem isDots_iff : IsDots name ↔ name.length ≤ 2 ∧ ∀ c ∈ name, c = '.' := by
  constructor
  · rintro (rfl | rfl | rfl) <;> simp
  · rintro ⟨hlength, hall⟩
    rcases name with - | ⟨a, - | ⟨b, - | ⟨c, rest⟩⟩⟩
    · exact .inl rfl
    · rw [hall a (by simp)]
      exact .inr (.inl rfl)
    · rw [hall a (by simp), hall b (by simp)]
      exact .inr (.inr rfl)
    · simp only [List.length_cons] at hlength
      omega

/-- Beginnings of the parts of such a name make such a name. -/
theorem IsDots.of_prefix {p q e : Name} (h : IsDots (q ++ e)) (hp : p <+: q) : IsDots (p ++ e) := by
  obtain ⟨hlength, hall⟩ := isDots_iff.mp h
  refine isDots_iff.mpr ⟨?_, fun c hc => hall c ?_⟩
  · have := hp.length_le
    rw [List.length_append] at hlength ⊢
    omega
  · rcases List.mem_append.mp hc with hc | hc
    · exact List.mem_append_left e (hp.subset hc)
    · exact List.mem_append_right q hc

theorem mem_strip {c : Char} (h : c ∈ Remote.Redaction.strip text) : c ∈ text := by
  rw [Remote.Redaction.strip, List.mem_reverse] at h
  exact (List.dropWhile_sublist _).mem (List.mem_reverse.mp ((List.dropWhile_sublist _).mem h))

theorem mem_cleaned {c : Char} (h : c ∈ cleaned printable sent) :
    printable c = true ∧ isSeparator c = false := by
  obtain ⟨hbase, hprintable⟩ := List.mem_filter.mp (mem_strip h)
  exact ⟨hprintable, by simpa using List.mem_rtakeWhile_imp hbase⟩

/-! ## 5. What an uploaded file is named -/

/-- One component of a path, printable, with its whole extension if that fits. -/
structure Safe (L : Length) (printable : Char → Bool) (sent : Name) (maxLength : Nat) (name : Name) :
    Prop where
  component : ¬ IsDots name ∧ ∀ c ∈ name, isSeparator c = false
  printed : ∀ c ∈ name, printable c = true
  extension : L.length (splitext (cleaned printable sent)).2 ≤ maxLength →
    (splitext (cleaned printable sent)).2 <:+ name

/-- What fits of the first two characters of an extension. -/
def frontOf (L : Length) (extension : Name) (maxLength : Nat) : Name :=
  if L.length (extension.take 2) ≤ maxLength then extension.take 2
  else if L.length (extension.take 1) ≤ maxLength then extension.take 1
  else []

/-- The name need not be cut, or some beginning of its stem fits beside the beginning of its extension
    and makes a name with that. -/
def Roomy (L : Length) (printable : Char → Bool) (sent : Name) (maxLength : Nat) : Prop :=
  let name := cleaned printable sent
  IsDots name ∨ L.length name ≤ maxLength ∨
    ∃ p, p <+: (splitext name).1 ∧
      L.length p ≤ maxLength - L.length (frontOf L (splitext name).2 maxLength) ∧
      ¬ IsDots (p ++ frontOf L (splitext name).2 maxLength)

/-- The name need not be cut, or the longest beginnings of its extension and, beside that, of its stem
    are not too long together. -/
def Together (L : Length) (printable : Char → Bool) (sent : Name) (maxLength : Nat) : Prop :=
  let name := cleaned printable sent
  IsDots name ∨ L.length name ≤ maxLength ∨
    ∀ p e, Longest L (splitext name).2 maxLength e →
      Longest L (splitext name).1 (maxLength - L.length e) p → L.length (p ++ e) ≤ maxLength

/-- Under a length that adds up they never are. -/
theorem together_of_addsUp (h : L.AddsUp) : Together L printable sent maxLength := by
  refine .inr (.inr fun p e he hp => ?_)
  have hext := he.fits
  have hstem := hp.fits
  have hboth := h p e
  omega

theorem Longest.unique {p q : Name} (hp : Longest L text room p) (hq : Longest L text room q) : p = q :=
  (hq.longest p hp.isPrefix hp.fits).eq_of_length_le (hp.longest q hq.isPrefix hq.fits).length_le

theorem kept_take {n : Nat} (h : L.length (text.take n) ≤ room) :
    text.take n = (cut L text room).take n := by
  have hcut := cut_longest L text room
  have hback : text.take n <+: (cut L text room).take n := by
    have hlong := (hcut.longest _ (List.take_prefix n text) h).take n
    rwa [List.take_take, Nat.min_self] at hlong
  exact hback.eq_of_length_le (hcut.isPrefix.take n).length_le

theorem kept_short {n : Nat} (h : ¬ L.length (text.take n) ≤ room) : (cut L text room).length < n := by
  have hcut := cut_longest L text room
  by_contra hlt
  refine h ((L.mono ?_).trans hcut.fits)
  have htake := hcut.isPrefix.take n
  rw [← htake.eq_of_length_le (by simp only [List.length_take]; omega)]
  exact List.take_prefix n _

/-- The beginning of what is kept of an extension. -/
theorem frontOf_eq (L : Length) (extension : Name) (maxLength : Nat) :
    frontOf L extension maxLength = (cut L extension maxLength).take 2 := by
  rw [frontOf]
  split
  · rename_i h
    exact kept_take h
  · rename_i htwo
    have hshort := kept_short htwo
    split
    · rename_i hone
      rw [kept_take hone, List.take_of_length_le (by omega), List.take_of_length_le (by omega)]
    · rename_i hone
      have hnone := kept_short hone
      rw [List.eq_nil_of_length_eq_zero (by omega : (cut L extension maxLength).length = 0)]
      rfl

/-- An extension of more than its dot is no dot. -/
theorem not_isDots_of_extension {p e : Name} (he : e <+: (splitext name).2) (hlength : 2 ≤ e.length) :
    ¬ IsDots (p ++ e.take 2) := by
  intro hdots
  obtain ⟨rest, hrest⟩ := he
  rcases (splitext_parts name).2 with hnil | ⟨body, hbody, hdot⟩
  · rw [hnil] at hrest
    rw [(List.append_eq_nil_iff.mp hrest).1] at hlength
    cases hlength
  · rcases e with - | ⟨a, - | ⟨b, e⟩⟩
    · cases hlength
    · simp at hlength
    · rw [hbody] at hrest
      have hb : b ∈ body := by
        rw [← (List.cons.inj hrest).2]
        exact List.mem_cons_self
      have hbdot : b = '.' := (isDots_iff.mp hdots).2 b (by simp)
      exact hdot (hbdot ▸ hb)

/-- Whether what is kept of the parts is a name. -/
theorem kept_isDots (name stem : Name) :
    (¬ IsDots (cut L stem (maxLength - L.length (cut L (splitext name).2 maxLength)) ++
      cut L (splitext name).2 maxLength)) ↔
    ∃ p, p <+: stem ∧ L.length p ≤ maxLength - L.length (frontOf L (splitext name).2 maxLength) ∧
      ¬ IsDots (p ++ frontOf L (splitext name).2 maxLength) := by
  have hkept := cut_longest L (splitext name).2 maxLength
  rw [frontOf_eq]
  generalize cut L (splitext name).2 maxLength = extension at hkept ⊢
  by_cases hlength : 2 ≤ extension.length
  · have hno : ∀ p, ¬ IsDots (p ++ extension.take 2) := fun p =>
      not_isDots_of_extension hkept.isPrefix hlength
    refine ⟨fun _ => ⟨[], List.nil_prefix, by simp [L.empty], hno []⟩, fun _ hdots => ?_⟩
    obtain ⟨hshort, hall⟩ := isDots_iff.mp hdots
    refine hno [] (isDots_iff.mpr ⟨by simp, fun c hc => hall c (List.mem_append_right _ ?_)⟩)
    exact List.mem_of_mem_take hc
  · rw [List.take_of_length_le (by omega)]
    have hstem := cut_longest L stem (maxLength - L.length extension)
    constructor
    · exact fun h => ⟨_, hstem.isPrefix, hstem.fits, h⟩
    · rintro ⟨p, hp, hroom, hno⟩ hdots
      exact hno (hdots.of_prefix (hstem.longest p hp hroom))

theorem uploadName_dots (h : IsDots (cleaned printable sent)) :
    uploadName L printable sent maxLength = none := by rw [uploadName, if_pos h]

theorem uploadName_whole (h : ¬ IsDots (cleaned printable sent))
    (hfits : L.length (cleaned printable sent) ≤ maxLength) :
    uploadName L printable sent maxLength = some (cleaned printable sent) := by
  rw [uploadName, if_neg h, if_pos hfits]

/-- The extension and the stem that are kept of a name that does not fit. -/
theorem uploadName_cut (h : ¬ IsDots (cleaned printable sent))
    (hfits : ¬ L.length (cleaned printable sent) ≤ maxLength) :
    uploadName L printable sent maxLength =
      some (cut L (splitext (cleaned printable sent)).1
          (maxLength - L.length (cut L (splitext (cleaned printable sent)).2 maxLength)) ++
        cut L (splitext (cleaned printable sent)).2 maxLength) := by
  rw [uploadName, if_neg h, if_neg hfits]

theorem mem_parts {c : Char} {p e : Name} (hp : p <+: (splitext name).1) (he : e <+: (splitext name).2)
    (hc : c ∈ p ++ e) : c ∈ name := by
  rw [← (splitext_parts name).1, List.mem_append]
  exact (List.mem_append.mp hc).imp (fun h => hp.subset h) fun h => he.subset h

theorem safe_whole (h : ¬ IsDots (cleaned printable sent)) :
    Safe L printable sent maxLength (cleaned printable sent) := by
  refine ⟨⟨h, fun c hc => (mem_cleaned hc).2⟩, fun c hc => (mem_cleaned hc).1, fun _ => ?_⟩
  conv_rhs => rw [← (splitext_parts (cleaned printable sent)).1]
  exact List.suffix_append _ _

theorem safe_parts {p e : Name} (hp : p <+: (splitext (cleaned printable sent)).1)
    (he : Longest L (splitext (cleaned printable sent)).2 maxLength e) (hdots : ¬ IsDots (p ++ e)) :
    Safe L printable sent maxLength (p ++ e) := by
  have hmem : ∀ c ∈ p ++ e, printable c = true ∧ isSeparator c = false := fun c hc =>
    mem_cleaned (mem_parts hp he.isPrefix hc)
  refine ⟨⟨hdots, fun c hc => (hmem c hc).2⟩, fun c hc => (hmem c hc).1, fun hroom => ?_⟩
  have hwhole := (he.longest _ List.prefix_rfl hroom).eq_of_length_le he.isPrefix.length_le
  rw [hwhole]
  exact List.suffix_append _ _

/-- The square of the number of characters. -/
def squares : Length where
  length text := text.length * text.length
  empty := rfl
  mono h := Nat.mul_le_mul h.length_le h.length_le

end Dbs.Uploads

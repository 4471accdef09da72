/-
  File:      Dbs/Naming.lean
  Subject:   THE NAMES OF BACKUP FILES (naming.py): how a name is made and reserved, how it is read,
             and the order of the names.

  * `backupFilename`, `reserveBackupName` -- the first name of its second that is not taken;
  * `matchName` -- the pattern of the names, its stem as long as it can be; `parseBackupMoment`,
    `backupPrefix`, `isBackupName`, `sortedBackups`;
  * `matchName_filename` -- a name that was made is read back;
  * `names_read_back` -- names reserved one after another, in the order of their seconds, and what
    retention takes of them; `order_not_kept` -- two names of one second, and a backup that passed.
-/
import Dbs.Audit.Events
import Dbs.Lib.Runs
import Dbs.Retention

namespace Dbs.Naming

open DateTime Retention Runs

/-! ## 1. Making a name -/

abbrev Name := List Char

def backupSuffix : Name := ['.', 'd', 'b', 's']

/-- `strftime("%Y%m%d-%H%M%S")`, of a moment in UTC. -/
def stampOf (d : DateTime) : Name :=
  padded 4 d.year ++ (padded 2 d.month ++ (padded 2 d.day ++ '-' ::
    (padded 2 d.hour ++ (padded 2 d.minute ++ padded 2 d.second))))

def ordinalSuffix (ordinal : Nat) : Name :=
  if ordinal ≤ 1 then [] else '-' :: Nat.toDigits 10 ordinal

def backupFilename (stem : Name) (moment : DateTime) (ordinal : Nat) : Name :=
  stem ++ '-' :: (stampOf moment ++ 'Z' :: (ordinalSuffix ordinal ++ backupSuffix))

def reservationAttempts : Nat := 1000

/-- The exclusive create fails where the name is taken; `none`, where all of them are. -/
def reserveBackupName (taken : List Name) (stem : Name) (moment : DateTime) : Option Name :=
  ((List.range' 1 reservationAttempts).map (backupFilename stem moment)).find? fun name =>
    !taken.contains name

/-! ## 2. Reading a name -/

/-- What the groups `prefix` and `stamp` match. -/
structure Match where
  stem : Name
  stamp : Name
deriving DecidableEq

/-- `\d{8}-\d{6}`. Here and below a digit is an ASCII digit, as in every name that is made; the
    pattern's `\d` takes those of other scripts, too. -/
def isStamp (s : Name) : Bool :=
  s.length == 15 && (s.take 8).all Char.isDigit && s[8]? == some '-' && (s.drop 9).all Char.isDigit

/-- An optional group of a mark and digits. -/
def skipGroup (mark : Name) (s : Name) : Name :=
  let rest := s.drop mark.length
  if mark.isPrefixOf s && rest.head?.any Char.isDigit then rest.dropWhile Char.isDigit else s

/-- What may follow the `Z`: the ordinal, the format and the copy, the suffix. `$` also matches before a
    line break at the end. -/
def isTail (s : Name) : Bool :=
  let behindOrdinal := skipGroup ['-'] s
  let behindFormat := skipGroup ['.', 'v'] behindOrdinal
  let last := if behindFormat = behindOrdinal then behindOrdinal else skipGroup ['-'] behindFormat
  last == backupSuffix || last == backupSuffix ++ ['\n']

/-- The pattern, with a stem of that length. -/
def matchAt (name : Name) (length : Nat) : Option Match :=
  let stem := name.take length
  let rest := name.drop length
  let stamp := (rest.drop 1).take 15
  if !stem.contains '\n' && rest[0]? == some '-' && isStamp stamp && rest[16]? == some 'Z' &&
    isTail (rest.drop 17) then some ⟨stem, stamp⟩ else none

/-- The stem `.+` is as long as it can be. -/
def longest (name : Name) : Nat → Option Match
  | 0 => none
  | length + 1 =>
    match matchAt name (length + 1) with
    | some m => some m
    | none => longest name length

def matchName (name : Name) : Option Match := longest name name.length

/-- The fields of a moment down to its second. -/
abbrev Second := List Nat

def secondOf (d : DateTime) : Second := [d.year, d.month, d.day, d.hour, d.minute, d.second]

def number (s : Name) : Nat := Nat.ofDigitChars 10 s 0

/-- `strptime` of a stamp. -/
def strptime (stamp : Name) : Option Second :=
  let year := number (stamp.take 4)
  let month := number ((stamp.drop 4).take 2)
  let day := number ((stamp.drop 6).take 2)
  let hour := number ((stamp.drop 9).take 2)
  let minute := number ((stamp.drop 11).take 2)
  let second := number ((stamp.drop 13).take 2)
  if 1 ≤ year ∧ (1 ≤ month ∧ month ≤ 12) ∧ (1 ≤ day ∧ day ≤ daysInMonth year month) ∧
    hour < 24 ∧ minute < 60 ∧ second < 60 then some [year, month, day, hour, minute, second]
  else none

def parseBackupMoment (name : Name) : Option Second := (matchName name).bind fun m => strptime m.stamp

def backupPrefix (name : Name) : Option Name := (matchName name).map Match.stem

def isBackupName (name : Name) (stem : Option Name) : Bool :=
  (parseBackupMoment name).isSome && stem.all fun s => backupPrefix name == some s

def sortedBackups (names : List Name) (stem : Option Name) : List Name :=
  Rows.orderBy (fun name => toLex ((parseBackupMoment name).getD [], name))
    (names.filter fun name => isBackupName name stem)

/-! ## 3. A name that was made is read back -/

variable {stem name : Name} {d : DateTime} {ordinal : Nat} {c : Char}

theorem padded_digit {width n : Nat} (h : c ∈ padded width n) : c.isDigit = true := by
  rw [padded, List.leftpad, List.mem_append] at h
  rcases h with h | h
  · rw [List.eq_of_mem_replicate h]
    rfl
  · exact Json.digits_isDigit h

theorem padded_four (h : d.year ≤ 9999) : (padded 4 d.year).length = 4 :=
  padded_length (by decide) (by omega)

theorem padded_two {n : Nat} (h : n < 60) : (padded 2 n).length = 2 :=
  padded_length (by decide) (by omega)

theorem day_lt (d : DateTime) : d.day < 60 := by
  have h := d.day_bounds.2
  unfold daysInMonth at h
  split at h
  · split at h <;> omega
  · split at h <;> omega

/-- The pieces of a stamp. -/
structure Pieces (d : DateTime) : Prop where
  year : (padded 4 d.year).length = 4
  month : (padded 2 d.month).length = 2
  day : (padded 2 d.day).length = 2
  hour : (padded 2 d.hour).length = 2
  minute : (padded 2 d.minute).length = 2
  second : (padded 2 d.second).length = 2

theorem pieces (d : DateTime) : Pieces d where
  year := padded_four d.year_le
  month := padded_two (by have := d.month_bounds; omega)
  day := padded_two (day_lt d)
  hour := padded_two (by have := d.hour_lt; omega)
  minute := padded_two d.minute_lt
  second := padded_two d.second_lt

theorem stampOf_length (d : DateTime) : (stampOf d).length = 15 := by
  have h := pieces d
  simp only [stampOf, List.length_append, List.length_cons, h.year, h.month, h.day, h.hour, h.minute,
    h.second]

theorem stampOf_char (h : c ∈ stampOf d) : c.isDigit = true ∨ c = '-' := by
  simp only [stampOf, List.mem_append, List.mem_cons] at h
  rcases h with h | h | h | h | h | h | h
  · exact .inl (padded_digit h)
  · exact .inl (padded_digit h)
  · exact .inl (padded_digit h)
  · exact .inr h
  · exact .inl (padded_digit h)
  · exact .inl (padded_digit h)
  · exact .inl (padded_digit h)

/-- The stamp in two halves. -/
theorem stampOf_halves (d : DateTime) : ∃ a b, stampOf d = a ++ '-' :: b ∧ a.length = 8 ∧
    (∀ c ∈ a, c.isDigit = true) ∧ ∀ c ∈ b, c.isDigit = true := by
  have h := pieces d
  refine ⟨padded 4 d.year ++ (padded 2 d.month ++ padded 2 d.day),
    padded 2 d.hour ++ (padded 2 d.minute ++ padded 2 d.second), ?_, ?_, ?_, ?_⟩
  · simp only [stampOf, List.append_assoc]
  · simp only [List.length_append, h.year, h.month, h.day]
  · intro c hc
    simp only [List.mem_append] at hc
    rcases hc with hc | hc | hc <;> exact padded_digit hc
  · intro c hc
    simp only [List.mem_append] at hc
    rcases hc with hc | hc | hc <;> exact padded_digit hc

theorem isStamp_stampOf (d : DateTime) : isStamp (stampOf d) = true := by
  have hlength := stampOf_length d
  obtain ⟨a, b, heq, ha, hda, hdb⟩ := stampOf_halves d
  have hdrop : (a ++ '-' :: b).drop 9 = b := by
    rw [show 9 = 8 + 1 from rfl, ← List.drop_drop, List.drop_left' ha]
    rfl
  rw [isStamp, hlength, heq, List.take_left' ha, List.getElem?_append_right ha.le, ha, hdrop,
    List.all_eq_true.mpr hda, List.all_eq_true.mpr hdb]
  rfl

theorem strptime_stampOf (h : 1 ≤ d.year) : strptime (stampOf d) = some (secondOf d) := by
  have hp := pieces d
  have hyear : (stampOf d).take 4 = padded 4 d.year := List.take_left' hp.year
  have hmonth : ((stampOf d).drop 4).take 2 = padded 2 d.month := by
    rw [stampOf, List.drop_left' hp.year, List.take_left' hp.month]
  have hday : ((stampOf d).drop 6).take 2 = padded 2 d.day := by
    rw [show 6 = 4 + 2 from rfl, ← List.drop_drop, stampOf, List.drop_left' hp.year,
      List.drop_left' hp.month, List.take_left' hp.day]
  have hbehind : (stampOf d).drop 9 =
      padded 2 d.hour ++ (padded 2 d.minute ++ padded 2 d.second) := by
    rw [show 9 = 4 + 2 + 2 + 1 from rfl, ← List.drop_drop, ← List.drop_drop, ← List.drop_drop, stampOf,
      List.drop_left' hp.year, List.drop_left' hp.month, List.drop_left' hp.day]
    rfl
  have hhour : ((stampOf d).drop 9).take 2 = padded 2 d.hour := by
    rw [hbehind, List.take_left' hp.hour]
  have hminute : ((stampOf d).drop 11).take 2 = padded 2 d.minute := by
    rw [show 11 = 9 + 2 from rfl, ← List.drop_drop, hbehind, List.drop_left' hp.hour,
      List.take_left' hp.minute]
  have hsecond : ((stampOf d).drop 13).take 2 = padded 2 d.second := by
    rw [show 13 = 9 + 2 + 2 from rfl, ← List.drop_drop, ← List.drop_drop, hbehind,
      List.drop_left' hp.hour, List.drop_left' hp.minute, List.take_of_length_le hp.second.le]
  simp only [strptime, hyear, hmonth, hday, hhour, hminute, hsecond, number, ofDigitChars_padded]
  rw [if_pos ⟨h, d.month_bounds, d.day_bounds, d.hour_lt, d.minute_lt, d.second_lt⟩]
  rfl

theorem ordinal_digit (h : c ∈ Nat.toDigits 10 ordinal) : c.isDigit = true := Json.digits_isDigit h

/-- The suffix behind the ordinal. -/
theorem skipGroup_ordinal (ordinal : Nat) :
    skipGroup ['-'] (ordinalSuffix ordinal ++ backupSuffix) = backupSuffix := by
  unfold ordinalSuffix
  by_cases ho : ordinal ≤ 1
  · rw [if_pos ho]
    rfl
  · rw [if_neg ho]
    cases hdigits : Nat.toDigits 10 ordinal with
    | nil => exact absurd hdigits Nat.toDigits_ne_nil
    | cons c cs =>
      have hall : ∀ x ∈ c :: cs, x.isDigit = true := fun x hx => ordinal_digit (hdigits ▸ hx)
      have hmark : List.isPrefixOf ['-'] ('-' :: ((c :: cs) ++ backupSuffix)) = true := by
        simp [List.isPrefixOf]
      have hhead : (((c :: cs) ++ backupSuffix).head?).any Char.isDigit = true :=
        hall c List.mem_cons_self
      show skipGroup ['-'] ('-' :: ((c :: cs) ++ backupSuffix)) = _
      rw [skipGroup, hmark]
      show (if (true && (((c :: cs) ++ backupSuffix).head?).any Char.isDigit) = true then
        ((c :: cs) ++ backupSuffix).dropWhile Char.isDigit else _) = _
      rw [hhead, Bool.and_self, if_pos rfl, List.dropWhile_append_of_pos hall]
      rfl

theorem isTail_suffix (ordinal : Nat) : isTail (ordinalSuffix ordinal ++ backupSuffix) = true := by
  have hformat : skipGroup ['.', 'v'] backupSuffix = backupSuffix := rfl
  simp only [isTail, skipGroup_ordinal, hformat, if_true]
  rfl

/-- The one `Z` behind the stem. -/
theorem getElem?_z {j : Nat}
    (h : ('-' :: (stampOf d ++ 'Z' :: (ordinalSuffix ordinal ++ backupSuffix)))[j]? =
    some 'Z') : j = 16 := by
  have hz : ∀ c : Char, c.isDigit = true ∨ c = '-' ∨ c ∈ backupSuffix → c ≠ 'Z' := by
    rintro c (hc | hc | hc) rfl <;> revert hc <;> decide
  have hlength := stampOf_length d
  have hfront : ∀ c ∈ '-' :: stampOf d, c ≠ 'Z' := by
    intro c hc
    rcases List.mem_cons.mp hc with hc | hc
    · exact hz c (.inr (.inl hc))
    · rcases stampOf_char hc with hc | hc
      · exact hz c (.inl hc)
      · exact hz c (.inr (.inl hc))
  have hback : ∀ c ∈ ordinalSuffix ordinal ++ backupSuffix, c ≠ 'Z' := by
    intro c hc
    rcases List.mem_append.mp hc with hc | hc
    · unfold ordinalSuffix at hc
      split at hc
      · cases hc
      · rcases List.mem_cons.mp hc with hc | hc
        · exact hz c (.inr (.inl hc))
        · exact hz c (.inl (ordinal_digit hc))
    · exact hz c (.inr (.inr hc))
  rw [← List.cons_append] at h
  by_cases hj : j < 16
  · rw [List.getElem?_append_left (by simp only [List.length_cons, hlength]; exact hj)] at h
    exact absurd rfl (hfront _ (List.mem_of_getElem? h))
  · rw [List.getElem?_append_right (by simp only [List.length_cons, hlength]; omega)] at h
    simp only [List.length_cons, hlength] at h
    rcases Nat.eq_or_lt_of_le (Nat.le_of_not_lt hj) with hj | hj
    · exact hj.symm
    · obtain ⟨k, hk⟩ := Nat.exists_eq_add_of_lt hj
      rw [show j - (15 + 1) = k + 1 by omega, List.getElem?_cons_succ] at h
      exact absurd rfl (hback _ (List.mem_of_getElem? h))

theorem longest_eq {n k : Nat} {m : Match} (hk : 0 < k) (hle : k ≤ n) (hm : matchAt name k = some m)
    (hlonger : ∀ i, k < i → matchAt name i = none) : longest name n = some m := by
  induction n with
  | zero => omega
  | succ n ih =>
    rw [longest]
    rcases Nat.eq_or_lt_of_le hle with rfl | hlt
    · rw [hm]
    · rw [hlonger (n + 1) hlt]
      exact ih (by omega)

/-- **A name that was made** is matched with its own stem and stamp. -/
theorem matchName_filename (hne : stem ≠ []) (hline : '\n' ∉ stem) :
    matchName (backupFilename stem d ordinal) = some ⟨stem, stampOf d⟩ := by
  have hlength := stampOf_length d
  refine longest_eq (k := stem.length) (List.length_pos_iff.mpr hne) ?_ ?_ ?_
  · rw [backupFilename, List.length_append]
    omega
  · have hstamp : ((stampOf d ++ 'Z' :: (ordinalSuffix ordinal ++ backupSuffix))).take 15 = stampOf d :=
      List.take_left' hlength
    have hz : ('-' :: (stampOf d ++ 'Z' :: (ordinalSuffix ordinal ++ backupSuffix)))[16]? =
      some 'Z' := by
      rw [List.getElem?_cons_succ, List.getElem?_append_right hlength.le, hlength]
      rfl
    have htail : ('-' :: (stampOf d ++ 'Z' :: (ordinalSuffix ordinal ++ backupSuffix))).drop 17 =
        ordinalSuffix ordinal ++ backupSuffix := by
      rw [List.drop_succ_cons, show 16 = 15 + 1 from rfl, ← List.drop_drop, List.drop_left' hlength]
      rfl
    have hstem : stem.contains '\n' = false := by simpa using hline
    rw [matchAt, backupFilename, List.take_left' rfl, List.drop_left' rfl, List.drop_one,
      List.tail_cons,
      hstamp, hz, htail, isTail_suffix, isStamp_stampOf, hstem]
    rfl
  · intro i hi
    rw [matchAt, if_neg]
    intro hall
    simp only [Bool.and_eq_true, beq_iff_eq] at hall
    obtain ⟨⟨_, hz⟩, -⟩ := hall
    rw [backupFilename, List.getElem?_drop, List.getElem?_append_right (by omega)] at hz
    have hsix := getElem?_z hz
    omega

theorem backupPrefix_filename (hne : stem ≠ []) (hline : '\n' ∉ stem) :
    backupPrefix (backupFilename stem d ordinal) = some stem := by
  rw [backupPrefix, matchName_filename hne hline]
  rfl

theorem parseBackupMoment_filename (hne : stem ≠ []) (hline : '\n' ∉ stem) (hyear : 1 ≤ d.year) :
    parseBackupMoment (backupFilename stem d ordinal) = some (secondOf d) := by
  rw [parseBackupMoment, matchName_filename hne hline]
  exact strptime_stampOf hyear

/-! ## 4. Reservations one after another -/

/-- The folder, and what has been reserved in it under one stem. -/
structure Folder where
  names : List Name
  reserved : List (DateTime × Name) := []

inductive Action
  | reserve (moment : DateTime)
  /-- A file of another kind appears. -/
  | appear (name : Name)

/-- A reservation at a moment of the clock that is not before the last one; nothing is removed. -/
def step (stem : Name) (w : Folder) : Action → Option Folder
  | .reserve moment =>
    if 1 ≤ moment.year ∧ w.reserved.all (fun r => !moment.before r.1) then
      (reserveBackupName w.names stem moment).map fun name =>
        { names := name :: w.names, reserved := w.reserved ++ [(moment, name)] }
    else none
  | .appear name => some { w with names := name :: w.names }

/-- **What every step keeps**: the names reserved are in the folder and differ, each made from its own
    moment, and the moments follow each other. -/
structure Sound (stem : Name) (w : Folder) : Prop where
  made : ∀ r ∈ w.reserved, 1 ≤ r.1.year ∧ ∃ ordinal, r.2 = backupFilename stem r.1 ordinal
  there : ∀ r ∈ w.reserved, r.2 ∈ w.names
  distinct : (w.reserved.map Prod.snd).Nodup
  ordered : (w.reserved.map Prod.fst).Pairwise fun a b => b.before a = false

variable {w w' : Folder} {a : Action}

theorem reserve_name (h : reserveBackupName w.names stem d = some name) :
    name ∉ w.names ∧ ∃ ordinal, name = backupFilename stem d ordinal := by
  obtain ⟨ordinal, -, rfl⟩ := List.mem_map.mp (List.mem_of_find?_eq_some h)
  have hfree := List.find?_some h
  exact ⟨by simpa using hfree, ordinal, rfl⟩

theorem step_sound (hs : Sound stem w) (h : step stem w a = some w') : Sound stem w' := by
  cases a with
  | appear name =>
    cases h
    exact ⟨hs.made, fun r hr => List.mem_cons_of_mem name (hs.there r hr), hs.distinct, hs.ordered⟩
  | reserve moment =>
    simp only [step] at h
    split at h
    · rename_i hc
      obtain ⟨name, hname, rfl⟩ := Option.map_eq_some_iff.mp h
      obtain ⟨hfree, hmade⟩ := reserve_name hname
      refine ⟨?_, ?_, ?_, ?_⟩
      · intro r hr
        rcases List.mem_append.mp hr with hr | hr
        · exact hs.made r hr
        · rw [List.mem_singleton.mp hr]
          exact ⟨hc.1, hmade⟩
      · intro r hr
        rcases List.mem_append.mp hr with hr | hr
        · exact List.mem_cons_of_mem name (hs.there r hr)
        · rw [List.mem_singleton.mp hr]
          exact List.mem_cons_self
      · rw [List.map_append, List.nodup_append]
        refine ⟨hs.distinct, List.nodup_singleton name, fun x hx y hy => ?_⟩
        rw [List.mem_singleton.mp hy]
        obtain ⟨r, hr, rfl⟩ := List.mem_map.mp hx
        intro he
        exact hfree (Eq.subst (motive := fun x => x ∈ w.names) he (hs.there r hr))
      · rw [List.map_append, List.pairwise_append]
        refine ⟨hs.ordered, List.pairwise_singleton _ _, fun x hx y hy => ?_⟩
        rw [List.mem_singleton.mp hy]
        obtain ⟨r, hr, rfl⟩ := List.mem_map.mp hx
        simpa using List.all_eq_true.mp hc.2 r hr
    · cases h

/-- The names in the order of their reservations. -/
def Folder.inOrder (w : Folder) : List Name := w.reserved.map Prod.snd

/-- Moments that follow each other are of seconds that do. -/
theorem secondOf_le {d e : DateTime} (h : e.before d = false) : secondOf d ≤ secondOf e := by
  have hle : ¬ e.fields < d.fields := of_decide_eq_false h
  refine not_lt.mp fun hlt => hle ?_
  simp only [DateTime.fields, secondOf, List.cons_lt_cons_iff, List.not_lt_nil, and_false,
    or_false] at hlt ⊢
  omega

theorem Sound.reads (hs : Sound stem w) (hne : stem ≠ []) (hline : '\n' ∉ stem) :
    ∀ r ∈ w.reserved, backupPrefix r.2 = some stem ∧ parseBackupMoment r.2 = some (secondOf r.1) := by
  intro r hr
  obtain ⟨hyear, ordinal, hname⟩ := hs.made r hr
  rw [hname]
  exact ⟨backupPrefix_filename hne hline, parseBackupMoment_filename hne hline hyear⟩

theorem Sound.moments (hs : Sound stem w) (hne : stem ≠ []) (hline : '\n' ∉ stem) :
    w.inOrder.map parseBackupMoment = w.reserved.map fun r => some (secondOf r.1) := by
  rw [Folder.inOrder, List.map_map]
  exact List.map_congr_left fun r hr => (hs.reads hne hline r hr).2

theorem Sound.sorted_perm (hs : Sound stem w) (hne : stem ≠ []) (hline : '\n' ∉ stem) :
    (sortedBackups w.inOrder (some stem)).Perm w.inOrder := by
  have hall : ∀ name ∈ w.inOrder, isBackupName name (some stem) = true := by
    intro name hname
    obtain ⟨r, hr, rfl⟩ := List.mem_map.mp hname
    obtain ⟨hstem, hmoment⟩ := hs.reads hne hline r hr
    rw [isBackupName, hmoment, Option.all_some, hstem]
    simp
  rw [sortedBackups, List.filter_eq_self.mpr hall]
  exact Rows.orderBy_perm _ _

/-- The seconds of the sorted names are those of the reservations, in their order. -/
theorem Sound.sorted_moments (hs : Sound stem w) (hne : stem ≠ []) (hline : '\n' ∉ stem) :
    (sortedBackups w.inOrder (some stem)).map parseBackupMoment =
      w.inOrder.map parseBackupMoment := by
  have hperm := hs.sorted_perm hne hline
  have hsome : ∀ name ∈ w.inOrder, ∃ s, parseBackupMoment name = some s := by
    intro name hname
    obtain ⟨r, hr, rfl⟩ := List.mem_map.mp hname
    exact ⟨_, (hs.reads hne hline r hr).2⟩
  have hget : ∀ l : List Name, (∀ name ∈ l, ∃ s, parseBackupMoment name = some s) →
      l.map parseBackupMoment = (l.map fun n => (parseBackupMoment n).getD []).map some := by
    intro l hl
    rw [List.map_map]
    refine List.map_congr_left fun name hname => ?_
    obtain ⟨s, hs⟩ := hl name hname
    simp [hs]
  rw [hget _ hsome, hget _ fun name hname => hsome name (hperm.mem_iff.mp hname)]
  congr 1
  have hsorted : ((sortedBackups w.inOrder (some stem)).map fun n =>
      (parseBackupMoment n).getD []).Pairwise (· ≤ ·) := by
    refine List.pairwise_map.mpr ((Rows.orderBy_pairwise _ _).imp fun {a b} hab => ?_)
    rcases Prod.Lex.toLex_le_toLex.mp hab with h | ⟨h, -⟩
    · exact le_of_lt h
    · exact le_of_eq h
  have hreserved : (w.inOrder.map fun n => (parseBackupMoment n).getD []).Pairwise (· ≤ ·) := by
    have hmoments := congrArg (List.map fun o => o.getD []) (hs.moments hne hline)
    rw [List.map_map, List.map_map] at hmoments
    rw [show (fun n => (parseBackupMoment n).getD []) = (fun o => Option.getD o []) ∘ parseBackupMoment
      from rfl, hmoments]
    exact List.pairwise_map.mpr ((List.pairwise_map.mp hs.ordered).imp secondOf_le)
  exact List.Perm.eq_of_pairwise (fun a b _ _ h1 h2 => le_antisymm h1 h2) hsorted hreserved
    (hperm.map _)

/-- **Names are read back, and sort by the seconds of their reservations**; and retention, over the
    backups of these names, names none that is of a later second than one it leaves, but where that
    one is the newest that passed, or is protected, or where the one it names failed. -/
theorem names_read_back {names : List Name} {as : List Action} (hne : stem ≠ [])
    (hline : '\n' ∉ stem) (h : run (step stem) { names } as = some w) :
    (∀ r ∈ w.reserved, backupPrefix r.2 = some stem ∧
      parseBackupMoment r.2 = some (secondOf r.1)) ∧
    (sortedBackups w.inOrder (some stem)).Perm w.inOrder ∧
    (sortedBackups w.inOrder (some stem)).map parseBackupMoment =
      w.reserved.map (fun r => some (secondOf r.1)) ∧
    ∀ (backups : List (StoredBackup Name Second)) (keep : Nat) (protect : List Name) (b c),
      (backups.map StoredBackup.name).Nodup → 1 ≤ keep → b ∈ backups → c ∈ backups →
      c.moment < b.moment → b.counts = true →
      ∃ stale limited, staleStoredBackups backups keep = .ok stale ∧
        staleBeyondLimit backups keep protect = .ok limited ∧
        (b.name ∈ stale → c.name ∉ stale → IsNewestPassed backups c) ∧
        (b.name ∈ limited → c.name ∉ limited → c.name ∈ protect ∨ IsNewestPassed backups c) := by
  have hs : Sound stem w := run_invariant (fun _ _ _ hstep hs => step_sound hs hstep) h
    ⟨nofun, nofun, List.nodup_nil, List.Pairwise.nil⟩
  refine ⟨hs.reads hne hline, hs.sorted_perm hne hline,
    (hs.sorted_moments hne hline).trans (hs.moments hne hline), ?_⟩
  intro backups keep protect b c hn hk hb hc hlater hcounts
  have hyounger : b.key < c.key :=
    OrderDual.toDual_lt_toDual.mpr (Prod.Lex.toLex_lt_toLex.mpr (.inl hlater))
  refine ⟨_, _, staleStoredBackups_eq hk, staleBeyondLimit_eq hk, fun hgone hleft => ?_,
    fun hgone hleft => ?_⟩
  · have hstale := (mem_staleNames hn hb).mp hgone
    rcases hstale.younger hc (fun h => hleft ((mem_staleNames hn hc).mpr h)) hyounger with h | h
    · exact h
    · rw [hcounts] at h
      cases h
  · rcases beyondLimit_younger hn hb hc hgone hleft hyounger with h | h
    · rw [spared_eq] at h
      rcases List.mem_append.mp h with h | h
      · exact .inl h
      · obtain ⟨v, hv, hname⟩ := Option.map_eq_some_iff.mp (Option.mem_toList.mp h)
        have hnewest := (newestPassed_iff hn).mp hv
        exact .inr (eq_of_name hn hnewest.mem hc hname ▸ hnewest)
    · rw [hcounts] at h
      cases h

/-! ## 5. Runs -/

def atSecond (second : Fin 60) : DateTime where
  year := 2026
  month := 7
  day := 28
  hour := 2
  minute := 0
  second := second
  microsecond := 0
  aware := true
  year_le := Nat.le_add_right 2026 7973
  month_bounds := by decide
  day_bounds := by decide
  hour_lt := by decide
  minute_lt := Nat.zero_lt_succ _
  second_lt := second.2
  microsecond_lt := Nat.zero_lt_succ _

def fullHour : DateTime := atSecond 0

theorem names_read_back_two : ∃ w, run (step ['p', '-', '1'])
    { names := [] } [.reserve (atSecond 0), .reserve (atSecond 1)] = some w ∧
      (sortedBackups w.inOrder (some ['p', '-', '1'])).Perm w.inOrder := by
  have hrun : ∃ w, run (step ['p', '-', '1']) { names := [] }
      [.reserve (atSecond 0), .reserve (atSecond 1)] = some w := ⟨_, rfl⟩
  obtain ⟨w, hw⟩ := hrun
  exact ⟨w, hw, (names_read_back (by decide) (by decide) hw).2.1⟩

/-- Four backups; the oldest passed, of the others nothing is known. -/
def fourNames : List (StoredBackup Name Second) :=
  [⟨backupFilename ['p'] (atSecond 0) 1, secondOf (atSecond 0), .passed, nofun⟩,
    ⟨backupFilename ['p'] (atSecond 1) 1, secondOf (atSecond 1), .unknown, nofun⟩,
    ⟨backupFilename ['p'] (atSecond 2) 1, secondOf (atSecond 2), .unknown, nofun⟩,
    ⟨backupFilename ['p'] (atSecond 3) 1, secondOf (atSecond 3), .unknown, nofun⟩]

/-- **The order is not kept**: an empty prefix and one with a line break are not read back, the second
    name of a second sorts before the first, and retention takes a backup that was made later than the
    one it leaves because that one passed. -/
theorem order_not_kept :
    (∀ stem ∈ [[], ['p', '\n']], ∃ w name,
    run (step stem) { names := [] } [.reserve (atSecond 0)] = some w ∧
      name ∈ w.inOrder ∧ backupPrefix name = none) ∧
    (∃ w, run (step ['p']) { names := [] } [.reserve (atSecond 0), .reserve (atSecond 0)] = some w ∧
      sortedBackups w.inOrder (some ['p']) ≠ w.inOrder) ∧
    (∃ w stale, run (step ['p']) { names := [] } [.reserve (atSecond 0), .reserve (atSecond 1),
        .reserve (atSecond 2), .reserve (atSecond 3)] = some w ∧
      w.inOrder = fourNames.map StoredBackup.name ∧
      staleStoredBackups fourNames 2 = .ok stale ∧
      backupFilename ['p'] (atSecond 1) 1 ∈ stale ∧ backupFilename ['p'] (atSecond 0) 1 ∉ stale) := by
  refine ⟨?_, ⟨_, rfl, by decide +kernel⟩,
    ⟨_, _, rfl, by decide +kernel, staleStoredBackups_eq (by decide),
    by decide +kernel, by decide +kernel⟩⟩
  intro stem hstem
  rcases List.mem_pair.mp hstem with rfl | rfl <;>
    exact ⟨_, _, rfl, List.mem_singleton.mpr rfl, by decide +kernel⟩

end Dbs.Naming

/-
  File:      Dbs/TwoFactor.lean
  Subject:   THE SECOND FACTOR OF A SIGN-IN (accounts/totp.py, two_factor_service.py and
             account_repository.py): six digits of a time step, or a recovery code.

  Python's tables of characters, HMAC-SHA1, the vault and the framework's fields are parameters. A
  request reads the account, computes, and then claims the step or the code in one conditional update.

  * `matchingStep` -- with what it raises; `useRecoveryCode`, `verify` -- the service;
  * `Matches` -- the code is that of a step in the window behind the last accepted one;
  * `Comparable` -- where the comparison can be made;
  * `second_factor_answers` -- both answer, and rightly, for exactly these codes and accounts;
  * `indic_digits_raise` -- digits that are no ASCII pass the check and cannot be compared;
  * `World`, `step` -- any number of attempts on one account, interleaved;
  * `used_once` -- the accepted steps increase, and no recovery code is accepted twice.
-/
import Dbs.Lib.Base32
import Dbs.Primitives
import Dbs.Lib.Runs
import Dbs.Remote.Redaction
import Mathlib.Data.Rat.Floor

namespace Dbs.TwoFactor

open Octets
open Remote.Redaction (isSpace strip)

abbrev Text := List Char

/-! ## 1. What is taken from outside -/

def isAscii (c : Char) : Bool := c.toNat < 128

/-- What `str` knows of the characters. -/
structure Unicode where
  isDigit : Char → Bool
  isAlnum : Char → Bool
  lower : Text → Text
  upper : Text → Text
  isDigit_of_ascii : ∀ c, c.isDigit = true → isDigit c = true
  upper_of_upper : ∀ t : Text, (∀ c ∈ t, isAscii c = true ∧ c.isLower = false) → upper t = t

/-- HMAC-SHA1, and the vault under the installation's keys. -/
structure Vault where
  hmacSha1 : (key data : Bytes) → Bytes
  hmacSha1_length : ∀ key data, (hmacSha1 key data).length = 20
  /-- `unseal_text`; nothing where it raises `VaultError`. -/
  unsealText : (sealed : Bytes) → (context : String) → Option Text
  fingerprint : (data : Bytes) → (context : String) → String

/-- What a check may raise. -/
inductive Failure
  | binasciiError
  | structError
  | typeError
  | unicodeEncodeError
deriving DecidableEq

section Functions

variable (U : Unicode) (V : Vault)

/-! ## 2. Codes of time steps -/

def codeDigits : Nat := 6

def period : Nat := 30

def secretBytes (secret : Text) : Except Failure Bytes :=
  let cleaned := U.upper (secret.filter fun c => !isSpace c)
  match Base32.decode (cleaned ++ List.replicate ((8 - cleaned.length % 8) % 8) Base32.pad) with
  | some key => .ok key
  | none => .error .binasciiError

def zfill (width : Nat) (t : Text) : Text := List.replicate (width - t.length) '0' ++ t

/-- The four bytes of the digest that its last one points to, less the highest bit. -/
def number (digest : Bytes) : Nat :=
  let offset := (digest.getLastD 0).toNat % 16
  ofBe (slice digest offset 4) % 2 ^ 31

/-- `struct.pack(">Q", counter)` refuses what eight bytes do not hold. -/
def hotp (key : Bytes) (counter : Int) : Except Failure Text :=
  if 0 ≤ counter ∧ counter < 2 ^ 64 then
    .ok (zfill codeDigits
      (Nat.toDigits 10 (number (V.hmacSha1 key (toBe 8 counter.toNat)) % 10 ^ codeDigits)))
  else .error .structError

def stepAt (moment : ℚ) : Int := ⌊moment / period⌋

def normalised (code : Text) : Text := code.filter fun c => !isSpace c

/-- `hmac.compare_digest` of two strings. -/
def compareDigest (a b : Text) : Except Failure Bool :=
  if a.all isAscii && b.all isAscii then .ok (a == b) else .error .typeError

/-- `range(current - DRIFT_STEPS, current + DRIFT_STEPS + 1)`. -/
def window (current : Int) : List Int := [current - 1, current, current + 1]

/-- Not `after is not None and step <= after`. -/
def Later (after : Option Int) (step : Int) : Prop := ∀ last ∈ after, last < step

instance (after : Option Int) (step : Int) : Decidable (Later after step) :=
  inferInstanceAs (Decidable (∀ last ∈ after, last < step))

def matchFrom (key : Bytes) (typed : Text) (after : Option Int) :
    List Int → Except Failure (Option Int)
  | [] => .ok none
  | step :: steps =>
    if ¬ Later after step then matchFrom key typed after steps
    else do
      let code ← hotp V key step
      if ← compareDigest code typed then return some step
      matchFrom key typed after steps

/-- Six characters, each a digit to `str.isdigit`. -/
def WellTyped (typed : Text) : Prop := typed.length = codeDigits ∧ typed.all U.isDigit

instance (typed : Text) : Decidable (WellTyped U typed) :=
  inferInstanceAs (Decidable (typed.length = codeDigits ∧ typed.all U.isDigit))

def matchingStep (secret code : Text) (moment : ℚ) (after : Option Int) :
    Except Failure (Option Int) :=
  let typed := normalised code
  if ¬ WellTyped U typed then .ok none
  else do
    let key ← secretBytes U secret
    matchFrom V key typed after (window (stepAt moment))

/-! ## 3. The account, and the service -/

/-- What sign-in reads of an account. -/
structure Account where
  pk : Nat
  totpSecretSealed : Option Bytes
  totpEnrolledAt : Option ℚ
  totpLastStep : Option Int

def Account.hasTwoFactor (account : Account) : Bool :=
  account.totpSecretSealed.isSome && account.totpEnrolledAt.isSome

/-- A recovery code of the account. -/
structure RecoveryCode where
  id : Nat
  digest : String
  usedAt : Option ℚ

/-- The rows of one account. -/
structure Db where
  account : Account
  codes : List RecoveryCode

def secretContext (account : Account) : String := "accounts.totp:" ++ toString account.pk

def recoveryContext (account : Account) : String := "accounts.recovery:" ++ toString account.pk

/-- `claim_step`, one conditional update. -/
def claimStep (step : Int) (db : Db) : Bool × Db :=
  if Later db.account.totpLastStep step then
    (true, { db with account := { db.account with totpLastStep := some step } })
  else (false, db)

def RecoveryCode.unused (digest : String) (code : RecoveryCode) : Bool :=
  code.digest == digest && code.usedAt.isNone

/-- The repository's `use_recovery_code`: all unused rows of the digest are marked, and it was the code
    if there was one. -/
def markUsed (digest : String) (now : ℚ) (db : Db) : Bool × Db :=
  ((db.codes.filter fun code => code.unused digest).length == 1,
    { db with codes := db.codes.map fun code =>
      if code.unused digest then { code with usedAt := some now } else code })

/-- `verify` up to the claim: the step that the code is of, as the account was read. -/
def verified (account : Account) (code : Text) (now : ℚ) : Except Failure (Option Int) :=
  if ¬ account.hasTwoFactor then .ok none
  else match account.totpSecretSealed.bind (V.unsealText · (secretContext account)) with
    | none => .ok none
    | some secret => matchingStep U V secret code now account.totpLastStep

def typedRecoveryCode (code : Text) : Text := (U.lower code).filter U.isAlnum

/-- `_digest`. -/
def digestOf (account : Account) (typed : Text) : Except Failure String :=
  if typed.all isAscii then
    .ok (V.fingerprint (typed.map fun c => UInt8.ofNat c.toNat) (recoveryContext account))
  else .error .unicodeEncodeError

/-- The service's `use_recovery_code` up to the update: the digest to be looked for. -/
def recovered (account : Account) (code : Text) : Except Failure (Option String) :=
  let typed := typedRecoveryCode U code
  if typed = [] ∨ ¬ account.hasTwoFactor then .ok none
  else (digestOf V account typed).map some

/-- `use_recovery_code`, with the account as it was read. -/
def useRecoveryCode (account : Account) (code : Text) (now : ℚ) (db : Db) :
    Except Failure (Bool × Db) := do
  match ← recovered U V account code with
  | none => return (false, db)
  | some digest => return markUsed digest now db

end Functions

/-! ## 4. What the serializer lets through -/

/-- The framework's `CharField` with `trim_whitespace`, by its longest text and whether it may be
    blank. -/
structure CharField where
  run : (maxLength : Nat) → (allowBlank : Bool) → Text → Option Text
  /-- A text that is not too long, has nothing to be trimmed and no NUL, passes as it is. -/
  run_trimmed : ∀ maxLength allowBlank data, data ≠ [] → strip data = data →
    data.length ≤ maxLength → Char.ofNat 0 ∉ data → run maxLength allowBlank data = some data

def codeMaxLength : Nat := 32

/-- `CodeSerializer`: neither field is required, but one must not be empty. -/
def codeSerializer (field : CharField) (code recoveryCode : Option Text) : Option (Text × Text) := do
  let code ← code.elim (some []) (field.run codeMaxLength true)
  let recoveryCode ← recoveryCode.elim (some []) (field.run codeMaxLength true)
  if code = [] ∧ recoveryCode = [] then none else some (code, recoveryCode)

/-- A field that trims first and then looks at the rest. -/
def CharField.trimming : CharField where
  run maxLength allowBlank data :=
    if strip data = [] then if allowBlank then some [] else none
    else if (strip data).length ≤ maxLength ∧ Char.ofNat 0 ∉ strip data then some (strip data)
    else none
  run_trimmed maxLength allowBlank data hne hstrip hlength hnul := by
    rw [hstrip, if_neg hne, if_pos ⟨hlength, hnul⟩]

/-! ## 5. The values of steps -/

section Answers

def InRange (step : Int) : Prop := 0 ≤ step ∧ step < 2 ^ 64

variable {U : Unicode} {V : Vault} {key : Bytes} {typed : Text} {after : Option Int} {step : Int}
  {steps : List Int}

theorem isAscii_of_isDigit {c : Char} (h : c.isDigit = true) : isAscii c = true := by
  simp only [Char.isDigit, Bool.and_eq_true, decide_eq_true_iff] at h
  have hle : c.val.toNat ≤ 57 := UInt32.le_iff_toNat_le.mp h.2
  have hlt : c.toNat < 128 := by
    show c.val.toNat < 128
    omega
  exact decide_eq_true hlt

/-- What a step has for a value is six ASCII digits. -/
theorem hotp_digits {code : Text} (h : hotp V key step = .ok code) :
    InRange step ∧ code.length = codeDigits ∧ ∀ c ∈ code, c.isDigit = true := by
  unfold hotp at h
  split at h
  · rename_i hrange
    obtain ⟨n, hn⟩ : ∃ n, n = number (V.hmacSha1 key (toBe 8 step.toNat)) % 10 ^ codeDigits :=
      ⟨_, rfl⟩
    have hcode : zfill codeDigits (Nat.toDigits 10 n) = code := hn ▸ Except.ok.inj h
    have hlen : (Nat.toDigits 10 n).length ≤ codeDigits :=
      (Nat.length_toDigits_le_iff (by decide) (by decide)).mpr (hn ▸ Nat.mod_lt _ (by decide))
    refine ⟨hrange, ?_, fun c hc => ?_⟩
    · rw [← hcode, zfill, List.length_append, List.length_replicate]
      omega
    · rw [← hcode, zfill] at hc
      rcases List.mem_append.mp hc with hc | hc
      · rw [List.eq_of_mem_replicate hc]
        rfl
      · exact Nat.isDigit_of_mem_toDigits (by decide) (by decide) hc
  · cases h

theorem hotp_inRange (h : InRange step) : ∃ code, hotp V key step = .ok code := ⟨_, if_pos h⟩

theorem hotp_not_inRange (h : ¬ InRange step) : hotp V key step = .error .structError := if_neg h

theorem wellTyped_of_hotp (h : hotp V key step = .ok typed) : WellTyped U typed :=
  have ⟨_, hlen, hdigits⟩ := hotp_digits h
  ⟨hlen, List.all_eq_true.mpr fun c hc => U.isDigit_of_ascii c (hdigits c hc)⟩

theorem isAscii_of_hotp {code : Text} (h : hotp V key step = .ok code) : code.all isAscii = true :=
  List.all_eq_true.mpr fun c hc => isAscii_of_isDigit ((hotp_digits h).2.2 c hc)

/-! ## 6. The window -/

/-- The code is that of the step, and the step is behind the last accepted one. -/
def Hits (V : Vault) (key : Bytes) (typed : Text) (after : Option Int) (step : Int) : Prop :=
  Later after step ∧ hotp V key step = .ok typed

/-- **Whatever is compared can be compared**: a step in front of which none hits has a value, and the
    code is ASCII. -/
def Comparable (V : Vault) (key : Bytes) (typed : Text) (after : Option Int) (steps : List Int) :
    Prop :=
  ∀ front step back, steps = front ++ step :: back → Later after step →
    (∀ e ∈ front, ¬ Hits V key typed after e) → InRange step ∧ typed.all isAscii = true

theorem comparable_cons : Comparable V key typed after (step :: steps) ↔
    (Later after step → InRange step ∧ typed.all isAscii = true) ∧
      (¬ Hits V key typed after step → Comparable V key typed after steps) := by
  constructor
  · intro h
    refine ⟨fun hlater => h [] step steps rfl hlater nofun,
      fun hno front s back heq hlater hfront => ?_⟩
    exact h (step :: front) s back (by rw [heq]; rfl) hlater (List.forall_mem_cons.mpr ⟨hno, hfront⟩)
  · rintro ⟨hhead, htail⟩ front s back heq hlater hfront
    cases front with
    | nil =>
      obtain ⟨rfl, -⟩ := List.cons.inj heq
      exact hhead hlater
    | cons e front =>
      obtain ⟨rfl, hrest⟩ := List.cons.inj heq
      obtain ⟨hno, hfront⟩ := List.forall_mem_cons.mp hfront
      exact htail hno front s back hrest hlater hfront

theorem matchFrom_skip (h : ¬ Later after step) :
    matchFrom V key typed after (step :: steps) = matchFrom V key typed after steps := if_pos h

theorem matchFrom_compared {code : Text} (hlater : Later after step)
    (hcode : hotp V key step = .ok code) (htyped : typed.all isAscii = true) :
    matchFrom V key typed after (step :: steps) =
      if code = typed then .ok (some step) else matchFrom V key typed after steps := by
  rw [matchFrom, if_neg (not_not_intro hlater), hcode]
  simp only [bind, Except.bind, compareDigest, isAscii_of_hotp hcode, htyped, Bool.and_self, if_true,
    pure, Except.pure, beq_iff_eq]

theorem matchFrom_raises (hlater : Later after step)
    (h : ¬ (InRange step ∧ typed.all isAscii = true)) :
    ∃ failure, matchFrom V key typed after (step :: steps) = .error failure := by
  rw [matchFrom, if_neg (not_not_intro hlater)]
  by_cases hrange : InRange step
  · obtain ⟨code, hcode⟩ : ∃ code, hotp V key step = .ok code := hotp_inRange hrange
    have htyped : typed.all isAscii = false := Bool.eq_false_iff.mpr fun ht => h ⟨hrange, ht⟩
    refine ⟨.typeError, ?_⟩
    simp only [hcode, bind, Except.bind, compareDigest, htyped, Bool.and_false, Bool.false_eq_true,
      if_false]
  · exact ⟨.structError, by rw [hotp_not_inRange hrange]; rfl⟩

/-- The loop finds a step that hits, if there is one. -/
def Found (V : Vault) (key : Bytes) (typed : Text) (after : Option Int) (steps : List Int) : Prop :=
  ∃ found, matchFrom V key typed after steps = .ok found ∧
    (found.isSome ↔ ∃ step ∈ steps, Hits V key typed after step)

/-- **The loop returns where all it compares can be compared**, and raises elsewhere. -/
theorem matchFrom_spec (V : Vault) (key : Bytes) (typed : Text) (after : Option Int)
    (steps : List Int) :
    Found V key typed after steps ∧ Comparable V key typed after steps ∨
    (∃ failure, matchFrom V key typed after steps = .error failure) ∧
      ¬ Comparable V key typed after steps := by
  induction steps with
  | nil =>
    exact .inl ⟨⟨none, rfl, by simp⟩, fun front s back h => by cases front <;> cases h⟩
  | cons step steps ih =>
    -- a step that does not hit leaves the answer to the others
    have hrest (hno : ¬ Hits V key typed after step)
        (hfit : Later after step → InRange step ∧ typed.all isAscii = true)
        (heq : matchFrom V key typed after (step :: steps) = matchFrom V key typed after steps) :
        Found V key typed after (step :: steps) ∧ Comparable V key typed after (step :: steps) ∨
        (∃ failure, matchFrom V key typed after (step :: steps) = .error failure) ∧
          ¬ Comparable V key typed after (step :: steps) := by
      rw [Found, heq, comparable_cons, List.exists_mem_cons_iff]
      rcases ih with ⟨⟨found, hrun, hfound⟩, hcomparable⟩ | ⟨hraised, hnot⟩
      · refine .inl ⟨⟨found, hrun, hfound.trans ?_⟩, hfit, fun _ => hcomparable⟩
        exact ⟨.inr, fun h => h.resolve_left hno⟩
      · exact .inr ⟨hraised, fun h => hnot (h.2 hno)⟩
    by_cases hlater : Later after step
    · by_cases hfit : InRange step ∧ typed.all isAscii = true
      · obtain ⟨code, hcode⟩ : ∃ code, hotp V key step = .ok code := hotp_inRange hfit.1
        have hrun : matchFrom V key typed after (step :: steps) =
            if code = typed then .ok (some step) else matchFrom V key typed after steps :=
          matchFrom_compared hlater hcode hfit.2
        by_cases heq : code = typed
        · have hhit : Hits V key typed after step := ⟨hlater, heq ▸ hcode⟩
          rw [if_pos heq] at hrun
          refine .inl ⟨⟨some step, hrun, ?_⟩, ?_⟩
          · exact ⟨fun _ => ⟨step, List.mem_cons_self, hhit⟩, fun _ => rfl⟩
          · exact comparable_cons.mpr ⟨fun _ => hfit, fun hno => absurd hhit hno⟩
        · rw [if_neg heq] at hrun
          have hno : ¬ Hits V key typed after step := fun h =>
            heq (Except.ok.inj (hcode.symm.trans h.2))
          exact hrest hno (fun _ => hfit) hrun
      · exact .inr ⟨matchFrom_raises hlater hfit, fun h => hfit ((comparable_cons.mp h).1 hlater)⟩
    · exact hrest (fun h => hlater h.1) (fun h => absurd h hlater) (matchFrom_skip hlater)

/-! ## 7. The second factor answers -/

/-- The code is the HOTP value of a step in the window, behind the last accepted one. -/
def Matches (U : Unicode) (V : Vault) (secret code : Text) (moment : ℚ) (after : Option Int) : Prop :=
  ∃ key, secretBytes U secret = .ok key ∧
    ∃ step ∈ window (stepAt moment), Hits V key (normalised code) after step

/-- `matching_step` returns, and accepts the code exactly when it matches. -/
def StepAnswered (U : Unicode) (V : Vault) (secret code : Text) (moment : ℚ) (after : Option Int) :
    Prop :=
  ∃ found, matchingStep U V secret code moment after = .ok found ∧
    (found.isSome ↔ Matches U V secret code moment after)

/-- What is typed is no six digits, or the secret is base32 and whatever is compared can be. -/
def StepComparable (U : Unicode) (V : Vault) (secret code : Text) (moment : ℚ)
    (after : Option Int) : Prop :=
  WellTyped U (normalised code) → ∃ key, secretBytes U secret = .ok key ∧
    Comparable V key (normalised code) after (window (stepAt moment))

theorem stepAnswered_iff (secret code : Text) (moment : ℚ) (after : Option Int) :
    StepAnswered U V secret code moment after ↔ StepComparable U V secret code moment after := by
  unfold StepAnswered matchingStep StepComparable Matches
  by_cases htyped : WellTyped U (normalised code)
  · simp only [htyped, not_true_eq_false, if_false, forall_const]
    cases hsecret : secretBytes U secret with
    | error failure =>
      constructor
      · rintro ⟨_, h, -⟩
        cases h
      · rintro ⟨_, h, -⟩
        cases h
    | ok key =>
      simp only [Except.ok.injEq, exists_eq_left']
      rcases matchFrom_spec V key (normalised code) after (window (stepAt moment)) with
        ⟨hfound, hcomparable⟩ | ⟨⟨failure, hraised⟩, hnot⟩
      · exact ⟨fun _ => hcomparable, fun _ => hfound⟩
      · refine ⟨fun ⟨found, h, _⟩ => ?_, fun h => absurd h hnot⟩
        exact absurd (hraised.symm.trans h) nofun
  · simp only [htyped, not_false_eq_true, if_true, false_imp_iff, iff_true]
    refine ⟨none, rfl, fun h => absurd h (by decide), fun ⟨key, _, step, _, hhit⟩ => ?_⟩
    exact absurd (wellTyped_of_hotp hhit.2) htyped

/-- There is no second factor, or what is left of the code is ASCII. -/
def RecoveryComparable (U : Unicode) (account : Account) (code : Text) : Prop :=
  account.hasTwoFactor = true → (typedRecoveryCode U code).all isAscii = true

theorem recovered_cases (account : Account) (code : Text) :
    (∃ found, recovered U V account code = .ok found) ∧ RecoveryComparable U account code ∨
    recovered U V account code = .error .unicodeEncodeError ∧
      ¬ RecoveryComparable U account code := by
  unfold recovered RecoveryComparable
  by_cases hnone : typedRecoveryCode U code = [] ∨ ¬ account.hasTwoFactor
  · refine .inl ⟨⟨none, if_pos hnone⟩, fun htwo => ?_⟩
    rw [hnone.resolve_right (not_not_intro htwo)]
    rfl
  · have htwo : account.hasTwoFactor = true := not_not.mp fun h => hnone (.inr h)
    simp only [hnone, if_false, digestOf]
    cases (typedRecoveryCode U code).all isAscii with
    | true => exact .inl ⟨⟨_, rfl⟩, fun _ => rfl⟩
    | false => exact .inr ⟨rfl, fun h => Bool.false_ne_true (h htwo)⟩

theorem recoveryAnswered_iff (account : Account) (code : Text) (now : ℚ) (db : Db) :
    (∃ answer, useRecoveryCode U V account code now db = .ok answer) ↔
      RecoveryComparable U account code := by
  unfold useRecoveryCode
  rcases recovered_cases (U := U) (V := V) account code with ⟨⟨found, hfound⟩, h⟩ | ⟨hraised, h⟩
  · rw [hfound]
    cases found <;> exact ⟨fun _ => h, fun _ => ⟨_, rfl⟩⟩
  · rw [hraised]
    exact ⟨fun ⟨_, hok⟩ => (by cases hok), fun hok => absurd hok h⟩

/-- **The second factor answers**, and rightly, for exactly the codes that can be compared. -/
theorem second_factor_answers (U : Unicode) (V : Vault) (account : Account) (secret code : Text)
    (now : ℚ) (db : Db) :
    (StepAnswered U V secret code now account.totpLastStep ↔
      StepComparable U V secret code now account.totpLastStep) ∧
    ((∃ answer, useRecoveryCode U V account code now db = .ok answer) ↔
      RecoveryComparable U account code) :=
  ⟨stepAnswered_iff secret code now account.totpLastStep,
    recoveryAnswered_iff account code now db⟩

/-- Tables that know ASCII, the Arabic-Indic digits, and the letter e with an acute accent. -/
def tables : Unicode where
  isDigit c := c.isDigit || (0x660 ≤ c.toNat && c.toNat ≤ 0x669)
  isAlnum c := c.isAlphanum || (0x660 ≤ c.toNat && c.toNat ≤ 0x669) || c.toNat == 0xe9
  lower t := t.map Char.toLower
  upper t := t.map Char.toUpper
  isDigit_of_ascii c h := by rw [h]; rfl
  upper_of_upper t h := by
    refine (List.map_congr_left fun c hc => ?_).trans (List.map_id t)
    have hlower := Bool.and_eq_false_iff.mp (h c hc).2
    exact dif_neg fun hboth => hlower.elim (fun h => of_decide_eq_false h hboth.1)
      fun h => of_decide_eq_false h hboth.2

/-- A vault that seals a text as its ASCII bytes, and a digest of zeros. -/
def plainVault : Vault where
  hmacSha1 _ _ := zeros 20
  hmacSha1_length _ _ := zeros_length 20
  unsealText token _ := some (token.map fun x => Char.ofNat x.toNat)
  fingerprint _ _ := ""

def enrolled : Account where
  pk := 1
  totpSecretSealed := some (ascii "GEZDGNBVGY3TQOJQGEZDGNBVGY3TQOJQ")
  totpEnrolledAt := some 0
  totpLastStep := none

/-- The digits one to six, as they are written in Arabic. -/
def indicCode : Text := [0x661, 0x662, 0x663, 0x664, 0x665, 0x666].map Char.ofNat

/-- **Digits that are no ASCII pass the serializer and the check, and raise where they are compared**,
    whatever the value of the step; so does a letter that is no ASCII in a recovery code. -/
theorem indic_digits_raise :
    codeSerializer .trimming (some indicCode) none = some (indicCode, []) ∧
    matchingStep tables plainVault "GEZDGNBVGY3TQOJQGEZDGNBVGY3TQOJQ".toList indicCode 59 none =
      .error .typeError ∧
    codeSerializer .trimming none (some [Char.ofNat 0xe9]) = some ([], [Char.ofNat 0xe9]) ∧
    useRecoveryCode tables plainVault enrolled [Char.ofNat 0xe9] 59 ⟨enrolled, []⟩ =
      .error .unicodeEncodeError :=
  ⟨rfl, by decide +kernel, rfl, rfl⟩

end Answers

/-! ## 8. Attempts on one account -/

/-- `second_factor(code, recovery_code)`. -/
inductive Request
  | code (code : Text)
  | recoveryCode (code : Text)

/-- An attempt under way: it has read the account, or has the step it is about to claim, or the digest
    it is about to look for. -/
inductive Attempt
  | read (request : Request) (account : Account)
  | claiming (step : Int)
  | looking (digest : String)

/-- What was accepted. -/
inductive Accepted
  | step (step : Int)
  | recoveryCode (digest : String)
deriving DecidableEq

/-- The tables and the attempts. -/
structure World where
  db : Db
  attempts : List Attempt
  /-- What was accepted, the earliest first. -/
  accepted : List Accepted

def World.start (db : Db) : World := ⟨db, [], []⟩

/-- What may happen next. -/
inductive Action
  | begin (request : Request)
  /-- The attempt goes on as far as its next access to the database. -/
  | advance (i : Nat) (now : ℚ)

/-- An attempt ends without an answer where it raises. -/
def World.advance (U : Unicode) (V : Vault) (w : World) (rest : List Attempt) (now : ℚ) :
    Attempt → World
  | .read (.code code) account =>
    match verified U V account code now with
    | .ok (some step) => { w with attempts := .claiming step :: rest }
    | _ => { w with attempts := rest }
  | .read (.recoveryCode code) account =>
    match recovered U V account code with
    | .ok (some digest) => { w with attempts := .looking digest :: rest }
    | _ => { w with attempts := rest }
  | .claiming step =>
    let (claimed, db) := claimStep step w.db
    ⟨db, rest, if claimed then w.accepted ++ [.step step] else w.accepted⟩
  | .looking digest =>
    let (found, db) := markUsed digest now w.db
    ⟨db, rest, if found then w.accepted ++ [.recoveryCode digest] else w.accepted⟩

/-- One statement of one attempt. -/
def step (U : Unicode) (V : Vault) (w : World) : Action → Option World
  | .begin request => some { w with attempts := .read request w.db.account :: w.attempts }
  | .advance i now => (w.attempts[i]?).map (w.advance U V (w.attempts.eraseIdx i) now)

/-! ## 9. Used once -/

def stepsOf (accepted : List Accepted) : List Int :=
  accepted.filterMap fun | .step step => some step | .recoveryCode _ => none

def digestsOf (accepted : List Accepted) : List String :=
  accepted.filterMap fun | .step _ => none | .recoveryCode digest => some digest

/-- The row holds the last accepted step, and no accepted code is unused. -/
structure Consistent (w : World) : Prop where
  increasing : (stepsOf w.accepted).Pairwise (· < ·)
  last : ∀ step ∈ stepsOf w.accepted, ∃ last ∈ w.db.account.totpLastStep, step ≤ last
  once : (digestsOf w.accepted).Nodup
  used : ∀ digest ∈ digestsOf w.accepted, ∀ code ∈ w.db.codes, code.unused digest = false

/-- The database goes on from what it was: the last step only grows, and a code that is unused was. -/
structure Onward (db db' : Db) : Prop where
  last : ∀ last ∈ db.account.totpLastStep, ∃ last' ∈ db'.account.totpLastStep, last ≤ last'
  unused : ∀ code ∈ db'.codes, code.usedAt = none → code ∈ db.codes

theorem Onward.refl (db : Db) : Onward db db :=
  ⟨fun last h => ⟨last, h, le_rfl⟩, fun _ h _ => h⟩

theorem Onward.trans {a b c : Db} (h : Onward a b) (h' : Onward b c) : Onward a c := by
  refine ⟨fun last hlast => ?_, fun code hc hnone => h.unused code (h'.unused code hc hnone) hnone⟩
  obtain ⟨last', hlast', hle⟩ := h.last last hlast
  obtain ⟨last'', hlast'', hle'⟩ := h'.last last' hlast'
  exact ⟨last'', hlast'', hle.trans hle'⟩

variable {U : Unicode} {V : Vault} {db db' : Db} {w w' : World} {digest : String} {now : ℚ}
  {rest : List Attempt}

theorem claimStep_cases (step : Int) (db : Db) :
    (Later db.account.totpLastStep step ∧ (claimStep step db).1 = true ∧
      (claimStep step db).2.account.totpLastStep = some step ∧
      (claimStep step db).2.codes = db.codes) ∨
    claimStep step db = (false, db) := by
  unfold claimStep
  split
  · rename_i hlater
    exact .inl ⟨hlater, rfl, rfl, rfl⟩
  · exact .inr rfl

theorem claimStep_onward (step : Int) (db : Db) : Onward db (claimStep step db).2 := by
  rcases claimStep_cases step db with ⟨hlater, -, hlast, hcodes⟩ | heq
  · refine ⟨fun last h => ⟨step, hlast, (hlater last h).le⟩, fun code hc _ => ?_⟩
    exact hcodes ▸ hc
  · exact heq ▸ .refl db

/-- After the update no row of the digest is unused. -/
theorem markUsed_unused (digest : String) (now : ℚ) (db : Db) :
    ∀ code ∈ (markUsed digest now db).2.codes, code.unused digest = false := by
  intro code hc
  obtain ⟨row, hrow, rfl⟩ := List.mem_map.mp hc
  split
  · simp [RecoveryCode.unused]
  · rename_i hnot
    exact Bool.eq_false_iff.mpr hnot

theorem markUsed_onward (digest : String) (now : ℚ) (db : Db) :
    Onward db (markUsed digest now db).2 := by
  refine ⟨fun last h => ⟨last, h, le_rfl⟩, fun code hc hnone => ?_⟩
  obtain ⟨row, hrow, rfl⟩ := List.mem_map.mp hc
  split at hnone
  · cases hnone
  · rename_i hnot
    rw [if_neg hnot]
    exact hrow

theorem markUsed_found (h : (markUsed digest now db).1 = true) :
    ∃ code ∈ db.codes, code.unused digest = true := by
  have hlen : (db.codes.filter fun code => code.unused digest).length = 1 := beq_iff_eq.mp h
  obtain ⟨code, hcode⟩ := List.length_eq_one_iff.mp hlen
  have hmem : code ∈ db.codes.filter fun code => code.unused digest :=
    hcode ▸ List.mem_singleton_self code
  exact ⟨code, List.mem_filter.mp hmem⟩

section

variable (accepted : List Accepted)

include accepted

@[simp] theorem stepsOf_step (step : Int) :
    stepsOf (accepted ++ [.step step]) = stepsOf accepted ++ [step] := List.filterMap_append

@[simp] theorem stepsOf_recoveryCode (digest : String) :
    stepsOf (accepted ++ [.recoveryCode digest]) = stepsOf accepted :=
  List.filterMap_append.trans (List.append_nil _)

@[simp] theorem digestsOf_step (step : Int) :
    digestsOf (accepted ++ [.step step]) = digestsOf accepted :=
  List.filterMap_append.trans (List.append_nil _)

@[simp] theorem digestsOf_recoveryCode (digest : String) :
    digestsOf (accepted ++ [.recoveryCode digest]) = digestsOf accepted ++ [digest] :=
  List.filterMap_append

end

/-- A world in which nothing more was accepted. -/
theorem Consistent.mono (h : Consistent w) {attempts : List Attempt} (hon : Onward w.db db) :
    Consistent ⟨db, attempts, w.accepted⟩ := by
  refine ⟨h.increasing, fun step hstep => ?_, h.once, fun digest hd code hc => ?_⟩
  · obtain ⟨last, hlast, hle⟩ := h.last step hstep
    obtain ⟨last', hlast', hle'⟩ := hon.last last hlast
    exact ⟨last', hlast', hle.trans hle'⟩
  · by_contra hunused
    have hcode : code.unused digest = true := Bool.eq_true_of_not_eq_false hunused
    have hnone : code.usedAt = none :=
      Option.isNone_iff_eq_none.mp (Bool.and_eq_true_iff.mp hcode).2
    exact hunused (h.used digest hd code (hon.unused code hc hnone))

theorem Consistent.claim (h : Consistent w) (step : Int) (rest : List Attempt) :
    Consistent ⟨(claimStep step w.db).2, rest,
      if (claimStep step w.db).1 then w.accepted ++ [.step step] else w.accepted⟩ := by
  rcases claimStep_cases step w.db with ⟨hlater, hclaimed, hlast, hcodes⟩ | heq
  · rw [if_pos hclaimed]
    have hbefore : ∀ s ∈ stepsOf w.accepted, s < step := by
      intro s hs
      obtain ⟨last, hlast, hle⟩ := h.last s hs
      exact lt_of_le_of_lt hle (hlater last hlast)
    refine ⟨?_, ?_, ?_, ?_⟩
    · rw [stepsOf_step]
      refine List.pairwise_append.mpr ⟨h.increasing, List.pairwise_singleton _ _, fun s hs t ht => ?_⟩
      rw [List.mem_singleton.mp ht]
      exact hbefore s hs
    · intro s hs
      rw [stepsOf_step] at hs
      refine ⟨step, hlast, ?_⟩
      rcases List.mem_append.mp hs with hs | hs
      · exact (hbefore s hs).le
      · exact (List.mem_singleton.mp hs).le
    · rw [digestsOf_step]
      exact h.once
    · rw [digestsOf_step, hcodes]
      exact h.used
  · rw [heq]
    exact h.mono (.refl w.db)

theorem Consistent.look (h : Consistent w) (digest : String) (now : ℚ) (rest : List Attempt) :
    Consistent ⟨(markUsed digest now w.db).2, rest,
      if (markUsed digest now w.db).1 then w.accepted ++ [.recoveryCode digest] else w.accepted⟩ := by
  have hmono : Consistent ⟨(markUsed digest now w.db).2, rest, w.accepted⟩ :=
    h.mono (markUsed_onward digest now w.db)
  split
  · rename_i hfound
    obtain ⟨code, hcode, hunused⟩ := markUsed_found hfound
    refine ⟨?_, ?_, ?_, ?_⟩
    · rw [stepsOf_recoveryCode]
      exact hmono.increasing
    · rw [stepsOf_recoveryCode]
      exact hmono.last
    · rw [digestsOf_recoveryCode]
      refine List.nodup_append.mpr ⟨h.once, List.nodup_singleton _, fun d hd e he heq => ?_⟩
      rw [heq, List.mem_singleton.mp he] at hd
      exact absurd ((h.used digest hd code hcode).symm.trans hunused) (by decide)
    · intro d hd code hc
      rw [digestsOf_recoveryCode] at hd
      rcases List.mem_append.mp hd with hd | hd
      · exact hmono.used d hd code hc
      · rw [List.mem_singleton.mp hd]
        exact markUsed_unused digest now w.db code hc
  · exact hmono

/-- What an attempt does next: nothing to the database, a claim, or a look. -/
theorem step_cases {a : Action} (h : step U V w a = some w') :
    (∃ attempts, w' = ⟨w.db, attempts, w.accepted⟩) ∨
    (∃ rest step, w' = ⟨(claimStep step w.db).2, rest,
      if (claimStep step w.db).1 then w.accepted ++ [.step step] else w.accepted⟩) ∨
    (∃ rest digest now, w' = ⟨(markUsed digest now w.db).2, rest,
      if (markUsed digest now w.db).1 then w.accepted ++ [.recoveryCode digest] else w.accepted⟩) := by
  cases a with
  | begin request => exact .inl ⟨_, (Option.some.inj h).symm⟩
  | advance i now =>
    obtain ⟨attempt, -, rfl⟩ := Option.map_eq_some_iff.mp h
    obtain ⟨rest, hrest⟩ : ∃ rest, rest = w.attempts.eraseIdx i := ⟨_, rfl⟩
    rw [← hrest]
    match attempt with
    | .read (.code code) account =>
      rw [World.advance]
      split <;> exact .inl ⟨_, rfl⟩
    | .read (.recoveryCode code) account =>
      rw [World.advance]
      split <;> exact .inl ⟨_, rfl⟩
    | .claiming step => exact .inr (.inl ⟨rest, step, rfl⟩)
    | .looking digest => exact .inr (.inr ⟨rest, digest, now, rfl⟩)

theorem Consistent.step {a : Action} (h : step U V w a = some w') (hc : Consistent w) :
    Consistent w' := by
  rcases step_cases h with ⟨attempts, rfl⟩ | ⟨rest, step, rfl⟩ | ⟨rest, digest, now, rfl⟩
  · exact hc.mono (.refl w.db)
  · exact hc.claim step rest
  · exact hc.look digest now rest

/-- What was accepted since `db`: steps behind its last one, and codes that it holds unused. -/
structure Since (db : Db) (w : World) : Prop where
  onward : Onward db w.db
  steps : ∀ step ∈ stepsOf w.accepted, Later db.account.totpLastStep step
  codes : ∀ digest ∈ digestsOf w.accepted, ∃ code ∈ db.codes, code.unused digest = true

theorem Since.step {a : Action} (h : step U V w a = some w') (hs : Since db w) : Since db w' := by
  rcases step_cases h with ⟨attempts, rfl⟩ | ⟨rest, step, rfl⟩ | ⟨rest, digest, now, rfl⟩
  · exact { hs with }
  · have honward := hs.onward.trans (claimStep_onward step w.db)
    rcases claimStep_cases step w.db with ⟨hlater, hclaimed, -, -⟩ | heq
    · refine ⟨honward, fun s hmem => ?_, fun digest hd => ?_⟩
      · rw [if_pos hclaimed, stepsOf_step] at hmem
        rcases List.mem_append.mp hmem with hmem | hmem
        · exact hs.steps s hmem
        · intro last hlast
          obtain ⟨last', hlast', hle⟩ := hs.onward.last last hlast
          rw [List.mem_singleton.mp hmem]
          exact lt_of_le_of_lt hle (hlater last' hlast')
      · rw [if_pos hclaimed, digestsOf_step] at hd
        exact hs.codes digest hd
    · rw [heq]
      exact { hs with }
  · refine ⟨hs.onward.trans (markUsed_onward digest now w.db), fun s hmem => ?_, fun d hd => ?_⟩
    · split at hmem
      · rw [stepsOf_recoveryCode] at hmem
        exact hs.steps s hmem
      · exact hs.steps s hmem
    · split at hd
      · rename_i hfound
        rw [digestsOf_recoveryCode] at hd
        rcases List.mem_append.mp hd with hd | hd
        · exact hs.codes d hd
        · obtain ⟨code, hcode, hunused⟩ := markUsed_found hfound
          have hnone := (Bool.and_eq_true_iff.mp hunused).2
          rw [List.mem_singleton.mp hd]
          exact ⟨code, hs.onward.unused code hcode (Option.isNone_iff_eq_none.mp hnone), hunused⟩
      · exact hs.codes d hd

/-- **One-time codes are used once**: in every interleaving the accepted steps increase, from behind
    the last one that was accepted before; and no recovery code is accepted twice. -/
theorem used_once (U : Unicode) (V : Vault) (db : Db) (w : World)
    (h : Runs.Reachable (step U V) (World.start db) w) :
    (stepsOf w.accepted).Pairwise (· < ·) ∧
    (∀ step ∈ stepsOf w.accepted, Later db.account.totpLastStep step) ∧
    (digestsOf w.accepted).Nodup ∧
    ∀ digest ∈ digestsOf w.accepted, ∃ code ∈ db.codes, code.unused digest = true := by
  have hconsistent : Consistent w := h.invariant (fun _ _ _ hstep hc => hc.step hstep)
    ⟨List.Pairwise.nil, nofun, List.nodup_nil, nofun⟩
  have hsince : Since db w := h.invariant (fun _ _ _ hstep hs => hs.step hstep)
    ⟨.refl db, nofun, nofun⟩
  exact ⟨hconsistent.increasing, hsince.steps, hconsistent.once, hsince.codes⟩

/-- Two attempts with one code read the account and match the step before either claims it; and two
    with one recovery code. -/
def twice : List Action :=
  [.begin (.code "000000".toList), .begin (.code "000000".toList), .advance 0 59, .advance 1 59,
    .begin (.recoveryCode "abc".toList), .begin (.recoveryCode "abc".toList), .advance 0 59,
    .advance 1 59, .advance 0 59, .advance 0 59, .advance 0 59, .advance 0 59]

theorem used_once_twice : ∃ w, Runs.Reachable (step tables plainVault)
      (World.start ⟨enrolled, [⟨1, "", none⟩]⟩) w ∧
    w.accepted = [.recoveryCode "", .step 0] ∧ w.attempts.length = 0 ∧
    (stepsOf w.accepted).Pairwise (· < ·) ∧ (digestsOf w.accepted).Nodup := by
  have hrun : (Runs.run (step tables plainVault) (World.start ⟨enrolled, [⟨1, "", none⟩]⟩) twice).map
      (fun w => (w.accepted, w.attempts.length)) = some ([.recoveryCode "", .step 0], 0) := by
    decide +kernel
  obtain ⟨w, hw, heq⟩ := Option.map_eq_some_iff.mp hrun
  obtain ⟨haccepted, hattempts⟩ := Prod.mk.inj heq
  have h := used_once tables plainVault _ w ⟨twice, hw⟩
  exact ⟨w, ⟨twice, hw⟩, haccepted, hattempts, h.1, h.2.2.1⟩

end Dbs.TwoFactor

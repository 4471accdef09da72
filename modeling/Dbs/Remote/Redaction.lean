/-
  File:      Dbs/Remote/Redaction.lean
  Subject:   WHAT AN ERROR TELLS OF A REMOTE COMMAND'S OUTPUT
             (manager/servers/gateways/ssh_gateway.py): a command is given a passphrase as its first
             line, and its output may repeat it.

  * `replaceAll`, `strip`, `tail` -- `str.replace`, `str.strip` and `_tail`;
  * `run`, `stream`, `feed` -- the ways in which a command ends, each with its own errors;
  * `restoreDbsBackup`, `streamDbsBackup` -- the two commands that are given a passphrase;
  * `Redacted` -- an error tells a tail of the output in which the passphrase was replaced;
  * `passphrase_hidden` -- every error is redacted, except where `run` was stopped by its time limit and
    the replacement would change the tail; `passphrase_told` -- such an ending.
-/
import Mathlib.Data.List.Infix

namespace Dbs.Remote.Redaction

/-! ## 1. Text -/

abbrev Text := List Char

/-- `text.replace(old, new)` for an `old` that is not empty; so many characters are still replaced. -/
def replaceFrom (old new : Text) : Nat → Text → Text
  | _, [] => []
  | skip + 1, _ :: text => replaceFrom old new skip text
  | 0, c :: text =>
    if old.isPrefixOf (c :: text) then new ++ replaceFrom old new (old.length - 1) text
    else c :: replaceFrom old new 0 text

def replaceAll (old new text : Text) : Text := replaceFrom old new 0 text

/-- `str.isspace`. -/
def isSpace (c : Char) : Bool :=
  let n := c.toNat
  (9 ≤ n && n ≤ 13) || (28 ≤ n && n ≤ 32) || (0x2000 ≤ n && n ≤ 0x200a) ||
    [0x85, 0xa0, 0x1680, 0x2028, 0x2029, 0x202f, 0x205f, 0x3000].contains n

def strip (text : Text) : Text := ((text.dropWhile isSpace).reverse.dropWhile isSpace).reverse

def outputTail : Nat := 500

/-- `text[-n:]`. -/
def lastOf (n : Nat) (text : Text) : Text := text.drop (text.length - n)

def mark : Text := "[passphrase]".toList

/-- Every occurrence of the secret is replaced; there is none of an empty one. -/
def redact (secret output : Text) : Text :=
  if secret = [] then output else replaceAll secret mark output

/-- `_tail`. -/
def tail (output secret : Text) : Text := lastOf outputTail (strip (redact secret output))

/-! ## 2. How a command ends -/

structure RemoteResult where
  exitStatus : Int
  stdout : Text
  stderr : Text

def RemoteResult.ok (r : RemoteResult) : Bool := r.exitStatus = 0

inductive Kind
  | commandFailed
  | timedOut
  | connectionLost
  | streamBroken
  | dbsTooOld
  | restoreFailed
  /-- An error without an output. -/
  | other
deriving DecidableEq

/-- An error, with the output that it carries and the text of the server that it was made of. -/
structure Failure where
  kind : Kind
  output : Text
  heard : Text
deriving DecidableEq

/-- An error that carries no output. -/
def Failure.silent (kind : Kind) : Failure := ⟨kind, [], []⟩

def Failure.told (kind : Kind) (heard secret : Text) : Failure := ⟨kind, tail heard secret, heard⟩

/-- How `session.run` ends: its `TRANSPORT_ERRORS` have texts that `_interrupted` does not take. -/
inductive RunEnd
  | result (r : RemoteResult)
  | connectionLost
  | timedOut
  | transportError

/-- How `session.stream` and `session.feed` end: `StreamInterrupted`, another `DBSError`, or an error
    that they do not catch. -/
inductive StreamEnd
  | result (r : RemoteResult)
  | interrupted (text : Text)
  | dbsError (text : Text)
  | raised

/-- `TIMED_OUT_STATUSES`. -/
def timedOutStatus (status : Int) : Bool := status = 124 || status = 128 + 9

/-- `a or b`. -/
def orElse (a b : Text) : Text := if a = [] then b else a

/-- `RemoteHost.run`; `limited`: the command runs under `timeout`. -/
def run (limited : Bool) : RunEnd → Except Failure RemoteResult
  | .connectionLost => .error (.silent .connectionLost)
  | .timedOut => .error (.silent .timedOut)
  | .transportError => .error (.silent .commandFailed)
  | .result r =>
    if limited && timedOutStatus r.exitStatus then .error (.told .timedOut (orElse r.stderr r.stdout) [])
    else .ok r

/-- `RemoteHost.stream`; `stdinLine`: empty where there is none. -/
def stream (limited : Bool) (stdinLine : Text) : StreamEnd → Except Failure RemoteResult
  | .interrupted text => .error (.told .streamBroken text stdinLine)
  | .dbsError text => .error (.told .commandFailed text stdinLine)
  | .raised => .error (.silent .other)
  | .result r =>
    if limited && timedOutStatus r.exitStatus then .error (.told .timedOut r.stderr stdinLine)
    else .ok r

/-- `RemoteHost.feed`. -/
def feed (limited : Bool) (stdinLine : Text) : StreamEnd → Except Failure RemoteResult
  | .interrupted text => .error (.told .commandFailed text stdinLine)
  | .dbsError text => .error (.told .commandFailed text stdinLine)
  | .raised => .error (.silent .other)
  | .result r =>
    if limited && timedOutStatus r.exitStatus then .error (.told .timedOut r.stderr stdinLine)
    else .ok r

/-! ## 3. The commands that are given a passphrase -/

/-- Where a command runs: in a container, and whether `timeout` is there and on the host. -/
structure Host where
  container : Bool
  timeoutOnHost : Bool
  timeoutInContainer : Bool

/-- A command runs under `timeout`, inside the container or on the host. -/
def Host.limited (h : Host) : Bool := (h.container && h.timeoutInContainer) || h.timeoutOnHost

def unknownOption : Text := "unrecognized arguments".toList

def progressOption : Text := "unrecognized arguments: --progress-seconds".toList

/-- `restore_dbs_backup`, once the copy is on the server: the command, then the removal of the copy,
    which says what is left or raises an error of its own without an output, then the report. -/
def restoreDbsBackup (h : Host) (passphrase : Text) (ended : RunEnd) (removed : Option Text) :
    Except Failure (Text × Text) :=
  match run h.limited ended, removed with
  | _, none => .error (.silent .other)
  | .error f, some _ => .error f
  | .ok r, some copyLeft =>
    if r.ok then .ok (r.stdout, copyLeft)
    else
      let heard := r.stdout ++ '\n' :: r.stderr
      if unknownOption <:+: r.stderr then .error (.told .dbsTooOld heard passphrase)
      else .error (.told .restoreFailed heard passphrase)

/-- What the command says of the backup that it streamed. -/
structure Summary where
  name : Text
  size : Nat
  sha256 : Text
  keptOnServer : Bool

/-- The command of `stream_dbs_backup`, read by `_stream_summary`. -/
def streamed (summary : Text → Option Summary) (h : Host) (passphrase : Text) (ended : StreamEnd) :
    Except Failure (RemoteResult × Option Summary) := do
  let r ← stream h.limited passphrase ended
  return (r, summary r.stderr)

/-- What `stream_dbs_backup` makes of a command that is not run again. -/
def streamOutcome (passphrase : Text) (r : RemoteResult) (summary : Option Summary) :
    Except Failure Summary :=
  if r.ok then
    match summary with
    | none => .error (.told .commandFailed r.stderr passphrase)
    | some s => if s.keptOnServer then .error (.told .streamBroken r.stderr passphrase) else .ok s
  else if unknownOption <:+: r.stderr then .error (.told .dbsTooOld r.stderr passphrase)
  else .error (.told .commandFailed r.stderr passphrase)

/-- `stream_dbs_backup`: without an option that the server does not know it is run again. -/
def streamDbsBackup (summary : Text → Option Summary) (h : Host) (progress : Bool) (passphrase : Text)
    (first again : StreamEnd) : Except Failure Summary := do
  let (r, s) ← streamed summary h passphrase first
  if !r.ok && progress && decide (progressOption <:+: r.stderr) then
    let (r, s) ← streamed summary h passphrase again
    streamOutcome passphrase r s
  else streamOutcome passphrase r s

/-! ## 4. What is told -/

variable {secret old new text : Text} {f : Failure} {h : Host} {ended : RunEnd}

theorem tail_nil (secret : Text) : tail [] secret = [] := by
  have hnone : redact secret [] = [] := by
    rw [redact]
    split <;> rfl
  have hstrip : strip [] = [] := rfl
  rw [tail, hnone, hstrip, lastOf, List.drop_nil]

/-- **Redacted**: the error tells a bounded tail of what was heard with every occurrence of the
    passphrase replaced. -/
def Redacted (secret : Text) (f : Failure) : Prop := f.output = tail f.heard secret

theorem redacted_iff {kind : Kind} {heard given : Text} :
    Redacted secret (.told kind heard given) ↔ tail heard given = tail heard secret := by
  rw [Redacted, Failure.told]

theorem redacted_told (kind : Kind) (heard secret : Text) :
    Redacted secret (.told kind heard secret) := redacted_iff.mpr rfl

theorem redacted_silent (kind : Kind) (secret : Text) : Redacted secret (.silent kind) := by
  rw [Redacted, Failure.silent, tail_nil]

theorem stream_redacted {limited : Bool} {ended : StreamEnd}
    (h : stream limited secret ended = .error f) :
    Redacted secret f := by
  cases ended with
  | interrupted _ | dbsError _ => obtain rfl := Except.error.inj h; exact redacted_told _ _ _
  | raised => obtain rfl := Except.error.inj h; exact redacted_silent _ _
  | result r =>
    rw [stream] at h
    split at h
    · cases h
      exact redacted_told _ _ _
    · cases h

theorem feed_redacted {limited : Bool} {ended : StreamEnd} (h : feed limited secret ended = .error f) :
    Redacted secret f := by
  cases ended with
  | interrupted _ | dbsError _ => obtain rfl := Except.error.inj h; exact redacted_told _ _ _
  | raised => obtain rfl := Except.error.inj h; exact redacted_silent _ _
  | result r =>
    rw [feed] at h
    split at h
    · cases h
      exact redacted_told _ _ _
    · cases h

theorem streamOutcome_redacted {r : RemoteResult} {s : Option Summary}
    (h : streamOutcome secret r s = .error f) : Redacted secret f := by
  unfold streamOutcome at h
  split at h
  · split at h
    · cases h
      exact redacted_told _ _ _
    · split at h
      · cases h
        exact redacted_told _ _ _
      · cases h
  · split at h
    · cases h
      exact redacted_told _ _ _
    · cases h
      exact redacted_told _ _ _

theorem streamDbsBackup_redacted {summary : Text → Option Summary} {progress : Bool}
    {first again : StreamEnd} (hs : streamDbsBackup summary h progress secret first again = .error f) :
    Redacted secret f := by
  unfold streamDbsBackup streamed at hs
  cases hfirst : stream h.limited secret first with
  | error e =>
    rw [hfirst] at hs
    cases hs
    exact stream_redacted hfirst
  | ok r =>
    rw [hfirst] at hs
    change (if _ then _ else _) = _ at hs
    split at hs
    · cases hagain : stream h.limited secret again with
      | error e =>
        rw [hagain] at hs
        cases hs
        exact stream_redacted hagain
      | ok r' =>
        rw [hagain] at hs
        exact streamOutcome_redacted hs
    · exact streamOutcome_redacted hs

/-- The command was stopped by its own time limit. -/
def Stopped (h : Host) (ended : RunEnd) (r : RemoteResult) : Prop :=
  ended = .result r ∧ h.limited = true ∧ timedOutStatus r.exitStatus = true

/-- What `restore_dbs_backup` tells of a command that was stopped, and of any other. -/
theorem restoreDbsBackup_redacted_iff {removed : Option Text} :
    (∀ f, restoreDbsBackup h secret ended removed = .error f → Redacted secret f) ↔
      ∀ r, Stopped h ended r → removed.isSome = true →
        tail (orElse r.stderr r.stdout) [] = tail (orElse r.stderr r.stdout) secret := by
  constructor
  · rintro hall r ⟨rfl, hlimited, hstatus⟩ hremoved
    obtain ⟨copyLeft, rfl⟩ := Option.isSome_iff_exists.mp hremoved
    refine redacted_iff.mp (hall (.told .timedOut (orElse r.stderr r.stdout) []) ?_)
    simp [restoreDbsBackup, run, hlimited, hstatus]
  · intro hsame f hf
    cases removed with
    | none =>
      cases hf
      exact redacted_silent _ _
    | some copyLeft =>
      cases ended with
      | connectionLost | timedOut | transportError =>
        obtain rfl := Except.error.inj hf; exact redacted_silent _ _
      | result r =>
        by_cases hstop : (h.limited && timedOutStatus r.exitStatus) = true
        · obtain ⟨hlimited, hstatus⟩ := Bool.and_eq_true_iff.mp hstop
          simp only [restoreDbsBackup, run, if_pos hstop] at hf
          cases hf
          exact redacted_iff.mpr (hsame r ⟨rfl, hlimited, hstatus⟩ rfl)
        · simp only [restoreDbsBackup, run, if_neg hstop] at hf
          split at hf
          · cases hf
          · split at hf
            · cases hf
              exact redacted_told _ _ _
            · cases hf
              exact redacted_told _ _ _

/-! ## 5. The passphrase is hidden -/

/-- **The passphrase is hidden**: every error of a restore is redacted if and only if it does not tell
    that the command was stopped by its time limit, or the replacement changes nothing in the tail of
    what was heard; and every error of a streamed backup, and of a command that is fed, is
    redacted. -/
theorem passphrase_hidden (h : Host) (passphrase : Text) :
    (∀ ended removed,
      (∀ f, restoreDbsBackup h passphrase ended removed = .error f → Redacted passphrase f) ↔
        ∀ r, Stopped h ended r → removed.isSome = true →
          tail (orElse r.stderr r.stdout) [] = tail (orElse r.stderr r.stdout) passphrase) ∧
    (∀ summary progress first again f,
      streamDbsBackup summary h progress passphrase first again = .error f → Redacted passphrase f) ∧
    ∀ limited ended f, feed limited passphrase ended = .error f → Redacted passphrase f :=
  ⟨fun _ _ => restoreDbsBackup_redacted_iff, fun _ _ _ _ _ hs => streamDbsBackup_redacted hs,
    fun _ _ _ hf => feed_redacted hf⟩

/-- A host with `timeout`. -/
def timed : Host := ⟨false, true, false⟩

def word : Text := "hunter2".toList

def repeated : Text := "Passphrase: hunter2".toList

/-- The command fails, and its output repeats the passphrase. -/
theorem passphrase_hidden_failed : ∃ f,
    restoreDbsBackup timed word (.result ⟨1, [], repeated⟩) (some []) = .error f ∧
      Redacted word f ∧ ¬ word <:+: f.output := by
  have hfails : restoreDbsBackup timed word (.result ⟨1, [], repeated⟩) (some []) =
      .error (.told .restoreFailed ('\n' :: repeated) word) := by
    have hknown : ¬ unknownOption <:+: repeated := by decide +kernel
    simp [restoreDbsBackup, run, timedOutStatus, RemoteResult.ok, hknown]
  have hstopped : ∀ r, ¬ Stopped timed (.result ⟨1, [], repeated⟩) r := by
    rintro r ⟨hr, -, hstatus⟩
    cases hr
    exact absurd hstatus (by decide)
  refine ⟨_, hfails, ?_, by decide +kernel⟩
  exact ((passphrase_hidden timed word).1 _ _).mpr (fun r hr => absurd hr (hstopped r)) _ hfails

/-- The command is stopped, and its output repeats the passphrase. -/
theorem passphrase_told : ∃ f,
    restoreDbsBackup timed word (.result ⟨124, [], repeated⟩) (some []) = .error f ∧
      word <:+: f.output ∧ ¬ Redacted word f := by
  refine ⟨.told .timedOut repeated [], rfl, by decide +kernel, ?_⟩
  rw [redacted_iff]
  decide +kernel

end Dbs.Remote.Redaction

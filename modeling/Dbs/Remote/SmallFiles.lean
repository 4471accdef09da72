/-
  File:      Dbs/Remote/SmallFiles.lean
  Subject:   SMALL FILES OF A SERVER (manager/servers/gateways/ssh_gateway.py, transports/ssh.py):
             read over SFTP, or inside a container by a command whose output is captured.

  * `readSmallScript` -- what `READ_SMALL` prints and its exit status, for what stands at the path;
  * `sessionRun` -- a command's output is captured up to `maxCapturedOutput`;
  * `readInContainer`, `readSmall` -- the two ways of reading, every failure of the connection included;
  * `ReadsWhole` -- the file's bytes, or an error; `FileTooLarge` only for a file above the limit;
  * `small_files_whole` -- over SFTP always; in a container exactly unless the file is larger than what
    the capture holds of its text and not above the limit; `captured_part` -- such a file.
-/
import Dbs.Lib.Base64
import Dbs.Primitives

namespace Dbs.Remote

open Octets

/-! ## 1. The script in the container -/

/-- What `os.stat` finds at a path. -/
inductive Found
  | nothing
  | special
  | file (content : Bytes)

/-- The exit statuses `TOO_LARGE_STATUS` and `NOT_A_FILE_STATUS`. -/
def tooLargeStatus : Int := 3

def notAFileStatus : Int := 4

/-- `READ_SMALL`: its exit status and what it prints. -/
def readSmallScript (found : Found) (limit : Nat) : Int × Bytes :=
  match found with
  | .nothing => (notAFileStatus, [])
  | .special => (notAFileStatus, [])
  | .file content =>
    if content.length > limit then (tooLargeStatus, [])
    else
      let data := content.take (limit + 1)
      if data.length > limit then (tooLargeStatus, []) else (0, Base64.encode data)

/-! ## 2. The session -/

/-- The errors of a connection, and of what it does not find. -/
inductive Fault
  | notFound
  | permissionDenied
  | timedOut
  | commandFailed
  | connectionLost

inductive Failure
  | fileTooLarge
  | fault (fault : Fault)

/-- How a command may be stopped: by `timeout`, by a signal, or with the connection. -/
inductive Stop
  | timedOut
  | killed
  | closed (alive : Bool)

def Stop.status : Stop → Int
  | .timedOut => 124
  | .killed => 128 + 9
  | .closed _ => -1

/-- How a command ends: with an error of the transport, stopped after so much output, or of itself. -/
inductive Ending
  | raised (fault : Fault)
  | stopped (received : Nat) (stop : Stop)
  | finished

def maxCapturedOutput : Nat := 64 * 1024

structure RemoteResult where
  exitStatus : Int
  stdout : Bytes

/-- `SSHSession.run`: the output in order, captured by `_decode`; ASCII stands for itself. -/
def sessionRun (script : Int × Bytes) : Ending → Except Failure RemoteResult
  | .raised fault => .error (.fault fault)
  | .stopped _ (.closed false) => .error (.fault .connectionLost)
  | .stopped received stop => .ok ⟨stop.status, (script.2.take received).take maxCapturedOutput⟩
  | .finished => .ok ⟨script.1, script.2.take maxCapturedOutput⟩

/-- `RemoteHost.run`; `limited`: the command runs under `timeout`. -/
def run (script : Int × Bytes) (limited : Bool) (ending : Ending) : Except Failure RemoteResult := do
  let result ← sessionRun script ending
  if limited && (result.exitStatus = 124 || result.exitStatus = 128 + 9) then throw (.fault .timedOut)
  return result

def isSpace (c : UInt8) : Bool := (9 ≤ c && c ≤ 13) || (28 ≤ c && c ≤ 32)

/-- `str.strip`, on ASCII. -/
def strip (text : Bytes) : Bytes :=
  ((text.dropWhile isSpace).reverse.dropWhile isSpace).reverse

/-! ## 3. The two ways of reading -/

def readInContainer (found : Found) (limit : Nat) (limited : Bool) (ending : Ending) :
    Except Failure Bytes := do
  let result ← run (readSmallScript found limit) limited ending
  if result.exitStatus = tooLargeStatus then throw .fileTooLarge
  if result.exitStatus = notAFileStatus then throw (.fault .notFound)
  if result.exitStatus ≠ 0 then throw (.fault .commandFailed)
  match Base64.decode (strip result.stdout) with
  | some data => return data
  | none => throw (.fault .commandFailed)

/-- A server's answers over SFTP: what it tells of the file, and what fails. It calls no file anything
    else, and tells no size above the file's own. -/
structure Sftp where
  found : Found
  regular : Option Bool
  size : Option Nat
  statFails : Option Fault
  openFails : Option Fault
  readFails : Option Fault
  kind : regular = some false → ∀ content, found ≠ .file content
  told : ∀ n ∈ size, ∀ content, found = .file content → n ≤ content.length

def Sftp.Undisturbed (s : Sftp) : Prop :=
  s.statFails = none ∧ s.openFails = none ∧ s.readFails = none

def raiseIf (fault : Option Fault) : Except Failure Unit :=
  match fault with
  | some fault => .error (.fault fault)
  | none => .ok ()

/-- `SFTPFile.read(size)` on an open file. -/
def Sftp.read (s : Sftp) (size : Nat) : Except Failure Bytes := do
  raiseIf s.readFails
  match s.found with
  | .file content => return content.take size
  | _ => throw (.fault .notFound)

def readSmall (s : Sftp) (limit : Nat) : Except Failure Bytes := do
  raiseIf s.statFails
  if s.regular = some false then throw (.fault .notFound)
  if s.size.any fun n => n > limit then throw .fileTooLarge
  raiseIf s.openFails
  let data ← s.read (limit + 1)
  if data.length > limit then throw .fileTooLarge
  return data

/-! ## 4. Whole or not at all -/

/-- The file's own bytes, or an error: `FileTooLarge` above the limit only, and above the limit no other
    unless something failed. -/
def ReadsWhole (found : Found) (limit : Nat) (undisturbed : Prop) : Except Failure Bytes → Prop
  | .ok data => found = .file data ∧ data.length ≤ limit
  | .error .fileTooLarge => ∀ content, found = .file content → limit < content.length
  | .error (.fault _) => undisturbed → ∀ content, found = .file content → content.length ≤ limit

/-- The text of the file is cut: it is longer than the capture, and the limit lets the file pass. -/
def CutShort (found : Found) (limit : Nat) (ending : Ending) : Prop :=
  ending = .finished ∧ ∃ content, found = .file content ∧ 3 * (maxCapturedOutput / 4) < content.length ∧
    content.length ≤ limit

theorem isSpace_digit : ∀ n < 64, isSpace (Base64.digit n) = false := by decide

theorem encode_no_space (data : Bytes) : ∀ c ∈ Base64.encode data, isSpace c = false :=
  Base64.forall_encode isSpace_digit (by decide) data

theorem dropWhile_of_none {text : Bytes} (h : ∀ c ∈ text, isSpace c = false) :
    text.dropWhile isSpace = text := by
  cases text with
  | nil => rfl
  | cons c text =>
    rw [List.dropWhile_cons_of_neg (by rw [h c List.mem_cons_self]; exact Bool.false_ne_true)]

theorem strip_encode (data : Bytes) : strip (Base64.encode data) = Base64.encode data := by
  have h := encode_no_space data
  unfold strip
  rw [dropWhile_of_none h, dropWhile_of_none fun c hc => h c (List.mem_reverse.mp hc),
    List.reverse_reverse]

/-- What the capture holds of a file's text: the text of its first bytes. -/
theorem captured (content : Bytes) : (Base64.encode content).take maxCapturedOutput =
    Base64.encode (content.take (3 * (maxCapturedOutput / 4))) := by
  have hcap : maxCapturedOutput = 4 * (maxCapturedOutput / 4) := by decide
  by_cases h : 3 * (maxCapturedOutput / 4) ≤ content.length
  · calc (Base64.encode content).take maxCapturedOutput
        = (Base64.encode content).take (4 * (maxCapturedOutput / 4)) := by rw [← hcap]
      _ = _ := Base64.take_encode h
  · have hlen := Base64.encode_length_le content
    rw [List.take_of_length_le (by omega), List.take_of_length_le (by omega)]

/-- **A command that runs to its end** gives the first bytes of a file the limit lets pass. -/
theorem readInContainer_finished {content : Bytes} {limit : Nat} (limited : Bool)
    (h : content.length ≤ limit) : readInContainer (.file content) limit limited .finished =
      .ok (content.take (3 * (maxCapturedOutput / 4))) := by
  have hscript : readSmallScript (.file content) limit = (0, Base64.encode content) := by
    have htake : content.take (limit + 1) = content := List.take_of_length_le (by omega)
    simp only [readSmallScript, htake]
    rw [if_neg (by omega), if_neg (by omega)]
  have hrun : run (0, Base64.encode content) limited .finished =
      .ok ⟨0, (Base64.encode content).take maxCapturedOutput⟩ := by
    cases limited <;> rfl
  unfold readInContainer
  rw [hscript, hrun, captured]
  show (match Base64.decode (strip _) with
    | some data => _
    | none => _) = _
  rw [strip_encode, Base64.decode_encode]
  rfl

theorem readInContainer_raised (found : Found) (limit : Nat) (limited : Bool) {ending : Ending}
    (h : ending ≠ .finished) :
    ∃ fault, readInContainer found limit limited ending = .error (.fault fault) := by
  cases ending with
  | raised fault => exact ⟨fault, rfl⟩
  | stopped received stop =>
    cases stop with
    | timedOut => cases limited <;> exact ⟨_, rfl⟩
    | killed => cases limited <;> exact ⟨_, rfl⟩
    | closed alive => cases alive <;> cases limited <;> exact ⟨_, rfl⟩
  | finished => exact absurd rfl h

theorem readInContainer_tooLarge {content : Bytes} {limit : Nat} (limited : Bool)
    (h : limit < content.length) :
    readInContainer (.file content) limit limited .finished = .error .fileTooLarge := by
  have hscript : readSmallScript (.file content) limit = (tooLargeStatus, []) := if_pos h
  unfold readInContainer
  rw [hscript]
  cases limited <;> rfl

theorem readInContainer_notFound {found : Found} {limit : Nat} (limited : Bool)
    (h : ∀ content, found ≠ .file content) :
    readInContainer found limit limited .finished = .error (.fault .notFound) := by
  cases found with
  | nothing | special => cases limited <;> rfl
  | file content => exact absurd rfl (h content)

theorem not_cutShort {found : Found} {limit : Nat} {ending : Ending}
    (h : ∀ content, found ≠ .file content) : ¬ CutShort found limit ending := by
  intro hcut
  obtain ⟨-, content, hfound, -⟩ := hcut
  exact h content hfound

/-- **In a container a file is read whole or not at all exactly unless its text is cut.** -/
theorem readInContainer_whole (found : Found) (limit : Nat) (limited : Bool) (ending : Ending) :
    ReadsWhole found limit (ending = .finished) (readInContainer found limit limited ending) ↔
      ¬ CutShort found limit ending := by
  by_cases hend : ending = .finished
  · subst hend
    cases found with
    | nothing =>
      have hnone : ∀ content, Found.nothing ≠ .file content := nofun
      rw [readInContainer_notFound limited hnone]
      exact ⟨fun _ => not_cutShort hnone, fun _ _ => nofun⟩
    | special =>
      have hnone : ∀ content, Found.special ≠ .file content := nofun
      rw [readInContainer_notFound limited hnone]
      exact ⟨fun _ => not_cutShort hnone, fun _ _ => nofun⟩
    | file content =>
      by_cases hlimit : content.length ≤ limit
      · rw [readInContainer_finished limited hlimit]
        constructor
        · intro h hcut
          obtain ⟨-, content', hfound, hlong, -⟩ := hcut
          cases hfound
          have hlen := congrArg List.length (Found.file.inj h.1)
          rw [List.length_take] at hlen
          omega
        · intro h
          have hshort : content.length ≤ 3 * (maxCapturedOutput / 4) :=
            Nat.not_lt.mp fun hlong => h ⟨rfl, content, rfl, hlong, hlimit⟩
          rw [List.take_of_length_le hshort]
          exact ⟨rfl, hlimit⟩
      · rw [readInContainer_tooLarge limited (Nat.not_le.mp hlimit)]
        constructor
        · intro _ hcut
          obtain ⟨-, content', hfound, -, hle⟩ := hcut
          cases hfound
          exact hlimit hle
        · intro _ content' hfound
          cases hfound
          exact Nat.not_le.mp hlimit
  · obtain ⟨fault, hfault⟩ := readInContainer_raised found limit limited hend
    rw [hfault]
    exact ⟨fun _ hcut => hend hcut.1, fun _ hfinished => absurd hfinished hend⟩

/-- **Over SFTP a file is read whole or not at all.** -/
theorem readSmall_whole (s : Sftp) (limit : Nat) :
    ReadsWhole s.found limit s.Undisturbed (readSmall s limit) := by
  unfold readSmall
  cases hstat : s.statFails with
  | some fault => exact fun h => absurd (hstat.symm.trans h.1) nofun
  | none =>
    show ReadsWhole _ _ _ (if s.regular = some false then _ else _)
    split
    · rename_i hregular
      exact fun _ content hfound => absurd hfound (s.kind hregular content)
    · show ReadsWhole _ _ _ (if _ then _ else _)
      split
      · rename_i hsize
        intro content hfound
        obtain ⟨n, hn, hlimit⟩ := (Option.any_eq_true _ _).mp hsize
        exact Nat.lt_of_lt_of_le (of_decide_eq_true hlimit) (s.told n hn content hfound)
      · cases hopen : s.openFails with
        | some fault => exact fun h => absurd (hopen.symm.trans h.2.1) nofun
        | none =>
          unfold Sftp.read
          cases hread : s.readFails with
          | some fault => exact fun h => absurd (hread.symm.trans h.2.2) nofun
          | none =>
            cases hfound : s.found with
            | nothing => exact fun _ => nofun
            | special => exact fun _ => nofun
            | file content =>
              show ReadsWhole _ _ _ (if (content.take (limit + 1)).length > limit then _ else _)
              split
              · rename_i hlong
                intro content' hsame
                cases hsame
                rw [List.length_take] at hlong
                omega
              · rename_i hshort
                rw [List.length_take] at hshort
                rw [List.take_of_length_le (by omega)]
                exact ⟨rfl, by omega⟩

/-- A file is read whole or not at all over SFTP, and in a container exactly unless the command runs to
    its end on a file above 48 KiB that the limit lets pass. -/
theorem small_files_whole (found : Found) (limit : Nat) (limited : Bool) (ending : Ending) (s : Sftp) :
    (ReadsWhole found limit (ending = .finished) (readInContainer found limit limited ending) ↔
      ¬ (ending = .finished ∧ ∃ content, found = .file content ∧ 48 * 1024 < content.length ∧
        content.length ≤ limit)) ∧
    ReadsWhole s.found limit s.Undisturbed (readSmall s limit) :=
  ⟨readInContainer_whole found limit limited ending, readSmall_whole s limit⟩

/-- A file of 48 KiB and one byte, below the limit of 256 KiB: all but its last byte is taken for the
    whole. -/
theorem captured_part :
    readInContainer (.file (zeros (48 * 1024 + 1))) (256 * 1024) false .finished =
      .ok (zeros (48 * 1024)) ∧
    zeros (48 * 1024) ≠ zeros (48 * 1024 + 1) := by
  refine ⟨?_, fun h => ?_⟩
  · rw [readInContainer_finished false (by rw [zeros_length]; decide)]
    refine congrArg Except.ok ?_
    rw [zeros, List.take_replicate]
    rfl
  · have hlen := congrArg List.length h
    rw [zeros_length, zeros_length] at hlen
    omega

end Dbs.Remote

/-
  File:      Dbs/Remote/Restoring.lean
  Subject:   THE COPY THAT A RESTORE PUTS ON A SERVER (ssh_gateway.py, restore_dbs_backup): it is
             written by `write_new`, or received by a script in a container, read by `dbs_restore`,
             and removed.

  Every remote step may fail, behind its effect or not, with any exception. The copy's name is a new
  one, and so is that of its partial file. Whether it is a dry run makes no difference here.

  * `makeDirs`, `receiveFile`, `removedOrLeft`, `removeInContainer`, `restore` -- as the code has them;
  * `Outcome.Reported` -- every copy that is left is named, in the report or in the exception;
  * `LostOnHost`, `LostInContainer` -- which ends of the steps leave one that is not;
  * `restore_reported_iff` -- then, and only then, is there one; `copy_unreported` -- a run like this.
-/
import Dbs.Remote.WholeFiles

namespace Dbs.Remote.Restoring

open Effects Octets Redaction Writes

/-! ## 1. The steps -/

/-- What leaves the call. -/
inductive Error
  | raised (raised : Writes.Raised)
  | failed (failure : Redaction.Failure)
deriving DecidableEq

def troubleText : Trouble → Text
  | .notFound => "[Errno 2] No such file".toList
  | .permission => "[Errno 13] Permission denied".toList
  | .failure text | .transport text | .undecodable text => text
  | .foreign => []

/-- What an exception tells. -/
def raisedText : Writes.Raised → Text
  | .raw trouble => troubleText trouble
  | .remoteCommandFailed output => output
  | .remoteNotFound | .remotePermissionDenied | .fileExists | .valueError => []

def Error.text : Error → Text
  | .raised r => raisedText r
  | .failed f => f.output

section Steps

/-- The loop of `_make_dirs`; `i`: the folders done. -/
def makeDirsFrom (stat mkdir : Nat → Option Trouble) : Text → Nat → List Text → Option Writes.Raised
  | _, _, [] => none
  | current, i, part :: parts =>
    let current := if current = [] then part else join current part
    match if stat i = some .notFound then mkdir i else stat i with
    | none => makeDirsFrom stat mkdir current (i + 1) parts
    | some trouble =>
      some (if trouble.isTransport then
        .remoteCommandFailed (tail (current ++ ": ".toList ++ troubleText trouble) [])
      else .raw trouble)

/-- `_make_dirs`; `session`: how its own look at the property `sftp` fares. -/
def makeDirs (session : Option Trouble) (stat mkdir : Nat → Option Trouble) (path : Text) :
    Option Writes.Raised :=
  let unconnected := session.map fun trouble =>
    if trouble.isTransport then .remoteCommandFailed [] else .raw trouble
  unconnected.or <| makeDirsFrom stat mkdir (if path.head? = some '/' then ['/'] else []) 0
    ((path.splitOn '/').filter (· ≠ []))

/-- `_removed_or_left`: what it returns, if it does, and whether the copy is gone. -/
def removedOrLeft (path : Text) : Fate → Option Text × Bool
  | .done => (some [], true)
  | .fails took trouble =>
    (if trouble = .notFound then some [] else if trouble.isTransport then some path else none, took)

/-- How the script `RECEIVE_FILE` fares. `fails`: something raises behind `os.open`; `left`: what the
    file holds where it stays behind. -/
structure Script where
  opens : Bool
  killed : Bool
  fails : Bool
  unlinks : Bool
  left : Bytes

/-- `RECEIVE_FILE`: the file that is there when it has ended. -/
def receiveFile (script : Script) (size : Nat) (input : Bytes) : Option Bytes :=
  if !script.opens then none
  else if script.killed then some script.left
  else if script.fails || decide (input.length < size) then
    if script.unlinks then none else some script.left
  else some (input.take size)

/-- `_receive_in_container`; `ended`: how the command ends for the caller. -/
def receiveInContainer (h : Host) (ended : StreamEnd) : Option Redaction.Failure :=
  match feed h.limited [] ended with
  | .error failure => some failure
  | .ok r => if r.ok then none else some (.told .restoreFailed (orElse r.stderr r.stdout) [])

/-- `_remove_in_container`; `took`: `rm` has removed the copy. -/
def removeInContainer (h : Host) (path : Text) (ended : RunEnd) (took : Bool) : Text × Bool :=
  match Redaction.run h.limited ended with
  | .error _ => (path, took)
  | .ok r => if r.ok then ([], true) else (path, took)

end Steps

/-! ## 2. The restore -/

/-- `copies`: where whole or partial copies of this call are when it has ended. -/
structure Outcome where
  result : Except Error Text
  copies : List Text

structure OnHost where
  remoteDir : Text
  session : Option Trouble
  stat : Nat → Option Trouble
  mkdir : Nat → Option Trouble
  source : Source
  fates : Fates
  partialToken : Text
  remove : Fate

structure InContainer where
  size : Nat
  input : Bytes
  script : Script
  received : StreamEnd
  removed : RunEnd
  removeTook : Bool

section Restore

variable (h : Host) (passphrase token : Text) (ended : RunEnd)

/-- `f"{RESTORE_FILE_PREFIX}{secrets.token_hex(8)}.dbs"` -/
def restoreName : Text := ".dbs-restore-".toList ++ token ++ ".dbs".toList

def restoreFileMode : Nat := 0o600

/-- The copies of a call that `write_new` has left. -/
def copiesOf (path partialPath : Text) (w : World) : List Text :=
  (if w.placed.isSome then [path] else []) ++ if w.partialFile.isSome then [partialPath] else []

/-- From the copy on: the command, the removal, the report, of which `copy_left` is kept. -/
def restoreCopy (removed : Option Text × Bool) (copies : List Text) : Outcome where
  result := match restoreDbsBackup h passphrase ended removed.1 with
    | .ok report => .ok report.2
    | .error failure => .error (.failed failure)
  copies := if removed.2 then [] else copies

def OnHost.path (s : OnHost) : Text := join s.remoteDir (restoreName token)

def OnHost.partialPath (s : OnHost) : Text :=
  join s.remoteDir (partialName (restoreName token) s.partialToken)

def restoreOnHost (s : OnHost) : Outcome :=
  match makeDirs s.session s.stat s.mkdir s.remoteDir with
  | some raised => ⟨.error (.raised raised), []⟩
  | none =>
    match exec (writeNew s.fates s.source s.remoteDir (restoreName token) s.partialToken
      (some restoreFileMode)) (.start none) with
    | (.error raised, w) =>
      ⟨.error (.raised raised), copiesOf (s.path token) (s.partialPath token) w⟩
    | (.ok _, w) =>
      restoreCopy h passphrase ended (removedOrLeft (s.path token) s.remove)
        (copiesOf (s.path token) (s.partialPath token) w)

def containerPath : Text := join "/tmp".toList (restoreName token)

def restoreInContainer (s : InContainer) : Outcome :=
  let path := containerPath token
  let copies := (receiveFile s.script s.size s.input).toList.map fun _ => path
  match receiveInContainer h s.received with
  | some failure => ⟨.error (.failed failure), copies⟩
  | none =>
    let (copyLeft, gone) := removeInContainer h path s.removed s.removeTook
    restoreCopy h passphrase ended (some copyLeft, gone) copies

/-- `restore_dbs_backup` -/
def restore : OnHost ⊕ InContainer → Outcome
  | .inl s => restoreOnHost h passphrase token ended s
  | .inr s => restoreInContainer h passphrase token ended s

end Restore

/-! ## 3. What is promised -/

def Reports (path : Text) : Except Error Text → Prop
  | .ok copyLeft => copyLeft = path
  | .error error => path <:+: error.text

/-- Every copy that is left is named. -/
def Outcome.Reported (o : Outcome) : Prop := ∀ path ∈ o.copies, Reports path o.result

section Lost

variable (h : Host) (passphrase token : Text) (ended : RunEnd)

/-- What `dbs_restore` ends in, where it does not succeed. -/
def commandFailure : Option Redaction.Failure :=
  match Redaction.run h.limited ended with
  | .error failure => some failure
  | .ok r =>
    if r.ok then none
    else some (.told (if unknownOption <:+: r.stderr then .dbsTooOld else .restoreFailed)
      (r.stdout ++ '\n' :: r.stderr) passphrase)

/-- The copy is on the server, and the removal leaves it there: the report has no word of it where the
    removal raises, or takes the copy for gone; an exception of the command takes the report's place. -/
def LostAtRemoval (path : Text) : Fate → Prop
  | .done => False
  | .fails took trouble => took = false ∧
    match commandFailure h passphrase ended with
    | some failure => trouble.isTransport = true → ¬ path <:+: failure.output
    | none => trouble.isTransport = false ∨ trouble = .notFound

/-- `write_new` leaves a copy, and what it raises does not name it; or it returns, and the copy is lost
    then. -/
def LostAtWrite (f : Fates) (folder path partialPath : Text) (unplaced : Option Writes.Raised)
    (slips : Bool) (lostThen : Prop) : Prop :=
  match f.fails .openPartial, unplaced, f.fails .lstatDone with
  | some trouble, _, _ =>
    f.took .openPartial = true ∧ ¬ partialPath <:+: raisedText (trouble.translated folder)
  | none, some raised, _ =>
    if slips then ¬ path <:+: raisedText (f.leaving raised)
    else f.keeps = true ∧ ¬ partialPath <:+: raisedText (f.leaving raised)
  | none, none, some trouble => ¬ path <:+: raisedText (trouble.translated path)
  | none, none, none => lostThen

def LostOnHost (s : OnHost) : Prop :=
  makeDirs s.session s.stat s.mkdir s.remoteDir = none ∧
    s.fates.newUnbegun (restoreName token) (s.path token) = none ∧
    LostAtWrite s.fates s.remoteDir (s.path token) (s.partialPath token)
      (s.fates.unplaced s.source (s.partialPath token) (some restoreFileMode) (s.path token))
      (s.fates.slips s.source (s.partialPath token) (some restoreFileMode) (s.path token))
      (LostAtRemoval h passphrase ended (s.path token) s.remove)

def LostInContainer (s : InContainer) : Prop :=
  let path := containerPath token
  receiveFile s.script s.size s.input ≠ none ∧
  match receiveInContainer h s.received with
  | some failure => ¬ path <:+: failure.output
  | none => (removeInContainer h path s.removed s.removeTook).2 = false ∧
    ∃ failure, commandFailure h passphrase ended = some failure ∧ ¬ path <:+: failure.output

def Lost : OnHost ⊕ InContainer → Prop
  | .inl s => LostOnHost h passphrase token ended s
  | .inr s => LostInContainer h passphrase token ended s

end Lost

/-! ## 4. The command and the removal -/

section Removal

variable {h : Host} {passphrase token path : Text} {ended : RunEnd}

theorem restoreDbsBackup_eq (copyLeft : Text) :
    (match restoreDbsBackup h passphrase ended (some copyLeft) with
      | .ok report => .ok report.2
      | .error failure => .error (.failed failure) : Except Error Text) =
      match commandFailure h passphrase ended with
      | none => .ok copyLeft
      | some failure => .error (.failed failure) := by
  unfold restoreDbsBackup commandFailure
  cases Redaction.run h.limited ended with
  | error failure => rfl
  | ok r =>
    cases hok : r.ok with
    | true => simp [hok]
    | false =>
      by_cases hoption : unknownOption <:+: r.stderr
      · simp [hok, hoption]
      · simp [hok, hoption]

theorem not_infix_nil (hpath : path ≠ []) : ¬ path <:+: [] :=
  fun h => hpath (List.eq_nil_of_infix_nil h)

/-- Nothing is left, so nothing has to be named. -/
theorem reported_nil (result : Except Error Text) : Outcome.Reported ⟨result, []⟩ := nofun

theorem reported_none (removed : Option Text × Bool) :
    (restoreCopy h passphrase ended removed []).Reported := by
  have hcopies : (restoreCopy h passphrase ended removed []).copies = [] := ite_self _
  intro path hmem
  rw [hcopies] at hmem
  cases hmem

theorem reported_singleton {result : Except Error Text} :
    Outcome.Reported ⟨result, [path]⟩ ↔ Reports path result := by
  unfold Outcome.Reported
  simp

/-- Where the removal returns, what it returned is told, or the command's failure. -/
theorem reports_restored {removed : Option Text × Bool} {copyLeft : Text} (copies : List Text)
    (hremoved : removed.1 = some copyLeft) :
    Reports path (restoreCopy h passphrase ended removed copies).result ↔
      match commandFailure h passphrase ended with
      | none => copyLeft = path
      | some failure => path <:+: failure.output := by
  have hresult : (restoreCopy h passphrase ended removed copies).result =
      match commandFailure h passphrase ended with
      | none => .ok copyLeft
      | some failure => .error (.failed failure) := by
    rw [← restoreDbsBackup_eq, restoreCopy, hremoved]
  rw [hresult]
  cases commandFailure h passphrase ended with
  | none | some _ => exact Iff.rfl

/-- Where it raises, its exception takes every other's place. -/
theorem unreported_raised {removed : Option Text × Bool} (copies : List Text) (hpath : path ≠ [])
    (hremoved : removed.1 = none) :
    ¬ Reports path (restoreCopy h passphrase ended removed copies).result := by
  have hresult : (restoreCopy h passphrase ended removed copies).result =
      .error (.failed (.silent .other)) := by
    rw [restoreCopy, hremoved, restoreDbsBackup]
  rw [hresult]
  exact not_infix_nil hpath

/-- **The removal**: the copy is gone, or named, exactly unless it is lost. -/
theorem reported_restoreCopy (hpath : path ≠ []) (fate : Fate) :
    (restoreCopy h passphrase ended (removedOrLeft path fate) [path]).Reported ↔
      ¬ LostAtRemoval h passphrase ended path fate := by
  cases fate with
  | done => exact iff_of_true (reported_nil _) id
  | fails took trouble =>
    cases took with
    | true => exact iff_of_true (reported_nil _) fun hlost => Bool.noConfusion hlost.1
    | false =>
      have hlost : LostAtRemoval h passphrase ended path (.fails false trouble) ↔
          match commandFailure h passphrase ended with
          | some failure => trouble.isTransport = true → ¬ path <:+: failure.output
          | none => trouble.isTransport = false ∨ trouble = .notFound := and_iff_right rfl
      rw [hlost]
      refine reported_singleton.trans ?_
      by_cases hmissing : trouble = .notFound
      · have hremoved : (removedOrLeft path (.fails false trouble)).1 = some [] := if_pos hmissing
        have htransport : trouble.isTransport = true := hmissing ▸ rfl
        refine (reports_restored [path] hremoved).trans ?_
        cases commandFailure h passphrase ended with
        | none => simp [hmissing, Ne.symm hpath]
        | some failure => simp [htransport]
      cases htransport : trouble.isTransport with
      | false =>
        have hremoved : (removedOrLeft path (.fails false trouble)).1 = none := by
          simp [removedOrLeft, hmissing, htransport]
        refine iff_of_false (unreported_raised [path] hpath hremoved) (not_not_intro ?_)
        cases commandFailure h passphrase ended with
        | none => exact .inl rfl
        | some failure => exact nofun
      | true =>
        have hremoved : (removedOrLeft path (.fails false trouble)).1 = some path := by
          simp [removedOrLeft, hmissing, htransport]
        refine (reports_restored [path] hremoved).trans ?_
        cases commandFailure h passphrase ended with
        | none => simp [hmissing]
        | some failure => simp

end Removal

/-! ## 5. The restore -/

section Main

variable {h : Host} {passphrase token : Text} {ended : RunEnd}

theorem join_ne_nil (folder : Text) {name : Text} (hname : name ≠ []) : join folder name ≠ [] := by
  unfold join
  split_ifs
  · exact hname
  · exact List.append_ne_nil_of_right_ne_nil _ hname
  · exact List.append_ne_nil_of_right_ne_nil _ (List.cons_ne_nil _ _)

theorem restoreName_ne_nil : restoreName token ≠ [] :=
  List.append_ne_nil_of_right_ne_nil _ (by decide)

section Written

variable {f : Fates} {source : Source} {folder path partialPath : Text}
  {unbegun unplaced : Option Writes.Raised} {slips : Bool} {w : World} {lostThen : Prop}

theorem copiesOf_moved (h : Moved f source w) : copiesOf path partialPath w = [path] := by
  obtain ⟨file, hplaced, -⟩ := h.placed
  rw [copiesOf, hplaced, h.gone]
  rfl

theorem fails_of_not_took {call : Writes.Call} (h : f.took call = false) :
    ∃ trouble, f.fails call = some trouble := by
  unfold Fates.took at h
  unfold Fates.fails
  cases hof : f.of call with
  | done =>
    rw [hof] at h
    cases h
  | fails took trouble => exact ⟨trouble, rfl⟩

/-- Where `write_new` raises. -/
theorem reported_failed {raised : Writes.Raised}
    (hfailed : Failed f source none folder path unbegun unplaced slips raised w) :
    Outcome.Reported ⟨.error (.raised raised), copiesOf path partialPath w⟩ ↔
      ¬ (unbegun = none ∧ LostAtWrite f folder path partialPath unplaced slips lostThen) := by
  unfold LostAtWrite
  cases hfailed with
  | unbegun hbegun =>
    refine iff_of_true (reported_nil _) fun hlost => ?_
    rw [hlost.1] at hbegun
    cases hbegun
  | unopened hbegun hsame =>
    rw [Option.isNone_none, Bool.and_true] at hsame
    obtain ⟨trouble, hfails⟩ := fails_of_not_took hsame
    refine iff_of_true (reported_nil _) fun hlost => ?_
    rw [hfails, hsame] at hlost
    cases hlost.2.1
  | stranded hbegun hfails htook hfree =>
    rw [and_iff_right hbegun, hfails, htook]
    exact reported_singleton.trans (by simp [Reports, Error.text])
  | dropped hbegun hopened hfree hunplaced hslips hdropped =>
    rw [and_iff_right hbegun, hopened, hunplaced, hslips]
    have hcopies : copiesOf path partialPath w = if f.keeps then [partialPath] else [] := by
      rw [copiesOf, hdropped.placed, hdropped.there]
      rfl
    rw [hcopies]
    cases f.keeps with
    | false => exact iff_of_true (reported_nil _) fun hlost => Bool.noConfusion hlost.1
    | true => exact reported_singleton.trans (by simp [Reports, Error.text])
  | slipped hbegun hopened hfree hunplaced hslips hmoved =>
    rw [and_iff_right hbegun, hopened, hunplaced, hslips, copiesOf_moved hmoved]
    exact reported_singleton.trans (by simp [Reports, Error.text])
  | unseen hbegun hopened hfree hplaced hseen hmoved =>
    rw [and_iff_right hbegun, hopened, hplaced, hseen, copiesOf_moved hmoved]
    exact reported_singleton.trans (by simp [Reports, Error.text])

/-- Where it returns. -/
theorem lostAtWrite_filed (h : Filed f source none unbegun unplaced w) :
    LostAtWrite f folder path partialPath unplaced slips lostThen ↔ lostThen := by
  unfold LostAtWrite
  rw [h.opened, h.placed, h.seen]

end Written

/-- **On its host**: a copy is left that is not named, exactly where one is lost. -/
theorem reported_onHost (s : OnHost) :
    (restoreOnHost h passphrase token ended s).Reported ↔ ¬ LostOnHost h passphrase token ended s := by
  unfold restoreOnHost LostOnHost
  cases hdirs : makeDirs s.session s.stat s.mkdir s.remoteDir with
  | some raised =>
    exact iff_of_true (reported_nil _) fun hlost => absurd hlost.1 (Option.some_ne_none _)
  | none =>
    have hends := @ends_writeNew s.fates s.source none s.remoteDir (restoreName token) s.partialToken
      (some restoreFileMode)
    rw [and_iff_right rfl]
    dsimp only
    revert hends
    cases exec (writeNew s.fates s.source s.remoteDir (restoreName token) s.partialToken
      (some restoreFileMode)) (World.start none) with
    | mk written w =>
      intro hends
      cases written with
      | error raised => exact reported_failed hends
      | ok node =>
        have hfiled : Filed s.fates s.source none
            (s.fates.newUnbegun (restoreName token) (s.path token))
            (s.fates.unplaced s.source (s.partialPath token) (some restoreFileMode)
              (s.path token)) w := hends
        dsimp only
        rw [and_iff_right hfiled.begun, copiesOf_moved hfiled.moved, lostAtWrite_filed hfiled]
        exact reported_restoreCopy (join_ne_nil _ restoreName_ne_nil) _

/-- Where `rm` leaves the copy, it is what `_remove_in_container` returns. -/
theorem removeInContainer_left {path : Text} {removed : RunEnd} {took : Bool}
    (h' : (removeInContainer h path removed took).2 = false) :
    (removeInContainer h path removed took).1 = path := by
  unfold removeInContainer at h' ⊢
  cases hrun : Redaction.run h.limited removed with
  | error failure => rfl
  | ok r =>
    rw [hrun] at h'
    cases hok : r.ok with
    | true => simp [hok] at h'
    | false => simp [hok]

/-- **In a container**: as on a host. -/
theorem reported_inContainer (s : InContainer) :
    (restoreInContainer h passphrase token ended s).Reported ↔
      ¬ LostInContainer h passphrase token ended s := by
  have hpath : containerPath token ≠ [] := join_ne_nil _ restoreName_ne_nil
  unfold restoreInContainer LostInContainer
  cases receiveFile s.script s.size s.input with
  | none =>
    refine iff_of_true ?_ fun hlost => hlost.1 rfl
    cases receiveInContainer h s.received with
    | some failure => exact reported_nil _
    | none => exact reported_none _
  | some content =>
    rw [and_iff_right (Option.some_ne_none content)]
    cases receiveInContainer h s.received with
    | some failure => exact reported_singleton.trans not_not.symm
    | none =>
      dsimp only
      cases hgone : (removeInContainer h (containerPath token) s.removed s.removeTook).2 with
      | true => exact iff_of_true (reported_nil _) fun hlost => Bool.noConfusion hlost.1
      | false =>
        rw [removeInContainer_left hgone, and_iff_right rfl]
        refine reported_singleton.trans ((reports_restored [containerPath token] rfl).trans ?_)
        cases commandFailure h passphrase ended with
        | none => simp
        | some failure => simp

/-- **A restore leaves no copy that is not reported, exactly unless a step loses one.** -/
theorem restore_reported_iff (h : Host) (passphrase token : Text) (ended : RunEnd)
    (s : OnHost ⊕ InContainer) :
    (restore h passphrase token ended s).Reported ↔ ¬ Lost h passphrase token ended s := by
  cases s with
  | inl s => exact reported_onHost s
  | inr s => exact reported_inContainer s

end Main

/-- A restore whose command is cut off, and whose copy cannot be removed. -/
def cutOff : OnHost where
  remoteDir := "/srv".toList
  session := none
  stat _ := none
  mkdir _ := none
  source := ⟨[[1, 2]], by decide, none⟩
  fates := { answerLost with of := fun _ => .done }
  partialToken := "00ff".toList
  remove := .fails false (.transport "timed out".toList)

def restoredCutOff : Outcome :=
  restore ⟨false, false, false⟩ "secret".toList "aa11".toList .timedOut (.inl cutOff)

/-- The copy stays, and the exception tells nothing of it. -/
theorem copy_unreported : ¬ restoredCutOff.Reported := by
  intro h
  have hcopies : restoredCutOff.copies = ["/srv/.dbs-restore-aa11.dbs".toList] := by decide +kernel
  have hresult : restoredCutOff.result = .error (.failed (.silent .timedOut)) := by decide +kernel
  have htold := h _ (hcopies ▸ List.mem_singleton_self _)
  rw [hresult] at htold
  exact not_infix_nil (by decide) htold

end Dbs.Remote.Restoring

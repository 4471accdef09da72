/-
  File:      Dbs/Remote/WholeFiles.lean
  Subject:   REMOTE FILES ARE WRITTEN WHOLE (ssh_gateway.py, write_new and replace_file): under a
             partial name beside the target, then moved into its place.

  Any call may fail, behind its effect or not, and the source may raise. Others may change the target at
  any time. The partial name may be taken already; then it is not this call's.

  * `writeNew`, `replaceFile` -- as the code has them;
  * `Filed`, `Failed` -- how they end, and on which calls that depends;
  * `Promise` -- the target is left as it is or has all bytes, nothing is replaced by `write_new`, a
    return means that the bytes are there, and the partial file is gone unless its removal raised;
  * `writes_promise_iff` -- exactly unless `open` fails behind its effect; `partial_stranded` -- so.
-/
import Dbs.Remote.Writes

namespace Dbs.Remote.Writes

open Effects Octets Redaction

/-! ## 1. The two functions -/

section Code

variable (f : Fates)

/-- `with _closing(handle)` -/
def closing (x : Write Unit) : Write Unit :=
  finishing x (suppressing (request f .close World.answer id))

def openPartial (folder : Text) : Write Unit :=
  translating folder (request f .openPartial
    (fun w => w.partialFile.map fun _ => .failure f.refusal)
    fun w => { w with partialFile := some ⟨[], f.newMode, f.newOwner⟩ })

/-- `with suppress(*TRANSPORT_ERRORS): sftp.remove(partial)` -/
def dropPartial : Write Unit :=
  suppressing (tryCatch
    (request f .remove (fun w => if w.partialFile.isNone then some .notFound else none)
      fun w => { w with partialFile := none })
    fun raised => do
      modify fun w => { w with unremoved := true }
      throw raised)

/-- The partial file takes the target's place. -/
def World.moved (w : World) : World :=
  match w.partialFile with
  | some file => { w with partialFile := none, placed := some ⟨w.target f .rename, file⟩ }
  | none => w

def renamePartial (target : Text) : Write Unit :=
  tryCatch
    (request f .rename (fun w => (w.target f .rename).map fun _ => .failure f.refusal) (·.moved f)) fun
    | .raw trouble => do
      let taken ← if trouble.isFailure then lexists f .lstatRefused target else pure false
      raiseIf taken .fileExists
      throw (trouble.translated target)
    | raised => throw raised

def posixRenamePartial (path : Text) : Write Unit :=
  translating path (request f .rename
    (fun w => if w.target f .rename = some .folder then some (.failure f.refusal)
      else none) (·.moved f))

def writeNew (source : Source) (folder name token : Text) (mode : Option Nat) : Write Node := do
  raiseIf ('/' ∈ name ∨ special name) .valueError
  sftp f
  let target := join folder name
  raiseIf (← lexists f .lstatFirst target) .fileExists
  let partialPath := join folder (partialName name token)
  openPartial f folder
  cleaning (do
    closing f (writeWhole f source partialPath mode none)
    raiseIf (← lexists f .lstatAgain target) .fileExists
    renamePartial f target) (dropPartial f)
  lstat f .lstatDone target

def replaceFile (path : Text) (data : Bytes) (token : Text) (mode : Nat) (owner : Option (Nat × Nat)) :
    Write Node := do
  let folder := (split path).1
  let name := (split path).2
  raiseIf (folder.head? ≠ some '/' ∨ special name) .valueError
  sftp f
  let partialPath := join folder (partialName name token)
  openPartial f folder
  cleaning (do
    closing f (writeWhole f (.ofBytes data) partialPath (some mode) owner)
    posixRenamePartial f path) (dropPartial f)
  lstat f .lstatDone path

end Code

/-! ## 2. What is suppressed -/

section Suppressed

variable {f : Fates} {w : World}

/-- It passes `suppress(*TRANSPORT_ERRORS)`. -/
def Trouble.passes (trouble : Trouble) : Option Trouble :=
  if trouble.isTransport then none else some trouble

/-- What closing the partial file raises. -/
def Fates.unclosed (f : Fates) : Option Trouble := (f.fails .close).bind Trouble.passes

theorem exec_close :
    exec (suppressing (request f .close World.answer id)) w =
      match f.unclosed with
      | none => (.ok (), w)
      | some trouble => (.error (.raw trouble), w) := by
  rw [suppressing, exec_tryCatch, exec_ask, Fates.unclosed]
  cases f.fails .close with
  | none =>
    unfold World.answer
    cases w.late with
    | none => rfl
    | some answer =>
      have htransport : answer.val.isTransport = true := answer.property
      simp [htransport]
  | some trouble =>
    cases h : trouble.isTransport <;> simp [Trouble.passes, h]

theorem exec_dropPartial :
    exec (dropPartial f) w =
      match (f.fails .remove).or (if w.partialFile.isNone then some .notFound else none) with
      | none => (.ok (), { w with partialFile := none })
      | some trouble =>
        (match trouble.passes with
          | none => .ok ()
          | some trouble => .error (.raw trouble),
        { w with
          partialFile := if f.took .remove then none else w.partialFile
          unremoved := true }) := by
  rw [dropPartial, suppressing, exec_tryCatch, exec_tryCatch, exec_request]
  cases hpartial : w.partialFile with
  | none =>
    cases hfails : f.fails .remove with
    | none => simp [exec_bind, Trouble.passes, Trouble.isTransport, hpartial]
    | some trouble => cases h : trouble.isTransport <;> simp [exec_bind, Trouble.passes, h, hpartial]
  | some file =>
    cases hfails : f.fails .remove with
    | none => simp
    | some trouble =>
      cases htook : f.took .remove <;> cases h : trouble.isTransport <;>
        simp [exec_bind, Trouble.passes, h, hpartial]

end Suppressed

/-! ## 3. Into the target's place -/

section Placing

variable (f : Fates) (source : Source) (path : Text) (mode : Option Nat) (owner : Option (Nat × Nat))

/-- What leaves the `with _closing(handle)`. -/
def Fates.unmade : Option Raised := (f.unclosed.map .raw).or (f.unwritten source path mode owner)

/-- What `_lexists` says or raises; `there`: something stands in the place. -/
def Fates.looked (call : Call) (path : Text) (there : Bool) : Except Raised Bool :=
  match f.fails call with
  | none => .ok there
  | some .notFound => .ok false
  | some trouble => .error (trouble.translated path)

/-- What is raised where the name must be free. -/
def Fates.taken (call : Call) (path : Text) : Option Raised :=
  match f.looked call path (f.stands call).isSome with
  | .ok there => if there then some .fileExists else none
  | .error raised => some raised

/-- `rename` takes its effect, if it is reached. -/
def Fates.renames : Bool := f.took .rename && (f.stands .rename).isNone

/-- What a rename that raised `trouble` is told as; `there`: something stands in the place. -/
def Fates.refused (trouble : Trouble) (there : Bool) : Raised :=
  match if trouble.isFailure then f.looked .lstatRefused path there else .ok false with
  | .ok there => if there then .fileExists else trouble.translated path
  | .error raised => raised

def Fates.unrenamed : Option Raised :=
  ((f.fails .rename).or ((f.stands .rename).map fun _ => .failure f.refusal)).map fun trouble =>
    f.refused path trouble (f.renames || (f.stands .lstatRefused).isSome)

/-- What the `try` of `write_new` raises. -/
def Fates.unplaced (target : Text) : Option Raised :=
  (f.unmade source path mode none).or <| (f.taken .lstatAgain target).or (f.unrenamed target)

/-- The rename is reached, and takes its effect. -/
def Fates.slips (target : Text) : Bool :=
  (f.unmade source path mode none).isNone && (f.taken .lstatAgain target).isNone && f.renames

/-- What stands in the place cannot be replaced. -/
def Fates.blocked : Option Trouble :=
  if f.stands .rename = some .folder then some (.failure f.refusal) else none

def Fates.unreplaced : Option Raised := ((f.fails .rename).or f.blocked).map (·.translated path)

/-- What the `try` of `replace_file` raises. -/
def Fates.unplacedOver (target : Text) : Option Raised :=
  (f.unmade source path mode owner).or (f.unreplaced target)

def Fates.slipsOver : Bool :=
  (f.unmade source path mode owner).isNone && f.took .rename && f.blocked.isNone

/-- What the removal of the partial file lets out. -/
def Fates.unremovable : Option Trouble := (f.fails .remove).bind Trouble.passes

/-- What leaves the `try`, where it raised `raised`. -/
def Fates.leaving (raised : Raised) : Raised := (f.unremovable.map .raw).getD raised

/-- The removal leaves the partial file there. -/
def Fates.keeps : Bool := (f.fails .remove).isSome && !f.took .remove

end Placing

section Placed

variable {f : Fates} {source : Source} {path : Text} {mode : Option Nat} {owner : Option (Nat × Nat)}
  {w : World} {call : Call}

/-- Closing raises by itself, or nothing changes. -/
theorem ends_close {post : World → Prop} {fail : Raised → World → Prop}
    (hok : f.unclosed = none → post w)
    (hraised : ∀ trouble, f.unclosed = some trouble → fail (.raw trouble) w) :
    Ends (fun _ t => post t) fail (exec (suppressing (request f .close World.answer id)) w) := by
  rw [exec_close]
  cases h : f.unclosed with
  | none => exact hok h
  | some trouble => exact hraised trouble h

theorem ends_made (hcreated : w.partialFile = some f.created) (hopened : Opened w)
    (hlate : w.late = none) :
    Ends (fun _ t => Arrived source t ∧ source.ends = none ∧ f.unmade source path mode owner = none)
      (fun raised t => Opened t ∧ f.unmade source path mode owner = some raised)
      (exec (closing f (writeWhole f source path mode owner)) w) := by
  have hraised (trouble : Trouble) (h : f.unclosed = some trouble) :
      f.unmade source path mode owner = some (.raw trouble) := by
    rw [Fates.unmade, h]
    rfl
  have hunmade (h : f.unclosed = none) :
      f.unmade source path mode owner = f.unwritten source path mode owner := by
    rw [Fates.unmade, h]
    rfl
  refine ends_finishing (ends_writeWhole hcreated hopened hlate) (fun _ t h => ?_) fun raised t h => ?_
  · obtain ⟨harrived, hends, hwritten⟩ := h
    exact ends_close (fun hclose => ⟨harrived, hends, (hunmade hclose).trans hwritten⟩)
      fun trouble hclose => ⟨harrived.opened, hraised trouble hclose⟩
  · exact ends_close (fun hclose => ⟨h.1, (hunmade hclose).trans h.2⟩)
      fun trouble hclose => ⟨h.1, hraised trouble hclose⟩

theorem exec_lookAt :
    exec (lookAt f call) w =
      match f.fails call with
      | some trouble => (.error (.raw trouble), w)
      | none =>
        match w.target f call with
        | some node => (.ok node, w)
        | none => (.error (.raw .notFound), w) := by
  rw [lookAt, exec_bind, exec_ask, never, Option.or_none]
  cases f.fails call with
  | some trouble => rfl
  | none =>
    dsimp only
    rw [exec_bind_ok (exec_get w)]
    cases w.target f call <;> rfl

theorem exec_lexists :
    exec (lexists f call path) w = (f.looked call path (w.target f call).isSome, w) := by
  rw [lexists, exec_tryCatch, exec_bind, exec_lookAt, Fates.looked]
  cases f.fails call with
  | some trouble => cases trouble <;> rfl
  | none => cases w.target f call <;> rfl

/-- The file has been moved into the target's place. -/
structure Moved (f : Fates) (source : Source) (w : World) : Prop where
  gone : w.partialFile = none
  placed : ∃ file, w.placed = some ⟨f.stands .rename, file⟩ ∧ file.content = source.content
  ends : source.ends = none

theorem Arrived.moved (h : Arrived source w) (hends : source.ends = none) :
    Moved f source (w.moved f) := by
  obtain ⟨file, hfile⟩ := Option.isSome_iff_exists.mp h.opened.there
  have hw : w.moved f =
      { w with partialFile := none, placed := some ⟨w.target f .rename, file⟩ } := by
    rw [World.moved, hfile]
  rw [hw, h.opened.target]
  exact ⟨rfl, ⟨file, rfl, h.content file hfile⟩, hends⟩

theorem exec_refused (trouble : Trouble) :
    exec (do
      let taken ← if trouble.isFailure then lexists f .lstatRefused path else pure false
      raiseIf taken .fileExists
      throw (trouble.translated path) : Write Unit) w =
    (.error (f.refused path trouble (w.target f .lstatRefused).isSome), w) := by
  unfold Fates.refused
  cases trouble.isFailure with
  | false => rfl
  | true =>
    simp only [if_true]
    rw [exec_bind, exec_lexists]
    cases f.looked .lstatRefused path (w.target f .lstatRefused).isSome with
    | error raised => rfl
    | ok there => cases there <;> rfl

/-- **The rename** of `write_new`. -/
theorem ends_renamePartial (h : Arrived source w) (hends : source.ends = none) :
    Ends (fun _ t => Moved f source t ∧ f.unrenamed path = none)
      (fun raised t => f.unrenamed path = some raised ∧ if f.renames then Moved f source t
        else Opened t)
      (exec (renamePartial f path) w) := by
  rw [renamePartial, exec_tryCatch, exec_request, h.opened.target]
  cases hraised : (f.fails .rename).or ((f.stands .rename).map fun _ => .failure f.refusal) with
  | none =>
    exact ⟨h.moved hends, by rw [Fates.unrenamed, hraised]; rfl⟩
  | some trouble =>
    have hrenames :
        (f.took .rename && ((f.stands .rename).map fun _ => Trouble.failure f.refusal).isNone) =
          f.renames := by rw [Option.isNone_map, Fates.renames]
    have hunrenamed (v : World)
        (hv : (v.target f .lstatRefused).isSome = (f.renames || (f.stands .lstatRefused).isSome)) :
        f.unrenamed path = some (f.refused path trouble (v.target f .lstatRefused).isSome) := by
      rw [Fates.unrenamed, hraised, hv]
      rfl
    dsimp only
    rw [hrenames, exec_refused]
    cases hmoves : f.renames with
    | true =>
      have hmoved := h.moved (f := f) hends
      obtain ⟨file, hplaced, -⟩ := hmoved.placed
      refine ⟨hunrenamed _ ?_, hmoved⟩
      rw [if_pos rfl, World.target, World.left, hplaced, hmoves]
      rfl
    | false =>
      refine ⟨hunrenamed _ ?_, h.opened⟩
      rw [if_neg Bool.false_ne_true, h.opened.target, hmoves]
      rfl

/-- **The `try` of `write_new`.** -/
theorem ends_place {target : Text} (hcreated : w.partialFile = some f.created) (hopened : Opened w)
    (hlate : w.late = none) :
    Ends (fun _ t => Moved f source t ∧ f.unplaced source path mode target = none)
      (fun raised t => f.unplaced source path mode target = some raised ∧
        if f.slips source path mode target then Moved f source t else Opened t)
      (exec (do
        closing f (writeWhole f source path mode none)
        raiseIf (← lexists f .lstatAgain target) .fileExists
        renamePartial f target) w) := by
  refine ends_bind ((ends_made hcreated hopened hlate).mono (fun _ _ h => h) ?_) ?_
  · rintro raised t ⟨ht, hunmade⟩
    rw [Fates.unplaced, Fates.slips, hunmade]
    exact ⟨rfl, ht⟩
  rintro _ t ⟨harrived, hends, hmade⟩
  rw [Fates.unplaced, Fates.slips, hmade, Option.none_or, exec_bind, exec_lexists,
    harrived.opened.target, Fates.taken]
  cases f.looked .lstatAgain target (f.stands .lstatAgain).isSome with
  | error raised => exact ⟨rfl, harrived.opened⟩
  | ok there =>
    cases there with
    | true => exact ⟨rfl, harrived.opened⟩
    | false => exact ends_renamePartial harrived hends

theorem ends_posixRenamePartial (h : Arrived source w) (hends : source.ends = none) :
    Ends (fun _ t => Moved f source t ∧ f.unreplaced path = none)
      (fun raised t => f.unreplaced path = some raised ∧
        if f.took .rename && f.blocked.isNone then Moved f source t else Opened t)
      (exec (posixRenamePartial f path) w) := by
  refine ends_translating ?_
  rw [exec_request, h.opened.target, ← Fates.blocked, Fates.unreplaced]
  cases (f.fails .rename).or f.blocked with
  | none => exact ⟨h.moved hends, rfl⟩
  | some trouble =>
    refine ⟨rfl, ?_⟩
    cases f.took .rename && f.blocked.isNone with
    | true => exact h.moved hends
    | false => exact h.opened

/-- **The `try` of `replace_file`.** -/
theorem ends_placeOver {target : Text} (hcreated : w.partialFile = some f.created) (hopened : Opened w)
    (hlate : w.late = none) :
    Ends (fun _ t => Moved f source t ∧ f.unplacedOver source path mode owner target = none)
      (fun raised t => f.unplacedOver source path mode owner target = some raised ∧
        if f.slipsOver source path mode owner then Moved f source t else Opened t)
      (exec (do
        closing f (writeWhole f source path mode owner)
        posixRenamePartial f target) w) := by
  refine ends_bind ((ends_made hcreated hopened hlate).mono (fun _ _ h => h) ?_) ?_
  · rintro raised t ⟨ht, hunmade⟩
    rw [Fates.unplacedOver, Fates.slipsOver, hunmade]
    exact ⟨rfl, ht⟩
  rintro _ t ⟨harrived, hends, hmade⟩
  rw [Fates.unplacedOver, Fates.slipsOver, hmade, Option.none_or, Option.isNone_none, Bool.true_and]
  exact ends_posixRenamePartial harrived hends

/-- What the clean-up leaves of the partial file. -/
structure Dropped (f : Fates) (w : World) : Prop where
  there : w.partialFile.isSome = f.keeps
  placed : w.placed = none
  removed : w.unremoved = (f.fails .remove).isSome

theorem ends_dropPartial (h : Opened w) :
    Ends (fun _ t => f.unremovable = none ∧ Dropped f t)
      (fun raised t => ∃ trouble, f.unremovable = some trouble ∧ raised = .raw trouble ∧ Dropped f t)
      (exec (dropPartial f) w) := by
  obtain ⟨file, hfile⟩ := Option.isSome_iff_exists.mp h.there
  rw [exec_dropPartial, hfile, Option.isNone_some, if_neg Bool.false_ne_true, Option.or_none,
    Fates.unremovable]
  cases hfails : f.fails .remove with
  | none => exact ⟨rfl, by rw [Fates.keeps, hfails]; rfl, h.placed, by rw [hfails]; exact h.removed⟩
  | some trouble =>
    have hdropped : Dropped f { w with
        partialFile := if f.took .remove then none else some file, unremoved := true } := by
      refine ⟨?_, h.placed, by rw [hfails]; rfl⟩
      rw [Fates.keeps, hfails]
      cases f.took .remove <;> rfl
    rw [Option.bind_some]
    dsimp only
    cases hpasses : trouble.passes with
    | none => exact ⟨rfl, hdropped⟩
    | some trouble => exact ⟨trouble, rfl, rfl, hdropped⟩

/-- Where the file has been moved, the clean-up finds nothing. -/
theorem ends_dropMoved (h : w.partialFile = none) :
    Ends (fun _ t => f.unremovable = none ∧ t = { w with unremoved := true })
      (fun raised t => ∃ trouble, f.unremovable = some trouble ∧ raised = .raw trouble ∧
        t = { w with unremoved := true })
      (exec (dropPartial f) w) := by
  have hnone (b : Bool) : (if b then none else w.partialFile) = w.partialFile := by rw [h, ite_self]
  rw [exec_dropPartial, hnone, h, Option.isNone_none, if_pos rfl, Fates.unremovable]
  cases hfails : f.fails .remove with
  | none => exact ⟨rfl, by rw [← h]⟩
  | some trouble =>
    rw [Option.some_or, Option.bind_some]
    dsimp only
    cases hpasses : trouble.passes with
    | none => exact ⟨rfl, by rw [← h]⟩
    | some trouble => exact ⟨trouble, rfl, rfl, by rw [← h]⟩

/-- **How a call fails**, and on which calls that depends. `unbegun`: what is raised before `open`;
    `unplaced`: what the `try` raises; `slips`: it raises behind a rename that took effect. -/
inductive Failed (f : Fates) (source : Source) (before : Option File) (folder target : Text)
    (unbegun unplaced : Option Raised) (slips : Bool) : Raised → World → Prop
  | unbegun {raised : Raised} (hbegun : unbegun = some raised) :
      Failed f source before folder target unbegun unplaced slips raised (.start before)
  | unopened {trouble : Trouble} (hbegun : unbegun = none)
      (hsame : (f.took .openPartial && before.isNone) = false) :
      Failed f source before folder target unbegun unplaced slips (trouble.translated folder)
        (.start before)
  | stranded {trouble : Trouble} (hbegun : unbegun = none)
      (hfails : f.fails .openPartial = some trouble) (htook : f.took .openPartial = true)
      (hfree : before = none) :
      Failed f source before folder target unbegun unplaced slips (trouble.translated folder)
        (.start (some f.created))
  | dropped {raised : Raised} {w : World} (hbegun : unbegun = none)
      (hopened : f.fails .openPartial = none) (hfree : before = none)
      (hunplaced : unplaced = some raised) (hslips : slips = false) (hdropped : Dropped f w) :
      Failed f source before folder target unbegun unplaced slips (f.leaving raised) w
  | slipped {raised : Raised} {w : World} (hbegun : unbegun = none)
      (hopened : f.fails .openPartial = none) (hfree : before = none)
      (hunplaced : unplaced = some raised) (hslips : slips = true) (hmoved : Moved f source w) :
      Failed f source before folder target unbegun unplaced slips (f.leaving raised) w
  | unseen {trouble : Trouble} {w : World} (hbegun : unbegun = none)
      (hopened : f.fails .openPartial = none) (hfree : before = none) (hplaced : unplaced = none)
      (hseen : f.fails .lstatDone = some trouble) (hmoved : Moved f source w) :
      Failed f source before folder target unbegun unplaced slips (trouble.translated target) w

/-- The call returns: nothing has failed that may not. -/
structure Filed (f : Fates) (source : Source) (before : Option File) (unbegun unplaced : Option Raised)
    (w : World) : Prop where
  begun : unbegun = none
  opened : f.fails .openPartial = none
  free : before = none
  placed : unplaced = none
  seen : f.fails .lstatDone = none
  moved : Moved f source w

section Filing

variable {before : Option File} {folder target : Text} {unbegun unplaced : Option Raised} {slips : Bool}
  {body : Write Unit}

theorem ends_openPartial (hbegun : unbegun = none) :
    Ends (fun _ t => f.fails .openPartial = none ∧ before = none ∧ t = .start (some f.created))
      (Failed f source before folder target unbegun unplaced slips)
      (exec (openPartial f folder) (.start before)) := by
  refine ends_translating ?_
  rw [exec_request]
  cases hfails : f.fails .openPartial with
  | none =>
    cases before with
    | none => exact ⟨rfl, rfl, rfl⟩
    | some file =>
      have hleft : Failed f source (some file) folder target unbegun unplaced slips
          ((Trouble.failure f.refusal).translated folder) (.start (some file)) :=
        .unopened hbegun (by simp)
      cases f.took .openPartial with
      | true => exact hleft
      | false => exact hleft
  | some trouble =>
    cases before with
    | none =>
      cases htook : f.took .openPartial with
      | true => exact .stranded hbegun hfails htook rfl
      | false => exact .unopened hbegun (by rw [htook]; rfl)
    | some file =>
      have hsame : (f.took .openPartial && (some file).isNone) = false := by simp
      cases f.took .openPartial with
      | true => exact .unopened hbegun hsame
      | false => exact .unopened hbegun hsame

theorem Moved.unremoved (h : Moved f source w) : Moved f source { w with unremoved := true } :=
  ⟨h.gone, h.placed, h.ends⟩

theorem leaving_of_none {raised : Raised} (h : f.unremovable = none) : f.leaving raised = raised := by
  rw [Fates.leaving, h]
  rfl

theorem leaving_of_some {raised : Raised} {trouble : Trouble} (h : f.unremovable = some trouble) :
    f.leaving raised = .raw trouble := by
  rw [Fates.leaving, h]
  rfl

/-- **From `open` on**: what both functions do around their `try`. -/
theorem ends_filed (hbegun : unbegun = none)
    (hbody : Ends (fun _ t => Moved f source t ∧ unplaced = none)
      (fun raised t => unplaced = some raised ∧ if slips then Moved f source t else Opened t)
      (exec body (.start (some f.created)))) :
    Ends (fun _ t => Filed f source before unbegun unplaced t)
      (Failed f source before folder target unbegun unplaced slips)
      (exec (do
        openPartial f folder
        cleaning body (dropPartial f)
        lstat f .lstatDone target) (.start before)) := by
  refine ends_bind (ends_openPartial hbegun) ?_
  rintro _ _ ⟨hopened, hfree, rfl⟩
  refine @ends_bind _ _ _ _ _ _ _ _ _ (fun _ t => Moved f source t ∧ unplaced = none)
    (ends_cleaning hbody fun raised t h => ?_) ?_
  · obtain ⟨hunplaced, hstate⟩ := h
    cases hslips : slips with
    | true =>
      rw [hslips, if_pos rfl] at hstate
      have hleft (e : Raised) (he : f.leaving raised = e) :
          Failed f source before folder target unbegun unplaced slips e { t with unremoved := true } :=
        he ▸ .slipped hbegun hopened hfree hunplaced hslips hstate.unremoved
      refine (ends_dropMoved hstate.gone).mono (fun _ u hu => ?_) fun e u hu => ?_
      · obtain ⟨hnone, rfl⟩ := hu
        exact hslips ▸ hleft raised (leaving_of_none hnone)
      · obtain ⟨trouble, hsome, rfl, rfl⟩ := hu
        exact hslips ▸ hleft _ (leaving_of_some hsome)
    | false =>
      rw [hslips, if_neg Bool.false_ne_true] at hstate
      have hleft (e : Raised) (u : World) (hu : Dropped f u) (he : f.leaving raised = e) :
          Failed f source before folder target unbegun unplaced slips e u :=
        he ▸ .dropped hbegun hopened hfree hunplaced hslips hu
      refine (ends_dropPartial hstate).mono (fun _ u hu => ?_) fun e u hu => ?_
      · exact hslips ▸ hleft raised u hu.2 (leaving_of_none hu.1)
      · obtain ⟨trouble, hsome, rfl, hdropped⟩ := hu
        exact hslips ▸ hleft _ u hdropped (leaving_of_some hsome)
  · rintro _ t ⟨hmoved, hplaced⟩
    refine ends_translating ?_
    obtain ⟨file, htarget, -⟩ := hmoved.placed
    rw [exec_lookAt, World.target, World.left, htarget]
    cases hseen : f.fails .lstatDone with
    | none => exact ⟨hbegun, hopened, hfree, hplaced, hseen, hmoved⟩
    | some trouble => exact .unseen hbegun hopened hfree hplaced hseen hmoved

end Filing

end Placed

/-! ## 4. All or nothing -/

section Promise

variable (f : Fates) (source : Source) (before : Option File)

/-- `target`: whatever others have put in the target's place is left there, or all bytes of the source
    are; `kept`: a new file takes nothing's place; `returned`: a return means that the bytes are there;
    `gone`: the partial name is as before, or the removal has raised. -/
structure Promise (new : Bool) (r : Except Raised Node × World) : Prop where
  target : ∀ others, r.2.left others = others ∨
    ∃ file, r.2.left others = some (.file file) ∧ file.content = source.content ∧ source.ends = none
  kept : new = true → ∀ placed ∈ r.2.placed, placed.was = none
  returned : ∀ node, r.1 = .ok node →
    ∃ placed ∈ r.2.placed, placed.file.content = source.content ∧ source.ends = none
  gone : r.2.partialFile = before ∨ r.2.unremoved = true

/-- `open` is reached, makes the partial file, and raises. -/
def Stranded (unbegun : Option Raised) : Prop :=
  unbegun = none ∧ f.fails .openPartial ≠ none ∧ f.took .openPartial = true ∧ before = none

/-- What `write_new` raises before `open`. -/
def Fates.newUnbegun (name target : Text) : Option Raised :=
  (if '/' ∈ name ∨ special name then some .valueError else none).or <|
    f.unconnected.or (f.taken .lstatFirst target)

/-- What `replace_file` raises before `open`. -/
def Fates.replaceUnbegun (folder name : Text) : Option Raised :=
  (if folder.head? ≠ some '/' ∨ special name then some .valueError else none).or f.unconnected

end Promise

section Main

variable {f : Fates} {source : Source} {before : Option File} {folder name token target path : Text}
  {mode : Option Nat} {owner : Option (Nat × Nat)} {unbegun unplaced : Option Raised} {slips new : Bool}
  {w : World} {r : Except Raised Node × World}

theorem Moved.holds (h : Moved f source w) (others : Option Node) :
    ∃ file, w.left others = some (.file file) ∧ file.content = source.content ∧ source.ends = none := by
  obtain ⟨file, hplaced, hcontent⟩ := h.placed
  exact ⟨file, by rw [World.left, hplaced], hcontent, h.ends⟩

theorem Moved.kept (h : Moved f source w) (hnone : f.stands .rename = none) :
    ∀ placed ∈ w.placed, placed.was = none := by
  obtain ⟨file, hplaced, -⟩ := h.placed
  intro placed hmem
  obtain rfl := Option.some.inj (hplaced.symm.trans hmem)
  exact hnone

theorem Filed.promise (h : Filed f source before unbegun unplaced w)
    (hnew : new = true → f.stands .rename = none) (node : Node) :
    Promise source before new (.ok node, w) where
  target others := .inr (h.moved.holds others)
  kept hn := h.moved.kept (hnew hn)
  returned _ _ := by
    obtain ⟨file, hplaced, hcontent⟩ := h.moved.placed
    exact ⟨_, hplaced, hcontent, h.moved.ends⟩
  gone := .inl (h.moved.gone.trans h.free.symm)

/-- **What a call that fails leaves.** -/
theorem Failed.promise_iff {raised : Raised}
    (h : Failed f source before folder target unbegun unplaced slips raised w)
    (hnew : new = true → slips = true ∨ unplaced = none → f.stands .rename = none) :
    Promise source before new (.error raised, w) ↔ ¬ Stranded f before unbegun := by
  have hclean (hplaced : w.placed = none) (hgone : w.partialFile = before ∨ w.unremoved = true) :
      Promise source before new (.error raised, w) :=
    ⟨fun others => .inl (by rw [World.left, hplaced]),
      fun _ placed hmem => absurd (hplaced.symm.trans hmem) nofun, nofun, hgone⟩
  have hmoved (hw : Moved f source w) (hfree : before = none) (hlate : slips = true ∨ unplaced = none) :
      Promise source before new (.error raised, w) :=
    ⟨fun others => .inr (hw.holds others), fun hn => hw.kept (hnew hn hlate), nofun,
      .inl (hw.gone.trans hfree.symm)⟩
  cases h with
  | unbegun hbegun =>
    refine iff_of_true (hclean rfl (.inl rfl)) fun hs => ?_
    rw [hs.1] at hbegun
    cases hbegun
  | unopened hbegun hsame =>
    refine iff_of_true (hclean rfl (.inl rfl)) fun hs => ?_
    rw [hs.2.2.1, hs.2.2.2] at hsame
    cases hsame
  | stranded hbegun hfails htook hfree =>
    refine iff_of_false (fun hp => ?_) (not_not_intro ⟨hbegun, ?_, htook, hfree⟩)
    · rcases hp.gone with hgone | hunremoved
      · rw [hfree] at hgone
        cases hgone
      · cases hunremoved
    · rw [hfails]
      exact Option.some_ne_none _
  | dropped hbegun hopened hfree hunplaced hslips hdropped =>
    refine iff_of_true (hclean hdropped.placed ?_) fun hs => hs.2.1 hopened
    cases hremove : f.fails .remove with
    | none =>
      have hthere := hdropped.there
      rw [Fates.keeps, hremove] at hthere
      have hgone : w.partialFile = none :=
        Option.isNone_iff_eq_none.mp (Option.isSome_eq_false_iff.mp hthere)
      exact .inl (hgone.trans hfree.symm)
    | some trouble => exact .inr (by rw [hdropped.removed, hremove]; rfl)
  | slipped hbegun hopened hfree hunplaced hslips hw =>
    exact iff_of_true (hmoved hw hfree (.inl hslips)) fun hs => hs.2.1 hopened
  | unseen hbegun hopened hfree hplaced hseen hw =>
    exact iff_of_true (hmoved hw hfree (.inr hplaced)) fun hs => hs.2.1 hopened

/-- **Exactly unless `open` fails behind its effect.** -/
theorem promise_iff (h : Ends (fun _ t => Filed f source before unbegun unplaced t)
      (Failed f source before folder target unbegun unplaced slips) r)
    (hnew : new = true → slips = true ∨ unplaced = none → f.stands .rename = none) :
    Promise source before new r ↔ ¬ Stranded f before unbegun := by
  obtain ⟨result, w⟩ := r
  cases result with
  | ok node =>
    have hfiled : Filed f source before unbegun unplaced w := h
    exact ⟨fun _ hs => hs.2.1 hfiled.opened,
      fun _ => hfiled.promise (fun hn => hnew hn (.inr hfiled.placed)) node⟩
  | error raised => exact Failed.promise_iff h hnew

theorem ends_sftp :
    Ends (fun _ t => t = w ∧ f.unconnected = none) (fun raised t => t = w ∧ f.unconnected = some raised)
      (exec (sftp f) w) := by
  rw [sftp, exec_tryCatch, exec_ask, never, Option.or_none, Fates.unconnected]
  cases f.fails .session with
  | none => exact ⟨rfl, rfl⟩
  | some trouble => cases h : trouble.isTransport <;> simp [Ends, h]

/-- **`write_new`**, every way it ends. -/
theorem ends_writeNew :
    let target := join folder name
    let partialPath := join folder (partialName name token)
    Ends (fun _ t => Filed f source before (f.newUnbegun name target)
        (f.unplaced source partialPath mode target) t)
      (Failed f source before folder target (f.newUnbegun name target)
        (f.unplaced source partialPath mode target) (f.slips source partialPath mode target))
      (exec (writeNew f source folder name token mode) (.start before)) := by
  intro target partialPath
  refine @ends_bind _ _ _ _ _ _ _ _ _ (fun _ t => t = .start before ∧ ¬ ('/' ∈ name ∨ special name))
    (ends_raiseIf (fun h => ⟨rfl, h⟩) fun h => .unbegun ?_) ?_
  · rw [Fates.newUnbegun, if_pos h, Option.some_or]
  rintro _ _ ⟨rfl, hname⟩
  refine ends_bind (ends_sftp.mono (fun _ _ h => h) ?_) ?_
  · rintro raised t ⟨rfl, hunconnected⟩
    exact .unbegun (by rw [Fates.newUnbegun, if_neg hname, hunconnected]; rfl)
  rintro _ _ ⟨rfl, hconnected⟩
  have hbegun : f.newUnbegun name target = f.taken .lstatFirst target := by
    rw [Fates.newUnbegun, if_neg hname, hconnected]
    rfl
  have htarget : (World.start before).target f .lstatFirst = f.stands .lstatFirst := rfl
  rw [exec_bind, exec_lexists, htarget]
  rw [Fates.taken] at hbegun
  cases hlooked : f.looked .lstatFirst target (f.stands .lstatFirst).isSome with
  | error raised =>
    rw [hlooked] at hbegun
    exact .unbegun hbegun
  | ok there =>
    rw [hlooked] at hbegun
    cases there with
    | true => exact .unbegun hbegun
    | false => exact ends_filed hbegun (ends_place rfl ⟨rfl, rfl, rfl⟩ rfl)

theorem free_of_unrenamed (h : f.unrenamed path = none) : f.stands .rename = none := by
  have hboth := Option.map_eq_none_iff.mp h
  exact Option.map_eq_none_iff.mp (Option.or_eq_none_iff.mp hboth).2

/-- `rename` takes effect only where nothing is in the place. -/
theorem free_of_writeNew
    (h : f.slips source path mode target = true ∨ f.unplaced source path mode target = none) :
    f.stands .rename = none := by
  rcases h with hslips | hplaced
  · exact Option.isNone_iff_eq_none.mp (Bool.and_eq_true_iff.mp (Bool.and_eq_true_iff.mp hslips).2).2
  · exact free_of_unrenamed (Option.or_eq_none_iff.mp (Option.or_eq_none_iff.mp hplaced).2).2

/-- **`replace_file`**, every way it ends. -/
theorem ends_replaceFile {data : Bytes} {mode : Nat} :
    let folder := (split path).1
    let name := (split path).2
    let partialPath := join folder (partialName name token)
    Ends (fun _ t => Filed f (.ofBytes data) before (f.replaceUnbegun folder name)
        (f.unplacedOver (.ofBytes data) partialPath (some mode) owner path) t)
      (Failed f (.ofBytes data) before folder path (f.replaceUnbegun folder name)
        (f.unplacedOver (.ofBytes data) partialPath (some mode) owner path)
        (f.slipsOver (.ofBytes data) partialPath (some mode) owner))
      (exec (replaceFile f path data token mode owner) (.start before)) := by
  intro folder name partialPath
  refine @ends_bind _ _ _ _ _ _ _ _ _
    (fun _ t => t = .start before ∧ ¬ (folder.head? ≠ some '/' ∨ special name))
    (ends_raiseIf (fun h => ⟨rfl, h⟩) fun h => .unbegun ?_) ?_
  · rw [Fates.replaceUnbegun, if_pos h, Option.some_or]
  rintro _ _ ⟨rfl, hname⟩
  refine ends_bind (ends_sftp.mono (fun _ _ h => h) ?_) ?_
  · rintro raised t ⟨rfl, hunconnected⟩
    exact .unbegun (by rw [Fates.replaceUnbegun, if_neg hname, hunconnected]; rfl)
  rintro _ _ ⟨rfl, hconnected⟩
  have hbegun : f.replaceUnbegun folder name = none := by
    rw [Fates.replaceUnbegun, if_neg hname, hconnected]
    rfl
  exact ends_filed hbegun (ends_placeOver rfl ⟨rfl, rfl, rfl⟩ rfl)

/-- **Both keep their promise exactly unless `open` fails behind its effect.** -/
theorem writes_promise_iff (f : Fates) (before : Option File) (token : Text) :
    (∀ source folder name mode,
      Promise source before true (exec (writeNew f source folder name token mode) (.start before)) ↔
        ¬ Stranded f before (f.newUnbegun name (join folder name))) ∧
    ∀ path data mode owner,
      Promise (.ofBytes data) before false
          (exec (replaceFile f path data token mode owner) (.start before)) ↔
        ¬ Stranded f before (f.replaceUnbegun (split path).1 (split path).2) :=
  ⟨fun _ _ _ _ => promise_iff ends_writeNew fun _ => free_of_writeNew,
    fun _ _ _ _ => promise_iff ends_replaceFile nofun⟩

end Main

/-- A server that makes the partial file, and whose answer is lost. -/
def answerLost : Fates where
  of call := if call = .openPartial then .fails true (.transport "timed out".toList) else .done
  write _ := .done
  stands _ := none
  room := 4096
  newMode := 0o644
  newOwner := (1000, 1000)
  tellsSize := true
  tellsMode := true
  tellsOwner := true
  refusal := "Failure".toList

/-- The partial file stays, and nothing has tried to remove it. -/
theorem partial_stranded :
    ¬ Promise ⟨[[1, 2]], by decide, none⟩ none true
      (exec (writeNew answerLost ⟨[[1, 2]], by decide, none⟩ "/srv".toList "a.txt".toList "00ff".toList
        none) (.start none)) := by
  intro h
  rcases h.gone with hgone | hunremoved
  · exact absurd hgone (by decide +kernel)
  · exact absurd hunremoved (by decide +kernel)

end Dbs.Remote.Writes

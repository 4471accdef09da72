/-
  File:      Dbs/Remote/Writes.lean
  Subject:   ONE FILE IS WRITTEN OVER SFTP (ssh_gateway.py, _write_whole).

  Any call may fail, behind its effect or not, and the source may raise. A pipelined write may fail
  unseen; its answer is read by the next call that is not a write. The server may keep less than it
  was sent.

  * `request` -- a call of paramiko, what the server refuses, and its effect;
  * `writeWhole` -- as the code has it;
  * `Fates.unwritten` -- what it raises, read off the calls alone;
  * `ends_writeWhole` -- it raises just that, or the file has all bytes of the source.
-/
import Dbs.Expiry
import Dbs.Lib.Effects
import Dbs.Remote.Redaction

namespace Dbs.Remote.Writes

open Effects Octets Redaction
open Expiry (cut)

/-! ## 1. Paths -/

/-- `posixpath.join` -/
def join (folder name : Text) : Text :=
  if name.head? = some '/' then name
  else if folder = [] ∨ folder.getLast? = some '/' then folder ++ name
  else folder ++ '/' :: name

/-- `posixpath.split` -/
def split (path : Text) : Text × Text :=
  let name := (path.reverse.takeWhile (· ≠ '/')).reverse
  let head := path.take (path.length - name.length)
  (if head.all (· = '/') then head else (head.reverse.dropWhile (· = '/')).reverse, name)

def partialNameBytes : Nat := 255 - 1 - 6 - 16

/-- `_partial_name`; `token`: what `secrets.token_hex(8)` gives. -/
def partialName (name token : Text) : Text :=
  '.' :: (cut partialNameBytes name ++ ".part-".toList ++ token)

/-- `name in {"", ".", ".."}` -/
def special (name : Text) : Bool := name = [] || name = ['.'] || name = ['.', '.']

/-! ## 2. Exceptions -/

inductive Trouble
  /-- `FileNotFoundError` -/
  | notFound
  /-- `PermissionError` -/
  | permission
  /-- An `OSError` without a number: the server's failure. -/
  | failure (text : Text)
  /-- Any other one of `TRANSPORT_ERRORS`. -/
  | transport (text : Text)
  /-- `UnicodeDecodeError` -/
  | undecodable (text : Text)
  /-- None of `SFTP_ERRORS`. -/
  | foreign
deriving DecidableEq

def Trouble.isTransport : Trouble → Bool
  | undecodable _ | foreign => false
  | _ => true

/-- `_sftp_failure` -/
def Trouble.isFailure : Trouble → Bool
  | failure _ => true
  | _ => false

inductive Raised
  | raw (trouble : Trouble)
  | remoteNotFound
  | remotePermissionDenied
  | remoteCommandFailed (output : Text)
  | fileExists
  | valueError
deriving DecidableEq

/-- `except SFTP_ERRORS as exc: raise _translated(exc, path)` -/
def Trouble.translated (path : Text) : Trouble → Raised
  | notFound => .remoteNotFound
  | permission => .remotePermissionDenied
  | failure text | transport text | undecodable text =>
    .remoteCommandFailed (tail (path ++ ": ".toList ++ text) [])
  | foreign => .raw .foreign

/-- An answer of the server to a write that failed. -/
abbrev Answer := { trouble : Trouble // trouble.isTransport = true }

/-! ## 3. The server -/

/-- `mode`: the permission bits. -/
structure File where
  content : Bytes
  mode : Nat
  owner : Nat × Nat
deriving DecidableEq

inductive Node
  | file (file : File)
  | folder
  | link
deriving DecidableEq

/-- What the file of a call took the place of. -/
structure Placed where
  was : Option Node
  file : File

/-- `placed`: this call has put its file into the target's place; `late`: the answer to a write that is
    still to be read; `unremoved`: the removal of the partial file has raised. -/
structure World where
  partialFile : Option File
  placed : Option Placed
  late : Option Answer
  unremoved : Bool

def World.start (partialFile : Option File) : World := ⟨partialFile, none, none, false⟩

/-- Each stands for one place of the code. -/
inductive Call
  | session
  | lstatFirst
  | openPartial
  | fstatCreated
  | chmodPartial
  | flush
  | fstatKept
  | chown
  | chmod
  | close
  | lstatAgain
  | rename
  | lstatRefused
  | remove
  | lstatDone
deriving DecidableEq

inductive Fate
  | done
  /-- `took`: the call has had its effect. -/
  | fails (took : Bool) (trouble : Trouble)

/-- `left`: what the file holds then. -/
inductive WriteFate
  | done
  | fails (trouble : Trouble) (left : Bytes)
  /-- It fails unseen. -/
  | late (answer : Answer) (left : Bytes)

/-- `SFTPAttributes`; a server leaves out what it does not tell. -/
structure Attributes where
  size : Option Nat
  mode : Option Nat
  uid : Option Nat
  gid : Option Nat

/-- What meets one call. `stands`: what the others have in the target's place; `room`: so many bytes
    of a file are kept; `created`: a file that was just made; `refusal`: the text of the server's
    failure. -/
structure Fates where
  of : Call → Fate
  write : Nat → WriteFate
  stands : Call → Option Node
  room : Nat
  newMode : Nat
  newOwner : Nat × Nat
  tellsSize : Bool
  tellsMode : Bool
  tellsOwner : Bool
  refusal : Text

/-- The reads of a source: the chunks, then an empty one or what the read raises. -/
structure Source where
  chunks : List Bytes
  nonempty : ∀ chunk ∈ chunks, chunk ≠ []
  ends : Option Trouble

def Source.content (source : Source) : Bytes := source.chunks.flatten

def transferWindow : Nat := 4 * 1024 * 1024

theorem ne_nil_of_mem_pieces {n : Nat} (hn : 0 < n) {data piece : Bytes} (h : piece ∈ pieces n data) :
    piece ≠ [] := by
  induction hlength : data.length using Nat.strong_induction_on generalizing data with
  | _ length ih =>
    by_cases hdata : data = []
    · rw [hdata, pieces_nil] at h
      cases h
    · rw [pieces_cons hn hdata] at h
      rcases List.mem_cons.mp h with rfl | hrest
      · have hpos := List.length_pos_iff.mpr hdata
        exact List.ne_nil_of_length_pos (by rw [List.length_take]; omega)
      · have hpos := List.length_pos_iff.mpr hdata
        exact ih _ (by rw [List.length_drop]; omega) hrest rfl

/-- `BytesIO(data)` -/
def Source.ofBytes (data : Bytes) : Source :=
  ⟨pieces transferWindow data, fun _ => ne_nil_of_mem_pieces (by decide), none⟩

/-- What stands in the target's place where the others have put `others` there. -/
def World.left (w : World) (others : Option Node) : Option Node :=
  match w.placed with
  | some placed => some (.file placed.file)
  | none => others

section Code

abbrev Write := Prog Raised World

variable (f : Fates)

/-- What stands in the target's place at a call. -/
def World.target (w : World) (call : Call) : Option Node := w.left (f.stands call)

def Fates.attributes (file : File) : Attributes where
  size := if f.tellsSize then some file.content.length else none
  mode := if f.tellsMode then some file.mode else none
  uid := if f.tellsOwner then some file.owner.1 else none
  gid := if f.tellsOwner then some file.owner.2 else none

/-- A call; `refuses`: what it raises by itself, without an effect. -/
def request (call : Call) (refuses : World → Option Trouble) (effect : World → World) : Write Unit := do
  let w ← get
  match f.of call, refuses w with
  | .done, none => set (effect w)
  | .done, some trouble => throw (.raw trouble)
  | .fails took trouble, refusal =>
    if took && refusal.isNone then set (effect w)
    throw (.raw trouble)

def never (_ : World) : Option Trouble := none

def World.answer (w : World) : Option Trouble := w.late.map (·.val)

def raiseIf (c : Prop) [Decidable c] (raised : Raised) : Write Unit :=
  if c then throw raised else pure ()

/-- `except SFTP_ERRORS as exc: raise _translated(exc, path) from exc` -/
def translating {α : Type} (path : Text) (x : Write α) : Write α :=
  tryCatch x fun
    | .raw trouble => throw (trouble.translated path)
    | raised => throw raised

/-- `with suppress(*TRANSPORT_ERRORS)` -/
def suppressing (x : Write Unit) : Write Unit :=
  tryCatch x fun
    | .raw trouble => if trouble.isTransport then pure () else throw (.raw trouble)
    | raised => throw raised

/-- The property `sftp`. -/
def sftp : Write Unit :=
  tryCatch (request f .session never id) fun
    | .raw trouble => throw (if trouble.isTransport then .remoteCommandFailed [] else .raw trouble)
    | raised => throw raised

def lookAt (call : Call) : Write Node := do
  request f call never id
  match (← get).target f call with
  | some node => pure node
  | none => throw (.raw .notFound)

def lstat (call : Call) (path : Text) : Write Node := translating path (lookAt f call)

/-- `_lexists` -/
def lexists (call : Call) (path : Text) : Write Bool :=
  tryCatch (do
    let _ ← lookAt f call
    pure true) fun
    | .raw .notFound => pure false
    | .raw trouble => throw (trouble.translated path)
    | raised => throw raised

/-! ## 4. Writing -/

def fstat (call : Call) : Write Attributes := do
  request f call World.answer id
  pure (((← get).partialFile.map f.attributes).getD ⟨none, none, none, none⟩)

def World.onPartial (change : File → File) (w : World) : World :=
  { w with partialFile := w.partialFile.map change }

/-- `handle.write`; `i`: how many there were before. -/
def write (i : Nat) (chunk : Bytes) : Write Unit :=
  match f.write i with
  | .done =>
    modify (·.onPartial fun file => { file with content := (file.content ++ chunk).take f.room })
  | .fails trouble left => do
    modify (·.onPartial fun file => { file with content := left })
    throw (.raw trouble)
  | .late answer left =>
    modify fun w =>
      { w.onPartial fun file => { file with content := left } with late := w.late.or (some answer) }

/-- The loop, which returns `written`. -/
def writeChunks (source : Source) : Write Nat := do
  source.chunks.zipIdx.forM fun (chunk, i) => write f i chunk
  match source.ends with
  | some trouble => throw (.raw trouble)
  | none => pure (source.chunks.map List.length).sum

def shown : Option Nat → Text
  | some n => (toString n).toList
  | none => "None".toList

def keptText (path : Text) (kept : Option Nat) (written : Nat) : Text :=
  path ++ ": the server kept ".toList ++ shown kept ++ " of ".toList ++ shown (some written) ++
    " bytes".toList

def partialFileMode : Nat := 0o600

def setOwner (created : Attributes) : Option (Nat × Nat) → Write Unit
  | some owner =>
    if (created.uid, created.gid) ≠ (some owner.1, some owner.2) then
      request f .chown never (·.onPartial ({ · with owner }))
    else pure ()
  | none => pure ()

theorem setOwner_some (created : Attributes) (owner : Nat × Nat) :
    setOwner f created (some owner) =
      if (created.uid, created.gid) ≠ (some owner.1, some owner.2) then
        request f .chown never (·.onPartial ({ · with owner }))
      else pure () := rfl

def setMode (created : Attributes) (mode : Option Nat) : Write Unit :=
  match mode.or created.mode with
  | some mode => request f .chmod never (·.onPartial ({ · with mode := mode % 0o10000 }))
  | none => pure ()

/-- `_write_whole` up to the second `stat`. -/
def send (source : Source) : Write (Attributes × Attributes × Nat) := do
  let created ← fstat f .fstatCreated
  request f .chmodPartial never (·.onPartial ({ · with mode := partialFileMode }))
  let written ← writeChunks f source
  request f .flush never id
  let kept ← fstat f .fstatKept
  pure (created, kept, written)

/-- `_write_whole` -/
def writeWhole (source : Source) (path : Text) (mode : Option Nat) (owner : Option (Nat × Nat)) :
    Write Unit :=
  translating path do
    let (created, kept, written) ← send f source
    raiseIf (kept.size ≠ some written) (.remoteCommandFailed (keptText path kept.size written))
    setOwner f created owner
    setMode f created mode

end Code

/-! ## 5. Calls -/

def Fates.fails (f : Fates) (call : Call) : Option Trouble :=
  match f.of call with
  | .done => none
  | .fails _ trouble => some trouble

def Fates.took (f : Fates) (call : Call) : Bool :=
  match f.of call with
  | .done => true
  | .fails took _ => took

/-- What the property `sftp` raises. -/
def Fates.unconnected (f : Fates) : Option Raised :=
  (f.fails .session).map fun trouble =>
    if trouble.isTransport then .remoteCommandFailed [] else .raw trouble

section Rules

variable {α : Type} {f : Fates} {call : Call} {refuses : World → Option Trouble}
    {effect : World → World}
  {w : World} {path : Text} {x : Write α}

/-- **A call**: its effect, or what it raises; then it has had its effect or not. -/
theorem exec_request :
    exec (request f call refuses effect) w =
      match (f.fails call).or (refuses w) with
      | none => (.ok (), effect w)
      | some trouble =>
        (.error (.raw trouble), if f.took call && (refuses w).isNone then effect w else w) := by
  unfold request Fates.fails Fates.took
  rw [exec_bind_ok (exec_get w)]
  cases f.of call with
  | done =>
    cases refuses w with
    | none => rfl
    | some trouble => rfl
  | fails took trouble =>
    cases refuses w with
    | none => cases took <;> rfl
    | some refusal => cases took <;> rfl

/-- A call without an effect on what is modelled. -/
theorem exec_ask :
    exec (request f call refuses id) w =
      match (f.fails call).or (refuses w) with
      | none => (.ok (), w)
      | some trouble => (.error (.raw trouble), w) := by
  rw [exec_request]
  cases (f.fails call).or (refuses w) with
  | none => rfl
  | some trouble => exact congrArg _ (ite_self w)

variable {post : α → World → Prop} {fail : Raised → World → Prop}

theorem ends_ask {post : Unit → World → Prop} (hok : f.fails call = none → refuses w = none → post () w)
    (hraised : ∀ trouble, (f.fails call).or (refuses w) = some trouble → fail (.raw trouble) w) :
    Ends post fail (exec (request f call refuses id) w) := by
  rw [exec_ask]
  cases h : (f.fails call).or (refuses w) with
  | none =>
    obtain ⟨hfails, hrefuses⟩ := Option.or_eq_none_iff.mp h
    exact hok hfails hrefuses
  | some trouble => exact hraised trouble h

/-- A call that refuses nothing. -/
theorem ends_request {post : Unit → World → Prop} (hok : f.fails call = none → post () (effect w))
    (hraised : ∀ trouble, f.fails call = some trouble →
      fail (.raw trouble) w ∧ fail (.raw trouble) (effect w)) :
    Ends post fail (exec (request f call never effect) w) := by
  rw [exec_request]
  cases h : f.fails call with
  | none => exact hok h
  | some trouble =>
    obtain ⟨hsame, heffect⟩ := hraised trouble h
    cases f.took call with
    | true => exact heffect
    | false => exact hsame

def Raised.translated (path : Text) : Raised → Raised
  | .raw trouble => trouble.translated path
  | raised => raised

theorem ends_translating (hx : Ends post (fun raised t => fail (raised.translated path) t) (exec x w)) :
    Ends post fail (exec (translating path x) w) := by
  refine ends_tryCatch hx fun raised t h => ?_
  cases raised with
  | raw trouble => exact h
  | _ => exact h

end Rules

/-! ## 6. What `_write_whole` raises -/

def WriteFate.raises : WriteFate → Option Trouble
  | fails trouble _ => some trouble
  | done | late _ _ => none

def WriteFate.answer : WriteFate → Option Answer
  | late answer _ => some answer
  | done | fails _ _ => none

section Trouble

variable (f : Fates) (source : Source) (path : Text) (mode : Option Nat) (owner : Option (Nat × Nat))

def Fates.firstRaised (chunks : List (Bytes × Nat)) : Option Trouble :=
  chunks.findSome? fun (_, i) => (f.write i).raises

def Fates.firstLate (chunks : List (Bytes × Nat)) : Option Answer :=
  chunks.findSome? fun (_, i) => (f.write i).answer

/-- Up to the second `stat`. -/
def Fates.unsent : Option Trouble :=
  (f.fails .fstatCreated).or <| (f.fails .chmodPartial).or <| (f.firstRaised source.chunks.zipIdx).or <|
    source.ends.or <| (f.fails .flush).or <| (f.fails .fstatKept).or <|
    (f.firstLate source.chunks.zipIdx).map (·.val)

/-- The server has not kept all, or does not say so. -/
def Fates.unkept : Option Raised :=
  let kept := if f.tellsSize then some (min f.room source.content.length) else none
  if kept = some source.content.length then none
  else some (.remoteCommandFailed (keptText path kept source.content.length))

/-- `(created.st_uid, created.st_gid) != owner` -/
def Fates.ownedOtherwise : Bool :=
  match owner with
  | some owner => !(f.tellsOwner && f.newOwner = owner)
  | none => false

def Fates.unowned : Option Trouble :=
  (if f.ownedOtherwise owner then f.fails .chown else none).or <|
    if mode.isSome || f.tellsMode then f.fails .chmod else none

/-- What `_write_whole` raises. -/
def Fates.unwritten : Option Raised :=
  ((f.unsent source).map (·.translated path)).or <| (f.unkept source path).or <|
    (f.unowned mode owner).map (·.translated path)

end Trouble

section Writing

variable {f : Fates} {source : Source} {path : Text} {mode : Option Nat} {owner : Option (Nat × Nat)}
  {w : World} {file : File} {call : Call}

def Fates.created (f : Fates) : File := ⟨[], f.newMode, f.newOwner⟩

/-- The partial file is there, and nothing is in the target's place. -/
structure Opened (w : World) : Prop where
  there : w.partialFile.isSome = true
  placed : w.placed = none
  removed : w.unremoved = false

theorem Opened.onPartial (h : Opened w) (change : File → File) : Opened (w.onPartial change) :=
  ⟨by rw [World.onPartial, Option.isSome_map]; exact h.there, h.placed, h.removed⟩

theorem Opened.target (h : Opened w) (call : Call) : w.target f call = f.stands call := by
  rw [World.target, World.left, h.placed]

theorem ends_fstat (hopen : w.partialFile = some file) :
    Ends (fun told t => t = w ∧ told = f.attributes file ∧ f.fails call = none ∧ w.late = none)
      (fun raised t => t = w ∧ ∃ trouble, raised = .raw trouble ∧
        (f.fails call).or w.answer = some trouble)
      (exec (fstat f call) w) := by
  refine @ends_bind _ _ _ _ _ _ _ _ _ (fun _ t => t = w ∧ f.fails call = none ∧ w.late = none)
    (ends_ask ?_ ?_) ?_
  · intro hfails hanswer
    exact ⟨rfl, hfails, Option.map_eq_none_iff.mp hanswer⟩
  · exact fun trouble h => ⟨rfl, trouble, rfl, h⟩
  · rintro _ t ⟨rfl, hfails, hlate⟩
    rw [exec_bind_ok (exec_get t), exec_pure, hopen]
    exact ⟨rfl, rfl, hfails, hlate⟩

/-- What the file holds behind these writes, and what is still to be read of them. -/
structure Sent (f : Fates) (chunks : List (Bytes × Nat)) (w : World) : Prop where
  opened : Opened w
  raised : f.firstRaised chunks = none
  late : w.late = f.firstLate chunks
  content : w.late = none →
    ∀ file ∈ w.partialFile, file.content = ((chunks.map (·.1)).flatten).take f.room

theorem take_append_take (room : Nat) (before chunk : Bytes) :
    (before.take room ++ chunk).take room = (before ++ chunk).take room := by
  have hleft : room - (before.take room).length = room - before.length := by
    rw [List.length_take]
    omega
  rw [List.take_append, List.take_take, Nat.min_self, hleft, List.take_append]

/-- **A write** carries it on, or raises. -/
theorem ends_write {chunks : List (Bytes × Nat)} {chunk : Bytes} {i : Nat} (h : Sent f chunks w) :
    Ends (fun _ t => Sent f (chunks ++ [(chunk, i)]) t)
      (fun raised t => Opened t ∧ ∃ trouble, raised = .raw trouble ∧ (f.write i).raises = some trouble)
      (exec (write f i chunk) w) := by
  have hraised : f.firstRaised (chunks ++ [(chunk, i)]) = (f.write i).raises := by
    rw [Fates.firstRaised, List.findSome?_append, ← Fates.firstRaised, h.raised]
    simp
  have hlate : f.firstLate (chunks ++ [(chunk, i)]) = w.late.or (f.write i).answer := by
    rw [Fates.firstLate, List.findSome?_append, ← Fates.firstLate, h.late]
    simp
  unfold write
  cases hwrite : f.write i with
  | done =>
    rw [hwrite] at hraised hlate
    refine ⟨h.opened.onPartial _, hraised, ?_, ?_⟩
    · rw [hlate]
      exact (Option.or_none).symm
    · intro hnone file hfile
      obtain ⟨before, hbefore, rfl⟩ := Option.map_eq_some_iff.mp hfile
      have hcontent := h.content hnone before hbefore
      simp [hcontent, take_append_take]
  | fails trouble left =>
    exact ⟨h.opened.onPartial _, trouble, rfl, rfl⟩
  | late answer left =>
    rw [hwrite] at hraised hlate
    have hopened := h.opened.onPartial fun file => { file with content := left }
    refine ⟨{ hopened with }, hraised, hlate.symm, ?_⟩
    intro hnone
    cases hw : w.late <;> simp [hw] at hnone

/-- **The loop**: all was sent, or what it raised. -/
theorem ends_writeChunks (hopened : Opened w) (hlate : w.late = none)
    (hempty : ∀ file ∈ w.partialFile, file.content = []) :
    Ends (fun written t => written = source.content.length ∧ source.ends = none ∧
        Sent f source.chunks.zipIdx t)
      (fun raised t => Opened t ∧ ∃ trouble, raised = .raw trouble ∧
        (f.firstRaised source.chunks.zipIdx).or source.ends = some trouble)
      (exec (writeChunks f source) w) := by
  refine @ends_bind _ _ _ _ _ _ _ _ _ (fun _ t => Sent f source.chunks.zipIdx t) ?_ ?_
  · refine ends_forM (I := Sent f) ?_ ⟨hopened, rfl, hlate, fun _ file hfile => ?_⟩
    · rintro done ⟨chunk, i⟩ rest v hsplit hdone
      refine (ends_write hdone).mono (fun _ _ h => h) ?_
      rintro raised t ⟨hopened, trouble, rfl, hraises⟩
      refine ⟨hopened, trouble, rfl, ?_⟩
      have hfirst : f.firstRaised source.chunks.zipIdx = some trouble := by
        rw [hsplit, Fates.firstRaised, List.findSome?_append, ← Fates.firstRaised, hdone.raised]
        simp [hraises]
      rw [hfirst, Option.some_or]
    · rw [hempty file hfile]
      exact List.take_nil.symm
  · intro _ t hsent
    cases hends : source.ends with
    | some trouble =>
      refine ⟨hsent.opened, trouble, rfl, ?_⟩
      rw [hsent.raised, Option.none_or]
    | none => exact ⟨List.length_flatten.symm, rfl, hsent⟩

theorem ends_raiseIf {c : Prop} [Decidable c] {raised : Raised} {post : Unit → World → Prop}
    {fail : Raised → World → Prop} (hok : ¬ c → post () w) (hraised : c → fail raised w) :
    Ends post fail (exec (raiseIf c raised) w) := by
  unfold raiseIf
  split
  · next h => exact hraised h
  · next h => exact hok h

theorem unwritten_of_unsent {trouble : Trouble} (h : f.unsent source = some trouble) :
    f.unwritten source path mode owner = some (trouble.translated path) := by
  rw [Fates.unwritten, h]
  rfl

theorem ownedOtherwise_iff (o : Nat × Nat) :
    ((f.attributes file).uid, (f.attributes file).gid) ≠ (some o.1, some o.2) ↔
      (!(f.tellsOwner && file.owner = o)) = true := by
  unfold Fates.attributes
  cases f.tellsOwner with
  | false => simp
  | true => simp [Prod.ext_iff, imp_iff_not_or]

/-- What is there behind the second `stat`. -/
structure Arrived (source : Source) (w : World) : Prop where
  opened : Opened w
  content : ∀ file ∈ w.partialFile, file.content = source.content

theorem Arrived.changed (h : Arrived source w) {change : File → File}
    (hchange : ∀ file, (change file).content = file.content) : Arrived source (w.onPartial change) := by
  refine ⟨h.opened.onPartial change, fun file hfile => ?_⟩
  obtain ⟨before, hbefore, rfl⟩ := Option.map_eq_some_iff.mp hfile
  exact (hchange before).trans (h.content before hbefore)

/-- Neither owner nor mode changes the bytes. -/
theorem ends_change (h : Arrived source w) {change : File → File}
    (hchange : ∀ file, (change file).content = file.content) :
    Ends (fun _ t => Arrived source t ∧ f.fails call = none)
      (fun raised t => Arrived source t ∧ ∃ trouble, raised = .raw trouble ∧
        f.fails call = some trouble)
      (exec (request f call never (·.onPartial change)) w) :=
  ends_request (fun hfails => ⟨h.changed hchange, hfails⟩)
    fun trouble hfails => ⟨⟨h, trouble, rfl, hfails⟩, ⟨h.changed hchange, trouble, rfl, hfails⟩⟩

theorem ends_setOwner (h : Arrived source w) :
    Ends (fun _ t => Arrived source t ∧
      (if f.ownedOtherwise owner then f.fails .chown else none) = none)
      (fun raised t => Arrived source t ∧ ∃ trouble, raised = .raw trouble ∧
        (if f.ownedOtherwise owner then f.fails .chown else none) = some trouble)
      (exec (setOwner f (f.attributes f.created) owner) w) := by
  cases owner with
  | none => exact ⟨h, rfl⟩
  | some o =>
    have howned : ((f.attributes f.created).uid, (f.attributes f.created).gid) ≠ (some o.1, some o.2) ↔
        f.ownedOtherwise (some o) = true := ownedOtherwise_iff o
    rw [setOwner_some, if_congr howned rfl rfl]
    split
    · exact ends_change h fun _ => rfl
    · exact ⟨h, rfl⟩

theorem ends_setMode (h : Arrived source w) :
    Ends (fun _ t => Arrived source t ∧
        (if mode.isSome || f.tellsMode then f.fails .chmod else none) = none)
      (fun raised t => Arrived source t ∧ ∃ trouble, raised = .raw trouble ∧
        (if mode.isSome || f.tellsMode then f.fails .chmod else none) = some trouble)
      (exec (setMode f (f.attributes f.created) mode) w) := by
  have htold : (f.attributes f.created).mode = if f.tellsMode then some f.newMode else none := rfl
  unfold setMode
  rw [htold]
  cases mode with
  | some m => exact ends_change h fun _ => rfl
  | none =>
    cases f.tellsMode with
    | true => exact ends_change h fun _ => rfl
    | false => exact ⟨h, rfl⟩

theorem unwritten_of_unowned {trouble : Trouble} (hsent : f.unsent source = none)
    (hkept : f.unkept source path = none) (h : f.unowned mode owner = some trouble) :
    f.unwritten source path mode owner = some (trouble.translated path) := by
  rw [Fates.unwritten, hsent, hkept, h]
  rfl

/-- **Up to the second `stat`**: what the file holds then, or what was raised. -/
theorem ends_send (hcreated : w.partialFile = some f.created) (hopened : Opened w)
    (hlate : w.late = none) :
    Ends (fun told t => f.unsent source = none ∧ source.ends = none ∧ Opened t ∧ ∃ file,
        t.partialFile = some file ∧ file.content = source.content.take f.room ∧
        told = (f.attributes f.created, f.attributes file, source.content.length))
      (fun raised t => Opened t ∧ ∃ trouble, raised = .raw trouble ∧ f.unsent source = some trouble)
      (exec (send f source) w) := by
  refine ends_bind ((ends_fstat hcreated).mono (fun _ _ h => h) ?_) ?_
  · rintro raised t ⟨rfl, trouble, rfl, hraised⟩
    rw [World.answer, hlate, Option.map_none, Option.or_none] at hraised
    refine ⟨hopened, trouble, rfl, ?_⟩
    rw [Fates.unsent, hraised, Option.some_or]
  rintro told t ⟨rfl, rfl, hfirst, -⟩
  have hempty (file : File) (hfile : file ∈ t.partialFile) : file.content = [] := by
    rw [hcreated] at hfile
    cases hfile
    rfl
  refine @ends_bind _ _ _ _ _ _ _ _ _ (fun _ u => f.fails .chmodPartial = none ∧
    u = t.onPartial ({ · with mode := partialFileMode })) (ends_request (fun h => ⟨h, rfl⟩) ?_) ?_
  · intro trouble hfails
    have hunsent : f.unsent source = some trouble := by
      rw [Fates.unsent, hfirst, hfails, Option.none_or, Option.some_or]
    exact ⟨⟨hopened, trouble, rfl, hunsent⟩, ⟨hopened.onPartial _, trouble, rfl, hunsent⟩⟩
  rintro _ u ⟨hchmod, rfl⟩
  have hwrites : f.unsent source = ((f.firstRaised source.chunks.zipIdx).or source.ends).or
      ((f.fails .flush).or <| (f.fails .fstatKept).or <|
        (f.firstLate source.chunks.zipIdx).map (·.val)) := by
    rw [Fates.unsent, hfirst, hchmod, Option.none_or, Option.none_or, Option.or_assoc]
  refine ends_bind ((ends_writeChunks (hopened.onPartial _) hlate ?_).mono (fun _ _ h => h) ?_) ?_
  · intro file hfile
    obtain ⟨before, hbefore, rfl⟩ := Option.map_eq_some_iff.mp hfile
    exact hempty before hbefore
  · rintro raised v ⟨hv, trouble, rfl, hraised⟩
    exact ⟨hv, trouble, rfl, by rw [hwrites, hraised, Option.some_or]⟩
  rintro written v ⟨rfl, hends, hsent⟩
  rw [hsent.raised, hends, Option.none_or, Option.none_or, ← hsent.late] at hwrites
  refine @ends_bind _ _ _ _ _ _ _ _ _ (fun _ u => f.fails .flush = none ∧ u = v)
    (ends_ask (fun h _ => ⟨h, rfl⟩) ?_) ?_
  · intro trouble hflush
    rw [never, Option.or_none] at hflush
    exact ⟨hsent.opened, trouble, rfl, by rw [hwrites, hflush, Option.some_or]⟩
  rintro _ u ⟨hflush, rfl⟩
  rw [hflush, Option.none_or] at hwrites
  obtain ⟨file, hfile⟩ := Option.isSome_iff_exists.mp hsent.opened.there
  refine ends_bind ((ends_fstat hfile).mono (fun _ _ h => h) ?_) ?_
  · rintro raised t ⟨rfl, trouble, rfl, hraised⟩
    exact ⟨hsent.opened, trouble, rfl, hwrites.trans hraised⟩
  rintro kept t ⟨rfl, rfl, hkept, hnone⟩
  have hunsent : f.unsent source = none := by rw [hwrites, hkept, hnone]; rfl
  have hcontent := hsent.content hnone file hfile
  rw [List.zipIdx_map_fst] at hcontent
  exact ⟨hunsent, hends, hsent.opened, file, hfile, hcontent, rfl⟩

/-- **`_write_whole`**: the partial file has all bytes, or it raises what the calls say. -/
theorem ends_writeWhole (hcreated : w.partialFile = some f.created) (hopened : Opened w)
    (hlate : w.late = none) :
    Ends (fun _ t => Arrived source t ∧ source.ends = none ∧ f.unwritten source path mode owner = none)
      (fun raised t => Opened t ∧ f.unwritten source path mode owner = some raised)
      (exec (writeWhole f source path mode owner) w) := by
  refine ends_translating ?_
  refine ends_bind ((ends_send hcreated hopened hlate).mono (fun _ _ h => h) ?_) ?_
  · rintro raised t ⟨ht, trouble, rfl, hunsent⟩
    exact ⟨ht, unwritten_of_unsent hunsent⟩
  rintro _ t ⟨hunsent, hends, ht, file, hfile, hcontent, rfl⟩
  have hsize : (f.attributes file).size =
      if f.tellsSize then some (min f.room source.content.length) else none := by
    rw [← List.length_take, ← hcontent]
    rfl
  refine @ends_bind _ _ _ _ _ _ _ _ _ (fun _ u => f.unkept source path = none ∧ Arrived source u)
    (ends_raiseIf (fun h => ?_) fun h => ?_) ?_
  · rw [hsize, not_not] at h
    refine ⟨if_pos h, ht, fun other hother => ?_⟩
    obtain rfl : file = other := Option.some.inj (hfile.symm.trans hother)
    have hroom : source.content.length ≤ f.room := by
      split at h
      · exact min_eq_right_iff.mp (Option.some.inj h)
      · cases h
    rw [hcontent, List.take_of_length_le hroom]
  · rw [hsize] at h ⊢
    refine ⟨ht, ?_⟩
    rw [Fates.unwritten, hunsent, Fates.unkept, if_neg h]
    rfl
  rintro _ u ⟨hkept, hu⟩
  refine ends_bind (ends_setOwner hu |>.mono (fun _ _ h => h) ?_) ?_
  · rintro raised v ⟨hv, trouble, rfl, hchown⟩
    exact ⟨hv.opened, unwritten_of_unowned hunsent hkept
      (by rw [Fates.unowned, hchown, Option.some_or])⟩
  rintro _ v ⟨hv, hchown⟩
  refine (ends_setMode hv).mono (fun _ t h => ?_) ?_
  · obtain ⟨ht, hchmod⟩ := h
    refine ⟨ht, hends, ?_⟩
    rw [Fates.unwritten, hunsent, hkept, Fates.unowned, hchown, hchmod]
    rfl
  · rintro raised t ⟨ht, trouble, rfl, hchmod⟩
    exact ⟨ht.opened,
      unwritten_of_unowned hunsent hkept (by rw [Fates.unowned, hchown, hchmod, Option.none_or])⟩

end Writing

end Dbs.Remote.Writes

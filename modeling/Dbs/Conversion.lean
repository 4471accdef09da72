/-
  File:      Dbs/Conversion.lean
  Subject:   A REPORTED CONVERSION IS A WHOLE ONE (upgrade.py, convert_backup; io.py, write_new): a
             backup of an earlier format is converted beside the original, under the first candidate
             name that is free; a candidate whose header is of the current format is taken for an
             earlier conversion.

  * `Formats` -- what the readers and converters of containers answer, whatever that is;
  * `convertAll`, `requireValid` -- the pure part; `step` -- the calls one after another, each of them
    system call by system call, killed or failing at any of them, among files that others put there;
  * `Unbroken` -- where there are no hard links the copy is not cut short, and a file of others under a
    candidate name is complete if its header is of the current format;
  * `Sound` -- what every such step keeps; `conversion_whole` -- what is reported is whole, and no
    file of before was changed; `header_reported` -- a file that ends behind its header is reported.
-/
import Dbs.Container.Reader
import Dbs.Lib.Folder
import Dbs.Naming

namespace Dbs.Conversion

open Octets Naming Runs Folder

/-! ## 1. Converting -/

/-- `read_format_version`, `validate_backup` (ok and its summary, or what it raises) and
    `CONVERTERS`. -/
structure Formats where
  version : Bytes → Option Nat
  validate : Bytes → Option Bytes → Except String (Bool × String)
  converters : List (Nat × (Bytes → Option Bytes → Except String Bytes))

variable (F : Formats)

structure BackupState where
  path : Name
  version : Option Nat
  convertedTo : Option Name := none
  convertedEarlier : Bool := false
  error : String := ""

def conversionName (path : Name) (version copy : Nat) : Name :=
  let stem := if backupSuffix.isSuffixOf path then path.take (path.length - backupSuffix.length)
    else path
  let marker := ['.', 'v'] ++ Nat.toDigits 10 version ++
    if copy ≤ 1 then [] else '-' :: Nat.toDigits 10 copy
  stem ++ marker ++ backupSuffix

/-- The `while` of `convert_backup`, with the hops that are left. -/
def convertAll (passphrase : Option Bytes) : Nat → Option Nat → Bytes → Except String Bytes
  | hops, version, data =>
    if version = some formatVersion then .ok data
    else match version with
      | none => .error "the container version could not be determined"
      | some v =>
        match F.converters.lookup v with
        | none => .error s!"format version {v} has no converter in this build"
        | some convert =>
          match convert data passphrase with
          | .error e => .error s!"converting from version {v} failed: {e}"
          | .ok data =>
            match hops with
            | 0 => .error "the converters do not reach the current format"
            | hops + 1 => convertAll passphrase hops (F.version data) data

def versionText : Option Nat → String
  | none => "None"
  | some v => toString v

/-- `require_valid`; what it raises. -/
def requireValid (data : Bytes) (passphrase : Option Bytes) : Except String Unit :=
  if F.version data ≠ some formatVersion then
    .error s!"it is format version {versionText (F.version data)}, not {formatVersion}"
  else match F.validate data passphrase with
    | .error e => .error e
    | .ok (true, _) => .ok ()
    | .ok (false, summary) => .error summary

/-- **A whole conversion**: a container of the current format that validates. -/
def Whole (data : Bytes) : Prop :=
  F.version data = some formatVersion ∧
    ∃ passphrase summary, F.validate data passphrase = .ok (true, summary)

/-! ## 2. Calls -/

abbrev Files := List (Name × Bytes)

/-- Where a call is. -/
inductive Phase
  /-- `existing_conversion`, at a candidate. -/
  | looking (copy : Nat)
  /-- The original is to be read and converted. -/
  | reading
  /-- The partial file is to be written and verified. -/
  | writing (data : Bytes)
  /-- It is to get the name of a candidate. -/
  | claiming (data : Bytes) (part : Name) (copy : Nat)
  /-- `_write_exclusive`, where it cannot be linked. -/
  | copying (data : Bytes) (part target : Name)
  /-- The partial file is to be removed. -/
  | cleaning (part : Name) (result : BackupState)

/-- A call of `convert_backup`. -/
structure Call where
  state : BackupState
  passphrase : Option Bytes
  before : Files
  phase : Phase

/-- What a call returned, and the folder before and after it. -/
structure Outcome where
  state : BackupState
  before : Files
  after : Files

/-- The folder, the call under way, the candidates that are the work of calls, and what was returned. -/
structure World where
  files : Files
  call : Option Call
  own : List Name
  outcomes : List Outcome

def World.start (files : Files) : World := ⟨files, none, [], []⟩

def World.at (w : World) (c : Call) (phase : Phase) : World := { w with call := some { c with phase } }

def World.finish (w : World) (c : Call) (state : BackupState) : World :=
  { w with call := none, outcomes := ⟨state, c.before, w.files⟩ :: w.outcomes }

inductive Action
  | convert (path : Name) (version : Option Nat) (passphrase : Option Bytes)
  | look
  | read
  | verify (random : Name)
  | writeFails (message : String)
  /-- The link is made, or the file system refuses links. -/
  | claim (linked : Bool)
  | claimFails (message : String)
  | write (count : Nat)
  | copied
  /-- The copy raises; whether its file could be removed. -/
  | copyFails (removed : Bool) (message : String)
  | cleanUp
  | kill
  /-- A file of another program. -/
  | appear (name : Name) (data : Bytes)

def Call.candidate (c : Call) (copy : Nat) : Name := conversionName c.state.path formatVersion copy

/-- `mkstemp`, beside the first candidate. -/
def Call.part (c : Call) (random : Name) : Name :=
  '.' :: (c.candidate 1 ++ '.' :: (random ++ ['.', 'p', 'a', 'r', 't']))

def Call.failed (c : Call) (message : String) : BackupState := { c.state with error := message }

def Call.done (c : Call) (target : Name) : BackupState :=
  { c.state with convertedTo := some target, version := some formatVersion }

def callStep (w : World) (c : Call) : Action → Option World
  | .look =>
    match c.phase with
    | .looking copy =>
      match find (c.candidate copy) w.files with
      | none => some (w.at c .reading)
      | some data =>
        if F.version data = some formatVersion then
          some (w.finish c { c.state with
            convertedTo := some (c.candidate copy), convertedEarlier := true })
        else some (w.at c (.looking (copy + 1)))
    | _ => none
  | .read =>
    match c.phase with
    | .reading =>
      match find c.state.path w.files with
      | none => some { w with call := none }
      | some data =>
        match convertAll F c.passphrase (F.converters.length + 1) c.state.version data with
        | .error e => some (w.finish c (c.failed e))
        | .ok data => some (w.at c (.writing data))
    | _ => none
  | .verify random =>
    let part := c.part random
    match c.phase, find part w.files with
    | .writing data, none =>
      let w := { w with files := put part data w.files }
      match requireValid F data c.passphrase with
      | .error e => some (w.at c
          (.cleaning part (c.failed ("the converted file did not validate: " ++ e))))
      | .ok () => some (w.at c (.claiming data part 1))
    | _, _ => none
  | .writeFails message =>
    match c.phase with
    | .writing _ => some (w.finish c (c.failed ("could not write the converted file: " ++ message)))
    | _ => none
  | .claim linked =>
    match c.phase with
    | .claiming data part copy =>
      let target := c.candidate copy
      match find target w.files, find part w.files with
      | some _, _ => some (w.at c (.claiming data part (copy + 1)))
      | none, origin =>
        match linked, origin with
        | true, some found =>
          some { w.at c (.cleaning part (c.done target)) with
            files := put target found w.files
            own := target :: w.own }
        | true, none => none
        | false, _ =>
          some { w.at c (.copying data part target) with
            files := put target [] w.files
            own := target :: w.own }
    | _ => none
  | .claimFails message =>
    match c.phase with
    | .claiming _ part _ =>
      some (w.at c (.cleaning part (c.failed ("could not write the converted file: " ++ message))))
    | _ => none
  | .write count =>
    match c.phase with
    | .copying data _ target =>
      match find target w.files with
      | some written =>
        some { w.at c c.phase with files := put target (data.take (written.length + count)) w.files }
      | none => none
    | _ => none
  | .copied =>
    match c.phase with
    | .copying data part target =>
      if find target w.files = some data then some (w.at c (.cleaning part (c.done target))) else none
    | _ => none
  | .copyFails removed message =>
    match c.phase with
    | .copying _ part target =>
      some { w.at c (.cleaning part (c.failed ("could not write the converted file: " ++ message))) with
        files := if removed then remove target w.files else w.files }
    | _ => none
  | .cleanUp =>
    match c.phase with
    | .cleaning part result =>
      some ({ w with files := remove part w.files }.finish c result)
    | _ => none
  | .kill => some { w with call := none }
  | _ => none

/-- One system call, or a kill. -/
def step (w : World) : Action → Option World
  | .convert path version passphrase =>
    if w.call.isNone then
      some { w with call := some ⟨{ path, version }, passphrase, w.files, .looking 1⟩ }
    else none
  | .appear name data =>
    if find name w.files = none then
      some { w with files := put name data w.files, own := w.own.filter fun n => n ≠ name }
    else none
  | a => w.call.bind fun c => callStep F w c a

/-! ## 3. The condition -/

/-- What stands under the name of the copy is all of it, or is not taken for a container of the current
    format. -/
def Unread (w : World) : Prop :=
  ∀ c data part target found, w.call = some c → c.phase = .copying data part target →
    find target w.files = some found → found = data ∨ F.version found ≠ some formatVersion

/-- **Unbroken**: a copy is not cut short behind a header that can be read, by a kill or by an error
    whose file is not removed; and a file of others under a candidate name, when it is looked at, is
    whole if its header is of the current format. -/
def Unbroken (w : World) : Action → Prop
  | .look => ∀ c copy data, w.call = some c → c.phase = .looking copy →
      find (c.candidate copy) w.files = some data → c.candidate copy ∉ w.own →
      F.version data = some formatVersion → Whole F data
  | .kill => Unread F w
  | .copyFails false _ => Unread F w
  | _ => True

/-! ## 4. What every such step keeps -/

variable {F : Formats} {w w' : World} {c : Call} {n m part target : Name} {data found : Bytes}

/-- The name that a copy is written under. -/
def Phase.busy : Phase → Option Name
  | .copying _ _ target => some target
  | _ => none

/-- The partial file. -/
def Phase.temporary : Phase → Option Name
  | .claiming _ part _ => some part
  | .copying _ part _ => some part
  | .cleaning part _ => some part
  | _ => none

/-- What the phase has behind it: the data is valid and stands in the partial file, and a result that is
    ready names a whole file. -/
def Phase.Ready (F : Formats) (files : Files) : Phase → Prop
  | .claiming data part _ => Whole F data ∧ find part files = some data
  | .copying data part target =>
    Whole F data ∧ find part files = some data ∧ target ≠ part
  | .cleaning part result => ∀ n, result.convertedTo = some n →
      n ≠ part ∧ ∃ data, find n files = some data ∧ Whole F data
  | _ => True

/-- The files of before stand as they stood, and are none of the call's own. -/
def Spares (files before : Files) (phase : Phase) : Prop :=
  ∀ n data, find n before = some data →
    find n files = some data ∧ phase.temporary ≠ some n ∧ phase.busy ≠ some n

def World.busy (w : World) : Option Name := w.call.bind fun c => c.phase.busy

/-- What is reported is whole, and every file of before is as it was. -/
def Outcome.Honest (F : Formats) (o : Outcome) : Prop :=
  (∀ n, o.state.convertedTo = some n → ∃ data, find n o.after = some data ∧ Whole F data) ∧
    ∀ n data, find n o.before = some data → find n o.after = some data

/-- **The invariant.** -/
structure Sound (F : Formats) (w : World) : Prop where
  fresh : ∀ c, w.call = some c → c.state.convertedTo = none
  ready : ∀ c, w.call = some c → c.phase.Ready F w.files
  spares : ∀ c, w.call = some c → Spares w.files c.before c.phase
  own : ∀ n ∈ w.own, w.busy ≠ some n → ∀ data, find n w.files = some data →
    F.version data = some formatVersion → Whole F data
  names : ∀ n ∈ w.own, backupSuffix <:+ n
  outcomes : ∀ o ∈ w.outcomes, o.Honest F

theorem sound_start (files : Files) : Sound F (World.start files) where
  fresh := nofun
  ready := nofun
  spares := nofun
  own := fun _ h => (List.not_mem_nil h).elim
  names := fun _ h => (List.not_mem_nil h).elim
  outcomes := fun _ h => (List.not_mem_nil h).elim

theorem whole_of_requireValid {passphrase : Option Bytes}
    (h : requireValid F data passphrase = .ok ()) :
    Whole F data := by
  unfold requireValid at h
  split at h
  · cases h
  · rename_i hversion
    split at h
    · cases h
    · rename_i summary hok
      exact ⟨not_not.mp hversion, passphrase, summary, hok⟩
    · cases h

theorem busy_of_call (hc : w.call = some c) : w.busy = c.phase.busy := by
  rw [World.busy, hc]
  rfl

/-- A file of a call that is not at work on it. -/
theorem Sound.own_whole (h : Sound F w) (hc : w.call = some c) (hbusy : c.phase.busy = none)
    (hn : n ∈ w.own) (hf : find n w.files = some data) (hv : F.version data = some formatVersion) :
    Whole F data := h.own n hn (by rw [busy_of_call hc, hbusy]; nofun) data hf hv

variable {files : Files}

/-- **A call returns.** -/
theorem Sound.finish (h : Sound F w) {state : BackupState}
    (hstate : ∀ n, state.convertedTo = some n → ∃ data, find n files = some data ∧ Whole F data)
    (hbefore : ∀ n data, find n c.before = some data → find n files = some data)
    (hown : ∀ n ∈ w.own, ∀ data, find n files = some data → F.version data = some formatVersion →
      Whole F data) :
    Sound F ({ w with files }.finish c state) where
  fresh := nofun
  ready := nofun
  spares := nofun
  own := fun n hn _ => hown n hn
  names := h.names
  outcomes := fun o ho => by
    rcases List.mem_cons.mp ho with rfl | ho
    · exact ⟨hstate, hbefore⟩
    · exact h.outcomes o ho

/-- A call returns, and leaves the folder as it is. -/
theorem Sound.return (h : Sound F w) (hc : w.call = some c) (hbusy : c.phase.busy = none)
    {state : BackupState}
    (hstate : ∀ n, state.convertedTo = some n → ∃ data, find n w.files = some data ∧ Whole F data) :
    Sound F (w.finish c state) :=
  h.finish hstate (fun n data hn => (h.spares c hc n data hn).1)
    fun _ hn _ hf hv => h.own_whole hc hbusy hn hf hv

/-- No call is under way. -/
theorem Sound.idle (h : Sound F w) (hown : ∀ n ∈ w.own, ∀ data, find n w.files = some data →
    F.version data = some formatVersion → Whole F data) : Sound F { w with call := none } where
  __ := h
  fresh := nofun
  ready := nofun
  spares := nofun
  own := fun n hn _ => hown n hn

variable {phase : Phase}

/-- **A call goes on** in a folder that has changed under names of its own. -/
theorem Sound.goOn (h : Sound F w) (hc : w.call = some c)
    {own : List Name} (hready : phase.Ready F files) (hspares : Spares files c.before phase)
    (hown : ∀ n ∈ own, phase.busy ≠ some n → ∀ data, find n files = some data →
      F.version data = some formatVersion → Whole F data)
    (hnames : ∀ n ∈ own, backupSuffix <:+ n) :
    Sound F { w.at c phase with files, own } where
  fresh := fun d hd => by
    cases hd
    exact h.fresh c hc
  ready := fun d hd => by
    cases hd
    exact hready
  spares := fun d hd => by
    cases hd
    exact hspares
  own := hown
  names := hnames
  outcomes := h.outcomes

/-- The same, where the folder stays as it is and no copy is under way. -/
theorem Sound.stay (h : Sound F w) (hc : w.call = some c) (hbusy : c.phase.busy = none)
    (hnew : phase.busy = none)
    (htemporary : phase.temporary = none ∨ phase.temporary = c.phase.temporary)
    (hready : phase.Ready F w.files) : Sound F (w.at c phase) := by
  refine h.goOn hc hready (fun n data hn => ?_)
    (fun n hn _ data hf hv => h.own_whole hc hbusy hn hf hv) h.names
  obtain ⟨hfound, hp, -⟩ := h.spares c hc n data hn
  refine ⟨hfound, ?_, by rw [hnew]; nofun⟩
  rcases htemporary with htemporary | htemporary <;> rw [htemporary]
  · nofun
  · exact hp

theorem conversionName_suffix (path : Name) (version copy : Nat) :
    backupSuffix <:+ conversionName path version copy := List.suffix_append _ _

theorem part_suffix (c : Call) (random : Name) : ¬ backupSuffix <:+ c.part random := by
  intro h
  have hpart : ['.', 'p', 'a', 'r', 't'] <:+ c.part random :=
    ⟨'.' :: (c.candidate 1 ++ '.' :: random), by simp [Call.part]⟩
  exact absurd (List.suffix_of_suffix_length_le h hpart (by decide)) (by decide)

section

variable (h : Sound F w)

include h

/-- A name that had nothing is none of before. -/
theorem Sound.new (hc : w.call = some c) (hfree : find n w.files = none)
    (hfiles : ∀ m, m ≠ n → find m files = find m w.files) :
    ∀ m data, find m c.before = some data → m ≠ n ∧ find m files = some data := by
  intro m data hm
  have hfound := (h.spares c hc m data hm).1
  have hne : m ≠ n := fun he => by rw [he, hfree] at hfound; cases hfound
  exact ⟨hne, (hfiles m hne).trans hfound⟩

/-- **The partial file is written and verified.** -/
theorem Sound.verify (hc : w.call = some c) (hbusy : c.phase.busy = none)
    (hfree : find part w.files = none) (hnew : phase.busy = none)
    (htemporary : phase.temporary = some part) (hpart : ¬ backupSuffix <:+ part)
    (hready : phase.Ready F (put part data w.files)) :
    Sound F { w.at c phase with files := put part data w.files } := by
  refine h.goOn hc hready (fun m found hm => ?_) (fun m hm _ found hf hv => ?_) h.names
  · obtain ⟨hne, hsame⟩ := h.new hc hfree (fun m hm => find_put_ne hm) m found hm
    refine ⟨hsame, ?_, by rw [hnew]; nofun⟩
    rw [htemporary]
    exact fun he => hne (Option.some.inj he).symm
  · have hne : m ≠ part := fun he => hpart (he ▸ h.names m hm)
    rw [find_put_ne hne] at hf
    exact h.own_whole hc hbusy hm hf hv

/-- **A candidate is claimed**, and its file is whole, or the copy into it is under way. -/
theorem Sound.claim (hc : w.call = some c) (hbusy : c.phase.busy = none)
    (hpart : c.phase.temporary = some part) (hfree : find target w.files = none)
    (htarget : backupSuffix <:+ target) (htemporary : phase.temporary = some part)
    (hnew : phase.busy = none ∧ Whole F found ∨ phase.busy = some target)
    (hready : phase.Ready F (put target found w.files)) :
    Sound F { w.at c phase with files := put target found w.files, own := target :: w.own } := by
  refine h.goOn hc hready (fun m data hm => ?_) (fun m hm hb data hf hv => ?_) fun m hm => ?_
  · obtain ⟨hne, hsame⟩ := h.new hc hfree (fun m hm => find_put_ne hm) m data hm
    refine ⟨hsame, ?_, ?_⟩
    · rw [htemporary, ← hpart]
      exact (h.spares c hc m data hm).2.1
    · rcases hnew with ⟨hnew, -⟩ | hnew <;> rw [hnew]
      · nofun
      · exact fun he => hne (Option.some.inj he).symm
  · by_cases hmt : m = target
    · subst hmt
      rw [find_put_self] at hf
      rcases hnew with ⟨-, hwhole⟩ | hnew
      · exact Option.some.inj hf ▸ hwhole
      · exact absurd hnew hb
    · rw [find_put_ne hmt] at hf
      exact h.own_whole hc hbusy ((List.mem_cons.mp hm).resolve_left hmt) hf hv
  · rcases List.mem_cons.mp hm with rfl | hm
    · exact htarget
    · exact h.names m hm

/-- **The copy goes on, or ends**: only its own file changes, and behind it that is whole or not
    read. -/
theorem Sound.copy (hc : w.call = some c) (hp : c.phase = .copying data part target)
    (hfiles : ∀ m, m ≠ target → find m files = find m w.files)
    (htemporary : phase.temporary = some part)
    (hnew : phase.busy = some target ∨ phase.busy = none ∧ ∀ found, find target files = some found →
      F.version found = some formatVersion → Whole F found)
    (hready : phase.Ready F files) : Sound F { w.at c phase with files } := by
  have hbusy : w.busy = some target := by rw [busy_of_call hc, hp]; rfl
  refine h.goOn hc hready (fun m found hm => ?_) (fun m hm hb found hf hv => ?_) h.names
  · obtain ⟨hsame, hpart, hb⟩ := h.spares c hc m found hm
    rw [hp] at hpart hb
    have hne : m ≠ target := fun he => hb (he ▸ rfl)
    refine ⟨(hfiles m hne).trans hsame, by rw [htemporary]; exact hpart, ?_⟩
    rcases hnew with hnew | ⟨hnew, -⟩ <;> rw [hnew]
    · exact hb
    · nofun
  · by_cases hmt : m = target
    · subst hmt
      rcases hnew with hnew | ⟨-, hnew⟩
      · exact absurd hnew hb
      · exact hnew found hf hv
    · rw [hfiles m hmt] at hf
      exact h.own m hm (by rw [hbusy]; exact fun he => hmt (Option.some.inj he).symm) found hf hv

/-- A call that failed names no conversion. -/
theorem Sound.failed (hc : w.call = some c) (message : String) :
    ∀ n, (c.failed message).convertedTo = some n → ∃ data, find n files = some data ∧ Whole F data := by
  intro n hn
  rw [Call.failed, h.fresh c hc] at hn
  cases hn

theorem Sound.failed_ready (hc : w.call = some c) (message : String) :
    (Phase.cleaning part (c.failed message)).Ready F files := by
  intro n hn
  rw [Call.failed, h.fresh c hc] at hn
  cases hn

end

theorem done_ready (hne : target ≠ part) (hf : find target files = some data)
    (hwhole : Whole F data) : (Phase.cleaning part (c.done target)).Ready F files := by
  intro n hn
  cases hn
  exact ⟨hne, data, hf, hwhole⟩

theorem callStep_phase (hp : c.phase = phase) (a : Action) :
    callStep F w c a = callStep F w { c with phase } a := hp ▸ rfl

theorem callStep_look {copy : Nat} (hp : c.phase = .looking copy) :
    callStep F w c .look =
      match find (c.candidate copy) w.files with
      | none => some (w.at c .reading)
      | some data =>
        if F.version data = some formatVersion then
          some (w.finish c { c.state with
            convertedTo := some (c.candidate copy), convertedEarlier := true })
        else some (w.at c (.looking (copy + 1))) := callStep_phase hp .look

theorem callStep_claim {part : Name} {copy : Nat} {linked : Bool}
    (hp : c.phase = .claiming data part copy) (hdata : find part w.files = some data) :
    callStep F w c (.claim linked) =
      match find (c.candidate copy) w.files, linked with
      | some _, _ => some (w.at c (.claiming data part (copy + 1)))
      | none, true =>
        some { w.at c (.cleaning part (c.done (c.candidate copy))) with
          files := put (c.candidate copy) data w.files
          own := c.candidate copy :: w.own }
      | none, false =>
        some { w.at c (.copying data part (c.candidate copy)) with
          files := put (c.candidate copy) [] w.files
          own := c.candidate copy :: w.own } := by
  rw [callStep_phase hp]
  show (match find (c.candidate copy) w.files, find part w.files with
    | some _, _ => some (w.at c (.claiming data part (copy + 1)))
    | none, origin =>
      match linked, origin with
      | true, some found =>
        some { w.at c (.cleaning part (c.done (c.candidate copy))) with
          files := put (c.candidate copy) found w.files
          own := c.candidate copy :: w.own }
      | true, none => none
      | false, _ =>
        some { w.at c (.copying data part (c.candidate copy)) with
          files := put (c.candidate copy) [] w.files
          own := c.candidate copy :: w.own }) = _
  rw [hdata]
  cases find (c.candidate copy) w.files <;> cases linked <;> rfl

/-- The candidate that is looked at. -/
theorem Sound.look (h : Sound F w) (hc : w.call = some c) (hin : Unbroken F w .look)
    (hstep : callStep F w c .look = some w') : Sound F w' := by
  cases hp : c.phase with
  | looking copy =>
    have hbusy : c.phase.busy = none := by rw [hp]; rfl
    rw [callStep_look hp] at hstep
    cases hf : find (c.candidate copy) w.files with
    | none =>
      rw [hf] at hstep
      cases hstep
      exact h.stay hc hbusy rfl (.inl rfl) trivial
    | some data =>
      rw [hf] at hstep
      by_cases hv : F.version data = some formatVersion
      · obtain rfl := Option.some.inj ((if_pos hv).symm.trans hstep)
        refine h.return hc hbusy fun n hn => ?_
        cases hn
        refine ⟨data, hf, ?_⟩
        by_cases hown : c.candidate copy ∈ w.own
        · exact h.own_whole hc hbusy hown hf hv
        · exact hin c copy data hc hp hf hown hv
      · obtain rfl := Option.some.inj ((if_neg hv).symm.trans hstep)
        exact h.stay hc hbusy rfl (.inl rfl) trivial
  | _ =>
    rw [callStep_phase hp] at hstep
    cases hstep

theorem Sound.claiming (h : Sound F w) (hc : w.call = some c) {linked : Bool}
    (hstep : callStep F w c (.claim linked) = some w') : Sound F w' := by
  cases hp : c.phase with
  | claiming data part copy =>
    have hbusy : c.phase.busy = none := by rw [hp]; rfl
    have hpart : c.phase.temporary = some part := by rw [hp]; rfl
    obtain ⟨hwhole, hdata⟩ : Whole F data ∧ find part w.files = some data := by
      have hready := h.ready c hc
      rwa [hp] at hready
    rw [callStep_claim hp hdata] at hstep
    cases hfree : find (c.candidate copy) w.files with
    | some other =>
      rw [hfree] at hstep
      cases hstep
      exact h.stay hc hbusy rfl (.inr hpart.symm) ⟨hwhole, hdata⟩
    | none =>
      have hne : c.candidate copy ≠ part := fun he => by rw [he, hdata] at hfree; cases hfree
      have hsuffix := conversionName_suffix c.state.path formatVersion copy
      rw [hfree] at hstep
      cases linked with
      | true =>
        cases hstep
        exact h.claim hc hbusy hpart hfree hsuffix rfl (.inl ⟨rfl, hwhole⟩)
          (done_ready hne find_put_self hwhole)
      | false =>
        cases hstep
        exact h.claim hc hbusy hpart hfree hsuffix rfl (.inr rfl)
          ⟨hwhole, (find_put_ne (Ne.symm hne)).trans hdata, hne⟩
  | _ =>
    rw [callStep_phase hp] at hstep
    cases hstep

/-- What a copy that is under way has. -/
theorem Sound.copying (h : Sound F w) (hc : w.call = some c)
    (hp : c.phase = .copying data part target) :
    Whole F data ∧ find part w.files = some data ∧ target ≠ part := by
  have hready := h.ready c hc
  rwa [hp] at hready

section Calling

variable (h : Sound F w) (hc : w.call = some c)

include h hc

/-- The container is read: the call is over, has failed, or goes on with what was converted. -/
theorem Sound.reading (hstep : callStep F w c .read = some w') : Sound F w' := by
  simp only [callStep] at hstep
  split at hstep
  · rename_i hp
    have hbusy : c.phase.busy = none := by rw [hp]; rfl
    split at hstep
    · cases hstep
      exact h.idle fun n hn _ hf hv => h.own_whole hc hbusy hn hf hv
    · split at hstep
      · cases hstep
        exact h.return hc hbusy (h.failed hc _)
      · cases hstep
        exact h.stay hc hbusy rfl (.inl rfl) trivial
  · cases hstep

/-- What was written is verified before it gets a name of its own. -/
theorem Sound.verifying {random : Name} (hstep : callStep F w c (.verify random) = some w') :
    Sound F w' := by
  simp only [callStep] at hstep
  split at hstep
  · rename_i data hp hfree
    have hbusy : c.phase.busy = none := by rw [hp]; rfl
    split at hstep
    · cases hstep
      exact h.verify hc hbusy hfree rfl rfl (part_suffix c random) (h.failed_ready hc _)
    · rename_i hvalid
      cases hstep
      exact h.verify hc hbusy hfree rfl rfl (part_suffix c random)
        ⟨whole_of_requireValid hvalid, find_put_self⟩
  · cases hstep

theorem Sound.writing {count : Nat} (hstep : callStep F w c (.write count) = some w') : Sound F w' := by
  simp only [callStep] at hstep
  split at hstep
  · rename_i data part target hp
    obtain ⟨hwhole, hdata, hne⟩ := h.copying hc hp
    split at hstep
    · cases hstep
      refine h.copy hc hp (fun m hm => find_put_ne hm) (by rw [hp]; rfl) (.inl (by rw [hp]; rfl)) ?_
      rw [hp]
      exact ⟨hwhole, (find_put_ne (Ne.symm hne)).trans hdata, hne⟩
    · cases hstep
  · cases hstep

/-- The copy is all of what was verified. -/
theorem Sound.copied (hstep : callStep F w c .copied = some w') : Sound F w' := by
  simp only [callStep] at hstep
  split at hstep
  · rename_i data part target hp
    obtain ⟨hwhole, hdata, hne⟩ := h.copying hc hp
    obtain ⟨hf, hw⟩ := Option.ite_none_right_eq_some.mp hstep
    cases hw
    refine h.copy hc hp (fun _ _ => rfl) rfl (.inr ⟨rfl, fun found hfound _ => ?_⟩)
      (done_ready hne hf hwhole)
    exact Option.some.inj (hf.symm.trans hfound) ▸ hwhole
  · cases hstep

/-- A copy that fails is removed, or stays as what no reader takes for a container. -/
theorem Sound.copyFails {removed : Bool} {message : String}
    (hin : Unbroken F w (.copyFails removed message))
    (hstep : callStep F w c (.copyFails removed message) = some w') : Sound F w' := by
  simp only [callStep] at hstep
  split at hstep
  · rename_i data part target hp
    obtain ⟨hwhole, hdata, hne⟩ := h.copying hc hp
    cases hstep
    cases removed with
    | true =>
      refine h.copy hc hp (fun m hm => find_remove_ne hm) rfl
        (.inr ⟨rfl, fun found hfound => ?_⟩) (h.failed_ready hc _)
      rw [if_pos rfl, find_remove_self] at hfound
      cases hfound
    | false =>
      refine h.copy hc hp (fun _ _ => rfl) rfl (.inr ⟨rfl, fun found hfound hv => ?_⟩)
        (h.failed_ready hc _)
      rcases hin c data part target found hc hp hfound with rfl | hnot
      · exact hwhole
      · exact absurd hv hnot
  · cases hstep

/-- The partial file goes, and the result stays. -/
theorem Sound.cleaningUp (hstep : callStep F w c .cleanUp = some w') : Sound F w' := by
  simp only [callStep] at hstep
  split at hstep
  · rename_i part result hp
    have hready := h.ready c hc
    rw [hp] at hready
    cases hstep
    refine h.finish (fun n hn => ?_) (fun n data hn => ?_) fun n hn data hf hv => ?_
    · obtain ⟨hne, data, hf, hwhole⟩ := hready n hn
      exact ⟨data, (find_remove_ne hne).trans hf, hwhole⟩
    · obtain ⟨hf, hpart, -⟩ := h.spares c hc n data hn
      rw [hp] at hpart
      exact (find_remove_ne fun he => hpart (congrArg some he.symm)).trans hf
    · rw [find_remove] at hf
      obtain ⟨-, hf⟩ := Option.ite_none_left_eq_some.mp hf
      exact h.own_whole hc (by rw [hp]; rfl) hn hf hv
  · cases hstep

theorem Sound.killed (hin : Unbroken F w .kill) (hstep : callStep F w c .kill = some w') :
    Sound F w' := by
  cases hstep
  refine h.idle fun n hn data hf hv => ?_
  by_cases hbusy : w.busy = some n
  · rw [busy_of_call hc] at hbusy
    cases hp : c.phase with
    | copying whole part target =>
      rw [hp] at hbusy
      obtain rfl := Option.some.inj hbusy
      rcases hin c whole part target data hc hp hf with rfl | hnot
      · exact (h.copying hc hp).1
      · exact absurd hv hnot
    | _ => rw [hp] at hbusy; cases hbusy
  · exact h.own n hn hbusy data hf hv

/-- **Every unbroken step of a call.** -/
theorem Sound.call {a : Action} (hin : Unbroken F w a) (hstep : callStep F w c a = some w') :
    Sound F w' := by
  cases a with
  | convert _ _ _ | appear _ _ => cases hstep
  | read => exact h.reading hc hstep
  | look => exact h.look hc hin hstep
  | verify random => exact h.verifying hc hstep
  | claim linked => exact h.claiming hc hstep
  | write count => exact h.writing hc hstep
  | copied => exact h.copied hc hstep
  | copyFails removed message => exact h.copyFails hc hin hstep
  | cleanUp => exact h.cleaningUp hc hstep
  | kill => exact h.killed hc hin hstep
  | writeFails message =>
    simp only [callStep] at hstep
    split at hstep
    · rename_i data hp
      cases hstep
      exact h.return hc (by rw [hp]; rfl) (h.failed hc _)
    · cases hstep
  | claimFails message =>
    simp only [callStep] at hstep
    split at hstep
    · rename_i data part copy hp
      cases hstep
      exact h.stay hc (by rw [hp]; rfl) rfl (.inr (by rw [hp]; rfl)) (h.failed_ready hc _)
    · cases hstep

end Calling

theorem step_sound {a : Action} (h : Sound F w) (hin : Unbroken F w a) (hstep : step F w a = some w') :
    Sound F w' := by
  have hcall : (w.call.bind fun c => callStep F w c a) = some w' → Sound F w' := fun hstep => by
    obtain ⟨c, hc, hstep⟩ := Option.bind_eq_some_iff.mp hstep
    exact h.call hc hin hstep
  cases a with
  | convert path version passphrase =>
    obtain ⟨hnone, hw⟩ := Option.ite_none_right_eq_some.mp hstep
    cases hw
    have hbusy : w.busy = none := by rw [World.busy, Option.isNone_iff_eq_none.mp hnone]; rfl
    refine ⟨fun c hc => ?_, fun c hc => ?_, fun c hc => ?_, fun n hn _ data hf hv => ?_, h.names,
      h.outcomes⟩
    · cases hc
      rfl
    · cases hc
      trivial
    · cases hc
      exact fun n data hn => ⟨hn, nofun, nofun⟩
    · exact h.own n hn (by rw [hbusy]; nofun) data hf hv
  | appear name data =>
    obtain ⟨hfree, hw⟩ := Option.ite_none_right_eq_some.mp hstep
    cases hw
    have hkeep : ∀ {n found}, find n w.files = some found →
      find n (put name data w.files) = some found := by
      intro n found hf
      rw [find_put_ne fun he => by rw [he, hfree] at hf; cases hf]
      exact hf
    refine ⟨h.fresh, fun c hc => ?_, fun c hc n found hn => ?_, fun n hn hbusy found hf hv => ?_,
      fun n hn => h.names n (List.mem_filter.mp hn).1, h.outcomes⟩
    · have hready := h.ready c hc
      cases hp : c.phase with
      | claiming whole part copy =>
        rw [hp] at hready
        exact ⟨hready.1, hkeep hready.2⟩
      | copying whole part target =>
        rw [hp] at hready
        exact ⟨hready.1, hkeep hready.2.1, hready.2.2⟩
      | cleaning part result =>
        rw [hp] at hready
        intro n hn
        obtain ⟨hne, found, hf, hwhole⟩ := hready n hn
        exact ⟨hne, found, hkeep hf, hwhole⟩
      | _ => trivial
    · obtain ⟨hf, hrest⟩ := h.spares c hc n found hn
      exact ⟨hkeep hf, hrest⟩
    · obtain ⟨hn, hne⟩ := List.mem_filter.mp hn
      rw [find_put_ne (of_decide_eq_true hne)] at hf
      exact h.own n hn hbusy found hf hv
  | _ => exact hcall hstep

/-! ## 5. What is reported -/

/-- **A reported conversion is a whole conversion**: in every unbroken run, what a call returned as
    converted is a container of the current format that validates, and no file of before the call was
    changed. -/
theorem conversion_whole {files : Files} {as : List Action}
    (hrun : run (step F) (World.start files) as = some w)
    (hin : Along (step F) (Unbroken F) (World.start files) as) : ∀ o ∈ w.outcomes, o.Honest F :=
  (run_invariant_along (fun _ _ _ hstep hin hs => step_sound hs hin hstep) hrun hin
    (sound_start files)).outcomes

/-! ## 6. A file that ends behind its header -/

/-- A candidate whose header is of the current format is reported. -/
theorem looked {copy : Nat} (hc : w.call = some c) (hp : c.phase = .looking copy)
    (hf : find (c.candidate copy) w.files = some data) (hv : F.version data = some formatVersion) :
    step F w .look = some (w.finish c { c.state with
      convertedTo := some (c.candidate copy), convertedEarlier := true }) := by
  show (w.call.bind fun c => callStep F w c .look) = _
  rw [hc, Option.bind_some, callStep_look hp, hf]
  exact if_pos hv

section HeaderOnly

variable (P : Primitives)

/-- `read_format_version`, of a file with a sealed header in front. -/
def frontVersion (data : Bytes) : Option Nat :=
  (openSealedHeader P (data.take sealedMaxSize)).map Prod.fst

/-- `_validate_stream`, as far as the blocks go. -/
def validateStream (data : Bytes) (passphrase : Option Bytes) : Except String (Bool × String) :=
  match StreamReader.create P data passphrase with
  | .error _ => .ok (false, "unreadable")
  | .ok r =>
    match Effects.exec (r.verify P) (r.start ()) with
    | (.ok report, _) => .ok (report.ok, report.summary)
    | (.error _, _) => .ok (false, "unreadable")

def streams : Formats := ⟨frontVersion P, validateStream P, []⟩

theorem takeWhile_none {α : Type} {p : α → Bool} {l : List α} (h : ∀ x ∈ l, p x = false) :
    l.takeWhile p = [] := by
  cases l with
  | nil => rfl
  | cons x l => rw [List.takeWhile_cons, h x List.mem_cons_self]; rfl

/-- **The end of a file that is only a header is not found.** -/
theorem locateEnd_header (h header : StreamHeader) :
    locateEnd P (h.seal P) header = .error endMissing := by
  have hl : (h.seal P).length = headerSize := h.seal_length P
  have hstart : (h.seal P).length - headerSize - 2 * trailerSize < headerSize := by
    rw [hl, Nat.sub_self, Nat.zero_sub]
    decide
  have hbatch : scanBatch header.layout (h.seal P).length 0 = [] := by
    refine takeWhile_none fun x hx => ?_
    obtain ⟨candidate, -, rfl⟩ := List.mem_map.mp hx
    rw [hl]
    exact decide_eq_false (Nat.not_lt.mpr (Nat.le_add_right _ _))
  have hscan : scanBlockCount P (h.seal P) header.layout = .error endMissing := by
    rw [scanBlockCount, scanFrom, hbatch]
    rfl
  unfold locateEnd
  simp only [readTrailers, if_pos hstart, hscan]
  rfl

theorem bind_ne_ok {ε α β : Type} {x : Except ε α} {f : α → Except ε β} (h : ∀ a b, f a ≠ .ok b)
    (b : β) :
    (x >>= f) ≠ .ok b := by
  cases x with
  | error e => nofun
  | ok a => exact h a b

theorem create_header (h : StreamHeader) (passphrase : Option Bytes) (r : StreamReader) :
    StreamReader.create P (h.seal P) passphrase ≠ .ok r := by
  unfold StreamReader.create
  refine bind_ne_ok ?_ r
  rintro ⟨header, damaged⟩ b
  have hend : ∀ (k : _ → Except Raised StreamReader) b,
      (locateEnd P (h.seal P) header >>= k) ≠ .ok b := by
    intro k b hb
    rw [locateEnd_header] at hb
    cases hb
  cases passphrase with
  | none => exact bind_ne_ok (fun _ => hend _) b
  | some passphrase =>
    exact bind_ne_ok (fun _ => bind_ne_ok fun _ => bind_ne_ok fun _ => hend _) b

theorem header_version (h : StreamHeader) :
    (streams P).version (h.seal P) = some formatVersion := by
  have hsame : (streams P).version = frontVersion P := rfl
  have hlength : (h.seal P).length ≤ sealedMaxSize := by
    rw [h.seal_length P]
    decide
  have hopen := h.open_seal P []
  rw [List.append_nil] at hopen
  rw [hsame, frontVersion, List.take_of_length_le hlength, hopen]
  rfl

/-- **A header alone** is taken for a container of the current format, and does not validate. -/
theorem header_not_whole (h : StreamHeader) : ¬ Whole (streams P) (h.seal P) := by
  intro hwhole
  obtain ⟨-, passphrase, summary, hvalid⟩ := hwhole
  have hsame : (streams P).validate = validateStream P := rfl
  rw [hsame] at hvalid
  cases hr : StreamReader.create P (h.seal P) passphrase with
  | error e =>
    rw [validateStream, hr] at hvalid
    exact Bool.noConfusion (Prod.mk.inj (Except.ok.inj hvalid)).1
  | ok r => exact create_header P h passphrase r hr

/-- A killed copy, or a download that was cut short, has left a header under the first candidate. -/
def cutShort (h : StreamHeader) : Files :=
  [(['a', '.', 'd', 'b', 's'], [1]),
    (conversionName ['a', '.', 'd', 'b', 's'] formatVersion 1, h.seal P)]

/-- The call that looks at it. -/
def lookAt : List Action := [.convert ['a', '.', 'd', 'b', 's'] (some 1) none, .look]

theorem find_cutShort (h : StreamHeader) :
    find (conversionName ['a', '.', 'd', 'b', 's'] formatVersion 1) (cutShort P h) =
      some (h.seal P) := by
  rw [cutShort, find_cons, if_neg (by decide), find_cons, if_pos rfl]

theorem cutShort_reported (h : StreamHeader) :
    ∃ w, run (step (streams P)) (World.start (cutShort P h)) lookAt = some w ∧
      ∃ o ∈ w.outcomes, ¬ o.Honest (streams P) := by
  refine ⟨_, run_cons_eq_some.mpr ⟨_, rfl, run_cons_eq_some.mpr
    ⟨_, looked rfl rfl (find_cutShort P h) (header_version P h), rfl⟩⟩, _, List.mem_cons_self, ?_⟩
  intro hhonest
  obtain ⟨data, hf, hwhole⟩ := hhonest.1 _ rfl
  obtain rfl : h.seal P = data := Option.some.inj ((find_cutShort P h).symm.trans hf)
  exact header_not_whole P h hwhole

end HeaderOnly

/-- A format of three bytes, with one converter. -/
def small : Formats where
  version data := data.head?.map UInt8.toNat
  validate data _ := .ok (data.length == 3, "")
  converters := [(1, fun _ _ => .ok [2, 0, 0])]

def old : Name := ['a', '.', 'd', 'b', 's']

def tokenOf : Name := ['t']

/-- A conversion, from the first call to the last. -/
def converting : List Action :=
  [.convert old (some 1) none, .look, .read, .verify tokenOf, .claim true, .cleanUp]

theorem conversion_whole_small : ∃ w, run (step small) (World.start [(old, [1])]) converting = some w ∧
    w.outcomes.length = 1 ∧ ∀ o ∈ w.outcomes, o.Honest small := by
  obtain ⟨w, hw⟩ : ∃ w, run (step small) (World.start [(old, [1])]) converting = some w := by
    rw [← Option.isSome_iff_exists]
    decide +kernel
  have hone : (run (step small) (World.start [(old, [1])]) converting).map
      (fun w => w.outcomes.length) = some 1 := by decide +kernel
  rw [hw, Option.map_some, Option.some.injEq] at hone
  refine ⟨w, hw, hone, conversion_whole hw ?_⟩
  refine ⟨trivial, fun t ht => ⟨fun c copy data hc hp hf => ?_, fun t _ => along_of_forall ?_⟩⟩
  · cases ht
    cases hc
    cases hp
    have hfree : find (conversionName old formatVersion 1) [(old, ([1] : Bytes))] = none := by decide
    exact absurd (hfree.symm.trans hf) nofun
  · simp [Unbroken]

def header : StreamHeader where
  flags := 0
  layout := ⟨512, 2, 1⟩
  kdfParams := {}
  salt := zeros 16
  containerId := zeros 16
  noncePrefix := zeros 7
  wrapNonce := zeros 12
  wrappedKey := zeros 48
  flags_lt := by decide
  layout_valid := ⟨by decide⟩
  kdf_valid := by decide
  salt_length := rfl
  containerId_length := rfl
  noncePrefix_length := rfl
  wrapNonce_length := rfl
  wrappedKey_length := rfl

theorem header_reported :
    ∃ w, run (step (streams .plain)) (World.start (cutShort .plain header)) lookAt = some w ∧
      ∃ o ∈ w.outcomes, ¬ o.Honest (streams .plain) := cutShort_reported .plain header

end Dbs.Conversion

/-
  File:      Dbs/EnvFiles.lean
  Subject:   ENV FILES (env_file_service.py): what a push overwrites was kept as a version before.

  Any number of pulls and pushes, one remote or database call of one of them at a time; a call fails or
  its process dies anywhere, a replacement also behind its effect. Nobody else writes the files. A path
  may lead to the file of another one, by links or mounts.

  * `insideContainer`, `onHost`, `Application.place` -- where the env file of an application lies;
  * `step` -- `_pull`, `_write`, `_keep` and `_store` call by call;
  * `World.replaced` -- the contents that were overwritten, each with the versions stored then;
  * `Sound` -- what is in the place of a push is what the push has read, or is stored;
  * `overwritten_stored` -- every content that is overwritten is stored.
-/
import Dbs.Lib.Runs
import Mathlib.Data.List.MinMax
import Mathlib.Data.Prod.Lex
import Dbs.Mounts

namespace Dbs.EnvFiles

open Posix Mounts Runs

/-! ## 1. Places -/

inductive Place
  | host (server : Nat) (path : PathText)
  | container (application : Nat) (path : PathText)
deriving DecidableEq

/-- `_inside_container` -/
def insideContainer (cwd : Location) (application : Application) : Bool :=
  application.envInContainer && (application.hostPath cwd application.envPath).isNone

/-- `_on_host` -/
def onHost (cwd : Location) (application : Application) : PathText :=
  if application.envInContainer then
    match application.hostPath cwd application.envPath with
    | some path => if path = [""] then application.envPath else path
    | none => application.envPath
  else application.envPath

/-! ## 2. Versions -/

inductive Source
  | pulled
  | pushed
  | scheduled
deriving DecidableEq

variable {Content Digest : Type} [DecidableEq Content] [DecidableEq Digest]

/-- The content as `_opened` gives it. `created`: `created_at` and the id. -/
structure EnvVersion (fingerprintOf : Content → Digest) where
  application : Nat
  path : PathText
  content : Content
  fingerprint : Digest
  source : Source
  created : Nat ×ₗ Nat
  made : fingerprint = fingerprintOf content
deriving DecidableEq

variable {fingerprintOf : Content → Digest}

/-- `newest_for` -/
def newestFor (application : Nat) (versions : List (EnvVersion fingerprintOf)) :
    Option (EnvVersion fingerprintOf) :=
  (versions.filter (·.application = application)).argmax (·.created)

/-! ## 3. Calls -/

/-- Where a call is. `pushing`: the content that a push goes on to write. -/
inductive Call (Content : Type)
  /-- `_pull`, in front of its read. -/
  | pulling (application : Application) (source : Source)
  /-- `_replace_on_host` in front of `lstat`; of a file in a container, in front of its read. -/
  | looking (application : Application) (pushing : Content)
  /-- `_replace_on_host`, in front of its read. -/
  | reading (application : Application) (pushing : Content)
  /-- `_keep`, in front of `newest_for`. -/
  | keeping (application : Application) (got : Content) (source : Source) (pushing : Option Content)
  /-- `_keep`, in front of `_store`. -/
  | storing (application : Application) (got : Content) (source : Source) (pushing : Option Content)
  /-- In front of `replace_file` or `replace_in_container`. -/
  | replacing (application : Application) (pushing : Content)
  /-- In front of `_store` of what was pushed. -/
  | recording (application : Application) (pushing : Content)

/-- A content that was overwritten, and the versions that were stored then. -/
structure Replaced (fingerprintOf : Content → Digest) where
  content : Content
  stored : List (EnvVersion fingerprintOf)

/-- The versions and the requests. -/
structure World (fingerprintOf : Content → Digest) where
  files : Place → Option Content
  versions : List (EnvVersion fingerprintOf)
  calls : List (Call Content)
  replaced : List (Replaced fingerprintOf)

def World.start (files : Place → Option Content) (versions : List (EnvVersion fingerprintOf)) :
    World fingerprintOf := ⟨files, versions, [], []⟩

inductive Action (fingerprintOf : Content → Digest)
  | pull (application : Application) (source : Source)
  /-- `push` or `copy_to` opens a version. -/
  | push (version : EnvVersion fingerprintOf) (application : Application)
  /-- What a call does next, if it does not fail. -/
  | next (i : Nat) (created : Nat ×ₗ Nat)
  /-- The replacement of a call takes effect, also for the paths `shown` that lead to the file; then it
      returns or fails. -/
  | replace (i : Nat) (shown : List Place) (returns : Bool)
  /-- A call fails, or its process dies. -/
  | raise (i : Nat)

section Step

-- the manager's directory and the servers' `realpath`
variable (cwd : Location) (real : Nat → PathText → PathText)

/-- Where the env file of an application lies. -/
def place (application : Application) : Place :=
  if insideContainer cwd application then .container application.id application.envPath
  else .host application.server (real application.server (onHost cwd application))

namespace World

variable (w : World fingerprintOf) (i : Nat)

def ended : World fingerprintOf := { w with calls := w.calls.eraseIdx i }

def moved (call : Call Content) : World fingerprintOf := { w with calls := w.calls.set i call }

/-- Behind `_keep`: a push goes on, a pull returns. -/
def kept (application : Application) : Option Content → World fingerprintOf
  | some pushing => w.moved i (.replacing application pushing)
  | none => w.ended i

/-- `_store` -/
def stored (application : Application) (content : Content) (source : Source) (created : Nat ×ₗ Nat) :
    World fingerprintOf :=
  { w with
    versions :=
      ⟨application.id, application.envPath, content, fingerprintOf content, source, created, rfl⟩ ::
        w.versions }

/-- Behind the read of a push in a container, or behind `lstat` on a host. -/
def looked (application : Application) (pushing : Content) : Call Content :=
  match w.files (place cwd real application) with
  | none => .replacing application pushing
  | some got =>
    if insideContainer cwd application then .keeping application got .pulled (some pushing)
    else .reading application pushing

/-- Whether the newest version has the path and the fingerprint. -/
def isNewest (application : Application) (content : Content) : Bool :=
  (newestFor application.id w.versions).any fun newest =>
    newest.path = application.envPath && newest.fingerprint = fingerprintOf content

/-- `created`: what a version that is stored gets. -/
def nextOf (created : Nat ×ₗ Nat) : Call Content → Option (World fingerprintOf)
  | .pulling application source =>
    (w.files (place cwd real application)).map fun got =>
      w.moved i (.keeping application got source none)
  | .looking application pushing =>
    some (w.moved i (w.looked cwd real application pushing))
  | .reading application pushing =>
    (w.files (place cwd real application)).map fun got =>
      w.moved i (.keeping application got .pulled (some pushing))
  | .keeping application got source pushing =>
    some (if w.isNewest application got then w.kept i application pushing
      else w.moved i (.storing application got source pushing))
  | .storing application got source pushing =>
    some ((w.stored application got source created).kept i application pushing)
  | .replacing _ _ => none
  | .recording application pushing => some ((w.stored application pushing .pushed created).ended i)

/-- The file in a place is replaced, under every path that leads to it. -/
def overwritten (at_ : Place) (shown : List Place) (content : Content) : World fingerprintOf :=
  { w with
    files := fun p => if p = at_ ∨ p ∈ shown then some content else w.files p
    replaced := (w.files at_).toList.map (⟨·, w.versions⟩) ++ w.replaced }

/-- `shown`: other paths, which lead to the same file. -/
def replaceOf (shown : List Place) (returns : Bool) : Call Content → Option (World fingerprintOf)
  | .replacing application pushing =>
    let at_ := place cwd real application
    if ∀ p ∈ shown, w.files p = w.files at_ then
      some (if returns then (w.overwritten at_ shown pushing).moved i (.recording application pushing)
        else (w.overwritten at_ shown pushing).ended i)
    else none
  | _ => none

end World

/-- One statement of one request. -/
def step (w : World fingerprintOf) : Action fingerprintOf → Option (World fingerprintOf)
  | .pull application source =>
    some (if application.envPath = [""] then w
      else { w with calls := .pulling application source :: w.calls })
  | .push version application =>
    if version ∈ w.versions then
      some (if application.envPath = [""] then w
        else { w with calls := .looking application version.content :: w.calls })
    else none
  | .next i created => (w.calls[i]?).bind (w.nextOf cwd real i created)
  | .replace i shown returns => (w.calls[i]?).bind (w.replaceOf cwd real i shown returns)
  | .raise i => (w.calls[i]?).map fun _ => w.ended i

end Step

/-! ## 4. What every step keeps -/

def World.Stored (w : World fingerprintOf) (content : Content) : Prop :=
  ∃ v ∈ w.versions, v.content = content

/-- What is in a place is the content that was read there, or is stored. -/
def World.Known (w : World fingerprintOf) (p : Place) (got : Option Content) : Prop :=
  ∀ content ∈ w.files p, content ∈ got ∨ w.Stored content

section Sound

variable (cwd : Location) (real : Nat → PathText → PathText)

def CallFits (w : World fingerprintOf) : Call Content → Prop
  | .pulling _ _ => True
  | .looking _ pushing | .reading _ pushing | .recording _ pushing => w.Stored pushing
  | .keeping application got _ pushing | .storing application got _ pushing =>
    ∀ content ∈ pushing, w.Stored content ∧ w.Known (place cwd real application) (some got)
  | .replacing application pushing => w.Stored pushing ∧ w.Known (place cwd real application) none

/-- The invariant. -/
structure Sound (w : World fingerprintOf) : Prop where
  calls : ∀ call ∈ w.calls, CallFits cwd real w call
  replaced : ∀ r ∈ w.replaced, ∃ v ∈ r.stored, v.content = r.content

end Sound

section Steps

variable {cwd : Location} {real : Nat → PathText → PathText}
  {w w' : World fingerprintOf} {i : Nat} {call : Call Content} {application : Application}
  {content got : Content} {pushing : Option Content} {p : Place}

omit [DecidableEq Content] [DecidableEq Digest]

/-- Where no version goes and what is in a place stays or is stored. -/
structure Later (w w' : World fingerprintOf) : Prop where
  versions : ∀ v ∈ w.versions, v ∈ w'.versions
  files : ∀ p, ∀ content ∈ w'.files p, content ∈ w.files p ∨ w.Stored content

theorem World.Stored.later (h : w.Stored content) (hl : Later w w') : w'.Stored content := by
  obtain ⟨v, hv, hcontent⟩ := h
  exact ⟨v, hl.versions v hv, hcontent⟩

theorem World.Known.later {got : Option Content} (h : w.Known p got) (hl : Later w w') :
    w'.Known p got := by
  intro content hcontent
  rcases hl.files p content hcontent with hsame | hstored
  · exact (h content hsame).imp id fun hstored => hstored.later hl
  · exact .inr (hstored.later hl)

theorem CallFits.later (h : CallFits cwd real w call) (hl : Later w w') :
    CallFits cwd real w' call := by
  cases call with
  | pulling application source => trivial
  | looking application pushing | reading application pushing | recording application pushing =>
    exact World.Stored.later h hl
  | keeping application got source pushing | storing application got source pushing =>
    exact fun content hcontent => ⟨(h content hcontent).1.later hl, (h content hcontent).2.later hl⟩
  | replacing application pushing => exact ⟨h.1.later hl, h.2.later hl⟩

/-- What was read is stored by now. -/
theorem World.Known.of_stored (h : w.Known p (some got)) (hstored : w.Stored got) : w.Known p none := by
  intro content hcontent
  rcases h content hcontent with hsame | hother
  · cases hsame
    exact .inr hstored
  · exact .inr hother

theorem World.known_of_read {found : Option Content} (h : w.files p = found) : w.Known p found :=
  fun _ hcontent => .inl (h ▸ hcontent)

theorem Sound.later (hs : Sound cwd real w) (hl : Later w w')
    (hcalls : ∀ call ∈ w'.calls, call ∈ w.calls ∨ CallFits cwd real w' call)
    (hreplaced : ∀ r ∈ w'.replaced, r ∈ w.replaced ∨ ∃ v ∈ r.stored, v.content = r.content) :
    Sound cwd real w' where
  calls := fun call hcall => (hcalls call hcall).elim (fun hmem => (hs.calls call hmem).later hl) id
  replaced := fun r hr => (hreplaced r hr).elim (hs.replaced r) id

theorem Later.of_files (hfiles : w'.files = w.files) (hversions : ∀ v ∈ w.versions, v ∈ w'.versions) :
    Later w w' := ⟨hversions, fun _ _ hcontent => .inl (hfiles ▸ hcontent)⟩

theorem Sound.ended (hs : Sound cwd real w) (i : Nat) : Sound cwd real (w.ended i) :=
  hs.later (.of_files rfl fun _ hv => hv) (fun _ hcall => .inl (List.mem_of_mem_eraseIdx hcall))
    fun _ => .inl

theorem Sound.moved (hs : Sound cwd real w) (i : Nat) (hfits : CallFits cwd real w call) :
    Sound cwd real (w.moved i call) := by
  have hl : Later w (w.moved i call) := .of_files rfl fun _ hv => hv
  refine hs.later hl (fun other hother => ?_) fun _ => .inl
  rcases List.mem_or_eq_of_mem_set hother with hmem | rfl
  · exact .inl hmem
  · exact .inr (hfits.later hl)

theorem Sound.begun (hs : Sound cwd real w) (hfits : CallFits cwd real w call) :
    Sound cwd real { w with calls := call :: w.calls } := by
  have hl : Later w { w with calls := call :: w.calls } := .of_files rfl fun _ hv => hv
  refine hs.later hl (fun other hother => ?_) fun _ => .inl
  rcases List.mem_cons.mp hother with rfl | hmem
  · exact .inr (hfits.later hl)
  · exact .inl hmem

theorem Later.stored (application : Application) (content : Content) (source : Source)
    (created : Nat ×ₗ Nat) : Later w (w.stored application content source created) :=
  .of_files rfl fun _ => List.mem_cons_of_mem _

theorem Sound.stored (hs : Sound cwd real w) (application : Application) (content : Content)
    (source : Source) (created : Nat ×ₗ Nat) :
    Sound cwd real (w.stored application content source created) :=
  hs.later (.stored application content source created) (fun _ => .inl) fun _ => .inl

/-- Behind `_keep` what was read is stored. -/
theorem Sound.kept (hs : Sound cwd real w) (i : Nat) (hstored : w.Stored got)
    (hfits : ∀ content ∈ pushing, w.Stored content ∧ w.Known (place cwd real application) (some got)) :
    Sound cwd real (w.kept i application pushing) := by
  cases pushing with
  | none => exact hs.ended i
  | some content =>
    obtain ⟨hpushed, hknown⟩ := hfits content rfl
    exact hs.moved i ⟨hpushed, hknown.of_stored hstored⟩

/-- **A content whose fingerprint the newest version has is stored.** -/
theorem stored_of_isNewest [DecidableEq Digest] (hinj : Function.Injective fingerprintOf)
    (h : w.isNewest application content = true) : w.Stored content := by
  rw [World.isNewest, Option.any_eq_true] at h
  obtain ⟨newest, hnewest, hsame⟩ := h
  have hmem : newest ∈ w.versions := (List.mem_filter.mp (List.argmax_mem hnewest)).1
  have hfingerprint : newest.fingerprint = fingerprintOf content :=
    of_decide_eq_true (Bool.and_eq_true_iff.mp hsame).2
  exact ⟨newest, hmem, hinj (newest.made.symm.trans hfingerprint)⟩

theorem CallFits.looked (hpushed : w.Stored content) :
    CallFits cwd real w (w.looked cwd real application content) := by
  unfold World.looked
  cases hfound : w.files (place cwd real application) with
  | none => exact ⟨hpushed, World.known_of_read hfound⟩
  | some got =>
    dsimp only
    split
    · intro pushed hsome
      cases hsome
      exact ⟨hpushed, World.known_of_read hfound⟩
    · exact hpushed

/-- **What is overwritten is stored, and what takes its place is.** -/
theorem Sound.overwritten (hs : Sound cwd real w) (shown : List Place) (hpushed : w.Stored content)
    (hknown : w.Known p none) : Sound cwd real (w.overwritten p shown content) := by
  have hl : Later w (w.overwritten p shown content) := by
    refine ⟨fun _ hv => hv, fun q found hfound => ?_⟩
    by_cases hq : q = p ∨ q ∈ shown
    · obtain rfl : content = found := Option.some.inj ((if_pos hq).symm.trans hfound)
      exact .inr hpushed
    · exact .inl ((if_neg hq).symm.trans hfound)
  refine hs.later hl (fun _ => .inl) fun r hr => ?_
  rcases List.mem_append.mp hr with hr | hr
  · obtain ⟨old, hold, rfl⟩ := List.mem_map.mp hr
    exact .inr ((hknown old (Option.mem_toList.mp hold)).resolve_left nofun)
  · exact .inl hr

/-- A replacement, which returns or fails behind its effect. -/
theorem Sound.replace [DecidableEq Content] (hs : Sound cwd real w) {shown : List Place}
    {returns : Bool}
    (hfits : CallFits cwd real w call) (hstep : w.replaceOf cwd real i shown returns call = some w') :
    Sound cwd real w' := by
  cases call with
  | replacing application pushing =>
    obtain ⟨-, ⟨⟩⟩ := Option.ite_none_right_eq_some.mp hstep
    obtain ⟨hpushed, hknown⟩ := hfits
    have hoverwritten := hs.overwritten shown hpushed hknown
    cases returns with
    | true => exact hoverwritten.moved i hpushed
    | false => exact hoverwritten.ended i
  | _ => cases hstep

variable [DecidableEq Digest]

/-- What a call does next. -/
theorem Sound.next (hinj : Function.Injective fingerprintOf) (hs : Sound cwd real w)
    (hfits : CallFits cwd real w call) {created : Nat ×ₗ Nat}
    (hstep : w.nextOf cwd real i created call = some w') : Sound cwd real w' := by
  cases call with
  | pulling application source =>
    obtain ⟨got, -, rfl⟩ := Option.map_eq_some_iff.mp hstep
    exact hs.moved i nofun
  | looking application pushing =>
    cases hstep
    exact hs.moved i (CallFits.looked hfits)
  | reading application pushing =>
    obtain ⟨got, hgot, rfl⟩ := Option.map_eq_some_iff.mp hstep
    refine hs.moved i fun content hcontent => ?_
    cases hcontent
    exact ⟨hfits, World.known_of_read hgot⟩
  | keeping application got source pushing =>
    cases hstep
    by_cases hnewest : w.isNewest application got = true
    · rw [if_pos hnewest]
      exact hs.kept i (stored_of_isNewest hinj hnewest) hfits
    · rw [if_neg hnewest]
      exact hs.moved i hfits
  | storing application got source pushing =>
    cases hstep
    have hl : Later w (w.stored application got source created) :=
      .stored application got source created
    refine (hs.stored application got source created).kept i ⟨_, List.mem_cons_self, rfl⟩ ?_
    intro content hcontent
    exact ⟨(hfits content hcontent).1.later hl, (hfits content hcontent).2.later hl⟩
  | replacing application pushing => cases hstep
  | recording application pushing =>
    cases hstep
    exact (hs.stored application pushing .pushed created).ended i

/-- **Every step keeps it.** -/
theorem step_sound [DecidableEq Content] (hinj : Function.Injective fingerprintOf)
    {a : Action fingerprintOf} (hs : Sound cwd real w) (hstep : step cwd real w a = some w') :
    Sound cwd real w' := by
  cases a with
  | pull application source =>
    cases hstep
    split
    · exact hs
    · exact hs.begun trivial
  | push version application =>
    obtain ⟨hversion, hw⟩ := Option.ite_none_right_eq_some.mp hstep
    cases hw
    split
    · exact hs
    · exact hs.begun ⟨version, hversion, rfl⟩
  | next i created =>
    obtain ⟨call, hcall, hstep⟩ := Option.bind_eq_some_iff.mp hstep
    exact hs.next hinj (hs.calls call (List.mem_of_getElem? hcall)) hstep
  | replace i shown returns =>
    obtain ⟨call, hcall, hstep⟩ := Option.bind_eq_some_iff.mp hstep
    exact hs.replace (hs.calls call (List.mem_of_getElem? hcall)) hstep
  | raise i =>
    obtain ⟨call, -, rfl⟩ := Option.map_eq_some_iff.mp hstep
    exact hs.ended i

end Steps

/-! ## 5. Runs -/

/-- **Every content that is overwritten is stored**, in every run, as it is overwritten. -/
theorem overwritten_stored {cwd : Location} {real : Nat → PathText → PathText}
    (hinj : Function.Injective fingerprintOf) {files : Place → Option Content}
    {versions : List (EnvVersion fingerprintOf)} {as : List (Action fingerprintOf)}
      {w : World fingerprintOf}
    (hrun : run (step cwd real) (World.start files versions) as = some w) :
    ∀ r ∈ w.replaced, ∃ v ∈ r.stored, v.content = r.content :=
  (run_invariant (fun _ _ _ hstep hs => step_sound hinj hs hstep) hrun
    (⟨nofun, nofun⟩ : Sound cwd real (World.start files versions))).replaced

/-- Two pushes, the first one of which dies behind its replacement. -/
def pushedTwice : Option (World fun content : Nat => content) :=
  let application := Application.mk 1 1 false [] ["", "srv", ".env"] false
  let version (content : Nat) : EnvVersion fun content : Nat => content :=
    ⟨2, ["", "srv", "old", ".env"], content, content, .pulled, toLex (content, 0), rfl⟩
  run (step [] fun _ path => path)
    (World.start (fun p => if p = .host 1 ["", "srv", ".env"] then some 5 else none)
      [version 6, version 7])
    ([.push (version 6) application] ++ List.replicate 4 (.next 0 (toLex (8, 0))) ++
      [.replace 0 [] false, .push (version 7) application] ++
      List.replicate 4 (.next 0 (toLex (9, 0))) ++ [.replace 0 [] true])

theorem overwritten_stored_pushedTwice :
    ∃ w, pushedTwice = some w ∧ w.replaced.map (·.content) = [6, 5] ∧
      ∀ r ∈ w.replaced, ∃ v ∈ r.stored, v.content = r.content := by
  have hrun : pushedTwice.any (fun w => w.replaced.map (·.content) = [6, 5]) = true := by decide +kernel
  obtain ⟨w, hw, hreplaced⟩ := (Option.any_eq_true _ _).mp hrun
  exact ⟨w, hw, of_decide_eq_true hreplaced, overwritten_stored Function.injective_id hw⟩

end Dbs.EnvFiles

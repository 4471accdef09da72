/-
  File:      Dbs/FileManager/EnvDownloads.lean
  Subject:   THE ENV FILE NEEDS THE PASSWORD (file_service.py, download, download_ticket and what they
             ask; tickets.py): its content is for those who have confirmed theirs, or have a ticket.

  Any number of downloads and links, of any users, one call of one of them at a time. The files stand
  still; a remote call fails or answers truthfully, a ticket may be forgotten, and a request may fail
  anywhere. A token that is issued is new.

  * `envOnHost`, `namesEnv`, `holdsEnv`, `isToken` -- as the code has them; `IsEnvFile` -- the file that
    is configured, where `EnvFiles.onHost` reads it; `Secret` -- that one, or one with its name;
  * `step` -- the requests call by call; `Kept` -- what was yielded, was confirmed or redeemed for, and
    no ticket twice;
  * `holdsEnv_iff` -- what the code takes for the env file; `Recognised` -- the condition: when a
    download looks at the env file that is configured, it does;
  * `env_needs_password` -- then the password is needed; `env_without_password` -- else it is not.
-/
import Dbs.FileManager.Service
import Dbs.EnvFiles

namespace Dbs.FileManager.EnvDownloads

open Posix Mounts Runs

/-! ## 1. The env file -/

/-- `ENV_NAME` -/
def envName : String := ".env"

/-- The name is `.env`, or begins with `.env.`. -/
def dotEnv (path : PathText) : Bool :=
  basename path = envName || (envName ++ ".").toList.isPrefixOf (basename path).toList

section EnvFile

variable (cwd : Location) (a : Application)

/-- `_env_on_host` -/
def envOnHost : PathText := if a.envPath = [""] then [""] else (a.hostPath cwd a.envPath).getD [""]

/-- `_names_env` -/
def namesEnv (path : PathText) : Bool :=
  dotEnv path || (envOnHost cwd a ≠ [""] && path = envOnHost cwd a)

/-- `_holds_env`: a call that fails finds another file. -/
def holdsEnv (atEnv : Realpath) (path real : PathText) : Bool :=
  if namesEnv cwd a path || namesEnv cwd a real then true
  else if envOnHost cwd a = [""] then false
  else match atEnv (envOnHost cwd a) with
    | .ok answer => answer = real
    | .error _ => false

/-- The env file that is configured, as far as it is on the host. -/
def IsEnvFile (files : Files) (loc : Location) : Prop :=
  a.envPath ≠ [""] ∧ EnvFiles.insideContainer cwd a = false ∧ files.Leads (EnvFiles.onHost cwd a) loc

/-- The content of an env file: asked for at `path`, and really at `real`. -/
def Secret (files : Files) (path real : PathText) : Prop :=
  dotEnv path = true ∨ dotEnv real = true ∨ ∃ loc, real = absolute loc ∧ IsEnvFile cwd a files loc

end EnvFile

/-! ## 2. Tickets -/

abbrev Token := String

def tokenChar (c : Char) : Bool := c.isAlphanum || c = '_' || c = '-'

/-- `TOKEN.fullmatch` -/
def isToken (text : String) : Bool := text.length = 43 && text.toList.all tokenChar

/-- `files:` with a key and a path, or `backup:` with a key. -/
inductive Subject
  | files (application : Nat) (path : PathText)
  | backup (file : Nat)
deriving DecidableEq

/-- Whom a ticket was given to. -/
structure Holder where
  user : Nat
  subject : Subject
deriving DecidableEq

abbrev Cache := Token → Option Holder

/-! ## 3. Downloads -/

/-- What the remote calls of a download answer, unless they fail. -/
structure Answers (files : Files) where
  atRoot : Realpath
  atPath : Realpath
  atEnv : Realpath
  lstat : Lstat
  root : Truthful files atRoot
  path : Truthful files atPath
  env : Truthful files atEnv

/-- Where a download is, with what was located and where it really is. -/
inductive Stage
  | begun
  /-- In front of `cache.get`. -/
  | holding (path real : PathText)
  /-- In front of `cache.delete`. -/
  | found (path real : PathText)
  /-- In front of the password. -/
  | unredeemed (path real : PathText)
  /-- In front of `stream_file`. -/
  | granted (path real : PathText)
  | yielded (path real : PathText)
  | refused (refusal : Refusal)
deriving DecidableEq

/-- `confirmed`, `redeemed`: bookkeeping. -/
structure Download where
  user : Nat
  application : Configured
  typed : PathText
  /-- Whether one was given. -/
  password : Bool
  ticket : String
  stage : Stage
  confirmed : Bool := false
  redeemed : Bool := false

namespace Download

variable (cwd : Location) (d : Download)

/-- Up to the first call. -/
def asked (user : Nat) (application : Configured) (typed : PathText) (password : Bool)
    (ticket : String) : Download where
  user := user
  application := application
  typed := typed
  password := password
  ticket := ticket
  stage :=
    if namesEnv cwd application.application (normpath typed) && !(password || ticket ≠ "") then
      .refused .passwordRequired
    else .begun

def server : Nat := d.application.application.server

def id : Nat := d.application.application.id

/-- What the remote calls come to. -/
def seen {files : Files} (answers : Answers files) : Stage :=
  match followedPath answers.atRoot answers.atPath (roots cwd d.application) d.typed with
  | .error refusal => .refused refusal
  | .ok (located, real) => match checkedFile answers.lstat real with
    | .error refusal => .refused refusal
    | .ok () =>
      if !holdsEnv cwd d.application.application answers.atEnv located.path real then
        .granted located.path real
      else if d.ticket = "" then .unredeemed located.path real
      else .holding located.path real

/-- The look at what is downloaded. -/
def looked {files : Files} (answers : Answers files) : Option Download :=
  match d.stage with
  | .begun => some { d with stage := d.seen cwd answers }
  | _ => none

/-- `_holder` of the request. -/
def holder (path : PathText) : Holder := ⟨d.user, .files d.id path⟩

/-- `redeem`, up to its `delete`. -/
def got (cache : Cache) : Option Download :=
  match d.stage with
  | .holding path real =>
    if isToken d.ticket && cache d.ticket = some (d.holder path) then
      some { d with stage := .found path real }
    else some { d with stage := .unredeemed path real }
  | _ => none

/-- Its `delete`, which says whether there was one. -/
def deleted (cache : Cache) : Option Download :=
  match d.stage with
  | .found path real =>
    if (cache d.ticket).isSome then some { d with stage := .granted path real, redeemed := true }
    else some { d with stage := .unredeemed path real }
  | _ => none

/-- `_require_password` and `confirm_password`. -/
def checked (result : Except Refusal Unit) : Option Download :=
  match d.stage with
  | .unredeemed path real =>
    if !d.password then some { d with stage := .refused .passwordRequired }
    else match result with
      | .error refusal => some { d with stage := .refused refusal }
      | .ok () => some { d with stage := .granted path real, confirmed := true }
  | _ => none

/-- The server opens the stream, or not. -/
def streamed (result : Except Trouble Unit) : Option Download :=
  match d.stage, result with
  | .granted path real, .ok () => some { d with stage := .yielded path real }
  | .granted _ _, .error trouble => some { d with stage := .refused (.remote trouble) }
  | _, _ => none

/-- The download fails. -/
def raised (refusal : Refusal) : Option Download :=
  match d.stage with
  | .yielded _ _ | .refused _ => none
  | _ => some { d with stage := .refused refusal }

end Download

/-! ## 4. Links -/

/-- Where a `download_ticket` is. -/
inductive LinkStage
  | begun
  /-- In front of `confirm_password`. -/
  | located (path : PathText)
  /-- In front of `issue`. -/
  | confirmed (path : PathText)
  | answered (token : Option Token)
  | refused (refusal : Refusal)

/-- `confirmed`: bookkeeping. -/
structure Link where
  user : Nat
  application : Configured
  typed : PathText
  password : Bool
  stage : LinkStage := .begun
  confirmed : Bool := false

namespace Link

variable (cwd : Location) (l : Link)

def id : Nat := l.application.application.id

def located : Option Link :=
  match l.stage with
  | .begun => match locate l.typed (roots cwd l.application) with
    | .error refusal => some { l with stage := .refused refusal }
    | .ok located =>
      if l.password then some { l with stage := .located located.path }
      else if namesEnv cwd l.application.application located.path then
        some { l with stage := .refused .passwordRequired }
      else some { l with stage := .answered none }
  | _ => none

def checked (result : Except Refusal Unit) : Option Link :=
  match l.stage, result with
  | .located path, .ok () => some { l with stage := .confirmed path, confirmed := true }
  | .located _, .error refusal => some { l with stage := .refused refusal }
  | _, _ => none

def raised (refusal : Refusal) : Option Link :=
  match l.stage with
  | .answered _ | .refused _ => none
  | _ => some { l with stage := .refused refusal }

end Link

/-! ## 5. All of them -/

/-- `tokens`: bookkeeping, those that were issued. -/
structure World where
  cache : Cache := fun _ => none
  tokens : List Token := []
  downloads : List Download := []
  links : List Link := []

/-- What may happen next. -/
inductive Action (files : Nat → Files)
  | download (user : Nat) (application : Configured) (typed : PathText) (password : Bool)
      (ticket : String)
  /-- The remote calls, with what the servers answer. -/
  | look (i : Nat) (answers : ∀ server, Answers (files server))
  | get (i : Nat)
  | delete (i : Nat)
  | confirm (i : Nat) (result : Except Refusal Unit)
  | stream (i : Nat) (result : Except Trouble Unit)
  | raise (i : Nat) (refusal : Refusal)
  | downloadTicket (user : Nat) (application : Configured) (typed : PathText) (password : Bool)
  | locate (i : Nat)
  | confirmLink (i : Nat) (result : Except Refusal Unit)
  | issue (i : Nat) (token : Token)
  | raiseLink (i : Nat) (refusal : Refusal)
  /-- A ticket for a backup. -/
  | issueBackup (user file : Nat) (token : Token)
  /-- The cache drops a ticket, or a backup is downloaded with it. -/
  | forget (token : Token)

namespace World

variable (w : World)

def ofDownload (i : Nat) (next : Download → Option Download) : Option World :=
  w.downloads[i]?.bind fun d => (next d).map fun d => { w with downloads := w.downloads.set i d }

def ofLink (i : Nat) (next : Link → Option Link) : Option World :=
  w.links[i]?.bind fun l => (next l).map fun l => { w with links := w.links.set i l }

def forget (token : Token) : World :=
  { w with cache := fun other => if other = token then none else w.cache other }

/-- `issue`, with a token that is new. -/
def issue (token : Token) (holder : Holder) : Option World :=
  if isToken token ∧ token ∉ w.tokens then
    some { w with
      cache := fun other => if other = token then some holder else w.cache other
      tokens := token :: w.tokens }
  else none

end World

section Step

variable (cwd : Location) {files : Nat → Files}

/-- One statement, of any request. -/
def step (w : World) : Action files → Option World
  | .download user application typed password ticket =>
    some { w with
      downloads := w.downloads ++ [.asked cwd user application typed password ticket] }
  | .look i answers => w.ofDownload i fun d => d.looked cwd (answers d.server)
  | .get i => w.ofDownload i fun d => d.got w.cache
  | .delete i => w.downloads[i]?.bind fun d =>
    (w.ofDownload i fun d => d.deleted w.cache).map fun w => w.forget d.ticket
  | .confirm i result => w.ofDownload i fun d => d.checked result
  | .stream i result => w.ofDownload i fun d => d.streamed result
  | .raise i refusal => w.ofDownload i fun d => d.raised refusal
  | .downloadTicket user application typed password =>
    some { w with links := w.links ++ [{ user, application, typed, password }] }
  | .locate i => w.ofLink i fun l => l.located cwd
  | .confirmLink i result => w.ofLink i fun l => l.checked result
  | .issue i token => w.links[i]?.bind fun l => match l.stage with
    | .confirmed path =>
      ({ w with links := w.links.set i { l with stage := .answered (some token) } } : World).issue token
        ⟨l.user, .files l.id path⟩
    | _ => none
  | .raiseLink i refusal => w.ofLink i fun l => l.raised refusal
  | .issueBackup user file token => w.issue token ⟨user, .backup file⟩
  | .forget token => some (w.forget token)

end Step

/-! ## 6. What is kept -/

/-- No request, no ticket. -/
def World.start : World := {}

/-- A link of this user, for this application and path, was confirmed and gave the token. -/
def World.Issued (w : World) (token : Token) (user application : Nat) (path : PathText) : Prop :=
  ∃ l ∈ w.links, l.stage = .answered (some token) ∧ l.confirmed = true ∧ l.user = user ∧
    l.id = application ∧ absolutePath l.typed = some path

/-- What was asked for, and where it really is. -/
def Download.At (d : Download) (files : Nat → Files) (path real : PathText) : Prop :=
  absolutePath d.typed = some path ∧ ∃ loc, (files d.server).Leads path loc ∧ real = absolute loc

/-- No two downloads redeemed one ticket. -/
def Once (downloads : List Download) : Prop :=
  ∀ (i j : Nat) (d e : Download), downloads[i]? = some d → downloads[j]? = some e →
    d.redeemed = true → e.redeemed = true → d.ticket = e.ticket → i = j

/-- Whoever got the content of an env file has confirmed the password, or redeemed a ticket for it. -/
def Kept (cwd : Location) (files : Nat → Files) (w : World) : Prop :=
  (∀ d ∈ w.downloads, ∀ path real, d.stage = .yielded path real → d.At files path real ∧
    (Secret cwd d.application.application (files d.server) path real → d.confirmed = true ∨
      d.redeemed = true ∧ w.Issued d.ticket d.user d.id path)) ∧
    Once w.downloads

/-- At the env file that is configured, a name tells that it is, or `_env_on_host` leads to it as well
    and the server says so. -/
def Download.Recognised (d : Download) (cwd : Location) (files : Files) (answers : Answers files) :
    Prop :=
  ∀ path loc, absolutePath d.typed = some path → files.Leads path loc →
    IsEnvFile cwd d.application.application files loc →
      let env := envOnHost cwd d.application.application
      namesEnv cwd d.application.application path = true ∨
        namesEnv cwd d.application.application (absolute loc) = true ∨
        env ≠ [""] ∧ files.Leads env loc ∧ ∀ trouble, answers.atEnv env ≠ .error trouble

/-- A download that looks recognises it. -/
def Recognised (cwd : Location) (files : Nat → Files) (w : World) : Action files → Prop
  | .look i answers =>
    ∀ d, w.downloads[i]? = some d → d.Recognised cwd (files d.server) (answers d.server)
  | _ => True

/-! ## 7. What the code takes for the env file -/

section Recognition

variable {cwd : Location} {files : Files} {a : Application} {atEnv : Realpath} {path real : PathText}
  {loc : Location}

/-- **What the code takes for the env file**: a name tells, or `_env_on_host` leads there and is
    resolved. -/
theorem holdsEnv_iff (htrue : Truthful files atEnv) (hloc : Plain files.fs loc) :
    holdsEnv cwd a atEnv path (absolute loc) = true ↔
      namesEnv cwd a path = true ∨ namesEnv cwd a (absolute loc) = true ∨
        envOnHost cwd a ≠ [""] ∧ files.Leads (envOnHost cwd a) loc ∧
          ∀ trouble, atEnv (envOnHost cwd a) ≠ .error trouble := by
  rw [holdsEnv]
  by_cases hnames : (namesEnv cwd a path || namesEnv cwd a (absolute loc)) = true
  · rw [if_pos hnames]
    rw [Bool.or_eq_true] at hnames
    exact ⟨fun _ => hnames.imp_right Or.inl, fun _ => rfl⟩
  · rw [if_neg hnames]
    rw [Bool.or_eq_true, not_or] at hnames
    simp only [hnames.1, hnames.2, Bool.false_eq_true, false_or]
    by_cases hempty : envOnHost cwd a = [""]
    · rw [if_pos hempty]
      exact ⟨by simp, fun h => absurd hempty h.1⟩
    · rw [if_neg hempty]
      cases hanswer : atEnv (envOnHost cwd a) with
      | error trouble => exact ⟨by simp, fun h => absurd rfl (h.2.2 trouble)⟩
      | ok answer =>
        obtain ⟨at_, hat, rfl⟩ := htrue _ _ hanswer
        rw [decide_eq_true_iff]
        constructor
        · intro heq
          rw [absolute_injective hat.plain.names hloc.names heq] at hat
          exact ⟨hempty, hat, by simp⟩
        · intro h
          rw [h.2.1.unique hat]

theorem namesEnv_of_dotEnv (h : dotEnv path = true) : namesEnv cwd a path = true := by
  rw [namesEnv, h, Bool.true_or]

end Recognition

/-! ## 8. One call -/

section Call

variable {cwd : Location} {files : Nat → Files} {w w' : World} {d d' : Download} {l l' : Link}
  {path real : PathText} {token : Token} {user application : Nat} {i : Nat}

/-- What every later world keeps: a ticket that is gone, tokens, links that were answered. -/
structure Follows (w w' : World) : Prop where
  gone : ∀ token ∈ w.tokens, w.cache token = none → w'.cache token = none
  tokens : ∀ token ∈ w.tokens, token ∈ w'.tokens
  links : ∀ l ∈ w.links, ∀ token, l.stage = .answered (some token) → l ∈ w'.links

theorem Follows.issued (h : Follows w w') (hi : w.Issued token user application path) :
    w'.Issued token user application path := by
  obtain ⟨l, hl, hstage, hrest⟩ := hi
  exact ⟨l, h.links l hl token hstage, hstage, hrest⟩

theorem follows_downloads (downloads : List Download) : Follows w { w with downloads } :=
  ⟨fun _ _ hgone => hgone, fun _ ht => ht, fun _ hl _ _ => hl⟩

/-- Whether the content may be yielded. -/
def Download.Allowed (d : Download) (cwd : Location) (files : Nat → Files) (path real : PathText) :
    Prop :=
  Secret cwd d.application.application (files d.server) path real →
    d.confirmed = true ∨ d.redeemed = true

/-- What holds of a download where it is. -/
def Download.Reached (d : Download) (cwd : Location) (files : Nat → Files) (w : World) : Stage → Prop
  | .begun | .refused _ => True
  | .holding path real | .unredeemed path real => d.At files path real
  | .found path real => d.At files path real ∧ d.ticket ∈ w.tokens ∧
      w.Issued d.ticket d.user d.id path
  | .granted path real | .yielded path real => d.At files path real ∧ d.Allowed cwd files path real

structure Download.Fits (d : Download) (cwd : Location) (files : Nat → Files) (w : World) : Prop where
  stage : d.Reached cwd files w d.stage
  gone : d.redeemed = true → d.ticket ∈ w.tokens ∧ w.cache d.ticket = none
  issued : d.redeemed = true → ∃ path, absolutePath d.typed = some path ∧
    w.Issued d.ticket d.user d.id path

def Link.Fits (l : Link) : Prop :=
  match l.stage with
  | .located path => absolutePath l.typed = some path
  | .confirmed path => absolutePath l.typed = some path ∧ l.confirmed = true
  | _ => True

theorem Download.Fits.follows (h : d.Fits cwd files w) (hw : Follows w w') : d.Fits cwd files w' where
  stage := by
    have hstage := h.stage
    cases hd : d.stage with
    | begun | refused refusal => trivial
    | found path real =>
      rw [hd] at hstage
      exact ⟨hstage.1, hw.tokens _ hstage.2.1, hw.issued hstage.2.2⟩
    | holding path real | unredeemed path real | granted path real | yielded path real =>
      rw [hd] at hstage
      exact hstage
  gone hr := ⟨hw.tokens _ (h.gone hr).1, hw.gone _ (h.gone hr).1 (h.gone hr).2⟩
  issued hr := by
    obtain ⟨path, hpath, hissued⟩ := h.issued hr
    exact ⟨path, hpath, hw.issued hissued⟩

theorem Download.asked_fits {typed : PathText} {a : Configured} {password : Bool} {ticket : String} :
    (Download.asked cwd user a typed password ticket).Fits cwd files w where
  stage := by
    rw [asked]
    dsimp only
    split <;> trivial
  gone := nofun
  issued := nofun

/-- A download that only goes on. -/
theorem Download.Fits.moved (h : d.Fits cwd files w) {stage : Stage}
    (hstage : d.Reached cwd files w stage) : ({ d with stage } : Download).Fits cwd files w where
  __ := h
  stage := by
    cases stage <;> exact hstage

/-- The invariant. -/
structure Sound (cwd : Location) (files : Nat → Files) (w : World) : Prop where
  cached : ∀ token holder, w.cache token = some holder → token ∈ w.tokens ∧
    ∀ application path, holder.subject = .files application path →
      w.Issued token holder.user application path
  links : ∀ l ∈ w.links, l.Fits
  downloads : ∀ d ∈ w.downloads, d.Fits cwd files w
  once : Once w.downloads

theorem Once.set {downloads : List Download} (h : Once downloads)
    (hnew : d'.redeemed = true → ∀ j e, j ≠ i → downloads[j]? = some e → e.redeemed = true →
      e.ticket ≠ d'.ticket) : Once (downloads.set i d') := by
  intro j k e f he hf hre hrf hticket
  rw [List.getElem?_set] at he hf
  split at he
  · next hj =>
    split at hf
    · next hk => rw [← hj, ← hk]
    · next hk =>
      split at he
      · cases he
        exact absurd hticket.symm (hnew hre k f (Ne.symm hk) hf hrf)
      · cases he
  · next hj =>
    split at hf
    · split at hf
      · cases hf
        exact absurd hticket (hnew hrf j e (Ne.symm hj) he hre)
      · cases hf
    · exact h j k e f he hf hre hrf hticket

theorem Once.append {downloads : List Download} (h : Once downloads) (hd : d.redeemed = false) :
    Once (downloads ++ [d]) := by
  have hold : ∀ (j : Nat) (e : Download), (downloads ++ [d])[j]? = some e → e.redeemed = true →
      downloads[j]? = some e := by
    intro j e he hre
    rw [List.getElem?_append] at he
    split at he
    · exact he
    · obtain rfl := List.mem_singleton.mp (List.mem_of_getElem? he)
      rw [hd] at hre
      cases hre
  intro j k e f he hf hre hrf hticket
  exact h j k e f (hold j e he hre) (hold k f hf hrf) hre hrf hticket

/-- What one call leaves of a download. -/
structure Download.Onward (d d' : Download) (cwd : Location) (files : Nat → Files) (w : World) :
    Prop where
  fits : d'.Fits cwd files w
  ticket : d'.ticket = d.ticket
  redeemed : d'.redeemed = d.redeemed

theorem Download.Fits.onward (h : d.Fits cwd files w) {stage : Stage}
    (hstage : d.Reached cwd files w stage) :
    d.Onward ({ d with stage } : Download) cwd files w := ⟨h.moved hstage, rfl, rfl⟩

theorem Sound.ofDownload {next : Download → Option Download} (h : Sound cwd files w)
    (hstep : w.ofDownload i next = some w')
    (hnext : ∀ d d', w.downloads[i]? = some d → next d = some d' → d.Fits cwd files w →
      d.Onward d' cwd files w) : Sound cwd files w' := by
  obtain ⟨d, hd, hstep⟩ := Option.bind_eq_some_iff.mp hstep
  obtain ⟨d', hd', rfl⟩ := Option.map_eq_some_iff.mp hstep
  have hon := hnext d d' hd hd' (h.downloads d (List.mem_of_getElem? hd))
  have hfollows := follows_downloads (w := w) (w.downloads.set i d')
  refine ⟨h.cached, h.links, fun e he => ?_, h.once.set fun hr j e hne he hre hticket => ?_⟩
  · rcases List.mem_or_eq_of_mem_set he with he | rfl
    · exact (h.downloads e he).follows hfollows
    · exact hon.fits.follows hfollows
  · rw [hon.redeemed] at hr
    exact hne (h.once j i e d he hd hre hr (hticket.trans hon.ticket))

theorem forget_cache (token other : Token) :
    (w.forget token).cache other = if other = token then none else w.cache other := rfl

section

variable (h : Sound cwd files w)

include h

theorem Sound.forget (token : Token) : Sound cwd files (w.forget token) := by
  have hfollows : Follows w (w.forget token) := by
    refine ⟨fun other _ hgone => ?_, fun _ ht => ht, fun _ hl _ _ => hl⟩
    rw [forget_cache]
    split
    · rfl
    · exact hgone
  refine ⟨fun other holder hcached => ?_, h.links, fun d hd => (h.downloads d hd).follows hfollows,
    h.once⟩
  rw [forget_cache] at hcached
  split at hcached
  · cases hcached
  · exact h.cached other holder hcached

theorem Sound.issue {holder : Holder} (hissue : w.issue token holder = some w')
    (hholder : ∀ application path, holder.subject = .files application path →
      w.Issued token holder.user application path) : Sound cwd files w' := by
  rw [World.issue] at hissue
  split at hissue
  · next hnew =>
    cases hissue
    have hfollows : Follows w { w with
        cache := fun other => if other = token then some holder else w.cache other
        tokens := token :: w.tokens } := by
      refine ⟨fun other hother hgone => ?_, fun _ ht => List.mem_cons_of_mem _ ht, fun _ hl _ _ => hl⟩
      have hne : other ≠ token := fun heq => hnew.2 (heq ▸ hother)
      exact (if_neg hne).trans hgone
    refine ⟨fun other found hcached => ?_, h.links, fun d hd => (h.downloads d hd).follows hfollows,
      h.once⟩
    dsimp only at hcached
    split at hcached
    · next heq =>
      subst heq
      cases hcached
      exact ⟨List.mem_cons_self, hholder⟩
    · exact ⟨List.mem_cons_of_mem _ (h.cached other found hcached).1, (h.cached other found hcached).2⟩
  · cases hissue

theorem Sound.link (hl : w.links[i]? = some l)
    (hstage : ∀ token, l.stage ≠ .answered (some token)) (hfits : l'.Fits) :
    Sound cwd files { w with links := w.links.set i l' } := by
  have hfollows : Follows w { w with links := w.links.set i l' } := by
    refine ⟨fun _ _ hgone => hgone, fun _ ht => ht, fun m hm token htoken => ?_⟩
    obtain ⟨j, hj⟩ := List.getElem?_of_mem hm
    have hne : i ≠ j := by
      rintro rfl
      rw [hl] at hj
      exact hstage token (Option.some.inj hj ▸ htoken)
    exact List.mem_of_getElem? (by rw [List.getElem?_set_ne hne, hj])
  refine ⟨fun token holder hcached => ?_, fun m hm => ?_,
    fun d hd => (h.downloads d hd).follows hfollows, h.once⟩
  · obtain ⟨htoken, hissued⟩ := h.cached token holder hcached
    exact ⟨htoken, fun application path hsubject => hfollows.issued (hissued application path hsubject)⟩
  · rcases List.mem_or_eq_of_mem_set hm with hm | rfl
    · exact h.links m hm
    · exact hfits

theorem Sound.ofLink {next : Link → Option Link} (hstep : w.ofLink i next = some w')
    (hnext : ∀ l l', next l = some l' → l.Fits →
      (∀ token, l.stage ≠ .answered (some token)) ∧ l'.Fits) : Sound cwd files w' := by
  obtain ⟨l, hl, hstep⟩ := Option.bind_eq_some_iff.mp hstep
  obtain ⟨l', hl', rfl⟩ := Option.map_eq_some_iff.mp hstep
  obtain ⟨hstage, hfits⟩ := hnext l l' hl' (h.links l (List.mem_of_getElem? hl))
  exact h.link hl hstage hfits

/-- The link has given the token, and now it is issued. -/
theorem Sound.issueOf (hl : w.links[i]? = some l) (hstage : l.stage = .confirmed path)
    (hissue : World.issue { w with links := w.links.set i { l with stage := .answered (some token) } }
      token ⟨l.user, .files l.id path⟩ = some w') : Sound cwd files w' := by
  have hfits := h.links l (List.mem_of_getElem? hl)
  rw [Link.Fits, hstage] at hfits
  have hanswered : ({ l with stage := .answered (some token) } : Link).Fits := trivial
  have hlink := h.link hl (fun token hanswered => nomatch hstage.symm.trans hanswered) hanswered
  refine hlink.issue hissue fun application typed hsubject => ?_
  cases hsubject
  refine ⟨{ l with stage := .answered (some token) }, ?_, rfl, hfits.2, rfl, rfl, hfits.1⟩
  refine List.mem_of_getElem? (i := i) ?_
  rw [List.getElem?_set_self (List.getElem?_eq_some_iff.mp hl).1]

end

end Call

/-! ## 9. One step -/

section Steps

variable {cwd : Location} {files : Nat → Files} {w w' : World} {d d' : Download} {l l' : Link}
  {path real : PathText} {i : Nat}

/-- What is an env file is recognised as one. -/
theorem Download.Recognised.holds {files : Files} {answers : Answers files} {loc : Location}
    (hc : d.Recognised cwd files answers) (hpath : absolutePath d.typed = some path)
    (hloc : files.Leads path loc)
    (h : Secret cwd d.application.application files path (absolute loc)) :
    holdsEnv cwd d.application.application answers.atEnv path (absolute loc) = true := by
  rw [holdsEnv_iff answers.env hloc.plain]
  rcases h with hdot | hdot | ⟨m, heq, henv⟩
  · exact Or.inl (namesEnv_of_dotEnv hdot)
  · exact Or.inr (Or.inl (namesEnv_of_dotEnv hdot))
  · rw [← absolute_injective hloc.plain.names henv.2.2.plain.names heq] at henv
    exact hc path loc hpath hloc henv

theorem Download.looked_onward (answers : ∀ server, Answers (files server))
    (hc : d.Recognised cwd (files d.server) (answers d.server))
    (h : d.looked cwd (answers d.server) = some d') (hfits : d.Fits cwd files w) :
    d.Onward d' cwd files w := by
  rw [looked] at h
  split at h
  · cases h
    refine hfits.onward ?_
    rw [seen]
    split
    · trivial
    · next located real hfollowed =>
      obtain ⟨hlocated, -⟩ := followedPath_eq_ok hfollowed
      obtain ⟨loc, hloc, rfl, -⟩ :=
        followed_inRoot (answers d.server).root (answers d.server).path hfollowed
      have hat : d.At files located.path (absolute loc) := ⟨(locate_eq_ok hlocated).1, loc, hloc, rfl⟩
      split
      · trivial
      · split
        · next hnot =>
          refine ⟨hat, fun hsecret => ?_⟩
          rw [hc.holds hat.1 hloc hsecret] at hnot
          cases hnot
        · split
          · exact hat
          · exact hat
  · cases h

theorem Download.got_onward (hw : Sound cwd files w) (h : d.got w.cache = some d')
    (hfits : d.Fits cwd files w) : d.Onward d' cwd files w := by
  rw [got] at h
  have hreached := hfits.stage
  split at h
  · next path real hstage =>
    rw [hstage] at hreached
    split at h
    · next hheld =>
      cases h
      rw [Bool.and_eq_true, decide_eq_true_iff] at hheld
      obtain ⟨htoken, hissued⟩ := hw.cached _ _ hheld.2
      exact hfits.onward ⟨hreached, htoken, hissued d.id path rfl⟩
    · cases h
      exact hfits.onward hreached
  · cases h

theorem Download.checked_onward {result : Except Refusal Unit} (h : d.checked result = some d')
    (hfits : d.Fits cwd files w) : d.Onward d' cwd files w := by
  rw [checked] at h
  have hreached := hfits.stage
  split at h
  · next path real hstage =>
    rw [hstage] at hreached
    split at h
    · cases h
      exact hfits.onward trivial
    · split at h
      · cases h
        exact hfits.onward trivial
      · cases h
        exact ⟨⟨⟨hreached, fun _ => Or.inl rfl⟩, hfits.gone, hfits.issued⟩, rfl, rfl⟩
  · cases h

theorem Download.streamed_onward {result : Except Trouble Unit} (h : d.streamed result = some d')
    (hfits : d.Fits cwd files w) : d.Onward d' cwd files w := by
  rw [streamed.eq_def] at h
  have hreached := hfits.stage
  split at h
  · next hstage =>
    cases h
    rw [hstage] at hreached
    exact hfits.onward hreached
  · cases h
    exact hfits.onward trivial
  · cases h

theorem Download.raised_onward {refusal : Refusal} (h : d.raised refusal = some d')
    (hfits : d.Fits cwd files w) : d.Onward d' cwd files w := by
  rw [raised.eq_def] at h
  split at h
  · cases h
  · cases h
  · cases h
    exact hfits.onward trivial

/-- A ticket is redeemed: it was there, and so nobody has redeemed it. -/
theorem Sound.deleted (h : Sound cwd files w) (hd : w.downloads[i]? = some d)
    (hstep : w.ofDownload i (fun d => d.deleted w.cache) = some w') :
    Sound cwd files (w'.forget d.ticket) := by
  obtain ⟨e, he, hstep⟩ := Option.bind_eq_some_iff.mp hstep
  obtain rfl := Option.some.inj (hd.symm.trans he)
  obtain ⟨d', hdeleted, rfl⟩ := Option.map_eq_some_iff.mp hstep
  have hdeleted : d.deleted w.cache = some d' := hdeleted
  have hfits := h.downloads d (List.mem_of_getElem? hd)
  have hreached := hfits.stage
  rw [Download.deleted] at hdeleted
  split at hdeleted
  · next path real hstage =>
    rw [hstage] at hreached
    split at hdeleted
    · next hthere =>
      cases hdeleted
      have hafter := h.forget d.ticket
      refine ⟨hafter.cached, h.links, fun e he => ?_, h.once.set fun _ j e _ he hre heq => ?_⟩
      · rcases List.mem_or_eq_of_mem_set he with he | rfl
        · exact (hafter.downloads e he).follows (follows_downloads _)
        · refine ⟨⟨hreached.1, fun _ => Or.inr rfl⟩, fun _ => ⟨hreached.2.1, ?_⟩,
            fun _ => ⟨path, hreached.1.1, hreached.2.2⟩⟩
          exact if_pos rfl
      · -- whoever redeemed it took it out of the cache
        have hgone := ((h.downloads e (List.mem_of_getElem? he)).gone hre).2
        rw [heq] at hgone
        rw [hgone] at hthere
        cases hthere
    · cases hdeleted
      have hmove : w.ofDownload i (fun d => some { d with stage := .unredeemed path real }) =
          some { w with downloads := w.downloads.set i { d with stage := .unredeemed path real } } := by
        rw [World.ofDownload, hd]
        rfl
      refine (h.ofDownload hmove fun e e' he he' hfits => ?_).forget d.ticket
      obtain rfl := Option.some.inj (hd.symm.trans he)
      cases he'
      exact hfits.onward hreached.1
  · cases hdeleted

theorem Link.located_fits (h : l.located cwd = some l') :
    (∀ token, l.stage ≠ .answered (some token)) ∧ l'.Fits := by
  rw [located] at h
  split at h
  · next hstage =>
    refine ⟨(fun token hanswered => nomatch hstage.symm.trans hanswered), ?_⟩
    split at h
    · cases h
      trivial
    · next found hlocated =>
      split at h
      · cases h
        exact (locate_eq_ok hlocated).1
      · split at h
        · cases h
          trivial
        · cases h
          trivial
  · cases h

theorem Link.checked_fits {result : Except Refusal Unit} (h : l.checked result = some l')
    (hfits : l.Fits) : (∀ token, l.stage ≠ .answered (some token)) ∧ l'.Fits := by
  rw [checked.eq_def] at h
  split at h
  · next hstage =>
    cases h
    rw [Link.Fits, hstage] at hfits
    exact ⟨(fun token hanswered => nomatch hstage.symm.trans hanswered), hfits, rfl⟩
  · next hstage =>
    cases h
    exact ⟨(fun token hanswered => nomatch hstage.symm.trans hanswered), trivial⟩
  · cases h

theorem Link.raised_fits {refusal : Refusal} (h : l.raised refusal = some l') :
    (∀ token, l.stage ≠ .answered (some token)) ∧ l'.Fits := by
  rw [raised.eq_def] at h
  split at h
  · cases h
  · cases h
  · next hstage _ =>
    cases h
    exact ⟨fun token hanswered => hstage (some token) hanswered, trivial⟩

/-- **Every step keeps the world sound**, when a download that looks recognises the env file. -/
theorem step_sound {action : Action files} (hstep : step cwd w action = some w')
    (hc : Recognised cwd files w action) (h : Sound cwd files w) : Sound cwd files w' := by
  cases action with
  | download user application typed password ticket =>
    cases hstep
    refine ⟨h.cached, h.links, fun d hd => ?_, h.once.append rfl⟩
    rcases List.mem_append.mp hd with hd | hd
    · exact (h.downloads d hd).follows (follows_downloads _)
    · rw [List.mem_singleton.mp hd]
      exact Download.asked_fits
  | look i answers =>
    exact h.ofDownload hstep fun d d' hd hd' hfits =>
      Download.looked_onward answers (hc d hd) hd' hfits
  | get i => exact h.ofDownload hstep fun d d' _ hd' hfits => Download.got_onward h hd' hfits
  | delete i =>
    obtain ⟨d, hd, hstep⟩ := Option.bind_eq_some_iff.mp hstep
    obtain ⟨w', hw', rfl⟩ := Option.map_eq_some_iff.mp hstep
    exact h.deleted hd hw'
  | confirm i result =>
    exact h.ofDownload hstep fun d d' _ hd' hfits => Download.checked_onward hd' hfits
  | stream i result =>
    exact h.ofDownload hstep fun d d' _ hd' hfits => Download.streamed_onward hd' hfits
  | raise i refusal =>
    exact h.ofDownload hstep fun d d' _ hd' hfits => Download.raised_onward hd' hfits
  | downloadTicket user application typed password =>
    cases hstep
    have hfollows : Follows w { w with
        links := w.links ++ [{ user, application, typed, password }] } :=
      ⟨fun _ _ hgone => hgone, fun _ ht => ht, fun _ hl _ _ => List.mem_append_left _ hl⟩
    refine ⟨fun token holder hcached => ?_, fun l hl => ?_,
      fun d hd => (h.downloads d hd).follows hfollows, h.once⟩
    · obtain ⟨htoken, hissued⟩ := h.cached token holder hcached
      exact ⟨htoken, fun id path hsubject => hfollows.issued (hissued id path hsubject)⟩
    · rcases List.mem_append.mp hl with hl | hl
      · exact h.links l hl
      · rw [List.mem_singleton.mp hl]
        trivial
  | locate i => exact h.ofLink hstep fun l l' hl' _ => Link.located_fits hl'
  | confirmLink i result => exact h.ofLink hstep fun l l' hl' hfits => Link.checked_fits hl' hfits
  | issue i token =>
    obtain ⟨l, hl, hstep⟩ := Option.bind_eq_some_iff.mp hstep
    split at hstep
    · next path hstage => exact h.issueOf hl hstage hstep
    · cases hstep
  | raiseLink i refusal => exact h.ofLink hstep fun l l' hl' _ => Link.raised_fits hl'
  | issueBackup user file token => exact h.issue hstep fun _ _ hsubject => nomatch hsubject
  | forget token =>
    cases hstep
    exact h.forget token

end Steps

/-! ## 10. Every run -/

theorem sound_start (cwd : Location) (files : Nat → Files) : Sound cwd files World.start :=
  ⟨nofun, nofun, nofun, fun _ _ _ _ h => nomatch h⟩

theorem Sound.kept {cwd : Location} {files : Nat → Files} {w : World} (h : Sound cwd files w) :
    Kept cwd files w := by
  refine ⟨fun d hd path real hstage => ?_, h.once⟩
  have hfits := h.downloads d hd
  have hreached := hfits.stage
  rw [hstage] at hreached
  obtain ⟨hat, hallowed⟩ := hreached
  refine ⟨hat, fun hsecret => ?_⟩
  rcases hallowed hsecret with hconfirmed | hredeemed
  · exact Or.inl hconfirmed
  · obtain ⟨asked, hasked, hissued⟩ := hfits.issued hredeemed
    rw [hat.1] at hasked
    exact Or.inr ⟨hredeemed, Option.some.inj hasked ▸ hissued⟩

/-- **The env file needs the password**, when each download that looks at it recognises it. -/
theorem env_needs_password (cwd : Location) (files : Nat → Files) (actions : List (Action files))
    (w : World) (hrun : run (step cwd) World.start actions = some w)
    (hc : Along (step cwd) (Recognised cwd files) World.start actions) : Kept cwd files w :=
  (run_invariant_along (fun _ _ _ hstep hc h => step_sound hstep hc h) hrun hc
    (sound_start cwd files)).kept

/-! ## 11. An env file that is not recognised -/

section Examples

def settings : Location := ["srv", "v1", "settings.ini"]

/-- `/srv/current` is a link to `/srv/v1`. -/
def table : List (Location × Node) :=
  [([], .directory), (["srv"], .directory), (["srv", "v1"], .directory), (settings, .file),
    (["srv", "current"], .link ["", "srv", "v1"])]

def shelf : Files := ⟨fun loc => table.lookup loc, [], plain_nil⟩

theorem plain_v1 : Plain shelf.fs ["srv", "v1"] := by
  have hsrv : Plain shelf.fs ["srv"] := plain_nil.append (by decide) nofun
  exact hsrv.append (by decide) nofun

theorem plain_settings : Plain shelf.fs settings :=
  plain_v1.append (by decide) nofun

/-- It resolves the folder and the file, and fails at anything else. -/
def answered : Realpath := fun path =>
  if path = absolute ["srv", "v1"] ∨ path = absolute settings then .ok path else .error .commandFailed

theorem truthful_answered : Truthful shelf answered := by
  intro path real h
  rw [answered] at h
  split at h
  · next hpath =>
    cases h
    rcases hpath with rfl | rfl
    · exact ⟨_, Files.leads_absolute plain_v1, rfl⟩
    · exact ⟨_, Files.leads_absolute plain_settings, rfl⟩
  · cases h

def answers : ∀ _ : Nat, Answers shelf := fun _ =>
  ⟨answered, answered, answered, fun _ => .ok .file, truthful_answered, truthful_answered,
    truthful_answered⟩

abbrev Act := Action fun _ => shelf

/-- On the host, with its env file in `/srv/v1`. -/
def shop : Configured := ⟨⟨1, 1, false, [], absolute settings, false⟩, [absolute ["srv", "v1"]]⟩

/-- The same, but by the link. -/
def linked : Configured :=
  ⟨⟨2, 1, false, [], ["", "srv", "current", "settings.ini"], false⟩, [absolute ["srv", "v1"]]⟩

/-- In a container that has `/srv/v1` as `/app`; its env file is on the host. -/
def boxed : Configured :=
  ⟨⟨3, 1, true, [⟨["", "app"], ["", "srv", "v1"]⟩], absolute settings, false⟩, [["", "app"]]⟩

def token : Token := "0123456789abcdefghijklmnopqrstuvwxyz_-ABCDE"

/-- A link, a download with its ticket, and a second one with the same. -/
def visit : List Act :=
  [.downloadTicket 7 shop (absolute settings) true, .locate 0, .confirmLink 0 (.ok ()), .issue 0 token,
    .download 7 shop (absolute settings) false token, .look 0 answers,
    .download 7 shop (absolute settings) false token, .look 1 answers,
    .get 0, .get 1, .delete 1, .delete 0, .stream 1 (.ok ()), .confirm 0 (.ok ())]

/-- The env file has the name that each download asks for. -/
def named (w : World) : Bool :=
  w.downloads.all fun d => (absolutePath d.typed).all (namesEnv [] d.application.application)

theorem recognised_of_named {w : World} (h : named w = true) (action : Act) :
    Recognised [] (fun _ => shelf) w action := by
  cases action with
  | look i answers =>
    intro d hd path loc hpath _ _
    have hall := List.all_eq_true.mp h d (List.mem_of_getElem? hd)
    rw [hpath] at hall
    exact Or.inl hall
  | _ => trivial

/-- One of two downloads at a time gets the ticket. -/
theorem env_needs_password_visit : ∃ w, run (step []) World.start visit = some w ∧
    w.downloads.map Download.stage =
      [.refused .passwordRequired, .yielded (absolute settings) (absolute settings)] ∧
    Kept [] (fun _ => shelf) w := by
  have hstages : (run (step []) World.start visit).map (fun w => w.downloads.map Download.stage) =
      some [.refused .passwordRequired, .yielded (absolute settings) (absolute settings)] := by
    decide +kernel
  have hnamed : Along (step []) (fun w (_ : Act) => named w = true) World.start visit := by
    decide +kernel
  obtain ⟨w, hrun, hw⟩ := Option.map_eq_some_iff.mp hstages
  refine ⟨w, hrun, hw, env_needs_password [] (fun _ => shelf) visit w hrun ?_⟩
  exact hnamed.mono fun w action h => recognised_of_named h action

/-- A download without password and ticket. -/
def plainly (a : Configured) : List Act :=
  [.download 7 a (absolute settings) false "", .look 0 answers, .stream 0 (.ok ())]

def Download.shape (d : Download) : Application × Stage × Bool × Bool :=
  (d.application.application, d.stage, d.confirmed, d.redeemed)

theorem not_kept_plainly {a : Configured}
    (hrun : (run (step []) World.start (plainly a)).map (fun w => w.downloads.map Download.shape) =
      some [(a.application, .yielded (absolute settings) (absolute settings), false, false)])
    (henv : IsEnvFile [] a.application shelf settings) :
    ¬ ∀ w, run (step []) World.start (plainly a) = some w → Kept [] (fun _ => shelf) w := by
  intro h
  obtain ⟨w, hw, hshapes⟩ := Option.map_eq_some_iff.mp hrun
  obtain ⟨d, rest, hdownloads, hshape, -⟩ := List.map_eq_cons_iff.mp hshapes
  obtain ⟨happlication, hrest⟩ := Prod.mk.inj hshape
  obtain ⟨hstage, hrest⟩ := Prod.mk.inj hrest
  obtain ⟨hconfirmed, hredeemed⟩ := Prod.mk.inj hrest
  have hmem : d ∈ w.downloads := hdownloads ▸ List.mem_cons_self
  obtain ⟨-, hallowed⟩ := (h w hw).1 d hmem _ _ hstage
  rcases hallowed (Or.inr (Or.inr ⟨settings, rfl, happlication ▸ henv⟩)) with hc | ⟨hr, -⟩
  · rw [hconfirmed] at hc
    cases hc
  · rw [hredeemed] at hr
    cases hr

/-- **Without a password**: the env file is behind a link and its real path cannot be had, or it is on
    the host of a container. -/
theorem env_without_password :
    (¬ ∀ w, run (step []) World.start (plainly linked) = some w → Kept [] (fun _ => shelf) w) ∧
      ¬ ∀ w, run (step []) World.start (plainly boxed) = some w → Kept [] (fun _ => shelf) w := by
  have hreal : shelf.Leads (absolute settings) settings := Files.leads_absolute plain_settings
  constructor
  · refine not_kept_plainly (by decide +kernel)
      ⟨by decide +kernel, by decide +kernel, ?_⟩
    have hlink : shelf.fs ["srv", "current"] = some (.link ["", "srv", "v1"]) := rfl
    refine .skip (by decide) (.enter (by decide) (fun _ h => ?_) (.follow (by decide) hlink hreal))
    cases h
  · exact not_kept_plainly (by decide +kernel)
      ⟨by decide +kernel, by decide +kernel, hreal⟩

end Examples

end Dbs.FileManager.EnvDownloads

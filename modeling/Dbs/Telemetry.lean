/-
  File:      Dbs/Telemetry.lean
  Subject:   HOW MANY SESSIONS OF A USER WERE SEEN, WHILE THE TELEMETRY IS PURGED
             (security/telemetry.py, sessions_seen, _counted, purge, _carry_session_counts,
             _add_sessions).

  Several processes purge at a time. A statement sees what is committed when it begins, and what a
  purge writes is committed with it; a statement that would change a row that another open purge
  changed waits. The rows of `SESSION_COUNT` are a table of their own; the anomalies and the addresses
  are left out.

  * `World` -- the rows, and the purges under way; `recorded`, `carried` -- bookkeeping: all requests,
    and the sessions that were added to the counters;
  * `step` -- a statement of a purge, a request that is recorded, or a tick of the clock;
  * `Spaced` -- a session whose requests are never further apart than a retention;
  * `Kept` -- every such session is counted once, by its rows or by the counter of its user;
  * `Apart` -- the condition: no purge reads which sessions of a user ended while another one that has
    read them is still open, and no retention is negative; `sessions_kept` -- then no purge changes the
    count; `session_twice` -- else a session is counted twice.
-/
import Dbs.Lib.Runs
import Mathlib.Algebra.BigOperators.Group.Finset.Piecewise
import Mathlib.Data.List.Sort
import Mathlib.Data.Finset.Max

namespace Dbs.Telemetry

open Runs

/-! ## 1. Rows -/

/-- `session_key_hash`. -/
abbrev Session := String

structure Request where
  pk : Nat
  user : Nat
  session : Session
  createdAt : Int
deriving DecidableEq

/-- What `features` holds: a mapping, with what `int` makes of its `sessions`, or anything else. -/
inductive Features
  | dict (sessions : Option Int)
  | other
deriving DecidableEq

/-- A row of the kind `SESSION_COUNT`. -/
structure Counter where
  pk : Nat
  createdAt : Int
  features : Features
deriving DecidableEq

/-- `_counted`. -/
def counted : Option Features → Nat
  | some (.dict (some sessions)) => sessions.toNat
  | _ => 0

/-- The order of `SessionEvent.Meta`. -/
def Counter.Before (c d : Counter) : Prop := d.createdAt ≤ c.createdAt

instance : DecidableRel Counter.Before :=
  fun c d => inferInstanceAs (Decidable (d.createdAt ≤ c.createdAt))

/-! ## 2. Purges -/

/-- What `_add_sessions` writes. -/
inductive Write
  | create (counter : Counter)
  | save (pk : Nat) (features : Features)

/-- The counters of the user, with what was written. -/
def Write.apply (counters : List Counter) : Write → List Counter
  | .create counter => counters.orderedInsert Counter.Before counter
  | .save pk features => counters.map fun c => if c.pk = pk then { c with features } else c

/-- A user whose sessions were counted, those that ended, and what was written. -/
structure Carry where
  user : Nat
  ended : Finset Session
  write : Option Write

/-- Which statement of the purge was the last, with what is left of its loop. -/
inductive Stage
  | begun
  | users (left : List Nat)
  | ending (user : Nat) (sessions : Finset Session) (left : List Nat)
  | ended (user : Nat) (sessions : Finset Session) (left : List Nat)
  | counter (user : Nat) (sessions : Finset Session) (first : Option Counter) (left : List Nat)
  | deleted (gone : List Request)
  | committed
  | aborted
deriving DecidableEq

/-- The user whose sessions are being counted. -/
def Stage.current : Stage → List Nat
  | .ending user _ _ | .ended user _ _ | .counter user _ _ _ => [user]
  | .begun | .users _ | .deleted _ | .committed | .aborted => []

/-- The users whose turn has not come. -/
def Stage.left : Stage → List Nat
  | .users left | .ending _ _ left | .ended _ _ left | .counter _ _ _ left => left
  | .begun | .deleted _ | .committed | .aborted => []

/-- The rows that are deleted, but for the commit. -/
def Stage.gone : Stage → List Request
  | .deleted gone => gone
  | _ => []

structure Purge where
  retention : Int
  cutoff : Int
  stage : Stage
  carries : List Carry

namespace Purge

variable (p : Purge)

def Open : Prop := p.stage ≠ .committed ∧ p.stage ≠ .aborted

instance : Decidable p.Open := inferInstanceAs (Decidable (_ ∧ _))

/-- The users whose ended sessions it has read. -/
def taken : List Nat := p.carries.map Carry.user ++ p.stage.current

/-- Whether it has changed the counter, but for the commit. -/
def saves (user pk : Nat) : Bool := p.carries.any fun c => decide (c.user = user) && match c.write with
  | some (.save written _) => decide (written = pk)
  | _ => false

/-- The counters of the user, once it is committed. -/
def counters (user : Nat) (counters : List Counter) : List Counter :=
  p.carries.foldl (fun cs c => if c.user = user then c.write.elim cs (Write.apply cs) else cs) counters

/-- The sessions of the user that were carried, once it is committed. -/
def carried (user : Nat) (carried : Multiset Session) : Multiset Session :=
  p.carries.foldl (fun m c => if c.user = user then m + c.ended.val else m) carried

end Purge

/-! ## 3. The rows and the purges -/

structure World where
  now : Int
  /-- The next key of the table. -/
  sequence : Nat
  requests : List Request
  /-- The counters of a user, as `Meta.ordering` has them. -/
  counters : Nat → List Counter
  purges : List Purge := []
  recorded : List Request := requests
  carried : Nat → Multiset Session := fun _ => 0

/-- The sessions of a user with a request that is so. -/
def sessionsOf (requests : List Request) (user : Nat) (so : Request → Bool) : Finset Session :=
  ((requests.filter fun r => decide (r.user = user) && so r).map Request.session).toFinset

namespace World

variable (w : World)

/-- Those with a row. -/
def live (user : Nat) : Finset Session := sessionsOf w.requests user fun _ => true

/-- Those with a row from before the cutoff. -/
def old (user : Nat) (cutoff : Int) : Finset Session :=
  sessionsOf w.requests user fun r => decide (r.createdAt < cutoff)

/-- Those with a row from behind it. -/
def recent (user : Nat) (cutoff : Int) : Finset Session :=
  sessionsOf w.requests user fun r => decide (cutoff ≤ r.createdAt)

def first (user : Nat) : Option Counter := (w.counters user).head?

/-- `sessions_seen`. -/
def sessionsSeen (user : Nat) : Nat :=
  (w.live user).card + counted ((w.first user).map Counter.features)

/-- The users with rows from before the cutoff, in some order. -/
def Lists (cutoff : Int) (users : List Nat) : Prop :=
  users.Nodup ∧ (∀ u ∈ users, ∃ r ∈ w.requests, r.createdAt < cutoff ∧ r.user = u) ∧
    ∀ r ∈ w.requests, r.createdAt < cutoff → r.user ∈ users

instance (cutoff : Int) (users : List Nat) : Decidable (w.Lists cutoff users) :=
  inferInstanceAs (Decidable (_ ∧ _ ∧ _))

/-- The other purges that are open. -/
def others (i : Nat) : List Purge := (w.purges.eraseIdx i).filter fun q => decide q.Open

/-- A request is recorded. -/
def record (user : Nat) (session : Session) : World :=
  let request : Request := ⟨w.sequence, user, session, w.now⟩
  { w with
    sequence := w.sequence + 1
    requests := w.requests ++ [request]
    recorded := w.recorded ++ [request] }

/-- A purge begins. -/
def begin (retention : Int) : World :=
  { w with purges := w.purges ++ [⟨retention, w.now - retention, .begun, []⟩] }

/-- A purge gets to another stage. -/
def advance (i : Nat) (p : Purge) : World := { w with purges := w.purges.set i p }

/-- A purge is committed. -/
def commit (i : Nat) (p : Purge) (gone : List Request) : World :=
  { w with
    requests := w.requests.filter fun r => decide (r ∉ gone)
    counters := fun user => p.counters user (w.counters user)
    purges := w.purges.set i { p with stage := .committed }
    carried := fun user => p.carried user (w.carried user) }

end World

/-- The row that `_add_sessions` creates, or the one that it found with the sum. -/
def written (w : World) (sessions : Finset Session) : Option Counter → Write
  | none => .create ⟨w.sequence, w.now, .dict (some sessions.card)⟩
  | some counter =>
    .save counter.pk (.dict (some ((counted (some counter.features) : Int) + sessions.card)))

/-- A statement of a purge. -/
inductive Statement
  | users (order : List Nat)
  | ending
  | continuing
  | first
  | add
  | delete
  | commit
  | abort

/-- `purge` and `_carry_session_counts`, statement by statement. -/
def stepPurge (w : World) (i : Nat) (p : Purge) : Statement → Option World
  | .users order => match p.stage with
    | .begun =>
      if w.Lists p.cutoff order then some (w.advance i { p with stage := .users order }) else none
    | _ => none
  | .ending => match p.stage with
    | .users (user :: left) =>
      some (w.advance i { p with stage := .ending user (w.old user p.cutoff) left })
    | _ => none
  | .continuing => match p.stage with
    | .ending user sessions left =>
      let ended := sessions \ w.recent user p.cutoff
      if ended = ∅ then
        some (w.advance i { p with stage := .users left, carries := p.carries ++ [⟨user, ∅, none⟩] })
      else some (w.advance i { p with stage := .ended user ended left })
    | _ => none
  | .first => match p.stage with
    | .ended user sessions left =>
      some (w.advance i { p with stage := .counter user sessions (w.first user) left })
    | _ => none
  | .add => match p.stage with
    | .counter user sessions first left =>
      -- an update waits for the purge that has the row
      if ∃ q ∈ w.others i, ∃ counter ∈ first, q.saves user counter.pk = true then none
      else some { w.advance i { p with
          stage := .users left
          carries := p.carries ++ [⟨user, sessions, some (written w sessions first)⟩] } with
        -- a key more, also where none was needed: keys may be left out
        sequence := w.sequence + 1 }
    | _ => none
  | .delete => match p.stage with
    | .users [] =>
      if ∃ q ∈ w.others i, ∃ r ∈ q.stage.gone, r.createdAt < p.cutoff then none
      else some (w.advance i { p with
        stage := .deleted (w.requests.filter fun r => decide (r.createdAt < p.cutoff)) })
    | _ => none
  | .commit => match p.stage with
    | .deleted gone => some (w.commit i p gone)
    | _ => none
  | .abort => if p.Open then some (w.advance i { p with stage := .aborted }) else none

inductive Action
  | tick (now : Int)
  | record (user : Nat) (session : Session)
  | begin (retention : Int)
  | ofPurge (purge : Nat) (statement : Statement)

def step (w : World) : Action → Option World
  | .tick now => if w.now ≤ now then some { w with now } else none
  | .record user session => some (w.record user session)
  | .begin retention => some (w.begin retention)
  | .ofPurge i statement => (w.purges[i]?).bind fun p => stepPurge w i p statement

/-! ## 4. What is kept -/

namespace World

variable (w : World)

/-- All requests that the session ever had. -/
def of (user : Nat) (session : Session) : List Request :=
  w.recorded.filter fun r => decide (r.user = user ∧ r.session = session)

def retentions : List Int := w.purges.map Purge.retention

/-- No two requests of the session, one after the other, are further apart than a retention. -/
def Spaced (user : Nat) (session : Session) : Prop :=
  ∀ retention ∈ w.retentions, ∀ r ∈ w.of user session,
    (∀ q ∈ w.of user session, q.createdAt ≤ r.createdAt) ∨
      ∃ q ∈ w.of user session, r.createdAt < q.createdAt ∧ q.createdAt ≤ r.createdAt + retention

instance (user : Nat) (session : Session) : Decidable (w.Spaced user session) :=
  inferInstanceAs (Decidable (∀ _ ∈ _, ∀ _ ∈ _, _))

/-- All sessions that the user ever had. -/
def sessions (user : Nat) : Finset Session := sessionsOf w.recorded user fun _ => true

end World

/-- **What purges keep**: a session is counted once, by its rows or by the counter of its user, which
    counts what it counted at the start and the sessions that were carried. -/
structure Kept (start w : World) : Prop where
  once : ∀ user, ∀ session ∈ w.sessions user, w.Spaced user session →
    (w.carried user).count session + (if session ∈ w.live user then 1 else 0) = 1
  counter : ∀ user, counted ((w.first user).map Counter.features) =
    counted ((start.first user).map Counter.features) + (w.carried user).card

/-- **The condition**: no purge reads which sessions of a user ended while another one that has read
    them is open, and no retention is negative. -/
def Apart (w : World) : Action → Prop
  | .begin retention => 0 ≤ retention
  | .ofPurge i .ending => ∀ p ∈ w.purges[i]?, ∀ user ∈ p.stage.left.head?, ∀ q ∈ w.others i,
    user ∉ q.taken
  | _ => True

instance (w : World) : (a : Action) → Decidable (Apart w a)
  | .begin retention => inferInstanceAs (Decidable (0 ≤ retention))
  | .ofPurge i .ending => inferInstanceAs (Decidable (∀ p ∈ w.purges[i]?, ∀ user ∈ p.stage.left.head?,
      ∀ q ∈ w.others i, user ∉ q.taken))
  | .tick _ | .record _ _ | .ofPurge _ (.users _) | .ofPurge _ .continuing | .ofPurge _ .first
  | .ofPurge _ .add | .ofPurge _ .delete | .ofPurge _ .commit | .ofPurge _ .abort =>
    inferInstanceAs (Decidable True)

/-! ## 5. Sessions of rows -/

section Sessions

variable {rows : List Request} {user : Nat} {session : Session} {so : Request → Bool} {cutoff : Int}
  {w : World}

theorem mem_sessionsOf : session ∈ sessionsOf rows user so ↔
    ∃ r ∈ rows, r.user = user ∧ r.session = session ∧ so r = true := by
  simp only [sessionsOf, List.mem_toFinset, List.mem_map, List.mem_filter, Bool.and_eq_true,
    decide_eq_true_eq]
  constructor
  · rintro ⟨r, ⟨hr, huser, hso⟩, hsession⟩
    exact ⟨r, hr, huser, hsession, hso⟩
  · rintro ⟨r, hr, huser, hsession, hso⟩
    exact ⟨r, ⟨hr, huser, hso⟩, hsession⟩

theorem mem_live : session ∈ w.live user ↔ ∃ r ∈ w.requests, r.user = user ∧ r.session = session := by
  simp only [World.live, mem_sessionsOf, and_true]

theorem mem_old : session ∈ w.old user cutoff ↔
    ∃ r ∈ w.requests, r.user = user ∧ r.session = session ∧ r.createdAt < cutoff := by
  simp only [World.old, mem_sessionsOf, decide_eq_true_eq]

theorem mem_recent : session ∈ w.recent user cutoff ↔
    ∃ r ∈ w.requests, r.user = user ∧ r.session = session ∧ cutoff ≤ r.createdAt := by
  simp only [World.recent, mem_sessionsOf, decide_eq_true_eq]

theorem mem_sessions : session ∈ w.sessions user ↔
    ∃ r ∈ w.recorded, r.user = user ∧ r.session = session := by
  simp only [World.sessions, mem_sessionsOf, and_true]

theorem mem_of {r : Request} : r ∈ w.of user session ↔
    r ∈ w.recorded ∧ r.user = user ∧ r.session = session := by
  rw [World.of, List.mem_filter, decide_eq_true_eq]

/-- A row is from before a cutoff or from behind it. -/
theorem live_eq (w : World) (user : Nat) (cutoff : Int) :
    w.live user = w.old user cutoff ∪ w.recent user cutoff := by
  ext session
  rw [Finset.mem_union, mem_live, mem_old, mem_recent]
  constructor
  · rintro ⟨r, hr, huser, hsession⟩
    rcases lt_or_ge r.createdAt cutoff with h | h
    · exact Or.inl ⟨r, hr, huser, hsession, h⟩
    · exact Or.inr ⟨r, hr, huser, hsession, h⟩
  · rintro (⟨r, hr, huser, hsession, -⟩ | ⟨r, hr, huser, hsession, -⟩)
    all_goals exact ⟨r, hr, huser, hsession⟩

/-- The last request of a session. -/
theorem exists_last (h : session ∈ w.sessions user) :
    ∃ r ∈ w.of user session, ∀ q ∈ w.of user session, q.createdAt ≤ r.createdAt := by
  obtain ⟨r, hr, hof⟩ := mem_sessions.mp h
  obtain ⟨last, hlast, hmax⟩ := (w.of user session).toFinset.exists_max_image Request.createdAt
    ⟨r, List.mem_toFinset.mpr (mem_of.mpr ⟨hr, hof⟩)⟩
  exact ⟨last, List.mem_toFinset.mp hlast, fun q hq => hmax q (List.mem_toFinset.mpr hq)⟩

/-- **All sessions are counted once**: as many were seen as there were. -/
theorem Kept.seen {start : World} (h : Kept start w) (hspaced : ∀ session, w.Spaced user session)
    (hlive : ∀ r ∈ w.requests, r ∈ w.recorded) (hknown : ∀ session ∈ w.carried user,
      session ∈ w.sessions user) :
    w.sessionsSeen user =
      counted ((start.first user).map Counter.features) + (w.sessions user).card := by
  have hsub : w.live user ⊆ w.sessions user := by
    intro session hsession
    obtain ⟨r, hr, hof⟩ := mem_live.mp hsession
    exact mem_sessions.mpr ⟨r, hlive r hr, hof⟩
  have hcard : (w.carried user).card + (w.live user).card = (w.sessions user).card := by
    calc (w.carried user).card + (w.live user).card
        = ∑ session ∈ w.sessions user, (w.carried user).count session +
          ∑ session ∈ w.sessions user, (if session ∈ w.live user then 1 else 0) := by
          rw [Multiset.sum_count_eq_card hknown, ← Finset.card_filter, Finset.filter_mem_eq_inter,
            Finset.inter_eq_right.mpr hsub]
      _ = ∑ session ∈ w.sessions user, 1 := by
          rw [← Finset.sum_add_distrib]
          exact Finset.sum_congr rfl fun session hs => h.once user session hs (hspaced session)
      _ = (w.sessions user).card := (Finset.card_eq_sum_ones _).symm
  rw [World.sessionsSeen, h.counter, ← hcard]
  omega

end Sessions

/-! ## 6. An open purge -/

/-- What the purge knows of a user: the sessions with rows from before the cutoff alone, but for one
    that was away for longer than a retention. -/
structure Ended (w : World) (cutoff : Int) (user : Nat) (sessions : Finset Session) : Prop where
  old : sessions ⊆ w.old user cutoff
  recent : w.old user cutoff \ sessions ⊆ w.recent user cutoff
  past : ∀ session ∈ sessions, w.Spaced user session → session ∉ w.recent user cutoff

/-- What is to be written is the sum. -/
def Sums (w : World) (c : Carry) : Prop :=
  match c.write with
  | none => c.ended = ∅
  | some (.create counter) => w.counters c.user = [] ∧ counter.features = .dict (some c.ended.card)
  | some (.save pk features) => ∃ counter rest, w.counters c.user = counter :: rest ∧ counter.pk = pk ∧
      features = .dict (some ((counted (some counter.features) : Int) + c.ended.card))

def AtStage (w : World) (cutoff : Int) : Stage → Prop
  | .ending user sessions _ => sessions = w.old user cutoff
  | .ended user sessions _ => Ended w cutoff user sessions
  | .counter user sessions first _ => Ended w cutoff user sessions ∧ first = w.first user
  | .deleted gone => (∀ r ∈ gone, r.createdAt < cutoff) ∧ ∀ r ∈ w.requests, r.createdAt < cutoff →
    r ∈ gone
  | .begun | .users _ | .committed | .aborted => True

structure Stands (w : World) (p : Purge) : Prop where
  distinct : (p.taken ++ p.stage.left).Nodup
  begun : p.stage = .begun → p.carries = []
  listed : p.stage ≠ .begun → ∀ r ∈ w.requests, r.createdAt < p.cutoff →
    r.user ∈ p.taken ++ p.stage.left
  carries : ∀ c ∈ p.carries, Ended w p.cutoff c.user c.ended ∧ Sums w c
  atStage : AtStage w p.cutoff p.stage

/-- What the others leave: the rows and the counters of the users that it has taken. -/
structure Frame (w w' : World) (cutoff : Int) (taken : List Nat) : Prop where
  requests : ∀ r ∈ w'.requests, r.createdAt < cutoff → r ∈ w.requests
  old : ∀ user ∈ taken, w'.old user cutoff = w.old user cutoff
  recent : ∀ user ∈ taken, w.recent user cutoff ⊆ w'.recent user cutoff
  counters : ∀ user ∈ taken, w'.counters user = w.counters user
  spaced : ∀ user session, w'.Spaced user session → w.Spaced user session
  past : ∀ user ∈ taken, ∀ session ∈ w.old user cutoff, w'.Spaced user session →
    session ∈ w'.recent user cutoff → session ∈ w.recent user cutoff

section Frames

variable {w w' : World} {p : Purge} {cutoff : Int} {taken : List Nat} {user : Nat}
  {sessions : Finset Session}

/-- Rows and counters are the same. -/
theorem Frame.of_eq (hrequests : w'.requests = w.requests) (hcounters : w'.counters = w.counters)
    (hspaced : ∀ user session, w'.Spaced user session → w.Spaced user session) :
    Frame w w' cutoff taken := by
  have hold : ∀ user, w'.old user cutoff = w.old user cutoff :=
    fun _ => by rw [World.old, World.old, hrequests]
  have hrecent : ∀ user, w'.recent user cutoff = w.recent user cutoff :=
    fun _ => by rw [World.recent, World.recent, hrequests]
  exact {
    requests := fun r hr _ => hrequests ▸ hr
    old := fun user _ => hold user
    recent := fun user _ => (hrecent user).symm.subset
    counters := fun _ _ => by rw [hcounters]
    spaced := hspaced
    past := fun user _ _ _ _ h => hrecent user ▸ h }

theorem Ended.frame (h : Ended w cutoff user sessions) (hf : Frame w w' cutoff taken)
    (hu : user ∈ taken) : Ended w' cutoff user sessions where
  old := hf.old user hu ▸ h.old
  recent := by
    rw [hf.old user hu]
    exact h.recent.trans (hf.recent user hu)
  past := fun session hs hspaced hrecent => h.past session hs (hf.spaced user session hspaced)
    (hf.past user hu session (h.old hs) hspaced hrecent)

theorem Sums.frame {c : Carry} (h : Sums w c) (hf : Frame w w' cutoff taken) (hu : c.user ∈ taken) :
    Sums w' c := by
  unfold Sums at h ⊢
  rw [hf.counters c.user hu]
  exact h

theorem AtStage.frame {stage : Stage} (h : AtStage w cutoff stage) (hf : Frame w w' cutoff taken)
    (hu : ∀ u ∈ stage.current, u ∈ taken) : AtStage w' cutoff stage := by
  cases stage with
  | ending user sessions left =>
    exact h.trans (hf.old user (hu user (List.mem_singleton_self user))).symm
  | ended user sessions left => exact Ended.frame h hf (hu user (List.mem_singleton_self user))
  | counter user sessions first left =>
    have hmem := hu user (List.mem_singleton_self user)
    refine ⟨h.1.frame hf hmem, h.2.trans ?_⟩
    rw [World.first, World.first, hf.counters user hmem]
  | deleted gone => exact ⟨h.1, fun r hr hold => h.2 r (hf.requests r hr hold) hold⟩
  | begun | users _ | committed | aborted => trivial

theorem open_of_stage {stage : Stage} (h : p.stage = stage) (hcommitted : stage ≠ .committed)
    (haborted : stage ≠ .aborted) : p.Open :=
  ⟨fun he => hcommitted (h.symm.trans he), fun he => haborted (h.symm.trans he)⟩

theorem mem_taken_of_carry {c : Carry} (hc : c ∈ p.carries) : c.user ∈ p.taken :=
  List.mem_append_left _ (List.mem_map_of_mem hc)

theorem Stands.frame (h : Stands w p) (hf : Frame w w' p.cutoff p.taken) : Stands w' p where
  distinct := h.distinct
  begun := h.begun
  listed := fun hbegun r hr hold => h.listed hbegun r (hf.requests r hr hold) hold
  carries := fun c hc => by
    have hmem := mem_taken_of_carry hc
    exact ⟨(h.carries c hc).1.frame hf hmem, (h.carries c hc).2.frame hf hmem⟩
  atStage := h.atStage.frame hf fun _ hu => List.mem_append_right _ hu

end Frames

/-! ## 7. Its own statements -/

section Statements

variable {w : World} {p : Purge} {user : Nat} {left : List Nat} {sessions : Finset Session}

section

variable (h : Stands w p)

include h

/-- The next statement of the loop, for the same users. -/
theorem Stands.turn {stage : Stage} {carries : List Carry} (hbegun : p.stage ≠ .begun)
    (hstage : stage ≠ .begun)
    (husers : carries.map Carry.user ++ stage.current ++ stage.left = p.taken ++ p.stage.left)
    (hcarries : ∀ c ∈ carries, c ∈ p.carries ∨ Ended w p.cutoff c.user c.ended ∧ Sums w c)
    (hat : AtStage w p.cutoff stage) : Stands w { p with stage, carries } where
  distinct := by
    show (carries.map Carry.user ++ stage.current ++ stage.left).Nodup
    rw [husers]
    exact h.distinct
  begun := fun hb => absurd hb hstage
  listed := fun _ r hr hold => by
    show r.user ∈ carries.map Carry.user ++ stage.current ++ stage.left
    rw [husers]
    exact h.listed hbegun r hr hold
  carries := fun c hc => (hcarries c hc).elim (h.carries c) id
  atStage := hat

theorem Stands.users (hs : p.stage = .begun) {order : List Nat}
    (hlists : w.Lists p.cutoff order) : Stands w { p with stage := .users order } where
  distinct := by
    show (p.carries.map Carry.user ++ [] ++ order).Nodup
    rw [h.begun hs]
    exact hlists.1
  begun := nofun
  listed := fun _ r hr hold => List.mem_append_right _ (hlists.2.2 r hr hold)
  carries := h.carries
  atStage := trivial

theorem Stands.ending (hs : p.stage = .users (user :: left)) :
    Stands w { p with stage := .ending user (w.old user p.cutoff) left } := by
  refine h.turn (by rw [hs]; nofun) nofun ?_ (fun c hc => Or.inl hc) rfl
  rw [Purge.taken, hs]
  simp [Stage.current, Stage.left]

/-- No session of the user ended. -/
theorem Stands.passed (hs : p.stage = .ending user sessions left)
    (hnone : sessions \ w.recent user p.cutoff = ∅) :
    Stands w { p with stage := .users left, carries := p.carries ++ [⟨user, ∅, none⟩] } := by
  have hat := h.atStage
  rw [hs] at hat
  obtain rfl : sessions = w.old user p.cutoff := hat
  refine h.turn (by rw [hs]; nofun) nofun ?_ (fun c hc => ?_) trivial
  · rw [Purge.taken, hs]
    simp [Stage.current, Stage.left]
  · rcases List.mem_append.mp hc with hc | hc
    · exact Or.inl hc
    · obtain rfl := List.mem_singleton.mp hc
      refine Or.inr ⟨⟨Finset.empty_subset _, ?_, nofun⟩, rfl⟩
      rw [Finset.sdiff_empty]
      exact Finset.sdiff_eq_empty_iff_subset.mp hnone

theorem Stands.ended (hs : p.stage = .ending user sessions left) :
    Stands w { p with stage := .ended user (sessions \ w.recent user p.cutoff) left } := by
  have hat := h.atStage
  rw [hs] at hat
  obtain rfl : sessions = w.old user p.cutoff := hat
  refine h.turn (by rw [hs]; nofun) nofun ?_ (fun c hc => Or.inl hc) ⟨Finset.sdiff_subset, ?_, ?_⟩
  · rw [Purge.taken, hs]
    rfl
  · intro session hmem
    rw [Finset.mem_sdiff, Finset.mem_sdiff, not_and_not_right] at hmem
    exact hmem.2 hmem.1
  · exact fun session hmem _ => (Finset.mem_sdiff.mp hmem).2

theorem Stands.first (hs : p.stage = .ended user sessions left) :
    Stands w { p with stage := .counter user sessions (w.first user) left } := by
  have hat := h.atStage
  rw [hs] at hat
  refine h.turn (by rw [hs]; nofun) nofun ?_ (fun c hc => Or.inl hc) ⟨hat, rfl⟩
  rw [Purge.taken, hs]
  rfl

end

theorem sums_written : Sums w ⟨user, sessions, some (written w sessions (w.first user))⟩ := by
  cases hcounters : w.counters user with
  | nil =>
    have hfirst : w.first user = none := by rw [World.first, hcounters, List.head?_nil]
    rw [hfirst]
    exact ⟨hcounters, rfl⟩
  | cons counter rest =>
    have hfirst : w.first user = some counter := by rw [World.first, hcounters, List.head?_cons]
    rw [hfirst]
    exact ⟨counter, rest, hcounters, rfl, rfl⟩

theorem Stands.add (h : Stands w p) {first : Option Counter}
    (hs : p.stage = .counter user sessions first left) :
    Stands w { p with
      stage := .users left
      carries := p.carries ++ [⟨user, sessions, some (written w sessions first)⟩] } := by
  have hat := h.atStage
  rw [hs] at hat
  obtain ⟨hended, rfl⟩ := hat
  refine h.turn (by rw [hs]; nofun) nofun ?_ (fun c hc => ?_) trivial
  · rw [Purge.taken, hs]
    simp [Stage.current, Stage.left]
  · rcases List.mem_append.mp hc with hc | hc
    · exact Or.inl hc
    · obtain rfl := List.mem_singleton.mp hc
      exact Or.inr ⟨hended, sums_written⟩

theorem Stands.delete (h : Stands w p) (hs : p.stage = .users []) :
    Stands w { p with
      stage := .deleted (w.requests.filter fun r => decide (r.createdAt < p.cutoff)) } := by
  refine h.turn (by rw [hs]; nofun) nofun ?_ (fun c hc => Or.inl hc)
    ⟨fun r hr => ?_, fun r hr hold => ?_⟩
  · rw [Purge.taken, hs]
    rfl
  · exact of_decide_eq_true (List.mem_filter.mp hr).2
  · exact List.mem_filter.mpr ⟨hr, decide_eq_true hold⟩

end Statements

/-! ## 8. What holds of all of them -/

/-- No two open purges have taken a user. -/
def Separate (purges : List Purge) : Prop :=
  ∀ (i j : Nat) (p q : Purge), purges[i]? = some p → purges[j]? = some q → i ≠ j → p.Open → q.Open →
    ∀ user ∈ p.taken, user ∉ q.taken

structure Sound (start w : World) : Prop where
  past : ∀ r ∈ w.recorded, r.createdAt ≤ w.now
  cutoffs : ∀ p ∈ w.purges, 0 ≤ p.retention ∧ p.cutoff + p.retention ≤ w.now
  rows : ∀ r, r ∈ w.requests ↔ r ∈ w.recorded ∧ ∀ p ∈ w.purges, p.stage = .committed →
    p.cutoff ≤ r.createdAt
  known : ∀ user, ∀ session ∈ w.carried user, session ∈ w.sessions user
  kept : Kept start w
  stands : ∀ p ∈ w.purges, p.Open → Stands w p
  separate : Separate w.purges

section Parts

variable {w : World} {purges : List Purge} {i : Nat} {p p' : Purge} {user : Nat} {session : Session}

theorem mem_set_of_ne {q : Purge} (hp : purges[i]? = some p) (hq : q ∈ purges) (hne : q ≠ p) :
    q ∈ purges.set i p' := by
  obtain ⟨j, hj⟩ := List.mem_iff_getElem?.mp hq
  have hij : i ≠ j := by
    rintro rfl
    exact hne (Option.some.inj (hj.symm.trans hp))
  exact List.mem_of_getElem? ((List.getElem?_set_ne hij).trans hj)

theorem mem_others {q : Purge} : q ∈ w.others i ↔ (∃ j, j ≠ i ∧ w.purges[j]? = some q) ∧ q.Open := by
  rw [World.others, List.mem_filter, List.mem_eraseIdx_iff_getElem?, decide_eq_true_eq]

theorem Separate.set (h : Separate w.purges) (hp : w.purges[i]? = some p)
    (hnew : p'.Open → p.Open ∧ ∀ user ∈ p'.taken, user ∈ p.taken ∨ ∀ q ∈ w.others i, user ∉ q.taken) :
    Separate (w.purges.set i p') := by
  obtain ⟨hlt, -⟩ := List.getElem?_eq_some_iff.mp hp
  -- the one that changed, and another one
  have hone : ∀ (j : Nat) (q : Purge), w.purges[j]? = some q → i ≠ j → p'.Open → q.Open →
      ∀ user ∈ p'.taken, user ∉ q.taken := by
    intro j q hj hij hopen hq user huser
    rcases (hnew hopen).2 user huser with hold | hfree
    · exact h i j p q hp hj hij (hnew hopen).1 hq user hold
    · exact hfree q (mem_others.mpr ⟨⟨j, hij.symm, hj⟩, hq⟩)
  intro j k q r hj hk hjk hq hr user huser
  by_cases hij : i = j
  · subst hij
    rw [List.getElem?_set_self hlt] at hj
    cases hj
    rw [List.getElem?_set_ne hjk] at hk
    exact hone k r hk hjk hq hr user huser
  · rw [List.getElem?_set_ne hij] at hj
    by_cases hik : i = k
    · subst hik
      rw [List.getElem?_set_self hlt] at hk
      cases hk
      exact fun hmem => hone j q hj hij hr hq user hmem huser
    · rw [List.getElem?_set_ne hik] at hk
      exact h j k q r hj hk hjk hq hr user huser

theorem retentions_set (hp : w.purges[i]? = some p) (h : p'.retention = p.retention) :
    (w.purges.set i p').map Purge.retention = w.retentions := map_set_same hp h

theorem spaced_of_eq {w' : World} (hretentions : w'.retentions = w.retentions)
    (hrecorded : w'.recorded = w.recorded) : w'.Spaced user session ↔ w.Spaced user session := by
  rw [World.Spaced, World.Spaced, World.of, World.of, hrecorded, hretentions]

section Loop

variable {α : Type} {f : α → Carry → α} {a : α} {carries : List Carry}

theorem foldl_of_notMem (h : user ∉ carries.map Carry.user) :
    carries.foldl (fun a c => if c.user = user then f a c else a) a = a := by
  induction carries generalizing a with
  | nil => rfl
  | cons c carries ih =>
    rw [List.map_cons, List.mem_cons, not_or] at h
    rw [List.foldl_cons, if_neg (Ne.symm h.1)]
    exact ih h.2

/-- The one turn of a loop over different users that is a user's own. -/
theorem foldl_of_mem (hn : (carries.map Carry.user).Nodup) {c : Carry} (hc : c ∈ carries) :
    carries.foldl (fun a d => if d.user = c.user then f a d else a) a = f a c := by
  induction carries generalizing a with
  | nil => cases hc
  | cons d carries ih =>
    rw [List.map_cons, List.nodup_cons] at hn
    rw [List.foldl_cons]
    rcases List.mem_cons.mp hc with rfl | hc
    · rw [if_pos rfl]
      exact foldl_of_notMem hn.1
    · have hne : d.user ≠ c.user := fun h => hn.1 (h ▸ List.mem_map_of_mem hc)
      rw [if_neg hne]
      exact ih hn.2 hc

end Loop

end Parts

/-! ## 9. What a step keeps -/

section Steps

variable {start w : World} {i : Nat} {p : Purge} {user : Nat} {session : Session}

theorem Sound.sequence (hs : Sound start w) (sequence : Nat) : Sound start { w with sequence } where
  __ := hs
  kept := ⟨hs.kept.once, hs.kept.counter⟩
  stands := fun q hq hopen => (hs.stands q hq hopen).frame (.of_eq rfl rfl fun _ _ h => h)

theorem Sound.tick (hs : Sound start w) {now : Int} (h : w.now ≤ now) : Sound start { w with now } where
  __ := hs
  past := fun r hr => Int.le_trans (hs.past r hr) h
  cutoffs := fun q hq => ⟨(hs.cutoffs q hq).1, Int.le_trans (hs.cutoffs q hq).2 h⟩
  kept := ⟨hs.kept.once, hs.kept.counter⟩
  stands := fun q hq hopen => (hs.stands q hq hopen).frame (.of_eq rfl rfl fun _ _ h => h)

theorem Sound.advance (hs : Sound start w) (hp : w.purges[i]? = some p) (hopen : p.Open) {stage : Stage}
    {carries : List Carry} (hstage : stage ≠ .committed)
    (hstands : stage ≠ .aborted → Stands w { p with stage, carries })
    (htaken : stage ≠ .aborted → ∀ user ∈ carries.map Carry.user ++ stage.current,
      user ∈ p.taken ∨ ∀ q ∈ w.others i, user ∉ q.taken) :
    Sound start (w.advance i { p with stage, carries }) := by
  have hretentions : (w.advance i { p with stage, carries }).retentions = w.retentions :=
    retentions_set hp rfl
  have hspaced : ∀ user session, (w.advance i { p with stage, carries }).Spaced user session →
      w.Spaced user session := fun _ _ h => (spaced_of_eq hretentions rfl).mp h
  have hmem : ∀ q ∈ w.purges.set i { p with stage, carries },
      q ∈ w.purges ∨ q = { p with stage, carries } :=
    fun q hq => List.mem_or_eq_of_mem_set hq
  exact {
    past := hs.past
    cutoffs := fun q hq => by
      rcases hmem q hq with hq | rfl
      · exact hs.cutoffs q hq
      · exact hs.cutoffs p (List.mem_of_getElem? hp)
    rows := fun r => by
      rw [show (w.advance i { p with stage, carries }).requests = w.requests from rfl, hs.rows]
      refine and_congr_right fun _ => ⟨fun h q hq hcommitted => ?_, fun h q hq hcommitted => ?_⟩
      · rcases hmem q hq with hq | rfl
        · exact h q hq hcommitted
        · exact absurd hcommitted hstage
      · refine h q (mem_set_of_ne hp hq ?_) hcommitted
        rintro rfl
        exact hopen.1 hcommitted
    known := hs.known
    kept := ⟨fun user session hsession h => hs.kept.once user session hsession (hspaced user session h),
      hs.kept.counter⟩
    stands := fun q hq hqopen => by
      refine Stands.frame (w := w) ?_ (.of_eq rfl rfl hspaced)
      rcases hmem q hq with hq | rfl
      · exact hs.stands q hq hqopen
      · exact hstands hqopen.2
    separate := hs.separate.set hp fun hnew => ⟨hopen, htaken hnew.2⟩ }

theorem Sound.begin (hs : Sound start w) {retention : Int} (h : 0 ≤ retention) :
    Sound start (w.begin retention) := by
  have hmem : ∀ q ∈ (w.begin retention).purges,
      q ∈ w.purges ∨ q = ⟨retention, w.now - retention, .begun, []⟩ :=
    fun q hq => (List.mem_append.mp hq).imp_right List.mem_singleton.mp
  have hspaced : ∀ user session, (w.begin retention).Spaced user session → w.Spaced user session := by
    intro user session hspaced kept hkept
    refine hspaced kept ?_
    rw [World.retentions, World.begin, List.map_append]
    exact List.mem_append_left _ hkept
  have hnone : (Purge.mk retention (w.now - retention) .begun []).taken = [] := rfl
  exact {
    past := hs.past
    cutoffs := fun q hq => by
      rcases hmem q hq with hq | rfl
      · exact hs.cutoffs q hq
      · exact ⟨h, (Int.sub_add_cancel w.now retention).le⟩
    rows := fun r => by
      rw [show (w.begin retention).requests = w.requests from rfl, hs.rows]
      refine and_congr_right fun _ =>
        ⟨fun h q hq hcommitted => ?_, fun h q hq => h q (List.mem_append_left _ hq)⟩
      rcases hmem q hq with hq | rfl
      · exact h q hq hcommitted
      · cases hcommitted
    known := hs.known
    kept := ⟨fun user session hsession hs' =>
        hs.kept.once user session hsession (hspaced user session hs'),
      hs.kept.counter⟩
    stands := fun q hq hopen => by
      refine Stands.frame (w := w) ?_ (.of_eq rfl rfl hspaced)
      rcases hmem q hq with hq | rfl
      · exact hs.stands q hq hopen
      · exact ⟨List.nodup_nil, fun _ => rfl, fun hne => absurd rfl hne, nofun, trivial⟩
    separate := fun j k q r hj hk hjk hq hr user huser => by
      rw [World.begin, List.getElem?_append] at hj hk
      split at hj
      · split at hk
        · exact hs.separate j k q r hj hk hjk hq hr user huser
        · obtain rfl := List.mem_singleton.mp (List.mem_of_getElem? hk)
          rw [hnone]
          exact List.not_mem_nil
      · obtain rfl := List.mem_singleton.mp (List.mem_of_getElem? hj)
        rw [hnone] at huser
        cases huser }

/-- The requests of a session, with one that is recorded. -/
theorem mem_of_record {u : Nat} {s : Session} {r : Request} : r ∈ (w.record user session).of u s ↔
    r ∈ w.of u s ∨ (r = ⟨w.sequence, user, session, w.now⟩ ∧ user = u ∧ session = s) := by
  rw [mem_of, World.record, List.mem_append, List.mem_singleton, mem_of]
  constructor
  · rintro ⟨hr | rfl, huser, hsession⟩
    · exact Or.inl ⟨hr, huser, hsession⟩
    · exact Or.inr ⟨rfl, huser, hsession⟩
  · rintro (⟨hr, hof⟩ | ⟨rfl, hof⟩)
    · exact ⟨Or.inl hr, hof⟩
    · exact ⟨Or.inr rfl, hof⟩

section

variable (hs : Sound start w)

include hs

theorem spaced_of_record {u : Nat} {s : Session}
    (h : (w.record user session).Spaced u s) : w.Spaced u s := by
  intro retention hretention r hr
  rcases h retention hretention r (mem_of_record.mpr (Or.inl hr)) with hlast | ⟨q, hq, hlt, hle⟩
  · exact Or.inl fun q hq => hlast q (mem_of_record.mpr (Or.inl hq))
  · by_cases hlast : ∀ q ∈ w.of u s, q.createdAt ≤ r.createdAt
    · exact Or.inl hlast
    · -- one that is later, and not later than the new one
      push Not at hlast
      obtain ⟨next, hnext, hafter⟩ := hlast
      rcases mem_of_record.mp hq with hq | ⟨rfl, -⟩
      · exact Or.inr ⟨q, hq, hlt, hle⟩
      · exact Or.inr ⟨next, hnext, hafter, Int.le_trans (hs.past next (mem_of.mp hnext).1) hle⟩

/-- A session that goes on was not away: its last request is behind every cutoff. -/
theorem last_of_spaced (h : (w.record user session).Spaced user session)
    {p : Purge} (hp : p ∈ w.purges) {r : Request} (hr : r ∈ w.of user session)
    (hlast : ∀ q ∈ w.of user session, q.createdAt ≤ r.createdAt) : p.cutoff ≤ r.createdAt := by
  obtain ⟨hretention, hcutoff⟩ := hs.cutoffs p hp
  by_contra hlt
  rcases h p.retention (List.mem_map_of_mem hp) r (mem_of_record.mpr (Or.inl hr))
    with hall | ⟨q, hq, hafter, hle⟩
  · have hnow := hall ⟨w.sequence, user, session, w.now⟩ (mem_of_record.mpr (Or.inr ⟨rfl, rfl, rfl⟩))
    simp only at hnow
    omega
  · rcases mem_of_record.mp hq with hq | ⟨rfl, -⟩
    · exact absurd (hlast q hq) (not_le.mpr hafter)
    · simp only at hle
      omega

/-- ... and it still has a row. -/
theorem exists_last_row (h : (w.record user session).Spaced user session)
    (hsession : session ∈ w.sessions user) : ∃ r ∈ w.requests, r.user = user ∧ r.session = session ∧
      ∀ p ∈ w.purges, p.cutoff ≤ r.createdAt := by
  obtain ⟨r, hr, hlast⟩ := exists_last hsession
  have hbehind : ∀ p ∈ w.purges, p.cutoff ≤ r.createdAt := fun p hp => last_of_spaced hs h hp hr hlast
  obtain ⟨hrecorded, hof⟩ := mem_of.mp hr
  exact ⟨r, (hs.rows r).mpr ⟨hrecorded, fun p hp _ => hbehind p hp⟩, hof.1, hof.2, hbehind⟩

theorem sessions_of_live (h : session ∈ w.live user) : session ∈ w.sessions user := by
  obtain ⟨r, hr, hof⟩ := mem_live.mp h
  exact mem_sessions.mpr ⟨r, ((hs.rows r).mp hr).1, hof⟩

theorem frame_record (hp : p ∈ w.purges) : Frame w (w.record user session) p.cutoff p.taken := by
  obtain ⟨hretention, hcutoff⟩ := hs.cutoffs p hp
  have hmem : ∀ r ∈ (w.record user session).requests,
      r ∈ w.requests ∨ r = ⟨w.sequence, user, session, w.now⟩ :=
    fun r hr => (List.mem_append.mp hr).imp_right List.mem_singleton.mp
  have hrequests : ∀ r ∈ (w.record user session).requests, r.createdAt < p.cutoff → r ∈ w.requests := by
    intro r hr hold
    refine (hmem r hr).elim id ?_
    rintro rfl
    simp only at hold
    omega
  exact {
    requests := hrequests
    old := fun u _ => by
      ext s
      rw [mem_old, mem_old]
      constructor
      · rintro ⟨r, hr, huser, hsession, hold⟩
        exact ⟨r, hrequests r hr hold, huser, hsession, hold⟩
      · rintro ⟨r, hr, hof⟩
        exact ⟨r, List.mem_append_left _ hr, hof⟩
    recent := fun u _ s h => by
      obtain ⟨r, hr, hof⟩ := mem_recent.mp h
      exact mem_recent.mpr ⟨r, List.mem_append_left _ hr, hof⟩
    counters := fun _ _ => rfl
    spaced := fun u s h => spaced_of_record hs h
    past := fun u _ s hold hspaced hrecent => by
      obtain ⟨r, hr, huser, hsession, hbehind⟩ := mem_recent.mp hrecent
      rcases hmem r hr with hr | rfl
      · exact mem_recent.mpr ⟨r, hr, huser, hsession, hbehind⟩
      · obtain rfl := huser
        obtain rfl := hsession
        have hlive : session ∈ w.live user := by
          rw [live_eq w user p.cutoff]
          exact Finset.mem_union_left _ hold
        obtain ⟨last, hlast, huser, hsession, hcutoffs⟩ :=
          exists_last_row hs hspaced (sessions_of_live hs hlive)
        exact mem_recent.mpr ⟨last, hlast, huser, hsession, hcutoffs p hp⟩ }

theorem Sound.record (user : Nat) (session : Session) : Sound start (w.record user session) := by
  have hmem : ∀ (rows : List Request) (r : Request), r ∈ rows ++ [⟨w.sequence, user, session, w.now⟩] ↔
      r ∈ rows ∨ r = ⟨w.sequence, user, session, w.now⟩ :=
    fun rows r => by rw [List.mem_append, List.mem_singleton]
  have hnew : ∀ p ∈ w.purges, p.cutoff ≤ w.now := by
    intro p hp
    obtain ⟨hretention, hcutoff⟩ := hs.cutoffs p hp
    omega
  exact {
    past := fun r hr => by
      rcases (hmem w.recorded r).mp hr with hr | rfl
      · exact hs.past r hr
      · exact Int.le_refl _
    cutoffs := hs.cutoffs
    rows := fun r => by
      rw [World.record, hmem, hmem, hs.rows]
      constructor
      · rintro (⟨hr, hcommitted⟩ | rfl)
        · exact ⟨Or.inl hr, hcommitted⟩
        · exact ⟨Or.inr rfl, fun p hp _ => hnew p hp⟩
      · rintro ⟨hr | hr, hcommitted⟩
        · exact Or.inl ⟨hr, hcommitted⟩
        · exact Or.inr hr
    known := fun u s h => by
      obtain ⟨r, hr, hof⟩ := mem_sessions.mp (hs.known u s h)
      exact mem_sessions.mpr ⟨r, List.mem_append_left _ hr, hof⟩
    kept := {
      once := fun u s hsession hspaced => by
        have hlive : s ∈ (w.record user session).live u ↔ s ∈ w.live u ∨ (user = u ∧ session = s) := by
          rw [mem_live, mem_live]
          constructor
          · rintro ⟨r, hr, hof⟩
            rcases (hmem w.requests r).mp hr with hr | rfl
            · exact Or.inl ⟨r, hr, hof⟩
            · exact Or.inr hof
          · rintro (⟨r, hr, hof⟩ | hof)
            · exact ⟨r, (hmem w.requests r).mpr (Or.inl hr), hof⟩
            · exact ⟨_, (hmem w.requests _).mpr (Or.inr rfl), hof⟩
        by_cases hof : user = u ∧ session = s
        · obtain ⟨rfl, rfl⟩ := hof
          rw [if_pos (hlive.mpr (Or.inr ⟨rfl, rfl⟩))]
          by_cases hknown : session ∈ w.sessions user
          · obtain ⟨r, hr, huser, hrsession, -⟩ := exists_last_row hs hspaced hknown
            have honce := hs.kept.once user session hknown (spaced_of_record hs hspaced)
            rwa [if_pos (mem_live.mpr ⟨r, hr, huser, hrsession⟩)] at honce
          · -- the first request of its session
            have hnone : (w.carried user).count session = 0 :=
              Multiset.count_eq_zero.mpr fun h => hknown (hs.known user session h)
            exact congrArg (· + 1) hnone
        · have hknown : s ∈ w.sessions u := by
            obtain ⟨r, hr, hruser, hrsession⟩ := mem_sessions.mp hsession
            rcases (hmem w.recorded r).mp hr with hr | rfl
            · exact mem_sessions.mpr ⟨r, hr, hruser, hrsession⟩
            · exact absurd ⟨hruser, hrsession⟩ hof
          simp only [hlive, hof, or_false]
          exact hs.kept.once u s hknown (spaced_of_record hs hspaced)
      counter := hs.kept.counter }
    stands := fun q hq hopen => (hs.stands q hq hopen).frame (frame_record hs hq)
    separate := hs.separate }

end

/-! ### The commit -/

section Commit

variable {gone : List Request}

/-- The rows that are left. -/
theorem mem_requests_commit (hs : Sound start w) (hp : w.purges[i]? = some p)
    (hstage : p.stage = .deleted gone)
    {r : Request} : r ∈ (w.commit i p gone).requests ↔ r ∈ w.requests ∧ p.cutoff ≤ r.createdAt := by
  have hstands := hs.stands p (List.mem_of_getElem? hp)
    (open_of_stage hstage nofun nofun)
  have hat := hstands.atStage
  rw [hstage] at hat
  rw [World.commit, List.mem_filter, decide_eq_true_eq]
  refine and_congr_right fun hr => ⟨fun hkept => ?_, fun hbehind hgone => ?_⟩
  · exact not_lt.mp fun hold => hkept (hat.2 r hr hold)
  · exact absurd (hat.1 r hgone) (not_lt.mpr hbehind)

theorem live_commit (hs : Sound start w) (hp : w.purges[i]? = some p)
    (hstage : p.stage = .deleted gone) :
    (w.commit i p gone).live user = w.recent user p.cutoff := by
  ext session
  rw [mem_live, mem_recent]
  constructor
  · rintro ⟨r, hr, huser, hsession⟩
    obtain ⟨hr, hbehind⟩ := (mem_requests_commit hs hp hstage).mp hr
    exact ⟨r, hr, huser, hsession, hbehind⟩
  · rintro ⟨r, hr, huser, hsession, hbehind⟩
    exact ⟨r, (mem_requests_commit hs hp hstage).mpr ⟨hr, hbehind⟩, huser, hsession⟩

theorem spaced_commit (hp : w.purges[i]? = some p) :
    (w.commit i p gone).Spaced user session ↔ w.Spaced user session := by
  have hretentions : (w.commit i p gone).retentions = w.retentions := retentions_set hp rfl
  exact spaced_of_eq hretentions rfl

theorem taken_deleted (hstage : p.stage = .deleted gone) : p.taken = p.carries.map Carry.user := by
  rw [Purge.taken, hstage]
  exact List.append_nil _

/-- A user that the purge has not taken keeps all rows. -/
theorem old_eq_empty (hstands : Stands w p) (hstage : p.stage = .deleted gone)
    (huser : user ∉ p.taken) :
    ∀ r ∈ w.requests, r.user = user → p.cutoff ≤ r.createdAt := by
  intro r hr hof
  refine not_lt.mp fun hold => huser ?_
  have hlisted := hstands.listed (by rw [hstage]; nofun) r hr hold
  rw [hstage, Stage.left, List.append_nil, hof] at hlisted
  exact hlisted

/-- The counter of the user, with the sum. -/
theorem counted_apply {c : Carry} (h : Sums w c) :
    counted (((c.write.elim (w.counters c.user) (Write.apply (w.counters c.user))).head?).map
        Counter.features) =
      counted ((w.first c.user).map Counter.features) + c.ended.card := by
  unfold Sums at h
  rw [World.first]
  split at h
  · next hwrite => rw [hwrite, h]; rfl
  · next counter hwrite =>
    obtain ⟨hnone, hfeatures⟩ := h
    rw [hwrite, hnone]
    show counted (some counter.features) = counted none + c.ended.card
    rw [hfeatures]
    exact (Int.toNat_natCast _).trans (Nat.zero_add _).symm
  · next pk features hwrite =>
    obtain ⟨counter, rest, hcounters, rfl, rfl⟩ := h
    rw [hwrite, hcounters]
    simp only [Option.elim_some, Write.apply, List.map_cons, List.head?_cons, if_true, Option.map_some]
    exact Int.toNat_natCast (_ + _)

theorem carried_of_notMem (huser : user ∉ p.carries.map Carry.user) (m : Multiset Session) :
    p.carried user m = m := @foldl_of_notMem user _ (fun m c => m + c.ended.val) m _ huser

theorem carried_of_mem (hn : (p.carries.map Carry.user).Nodup) {c : Carry} (hc : c ∈ p.carries)
    (m : Multiset Session) : p.carried c.user m = m + c.ended.val :=
  @foldl_of_mem _ (fun m c => m + c.ended.val) m _ hn c hc

theorem counters_of_notMem (huser : user ∉ p.carries.map Carry.user) (cs : List Counter) :
    p.counters user cs = cs :=
  @foldl_of_notMem user _ (fun cs c => c.write.elim cs (Write.apply cs)) cs _ huser

theorem counters_of_mem (hn : (p.carries.map Carry.user).Nodup) {c : Carry} (hc : c ∈ p.carries)
    (cs : List Counter) : p.counters c.user cs = c.write.elim cs (Write.apply cs) :=
  @foldl_of_mem _ (fun cs c => c.write.elim cs (Write.apply cs)) cs _ hn c hc

/-- **A commit** keeps that each session is counted once: those that ended lose their rows, and nothing
    else changes. -/
theorem Sound.kept_commit (hs : Sound start w) (hp : w.purges[i]? = some p)
    (hstage : p.stage = .deleted gone) (hstands : Stands w p) : Kept start (w.commit i p gone) := by
  have htaken := taken_deleted hstage
  have hn : (p.carries.map Carry.user).Nodup := htaken ▸ (List.nodup_append.mp hstands.distinct).1
  constructor
  · intro u s hsession hspaced
    have honce := hs.kept.once u s hsession ((spaced_commit hp).mp hspaced)
    rw [live_commit hs hp hstage]
    rw [live_eq w u p.cutoff] at honce
    show (p.carried u (w.carried u)).count s + _ = 1
    by_cases hu : u ∈ p.taken
    · rw [htaken] at hu
      obtain ⟨c, hc, rfl⟩ := List.mem_map.mp hu
      obtain ⟨hended, -⟩ := hstands.carries c hc
      rw [carried_of_mem hn hc, Multiset.count_add, Multiset.count_eq_of_nodup c.ended.nodup]
      by_cases hover : s ∈ c.ended
      · have hrecent := hended.past s hover ((spaced_commit hp).mp hspaced)
        rw [if_pos (Finset.mem_union_left _ (hended.old hover))] at honce
        rw [if_pos (show s ∈ c.ended.val from hover), if_neg hrecent]
        exact honce
      · have hsame : s ∈ w.old c.user p.cutoff ∪ w.recent c.user p.cutoff ↔
            s ∈ w.recent c.user p.cutoff := by
          refine ⟨fun h => (Finset.mem_union.mp h).elim (fun hold => ?_) id, Finset.mem_union_right _⟩
          exact hended.recent (Finset.mem_sdiff.mpr ⟨hold, hover⟩)
        simp only [hsame] at honce
        rw [if_neg (show s ∉ c.ended.val from hover), Nat.add_zero]
        exact honce
    · have hnone : w.old u p.cutoff = ∅ := by
        refine Finset.eq_empty_of_forall_notMem fun s hold => ?_
        obtain ⟨r, hr, huser, -, hlt⟩ := mem_old.mp hold
        exact absurd (old_eq_empty hstands hstage hu r hr huser) (not_le.mpr hlt)
      rw [hnone, Finset.empty_union] at honce
      rw [carried_of_notMem (htaken ▸ hu)]
      exact honce
  · intro u
    show counted (((p.counters u (w.counters u)).head?).map Counter.features) =
      _ + (p.carried u (w.carried u)).card
    by_cases hu : u ∈ p.taken
    · rw [htaken] at hu
      obtain ⟨c, hc, rfl⟩ := List.mem_map.mp hu
      rw [carried_of_mem hn hc, counters_of_mem hn hc, counted_apply (hstands.carries c hc).2,
        hs.kept.counter,
        Multiset.card_add, Nat.add_assoc]
      rfl
    · rw [htaken] at hu
      rw [carried_of_notMem hu, counters_of_notMem hu]
      exact hs.kept.counter u

/-- The rows of a user that another purge has taken are left. -/
theorem frame_commit (hs : Sound start w) (hp : w.purges[i]? = some p)
    (hstage : p.stage = .deleted gone)
    (hstands : Stands w p) {taken : List Nat} (hapart : ∀ user ∈ taken, user ∉ p.taken) (cutoff : Int) :
    Frame w (w.commit i p gone) cutoff taken := by
  have hmem : ∀ user ∈ taken, ∀ r, r.user = user →
      (r ∈ (w.commit i p gone).requests ↔ r ∈ w.requests) := by
    intro user huser r hof
    rw [mem_requests_commit hs hp hstage]
    exact ⟨And.left, fun hr => ⟨hr, old_eq_empty hstands hstage (hapart user huser) r hr hof⟩⟩
  have hsame : ∀ user ∈ taken, ∀ so,
      sessionsOf (w.commit i p gone).requests user so = sessionsOf w.requests user so := by
    intro user huser so
    ext session
    rw [mem_sessionsOf, mem_sessionsOf]
    constructor
    · rintro ⟨r, hr, hof, hsession⟩
      exact ⟨r, (hmem user huser r hof).mp hr, hof, hsession⟩
    · rintro ⟨r, hr, hof, hsession⟩
      exact ⟨r, (hmem user huser r hof).mpr hr, hof, hsession⟩
  exact {
    requests := fun r hr _ => ((mem_requests_commit hs hp hstage).mp hr).1
    old := fun user huser => hsame user huser _
    recent := fun user huser => (hsame user huser _).symm.subset
    counters := fun user huser => counters_of_notMem (taken_deleted hstage ▸ hapart user huser) _
    spaced := fun _ _ => (spaced_commit hp).mp
    past := fun user huser session _ _ h =>
      (hsame user huser fun r => decide (cutoff ≤ r.createdAt)).subset h }

theorem Sound.commit (hs : Sound start w) (hp : w.purges[i]? = some p)
    (hstage : p.stage = .deleted gone) :
    Sound start (w.commit i p gone) := by
  have hopen : p.Open := open_of_stage hstage nofun nofun
  have hstands := hs.stands p (List.mem_of_getElem? hp) hopen
  obtain ⟨hlt, -⟩ := List.getElem?_eq_some_iff.mp hp
  have htaken := taken_deleted hstage
  have hn : (p.carries.map Carry.user).Nodup := htaken ▸ (List.nodup_append.mp hstands.distinct).1
  have hmem : ∀ q ∈ (w.commit i p gone).purges, q ∈ w.purges ∨ q = { p with stage := .committed } :=
    fun q hq => List.mem_or_eq_of_mem_set hq
  exact {
    past := hs.past
    cutoffs := fun q hq => by
      rcases hmem q hq with hq | rfl
      · exact hs.cutoffs q hq
      · exact hs.cutoffs p (List.mem_of_getElem? hp)
    rows := fun r => by
      rw [mem_requests_commit hs hp hstage, hs.rows, and_assoc]
      refine and_congr_right fun _ =>
        ⟨fun ⟨hall, hown⟩ q hq hcommitted => ?_, fun h => ⟨fun q hq hq' => ?_, ?_⟩⟩
      · rcases hmem q hq with hq | rfl
        · exact hall q hq hcommitted
        · exact hown
      · refine h q (mem_set_of_ne hp hq ?_) hq'
        rintro rfl
        exact hopen.1 hq'
      · exact h { p with stage := .committed } (List.mem_of_getElem? (List.getElem?_set_self hlt)) rfl
    known := fun u s hcarried => by
      show s ∈ w.sessions u
      replace hcarried : s ∈ p.carried u (w.carried u) := hcarried
      by_cases hu : u ∈ p.taken
      · rw [htaken] at hu
        obtain ⟨c, hc, rfl⟩ := List.mem_map.mp hu
        rw [carried_of_mem hn hc, Multiset.mem_add] at hcarried
        rcases hcarried with hcarried | hended
        · exact hs.known _ s hcarried
        · refine sessions_of_live hs ?_
          rw [live_eq w c.user p.cutoff]
          exact Finset.mem_union_left _ ((hstands.carries c hc).1.old hended)
      · rw [carried_of_notMem (htaken ▸ hu)] at hcarried
        exact hs.known u s hcarried
    kept := hs.kept_commit hp hstage hstands
    stands := fun q hq hqopen => by
      obtain ⟨j, hj⟩ := List.mem_iff_getElem?.mp hq
      have hij : i ≠ j := by
        rintro rfl
        rw [World.commit, List.getElem?_set_self hlt] at hj
        exact hqopen.1 (Option.some.inj hj ▸ rfl)
      rw [World.commit, List.getElem?_set_ne hij] at hj
      refine (hs.stands q (List.mem_of_getElem? hj) hqopen).frame
        (frame_commit hs hp hstage hstands ?_ _)
      exact hs.separate j i q p hj hp hij.symm hqopen hopen
    separate := hs.separate.set hp fun hcommitted => absurd rfl hcommitted.1 }

end Commit

/-! ### The steps -/

variable {w' : World}

theorem Sound.stepPurge (hs : Sound start w) (hp : w.purges[i]? = some p) {statement : Statement}
    (hin : Apart w (.ofPurge i statement)) (h : stepPurge w i p statement = some w') :
    Sound start w' := by
  have hstands : p.Open → Stands w p := hs.stands p (List.mem_of_getElem? hp)
  cases statement with
  | users order =>
    rw [Telemetry.stepPurge] at h
    split at h
    · next hstage =>
      split at h
      · next hlists =>
        cases h
        have hopen : p.Open := open_of_stage hstage nofun nofun
        refine hs.advance hp hopen nofun (fun _ => (hstands hopen).users hstage hlists)
          fun _ u hu => ?_
        exact Or.inl (by rwa [Purge.taken, hstage])
      · cases h
    · cases h
  | ending =>
    rw [Telemetry.stepPurge] at h
    split at h
    · next user left hstage =>
      cases h
      have hopen : p.Open := open_of_stage hstage nofun nofun
      refine hs.advance hp hopen nofun (fun _ => (hstands hopen).ending hstage) fun _ u hu => ?_
      rcases List.mem_append.mp hu with hu | hu
      · exact Or.inl (List.mem_append_left _ hu)
      · -- the one user more, whom no other open purge has taken
        obtain rfl := List.mem_singleton.mp hu
        exact Or.inr (hin p hp u (by rw [hstage]; rfl))
    · cases h
  | continuing =>
    rw [Telemetry.stepPurge] at h
    split at h
    · next user sessions left hstage =>
      have hopen : p.Open := open_of_stage hstage nofun nofun
      have htaken : p.taken = p.carries.map Carry.user ++ [user] := by rw [Purge.taken, hstage]; rfl
      dsimp only at h
      split at h
      · next hnone =>
        cases h
        refine hs.advance hp hopen nofun (fun _ => (hstands hopen).passed hstage hnone)
          fun _ u hu => ?_
        rw [List.map_append, List.mem_append] at hu
        exact Or.inl (htaken ▸ hu.elim id nofun)
      · cases h
        refine hs.advance hp hopen nofun (fun _ => (hstands hopen).ended hstage) fun _ u hu => ?_
        exact Or.inl (htaken ▸ hu)
    · cases h
  | first =>
    rw [Telemetry.stepPurge] at h
    split at h
    · next user sessions left hstage =>
      cases h
      have hopen : p.Open := open_of_stage hstage nofun nofun
      refine hs.advance hp hopen nofun (fun _ => (hstands hopen).first hstage) fun _ u hu => ?_
      exact Or.inl (by rwa [Purge.taken, hstage])
    · cases h
  | add =>
    rw [Telemetry.stepPurge] at h
    split at h
    · next user sessions first left hstage =>
      split at h
      · cases h
      · cases h
        have hopen : p.Open := open_of_stage hstage nofun nofun
        have htaken : p.taken = p.carries.map Carry.user ++ [user] := by rw [Purge.taken, hstage]; rfl
        have hadvance : Sound start (w.advance i { p with
            stage := .users left
            carries := p.carries ++ [⟨user, sessions, some (written w sessions first)⟩] }) := by
          refine hs.advance hp hopen nofun (fun _ => (hstands hopen).add hstage) fun _ u hu => ?_
          rw [List.map_append, List.mem_append] at hu
          exact Or.inl (htaken ▸ hu.elim id nofun)
        exact hadvance.sequence _
    · cases h
  | delete =>
    rw [Telemetry.stepPurge] at h
    split at h
    · next hstage =>
      split at h
      · cases h
      · cases h
        have hopen : p.Open := open_of_stage hstage nofun nofun
        refine hs.advance hp hopen nofun (fun _ => (hstands hopen).delete hstage) fun _ u hu => ?_
        exact Or.inl (by rwa [Purge.taken, hstage])
    · cases h
  | commit =>
    rw [Telemetry.stepPurge] at h
    split at h
    · next gone hstage =>
      cases h
      exact hs.commit hp hstage
    · cases h
  | abort =>
    rw [Telemetry.stepPurge] at h
    split at h
    · next hopen =>
      cases h
      exact hs.advance hp hopen nofun (fun hne => absurd rfl hne) fun hne => absurd rfl hne
    · cases h

/-- A statement of a purge records no request, and begins no purge. -/
theorem stepPurge_same (hp : w.purges[i]? = some p) {statement : Statement}
    (h : stepPurge w i p statement = some w') :
    w'.recorded = w.recorded ∧ w'.retentions = w.retentions := by
  cases statement
  all_goals
    simp only [Telemetry.stepPurge] at h
    (repeat' split at h) <;> first
      | (cases h; exact ⟨rfl, retentions_set hp rfl⟩)
      | cases h

theorem step_sound {a : Action} (hs : Sound start w) (hin : Apart w a)
    (h : step w a = some w') : Sound start w' := by
  cases a with
  | tick now =>
    rw [step] at h
    split at h
    · next hle => exact Option.some.inj h ▸ hs.tick hle
    · cases h
  | record user session => exact Option.some.inj h ▸ hs.record user session
  | begin retention => exact Option.some.inj h ▸ hs.begin hin
  | ofPurge i statement =>
    obtain ⟨p, hp, hstep⟩ := Option.bind_eq_some_iff.mp h
    exact hs.stepPurge hp hin hstep

theorem Sound.seen (hs : Sound start w) (hspaced : ∀ session, w.Spaced user session) :
    w.sessionsSeen user =
      counted ((start.first user).map Counter.features) + (w.sessions user).card :=
  hs.kept.seen hspaced (fun r hr => ((hs.rows r).mp hr).1) (hs.known user)

/-- A table of requests and of counters, before any purge. -/
def World.at (now : Int) (sequence : Nat) (requests : List Request)
    (counters : Nat → List Counter) : World :=
  { now, sequence, requests, counters }

theorem sound_start {now : Int} {sequence : Nat} {requests : List Request}
    {counters : Nat → List Counter} (hpast : ∀ r ∈ requests, r.createdAt ≤ now) :
    Sound (World.at now sequence requests counters) (World.at now sequence requests counters) where
  past := hpast
  cutoffs := nofun
  rows := fun r => ⟨fun hr => ⟨hr, nofun⟩, And.left⟩
  known := fun _ _ h => absurd h (Multiset.notMem_zero _)
  kept := {
    once := fun user session hsession _ => by
      rw [if_pos (show session ∈ (World.at now sequence requests counters).live user from hsession)]
      rfl
    counter := fun _ => rfl }
  stands := nofun
  separate := fun _ _ _ _ hi => by cases hi

/-- **No step but a request changes what was seen** of a user whose sessions are spaced. -/
theorem step_seen {a : Action} (hs : Sound start w) (hin : Apart w a)
    (hrequest : ∀ user session, a ≠ .record user session) (h : step w a = some w')
    (hspaced : ∀ session, w.Spaced user session) : w'.sessionsSeen user = w.sessionsSeen user := by
  cases a with
  | tick now =>
    rw [step] at h
    split at h
    · exact Option.some.inj h ▸ rfl
    · cases h
  | record user session => exact absurd rfl (hrequest user session)
  | begin retention => exact Option.some.inj h ▸ rfl
  | ofPurge i statement =>
    have hs' := step_sound hs hin h
    obtain ⟨p, hp, hstep⟩ := Option.bind_eq_some_iff.mp h
    obtain ⟨hrecorded, hretentions⟩ := stepPurge_same hp hstep
    rw [hs.seen hspaced, hs'.seen fun session => (spaced_of_eq hretentions hrecorded).mpr
      (hspaced session),
      World.sessions, World.sessions, hrecorded]

/-- **Telemetry keeps its sessions**: along every run that meets the condition each spaced session is
    counted once, and no step of a purge changes how many sessions of a user were seen. -/
theorem sessions_kept {now : Int} {sequence : Nat} {requests : List Request}
    {counters : Nat → List Counter} {as : List Action} (hpast : ∀ r ∈ requests, r.createdAt ≤ now)
    (hrun : run step (World.at now sequence requests counters) as = some w)
    (hin : Along step Apart (World.at now sequence requests counters) as) :
    Kept (World.at now sequence requests counters) w ∧
      ∀ a w', step w a = some w' → Apart w a → (∀ user session, a ≠ .record user session) →
        ∀ user, (∀ session, w.Spaced user session) → w'.sessionsSeen user = w.sessionsSeen user := by
  have hs : Sound (World.at now sequence requests counters) w :=
    run_invariant_along (fun _ _ _ hstep hin hs => step_sound hs hin hstep) hrun hin (sound_start hpast)
  exact ⟨hs.kept, fun a w' hstep hin hrequest user hspaced => step_seen hs hin hrequest hstep hspaced⟩

end Steps

section Examples

/-- A purge of one user. -/
def purgeOf (i user : Nat) : List Action :=
  [.ofPurge i (.users [user]), .ofPurge i .ending, .ofPurge i .continuing, .ofPurge i .first,
    .ofPurge i .add, .ofPurge i .delete, .ofPurge i .commit]

/-- Two sessions of one user and one of another, with no counter. -/
def table : World := .at 100 4
  [⟨1, 7, "a", 10⟩, ⟨2, 7, "b", 30⟩, ⟨3, 8, "c", 20⟩] fun _ => []

/-- Two purges at a time of different users, and a third behind them; a session goes on. -/
def sideBySide : List Action :=
  [.begin 80, .begin 75, .ofPurge 0 (.users [7]), .ofPurge 0 .ending, .ofPurge 1 (.users [8, 7]),
    .ofPurge 1 .ending, .ofPurge 0 .continuing, .ofPurge 1 .continuing, .ofPurge 0 .first,
    .ofPurge 1 .first, .record 7 "b", .ofPurge 0 .add, .ofPurge 1 .add, .ofPurge 0 .delete,
    .ofPurge 0 .commit, .ofPurge 1 .ending, .ofPurge 1 .continuing, .ofPurge 1 .delete,
    .ofPurge 1 .commit, .tick 190, .begin 85] ++ purgeOf 2 7

theorem sessions_kept_sideBySide : ∃ w, run step table sideBySide = some w ∧
    (w.sessionsSeen 7 = 2 ∧ w.sessionsSeen 8 = 1) ∧ Kept table w := by
  have hrun : (run step table sideBySide).map (fun w => (w.sessionsSeen 7, w.sessionsSeen 8)) =
      some (2, 1) := by decide +kernel
  obtain ⟨w, hw, hseen⟩ := Option.map_eq_some_iff.mp hrun
  exact ⟨w, hw, Prod.mk.inj hseen, (sessions_kept (by decide +kernel) hw (by decide +kernel)).1⟩

/-- Two purges have read that a session ended, and the second commits behind the first. -/
def twice : List Action :=
  [.begin 85, .begin 85, .ofPurge 0 (.users [7]), .ofPurge 1 (.users [7]), .ofPurge 0 .ending,
    .ofPurge 1 .ending, .ofPurge 0 .continuing, .ofPurge 1 .continuing, .ofPurge 0 .first,
    .ofPurge 0 .add, .ofPurge 0 .delete, .ofPurge 0 .commit, .ofPurge 1 .first, .ofPurge 1 .add,
    .ofPurge 1 .delete]

/-- **A session is counted twice**: its counter was read behind the other purge's commit, its rows
    before. -/
theorem session_twice : ∃ w w', run step table twice = some w ∧
    step w (.ofPurge 1 .commit) = some w' ∧ (∀ session, w.Spaced 7 session) ∧
      w.sessionsSeen 7 = 2 ∧ w'.sessionsSeen 7 = 3 := by
  have hrun : (run step table twice).map (fun w => (w.recorded, w.sessionsSeen 7)) =
      some (table.recorded, 2) := by decide +kernel
  have hnext : ((run step table twice).bind fun w =>
      (step w (.ofPurge 1 .commit)).map fun w' => w'.sessionsSeen 7) = some 3 := by decide +kernel
  obtain ⟨w, hw, heq⟩ := Option.map_eq_some_iff.mp hrun
  obtain ⟨hrecorded, hseen⟩ := Prod.mk.inj heq
  rw [hw] at hnext
  obtain ⟨w', hw', hseen'⟩ := Option.map_eq_some_iff.mp hnext
  refine ⟨w, w', hw, hw', fun session retention _ r hr => Or.inl fun q hq => ?_, hseen, hseen'⟩
  -- each session of the table has one request
  have hone : ∀ r ∈ table.recorded, ∀ q ∈ table.recorded, q.session = r.session → q = r := by
    decide +kernel
  obtain ⟨hr, -, hrsession⟩ := mem_of.mp hr
  obtain ⟨hq, -, hqsession⟩ := mem_of.mp hq
  rw [hrecorded] at hr hq
  exact (congrArg Request.createdAt (hone r hr q hq (hqsession.trans hrsession.symm))).le

end Examples

end Dbs.Telemetry

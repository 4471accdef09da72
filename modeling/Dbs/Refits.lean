/-
  File:      Dbs/Refits.lean
  Subject:   THE FITTED MODELS OF THE SESSION GUARD (detector.py): `personal_model` looks one up and
             has it refitted in the background, and `forget` removes those of one user or of all.

  Any number of calls and refits, one query or one block under the lock at a time; a query may raise.
  Every step has a number, its time; a model is told by when it was requested and when its rows were
  read.

  * `due`, `callStep`, `refitStep`, `forgotten` -- the functions of the module, block by block;
  * `World.Kept` -- no call returns a model of rows read before a forget that came before the call,
    and of the refits of a user that were requested since their last forget at most one is under way;
  * `Replaced` -- what may become of a fitted model in a step;
  * `Undisturbed` -- no refit from before a forget ends while one from after it is under way, and too
    few rows are not noted over a model;
  * `Sound` -- what holds along such a run; `refits_kept` -- then both hold;
    `refits_disturbed` -- two refits at once, and a model that is lost.
-/
import Dbs.Lib.Runs

namespace Dbs.Refits

open Runs

/-! ## 1. Fits -/

/-- A forest and its calibration. -/
structure Model where
  requested : Nat
  read : Nat
deriving DecidableEq

/-- `fittedAt` in seconds. -/
structure PersonalFit where
  model : Option Model
  newestId : Option Nat
  rows : Nat
  fittedAt : Nat
  scored : Nat
deriving DecidableEq

def refitSeconds : Nat := 15 * 60

def refitEvents : Nat := 200

/-- `_due`. -/
def due (minimumRows : Nat) (fit : Option PersonalFit) (newest : Option Nat) (clock : Nat) : Bool :=
  match newest, fit with
  | none, _ => false
  | some _, none => true
  | some id, some fit =>
    if some id = fit.newestId then false
    else if refitSeconds ≤ clock - fit.fittedAt then true
    else if fit.model = none then minimumRows ≤ fit.rows + fit.scored
    else refitEvents ≤ fit.scored

/-- Where a refit is. -/
inductive Work
  /-- Its thread is not started yet. -/
  | waiting
  | running
  | fitted (fit : PersonalFit)
  /-- `_fit` raised. -/
  | broken
  | over
deriving DecidableEq

structure Refit where
  user : Nat
  generation : Nat
  requested : Nat
  work : Work
deriving DecidableEq

/-- Where a call is, with the fit that it looked up. -/
inductive Stage
  | begun
  | asked (newest : Option Nat)
  | counting (fit : Option PersonalFit) (newest : Option Nat)
  | noting (fit : Option PersonalFit) (newest : Option Nat) (rows : Nat)
  | requesting (fit : Option PersonalFit)
  | starting (fit : Option PersonalFit) (refit : Nat)
  | returning (fit : Option PersonalFit)
  | over

def Stage.fit : Stage → Option PersonalFit
  | .begun | .asked _ | .over => none
  | .counting fit _ | .noting fit _ _ | .requesting fit | .starting fit _ | .returning fit => fit

structure Call where
  user : Nat
  started : Nat
  stage : Stage

/-- A call that returned, with its model. -/
structure Returned where
  user : Nat
  started : Nat
  model : Option Model

/-- A forget, of one user or of all. -/
structure Forget where
  user : Option Nat
  time : Nat
deriving DecidableEq

def Forget.isOf (f : Forget) (user : Nat) : Bool := f.user.all (· == user)

/-- `_fits`, `_refitting` and `_generation`, and what is under way. -/
structure World where
  now : Nat := 0
  generation : Nat := 0
  fits : Nat → Option PersonalFit := fun _ => none
  refitting : Nat → Bool := fun _ => false
  refits : List Refit := []
  calls : List Call := []
  returned : List Returned := []
  forgets : List Forget := []

namespace World

variable (w : World)

/-- The time of the next step. -/
def next : Nat := w.now + 1

def model (user : Nat) : Option Model := (w.fits user).bind PersonalFit.model

theorem model_update_self (user : Nat) (fit : Option PersonalFit) :
    ({ w with fits := Function.update w.fits user fit } : World).model user =
    fit.bind PersonalFit.model := by
  show (Function.update w.fits user fit user).bind PersonalFit.model = _
  rw [Function.update_self]

theorem model_update_of_ne {user u : Nat} (fit : Option PersonalFit) (h : u ≠ user) :
    ({ w with fits := Function.update w.fits user fit } : World).model u = w.model u := by
  show (Function.update w.fits user fit u).bind PersonalFit.model = _
  rw [Function.update_of_ne h, model]

/-- Behind every forget of the user. -/
def Since (user time : Nat) : Prop := ∀ f ∈ w.forgets, f.isOf user = true → f.time < time

instance (user time : Nat) : Decidable (w.Since user time) :=
  inferInstanceAs (Decidable (∀ f ∈ w.forgets, _ → _))

end World

/-! ## 2. Steps -/

inductive CallMove
  /-- The query of the newest row. -/
  | newest (id : Option Nat)
  | look (clock : Nat)
  /-- The query of the number of rows. -/
  | count (rows : Nat)
  | note (clock : Nat)
  | request
  | start
  /-- The thread is not started. -/
  | refuse
  | finish
  | raise

inductive RefitMove
  /-- `_fit` has read the rows. -/
  | fit (newest : Option Nat) (rows clock : Nat)
  | raise
  | finish (clock : Nat)

inductive Action
  | call (user : Nat)
  /-- `request_refit`, by itself. -/
  | ask (user : Nat)
  | forget (user : Option Nat)
  | ofCall (i : Nat) (move : CallMove)
  | ofRefit (j : Nat) (move : RefitMove)

section Steps

variable (minimumRows : Nat) (w : World)

/-- Where a call goes when it has looked. -/
def looked (fit : Option PersonalFit) (newest : Option Nat) (clock : Nat) : Stage :=
  if due minimumRows fit newest clock then
    if (fit.bind PersonalFit.model).isSome then .requesting fit else .counting fit newest
  else .returning fit

/-- `_ready_to_fit`, with too few rows. -/
def noted (user : Nat) (newest : Option Nat) (rows clock : Nat) : World :=
  { w with fits := Function.update w.fits user (some ⟨none, newest, rows, clock, 0⟩) }

def World.scored (user : Nat) : Option PersonalFit :=
  (w.fits user).map fun fit => { fit with scored := fit.scored + 1 }

def working (j : Nat) (r : Refit) (work : Work) : World :=
  { w with refits := w.refits.set j { r with work } }

/-- `_refitting.discard`, as the refit ends. -/
def discarded (j : Nat) (r : Refit) : World :=
  { working w j r .over with refitting := Function.update w.refitting r.user false }

/-- A new refit, and its mark. -/
def requested (user : Nat) : World :=
  { w with
    refitting := Function.update w.refitting user true
    refits := w.refits ++ [⟨user, w.generation, w.next, .waiting⟩] }

/-- `personal_model` and `request_refit`. -/
def callStep (c : Call) : CallMove → Option (World × Stage)
  | .newest id =>
    match c.stage with
    | .begun => some (w, .asked id)
    | _ => none
  | .look clock =>
    match c.stage with
    | .asked newest =>
      some ({ w with fits := Function.update w.fits c.user (w.scored c.user) },
        looked minimumRows (w.scored c.user) newest clock)
    | _ => none
  | .count rows =>
    match c.stage with
    | .counting fit newest =>
      some (w, if minimumRows ≤ rows then .requesting fit else .noting fit newest rows)
    | _ => none
  | .note clock =>
    match c.stage with
    | .noting fit newest rows => some (noted w c.user newest rows clock, .returning fit)
    | _ => none
  | .request =>
    match c.stage with
    | .requesting fit =>
      if w.refitting c.user then some (w, .returning fit)
      else some (requested w c.user, .starting fit w.refits.length)
    | _ => none
  | .start =>
    match c.stage with
    | .starting fit j =>
      (w.refits[j]?).bind fun r =>
        if r.work = .waiting then some (working w j r .running, .returning fit) else none
    | _ => none
  | .refuse =>
    match c.stage with
    | .starting fit j =>
      (w.refits[j]?).bind fun r =>
        if r.work = .waiting then some (discarded w j r, .returning fit) else none
    | _ => none
  | .finish =>
    match c.stage with
    | .returning fit =>
      some ({ w with returned := ⟨c.user, c.started, fit.bind PersonalFit.model⟩ :: w.returned }, .over)
    | _ => none
  | .raise =>
    match c.stage with
    | .begun | .asked _ | .counting _ _ => some (w, .over)
    | _ => none

/-- What a failed refit leaves: the fit of before, as if it were new. -/
def postponed (fit : Option PersonalFit) (clock : Nat) : PersonalFit :=
  { fit.getD ⟨none, none, 0, clock, 0⟩ with fittedAt := clock, scored := 0 }

def stored (r : Refit) (fit : PersonalFit) : World :=
  if r.generation = w.generation then { w with fits := Function.update w.fits r.user (some fit) } else w

/-- `refit`, in the background. -/
def refitStep (j : Nat) (r : Refit) : RefitMove → Option World
  | .fit newest rows clock =>
    if r.work = .running then
      some (working w j r (.fitted
        ⟨if minimumRows ≤ rows then some ⟨r.requested, w.next⟩ else none, newest, rows, clock, 0⟩))
    else none
  | .raise => if r.work = .running then some (working w j r .broken) else none
  | .finish clock =>
    match r.work with
    | .fitted fit => some (stored (discarded w j r) r fit)
    | .broken => some (stored (discarded w j r) r (postponed (w.fits r.user) clock))
    | _ => none

/-- `forget`. -/
def forgotten (user : Option Nat) : World :=
  let f : Forget := ⟨user, w.next⟩
  { w with
    generation := w.generation + 1
    fits := fun u => if f.isOf u then none else w.fits u
    refitting := fun u => if f.isOf u then false else w.refitting u
    forgets := f :: w.forgets }

/-- One query, or one block under the lock. -/
def step : Action → Option World
  | .call user => some { w with now := w.next, calls := w.calls ++ [⟨user, w.next, .begun⟩] }
  | .ask user => some { w with now := w.next, calls := w.calls ++ [⟨user, w.next, .requesting none⟩] }
  | .forget user => some { forgotten w user with now := w.next }
  | .ofCall i move =>
    (w.calls[i]?).bind fun c =>
      (callStep minimumRows w c move).map fun (w', stage) =>
        { w' with now := w.next, calls := w.calls.set i { c with stage } }
  | .ofRefit j move =>
    (w.refits[j]?).bind fun r =>
      (refitStep minimumRows w j r move).map fun w' => { w' with now := w.next }

end Steps

/-! ## 3. What is promised -/

/-- Under way, and requested behind every forget of its user. -/
def Refit.Live (w : World) (r : Refit) : Prop := r.work ≠ .over ∧ w.Since r.user r.requested

instance (w : World) (r : Refit) : Decidable (r.Live w) := inferInstanceAs (Decidable (_ ∧ _))

structure World.Kept (w : World) : Prop where
  returned : ∀ x ∈ w.returned, ∀ m, x.model = some m →
    ∀ f ∈ w.forgets, f.isOf x.user = true → f.time < x.started → f.time < m.read
  single : ∀ (i j : Nat) (r q : Refit), w.refits[i]? = some r → w.refits[j]? = some q →
    r.user = q.user →
    r.Live w → q.Live w → i = j

/-- What becomes of a fitted model in a step: it stays, or is forgotten, or a refit that was requested
    later puts another fit in its place. -/
def Replaced (w : World) (a : Action) (w' : World) : Prop :=
  ∀ user m, w.model user = some m →
    w'.model user = some m ∨
    (∃ of, a = .forget of ∧ (Forget.mk of w.next).isOf user = true ∧ w'.fits user = none) ∨
    ∃ j clock r fit, a = .ofRefit j (.finish clock) ∧ w.refits[j]? = some r ∧ r.user = user ∧
      r.work = .fitted fit ∧ m.requested < r.requested ∧ w'.fits user = some fit

/-- The end of a refit takes no mark from another one. -/
def Alone (w : World) (r : Refit) : Prop := r.Live w ∨ ∀ q ∈ w.refits, q.user = r.user → ¬ q.Live w

instance (w : World) (r : Refit) : Decidable (Alone w r) := inferInstanceAs (Decidable (_ ∨ _))

/-- **The condition**: no refit from before a forget ends, or fails to start, while one of the user's
    from after it is under way, and too few rows are not noted over a fitted model. -/
def Undisturbed (w : World) : Action → Prop
  | .ofCall i .refuse => ∀ c ∈ w.calls[i]?, ∀ r ∈ (match c.stage with
      | .starting _ j => w.refits[j]?
      | _ => none), Alone w r
  | .ofCall i (.note _) => ∀ c ∈ w.calls[i]?, w.model c.user = none
  | .ofRefit j (.finish _) => ∀ r ∈ w.refits[j]?, Alone w r
  | _ => True

instance (w : World) : (a : Action) → Decidable (Undisturbed w a)
  | .ofCall i .refuse => inferInstanceAs (Decidable (∀ c ∈ w.calls[i]?, ∀ r ∈ (match c.stage with
      | .starting _ j => w.refits[j]?
      | _ => none), Alone w r))
  | .ofCall i (.note _) => inferInstanceAs (Decidable (∀ c ∈ w.calls[i]?, w.model c.user = none))
  | .ofRefit j (.finish _) => inferInstanceAs (Decidable (∀ r ∈ w.refits[j]?, Alone w r))
  | .ofCall _ (.newest _) | .ofCall _ (.look _) | .ofCall _ (.count _) | .ofCall _ .request
  | .ofCall _ .start | .ofCall _ .finish | .ofCall _ .raise | .ofRefit _ (.fit _ _ _)
    | .ofRefit _ .raise
  | .call _ | .ask _ | .forget _ => inferInstanceAs (Decidable True)

/-! ## 4. What holds along such a run -/

/-- The table and the refits. -/
structure Table (w : World) : Prop where
  forgets : ∀ f ∈ w.forgets, f.time ≤ w.now
  refits : ∀ r ∈ w.refits, r.requested ≤ w.now ∧ r.generation ≤ w.generation ∧
    (r.generation = w.generation → ∀ f ∈ w.forgets, f.time < r.requested)
  fitted : ∀ r ∈ w.refits, ∀ fit m, r.work = .fitted fit → fit.model = some m →
    m.requested = r.requested ∧ r.requested < m.read ∧ m.read ≤ w.now
  fresh : ∀ user m, w.model user = some m →
    w.Since user m.requested ∧ m.requested < m.read ∧ m.read ≤ w.now
  marked : ∀ r ∈ w.refits, r.Live w → w.refitting r.user = true
  single : ∀ (i j : Nat) (r q : Refit), w.refits[i]? = some r → w.refits[j]? = some q →
    r.user = q.user →
    r.Live w → q.Live w → i = j
  later : ∀ r ∈ w.refits, r.Live w → ∀ m, w.model r.user = some m → m.requested < r.requested

/-- A model of rows that were read behind every forget from before the start. -/
def Unseen (w : World) (user started : Nat) (model : Option Model) : Prop :=
  ∀ m, model = some m → ∀ f ∈ w.forgets, f.isOf user = true → f.time < started → f.time < m.read

/-- What the calls hold and what they returned. -/
structure Seen (w : World) : Prop where
  calls : ∀ c ∈ w.calls, c.started ≤ w.now ∧
    Unseen w c.user c.started (c.stage.fit.bind PersonalFit.model)
  returned : ∀ x ∈ w.returned, x.started ≤ w.now ∧ Unseen w x.user x.started x.model

/-- The invariant. -/
structure Sound (w : World) : Prop where
  table : Table w
  seen : Seen w

theorem sound_start : Sound {} := ⟨⟨nofun, nofun, nofun, nofun, nofun, nofun, nofun⟩, ⟨nofun, nofun⟩⟩

section Table

theorem getElem?_concat_cases {α : Type} {l : List α} {a b : α} {i : Nat}
    (h : (l ++ [a])[i]? = some b) :
    l[i]? = some b ∨ (i = l.length ∧ b = a) := by
  by_cases hi : i < l.length
  · rw [List.getElem?_append_left hi] at h
    exact .inl h
  · rw [List.getElem?_append_right (by omega)] at h
    have hzero : i - l.length = 0 := by
      by_contra hne
      rw [List.getElem?_eq_none (by simp only [List.length_singleton]; omega)] at h
      cases h
    rw [hzero] at h
    exact .inr ⟨by omega, (Option.some.inj h).symm⟩

variable {w w' : World} {j : Nat} {r : Refit} {user : Nat} {work : Work}

/-- What most steps leave: the forgets, whose the refits are and which are over, and the models. -/
structure Follows (w w' : World) : Prop where
  now : w.now ≤ w'.now
  generation : w'.generation = w.generation
  forgets : w'.forgets = w.forgets
  refits : ∀ (j : Nat) (q : Refit), w'.refits[j]? = some q → ∃ r, w.refits[j]? = some r ∧
    r.user = q.user ∧ r.generation = q.generation ∧ r.requested = q.requested ∧
    (q.work ≠ .over → r.work ≠ .over)
  model : ∀ user m, w'.model user = some m → w.model user = some m

theorem Follows.since (h : Follows w w') {user time : Nat} : w'.Since user time ↔
    w.Since user time := by
  rw [World.Since, World.Since, h.forgets]

theorem Follows.of_mem (h : Follows w w') {q : Refit} (hq : q ∈ w'.refits) : ∃ r ∈ w.refits,
    r.user = q.user ∧ r.generation = q.generation ∧ r.requested = q.requested ∧
    (q.Live w' → r.Live w) := by
  obtain ⟨j, hj⟩ := List.mem_iff_getElem?.mp hq
  obtain ⟨r, hr, huser, hgeneration, hrequested, hover⟩ := h.refits j q hj
  refine ⟨r, List.mem_of_getElem? hr, huser, hgeneration, hrequested, fun hlive => ⟨hover hlive.1, ?_⟩⟩
  rw [huser, hrequested]
  exact h.since.mp hlive.2

theorem Table.follow (ht : Table w) (h : Follows w w')
    (hfitted : ∀ q ∈ w'.refits, ∀ fit m, q.work = .fitted fit → fit.model = some m →
      m.requested = q.requested ∧ q.requested < m.read ∧ m.read ≤ w'.now)
    (hmarked : ∀ q ∈ w'.refits, q.Live w' → w'.refitting q.user = true) : Table w' where
  forgets := fun f hf => Nat.le_trans (ht.forgets f (h.forgets ▸ hf)) h.now
  refits := fun q hq => by
    obtain ⟨r, hr, -, hgeneration, hrequested, -⟩ := h.of_mem hq
    rw [← hgeneration, ← hrequested, h.generation, h.forgets]
    obtain ⟨hnow, hle, hcurrent⟩ := ht.refits r hr
    exact ⟨Nat.le_trans hnow h.now, hle, hcurrent⟩
  fitted := hfitted
  fresh := fun user m hm => by
    obtain ⟨hsince, hread, hnow⟩ := ht.fresh user m (h.model user m hm)
    exact ⟨h.since.mpr hsince, hread, Nat.le_trans hnow h.now⟩
  marked := hmarked
  single := fun i j r q hi hj huser hr hq => by
    obtain ⟨r0, hr0, hruser, -, hrrequested, hrover⟩ := h.refits i r hi
    obtain ⟨q0, hq0, hquser, -, hqrequested, hqover⟩ := h.refits j q hj
    refine ht.single i j r0 q0 hr0 hq0 (hruser.trans (huser.trans hquser.symm)) ⟨hrover hr.1, ?_⟩
      ⟨hqover hq.1, ?_⟩
    · rw [hruser, hrrequested]
      exact h.since.mp hr.2
    · rw [hquser, hqrequested]
      exact h.since.mp hq.2
  later := fun q hq hlive m hm => by
    obtain ⟨r, hr, huser, -, hrequested, hrlive⟩ := h.of_mem hq
    rw [← hrequested]
    exact ht.later r hr (hrlive hlive) m (huser ▸ h.model _ m hm)

/-- The work of a refit changes. -/
theorem follows_working (hj : w.refits[j]? = some r) (hover : work ≠ .over → r.work ≠ .over) :
    Follows w (working w j r work) where
  now := Nat.le_refl _
  generation := rfl
  forgets := rfl
  refits := fun i q hq => by
    obtain ⟨hlt, -⟩ := List.getElem?_eq_some_iff.mp hj
    by_cases hi : j = i
    · subst hi
      rw [working, List.getElem?_set_self hlt] at hq
      cases hq
      exact ⟨r, hj, rfl, rfl, rfl, hover⟩
    · rw [working, List.getElem?_set_ne hi] at hq
      exact ⟨q, hq, rfl, rfl, rfl, id⟩
  model := fun _ _ hm => hm

theorem Table.working (ht : Table w) (hj : w.refits[j]? = some r)
    (hover : work ≠ .over → r.work ≠ .over)
    (hfitted : ∀ fit m, work = .fitted fit → fit.model = some m →
      m.requested = r.requested ∧ r.requested < m.read ∧ m.read ≤ w.now) :
    Table (working w j r work) := by
  have hfollows := follows_working hj hover
  refine ht.follow hfollows ?_ ?_
  · intro q hq fit m hwork hm
    rcases List.mem_or_eq_of_mem_set hq with hq | rfl
    · exact ht.fitted q hq fit m hwork hm
    · exact hfitted fit m hwork hm
  · intro q hq hlive
    obtain ⟨r0, hr0, huser, -, -, hlive0⟩ := hfollows.of_mem hq
    rw [← huser]
    exact ht.marked r0 hr0 (hlive0 hlive)

/-- Behind its end, no refit of the user is under way that one of these marks is for. -/
theorem Table.none_live (ht : Table w) (hj : w.refits[j]? = some r) (halone : Alone w r) :
    ∀ q ∈ (discarded w j r).refits, q.user = r.user → ¬ q.Live w := by
  intro q hq huser hlive
  obtain ⟨hlt, -⟩ := List.getElem?_eq_some_iff.mp hj
  obtain ⟨i, hi⟩ := List.mem_iff_getElem?.mp hq
  by_cases hij : j = i
  · subst hij
    rw [discarded, Refits.working, List.getElem?_set_self hlt] at hi
    cases hi
    exact hlive.1 rfl
  · rw [discarded, Refits.working, List.getElem?_set_ne hij] at hi
    rcases halone with halone | halone
    · exact hij (ht.single j i r q hj hi huser.symm halone hlive)
    · exact halone q (List.mem_of_getElem? hi) huser hlive

theorem follows_discarded (hj : w.refits[j]? = some r) : Follows w (discarded w j r) :=
  have h : Follows w (working w j r .over) := follows_working hj (fun h => absurd rfl h)
  { h with }

section

variable (ht : Table w)

include ht

/-- A refit is over, and its mark is gone. -/
theorem Table.discarded (hj : w.refits[j]? = some r) (halone : Alone w r) :
    Table (discarded w j r) := by
  have hfollows := follows_discarded hj
  refine ht.follow hfollows ?_ ?_
  · intro q hq fit m hwork hm
    rcases List.mem_or_eq_of_mem_set hq with hq | rfl
    · exact ht.fitted q hq fit m hwork hm
    · cases hwork
  · intro q hq hlive
    by_cases huser : q.user = r.user
    · exact absurd hlive (ht.none_live hj halone q hq huser)
    · obtain ⟨r0, hr0, hsame, -, -, hlive0⟩ := hfollows.of_mem hq
      show Function.update w.refitting r.user false q.user = true
      rw [Function.update_of_ne huser, ← hsame]
      exact ht.marked r0 hr0 (hlive0 hlive)

/-- The next step, whatever the calls do. -/
theorem Table.tick (calls : List Call) (returned : List Returned) :
    Table { w with now := w.next, calls, returned } := by
  have hnow : w.now ≤ w.next := Nat.le_succ _
  refine ht.follow ⟨hnow, rfl, rfl, fun _ q hq => ⟨q, hq, rfl, rfl, rfl, id⟩, fun _ _ hm => hm⟩
    ?_ ht.marked
  intro q hq fit m hwork hm
  obtain ⟨hrequested, hread, hle⟩ := ht.fitted q hq fit m hwork hm
  exact ⟨hrequested, hread, Nat.le_trans hle hnow⟩

/-- The fits change, and no model is new. -/
theorem Table.of_models {fits : Nat → Option PersonalFit}
    (h : ∀ user m, ({ w with fits } : World).model user = some m → w.model user = some m) :
    Table { w with fits } :=
  ht.follow ⟨Nat.le_refl _, rfl, rfl, fun _ q hq => ⟨q, hq, rfl, rfl, rfl, id⟩, h⟩ ht.fitted ht.marked

/-- A refit is requested where none of the user's is marked. -/
theorem Table.requested (hmark : w.refitting user = false) (calls : List Call) :
    Table { requested w user with now := w.next, calls } where
  forgets := fun f hf => Nat.le_succ_of_le (ht.forgets f hf)
  refits := fun r hr => by
    rcases List.mem_append.mp hr with hr | hr
    · obtain ⟨hnow, hle, hcurrent⟩ := ht.refits r hr
      exact ⟨Nat.le_succ_of_le hnow, hle, hcurrent⟩
    · obtain rfl := List.mem_singleton.mp hr
      exact ⟨Nat.le_refl _, Nat.le_refl _, fun _ f hf => Nat.lt_succ_of_le (ht.forgets f hf)⟩
  fitted := fun r hr fit m hwork hm => by
    rcases List.mem_append.mp hr with hr | hr
    · obtain ⟨hrequested, hread, hle⟩ := ht.fitted r hr fit m hwork hm
      exact ⟨hrequested, hread, Nat.le_succ_of_le hle⟩
    · obtain rfl := List.mem_singleton.mp hr
      cases hwork
  fresh := fun u m hm => by
    obtain ⟨hsince, hread, hle⟩ := ht.fresh u m hm
    exact ⟨hsince, hread, Nat.le_succ_of_le hle⟩
  marked := fun r hr hlive => by
    show Function.update w.refitting user true r.user = true
    by_cases huser : r.user = user
    · rw [huser, Function.update_self]
    · rw [Function.update_of_ne huser]
      rcases List.mem_append.mp hr with hr | hr
      · exact ht.marked r hr hlive
      · obtain rfl := List.mem_singleton.mp hr
        exact absurd rfl huser
  single := fun i j r q hi hj huser hr hq => by
    have hnone : ∀ r ∈ w.refits, r.user = user → ¬ r.Live w := fun r hr huser hlive => by
      rw [← huser, ht.marked r hr hlive] at hmark
      cases hmark
    rcases getElem?_concat_cases hi with hi | ⟨rfl, rfl⟩
    · rcases getElem?_concat_cases hj with hj | ⟨rfl, rfl⟩
      · exact ht.single i j r q hi hj huser hr hq
      · exact absurd hr (hnone r (List.mem_of_getElem? hi) huser)
    · rcases getElem?_concat_cases hj with hj | ⟨rfl, -⟩
      · exact absurd hq (hnone q (List.mem_of_getElem? hj) huser.symm)
      · rfl
  later := fun r hr hlive m hm => by
    rcases List.mem_append.mp hr with hr | hr
    · exact ht.later r hr hlive m hm
    · obtain rfl := List.mem_singleton.mp hr
      obtain ⟨-, hread, hle⟩ := ht.fresh _ m hm
      exact Nat.lt_of_lt_of_le hread (Nat.le_succ_of_le hle)

/-- A fit is stored where no refit of the user is under way. -/
theorem Table.stored {fit : PersonalFit} (hnone : ∀ q ∈ w.refits, q.user = user → ¬ q.Live w)
    (hfresh : ∀ m, fit.model = some m → w.Since user m.requested ∧ m.requested < m.read ∧
    m.read ≤ w.now) :
    Table { w with fits := Function.update w.fits user (some fit) } where
  __ := ht
  fresh := fun u m hm => by
    by_cases huser : u = user
    · subst huser
      rw [World.model_update_self] at hm
      exact hfresh m hm
    · rw [World.model_update_of_ne _ _ huser] at hm
      exact ht.fresh u m hm
  later := fun q hq hlive m hm => by
    have huser : q.user ≠ user := fun h => hnone q hq h hlive
    rw [World.model_update_of_ne _ _ huser] at hm
    exact ht.later q hq hlive m hm

/-- Of a refit that ends, the generation being its own or another one. -/
theorem Table.ended (hj : w.refits[j]? = some r) (halone : Alone w r) {fit : PersonalFit}
    (hfresh : r.generation = w.generation → ∀ m, fit.model = some m →
      w.Since r.user m.requested ∧ m.requested < m.read ∧ m.read ≤ w.now) :
    Table (Refits.stored (Refits.discarded w j r) r fit) := by
  have hdiscarded := ht.discarded hj halone
  rw [Refits.stored]
  split
  · rename_i hgeneration
    exact hdiscarded.stored (ht.none_live hj halone) (hfresh hgeneration)
  · exact hdiscarded

end

/-- No model of the user is left, and no mark. -/
theorem Table.forgotten (ht : Table w) (of : Option Nat) :
    Table { forgotten w of with now := w.next } := by
  have hsince : ∀ {u time}, ({ Refits.forgotten w of with now := w.next } : World).Since u time →
      w.Since u time := fun h f hf => h f (List.mem_cons_of_mem _ hf)
  have hold : ∀ {u m}, ({ Refits.forgotten w of with now := w.next } : World).model u = some m →
      w.model u = some m ∧ (Forget.mk of w.next).isOf u = false := by
    intro u m hm
    cases hof : (Forget.mk of w.next).isOf u with
    | true => simp [World.model, Refits.forgotten, hof] at hm
    | false =>
      refine ⟨?_, rfl⟩
      simpa [World.model, Refits.forgotten, hof] using hm
  refine ⟨?_, ?_, ?_, ?_, ?_, ?_, ?_⟩
  · intro f hf
    rcases List.mem_cons.mp hf with rfl | hf
    · exact Nat.le_refl _
    · exact Nat.le_succ_of_le (ht.forgets f hf)
  · intro r hr
    obtain ⟨hnow, hle, -⟩ := ht.refits r hr
    refine ⟨Nat.le_succ_of_le hnow, Nat.le_succ_of_le hle, fun heq => ?_⟩
    have hsame : r.generation = w.generation + 1 := heq
    omega
  · intro r hr fit m hwork hm
    obtain ⟨hrequested, hread, hle⟩ := ht.fitted r hr fit m hwork hm
    exact ⟨hrequested, hread, Nat.le_succ_of_le hle⟩
  · intro u m hm
    obtain ⟨hm, hof⟩ := hold hm
    obtain ⟨hbehind, hread, hle⟩ := ht.fresh u m hm
    refine ⟨fun f hf hisOf => ?_, hread, Nat.le_succ_of_le hle⟩
    rcases List.mem_cons.mp hf with rfl | hf
    · rw [hof] at hisOf
      cases hisOf
    · exact hbehind f hf hisOf
  · intro r hr hlive
    have hmark := ht.marked r hr ⟨hlive.1, hsince hlive.2⟩
    cases hof : (Forget.mk of w.next).isOf r.user with
    | true =>
      -- it was requested before this forget
      have hbehind : w.next < r.requested := hlive.2 _ List.mem_cons_self hof
      have hnow := (ht.refits r hr).1
      rw [World.next] at hbehind
      omega
    | false => simpa [Refits.forgotten, hof] using hmark
  · exact fun i j r q hi hj huser hr hq =>
      ht.single i j r q hi hj huser ⟨hr.1, hsince hr.2⟩ ⟨hq.1, hsince hq.2⟩
  · exact fun r hr hlive m hm => ht.later r hr ⟨hlive.1, hsince hlive.2⟩ m (hold hm).1

end Table

/-! ## 5. Every step -/

section Sound

variable {minimumRows : Nat} {w w' : World} {c : Call} {i j : Nat} {r : Refit} {move : CallMove}
    {stage : Stage}

/-- What a step of a call can do. -/
inductive CallMoved (minimumRows : Nat) (w : World) (c : Call) : CallMove → World → Stage → Prop
  | newest {id : Option Nat} (hstage : c.stage = .begun) :
      CallMoved minimumRows w c (.newest id) w (.asked id)
  | look {newest : Option Nat} {clock : Nat} (hstage : c.stage = .asked newest) :
      CallMoved minimumRows w c (.look clock)
        { w with fits := Function.update w.fits c.user (w.scored c.user) }
        (looked minimumRows (w.scored c.user) newest clock)
  | enough {fit : Option PersonalFit} {newest : Option Nat} {rows : Nat}
      (hstage : c.stage = .counting fit newest) :
      CallMoved minimumRows w c (.count rows) w (.requesting fit)
  | few {fit : Option PersonalFit} {newest : Option Nat} {rows : Nat}
      (hstage : c.stage = .counting fit newest) :
      CallMoved minimumRows w c (.count rows) w (.noting fit newest rows)
  | note {fit : Option PersonalFit} {newest : Option Nat} {rows clock : Nat}
      (hstage : c.stage = .noting fit newest rows) :
      CallMoved minimumRows w c (.note clock) (noted w c.user newest rows clock) (.returning fit)
  | marked {fit : Option PersonalFit} (hstage : c.stage = .requesting fit) :
      CallMoved minimumRows w c .request w (.returning fit)
  | request {fit : Option PersonalFit} (hstage : c.stage = .requesting fit)
      (hmark : w.refitting c.user = false) :
      CallMoved minimumRows w c .request (requested w c.user) (.starting fit w.refits.length)
  | start {fit : Option PersonalFit} {j : Nat} {r : Refit} (hstage : c.stage = .starting fit j)
      (hj : w.refits[j]? = some r) (hwork : r.work = .waiting) :
      CallMoved minimumRows w c .start (working w j r .running) (.returning fit)
  | refuse {fit : Option PersonalFit} {j : Nat} {r : Refit} (hstage : c.stage = .starting fit j)
      (hj : w.refits[j]? = some r) (hwork : r.work = .waiting) :
      CallMoved minimumRows w c .refuse (discarded w j r) (.returning fit)
  | finish {fit : Option PersonalFit} (hstage : c.stage = .returning fit) :
      CallMoved minimumRows w c .finish
        { w with returned := ⟨c.user, c.started, fit.bind PersonalFit.model⟩ :: w.returned } .over
  | raise : CallMoved minimumRows w c .raise w .over

theorem callMoved (h : callStep minimumRows w c move = some (w', stage)) :
    CallMoved minimumRows w c move w' stage := by
  cases move with
  | newest id =>
    simp only [callStep] at h
    split at h
    · rename_i hstage
      cases h
      exact .newest hstage
    · cases h
  | look clock =>
    simp only [callStep] at h
    split at h
    · rename_i hstage
      cases h
      exact .look hstage
    · cases h
  | count rows =>
    simp only [callStep] at h
    split at h
    · rename_i hstage
      split at h
      · cases h
        exact .enough hstage
      · cases h
        exact .few hstage
    · cases h
  | note clock =>
    simp only [callStep] at h
    split at h
    · rename_i hstage
      cases h
      exact .note hstage
    · cases h
  | request =>
    simp only [callStep] at h
    split at h
    · rename_i hstage
      cases hmark : w.refitting c.user with
      | true =>
        rw [hmark, if_pos rfl] at h
        cases h
        exact .marked hstage
      | false =>
        rw [hmark, if_neg Bool.false_ne_true] at h
        cases h
        exact .request hstage hmark
    · cases h
  | start =>
    simp only [callStep] at h
    split at h
    · rename_i hstage
      obtain ⟨r, hj, h⟩ := Option.bind_eq_some_iff.mp h
      obtain ⟨hwork, h⟩ := Option.ite_none_right_eq_some.mp h
      cases h
      exact .start hstage hj hwork
    · cases h
  | refuse =>
    simp only [callStep] at h
    split at h
    · rename_i hstage
      obtain ⟨r, hj, h⟩ := Option.bind_eq_some_iff.mp h
      obtain ⟨hwork, h⟩ := Option.ite_none_right_eq_some.mp h
      cases h
      exact .refuse hstage hj hwork
    · cases h
  | finish =>
    simp only [callStep] at h
    split at h
    · rename_i hstage
      cases h
      exact .finish hstage
    · cases h
  | raise =>
    simp only [callStep] at h
    split at h
    · cases h
      exact .raise
    · cases h
      exact .raise
    · cases h
      exact .raise
    · cases h

/-- What a step of a refit can do. -/
inductive RefitMoved (minimumRows : Nat) (w : World) (j : Nat) (r : Refit) : RefitMove → World → Prop
  | fit {newest : Option Nat} {rows clock : Nat} (hwork : r.work = .running) :
      RefitMoved minimumRows w j r (.fit newest rows clock) (working w j r (.fitted
        ⟨if minimumRows ≤ rows then some ⟨r.requested, w.next⟩ else none, newest, rows, clock, 0⟩))
  | raise (hwork : r.work = .running) : RefitMoved minimumRows w j r .raise (working w j r .broken)
  | fitted {fit : PersonalFit} {clock : Nat} (hwork : r.work = .fitted fit) :
      RefitMoved minimumRows w j r (.finish clock) (stored (discarded w j r) r fit)
  | broken {clock : Nat} (hwork : r.work = .broken) :
      RefitMoved minimumRows w j r (.finish clock)
        (stored (discarded w j r) r (postponed (w.fits r.user) clock))

theorem refitMoved {move : RefitMove} (h : refitStep minimumRows w j r move = some w') :
    RefitMoved minimumRows w j r move w' := by
  cases move with
  | fit newest rows clock =>
    obtain ⟨hwork, h⟩ := Option.ite_none_right_eq_some.mp h
    cases h
    exact .fit hwork
  | raise =>
    obtain ⟨hwork, h⟩ := Option.ite_none_right_eq_some.mp h
    cases h
    exact .raise hwork
  | finish clock =>
    simp only [refitStep] at h
    split at h
    · rename_i hwork
      cases h
      exact .fitted hwork
    · rename_i hwork
      cases h
      exact .broken hwork
    · cases h

theorem model_scored (w : World) (user : Nat) :
    (w.scored user).bind PersonalFit.model = w.model user := by
  rw [World.scored, World.model]
  cases w.fits user <;> rfl

/-- To look a fit up leaves every model. -/
theorem model_look (w : World) (user u : Nat) :
    ({ w with fits := Function.update w.fits user (w.scored user) } : World).model u = w.model u := by
  by_cases hu : u = user
  · rw [hu, World.model_update_self, model_scored]
  · rw [World.model_update_of_ne _ _ hu]

theorem model_noted {user u rows clock : Nat} {newest : Option Nat} {m : Model}
    (h : (noted w user newest rows clock).model u = some m) : w.model u = some m := by
  rw [noted] at h
  by_cases hu : u = user
  · rw [hu, World.model_update_self] at h
    cases h
  · rwa [World.model_update_of_ne _ _ hu] at h

theorem model_postponed (w : World) (user clock : Nat) :
    (postponed (w.fits user) clock).model = w.model user := by
  rw [postponed, World.model]
  cases w.fits user <;> rfl

theorem stored_tick (w : World) (r : Refit) (fit : PersonalFit) (now : Nat) :
    { stored w r fit with now } = stored { w with now } r fit := by
  rw [stored, stored]
  split <;> rfl

/-- The table, behind a step of a call. -/
theorem Table.ofCall (ht : Table w) (hi : w.calls[i]? = some c)
    (hmoved : CallMoved minimumRows w c move w' stage)
    (hin : Undisturbed w (.ofCall i move)) (calls : List Call) :
    Table { w' with now := w.next, calls } := by
  have htick := ht.tick calls w.returned
  cases hmoved with
  | newest | enough | few | marked | raise => exact htick
  | look => exact htick.of_models fun u m hm => (model_look w c.user u) ▸ hm
  | note => exact htick.of_models fun u m hm => model_noted (w := w) hm
  | request hstage hmark => exact ht.requested hmark calls
  | start hstage hj hwork =>
    exact htick.working hj (fun _ => by rw [hwork]; exact nofun) fun _ _ h => nomatch h
  | refuse hstage hj hwork =>
    refine htick.discarded hj (hin c hi _ ?_)
    rw [hstage]
    exact hj
  | finish => exact ht.tick calls _

/-- The table, behind a step of a refit. -/
theorem Table.ofRefit {move : RefitMove} (ht : Table w) (hj : w.refits[j]? = some r)
    (hmoved : RefitMoved minimumRows w j r move w') (hin : Undisturbed w (.ofRefit j move)) :
    Table { w' with now := w.next } := by
  have htick := ht.tick w.calls w.returned
  have hr := List.mem_of_getElem? hj
  cases hmoved with
  | fit hwork =>
    refine htick.working hj (fun _ => by rw [hwork]; exact nofun) fun fit m heq hm => ?_
    cases heq
    simp only at hm
    split at hm
    · cases hm
      exact ⟨rfl, Nat.lt_succ_of_le (ht.refits r hr).1, Nat.le_refl _⟩
    · cases hm
  | raise hwork =>
    exact htick.working hj (fun _ => by rw [hwork]; exact nofun) fun _ _ h => nomatch h
  | fitted hwork =>
    rw [stored_tick]
    refine htick.ended hj (hin r hj) fun hgeneration m hm => ?_
    obtain ⟨hrequested, hread, hle⟩ := ht.fitted r hr _ m hwork hm
    refine ⟨fun f hf _ => ?_, hrequested ▸ hread, Nat.le_succ_of_le hle⟩
    rw [hrequested]
    exact (ht.refits r hr).2.2 hgeneration f hf
  | broken hwork =>
    rw [stored_tick]
    refine htick.ended hj (hin r hj) fun _ m hm => ?_
    rw [model_postponed] at hm
    exact htick.fresh r.user m hm

/-- What a table holds was read behind every forget. -/
theorem Table.unseen (ht : Table w) (user started : Nat) : Unseen w user started (w.model user) := by
  intro m hm f hf hof _
  obtain ⟨hsince, hread, -⟩ := ht.fresh user m hm
  exact Nat.lt_trans (hsince f hf hof) hread

theorem Unseen.none (user started : Nat) : Unseen w user started none := fun _ h => nomatch h

theorem Seen.follow (hs : Seen w) (hnow : w.now ≤ w'.now) (hforgets : w'.forgets = w.forgets)
    (hcalls : ∀ c ∈ w'.calls, c ∈ w.calls ∨
      (c.started ≤ w'.now ∧ Unseen w c.user c.started (c.stage.fit.bind PersonalFit.model)))
    (hreturned : ∀ x ∈ w'.returned, x ∈ w.returned ∨
      (x.started ≤ w'.now ∧ Unseen w x.user x.started x.model)) : Seen w' := by
  have hunseen : ∀ {user started model}, Unseen w user started model → Unseen w' user started model :=
    fun h m hm f hf => h m hm f (hforgets ▸ hf)
  refine ⟨fun c hc => ?_, fun x hx => ?_⟩
  · rcases hcalls c hc with hc | ⟨hstarted, h⟩
    · obtain ⟨hstarted, h⟩ := hs.calls c hc
      exact ⟨Nat.le_trans hstarted hnow, hunseen h⟩
    · exact ⟨hstarted, hunseen h⟩
  · rcases hreturned x hx with hx | ⟨hstarted, h⟩
    · obtain ⟨hstarted, h⟩ := hs.returned x hx
      exact ⟨Nat.le_trans hstarted hnow, hunseen h⟩
    · exact ⟨hstarted, hunseen h⟩

/-- What a call holds, behind its step. -/
theorem CallMoved.fit (h : CallMoved minimumRows w c move w' stage) :
    stage.fit.bind PersonalFit.model = none ∨
      stage.fit.bind PersonalFit.model = c.stage.fit.bind PersonalFit.model ∨
      stage.fit.bind PersonalFit.model = w.model c.user := by
  cases h with
  | newest | raise | finish => exact .inl rfl
  | look hstage =>
    rw [looked]
    split
    · split <;> exact .inr (.inr (model_scored w c.user))
    · exact .inr (.inr (model_scored w c.user))
  | enough hstage | few hstage | note hstage | marked hstage | request hstage _ | start hstage _ _
  | refuse hstage _ _ =>
    rw [hstage]
    exact .inr (.inl rfl)

/-- What a step of a call leaves. -/
theorem CallMoved.frame (h : CallMoved minimumRows w c move w' stage) : w'.forgets = w.forgets ∧
    ∀ x ∈ w'.returned, x ∈ w.returned ∨
      x = ⟨c.user, c.started, c.stage.fit.bind PersonalFit.model⟩ := by
  cases h with
  | newest | enough | few | marked | raise | look | note | request | start | refuse =>
    exact ⟨rfl, fun _ hx => .inl hx⟩
  | finish hstage =>
    refine ⟨rfl, fun x hx => ?_⟩
    rw [hstage]
    exact (List.mem_cons.mp hx).symm

theorem RefitMoved.frame {move : RefitMove} (h : RefitMoved minimumRows w j r move w') :
    w'.forgets = w.forgets ∧ w'.calls = w.calls ∧ w'.returned = w.returned := by
  have hstored : ∀ fit, (stored (discarded w j r) r fit).forgets = w.forgets ∧
      (stored (discarded w j r) r fit).calls = w.calls ∧
      (stored (discarded w j r) r fit).returned = w.returned := by
    intro fit
    rw [stored]
    split <;> exact ⟨rfl, rfl, rfl⟩
  cases h with
  | fit | raise => exact ⟨rfl, rfl, rfl⟩
  | fitted | broken => exact hstored _

theorem Sound.ofCall (hs : Sound w) (hi : w.calls[i]? = some c)
    (hmoved : CallMoved minimumRows w c move w' stage) (hin : Undisturbed w (.ofCall i move)) :
    Sound { w' with now := w.next, calls := w.calls.set i { c with stage } } := by
  refine ⟨hs.table.ofCall hi hmoved hin _, ?_⟩
  obtain ⟨hforgets, hreturned⟩ := hmoved.frame
  have hnow : w.now ≤ w.next := Nat.le_succ _
  obtain ⟨hstarted, hheld⟩ := hs.seen.calls c (List.mem_of_getElem? hi)
  refine hs.seen.follow hnow hforgets (fun d hd => ?_) fun x hx => ?_
  · rcases List.mem_or_eq_of_mem_set hd with hd | rfl
    · exact .inl hd
    · refine .inr ⟨Nat.le_trans hstarted hnow, ?_⟩
      rcases hmoved.fit with h | h | h
      · exact h ▸ Unseen.none _ _
      · exact h ▸ hheld
      · exact h ▸ hs.table.unseen _ _
  · rcases hreturned x hx with hx | rfl
    · exact .inl hx
    · exact .inr ⟨Nat.le_trans hstarted hnow, hheld⟩

/-- A later forget asks nothing of a call that has begun. -/
theorem Unseen.forgotten {user started : Nat} {model : Option Model} (h : Unseen w user started model)
    (hstarted : started ≤ w.now) (of : Option Nat) :
    Unseen { forgotten w of with now := w.next } user started model := by
  intro m hm f hf hof hbefore
  rcases List.mem_cons.mp hf with rfl | hf
  · have hbefore : w.now + 1 < started := hbefore
    omega
  · exact h m hm f hf hof hbefore

theorem step_sound {a : Action} (hs : Sound w) (hin : Undisturbed w a)
    (hstep : step minimumRows w a = some w') : Sound w' := by
  have hnow : w.now ≤ w.next := Nat.le_succ _
  have hbegin : ∀ user stage, stage.fit = none →
      Sound { w with now := w.next, calls := w.calls ++ [⟨user, w.next, stage⟩] } := by
    intro user stage hfit
    refine ⟨hs.table.tick _ w.returned, hs.seen.follow hnow rfl (fun d hd => ?_) fun x hx => .inl hx⟩
    rcases List.mem_append.mp hd with hd | hd
    · exact .inl hd
    · obtain rfl := List.mem_singleton.mp hd
      rw [hfit]
      exact .inr ⟨Nat.le_refl _, Unseen.none _ _⟩
  cases a with
  | call user =>
    cases hstep
    exact hbegin user .begun rfl
  | ask user =>
    cases hstep
    exact hbegin user (.requesting none) rfl
  | forget of =>
    cases hstep
    refine ⟨hs.table.forgotten of, fun c hc => ?_, fun x hx => ?_⟩
    · obtain ⟨hstarted, h⟩ := hs.seen.calls c hc
      exact ⟨Nat.le_succ_of_le hstarted, h.forgotten hstarted of⟩
    · obtain ⟨hstarted, h⟩ := hs.seen.returned x hx
      exact ⟨Nat.le_succ_of_le hstarted, h.forgotten hstarted of⟩
  | ofCall i move =>
    obtain ⟨c, hc, hstep⟩ := Option.bind_eq_some_iff.mp hstep
    obtain ⟨⟨v, stage⟩, hmoved, rfl⟩ := Option.map_eq_some_iff.mp hstep
    exact hs.ofCall hc (callMoved hmoved) hin
  | ofRefit j move =>
    obtain ⟨r, hr, hstep⟩ := Option.bind_eq_some_iff.mp hstep
    obtain ⟨v, hmoved, rfl⟩ := Option.map_eq_some_iff.mp hstep
    have hmoved := refitMoved hmoved
    obtain ⟨hforgets, hcalls, hreturned⟩ := hmoved.frame
    exact ⟨hs.table.ofRefit hr hmoved hin, hs.seen.follow hnow hforgets
      (fun c hc => .inl (hcalls ▸ hc)) fun x hx => .inl (hreturned ▸ hx)⟩

/-! ## 6. What becomes of a model -/

theorem CallMoved.model {user : Nat} {m : Model} (h : CallMoved minimumRows w c move w' stage)
    (hi : w.calls[i]? = some c) (hin : Undisturbed w (.ofCall i move)) (hm : w.model user = some m) :
    w'.model user = some m := by
  cases h with
  | newest | enough | few | marked | raise | request | start | refuse | finish => exact hm
  | look => exact (model_look w c.user user).trans hm
  | note =>
    have huser : user ≠ c.user := by
      rintro rfl
      rw [hin c hi] at hm
      cases hm
    rw [noted, World.model_update_of_ne _ _ huser]
    exact hm

theorem model_stored {user : Nat} {fit : PersonalFit} {m : Model} (hm : w.model user = some m) :
    (stored w r fit).model user = some m ∨
      (r.user = user ∧ r.generation = w.generation ∧ (stored w r fit).fits user = some fit) := by
  rw [stored]
  split
  · rename_i hgeneration
    by_cases huser : user = r.user
    · refine .inr ⟨huser.symm, hgeneration, ?_⟩
      rw [huser]
      exact Function.update_self _ _ _
    · rw [World.model_update_of_ne _ _ huser]
      exact .inl hm
  · exact .inl hm

theorem RefitMoved.model {move : RefitMove} {user : Nat} {m : Model} (hs : Sound w)
    (h : RefitMoved minimumRows w j r move w') (hj : w.refits[j]? = some r)
    (hm : w.model user = some m) :
    w'.model user = some m ∨ ∃ clock fit, move = .finish clock ∧ r.user = user ∧ r.work = .fitted fit ∧
      m.requested < r.requested ∧ w'.fits user = some fit := by
  have hr := List.mem_of_getElem? hj
  cases h with
  | fit | raise => exact .inl hm
  | @fitted fit clock hwork =>
    rcases @model_stored (discarded w j r) r user fit m hm with hsame | ⟨huser, hgeneration, hfit⟩
    · exact .inl hsame
    · refine .inr ⟨clock, fit, rfl, huser, hwork, ?_, hfit⟩
      have hlive : r.Live w := ⟨by rw [hwork]; exact nofun, fun f hf _ =>
        (hs.table.refits r hr).2.2 hgeneration f hf⟩
      exact hs.table.later r hr hlive m (huser ▸ hm)
  | @broken clock hwork =>
    rcases @model_stored (discarded w j r) r user (postponed (w.fits r.user) clock) m hm with
      hsame | ⟨huser, -, hfit⟩
    · exact .inl hsame
    · refine .inl ?_
      show ((stored (discarded w j r) r (postponed (w.fits r.user) clock)).fits user).bind _ = _
      rw [hfit, Option.bind_some, model_postponed, huser, hm]

theorem step_replaced {a : Action} (hs : Sound w) (hin : Undisturbed w a)
    (hstep : step minimumRows w a = some w') : Replaced w a w' := by
  intro user m hm
  cases a with
  | call _ | ask _ =>
    cases hstep
    exact .inl hm
  | forget of =>
    cases hstep
    cases hof : (Forget.mk of w.next).isOf user with
    | true => exact .inr (.inl ⟨of, rfl, hof, by simp [forgotten, hof]⟩)
    | false =>
      refine .inl ?_
      simpa [World.model, forgotten, hof] using hm
  | ofCall i move =>
    obtain ⟨c, hc, hstep⟩ := Option.bind_eq_some_iff.mp hstep
    obtain ⟨⟨v, stage⟩, hmoved, rfl⟩ := Option.map_eq_some_iff.mp hstep
    exact .inl ((callMoved hmoved).model hc hin hm)
  | ofRefit j move =>
    obtain ⟨r, hr, hstep⟩ := Option.bind_eq_some_iff.mp hstep
    obtain ⟨v, hmoved, rfl⟩ := Option.map_eq_some_iff.mp hstep
    rcases (refitMoved hmoved).model hs hr hm with h | ⟨clock, fit, rfl, huser, hwork, hlater, hfit⟩
    · exact .inl h
    · exact .inr (.inr ⟨j, clock, r, fit, rfl, hr, huser, hwork, hlater, hfit⟩)

/-! ## 7. Runs -/

theorem Sound.kept (hs : Sound w) : w.Kept where
  returned := fun x hx => (hs.seen.returned x hx).2
  single := hs.table.single

/-- **Forgetting and refitting**, in every run that meets the condition: a call that began behind a
    forget returns no model of rows read before it, of the refits requested since a user's last forget
    one is under way, and a model stays, is forgotten, or is replaced by a refit that was requested
    later. -/
theorem refits_kept {minimumRows : Nat} {as : List Action} {w : World}
    (hrun : run (step minimumRows) {} as = some w)
    (hin : Along (step minimumRows) Undisturbed {} as) :
    w.Kept ∧ ∀ a w', step minimumRows w a = some w' → Undisturbed w a → Replaced w a w' := by
  have hs : Sound w :=
    run_invariant_along (fun _ _ _ hstep hin hs => step_sound hs hin hstep) hrun hin sound_start
  exact ⟨hs.kept, fun a w' hstep hin => step_replaced hs hin hstep⟩

end Sound

section Examples

/-- A call that finds enough rows, and has them fitted. -/
def fittedBy (i j rows : Nat) : List Action :=
  [.ofCall i (.newest (some 1)), .ofCall i (.look 0), .ofCall i (.count rows), .ofCall i .request,
    .ofCall i .start, .ofCall i .finish, .ofRefit j (.fit (some 1) rows 0), .ofRefit j (.finish 0)]

/-- A model is fitted, forgotten while it is fitted anew, and fitted again. -/
def forgottenBetween : List Action :=
  .call 7 :: fittedBy 0 0 60 ++ [.call 7, .ofCall 1 (.newest (some 2)), .ofCall 1 (.look 900),
    .ofCall 1 .request, .ofCall 1 .start, .ofCall 1 .finish, .ofRefit 1 (.fit (some 2) 61 900),
    .forget (some 7), .ofRefit 1 (.finish 901), .call 7] ++ fittedBy 2 2 61

theorem refits_kept_forgottenBetween : ∃ w, run (step 50) {} forgottenBetween = some w ∧
    w.model 7 = some ⟨23, 26⟩ ∧ w.Kept := by
  have hrun : (run (step 50) {} forgottenBetween).map (fun w => w.model 7) = some (some ⟨23, 26⟩) := by
    decide +kernel
  obtain ⟨w, hw, hmodel⟩ := Option.map_eq_some_iff.mp hrun
  exact ⟨w, hw, hmodel, (refits_kept hw (by decide +kernel)).1⟩

/-- The refit from before the forget takes the mark of the one from behind it. -/
def markLost : List Action :=
  [.ask 7, .ofCall 0 .request, .ofCall 0 .start, .forget (some 7),
    .ask 7, .ofCall 1 .request, .ofCall 1 .start, .ofRefit 0 (.fit (some 1) 60 0),
    .ofRefit 0 (.finish 0),
    .ask 7, .ofCall 2 .request, .ofCall 2 .start]

/-- A call that counted too few rows, and then one that finds enough of them. -/
def countedBefore : List Action :=
  [.call 7, .ofCall 0 (.newest (some 1)), .ofCall 0 (.look 0), .ofCall 0 (.count 49), .call 7] ++
    fittedBy 1 0 50

/-- **Two refits at once, and a model that is lost**. -/
theorem refits_disturbed :
    (∃ w, run (step 50) {} markLost = some w ∧ ¬ w.Kept) ∧
    ∃ w w', run (step 50) {} countedBefore = some w ∧ step 50 w (.ofCall 0 (.note 0)) = some w' ∧
      ¬ Replaced w (.ofCall 0 (.note 0)) w' := by
  constructor
  · have hrun : (run (step 50) {} markLost).map (fun w => (w.refits, w.forgets)) =
        some ([⟨7, 0, 2, .over⟩, ⟨7, 1, 6, .running⟩, ⟨7, 1, 11, .running⟩], [⟨some 7, 4⟩]) := by
      decide +kernel
    obtain ⟨w, hw, heq⟩ := Option.map_eq_some_iff.mp hrun
    obtain ⟨hrefits, hforgets⟩ := Prod.mk.inj heq
    refine ⟨w, hw, fun hkept => ?_⟩
    have hlive : ∀ requested, 4 < requested → (Refit.mk 7 1 requested .running).Live w := by
      refine fun requested hlt => ⟨nofun, fun f hf _ => ?_⟩
      rw [hforgets] at hf
      rw [List.mem_singleton.mp hf]
      exact hlt
    have hone := hkept.single 1 2 ⟨7, 1, 6, .running⟩ ⟨7, 1, 11, .running⟩ (by rw [hrefits]; rfl)
      (by rw [hrefits]; rfl) rfl (hlive 6 (by decide)) (hlive 11 (by decide))
    cases hone
  · have hrun : ((run (step 50) {} countedBefore).bind fun w =>
        (step 50 w (.ofCall 0 (.note 0))).map fun w' => (w.model 7, w'.model 7)) =
        some (some ⟨9, 12⟩, none) := by decide +kernel
    obtain ⟨w, hw, hstep⟩ := Option.bind_eq_some_iff.mp hrun
    obtain ⟨w', hw', heq⟩ := Option.map_eq_some_iff.mp hstep
    obtain ⟨hmodel, hgone⟩ := Prod.mk.inj heq
    refine ⟨w, w', hw, hw', fun hreplaced => ?_⟩
    rcases hreplaced 7 _ hmodel with h | ⟨of, h, -⟩ | ⟨j, clock, r, fit, h, -⟩
    · rw [hgone] at h
      cases h
    · cases h
    · cases h

end Examples

end Dbs.Refits

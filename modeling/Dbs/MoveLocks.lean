/-
  File:      Dbs/MoveLocks.lean
  Subject:   THE SERVER LOCKS OF A MOVE (relocation/locks.py, `ServerMoveLock`): `acquire` takes the
             lock of every server of the move, or gives back those that it took.

  Any number of moves, each with servers of its own choice, one cache call of one move at a time; a move
  may die at any point, and an entry expires once its move no longer runs.

  * `Stage` -- where a move is in `acquire` and `release`;
  * `Stage.Fits` -- what is the move's own in the cache there; `step_fits` -- every step keeps it;
  * `Lasting` -- no entry expires while its move runs;
  * `moves_all_or_nothing` -- then `acquire` leaves all of the locks with the move or none of them,
    every release removes locks of its own move only, and no two moves hold one server.
-/
import Dbs.Locks

namespace Dbs.MoveLocks

open Caching Locks

/-! ## 1. Moves -/

/-- Where a move is: in front of which call, and what is left of the loop that it is in. -/
inductive Stage (κ : Type)
  | fresh
  /-- In `acquire`, in front of `cache.add` for the first server of `todo`. -/
  | taking (servers taken todo : List κ)
  /-- `acquire` has returned `True`. -/
  | holding (servers : List κ)
  /-- `acquire` has returned `False`. -/
  | refused
  /-- In `release`, in front of `cache.get` for the first server of `todo`. -/
  | releasing (rollingBack : Bool) (todo : List κ)
  /-- In `release`, which has found the move to be the holder: in front of `cache.delete`. -/
  | deleting (rollingBack : Bool) (server : κ) (todo : List κ)
  | released
  /-- Its process is gone. -/
  | dead
deriving DecidableEq

/-- No call is under way that the move would come back from. -/
def Stage.AtRest {κ : Type} : Stage κ → Prop
  | .fresh | .holding _ | .refused | .released => True
  | .taking _ _ _ | .releasing _ _ | .deleting _ _ _ | .dead => False

/-- The move has called `acquire`, and its `release` has not returned. -/
def Stage.Running {κ : Type} : Stage κ → Prop
  | .taking _ _ _ | .holding _ | .releasing _ _ | .deleting _ _ _ => True
  | .fresh | .refused | .released | .dead => False

instance {κ : Type} : DecidablePred (Stage.AtRest (κ := κ)) := fun s => by
  cases s <;> first | exact isTrue trivial | exact isFalse id

instance {κ : Type} : DecidablePred (Stage.Running (κ := κ)) := fun s => by
  cases s <;> first | exact isTrue trivial | exact isFalse id

variable {κ Job : Type} [DecidableEq κ] [DecidableEq Job]

/-- `removed`: the locks that releases of moves deleted. -/
structure World (κ Job : Type) where
  cache : Cache κ Job
  stage : Job → Stage κ
  removed : List (Removed κ Job)

inductive Action (κ Job : Type)
  | acquire (job : Job) (servers : List κ)
  | release (job : Job) (servers : List κ)
  /-- The next cache call of the move; `written`: the database took the row that `cache.add` writes. -/
  | advance (job : Job) (written : Bool)
  | die (job : Job)
  /-- The entry's time is over. -/
  | expire (server : κ)

namespace World

def empty : World κ Job := ⟨.empty, fun _ => .fresh, []⟩

variable (w : World κ Job) (job : Job)

def goOn (s : Stage κ) : World κ Job := { w with stage := Function.update w.stage job s }

def took (key : κ) : World κ Job := { w with cache := w.cache.set key job }

def deleted (key : κ) : World κ Job :=
  { w with cache := w.cache.remove key,
           removed := (standing w.cache key).toList.map (⟨·, job⟩) ++ w.removed }

/-- `cache.add` for the first server, or the return of `True`. -/
def take (written : Bool) (servers taken : List κ) : List κ → World κ Job
  | [] => w.goOn job (.holding servers)
  | key :: todo =>
    if w.cache.entries key = none ∧ written = true then
      (w.took job key).goOn job (.taking servers (taken ++ [key]) todo)
    else w.goOn job (.releasing true taken)

/-- `self.holder(server_id) == str(job_id)` for the first server, or the return. -/
def look (rollingBack : Bool) : List κ → World κ Job
  | [] => w.goOn job (if rollingBack then .refused else .released)
  | key :: todo =>
    if holder w.cache key = some job then w.goOn job (.deleting rollingBack key todo)
    else w.goOn job (.releasing rollingBack todo)

def advance (written : Bool) : Option (World κ Job) :=
  match w.stage job with
  | .taking servers taken todo => some (w.take job written servers taken todo)
  | .releasing rollingBack todo => some (w.look job rollingBack todo)
  | .deleting rollingBack key todo =>
    some ((w.deleted job key).goOn job (.releasing rollingBack todo))
  | .fresh | .holding _ | .refused | .released | .dead => none

end World

/-- One statement on the cache. -/
def step (w : World κ Job) : Action κ Job → Option (World κ Job)
  | .acquire job servers =>
    if w.stage job = .fresh then some (w.goOn job (.taking servers [] servers)) else none
  | .release job servers =>
    if (w.stage job).AtRest then some (w.goOn job (.releasing false servers)) else none
  | .advance job written => w.advance job written
  | .die job => some (w.goOn job .dead)
  | .expire key => some { w with cache := w.cache.remove key }

/-- No entry expires while its move runs. -/
def Lasting (w : World κ Job) : Action κ Job → Prop
  | .expire key => ∀ job ∈ holder w.cache key, ¬(w.stage job).Running
  | .acquire _ _ | .release _ _ | .advance _ _ | .die _ => True

instance (w : World κ Job) : ∀ a, Decidable (Lasting w a)
  | .expire key => inferInstanceAs (Decidable (∀ job ∈ holder w.cache key, ¬(w.stage job).Running))
  | .acquire _ _ | .release _ _ | .advance _ _ | .die _ => inferInstanceAs (Decidable True)

/-! ## 2. What is a move's own -/

/-- The entry under the server's key is that move's. -/
def World.Owns (w : World κ Job) (job : Job) (key : κ) : Prop := holder w.cache key = some job

section Entries

variable {w : World κ Job} {job other : Job} {key k : κ}

omit [DecidableEq κ] in
@[simp] theorem stage_goOn_self {s : Stage κ} : (w.goOn job s).stage job = s :=
  Function.update_self ..

omit [DecidableEq Job] in
theorem owns_took_self : (w.took job key).Owns other key ↔ job = other := by
  rw [World.Owns, World.took, holder, Cache.set_self, Option.map_some, Option.some_inj]

omit [DecidableEq Job] in
theorem owns_took_of_ne (h : k ≠ key) : (w.took job key).Owns other k ↔ w.Owns other k := by
  rw [World.Owns, World.Owns, World.took, holder, holder, Cache.set_of_ne h]

omit [DecidableEq Job] in
theorem not_owns_remove_self :
    ¬({ w with cache := w.cache.remove key } : World κ Job).Owns other key := by
  rw [World.Owns, holder, Cache.remove_self, Option.map_none]
  exact Option.some_ne_none other ∘ Eq.symm

omit [DecidableEq Job] in
theorem owns_remove_of_ne (h : k ≠ key) :
    ({ w with cache := w.cache.remove key } : World κ Job).Owns other k ↔ w.Owns other k := by
  rw [World.Owns, World.Owns, holder, holder, Cache.remove_of_ne h]

omit [DecidableEq κ] [DecidableEq Job] in
theorem not_owns_of_none (h : w.cache.entries key = none) : ¬w.Owns other key := by
  rw [World.Owns, holder, h, Option.map_none]
  exact Option.some_ne_none other ∘ Eq.symm

omit [DecidableEq κ] [DecidableEq Job] in
theorem owns_unique (h : w.Owns job key) (ho : w.Owns other key) : job = other :=
  Option.some.inj (h.symm.trans ho)

end Entries

/-- What is the move's own in the cache, at each stage. -/
def Stage.Fits (owned : κ → Prop) : Stage κ → Prop
  | .fresh | .refused => ∀ k, ¬owned k
  | .taking servers taken todo => servers = taken ++ todo ∧ ∀ k, owned k ↔ k ∈ taken
  | .holding servers => ∀ k, owned k ↔ k ∈ servers
  | .releasing rollingBack todo => rollingBack = true → ∀ k, owned k → k ∈ todo
  | .deleting rollingBack key todo =>
    owned key ∧ (rollingBack = true → ∀ k, owned k → k ∈ key :: todo)
  | .released | .dead => True

omit [DecidableEq κ] in
/-- A running move's entries are as they were, and another's are none that were not. -/
theorem Stage.Fits.congr {s : Stage κ} {owned owned' : κ → Prop} (h : s.Fits owned)
    (hsame : s.Running → ∀ k, owned' k ↔ owned k) (hless : ∀ k, owned' k → owned k) :
    s.Fits owned' := by
  cases s with
  | fresh => exact fun k hk => h k (hless k hk)
  | taking servers taken todo =>
    exact ⟨h.1, fun k => (hsame trivial k).trans (h.2 k)⟩
  | holding servers => exact fun k => (hsame trivial k).trans (h k)
  | refused => exact fun k hk => h k (hless k hk)
  | releasing rollingBack todo => exact fun hback k hk => h hback k (hless k hk)
  | deleting rollingBack key todo =>
    exact ⟨(hsame trivial key).mpr h.1, fun hback k hk => h.2 hback k (hless k hk)⟩
  | released | dead => trivial

/-! ## 3. What a step can do -/

section Steps

variable {w w' : World κ Job} {a : Action κ Job} {job other : Job}

/-- What is the other move's own is what was. -/
def Spares (w w' : World κ Job) (other : Job) : Prop :=
  w'.stage other = w.stage other ∧ ∀ k, w'.Owns other k ↔ w.Owns other k

omit [DecidableEq κ] in
theorem spares_goOn {s : Stage κ} (h : other ≠ job) : Spares w (w.goOn job s) other :=
  ⟨Function.update_of_ne h .., fun _ => Iff.rfl⟩

omit [DecidableEq Job] in
theorem spares_took {key : κ} (h : other ≠ job) (hfree : w.cache.entries key = none) :
    Spares w (w.took job key) other := by
  refine ⟨rfl, fun k => ?_⟩
  by_cases hk : k = key
  · rw [hk, owns_took_self]
    exact ⟨fun heq => absurd heq.symm h, fun ho => absurd ho (not_owns_of_none hfree)⟩
  · exact owns_took_of_ne hk

omit [DecidableEq Job] in
theorem spares_deleted {key : κ} (h : other ≠ job) (hown : w.Owns job key) :
    Spares w (w.deleted job key) other := by
  refine ⟨rfl, fun k => ?_⟩
  by_cases hk : k = key
  · rw [hk]
    exact ⟨fun ho => absurd ho not_owns_remove_self, fun ho => absurd (owns_unique ho hown) h⟩
  · exact owns_remove_of_ne hk

omit [DecidableEq κ] [DecidableEq Job] in
theorem Spares.trans {w'' : World κ Job} (h : Spares w w' other) (h' : Spares w' w'' other) :
    Spares w w'' other :=
  ⟨h'.1.trans h.1, fun k => (h'.2 k).trans (h.2 k)⟩

/-- **A cache call of one move spares what is another's.** -/
theorem spares_advance {written : Bool} (h : w.advance job written = some w') (hne : other ≠ job)
    (hfits : (w.stage job).Fits (w.Owns job)) : Spares w w' other := by
  rw [World.advance] at h
  cases hstage : w.stage job with
  | taking servers taken todo =>
    rw [hstage] at h
    cases h
    cases todo with
    | nil => exact spares_goOn hne
    | cons key todo =>
      rw [World.take]
      split
      · next hfree => exact (spares_took hne hfree.1).trans (spares_goOn hne)
      · exact spares_goOn hne
  | releasing rollingBack todo =>
    rw [hstage] at h
    cases h
    cases todo with
    | nil => exact spares_goOn hne
    | cons key todo =>
      rw [World.look]
      split <;> exact spares_goOn hne
  | deleting rollingBack key todo =>
    rw [hstage] at h hfits
    cases h
    exact (spares_deleted hne hfits.1).trans (spares_goOn hne)
  | fresh | holding _ | refused | released | dead =>
    rw [hstage] at h
    cases h

/-- **A cache call of a move leaves in the cache what belongs to its next stage.** -/
theorem fits_advance {written : Bool} (h : w.advance job written = some w')
    (hfits : (w.stage job).Fits (w.Owns job)) : (w'.stage job).Fits (w'.Owns job) := by
  rw [World.advance] at h
  cases hstage : w.stage job with
  | taking servers taken todo =>
    rw [hstage] at h hfits
    cases h
    obtain ⟨hservers, howns⟩ := hfits
    cases todo with
    | nil =>
      rw [List.append_nil] at hservers
      rw [World.take, stage_goOn_self, hservers]
      exact howns
    | cons key todo =>
      rw [World.take]
      split
      · rw [stage_goOn_self]
        refine ⟨by rw [hservers, List.append_assoc, List.singleton_append], fun k => ?_⟩
        rw [List.mem_append, List.mem_singleton]
        by_cases hk : k = key
        · exact ⟨fun _ => Or.inr hk, fun _ => hk ▸ owns_took_self.mpr rfl⟩
        · refine (owns_took_of_ne hk).trans ((howns k).trans ?_)
          exact ⟨Or.inl, fun hor => hor.resolve_right hk⟩
      · rw [stage_goOn_self]
        exact fun _ k hk => (howns k).mp hk
  | releasing rollingBack todo =>
    rw [hstage] at h hfits
    cases h
    cases todo with
    | nil =>
      rw [World.look, stage_goOn_self]
      cases rollingBack with
      | false => trivial
      | true => exact fun k hk => List.not_mem_nil (hfits rfl k hk)
    | cons key todo =>
      rw [World.look]
      split
      · next hown =>
        rw [stage_goOn_self]
        exact ⟨hown, hfits⟩
      · next hnot =>
        rw [stage_goOn_self]
        intro hback k hk
        refine (List.mem_cons.mp (hfits hback k hk)).resolve_left ?_
        rintro rfl
        exact hnot hk
  | deleting rollingBack key todo =>
    rw [hstage] at h hfits
    cases h
    rw [stage_goOn_self]
    intro hback k hk
    have hne : k ≠ key := by
      rintro rfl
      exact not_owns_remove_self hk
    exact (List.mem_cons.mp (hfits.2 hback k ((owns_remove_of_ne hne).mp hk))).resolve_left hne
  | fresh | holding _ | refused | released | dead =>
    rw [hstage] at h
    cases h

/-- What is a move's own at its stage, for every move. -/
def Fitting (w : World κ Job) : Prop := ∀ job, (w.stage job).Fits (w.Owns job)

omit [DecidableEq κ] in
/-- A move goes on to a stage that what it owns fits. -/
theorem fitting_goOn {s : Stage κ} (hi : Fitting w) (hs : s.Fits (w.Owns job)) :
    Fitting (w.goOn job s) := by
  intro other
  by_cases hother : other = job
  · rw [hother, stage_goOn_self]
    exact hs
  · have hspares : Spares w (w.goOn job s) other := spares_goOn hother
    rw [hspares.1]
    exact hi other

/-- **Every step leaves each move with what fits its stage.** -/
theorem step_fits (hi : Fitting w) (h : step w a = some w') (hl : Lasting w a) : Fitting w' := by
  cases a with
  | acquire job servers =>
    obtain ⟨hfresh, ⟨⟩⟩ := Option.ite_none_right_eq_some.mp h
    have hnone := hi job
    rw [hfresh] at hnone
    refine fitting_goOn hi ⟨rfl, fun k => ?_⟩
    exact ⟨fun hk => absurd hk (hnone k), fun hk => absurd hk List.not_mem_nil⟩
  | release job servers =>
    obtain ⟨-, ⟨⟩⟩ := Option.ite_none_right_eq_some.mp h
    exact fitting_goOn hi nofun
  | advance job written =>
    intro other
    by_cases hother : other = job
    · rw [hother]
      exact fits_advance h (hi job)
    · obtain ⟨hstage, howns⟩ := spares_advance h hother (hi job)
      rw [hstage]
      exact (hi other).congr (fun _ => howns) fun k => (howns k).mp
  | die job =>
    cases h
    exact fitting_goOn hi trivial
  | expire key =>
    cases h
    refine fun job => (hi job).congr (fun hruns k => ?_) fun k hk => ?_
    · by_cases hk : k = key
      · rw [hk]
        exact ⟨fun ho => absurd ho not_owns_remove_self, fun ho => absurd hruns (hl job ho)⟩
      · exact owns_remove_of_ne hk
    · by_cases hkey : k = key
      · exact absurd (hkey ▸ hk) not_owns_remove_self
      · exact (owns_remove_of_ne hkey).mp hk

/-- Releases removed locks of their own moves. -/
def OwnOnly (w : World κ Job) : Prop := ∀ r ∈ w.removed, r.lock.holder = r.releasing

/-- A lock that a release removes is of its own move. -/
theorem step_removed (hi : Fitting w) (h : step w a = some w') (hown : OwnOnly w) : OwnOnly w' := by
  cases a with
  | acquire _ _ | release _ _ =>
    obtain ⟨-, ⟨⟩⟩ := Option.ite_none_right_eq_some.mp h
    exact hown
  | advance job written =>
    have hfits := hi job
    replace h : w.advance job written = some w' := h
    rw [World.advance] at h
    cases hstage : w.stage job with
    | taking servers taken todo =>
      rw [hstage] at h
      cases h
      cases todo with
      | nil => exact hown
      | cons key todo =>
        rw [World.take]
        split <;> exact hown
    | releasing rollingBack todo =>
      rw [hstage] at h
      cases h
      cases todo with
      | nil => exact hown
      | cons key todo =>
        rw [World.look]
        split <;> exact hown
    | deleting rollingBack key todo =>
      rw [hstage] at h hfits
      cases h
      intro r hr
      rcases List.mem_append.mp hr with hnew | hr
      · obtain ⟨l, hl, rfl⟩ := List.mem_map.mp hnew
        exact owns_unique (holder_of_standing (Option.mem_toList.mp hl)) hfits.1
      · exact hown r hr
    | fresh | holding _ | refused | released | dead =>
      rw [hstage] at h
      cases h
  | die _ | expire _ =>
    cases h
    exact hown

end Steps

/-! ## 4. Runs -/

section Moves

variable {w w' : World κ Job} {a : Action κ Job} {as : List (Action κ Job)}

/-- What every step keeps. -/
structure Inv (w : World κ Job) : Prop where
  fits : Fitting w
  removed : OwnOnly w

omit [DecidableEq κ] [DecidableEq Job] in
theorem Inv.empty : Inv (World.empty : World κ Job) :=
  ⟨fun _ _ hk => absurd hk nofun, nofun⟩

theorem Inv.step (hi : Inv w) (h : step w a = some w') (hl : Lasting w a) : Inv w' :=
  ⟨step_fits hi.fits h hl, step_removed hi.fits h hi.removed⟩

/-- **The locks of a move are all or nothing**: a move whose `acquire` returned `True` holds the lock of
    each of its servers, one whose `acquire` returned `False` none; releases and roll-backs remove locks
    of their own move only; and no two moves hold one server. -/
theorem moves_all_or_nothing (h : Runs.run step World.empty as = some w)
    (hl : Runs.Along step Lasting World.empty as) :
    (∀ job servers, w.stage job = .holding servers →
      ∀ k, holder w.cache k = some job ↔ k ∈ servers) ∧
    (∀ job, w.stage job = .refused → ∀ k, holder w.cache k ≠ some job) ∧
    OwnOnly w ∧
    (∀ job other servers others, w.stage job = .holding servers → w.stage other = .holding others →
      ∀ k ∈ servers, k ∈ others → job = other) := by
  obtain ⟨hfits, hremoved⟩ : Inv w :=
    Runs.run_invariant_along (fun _ _ _ hstep hlast hi => Inv.step hi hstep hlast) h hl Inv.empty
  have hholds : ∀ job servers, w.stage job = .holding servers →
      ∀ k, holder w.cache k = some job ↔ k ∈ servers := by
    intro job servers hstage
    have hjob := hfits job
    rw [hstage] at hjob
    exact hjob
  refine ⟨hholds, fun job hstage => ?_, hremoved, ?_⟩
  · have hjob := hfits job
    rw [hstage] at hjob
    exact hjob
  · intro job other servers others hjob hother k hk hk'
    exact owns_unique ((hholds job servers hjob k).mpr hk) ((hholds other others hother k).mpr hk')

end Moves

/-- Move 1 takes a and b; move 2 takes c, does not get b and gives c back, while move 1 lets go of a and
    move 3 takes it. -/
theorem moves_all_or_nothing_crossing :
    ∃ w, Runs.run step World.empty
        [.acquire 1 ["a", "b"], .advance 1 true, .acquire 2 ["c", "b"], .advance 2 true,
          .advance 1 true, .advance 1 true, .advance 2 true, .release 1 ["a", "b"], .advance 1 true,
          .advance 2 true, .advance 1 true, .acquire 3 ["a"], .advance 3 true, .advance 2 true,
          .advance 2 true, .advance 3 true] = some w ∧
      w.stage 2 = .refused ∧ w.stage 3 = .holding ["a"] ∧
      (∀ k, holder w.cache k ≠ some 2) ∧ holder w.cache "a" = some 3 := by
  have hrun : (Runs.run step World.empty
      [.acquire 1 ["a", "b"], .advance 1 true, .acquire 2 ["c", "b"], .advance 2 true,
        .advance 1 true, .advance 1 true, .advance 2 true, .release 1 ["a", "b"], .advance 1 true,
        .advance 2 true, .advance 1 true, .acquire 3 ["a"], .advance 3 true, .advance 2 true,
        .advance 2 true, .advance 3 true]).map (fun w => (w.stage 2, w.stage 3)) =
        some (.refused, .holding ["a"]) := by
    decide +kernel
  obtain ⟨w, hw, hboth⟩ := Option.map_eq_some_iff.mp hrun
  obtain ⟨hrefused, hholding⟩ := Prod.mk.inj hboth
  obtain ⟨hall, hnothing, -⟩ := moves_all_or_nothing hw (by decide +kernel)
  exact ⟨w, hw, hrefused, hholding, hnothing 2 hrefused,
    (hall 3 ["a"] hholding "a").mpr List.mem_cons_self⟩

end Dbs.MoveLocks

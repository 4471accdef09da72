/-
  File:      Dbs/Sweeping.lean
  Subject:   THE SWEEP OF LOST LOCKS (`release_abandoned_locks` in recovery.py and the two
             `release_abandoned`) among jobs that are queued, run and finish.

  A job may take locks in the transaction that queues it, and after that; a lock is seen as soon as it
  is taken, the job when its transaction has committed. Taking several move locks is one call for each,
  and a release of those before if one fails. A sweep reads which jobs are unfinished, and then it looks
  at one lock after another; there may be any number of sweeps.

  * `Status` -- how far a job is; `Manager.turn` -- what happens to it;
  * `Manager.advance` -- the next cache call of a sweep, for both kinds of locks;
  * `Sweep.Reaches` -- the sweep would delete the lock if it stayed that job's;
  * `Undisturbed` -- no sweep reads while a queueing job holds one of its locks, and no job that is not
    over takes a lock that a sweep would delete;
  * `sweeps_spare_live` -- then sweeps remove the locks of jobs only that are over, and no two others
    hold one lock;
    `reached_removed` -- and otherwise the sweep removes it, if it goes on alone;
  * `swept_while_live` -- a run in which both kinds of locks go to a second job.
-/
import Dbs.Locks

namespace Dbs.Sweeping

open Caching Locks

/-! ## 1. Jobs and sweeps -/

/-- The names of locks in the cache: `backups:take:…` and `relocation:server:…`. -/
inductive Key
  | take (application : String)
  | move (server : String)
deriving DecidableEq

/-- `queueing`: the entry is in the table, and its transaction has not committed. -/
inductive Status
  | absent
  | queueing
  | unfinished
  | finished
  | rolledBack
deriving DecidableEq

/-- The job has finished or will never exist. -/
def Status.Over (s : Status) : Prop := s = .finished ∨ s = .rolledBack

instance (s : Status) : Decidable s.Over := inferInstanceAs (Decidable (_ = _ ∨ _ = _))

variable {Job : Type} [DecidableEq Job]

/-- Where a sweep is with the first of its keys. -/
inductive Stage (Job : Type)
  | looking
  /-- `self.release(application_id, holder)` has not yet compared. -/
  | checking (found : Job)
  | deleting

/-- What comes after a holder was found who is not unfinished: a take lock is released like by its
    holder, a move lock is deleted at once. -/
def Key.abandoned : Key → Job → Stage Job
  | .take _, found => .checking found
  | .move _, _ => .deleting

structure Sweep (Job : Type) where
  unfinished : Job → Bool
  todo : List Key
  stage : Stage Job

def Sweep.next (s : Sweep Job) : Sweep Job := { s with todo := s.todo.tail, stage := .looking }

/-- A sweep deleted that lock, while its holder's job was that far. -/
structure Swept (Job : Type) where
  lock : Lock Key Job
  status : Status
deriving DecidableEq

structure Manager (Job : Type) where
  locks : World Key Job
  status : Job → Status
  sweeps : List (Sweep Job)
  swept : List (Swept Job)

inductive Action (Job : Type)
  /-- `activity.queue` in a transaction; a lock may be taken before it commits. -/
  | queue (job : Job)
  | commit (job : Job)
  | rollBack (job : Job)
  /-- `audit.finish`, `audit.fail` or `audit.interrupt`. -/
  | finish (job : Job)
  | lock (a : Locks.Action Key Job)
  /-- `unfinished_ids()`, and the keys that will be looked at. -/
  | sweep (keys : List Key)
  | advance (i : Nat)

/-- Who takes a lock. -/
def taker : Locks.Action Key Job → Option Job
  | .acquire job _ _ | .confirm job _ => some job
  | .look _ _ | .delete _ | .expire _ => none

namespace Manager

def empty : Manager Job := ⟨.empty, fun _ => .absent, [], []⟩

variable (m : Manager Job)

def turn (job : Job) (before after : Status) : Option (Manager Job) :=
  if m.status job = before then some { m with status := Function.update m.status job after } else none

/-- What `holder` answers a sweep that looks. -/
def looked (s : Sweep Job) (key : Key) : Sweep Job :=
  match holder m.locks.cache key with
  | none => s.next
  | some found => if s.unfinished found then s.next else { s with stage := key.abandoned found }

def checked (s : Sweep Job) (key : Key) (found : Job) : Sweep Job :=
  if holder m.locks.cache key = some found then { s with stage := .deleting } else s.next

def withSweep (i : Nat) (s : Sweep Job) : Manager Job := { m with sweeps := m.sweeps.set i s }

def deleted (i : Nat) (s : Sweep Job) (key : Key) : Manager Job :=
  { m with
    locks := { m.locks with cache := m.locks.cache.remove key },
    sweeps := m.sweeps.set i s.next,
    swept := (standing m.locks.cache key).toList.map (fun l => ⟨l, m.status l.holder⟩) ++ m.swept }

def advance (i : Nat) (s : Sweep Job) : Option (Manager Job) :=
  match s.todo, s.stage with
  | [], _ => none
  | key :: _, .looking => some (m.withSweep i (m.looked s key))
  | key :: _, .checking found => some (m.withSweep i (m.checked s key found))
  | key :: _, .deleting => some (m.deleted i s key)

end Manager

def step (m : Manager Job) : Action Job → Option (Manager Job)
  | .queue job => m.turn job .absent .queueing
  | .commit job => m.turn job .queueing .unfinished
  | .rollBack job => m.turn job .queueing .rolledBack
  | .finish job => m.turn job .unfinished .finished
  | .lock a =>
    if ∀ job ∈ taker a, m.status job ≠ .absent then
      (Locks.step m.locks a).map fun w => { m with locks := w }
    else none
  | .sweep keys =>
    some { m with sweeps := m.sweeps ++ [⟨fun job => m.status job = .unfinished, keys, .looking⟩] }
  | .advance i => m.sweeps[i]?.bind fun s => m.advance i s

/-! ## 2. The lock a sweep would delete -/

/-- A sweep at that stage would delete the lock it is at, if it stayed that job's. -/
def Stage.Ends (unfinished : Job → Bool) (job : Job) : Stage Job → Prop
  | .looking => unfinished job = false
  | .checking found => found = job
  | .deleting => True

/-- The sweep would delete that lock, if it stayed that job's. -/
def Sweep.Reaches (s : Sweep Job) (key : Key) (job : Job) : Prop :=
  s.todo.head? = some key ∧ s.stage.Ends s.unfinished job ∨
    key ∈ s.todo.tail ∧ s.unfinished job = false

/-- A sweep reads while no queueing job holds one of its locks; and a job that is not over takes a lock
    only if no sweep would delete it. -/
def Undisturbed (m : Manager Job) : Action Job → Prop
  | .sweep keys => ∀ key ∈ keys, ∀ job ∈ holder m.locks.cache key, m.status job ≠ .queueing
  | .lock (.acquire job key settling) =>
    m.locks.Free key settling → ¬(m.status job).Over → ∀ s ∈ m.sweeps, ¬s.Reaches key job
  | _ => True

instance (unfinished : Job → Bool) (job : Job) : ∀ t : Stage Job, Decidable (t.Ends unfinished job)
  | .looking => inferInstanceAs (Decidable (unfinished job = false))
  | .checking found => inferInstanceAs (Decidable (found = job))
  | .deleting => inferInstanceAs (Decidable True)

instance (s : Sweep Job) (key : Key) (job : Job) : Decidable (s.Reaches key job) :=
  inferInstanceAs (Decidable (_ ∧ _ ∨ _ ∧ _))

instance (m : Manager Job) : ∀ a, Decidable (Undisturbed m a)
  | .sweep keys =>
    inferInstanceAs (Decidable
      (∀ key ∈ keys, ∀ job ∈ holder m.locks.cache key, m.status job ≠ .queueing))
  | .lock (.acquire job key settling) =>
    inferInstanceAs (Decidable
      (m.locks.Free key settling → ¬(m.status job).Over → ∀ s ∈ m.sweeps, ¬s.Reaches key job))
  | .queue _ | .commit _ | .rollBack _ | .finish _ | .advance _ | .lock (.confirm _ _)
  | .lock (.look _ _) | .lock (.delete _) | .lock (.expire _) => inferInstanceAs (Decidable True)

section Reaching

variable {m : Manager Job} {s : Sweep Job} {key j : Key} {job : Job} {rest : List Key}

omit [DecidableEq Job] in
theorem reaches_cons (htodo : s.todo = j :: rest) :
    s.Reaches key job ↔
      j = key ∧ s.stage.Ends s.unfinished job ∨ key ∈ rest ∧ s.unfinished job = false := by
  rw [Sweep.Reaches, htodo, List.head?_cons, List.tail_cons, Option.some_inj]

omit [DecidableEq Job] in
/-- A sweep that has come to a key reaches this and the later locks of the holders it did not read. -/
theorem reaches_looking (hstage : s.stage = .looking) :
    s.Reaches key job ↔ key ∈ s.todo ∧ s.unfinished job = false := by
  cases htodo : s.todo with
  | nil =>
    rw [Sweep.Reaches, htodo]
    simp only [List.head?_nil, reduceCtorEq, List.tail_nil, List.not_mem_nil, false_and, or_self]
  | cons j rest =>
    rw [reaches_cons htodo, hstage, List.mem_cons, or_and_right, @eq_comm _ key]
    exact Iff.rfl

omit [DecidableEq Job] in
theorem reaches_next (htodo : s.todo = j :: rest) :
    s.next.Reaches key job ↔ key ∈ rest ∧ s.unfinished job = false := by
  rw [reaches_looking rfl, Sweep.next, htodo, List.tail_cons]

omit [DecidableEq Job] in
/-- What a sweep found abandoned it deletes. -/
theorem ends_abandoned {unfinished : Job → Bool} : (key.abandoned job).Ends unfinished job := by
  cases key with
  | take application => rfl
  | move server => trivial

variable {l : Lock Key Job}

omit [DecidableEq Job] in
/-- **Looking at a lock, a sweep reaches the same locks as before.** -/
theorem reaches_looked (htodo : s.todo = j :: rest) (hstage : s.stage = .looking)
    (hl : standing m.locks.cache key = some l) :
    (m.looked s j).Reaches key l.holder ↔ s.Reaches key l.holder := by
  have hholder := holder_of_standing hl
  rw [reaches_cons htodo, hstage, Manager.looked]
  cases hfound : holder m.locks.cache j with
  | none =>
    have hne : j ≠ key := by
      rintro rfl
      exact Option.some_ne_none _ (hholder.symm.trans hfound)
    rw [reaches_next htodo, or_iff_right fun h => hne h.1]
  | some found =>
    have heq : j = key → found = l.holder := by
      rintro rfl
      exact Option.some.inj (hfound.symm.trans hholder)
    by_cases hunfinished : s.unfinished found
    · simp only [if_pos hunfinished]
      rw [reaches_next htodo, or_iff_right]
      rintro ⟨hj, hends⟩
      exact absurd (heq hj ▸ hunfinished) (Bool.eq_false_iff.mp hends)
    · simp only [if_neg hunfinished]
      rw [reaches_cons (s := { s with stage := j.abandoned found }) htodo]
      refine or_congr_left (and_congr_right fun hj => ?_)
      rw [← heq hj]
      exact iff_of_true ends_abandoned (Bool.eq_false_iff.mpr hunfinished)

/-- **Comparing the holder once more, a sweep reaches the same locks as before.** -/
theorem reaches_checked {found : Job} (htodo : s.todo = j :: rest) (hstage : s.stage = .checking found)
    (hl : standing m.locks.cache key = some l) :
    (m.checked s j found).Reaches key l.holder ↔ s.Reaches key l.holder := by
  have hholder := holder_of_standing hl
  rw [reaches_cons htodo, hstage, Manager.checked]
  by_cases hfound : holder m.locks.cache j = some found
  · rw [if_pos hfound, reaches_cons (s := { s with stage := .deleting }) htodo]
    refine or_congr_left (and_congr_right ?_)
    rintro rfl
    exact iff_of_true trivial (Option.some.inj (hfound.symm.trans hholder))
  · rw [if_neg hfound, reaches_next htodo, or_iff_right]
    rintro ⟨rfl, rfl⟩
    exact hfound hholder

end Reaching

/-! ## 3. What every step keeps -/

/-- A sweep removes the locks of jobs only that are over. -/
def Spared (m : Manager Job) : Prop := ∀ x ∈ m.swept, x.status.Over

/-- No two jobs that are not over hold one lock, unless the release of another job removed it. -/
def Exclusive (m : Manager Job) : Prop :=
  ∀ l ∈ m.locks.held, ¬(m.status l.holder).Over → ¬m.locks.Robbed l →
    ∀ l' ∈ m.locks.held, ¬(m.status l'.holder).Over → ¬m.locks.Robbed l' →
      l.key = l'.key → l.holder = l'.holder

structure Inv (m : Manager Job) : Prop where
  known : ∀ key l, standing m.locks.cache key = some l → m.status l.holder ≠ .absent
  reached : ∀ s ∈ m.sweeps, ∀ key l, standing m.locks.cache key = some l →
    s.Reaches key l.holder → (m.status l.holder).Over
  spared : Spared m
  held : ∀ l ∈ m.locks.held, ¬(m.status l.holder).Over → m.locks.Kept l

section Steps

variable {m m' : Manager Job}

omit [DecidableEq Job] in
theorem Inv.empty : Inv (Manager.empty : Manager Job) := ⟨nofun, nofun, nofun, nofun⟩

theorem turn_cases {job : Job} {before after : Status} (h : m.turn job before after = some m') :
    m.status job = before ∧ m' = { m with status := Function.update m.status job after } := by
  rw [Manager.turn] at h
  obtain ⟨hbefore, h⟩ := Option.ite_none_right_eq_some.mp h
  exact ⟨hbefore, (Option.some.inj h).symm⟩

/-- What happens to a job that is not over makes no other job over, and none less. -/
theorem Inv.turn {job : Job} {before after : Status} (hi : Inv m)
    (h : m.turn job before after = some m') (hbefore : ¬before.Over) (hafter : after ≠ .absent) :
    Inv m' := by
  obtain ⟨hstatus, rfl⟩ := turn_cases h
  have hover : ∀ j, (m.status j).Over → (Function.update m.status job after j).Over := by
    intro j hj
    by_cases heq : j = job
    · rw [heq, hstatus] at hj
      exact absurd hj hbefore
    · rwa [Function.update_of_ne heq]
  refine ⟨fun key l hl => ?_, fun s hs key l hl hreaches => ?_, hi.spared, fun l hl hnot => ?_⟩
  · by_cases heq : l.holder = job
    · show Function.update m.status job after l.holder ≠ .absent
      rwa [heq, Function.update_self]
    · show Function.update m.status job after l.holder ≠ .absent
      rw [Function.update_of_ne heq]
      exact hi.known key l hl
  · exact hover _ (hi.reached s hs key l hl hreaches)
  · exact hi.held l hl fun h => hnot (hover _ h)

/-- **What a job does with locks**: it takes none that a sweep would delete, if it is not over. -/
theorem Inv.lock {a : Locks.Action Key Job} {w : World Key Job} (hi : Inv m)
    (htaker : ∀ job ∈ taker a, m.status job ≠ .absent) (h : Locks.step m.locks a = some w)
    (hu : Undisturbed m (.lock a)) : Inv { m with locks := w } := by
  refine ⟨fun key l hl => ?_, fun s hs key l hl hreaches => ?_, hi.spared, fun l hl hnot => ?_⟩
  · rcases step_standing h hl with hl | ⟨settling, rfl, -⟩
    · exact hi.known key l hl
    · exact htaker l.holder rfl
  · rcases step_standing h hl with hl | ⟨settling, rfl, hfree⟩
    · exact hi.reached s hs key l hl hreaches
    · by_contra hnot
      exact hu hfree hnot s hs hreaches
  · exact step_kept h hl fun hl => hi.held l hl hnot

omit [DecidableEq Job] in
/-- A sweep that starts deletes no lock of a job that is not over, if no queueing job holds one. -/
theorem Inv.sweep {keys : List Key} (hi : Inv m) (hu : Undisturbed m (.sweep keys)) :
    Inv { m with sweeps := m.sweeps ++ [⟨fun job => m.status job = .unfinished, keys, .looking⟩] } := by
  refine ⟨hi.known, fun s hs key l hl hreaches => ?_, hi.spared, hi.held⟩
  rcases List.mem_append.mp hs with hs | hs
  · exact hi.reached s hs key l hl hreaches
  · obtain rfl := List.mem_singleton.mp hs
    obtain ⟨hmem, hread⟩ := (reaches_looking rfl).mp hreaches
    have hqueueing := hu key hmem l.holder (holder_of_standing hl)
    have hknown := hi.known key l hl
    have hunfinished := of_decide_eq_false hread
    cases hs : m.status l.holder with
    | absent => exact absurd hs hknown
    | queueing => exact absurd hs hqueueing
    | unfinished => exact absurd hs hunfinished
    | finished => exact Or.inl rfl
    | rolledBack => exact Or.inr rfl

omit [DecidableEq Job] in
/-- A sweep goes on without a deletion. -/
theorem Inv.withSweep {i : Nat} {s s' : Sweep Job} (hi : Inv m) (hs : s ∈ m.sweeps)
    (h : ∀ key l, standing m.locks.cache key = some l →
      (s'.Reaches key l.holder ↔ s.Reaches key l.holder)) : Inv (m.withSweep i s') := by
  refine ⟨hi.known, fun x hx key l hl hreaches => ?_, hi.spared, hi.held⟩
  rcases List.mem_or_eq_of_mem_set hx with hx | rfl
  · exact hi.reached x hx key l hl hreaches
  · exact hi.reached s hs key l hl ((h key l hl).mp hreaches)

omit [DecidableEq Job] in
/-- **The deletion of a sweep**: what it reaches there is the lock of a job that is over. -/
theorem Inv.deleted {i : Nat} {s : Sweep Job} {key : Key} {rest : List Key} (hi : Inv m)
    (hs : s ∈ m.sweeps) (htodo : s.todo = key :: rest) (hstage : s.stage = .deleting) :
    Inv (m.deleted i s key) := by
  have hover : ∀ l, standing m.locks.cache key = some l → (m.status l.holder).Over := by
    intro l hl
    refine hi.reached s hs key l hl ((reaches_cons htodo).mpr (Or.inl ⟨rfl, ?_⟩))
    rw [hstage]
    trivial
  refine ⟨fun k l hl => ?_, fun x hx k l hl hreaches => ?_, fun x hx => ?_, fun l hl hnot => ?_⟩
  · exact hi.known k l (standing_of_remove hl)
  · have hl := standing_of_remove hl
    rcases List.mem_or_eq_of_mem_set hx with hx | rfl
    · exact hi.reached x hx k l hl hreaches
    · exact hi.reached s hs k l hl
        ((reaches_cons htodo).mpr (Or.inr ((reaches_next htodo).mp hreaches)))
  · rcases List.mem_append.mp hx with hx | hx
    · obtain ⟨l, hl, rfl⟩ := List.mem_map.mp hx
      exact hover l (Option.mem_toList.mp hl)
    · exact hi.spared x hx
  · refine (hi.held l hl hnot).imp (fun hstands => ?_) id
    have hne : l.key ≠ key := by
      intro heq
      exact hnot (hover l (heq ▸ hstands))
    show standing (m.locks.cache.remove key) l.key = some l
    rwa [standing_remove_of_ne hne]

theorem Inv.advance {i : Nat} {s : Sweep Job} (hi : Inv m) (hs : s ∈ m.sweeps)
    (h : m.advance i s = some m') : Inv m' := by
  cases htodo : s.todo with
  | nil => simp only [Manager.advance, htodo, reduceCtorEq] at h
  | cons key rest =>
    cases hstage : s.stage with
    | looking =>
      simp only [Manager.advance, htodo, hstage, Option.some.injEq] at h
      subst h
      exact hi.withSweep hs fun k l hl => reaches_looked htodo hstage hl
    | checking found =>
      simp only [Manager.advance, htodo, hstage, Option.some.injEq] at h
      subst h
      exact hi.withSweep hs fun k l hl => reaches_checked htodo hstage hl
    | deleting =>
      simp only [Manager.advance, htodo, hstage, Option.some.injEq] at h
      subst h
      exact hi.deleted hs htodo hstage

theorem Inv.step {a : Action Job} (hi : Inv m) (h : step m a = some m') (hu : Undisturbed m a) :
    Inv m' := by
  cases a with
  | queue _ | commit _ | rollBack _ | finish _ => exact hi.turn h (by decide) (by decide)
  | lock a =>
    obtain ⟨htaker, h⟩ := Option.ite_none_right_eq_some.mp h
    obtain ⟨w, hw, rfl⟩ := Option.map_eq_some_iff.mp h
    exact hi.lock htaker hw hu
  | sweep keys =>
    cases h
    exact hi.sweep hu
  | advance i =>
    obtain ⟨s, hs, h⟩ := Option.bind_eq_some_iff.mp h
    exact hi.advance (List.mem_of_getElem? hs) h

omit [DecidableEq Job] in
/-- What two jobs hold that are not over stands. -/
theorem Inv.exclusive (hi : Inv m) : Exclusive m := by
  intro l hl hnot hrobbed l' hl' hnot' hrobbed' hkey
  have hstands := (hi.held l hl hnot).resolve_right hrobbed
  rw [hkey, (hi.held l' hl' hnot').resolve_right hrobbed'] at hstands
  exact congrArg Lock.holder (Option.some.inj hstands).symm

/-- **A sweep removes the locks of jobs only that have finished or will never exist, and no two other
    jobs hold one lock**, in whatever order jobs are queued, take and release locks and finish, entries
    expire and sweeps go on, where no sweep reads while a queueing job holds one of its locks and no job
    takes a lock that a sweep would delete. -/
theorem sweeps_spare_live {as : List (Action Job)} (h : Runs.run step Manager.empty as = some m)
    (hu : Runs.Along step Undisturbed Manager.empty as) : Spared m ∧ Exclusive m :=
  have hi : Inv m := Runs.run_invariant_along (fun _ _ _ h hu hi => hi.step h hu) h hu Inv.empty
  ⟨hi.spared, hi.exclusive⟩

end Steps

/-! ## 4. A lock that a sweep reaches -/

/-- How many calls the sweep has left, at most. -/
def Sweep.left (s : Sweep Job) : Nat :=
  3 * s.todo.length -
    match s.stage with
    | .looking => 0
    | .checking _ => 1
    | .deleting => 2

section Exactly

variable {m m' : Manager Job} {s : Sweep Job} {i : Nat} {key j : Key} {l : Lock Key Job}
  {rest : List Key}

omit [DecidableEq Job] in
theorem left_next (htodo : s.todo = j :: rest) : s.next.left < s.left := by
  simp only [Sweep.left, Sweep.next, htodo, List.tail_cons, List.length_cons]
  cases s.stage with
  | looking | checking _ | deleting => simp only; omega

omit [DecidableEq Job] in
theorem left_looked (htodo : s.todo = j :: rest) (hstage : s.stage = .looking) :
    (m.looked s j).left < s.left := by
  rw [Manager.looked]
  cases holder m.locks.cache j with
  | none => exact left_next htodo
  | some found =>
    by_cases hunfinished : s.unfinished found
    · simp only [if_pos hunfinished]
      exact left_next htodo
    · simp only [if_neg hunfinished, Sweep.left, htodo, hstage, List.length_cons]
      cases j with
      | take application => simp only [Key.abandoned]; omega
      | move server => simp only [Key.abandoned]; omega

theorem left_checked {found : Job} (htodo : s.todo = j :: rest) (hstage : s.stage = .checking found) :
    (m.checked s j found).left < s.left := by
  rw [Manager.checked]
  by_cases hfound : holder m.locks.cache j = some found
  · simp only [if_pos hfound, Sweep.left, htodo, hstage, List.length_cons]
    omega
  · rw [if_neg hfound]
    exact left_next htodo

/-- The next call of a sweep that reaches a lock removes it, or the sweep reaches it still. -/
theorem advance_reaches (hs : m.sweeps[i]? = some s) (hl : standing m.locks.cache key = some l)
    (hreaches : s.Reaches key l.holder) :
    ∃ m', step m (.advance i) = some m' ∧ m'.status = m.status ∧
      (⟨l, m.status l.holder⟩ ∈ m'.swept ∨ standing m'.locks.cache key = some l ∧
        ∃ s', m'.sweeps[i]? = some s' ∧ s'.Reaches key l.holder ∧ s'.left < s.left) := by
  have hset : ∀ s', (m.sweeps.set i s')[i]? = some s' := fun s' =>
    List.getElem?_set_self (List.getElem?_eq_some_iff.mp hs).choose
  cases htodo : s.todo with
  | nil =>
    rw [Sweep.Reaches, htodo] at hreaches
    rcases hreaches with ⟨h, -⟩ | ⟨h, -⟩ <;> cases h
  | cons j rest =>
    cases hstage : s.stage with
    | looking =>
      refine ⟨m.withSweep i (m.looked s j), ?_, rfl, Or.inr ⟨hl, _, hset _, ?_, ?_⟩⟩
      · simp only [step, hs, Option.bind_some, Manager.advance, htodo, hstage]
      · exact (reaches_looked htodo hstage hl).mpr hreaches
      · exact left_looked htodo hstage
    | checking found =>
      refine ⟨m.withSweep i (m.checked s j found), ?_, rfl, Or.inr ⟨hl, _, hset _, ?_, ?_⟩⟩
      · simp only [step, hs, Option.bind_some, Manager.advance, htodo, hstage]
      · exact (reaches_checked htodo hstage hl).mpr hreaches
      · exact left_checked htodo hstage
    | deleting =>
      refine ⟨m.deleted i s j, ?_, rfl, ?_⟩
      · simp only [step, hs, Option.bind_some, Manager.advance, htodo, hstage]
      · by_cases hj : j = key
        · refine Or.inl (List.mem_append_left _ (List.mem_map.mpr ⟨l, ?_, rfl⟩))
          exact Option.mem_toList.mpr (hj ▸ hl)
        · have htail := ((reaches_cons htodo).mp hreaches).resolve_left fun h => hj h.1
          refine Or.inr ⟨?_, s.next, hset _, (reaches_next htodo).mpr htail, left_next htodo⟩
          show standing (m.locks.cache.remove j) key = some l
          rw [standing_remove_of_ne (Ne.symm hj), hl]

/-- **A sweep that reaches a lock removes it**, if it goes on alone. -/
theorem reached_removed (hs : m.sweeps[i]? = some s) (hl : standing m.locks.cache key = some l)
    (hreaches : s.Reaches key l.holder) :
    ∃ n m', Runs.run step m (List.replicate n (.advance i)) = some m' ∧
      ⟨l, m.status l.holder⟩ ∈ m'.swept := by
  induction hn : s.left using Nat.strongRecOn generalizing m s with
  | ind n ih =>
    obtain ⟨m₁, hstep, hstatus, hswept | ⟨hl₁, s₁, hs₁, hreaches₁, hleft⟩⟩ :=
      advance_reaches hs hl hreaches
    · exact ⟨1, m₁, Runs.run_cons_eq_some.mpr ⟨m₁, hstep, rfl⟩, hswept⟩
    · obtain ⟨k, m', hrun, hswept⟩ := ih s₁.left (hn ▸ hleft) hs₁ hl₁ hreaches₁ rfl
      rw [hstatus] at hswept
      exact ⟨k + 1, m', Runs.run_cons_eq_some.mpr ⟨m₁, hstep, hrun⟩, hswept⟩

/-- **An action that disturbs a sweep lets it remove the lock of a job that is not over**: the sweep has
    only to go on. -/
theorem disturbed_removed {a : Action Job} (h : step m a = some m') (hd : ¬Undisturbed m a) :
    ∃ i n m'', Runs.run step m (a :: List.replicate n (.advance i)) = some m'' ∧ ¬Spared m'' := by
  have hgo : ∀ (i : Nat) (s : Sweep Job) key l, m'.sweeps[i]? = some s →
      standing m'.locks.cache key = some l → s.Reaches key l.holder → ¬(m'.status l.holder).Over →
      ∃ i n m'', Runs.run step m (a :: List.replicate n (.advance i)) = some m'' ∧ ¬Spared m'' := by
    intro i s key l hs hl hreaches hnot
    obtain ⟨n, m'', hrun, hswept⟩ := reached_removed hs hl hreaches
    refine ⟨i, n, m'', Runs.run_cons_eq_some.mpr ⟨m', h, hrun⟩, fun hspared => ?_⟩
    exact hnot (hspared _ hswept)
  cases a with
  | queue _ | commit _ | rollBack _ | finish _ | advance _ => exact absurd trivial hd
  | sweep keys =>
    cases h
    simp only [Undisturbed, not_forall, not_not] at hd
    obtain ⟨key, hkey, job, hholder, hqueueing⟩ := hd
    obtain ⟨e, he, rfl⟩ := Option.map_eq_some_iff.mp (Option.mem_def.mp hholder)
    have hl : standing m.locks.cache key = some ⟨e.value, key, e.life⟩ := by
      rw [standing, he, Option.map_some]
    refine hgo m.sweeps.length _ key _ List.getElem?_concat_length hl ?_ ?_
    · refine (reaches_looking rfl).mpr ⟨hkey, decide_eq_false ?_⟩
      rw [hqueueing]
      decide
    · show ¬(m.status e.value).Over
      rw [hqueueing]
      decide
  | lock a =>
    obtain ⟨-, h⟩ := Option.ite_none_right_eq_some.mp h
    obtain ⟨w, hw, rfl⟩ := Option.map_eq_some_iff.mp h
    cases a with
    | confirm job key => exact absurd trivial hd
    | look job key => exact absurd trivial hd
    | delete i => exact absurd trivial hd
    | expire key => exact absurd trivial hd
    | acquire job key settling =>
      simp only [Undisturbed, Classical.not_imp, not_forall, not_not] at hd
      obtain ⟨hfree, hnot, s, hs, hreaches⟩ := hd
      obtain ⟨i, hi⟩ := List.mem_iff_getElem?.mp hs
      cases hw
      refine hgo i s key ⟨job, key, m.locks.cache.lives⟩ hi ?_ hreaches hnot
      rw [if_pos hfree, hfree.cache, standing_set_self]

end Exactly

/-! ## 5. Runs -/

/-- A backup and a move are queued, and a sweep spares them; when the backup has finished, another sweep
    removes its lock. -/
theorem sweeps_spare_live_twice :
    ∃ m, Runs.run step Manager.empty [.queue 1, .lock (.acquire 1 (.take "web") false), .commit 1,
        .queue 2, .lock (.acquire 2 (.move "db") false), .commit 2, .sweep [.take "web", .move "db"],
        .advance 0, .finish 1, .advance 0, .sweep [.take "web", .move "db"], .advance 1, .advance 1,
        .advance 1, .advance 1] = some m ∧
      m.swept = [⟨⟨1, .take "web", 0⟩, .finished⟩] ∧ Spared m ∧ Exclusive m := by
  have hrun : (Runs.run step Manager.empty [.queue 1, .lock (.acquire 1 (.take "web") false), .commit 1,
      .queue 2, .lock (.acquire 2 (.move "db") false), .commit 2, .sweep [.take "web", .move "db"],
      .advance 0, .finish 1, .advance 0, .sweep [.take "web", .move "db"], .advance 1, .advance 1,
      .advance 1, .advance 1]).map Manager.swept = some [⟨⟨1, .take "web", 0⟩, .finished⟩] := by
    decide +kernel
  obtain ⟨m, hm, hswept⟩ := Option.map_eq_some_iff.mp hrun
  exact ⟨m, hm, hswept, sweeps_spare_live hm (by decide +kernel)⟩

/-- **A sweep that read the unfinished jobs before two were queued removes the locks of both**, a take
    lock and a move lock, and two other jobs take them. -/
theorem swept_while_live :
    ∃ m, Runs.run step Manager.empty [.sweep [.take "web", .move "db"],
        .queue 1, .lock (.acquire 1 (.take "web") false), .commit 1,
        .queue 2, .lock (.acquire 2 (.move "db") false), .commit 2,
        .advance 0, .advance 0, .advance 0, .advance 0, .advance 0,
        .queue 3, .lock (.acquire 3 (.take "web") false), .commit 3,
        .queue 4, .lock (.acquire 4 (.move "db") false), .commit 4] = some m ∧
      m.swept = [⟨⟨2, .move "db", 1⟩, .unfinished⟩, ⟨⟨1, .take "web", 0⟩, .unfinished⟩] ∧
      m.locks.held = [⟨4, .move "db", 3⟩, ⟨3, .take "web", 2⟩, ⟨2, .move "db", 1⟩,
        ⟨1, .take "web", 0⟩] ∧
      m.locks.removed = [] ∧ (∀ job ∈ [1, 2, 3, 4], m.status job = .unfinished) ∧
      ¬Spared m ∧ ¬Exclusive m := by
  have hrun : (Runs.run step Manager.empty [.sweep [.take "web", .move "db"],
      .queue 1, .lock (.acquire 1 (.take "web") false), .commit 1,
      .queue 2, .lock (.acquire 2 (.move "db") false), .commit 2,
      .advance 0, .advance 0, .advance 0, .advance 0, .advance 0,
      .queue 3, .lock (.acquire 3 (.take "web") false), .commit 3,
      .queue 4, .lock (.acquire 4 (.move "db") false), .commit 4]).map
      (fun m => ((m.swept, m.locks.held), m.locks.removed,
        decide (∀ job ∈ [1, 2, 3, 4], m.status job = .unfinished))) =
      some (([⟨⟨2, .move "db", 1⟩, .unfinished⟩, ⟨⟨1, .take "web", 0⟩, .unfinished⟩],
        [⟨4, .move "db", 3⟩, ⟨3, .take "web", 2⟩, ⟨2, .move "db", 1⟩, ⟨1, .take "web", 0⟩]),
        [], true) := by
    decide +kernel
  obtain ⟨m, hm, hall⟩ := Option.map_eq_some_iff.mp hrun
  obtain ⟨hboth, hrest⟩ := Prod.mk.inj hall
  obtain ⟨hswept, hheld⟩ := Prod.mk.inj hboth
  obtain ⟨hremoved, hlive⟩ := Prod.mk.inj hrest
  have hlive := of_decide_eq_true hlive
  refine ⟨m, hm, hswept, hheld, hremoved, hlive, fun hspared => ?_, fun hexclusive => ?_⟩
  · have hover := hspared ⟨⟨1, .take "web", 0⟩, .unfinished⟩ (by rw [hswept]; decide)
    exact absurd hover (by decide)
  · have hfree : ∀ l, ¬m.locks.Robbed l := by
      rintro l ⟨r, hr, -⟩
      rw [hremoved] at hr
      cases hr
    have hnot : ∀ job ∈ [1, 2, 3, 4], ¬(m.status job).Over := by
      intro job hjob
      rw [hlive job hjob]
      decide
    have heq := hexclusive ⟨3, .take "web", 2⟩ (by rw [hheld]; decide) (hnot 3 (by decide)) (hfree _)
      ⟨1, .take "web", 0⟩ (by rw [hheld]; decide) (hnot 1 (by decide)) (hfree _) rfl
    exact absurd heq (by decide)

end Dbs.Sweeping

/-
  File:      Dbs/Locks.lean
  Subject:   LOCKS IN THE CACHE (backups/locks.py and relocation/locks.py): whoever adds the entry
             under the lock's key holds it, until it is deleted or expires.

  Any number of jobs, one cache call of one job at a time; an entry expires whenever it likes. The value
  of an entry is the text of a job's id, which tells the ids apart.

  * `holder`, `standing` -- who holds a lock, and which lock that is;
  * `World.held`, `World.removed` -- what jobs believe to hold, and which locks were removed by whom;
  * `step_kept` -- what a job believes to hold stands, or the release of another job removed it;
  * `Undisturbed` -- no lock is taken while a release of another job is about to delete it;
  * `released_by_holder` -- then every release removes its own job's lock only;
    `disturbed_removed` -- and otherwise it does not;
  * `released_by_another` -- a run in which two jobs believe to hold the lock of one application.
-/
import Dbs.Lib.Caching
import Dbs.Lib.Runs

namespace Dbs.Locks

open Caching

/-! ## 1. Locks -/

/-- An entry of the cache, while it lives, is a lock of its holder. -/
@[ext] structure Lock (κ Job : Type) where
  holder : Job
  key : κ
  life : Nat
deriving DecidableEq

variable {κ Job : Type} [DecidableEq κ] [DecidableEq Job]

def holder (c : Cache κ Job) (key : κ) : Option Job := (c.entries key).map (·.value)

def standing (c : Cache κ Job) (key : κ) : Option (Lock κ Job) :=
  (c.entries key).map fun e => ⟨e.value, key, e.life⟩

section Standing

variable {c : Cache κ Job} {k j : κ} {l : Lock κ Job}

omit [DecidableEq κ] [DecidableEq Job] in
theorem standing_eq_none : standing c k = none ↔ c.entries k = none := Option.map_eq_none_iff

omit [DecidableEq κ] [DecidableEq Job] in
theorem key_of_standing (h : standing c k = some l) : l.key = k := by
  obtain ⟨e, _, rfl⟩ := Option.map_eq_some_iff.mp h
  rfl

omit [DecidableEq κ] [DecidableEq Job] in
theorem holder_of_standing (h : standing c k = some l) : holder c k = some l.holder := by
  obtain ⟨e, he, rfl⟩ := Option.map_eq_some_iff.mp h
  rw [holder, he, Option.map_some]

omit [DecidableEq Job] in
theorem standing_set_self {job : Job} : standing (c.set k job) k = some ⟨job, k, c.lives⟩ := by
  rw [standing, Cache.set_self, Option.map_some]

omit [DecidableEq Job] in
theorem standing_set_of_ne {job : Job} (h : j ≠ k) : standing (c.set k job) j = standing c j := by
  rw [standing, Cache.set_of_ne h, standing]

omit [DecidableEq Job] in
theorem standing_remove_self : standing (c.remove k) k = none := by
  rw [standing, Cache.remove_self, Option.map_none]

omit [DecidableEq Job] in
theorem standing_remove_of_ne (h : j ≠ k) : standing (c.remove k) j = standing c j := by
  rw [standing, Cache.remove_of_ne h, standing]

omit [DecidableEq Job] in
/-- A lock that stands after a deletion stood before it. -/
theorem standing_of_remove (h : standing (c.remove k) j = some l) : standing c j = some l := by
  by_cases hj : j = k
  · rw [hj, standing_remove_self] at h
    cases h
  · rwa [standing_remove_of_ne hj] at h

end Standing

/-! ## 2. What jobs do -/

/-- The release of a job deleted that lock. -/
structure Removed (κ Job : Type) where
  lock : Lock κ Job
  releasing : Job
deriving DecidableEq

/-- `releasing`: calls of `release` that found their job to be the holder, before `cache.delete`.
    `held`: what jobs believe to hold and did not expire. -/
structure World (κ Job : Type) where
  cache : Cache κ Job
  releasing : List (Job × κ)
  held : List (Lock κ Job)
  removed : List (Removed κ Job)

inductive Action (κ Job : Type)
  /-- `settling`: whether `settling_until` was some moment, for a take lock. -/
  | acquire (job : Job) (key : κ) (settling : Bool)
  /-- The second half of `hold`, after `acquire` failed. -/
  | confirm (job : Job) (key : κ)
  /-- The first half of `release`: is the job the holder? -/
  | look (job : Job) (key : κ)
  /-- The second half of the release with that number: `cache.delete`. -/
  | delete (i : Nat)
  /-- The entry's time is over. -/
  | expire (key : κ)

namespace World

def empty : World κ Job := ⟨.empty, [], [], []⟩

variable (w : World κ Job) (job : Job) (key : κ)

/-- Whether `acquire` succeeds. -/
def Free (settling : Bool) : Prop := settling = false ∧ w.cache.entries key = none

instance (settling : Bool) : Decidable (w.Free key settling) :=
  inferInstanceAs (Decidable (_ = _ ∧ _ = none))

def acquired : World κ Job :=
  { w with cache := w.cache.add key job, held := ⟨job, key, w.cache.lives⟩ :: w.held }

def confirmed : World κ Job :=
  { w with held := ((standing w.cache key).filter (·.holder = job)).toList ++ w.held }

/-- A job whose release was called believes no longer. -/
def givenUp : World κ Job :=
  { w with held := w.held.filter fun l => ¬(l.holder = job ∧ l.key = key) }

def deleted (i : Nat) : World κ Job :=
  { cache := w.cache.remove key, releasing := w.releasing.eraseIdx i,
    held := w.held.filter fun l => ¬(l.holder = job ∧ l.key = key),
    removed := (standing w.cache key).toList.map (⟨·, job⟩) ++ w.removed }

def expired : World κ Job :=
  { w with cache := w.cache.remove key, held := w.held.filter (standing w.cache key ≠ some ·) }

end World

/-- One statement on the cache. -/
def step (w : World κ Job) : Action κ Job → Option (World κ Job)
  | .acquire job key settling => some (if w.Free key settling then w.acquired job key else w)
  | .confirm job key => some (w.confirmed job key)
  | .look job key =>
    some (if holder w.cache key = some job then { w with releasing := (job, key) :: w.releasing }
      else w.givenUp job key)
  | .delete i => w.releasing[i]?.map fun r => w.deleted r.1 r.2 i
  | .expire key => some (w.expired key)

/-! ## 3. What a step can do -/

section Steps

variable {w w' : World κ Job} {a : Action κ Job} {k : κ} {l : Lock κ Job}

omit [DecidableEq Job] in
theorem World.Free.cache {job : Job} {settling : Bool} (h : w.Free k settling) :
    (w.acquired job k).cache = w.cache.set k job := if_pos h.2

/-- **A lock that stands stood before, or its holder has just taken it.** -/
theorem step_standing (h : step w a = some w') (hl : standing w'.cache k = some l) :
    standing w.cache k = some l ∨
      ∃ settling, a = .acquire l.holder k settling ∧ w.Free k settling := by
  cases a with
  | acquire job key settling =>
    cases h
    by_cases hfree : w.Free key settling
    · rw [if_pos hfree, hfree.cache] at hl
      by_cases hk : k = key
      · rw [hk, standing_set_self] at hl
        cases hl
        exact Or.inr ⟨settling, by rw [hk], hk ▸ hfree⟩
      · exact Or.inl (by rwa [standing_set_of_ne hk] at hl)
    · rw [if_neg hfree] at hl
      exact Or.inl hl
  | confirm job key =>
    cases h
    exact Or.inl hl
  | look job key =>
    cases h
    refine Or.inl ?_
    by_cases hjob : holder w.cache key = some job
    · rwa [if_pos hjob] at hl
    · rwa [if_neg hjob] at hl
  | delete i =>
    obtain ⟨r, _, rfl⟩ := Option.map_eq_some_iff.mp h
    exact Or.inl (standing_of_remove hl)
  | expire key =>
    cases h
    exact Or.inl (standing_of_remove hl)

/-- The release of another job removed the lock. -/
def World.Robbed (w : World κ Job) (l : Lock κ Job) : Prop :=
  ∃ r ∈ w.removed, r.lock = l ∧ r.releasing ≠ l.holder

def World.Kept (w : World κ Job) (l : Lock κ Job) : Prop :=
  standing w.cache l.key = some l ∨ w.Robbed l

/-- **What a job believes to hold stands, or the release of another job removed it**, after every
    step. -/
theorem step_kept (h : step w a = some w') (hl : l ∈ w'.held) (hw : l ∈ w.held → w.Kept l) :
    w'.Kept l := by
  cases a with
  | acquire job key settling =>
    cases h
    by_cases hfree : w.Free key settling
    · rw [if_pos hfree] at hl ⊢
      rw [World.Kept, hfree.cache]
      rcases List.mem_cons.mp hl with rfl | hl
      · exact Or.inl standing_set_self
      · refine (hw hl).imp (fun hstands => ?_) id
        have hne : l.key ≠ key := by
          intro heq
          rw [heq, standing_eq_none.mpr hfree.2] at hstands
          cases hstands
        rwa [standing_set_of_ne hne]
    · rw [if_neg hfree] at hl ⊢
      exact hw hl
  | confirm job key =>
    cases h
    rcases List.mem_append.mp hl with hnew | hl
    · obtain ⟨hstands, -⟩ := Option.filter_eq_some_iff.mp (Option.mem_toList.mp hnew)
      exact Or.inl (by rwa [key_of_standing hstands])
    · exact hw hl
  | look job key =>
    cases h
    by_cases hjob : holder w.cache key = some job
    · rw [if_pos hjob] at hl ⊢
      exact hw hl
    · rw [if_neg hjob] at hl ⊢
      exact hw (List.mem_of_mem_filter hl)
  | delete i =>
    obtain ⟨r, _, rfl⟩ := Option.map_eq_some_iff.mp h
    obtain ⟨hl, hother⟩ := List.mem_filter.mp hl
    rcases hw hl with hstands | ⟨x, hx, hlock⟩
    · by_cases hkey : l.key = r.2
      · have hne : r.1 ≠ l.holder := by
          rintro heq
          exact of_decide_eq_true hother ⟨heq.symm, hkey⟩
        refine Or.inr ⟨⟨l, r.1⟩, List.mem_append_left _ (List.mem_map_of_mem ?_), rfl, hne⟩
        exact Option.mem_toList.mpr (hkey ▸ hstands)
      · exact Or.inl (by rw [World.deleted, standing_remove_of_ne hkey, hstands])
    · exact Or.inr ⟨x, List.mem_append_right _ hx, hlock⟩
  | expire key =>
    cases h
    obtain ⟨hl, hother⟩ := List.mem_filter.mp hl
    refine (hw hl).imp (fun hstands => ?_) id
    have hne : l.key ≠ key := by
      rintro rfl
      exact of_decide_eq_true hother hstands
    rwa [World.expired, standing_remove_of_ne hne]

/-- A release that is about to delete was before, or it has just found its job to be the holder. -/
theorem step_releasing {r : Job × κ} (h : step w a = some w') (hr : r ∈ w'.releasing) :
    r ∈ w.releasing ∨ w'.cache = w.cache ∧ holder w.cache r.2 = some r.1 := by
  cases a with
  | acquire job key settling =>
    cases h
    by_cases hfree : w.Free key settling
    · rw [if_pos hfree] at hr
      exact Or.inl hr
    · rw [if_neg hfree] at hr
      exact Or.inl hr
  | confirm job key =>
    cases h
    exact Or.inl hr
  | look job key =>
    cases h
    by_cases hjob : holder w.cache key = some job
    · rw [if_pos hjob] at hr ⊢
      rcases List.mem_cons.mp hr with rfl | hr
      · exact Or.inr ⟨rfl, hjob⟩
      · exact Or.inl hr
    · rw [if_neg hjob] at hr
      exact Or.inl hr
  | delete i =>
    obtain ⟨x, _, rfl⟩ := Option.map_eq_some_iff.mp h
    exact Or.inl (List.mem_of_mem_eraseIdx hr)
  | expire key =>
    cases h
    exact Or.inl hr

/-- A lock that was removed was before, or a release about to delete it has removed what stood. -/
theorem step_removed {r : Removed κ Job} (h : step w a = some w') (hr : r ∈ w'.removed) :
    r ∈ w.removed ∨
      (r.releasing, r.lock.key) ∈ w.releasing ∧ standing w.cache r.lock.key = some r.lock := by
  cases a with
  | acquire job key settling =>
    cases h
    by_cases hfree : w.Free key settling
    · rw [if_pos hfree] at hr
      exact Or.inl hr
    · rw [if_neg hfree] at hr
      exact Or.inl hr
  | confirm job key =>
    cases h
    exact Or.inl hr
  | look job key =>
    cases h
    by_cases hjob : holder w.cache key = some job
    · rw [if_pos hjob] at hr
      exact Or.inl hr
    · rw [if_neg hjob] at hr
      exact Or.inl hr
  | delete i =>
    obtain ⟨x, hx, rfl⟩ := Option.map_eq_some_iff.mp h
    rcases List.mem_append.mp hr with hnew | hr
    · obtain ⟨l, hl, rfl⟩ := List.mem_map.mp hnew
      have hstands : standing w.cache x.2 = some l := Option.mem_toList.mp hl
      rw [key_of_standing hstands]
      exact Or.inr ⟨List.mem_of_getElem? hx, hstands⟩
    · exact Or.inl hr
  | expire key =>
    cases h
    exact Or.inl hr

end Steps

/-! ## 4. Releases -/

/-- No release removed another job's lock. -/
def OwnOnly (w : World κ Job) : Prop := ∀ r ∈ w.removed, r.lock.holder = r.releasing

/-- No two jobs believe to hold one lock. -/
def Exclusive (w : World κ Job) : Prop :=
  ∀ l ∈ w.held, ∀ m ∈ w.held, l.key = m.key → l.holder = m.holder

/-- A lock is taken only while no release of another job has found its job to be the holder and is
    about to delete. -/
def Undisturbed (w : World κ Job) : Action κ Job → Prop
  | .acquire job key settling => w.Free key settling → ∀ r ∈ w.releasing, r.2 = key → r.1 = job
  | _ => True

instance (w : World κ Job) : ∀ a, Decidable (Undisturbed w a)
  | .acquire job key settling =>
    inferInstanceAs (Decidable (w.Free key settling → ∀ r ∈ w.releasing, r.2 = key → r.1 = job))
  | .confirm _ _ | .look _ _ | .delete _ | .expire _ => inferInstanceAs (Decidable True)

/-- What every step keeps when no release is disturbed. -/
structure Inv (w : World κ Job) : Prop where
  releasing : ∀ r ∈ w.releasing, ∀ l, standing w.cache r.2 = some l → l.holder = r.1
  removed : OwnOnly w
  held : ∀ l ∈ w.held, w.Kept l

section Releases

variable {w w' : World κ Job} {a : Action κ Job} {as : List (Action κ Job)}

omit [DecidableEq κ] [DecidableEq Job] in
theorem Inv.empty : Inv (World.empty : World κ Job) := ⟨nofun, nofun, nofun⟩

theorem Inv.step (hi : Inv w) (h : step w a = some w') (hu : Undisturbed w a) : Inv w' := by
  refine ⟨fun r hr l hl => ?_, fun r hr => ?_, fun l hl => step_kept h hl (hi.held l)⟩
  · rcases step_releasing h hr with hr | ⟨hcache, hholder⟩
    · rcases step_standing h hl with hstands | ⟨settling, rfl, hfree⟩
      · exact hi.releasing r hr l hstands
      · exact (hu hfree r hr rfl).symm
    · rw [hcache] at hl
      exact Option.some.inj ((holder_of_standing hl).symm.trans hholder)
  · rcases step_removed h hr with hr | ⟨hr, hstands⟩
    · exact hi.removed r hr
    · exact hi.releasing _ hr r.lock hstands

omit [DecidableEq κ] [DecidableEq Job] in
/-- What a job believes to hold stands, where every release removed its own job's lock. -/
theorem Inv.stands {l : Lock κ Job} (hi : Inv w) (hl : l ∈ w.held) :
    standing w.cache l.key = some l := by
  rcases hi.held l hl with hstands | ⟨r, hr, rfl, hother⟩
  · exact hstands
  · exact absurd (hi.removed r hr).symm hother

omit [DecidableEq κ] [DecidableEq Job] in
theorem Inv.exclusive (hi : Inv w) : Exclusive w := by
  intro l hl m hm hkey
  have hstands := hi.stands hl
  rw [hkey, hi.stands hm] at hstands
  exact congrArg Lock.holder (Option.some.inj hstands).symm

/-- **Every release removes its own job's lock only, and no two jobs believe to hold one lock**, in
    whatever order jobs take, confirm and release locks and entries expire, where no lock is taken while
    a release of another job is about to delete it. -/
theorem released_by_holder (h : Runs.run step World.empty as = some w)
    (hu : Runs.Along step Undisturbed World.empty as) : OwnOnly w ∧ Exclusive w :=
  have hi : Inv w := Runs.run_invariant_along (fun _ _ _ h hu hi => hi.step h hu) h hu Inv.empty
  ⟨hi.removed, hi.exclusive⟩

/-- **A lock that is taken while a release of another job is about to delete it may be removed by it**:
    the release has only to go on. -/
theorem disturbed_removed {job : Job} {key : κ} {settling : Bool} (hfree : w.Free key settling)
    {i : Nat} {r : Job × κ} (hr : w.releasing[i]? = some r) (hkey : r.2 = key) (hother : r.1 ≠ job) :
    ∃ w', Runs.run step w [.acquire job key settling, .delete i] = some w' ∧ ¬OwnOnly w' := by
  refine ⟨(w.acquired job key).deleted r.1 r.2 i, ?_, fun hown => ?_⟩
  · simp only [Runs.run, step, if_pos hfree, Option.bind_some]
    rw [World.acquired, hr, Option.map_some, Option.bind_some]
  · have hstands : standing (w.acquired job key).cache r.2 = some ⟨job, key, w.cache.lives⟩ := by
      rw [hfree.cache, hkey, standing_set_self]
    have hmem : ⟨⟨job, key, w.cache.lives⟩, r.1⟩ ∈
        ((w.acquired job key).deleted r.1 r.2 i).removed :=
      List.mem_append_left _ (List.mem_map_of_mem (Option.mem_toList.mpr hstands))
    exact hother (hown _ hmem).symm

end Releases

/-- Job 1 takes the lock of an application and confirms it, job 2 does not get it, job 1 releases it and
    job 2 takes it. -/
theorem released_by_holder_handedOn :
    (∃ w, Runs.run step World.empty [.acquire 1 "web" false, .confirm 1 "web", .acquire 2 "web" false,
        .look 1 "web", .delete 0, .acquire 2 "web" false] = some w ∧
      w.removed = [⟨⟨1, "web", 0⟩, 1⟩] ∧ w.held = [⟨2, "web", 1⟩] ∧ OwnOnly w ∧ Exclusive w) := by
  have hrun : (Runs.run step World.empty [.acquire 1 "web" false, .confirm 1 "web",
      .acquire 2 "web" false, .look 1 "web", .delete 0, .acquire 2 "web" false]).map
      (fun w => (w.removed, w.held)) = some ([⟨⟨1, "web", 0⟩, 1⟩], [⟨2, "web", 1⟩]) := by
    decide +kernel
  obtain ⟨w, hw, hboth⟩ := Option.map_eq_some_iff.mp hrun
  obtain ⟨hremoved, hheld⟩ := Prod.mk.inj hboth
  refine ⟨w, hw, hremoved, hheld, released_by_holder hw ?_⟩
  decide +kernel

/-- **The release of a job whose lock expired removes the lock of the next job**, and a third job
    takes it: two jobs believe to hold the lock of one application. -/
theorem released_by_another :
    ∃ w, Runs.run step World.empty [.acquire 1 "web" false, .look 1 "web", .expire "web",
        .acquire 2 "web" false, .delete 0, .acquire 3 "web" false] = some w ∧
      w.removed = [⟨⟨2, "web", 1⟩, 1⟩] ∧ w.held = [⟨3, "web", 2⟩, ⟨2, "web", 1⟩] ∧
      ¬OwnOnly w ∧ ¬Exclusive w := by
  have hrun : (Runs.run step World.empty [.acquire 1 "web" false, .look 1 "web", .expire "web",
      .acquire 2 "web" false, .delete 0, .acquire 3 "web" false]).map
      (fun w => (w.removed, w.held)) =
        some ([⟨⟨2, "web", 1⟩, 1⟩], [⟨3, "web", 2⟩, ⟨2, "web", 1⟩]) := by
    decide +kernel
  obtain ⟨w, hw, hboth⟩ := Option.map_eq_some_iff.mp hrun
  obtain ⟨hremoved, hheld⟩ := Prod.mk.inj hboth
  refine ⟨w, hw, hremoved, hheld, ?_, ?_⟩
  · rw [OwnOnly, hremoved]
    decide
  · rw [Exclusive, hheld]
    decide

end Dbs.Locks

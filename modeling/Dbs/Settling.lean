/-
  File:      Dbs/Settling.lean
  Subject:   COMMANDS THAT MAY STILL BE RUNNING (servers/settling.py, TakeLock.acquire of
             backups/locks.py): a command whose answer was lost has ended by a moment that is marked
             for its application, and no take lock is taken before it.

  Any number of marks and of jobs, one cache call or look at the clock of one of them at a time, the
  take locks as in Locks. An entry lives for its timeout. Times are microseconds.

  * `settlingUntil` -- what is found; `step` -- `mark` and `acquire` call by call;
  * `World.marked`, `World.acquired` -- the moments that were marked and the locks that were taken;
  * `Covered` -- no moment marked and still ahead is later than what is found; `Respected` -- no lock
    was taken in front of one that was marked while the lock was held;
  * `Undisturbed` -- what is written or taken still fits what was marked since it was looked at;
  * `settled_before_taken` -- then both hold; `settling_lost` -- otherwise neither needs to.
-/
import Dbs.Locks

namespace Dbs.Settling

open Runs

variable {κ Job : Type} [DecidableEq κ] [DecidableEq Job]

/-! ## 1. Marks -/

def second : Nat := 1000000

/-- `math.ceil` of the seconds that are left. -/
def ceilSeconds (microseconds : Nat) : Nat := (microseconds + (second - 1)) / second

theorem le_ceilSeconds (n : Nat) : n ≤ ceilSeconds n * second := by
  rw [ceilSeconds, second]
  omega

/-- An entry of the cache. -/
structure Stored where
  settlesAt : Nat
  expires : Nat

/-- A moment that was marked, after `nr` others. `locked`: while the take lock was held. -/
structure Marked (κ : Type) where
  nr : Nat
  key : κ
  settlesAt : Nat
  locked : Bool
deriving DecidableEq

/-- A take lock that was taken, and what was marked before. -/
structure Acquired (κ Job : Type) where
  key : κ
  job : Job
  moment : Nat
  before : List (Marked κ)
deriving DecidableEq

/-- Where a call is. `got`: what `cache.get` found; `seen`: how many moments were marked then. -/
inductive Call (κ Job : Type)
  /-- `mark`, in front of `cache.get`. -/
  | reading (key : κ) (settlesAt timeout : Nat)
  /-- `mark`, in front of the second look at the clock. -/
  | comparing (key : κ) (settlesAt timeout : Nat) (got : Option Nat) (seen : Nat)
  /-- `mark`, in front of `cache.set`. -/
  | writing (key : κ) (settlesAt timeout seen : Nat)
  /-- `acquire`, in front of `cache.get`. -/
  | checking (key : κ) (job : Job)
  /-- `acquire`, in front of the look at the clock. -/
  | judging (key : κ) (job : Job) (got : Option Nat) (seen : Nat)
  /-- `acquire`, in front of `cache.add`. -/
  | adding (key : κ) (job : Job) (seen : Nat)

structure World (κ Job : Type) where
  now : Nat
  settling : κ → Option Stored
  locks : Locks.World κ Job
  calls : List (Call κ Job)
  marked : List (Marked κ)
  acquired : List (Acquired κ Job)

inductive Action (κ Job : Type)
  /-- `mark` looks at the clock. -/
  | mark (key : κ) (settlesAt : Nat)
  | acquire (key : κ) (job : Job)
  /-- The next cache call of a call, or look at the clock. -/
  | next (i : Nat)
  /-- A call raises. -/
  | raise (i : Nat)
  /-- What else jobs do with the take lock: the rest of `hold`, `release`, an entry's end. -/
  | lock (a : Locks.Action κ Job)
  | tick (microseconds : Nat)

/-- What `settling_until` makes of an entry. -/
def ahead (now : Nat) (got : Option Nat) : Option Nat := got.filter (now < ·)

namespace World

def start (now : Nat) : World κ Job := ⟨now, fun _ => none, .empty, [], [], []⟩

variable (w : World κ Job) (i : Nat) (key : κ) (job : Job)

/-- `cache.get` -/
def cached : Option Nat := ((w.settling key).filter (w.now < ·.expires)).map (·.settlesAt)

def settlingUntil : Option Nat := ahead w.now (w.cached key)

/-- The moment counts from here on. -/
def noted (settlesAt : Nat) : Marked κ :=
  ⟨w.marked.length, key, settlesAt, (w.locks.cache.entries key).isSome⟩

def ended : World κ Job := { w with calls := w.calls.eraseIdx i }

/-- `mark` returns, as no earlier moment stands. -/
def returned (settlesAt : Nat) : World κ Job :=
  { w with calls := w.calls.eraseIdx i, marked := w.noted key settlesAt :: w.marked }

def written (settlesAt timeout : Nat) : World κ Job :=
  { w with
    settling := Function.update w.settling key (some ⟨settlesAt, w.now + timeout * second⟩)
    calls := w.calls.eraseIdx i
    marked := w.noted key settlesAt :: w.marked }

def taken : World κ Job :=
  { w with
    locks := w.locks.acquired job key
    calls := w.calls.eraseIdx i
    acquired := ⟨key, job, w.now, w.marked⟩ :: w.acquired }

def moved (call : Call κ Job) : World κ Job := { w with calls := w.calls.set i call }

/-- Whether a moment stands that is not earlier. -/
def Stands (got : Option Nat) (settlesAt : Nat) : Prop := (ahead w.now got).any (settlesAt ≤ ·) = true

instance (got : Option Nat) (settlesAt : Nat) : Decidable (w.Stands got settlesAt) :=
  inferInstanceAs (Decidable (_ = true))

def nextOf : Call κ Job → World κ Job
  | .reading key settlesAt timeout =>
    w.moved i (.comparing key settlesAt timeout (w.cached key) w.marked.length)
  | .comparing key settlesAt timeout got seen =>
    if w.Stands got settlesAt then w.returned i key settlesAt
    else w.moved i (.writing key settlesAt timeout seen)
  | .writing key settlesAt timeout _ => w.written i key settlesAt timeout
  | .checking key job => w.moved i (.judging key job (w.cached key) w.marked.length)
  | .judging key job got seen =>
    if ahead w.now got = none then w.moved i (.adding key job seen) else w.ended i
  | .adding key job _ => if w.locks.Free key false then w.taken i key job else w.ended i

end World

def step (w : World κ Job) : Action κ Job → Option (World κ Job)
  | .mark key settlesAt =>
    if settlesAt ≤ w.now then some w
    else some { w with calls := .reading key settlesAt (ceilSeconds (settlesAt - w.now)) :: w.calls }
  | .acquire key job => some { w with calls := .checking key job :: w.calls }
  | .next i => (w.calls[i]?).map (w.nextOf i)
  | .raise i => (w.calls[i]?).map fun _ => w.ended i
  | .lock (.acquire _ _ _) => none
  | .lock a => (Locks.step w.locks a).map fun locks => { w with locks }
  | .tick microseconds => some { w with now := w.now + microseconds }

/-! ## 2. What is promised -/

def Covered (w : World κ Job) : Prop :=
  ∀ m ∈ w.marked, w.now < m.settlesAt → ∃ u, w.settlingUntil m.key = some u ∧ m.settlesAt ≤ u

def Respected (w : World κ Job) : Prop :=
  ∀ a ∈ w.acquired, ∀ m ∈ a.before, m.key = a.key → m.locked = true → m.settlesAt ≤ a.moment

/-- A moment that was marked since `seen` others were, for that application, and is still ahead. -/
def Since (w : World κ Job) (key : κ) (seen : Nat) (m : Marked κ) : Prop :=
  seen ≤ m.nr ∧ m.key = key ∧ w.now < m.settlesAt

instance (w : World κ Job) (key : κ) (seen : Nat) (m : Marked κ) : Decidable (Since w key seen m) :=
  inferInstanceAs (Decidable (_ ∧ _ ∧ _))

/-- A mark writes over no later moment that was marked since its `cache.get`, and no lock is taken where
    a moment was marked since, while the lock was held. -/
def Fits (w : World κ Job) : Call κ Job → Prop
  | .writing key settlesAt _ seen => ∀ m ∈ w.marked, Since w key seen m → m.settlesAt ≤ settlesAt
  | .adding key _ seen => w.locks.Free key false → ∀ m ∈ w.marked, Since w key seen m → m.locked = false
  | _ => True

instance (w : World κ Job) : ∀ call, Decidable (Fits w call)
  | .writing key settlesAt _ seen =>
    inferInstanceAs (Decidable (∀ m ∈ w.marked, Since w key seen m → m.settlesAt ≤ settlesAt))
  | .adding key _ seen => inferInstanceAs
      (Decidable (w.locks.Free key false → ∀ m ∈ w.marked, Since w key seen m → m.locked = false))
  | .reading .. | .comparing .. | .checking .. | .judging .. => inferInstanceAs (Decidable True)

def Undisturbed (w : World κ Job) : Action κ Job → Prop
  | .next i => ∀ call ∈ w.calls[i]?, Fits w call
  | _ => True

instance (w : World κ Job) : ∀ a, Decidable (Undisturbed w a)
  | .next i => inferInstanceAs (Decidable (∀ call ∈ w.calls[i]?, Fits w call))
  | .mark .. | .acquire .. | .raise .. | .lock .. | .tick .. => inferInstanceAs (Decidable True)

/-! ## 3. What every step keeps -/

/-- What a call goes on with fits every moment that was marked before its `cache.get` and is ahead. -/
structure Looked (w : World κ Job) (key : κ) (seen : Nat) (fits : Marked κ → Prop) : Prop where
  behind : seen ≤ w.marked.length
  before : ∀ m ∈ w.marked, m.nr < seen → m.key = key → w.now < m.settlesAt → fits m

/-- What `cache.get` found, of a call: a moment that was marked, and none that was is later. -/
structure Got (w : World κ Job) (key : κ) (got : Option Nat) (seen : Nat) : Prop where
  marked : ∀ c ∈ got, ∃ m ∈ w.marked, m.key = key ∧ m.settlesAt = c
  looked : Looked w key seen fun m => ∃ c ∈ got, m.settlesAt ≤ c

def CallFits (w : World κ Job) : Call κ Job → Prop
  | .reading _ settlesAt timeout => settlesAt ≤ w.now + timeout * second
  | .comparing key settlesAt timeout got seen => settlesAt ≤ w.now + timeout * second ∧
      Got w key got seen
  | .writing key settlesAt timeout seen =>
    settlesAt ≤ w.now + timeout * second ∧ Looked w key seen (·.settlesAt ≤ settlesAt)
  | .checking _ _ => True
  | .judging key _ got seen => Got w key got seen
  | .adding key _ seen => Looked w key seen fun _ => False

/-- `entries`: an entry is of a moment that was marked, and lives until then; `covered`: it is not
    earlier than a moment that was marked and is ahead. -/
structure Sound (w : World κ Job) : Prop where
  entries : ∀ key, ∀ e ∈ w.settling key,
    e.settlesAt ≤ e.expires ∧ ∃ m ∈ w.marked, m.key = key ∧ m.settlesAt = e.settlesAt
  covered : ∀ m ∈ w.marked, w.now < m.settlesAt → ∃ e ∈ w.settling m.key, m.settlesAt ≤ e.settlesAt
  numbered : ∀ m ∈ w.marked, m.nr < w.marked.length
  calls : ∀ call ∈ w.calls, CallFits w call
  respected : Respected w

section Steps

variable {w w' : World κ Job} {key : κ} {job : Job} {settlesAt timeout seen i c : Nat}
    {got : Option Nat}
  {call : Call κ Job} {fits : Marked κ → Prop}

omit [DecidableEq κ] [DecidableEq Job]

theorem sound_start (now : Nat) : Sound (World.start now : World κ Job) where
  entries := nofun
  covered := nofun
  numbered := nofun
  calls := nofun
  respected := nofun

theorem mem_ahead {now : Nat} : c ∈ ahead now got ↔ c ∈ got ∧ now < c := by
  rw [ahead, Option.mem_filter_iff]
  exact and_congr_right fun _ => decide_eq_true_iff

theorem stands_iff : w.Stands got settlesAt ↔ ∃ c ∈ got, w.now < c ∧ settlesAt ≤ c := by
  rw [World.Stands, Option.any_eq_true]
  constructor
  · rintro ⟨c, hc, hle⟩
    obtain ⟨hgot, hahead⟩ := mem_ahead.mp hc
    exact ⟨c, hgot, hahead, of_decide_eq_true hle⟩
  · rintro ⟨c, hgot, hahead, hle⟩
    exact ⟨c, mem_ahead.mpr ⟨hgot, hahead⟩, decide_eq_true hle⟩

theorem mem_cached : c ∈ w.cached key ↔ ∃ e ∈ w.settling key, w.now < e.expires ∧ e.settlesAt = c := by
  rw [World.cached, Option.mem_def, Option.map_eq_some_iff]
  constructor
  · rintro ⟨e, he, rfl⟩
    obtain ⟨hmem, hlives⟩ := Option.filter_eq_some_iff.mp he
    exact ⟨e, hmem, of_decide_eq_true hlives, rfl⟩
  · rintro ⟨e, hmem, hlives, rfl⟩
    exact ⟨e, Option.filter_eq_some_iff.mpr ⟨hmem, decide_eq_true hlives⟩, rfl⟩

/-! ### Later worlds -/

/-- The clock does not go back, and what is marked stays and gets the next numbers. -/
structure Later (w w' : World κ Job) : Prop where
  now : w.now ≤ w'.now
  kept : ∀ m ∈ w.marked, m ∈ w'.marked
  new : ∀ m ∈ w'.marked, m ∈ w.marked ∨ w.marked.length ≤ m.nr
  length : w.marked.length ≤ w'.marked.length

theorem Later.of_marked (hnow : w.now ≤ w'.now) (hmarked : w'.marked = w.marked) : Later w w' where
  now := hnow
  kept := fun _ hm => hmarked ▸ hm
  new := fun _ hm => .inl (hmarked ▸ hm)
  length := Nat.le_of_eq (congrArg List.length hmarked).symm

theorem Later.of_noted (hnow : w.now ≤ w'.now)
    (hmarked : w'.marked = w.noted key settlesAt :: w.marked) :
    Later w w' where
  now := hnow
  kept := fun m hm => hmarked ▸ List.mem_cons_of_mem _ hm
  new := fun m hm => by
    rw [hmarked] at hm
    rcases List.mem_cons.mp hm with rfl | hm
    · exact .inr (Nat.le_refl _)
    · exact .inl hm
  length := by
    rw [hmarked]
    exact Nat.le_succ _

theorem Looked.later (h : Looked w key seen fits) (hl : Later w w') : Looked w' key seen fits where
  behind := Nat.le_trans h.behind hl.length
  before := fun m hm hnr hkey hahead => by
    rcases hl.new m hm with hm | hnew
    · exact h.before m hm hnr hkey (Nat.lt_of_le_of_lt hl.now hahead)
    · exact absurd (Nat.lt_of_lt_of_le hnr (Nat.le_trans h.behind hnew)) (Nat.lt_irrefl _)

theorem Got.later (h : Got w key got seen) (hl : Later w w') : Got w' key got seen where
  marked := fun c hc => by
    obtain ⟨m, hm, hsame⟩ := h.marked c hc
    exact ⟨m, hl.kept m hm, hsame⟩
  looked := h.looked.later hl

theorem CallFits.later (h : CallFits w call) (hl : Later w w') : CallFits w' call := by
  have htime : ∀ {settlesAt timeout}, settlesAt ≤ w.now + timeout * second →
      settlesAt ≤ w'.now + timeout * second :=
      fun hle => Nat.le_trans hle (Nat.add_le_add_right hl.now _)
  cases call with
  | reading key settlesAt timeout => exact htime h
  | comparing _ _ _ _ _ | writing _ _ _ _ => exact ⟨htime h.1, h.2.later hl⟩
  | checking key job => trivial
  | judging key job got seen => exact Got.later h hl
  | adding key job seen => exact Looked.later h hl

/-- Where nothing is marked, written or taken. -/
theorem Sound.later (hs : Sound w) (hnow : w.now ≤ w'.now) (hmarked : w'.marked = w.marked)
    (hsettling : w'.settling = w.settling) (hacquired : w'.acquired = w.acquired)
    (hcalls : ∀ call ∈ w'.calls, call ∈ w.calls ∨ CallFits w call) : Sound w' := by
  have hl : Later w w' := .of_marked hnow hmarked
  constructor
  · rw [hsettling, hmarked]
    exact hs.entries
  · rw [hsettling, hmarked]
    exact fun m hm hahead => hs.covered m hm (Nat.lt_of_le_of_lt hnow hahead)
  · rw [hmarked]
    exact hs.numbered
  · exact fun call hcall => ((hcalls call hcall).elim (hs.calls call) id).later hl
  · rw [Respected, hacquired]
    exact hs.respected

theorem Sound.ended (hs : Sound w) (i : Nat) : Sound (w.ended i) :=
  hs.later (Nat.le_refl _) rfl rfl rfl fun _ hcall => .inl (List.mem_of_mem_eraseIdx hcall)

theorem Sound.moved (hs : Sound w) (i : Nat) (hfits : CallFits w call) : Sound (w.moved i call) := by
  refine hs.later (Nat.le_refl _) rfl rfl rfl fun other hother => ?_
  rcases List.mem_or_eq_of_mem_set hother with hmem | rfl
  · exact .inl hmem
  · exact .inr hfits

/-! ### Calls -/

/-- What `cache.get` finds is not earlier than what was marked. -/
theorem Sound.looksUp (hs : Sound w) (key : κ) : Got w key (w.cached key) w.marked.length where
  marked := fun c hc => by
    obtain ⟨e, he, -, rfl⟩ := mem_cached.mp hc
    exact (hs.entries key e he).2
  looked := ⟨Nat.le_refl _, fun m hm _ hkey hahead => by
    obtain ⟨e, he, hle⟩ := hs.covered m hm hahead
    have hlives : w.now < e.expires :=
      Nat.lt_of_lt_of_le hahead (Nat.le_trans hle (hs.entries m.key e he).1)
    exact ⟨e.settlesAt, mem_cached.mpr ⟨e, hkey ▸ he, hlives, rfl⟩, hle⟩⟩

/-- No moment that is not later than what was found. -/
theorem Got.looked_of_not_stands (h : Got w key got seen) (hstands : ¬ w.Stands got settlesAt) :
    Looked w key seen (·.settlesAt ≤ settlesAt) where
  behind := h.looked.behind
  before := fun m hm hnr hkey hahead => by
    obtain ⟨c, hc, hle⟩ := h.looked.before m hm hnr hkey hahead
    by_contra hlater
    exact hstands (stands_iff.mpr ⟨c, hc, by omega, by omega⟩)

theorem Got.looked_of_none (h : Got w key got seen) (hnone : ahead w.now got = none) :
    Looked w key seen fun _ => False where
  behind := h.looked.behind
  before := fun m hm hnr hkey hahead => by
    obtain ⟨c, hc, hle⟩ := h.looked.before m hm hnr hkey hahead
    have hmem : c ∈ ahead w.now got := mem_ahead.mpr ⟨hc, by omega⟩
    rw [hnone] at hmem
    cases hmem

/-- A mark returns, as a moment that is not earlier stands. -/
theorem Sound.returned (hs : Sound w) (i : Nat) (hgot : Got w key got seen)
    (hstands : w.Stands got settlesAt) :
    Sound (w.returned i key settlesAt) := by
  have hl : Later w (w.returned i key settlesAt) := .of_noted (Nat.le_refl _) rfl
  obtain ⟨c, hc, hahead, hle⟩ := stands_iff.mp hstands
  obtain ⟨m, hm, rfl, rfl⟩ := hgot.marked c hc
  obtain ⟨e, he, hlater⟩ := hs.covered m hm hahead
  constructor
  · intro k e' he'
    obtain ⟨hlives, m', hm', hsame⟩ := hs.entries k e' he'
    exact ⟨hlives, m', List.mem_cons_of_mem _ hm', hsame⟩
  · intro m' hm' hahead'
    rcases List.mem_cons.mp hm' with rfl | hm'
    · exact ⟨e, he, Nat.le_trans hle hlater⟩
    · exact hs.covered m' hm' hahead'
  · intro m' hm'
    rcases List.mem_cons.mp hm' with rfl | hm'
    · exact Nat.lt_succ_self _
    · exact Nat.lt_succ_of_lt (hs.numbered m' hm')
  · exact fun call hcall => (hs.calls call (List.mem_of_mem_eraseIdx hcall)).later hl
  · exact hs.respected

variable [DecidableEq κ]

theorem World.written_self :
    (w.written i key settlesAt timeout).settling key = some ⟨settlesAt, w.now + timeout * second⟩ :=
  Function.update_self ..

theorem World.written_of_ne {k : κ} (h : k ≠ key) :
    (w.written i key settlesAt timeout).settling k = w.settling k :=
  Function.update_of_ne h ..

/-- What is written is not earlier than what was marked, before and since. -/
theorem Sound.written (hs : Sound w) (i : Nat) (htime : settlesAt ≤ w.now + timeout * second)
    (hlooked : Looked w key seen (·.settlesAt ≤ settlesAt))
    (hsince : ∀ m ∈ w.marked, Since w key seen m → m.settlesAt ≤ settlesAt) :
    Sound (w.written i key settlesAt timeout) := by
  have hl : Later w (w.written i key settlesAt timeout) := .of_noted (Nat.le_refl _) rfl
  constructor
  · intro k e he
    by_cases hk : k = key
    · rw [hk, World.written_self] at he
      cases he
      exact ⟨htime, _, List.mem_cons_self, hk.symm, rfl⟩
    · rw [World.written_of_ne hk] at he
      obtain ⟨hlives, m, hm, hsame⟩ := hs.entries k e he
      exact ⟨hlives, m, List.mem_cons_of_mem _ hm, hsame⟩
  · intro m hm hahead
    by_cases hk : m.key = key
    · refine ⟨⟨settlesAt, w.now + timeout * second⟩, ?_, ?_⟩
      · rw [hk]
        exact World.written_self
      · rcases List.mem_cons.mp hm with rfl | hm
        · exact Nat.le_refl _
        · rcases Nat.lt_or_ge m.nr seen with hbefore | hbehind
          · exact hlooked.before m hm hbefore hk hahead
          · exact hsince m hm ⟨hbehind, hk, hahead⟩
    · rcases List.mem_cons.mp hm with rfl | hm
      · exact absurd rfl hk
      · obtain ⟨e, he, hle⟩ := hs.covered m hm hahead
        exact ⟨e, by rwa [World.written_of_ne hk], hle⟩
  · intro m hm
    rcases List.mem_cons.mp hm with rfl | hm
    · exact Nat.lt_succ_self _
    · exact Nat.lt_succ_of_lt (hs.numbered m hm)
  · exact fun call hcall => (hs.calls call (List.mem_of_mem_eraseIdx hcall)).later hl
  · exact hs.respected

/-- Nothing that was marked is ahead of the lock that is taken. -/
theorem Sound.taken (hs : Sound w) (i : Nat) (job : Job) (hlooked : Looked w key seen fun _ => False)
    (hsince : ∀ m ∈ w.marked, Since w key seen m → m.locked = false) : Sound (w.taken i key job) := by
  have hl : Later w (w.taken i key job) := .of_marked (Nat.le_refl _) rfl
  refine ⟨hs.entries, hs.covered, hs.numbered, fun call hcall => ?_, fun a ha => ?_⟩
  · exact (hs.calls call (List.mem_of_mem_eraseIdx hcall)).later hl
  · rcases List.mem_cons.mp ha with rfl | ha
    · intro m hm hk hlocked
      by_contra hahead
      rcases Nat.lt_or_ge m.nr seen with hbefore | hbehind
      · exact hlooked.before m hm hbefore hk (Nat.lt_of_not_le hahead)
      · have hfree := hsince m hm ⟨hbehind, hk, Nat.lt_of_not_le hahead⟩
        rw [hlocked] at hfree
        cases hfree
    · exact hs.respected a ha

/-- What a call does next. -/
theorem Sound.next (hs : Sound w) (hfits : CallFits w call) (hin : Fits w call) :
    Sound (w.nextOf i call) := by
  cases call with
  | reading key settlesAt timeout => exact hs.moved i ⟨hfits, hs.looksUp key⟩
  | comparing key settlesAt timeout got seen =>
    by_cases hstands : w.Stands got settlesAt
    · rw [World.nextOf, if_pos hstands]
      exact hs.returned i hfits.2 hstands
    · rw [World.nextOf, if_neg hstands]
      exact hs.moved i ⟨hfits.1, hfits.2.looked_of_not_stands hstands⟩
  | writing key settlesAt timeout seen => exact hs.written i hfits.1 hfits.2 hin
  | checking key job => exact hs.moved i (hs.looksUp key)
  | judging key job got seen =>
    by_cases hnone : ahead w.now got = none
    · rw [World.nextOf, if_pos hnone]
      exact hs.moved i (Got.looked_of_none hfits hnone)
    · rw [World.nextOf, if_neg hnone]
      exact hs.ended i
  | adding key job seen =>
    by_cases hfree : w.locks.Free key false
    · rw [World.nextOf, if_pos hfree]
      exact hs.taken i job hfits (hin hfree)
    · rw [World.nextOf, if_neg hfree]
      exact hs.ended i

variable [DecidableEq Job]

/-- What jobs do with the take lock otherwise is a step of the locks. -/
theorem step_lock_eq_some {a : Locks.Action κ Job} (hstep : step w (.lock a) = some w') :
    ∃ locks, Locks.step w.locks a = some locks ∧ w' = { w with locks } := by
  cases a with
  | acquire job key settling => cases hstep
  | confirm _ _ | look _ _ | expire _ => exact ⟨_, rfl, (Option.some.inj hstep).symm⟩
  | delete i =>
    obtain ⟨locks, hlocks, rfl⟩ := Option.map_eq_some_iff.mp hstep
    exact ⟨locks, hlocks, rfl⟩

/-- **Every undisturbed step keeps it.** -/
theorem step_sound {a : Action κ Job} (hs : Sound w) (hin : Undisturbed w a)
    (hstep : step w a = some w') :
    Sound w' := by
  cases a with
  | mark key settlesAt =>
    by_cases hpast : settlesAt ≤ w.now
    · rw [step, if_pos hpast] at hstep
      exact Option.some.inj hstep ▸ hs
    · rw [step, if_neg hpast] at hstep
      cases hstep
      refine hs.later (Nat.le_refl _) rfl rfl rfl fun call hcall => ?_
      rcases List.mem_cons.mp hcall with rfl | hcall
      · have hceil := le_ceilSeconds (settlesAt - w.now)
        exact .inr (show settlesAt ≤ _ by omega)
      · exact .inl hcall
  | acquire key job =>
    cases hstep
    refine hs.later (Nat.le_refl _) rfl rfl rfl fun call hcall => ?_
    rcases List.mem_cons.mp hcall with rfl | hcall
    · exact .inr trivial
    · exact .inl hcall
  | next i =>
    obtain ⟨call, hcall, rfl⟩ := Option.map_eq_some_iff.mp hstep
    exact hs.next (hs.calls call (List.mem_of_getElem? hcall)) (hin call hcall)
  | raise i =>
    obtain ⟨call, -, rfl⟩ := Option.map_eq_some_iff.mp hstep
    exact hs.ended i
  | lock a =>
    obtain ⟨locks, -, rfl⟩ := step_lock_eq_some hstep
    exact hs.later (Nat.le_refl _) rfl rfl rfl fun _ hcall => .inl hcall
  | tick microseconds =>
    cases hstep
    exact hs.later (Nat.le_add_right ..) rfl rfl rfl fun _ hcall => .inl hcall

end Steps

/-! ## 4. Runs -/

variable {w : World κ Job} {as : List (Action κ Job)} {now : Nat}

omit [DecidableEq κ] [DecidableEq Job] in
theorem Sound.covers (hs : Sound w) : Covered w := by
  intro m hm hahead
  obtain ⟨e, he, hle⟩ := hs.covered m hm hahead
  have hlives : w.now < e.expires :=
    Nat.lt_of_lt_of_le hahead (Nat.le_trans hle (hs.entries m.key e he).1)
  have hcached : e.settlesAt ∈ w.cached m.key := mem_cached.mpr ⟨e, he, hlives, rfl⟩
  exact ⟨e.settlesAt, mem_ahead.mpr ⟨hcached, Nat.lt_of_lt_of_le hahead hle⟩, hle⟩

/-- **What is found is not earlier than what was marked, and no job takes the lock before** a moment
    that was marked while it was held, in every undisturbed run. -/
theorem settled_before_taken (hrun : run step (World.start now) as = some w)
    (hin : Along step Undisturbed (World.start now) as) : Covered w ∧ Respected w :=
  have hs : Sound w :=
    run_invariant_along (fun _ _ _ hstep hin hs => step_sound hs hin hstep) hrun hin (sound_start now)
  ⟨hs.covers, hs.respected⟩

section Examples

/-- Ten seconds are marked while job 1 holds the lock; job 2 asks, waits for their end and asks
    again. -/
def askedTwice : List (Action String Nat) :=
  [.acquire "web" 1, .next 0, .next 0, .next 0, .mark "web" (12 * second), .next 0, .next 0, .next 0,
    .lock (.look 1 "web"), .lock (.delete 0), .acquire "web" 2, .next 0, .next 0, .tick (10 * second),
    .acquire "web" 2, .next 0, .next 0, .next 0]

theorem settled_before_taken_askedTwice : ∃ w, run step (World.start (2 * second)) askedTwice = some w ∧
    w.acquired.map (fun a => (a.job, a.moment)) = [(2, 12 * second), (1, 2 * second)] ∧
      Covered w ∧ Respected w := by
  have hrun : (run step (World.start (2 * second)) askedTwice).map
      (fun w => w.acquired.map fun a => (a.job, a.moment)) =
        some [(2, 12 * second), (1, 2 * second)] := by decide +kernel
  obtain ⟨w, hw, hacquired⟩ := Option.map_eq_some_iff.mp hrun
  exact ⟨w, hw, hacquired, settled_before_taken hw (by decide +kernel)⟩

/-- Two commands of the application mark at once: both look first, then the later moment is written, and
    the earlier one over it. -/
def markedAtOnce : List (Action String Nat) :=
  [.mark "web" (7 * second), .mark "web" (12 * second), .next 0, .next 1, .next 0, .next 1, .next 0,
    .next 0]

/-- Job 2 looks, then the command of job 1 is lost and marked, job 1 releases, and job 2 takes the
    lock. -/
def takenBetween : List (Action String Nat) :=
  [.acquire "web" 1, .next 0, .next 0, .next 0, .acquire "web" 2, .next 0, .next 0,
    .mark "web" (12 * second),
    .next 0, .next 0, .next 0, .lock (.look 1 "web"), .lock (.delete 0), .next 0]

/-- **The later of two moments is lost, and a job starts before the one that was marked.** -/
theorem settling_lost :
    (∃ w, run step (World.start (2 * second)) markedAtOnce = some w ∧ ¬ Covered w) ∧
      ∃ w, run step (World.start (2 * second)) takenBetween = some w ∧ ¬ Respected w := by
  have hmarks : (run step (World.start (2 * second)) markedAtOnce).map
      (fun w => (w.now, w.marked, w.settlingUntil "web")) =
        some (2 * second, [⟨1, "web", 7 * second, false⟩, ⟨0, "web", 12 * second, false⟩],
          some (7 * second)) := by decide +kernel
  have htaken : (run step (World.start (2 * second)) takenBetween).map (·.acquired.head?) =
      some (some ⟨"web", 2, 2 * second, [⟨0, "web", 12 * second, true⟩]⟩) := by decide +kernel
  constructor
  · obtain ⟨w, hw, heq⟩ := Option.map_eq_some_iff.mp hmarks
    obtain ⟨hnow, hrest⟩ := Prod.mk.inj heq
    obtain ⟨hmarked, huntil⟩ := Prod.mk.inj hrest
    refine ⟨w, hw, fun hcovered => ?_⟩
    obtain ⟨u, hu, hle⟩ := hcovered ⟨0, "web", 12 * second, false⟩ (by rw [hmarked]; decide)
      (by rw [hnow]; decide)
    obtain rfl := Option.some.inj (huntil.symm.trans hu)
    exact absurd hle (by decide)
  · obtain ⟨w, hw, hhead⟩ := Option.map_eq_some_iff.mp htaken
    refine ⟨w, hw, fun hrespected => ?_⟩
    have hle := hrespected _ (List.mem_of_mem_head? hhead) _ List.mem_cons_self rfl rfl
    exact absurd hle (by decide)

end Examples

end Dbs.Settling

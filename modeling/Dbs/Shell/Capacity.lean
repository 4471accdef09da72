/-
  File:      Dbs/Shell/Capacity.lean
  Subject:   HOW MANY SHELLS MAY BE OPEN (`Shells` in shell/sessions.py, `open`, `finish` and
             `sweep_terminals` in shell/service.py): a place is reserved before the connection is made,
             and given back when the session is added or the opening has failed.

  Any number of openings by any accounts, and of calls of `finish` by polls, by closing, by sweeps, by
  signing out, also of the same session; one statement of one of them at a time, what is under the
  lock of `Shells` or under the session's `finishing` being one. The end of the connection
  (`ShellSession.end`) is left out: nothing here looks at it.

  * `Shells.reserve`, `Shells.act` -- the steps;
  * `Shells.used` -- unfinished sessions, and reservations whose session is not added yet;
  * `Inv` -- the reservations are those of the openings under way, and a finished session has been
    recorded or is about to be;
  * `capacity_kept` -- the limits hold, every reservation is given back once, and every end is recorded
    once.
-/
import Dbs.Lib.Runs
import Mathlib.Data.List.Perm.Basic
import Mathlib.Data.List.Range
import Mathlib.Tactic.Linarith

namespace Dbs.Shell.Capacity

/-! ## 1. Openings and sessions -/

def maxSessions : Nat := 4

def maxPerAccount : Nat := 2

/-- `known`: it is in `SHELLS.sessions`. -/
structure Session (U : Type) where
  user : U
  known : Bool
  finished : Bool

inductive Progress
  | connecting
  /-- It has raised before `SHELLS.add`. -/
  | failed
  | added
deriving DecidableEq

/-- A call of `open` inside `SHELLS.reserve`. -/
structure Opening (U : Type) where
  number : Nat
  user : U
  progress : Progress

/-- Where a call of `finish` is: in front of `if session.finished`, of `SHELLS.forget`, of
    `audit.finish`. -/
inductive Turn
  | testing
  | forgetting
  | recording
deriving DecidableEq

structure Finish where
  session : Nat
  turn : Turn

/-- `sessions`: all that were added, numbered as they were; `reserved`: each account as often as the
    dictionary says; `recorded`: the sessions `audit.finish` was called for; `made`, `givenBack`: how
    many reservations were made, and which were given back. -/
structure Shells (U : Type) where
  sessions : List (Session U)
  openings : List (Opening U)
  reserved : List U
  finishes : List Finish
  recorded : List Nat
  made : Nat
  givenBack : List Nat

inductive Action (U : Type)
  | reserve (user : U)
  /-- The `k`th opening fails, for whatever reason. -/
  | fail (k : Nat)
  | add (k : Nat)
  /-- The end of `with SHELLS.reserve(…)`. -/
  | giveBack (k : Nat)
  /-- Somebody calls `finish`. -/
  | finish (session : Nat)
  /-- The next statement of the `k`th call of `finish`. -/
  | advance (k : Nat)

variable {U : Type} [DecidableEq U]

/-- It counts in `open_now`. -/
def Session.isOpen (s : Session U) : Bool := s.known && !s.finished

def Opening.waiting (o : Opening U) : Bool := o.progress ≠ .added

namespace Shells

def empty : Shells U := ⟨[], [], [], [], [], 0, []⟩

variable (w : Shells U)

/-- `TooManyTerminals`. -/
def Full (user : U) : Prop :=
  maxSessions ≤ w.sessions.countP Session.isOpen + w.reserved.length ∨
    maxPerAccount ≤ (w.sessions.countP fun s => s.isOpen && s.user == user) + w.reserved.count user

instance (user : U) : Decidable (w.Full user) := inferInstanceAs (Decidable (_ ∨ _))

def reserve (user : U) : Shells U :=
  { w with reserved := user :: w.reserved, openings := ⟨w.made, user, .connecting⟩ :: w.openings,
           made := w.made + 1 }

def setProgress (k : Nat) (o : Opening U) (progress : Progress) : Shells U :=
  { w with openings := w.openings.set k { o with progress := progress } }

/-- `SHELLS.add`. -/
def add (k : Nat) (o : Opening U) : Shells U :=
  { w.setProgress k o .added with sessions := w.sessions ++ [⟨o.user, true, false⟩] }

def giveBack (k : Nat) (o : Opening U) : Shells U :=
  { w with reserved := w.reserved.erase o.user, openings := w.openings.eraseIdx k,
           givenBack := o.number :: w.givenBack }

def setSession (f : Finish) (s : Session U) : Shells U :=
  { w with sessions := w.sessions.set f.session s }

def setTurn (k : Nat) (f : Finish) (turn : Turn) : Shells U :=
  { w with finishes := w.finishes.set k { f with turn := turn } }

/-- The next statement of a call of `finish` for that session. -/
def act (k : Nat) (f : Finish) (s : Session U) : Shells U :=
  match f.turn with
  | .testing =>
    if s.finished then { w with finishes := w.finishes.eraseIdx k }
    else (w.setSession f { s with finished := true }).setTurn k f .forgetting
  | .forgetting => (w.setSession f { s with known := false }).setTurn k f .recording
  | .recording =>
    { w with finishes := w.finishes.eraseIdx k, recorded := f.session :: w.recorded }

end Shells

def step (w : Shells U) : Action U → Option (Shells U)
  | .reserve user => some (if w.Full user then w else w.reserve user)
  | .fail k => w.openings[k]?.bind fun o =>
    if o.progress = .connecting then some (w.setProgress k o .failed) else none
  | .add k => w.openings[k]?.bind fun o =>
    if o.progress = .connecting then some (w.add k o) else none
  | .giveBack k => w.openings[k]?.bind fun o =>
    if o.progress = .connecting then none else some (w.giveBack k o)
  | .finish session =>
    if session < w.sessions.length then some { w with finishes := ⟨session, .testing⟩ :: w.finishes }
    else none
  | .advance k => w.finishes[k]?.bind fun f => w.sessions[f.session]?.map fun s => w.act k f s

/-! ## 2. What is counted -/

section Counting

variable {α : Type} {l : List α} {i : Nat} {a b : α} {p : α → Bool}

theorem perm_of_getElem? (h : l[i]? = some a) : l.Perm (a :: l.eraseIdx i) := by
  obtain ⟨hi, rfl⟩ := List.getElem?_eq_some_iff.mp h
  exact (List.getElem_cons_eraseIdx_perm hi).symm

theorem set_perm (h : l[i]? = some a) : (l.set i b).Perm (b :: l.eraseIdx i) :=
  List.set_perm_cons_eraseIdx (List.getElem?_eq_some_iff.mp h).1 b

theorem countP_of_getElem? (h : l[i]? = some a) :
    l.countP p = (l.eraseIdx i).countP p + if p a then 1 else 0 := by
  rw [(perm_of_getElem? h).countP_eq, List.countP_cons]

theorem countP_set (h : l[i]? = some a) :
    (l.set i b).countP p = (l.eraseIdx i).countP p + if p b then 1 else 0 := by
  rw [(set_perm h).countP_eq, List.countP_cons]

end Counting

/-- Unfinished sessions of the accounts, and reservations of theirs whose session is not added yet. -/
def Shells.used (w : Shells U) (p : U → Bool) : Nat :=
  (w.sessions.countP fun s => !s.finished && p s.user) +
    w.openings.countP fun o => o.waiting && p o.user

/-- It has found the session unfinished. -/
def Finish.won (f : Finish) (session : Nat) : Bool := f.session == session && f.turn ≠ .testing

/-- How often the end of a session has been recorded, or is about to be. -/
def Shells.ends (w : Shells U) (session : Nat) : Nat :=
  w.recorded.count session + w.finishes.countP (·.won session)

structure Inv (w : Shells U) : Prop where
  known : ∀ s ∈ w.sessions, s.finished = false → s.known = true
  reserved : w.reserved.Perm (w.openings.map (·.user))
  numbers : (w.openings.map (·.number) ++ w.givenBack).Perm (List.range w.made)
  total : w.used (fun _ => true) ≤ maxSessions
  account : ∀ u, w.used (· == u) ≤ maxPerAccount
  ended : ∀ f ∈ w.finishes, f.session < w.sessions.length
  recorded : ∀ i ∈ w.recorded, i < w.sessions.length
  once : ∀ i s, w.sessions[i]? = some s → w.ends i = if s.finished then 1 else 0

section Steps

variable {w w' : Shells U} {a : Action U} {p : U → Bool} {k : Nat} {o : Opening U}

/-- What `reserve` looks at is at least what is used. -/
theorem Inv.used_le (hi : Inv w) :
    w.used p ≤ (w.sessions.countP fun s => s.isOpen && p s.user) + w.reserved.countP p := by
  have hopen : (w.sessions.countP fun s => !s.finished && p s.user) =
      w.sessions.countP fun s => s.isOpen && p s.user := by
    refine List.countP_congr fun s hs => ?_
    have hknown := hi.known s hs
    cases hfinished : s.finished with
    | true => simp [Session.isOpen, hfinished]
    | false => simp [Session.isOpen, hfinished, hknown hfinished]
  have hwaiting : (w.openings.countP fun o => o.waiting && p o.user) ≤
      w.openings.countP fun o => p o.user :=
    List.countP_mono_left fun o _ h => (Bool.and_eq_true_iff.mp h).2
  have hreserved : w.reserved.countP p = w.openings.countP fun o => p o.user := by
    rw [hi.reserved.countP_eq, List.countP_map]
    rfl
  rw [Shells.used, hopen, hreserved]
  omega

omit [DecidableEq U] in
theorem used_reserve {user : U} : (w.reserve user).used p = w.used p + if p user then 1 else 0 := by
  rw [Shells.used, Shells.used, Shells.reserve, List.countP_cons, Nat.add_assoc]
  rfl

variable {progress : Progress}

omit [DecidableEq U] in
theorem used_setProgress (h : w.openings[k]? = some o)
    (hsame : progress = .failed) (hwaiting : o.waiting = true) :
    (w.setProgress k o progress).used p = w.used p := by
  rw [Shells.used, Shells.used, Shells.setProgress, countP_set h, countP_of_getElem? h, hwaiting,
    hsame]
  rfl

omit [DecidableEq U] in
/-- The session counts instead of its reservation. -/
theorem used_add (h : w.openings[k]? = some o) (hwaiting : o.waiting = true) :
    (w.add k o).used p = w.used p := by
  rw [Shells.used, Shells.used, Shells.add, Shells.setProgress, List.countP_append, countP_set h,
    countP_of_getElem? h, hwaiting, List.countP_singleton]
  show _ + (if (true && p o.user) = true then 1 else 0) +
    (_ + if (false && p o.user) = true then 1 else 0) = _
  rw [Bool.true_and, Bool.false_and]
  simp only [Bool.false_eq_true, if_false]
  omega

theorem used_giveBack (h : w.openings[k]? = some o) : (w.giveBack k o).used p ≤ w.used p := by
  rw [Shells.used, Shells.used, countP_of_getElem? (l := w.openings) h]
  exact Nat.add_le_add_left (Nat.le_add_right _ _) _

variable {f : Finish}

omit [DecidableEq U] in
/-- A session that changes without being unfinished again. -/
theorem used_setSession {s s' : Session U} (h : w.sessions[f.session]? = some s)
    (huser : s'.user = s.user) (hfinished : s.finished = true → s'.finished = true) :
    (w.setSession f s').used p ≤ w.used p := by
  rw [Shells.used, Shells.used, Shells.setSession, countP_set h, countP_of_getElem? h, huser]
  have hless : (if (!s'.finished && p s.user) = true then 1 else 0) ≤
      if (!s.finished && p s.user) = true then 1 else 0 := by
    cases hs : s.finished with
    | true => rw [hfinished hs]
    | false =>
      cases s'.finished with
      | true => exact Nat.zero_le _
      | false => exact Nat.le_refl _
  exact Nat.add_le_add_right (Nat.add_le_add_left hless _) _

/-! ## 3. Every step keeps the invariant -/

theorem Inv.empty : Inv (Shells.empty : Shells U) where
  known := fun _ hs => absurd hs List.not_mem_nil
  reserved := .refl _
  numbers := .refl _
  total := Nat.zero_le _
  account := fun _ => Nat.zero_le _
  ended := fun _ hf => absurd hf List.not_mem_nil
  recorded := fun _ hi => absurd hi List.not_mem_nil
  once := fun _ _ hs => absurd hs (by simp [Shells.empty])

/-- A place is free: one more is still within both limits. -/
theorem Inv.reserve {user : U} (hi : Inv w) (hfull : ¬ w.Full user) : Inv (w.reserve user) := by
  obtain ⟨htotal, haccount⟩ := not_or.mp hfull
  refine ⟨hi.known, hi.reserved.cons user, ?_, ?_, fun u => ?_, hi.ended, hi.recorded, hi.once⟩
  · show (w.made :: (w.openings.map (·.number) ++ w.givenBack)).Perm (List.range (w.made + 1))
    rw [List.range_succ]
    exact (hi.numbers.cons w.made).trans (List.perm_append_singleton _ _).symm
  · have hused := hi.used_le (p := fun _ => true)
    simp only [Bool.and_true, List.countP_true] at hused
    rw [used_reserve, if_pos rfl]
    exact (Nat.add_le_add_right hused 1).trans (Nat.lt_of_not_le htotal)
  · rw [used_reserve]
    by_cases hu : user = u
    · obtain rfl := hu
      have hused := hi.used_le (p := (· == user))
      rw [if_pos (beq_self_eq_true user)]
      rw [List.count] at haccount
      omega
    · rw [if_neg (by simpa using hu)]
      exact hi.account u

omit [DecidableEq U] in
theorem users_setProgress (h : w.openings[k]? = some o) :
    (w.setProgress k o progress).openings.map (·.user) = w.openings.map (·.user) :=
  Runs.map_set_same h rfl

omit [DecidableEq U] in
theorem numbers_setProgress (h : w.openings[k]? = some o) :
    (w.setProgress k o progress).openings.map (·.number) = w.openings.map (·.number) :=
  Runs.map_set_same h rfl

section

variable (hi : Inv w)

include hi

/-- Nothing but the progress of an opening. -/
theorem Inv.setProgress (h : w.openings[k]? = some o)
    (hused : ∀ p, (w.setProgress k o progress).used p = w.used p) :
    Inv (w.setProgress k o progress) := by
  refine ⟨hi.known, ?_, ?_, (hused _).trans_le hi.total, fun u => (hused _).trans_le (hi.account u),
    hi.ended, hi.recorded, hi.once⟩
  · rw [users_setProgress h]
    exact hi.reserved
  · rw [numbers_setProgress h]
    exact hi.numbers

theorem Inv.add (h : w.openings[k]? = some o) (hwaiting : o.waiting = true) : Inv (w.add k o) := by
  have hlength : (w.add k o).sessions.length = w.sessions.length + 1 := by
    simp [Shells.add]
  refine ⟨fun s hs hfinished => ?_, ?_, ?_, (used_add h hwaiting).trans_le hi.total,
    fun u => (used_add h hwaiting).trans_le (hi.account u),
    fun f hf => hlength ▸ Nat.lt_succ_of_lt (hi.ended f hf),
    fun i hrecorded => hlength ▸ Nat.lt_succ_of_lt (hi.recorded i hrecorded), fun i s hs => ?_⟩
  · rcases List.mem_append.mp hs with hold | hnew
    · exact hi.known s hold hfinished
    · rw [List.mem_singleton.mp hnew]
  · show w.reserved.Perm ((w.setProgress k o .added).openings.map (·.user))
    rw [users_setProgress h]
    exact hi.reserved
  · show ((w.setProgress k o .added).openings.map (·.number) ++ w.givenBack).Perm (List.range w.made)
    rw [numbers_setProgress h]
    exact hi.numbers
  · rcases Nat.lt_or_ge i w.sessions.length with hlt | hge
    · rw [Shells.add, List.getElem?_append_left hlt] at hs
      exact hi.once i s hs
    · -- nobody has heard of the new session
      rw [Shells.add, List.getElem?_append_right hge, List.getElem?_singleton] at hs
      obtain ⟨-, ⟨⟩⟩ := Option.ite_none_right_eq_some.mp hs
      have hrecorded : w.recorded.count i = 0 :=
        List.count_eq_zero.mpr fun hmem => absurd (hi.recorded i hmem) (Nat.not_lt.mpr hge)
      have hwon : w.finishes.countP (·.won i) = 0 := by
        refine List.countP_eq_zero.mpr fun f hf hwon => ?_
        have hsession : f.session = i := eq_of_beq (Bool.and_eq_true_iff.mp hwon).1
        exact absurd (hsession ▸ hi.ended f hf) (Nat.not_lt.mpr hge)
      exact (congrArg₂ (· + ·) hrecorded hwon).trans rfl

theorem Inv.giveBack (h : w.openings[k]? = some o) : Inv (w.giveBack k o) := by
  have hperm := perm_of_getElem? h
  refine ⟨hi.known, ?_, ?_, (used_giveBack h).trans hi.total,
    fun u => (used_giveBack h).trans (hi.account u), hi.ended, hi.recorded, hi.once⟩
  · have hreserved := (hi.reserved.trans (hperm.map (·.user))).erase o.user
    rwa [List.map_cons, List.erase_cons_head] at hreserved
  · have hmoved : ((w.openings.eraseIdx k).map (·.number) ++ o.number :: w.givenBack).Perm
        ((o :: w.openings.eraseIdx k).map (·.number) ++ w.givenBack) := List.perm_middle
    exact hmoved.trans (((hperm.map (·.number)).symm.append_right w.givenBack).trans hi.numbers)

/-- Nothing but the calls of `finish`, none of which finds a session unfinished. -/
theorem Inv.finishes {fs : List Finish} {rs : List Nat}
    (hended : ∀ f ∈ fs, f.session < w.sessions.length) (hrecorded : ∀ i ∈ rs, i < w.sessions.length)
    (hends : ∀ i, rs.count i + fs.countP (·.won i) = w.ends i) :
    Inv { w with finishes := fs, recorded := rs } :=
  ⟨hi.known, hi.reserved, hi.numbers, hi.total, hi.account, hended, hrecorded,
    fun i s hs => (hends i).trans (hi.once i s hs)⟩

/-- Only a session that is finished was found unfinished by a call of `finish`. -/
theorem Inv.finished_of_won {s : Session U} (hf : w.finishes[k]? = some f)
    (hs : w.sessions[f.session]? = some s) (hwon : f.won f.session = true) : s.finished = true := by
  have hpositive : 0 < w.finishes.countP (·.won f.session) :=
    List.countP_pos_iff.mpr ⟨f, List.mem_of_getElem? hf, hwon⟩
  have honce := hi.once _ s hs
  rw [Shells.ends] at honce
  by_contra hopen
  rw [if_neg hopen] at honce
  omega

/-- A session, and the turn of the call of `finish` that changes it. -/
theorem Inv.update {s s' : Session U} {turn : Turn}
    (hf : w.finishes[k]? = some f) (hs : w.sessions[f.session]? = some s)
    (huser : s'.user = s.user) (hfinished : s'.finished = true) (hturn : turn ≠ .testing)
    (hfirst : f.turn = .testing ↔ s.finished = false) :
    Inv ((w.setSession f s').setTurn k f turn) := by
  have hlength : (w.sessions.set f.session s').length = w.sessions.length := List.length_set
  have hsession := hi.ended f (List.mem_of_getElem? hf)
  have hused : ∀ p, ((w.setSession f s').setTurn k f turn).used p ≤ w.used p :=
    fun p => used_setSession hs huser fun _ => hfinished
  refine ⟨fun t ht hopen => ?_, hi.reserved, hi.numbers, (hused _).trans hi.total,
    fun u => (hused _).trans (hi.account u), fun g hg => ?_,
    fun i hrecorded => hlength.symm ▸ hi.recorded i hrecorded, fun i t ht => ?_⟩
  · rcases List.mem_or_eq_of_mem_set ht with hold | rfl
    · exact hi.known t hold hopen
    · simp [hfinished] at hopen
  · refine hlength.symm ▸ ?_
    rcases List.mem_or_eq_of_mem_set hg with hold | rfl
    · exact hi.ended g hold
    · exact hsession
  · show w.recorded.count i + (w.finishes.set k { f with turn := turn }).countP (·.won i) = _
    have hafter : (w.finishes.set k { f with turn := turn }).countP (·.won i) =
        (w.finishes.eraseIdx k).countP (·.won i) + if f.session = i then 1 else 0 := by
      rw [countP_set hf]
      simp [Finish.won, hturn]
    have hbefore : w.finishes.countP (·.won i) =
        (w.finishes.eraseIdx k).countP (·.won i) +
          if f.session = i ∧ f.turn ≠ .testing then 1 else 0 := by
      rw [countP_of_getElem? hf]
      simp [Finish.won]
    by_cases hsame : f.session = i
    · obtain rfl := hsame
      have honce : w.recorded.count f.session + w.finishes.countP (·.won f.session) = _ :=
        hi.once _ s hs
      obtain rfl : s' = t := by
        rw [Shells.setTurn, Shells.setSession, List.getElem?_set_self hsession] at ht
        exact Option.some.inj ht
      rw [hafter, if_pos rfl, if_pos hfinished]
      -- either it is the call that has just found it unfinished, or it was counted before
      rcases Bool.eq_false_or_eq_true s.finished with hdone | hopen
      · have hwon : f.turn ≠ .testing := fun h => by simp [hfirst.mp h] at hdone
        rwa [hbefore, if_pos ⟨rfl, hwon⟩, if_pos hdone] at honce
      · rw [hbefore, if_neg fun h => h.2 (hfirst.mpr hopen), hopen] at honce
        simp only [Bool.false_eq_true, if_false] at honce
        omega
    · have ht' : w.sessions[i]? = some t := by
        rwa [Shells.setTurn, Shells.setSession, List.getElem?_set_ne hsame] at ht
      rw [hafter, if_neg hsame, ← hi.once i t ht', Shells.ends, hbefore, if_neg fun h => hsame h.1]

theorem Inv.act {s : Session U} (hf : w.finishes[k]? = some f)
    (hs : w.sessions[f.session]? = some s) : Inv (w.act k f s) := by
  have hsub : ∀ g ∈ w.finishes.eraseIdx k, g.session < w.sessions.length :=
    fun g hg => hi.ended g (List.mem_of_mem_eraseIdx hg)
  have hcount : ∀ i, w.finishes.countP (·.won i) =
      (w.finishes.eraseIdx k).countP (·.won i) + if f.won i = true then 1 else 0 :=
    fun i => countP_of_getElem? hf
  unfold Shells.act
  cases hturn : f.turn with
  | testing =>
    rcases Bool.eq_false_or_eq_true s.finished with hdone | hopen
    · simp only [hdone, if_true]
      refine hi.finishes hsub hi.recorded fun i => ?_
      rw [Shells.ends, hcount i, if_neg (by simp [Finish.won, hturn]), Nat.add_zero]
    · simp only [hopen, Bool.false_eq_true, if_false]
      exact hi.update hf hs rfl rfl nofun (by simp [hturn, hopen])
  | forgetting =>
    have hdone := hi.finished_of_won hf hs (by simp [Finish.won, hturn])
    exact hi.update hf hs rfl hdone nofun (by simp [hturn, hdone])
  | recording =>
    refine hi.finishes hsub (fun i h => ?_) fun i => ?_
    · rcases List.mem_cons.mp h with rfl | hold
      · exact hi.ended f (List.mem_of_getElem? hf)
      · exact hi.recorded i hold
    · rw [Shells.ends, hcount i, List.count_cons]
      have hwon : f.won i = (f.session == i) := by simp [Finish.won, hturn]
      rw [hwon]
      omega

/-- **Every step keeps the invariant.** -/
theorem Inv.step (h : step w a = some w') : Inv w' := by
  cases a with
  | reserve user =>
    cases h
    split
    · exact hi
    · next hfull => exact hi.reserve hfull
  | fail k =>
    obtain ⟨o, ho, h⟩ := Option.bind_eq_some_iff.mp h
    obtain ⟨hconnecting, ⟨⟩⟩ := Option.ite_none_right_eq_some.mp h
    exact hi.setProgress ho fun p => used_setProgress ho rfl (by simp [Opening.waiting, hconnecting])
  | add k =>
    obtain ⟨o, ho, h⟩ := Option.bind_eq_some_iff.mp h
    obtain ⟨hconnecting, ⟨⟩⟩ := Option.ite_none_right_eq_some.mp h
    exact hi.add ho (by simp [Opening.waiting, hconnecting])
  | giveBack k =>
    obtain ⟨o, ho, h⟩ := Option.bind_eq_some_iff.mp h
    obtain ⟨-, ⟨⟩⟩ := Option.ite_none_left_eq_some.mp h
    exact hi.giveBack ho
  | finish session =>
    obtain ⟨hsession, ⟨⟩⟩ := Option.ite_none_right_eq_some.mp h
    refine hi.finishes (fun f hf => ?_) hi.recorded fun i => ?_
    · rcases List.mem_cons.mp hf with rfl | hold
      · exact hsession
      · exact hi.ended f hold
    · rw [Shells.ends, List.countP_cons, if_neg (by simp [Finish.won])]
      rfl
  | advance k =>
    obtain ⟨f, hf, h⟩ := Option.bind_eq_some_iff.mp h
    obtain ⟨s, hs, rfl⟩ := Option.map_eq_some_iff.mp h
    exact hi.act hf hs

end

/-! ## 4. A session that `finish` was called for -/

/-- It is finished, or a call for it is still in front of `if session.finished`. -/
def Shells.Settled (w : Shells U) (i : Nat) : Prop :=
  (∃ s, w.sessions[i]? = some s ∧ s.finished = true) ∨
    ∃ f ∈ w.finishes, f.session = i ∧ f.turn = .testing

omit [DecidableEq U] in
/-- Every call but the `k`th is still there, and so is every finished session. -/
theorem Shells.Settled.of_others {i : Nat} (hsettled : w.Settled i) (hf : w.finishes[k]? = some f)
    (hsessions : ∀ s, w.sessions[i]? = some s → s.finished = true →
      ∃ t, w'.sessions[i]? = some t ∧ t.finished = true)
    (hothers : ∀ g ∈ w.finishes.eraseIdx k, g ∈ w'.finishes)
    (hown : f.session = i → f.turn = .testing → w'.Settled i) : w'.Settled i := by
  rcases hsettled with ⟨s, hs, hdone⟩ | ⟨g, hg, hsession, hturn⟩
  · exact Or.inl (hsessions s hs hdone)
  · rcases List.mem_cons.mp ((perm_of_getElem? hf).mem_iff.mp hg) with rfl | hrest
    · exact hown hsession hturn
    · exact Or.inr ⟨g, hothers g hrest, hsession, hturn⟩

omit [DecidableEq U] in
theorem Shells.Settled.act {s : Session U} {i : Nat} (hsettled : w.Settled i)
    (hf : w.finishes[k]? = some f) (hs : w.sessions[f.session]? = some s) :
    (w.act k f s).Settled i := by
  have hset : ∀ s' : Session U, (s.finished = true → s'.finished = true) → ∀ t,
      w.sessions[i]? = some t → t.finished = true →
        ∃ t', (w.sessions.set f.session s')[i]? = some t' ∧ t'.finished = true := by
    intro s' hkeep t ht hdone
    by_cases hsame : f.session = i
    · obtain rfl := hsame
      obtain rfl := Option.some.inj (hs.symm.trans ht)
      obtain ⟨hi, -⟩ := List.getElem?_eq_some_iff.mp ht
      exact ⟨s', List.getElem?_set_self hi, hkeep hdone⟩
    · exact ⟨t, by rwa [List.getElem?_set_ne hsame], hdone⟩
  have hothers : ∀ (turn : Turn), ∀ g ∈ w.finishes.eraseIdx k,
      g ∈ w.finishes.set k { f with turn := turn } :=
    fun turn g hg => (set_perm hf).mem_iff.mpr (List.mem_cons_of_mem _ hg)
  unfold Shells.act
  cases hturn : f.turn with
  | testing =>
    rcases Bool.eq_false_or_eq_true s.finished with hdone | hopen
    · simp only [hdone, if_true]
      exact hsettled.of_others hf (fun t ht h => ⟨t, ht, h⟩) (fun g hg => hg)
        fun hsession _ => Or.inl ⟨s, hsession ▸ hs, hdone⟩
    · simp only [hopen, Bool.false_eq_true, if_false]
      refine hsettled.of_others hf (hset _ fun _ => rfl) (hothers _) fun hsession _ => Or.inl ?_
      obtain ⟨hi, -⟩ := List.getElem?_eq_some_iff.mp hs
      exact ⟨{ s with finished := true }, hsession ▸ List.getElem?_set_self hi, rfl⟩
  | forgetting =>
    exact hsettled.of_others hf (hset { s with known := false } id) (hothers _)
      fun _ h => nomatch h.symm.trans hturn
  | recording =>
    exact hsettled.of_others hf (fun t ht h => ⟨t, ht, h⟩) (fun g hg => hg)
      fun _ h => nomatch h.symm.trans hturn

theorem Shells.Settled.step {i : Nat} (hsettled : w.Settled i) (h : step w a = some w') :
    w'.Settled i := by
  cases a with
  | reserve user =>
    cases h
    split
    · exact hsettled
    · exact hsettled
  | fail k =>
    obtain ⟨o, ho, h⟩ := Option.bind_eq_some_iff.mp h
    obtain ⟨-, ⟨⟩⟩ := Option.ite_none_right_eq_some.mp h
    exact hsettled
  | add k =>
    obtain ⟨o, ho, h⟩ := Option.bind_eq_some_iff.mp h
    obtain ⟨-, ⟨⟩⟩ := Option.ite_none_right_eq_some.mp h
    refine hsettled.imp_left fun ⟨s, hs, hdone⟩ => ⟨s, ?_, hdone⟩
    obtain ⟨hi, -⟩ := List.getElem?_eq_some_iff.mp hs
    rwa [Shells.add, List.getElem?_append_left hi]
  | giveBack k =>
    obtain ⟨o, ho, h⟩ := Option.bind_eq_some_iff.mp h
    obtain ⟨-, ⟨⟩⟩ := Option.ite_none_left_eq_some.mp h
    exact hsettled
  | finish session =>
    obtain ⟨hsession, ⟨⟩⟩ := Option.ite_none_right_eq_some.mp h
    exact hsettled.imp_right fun ⟨f, hf, h⟩ => ⟨f, List.mem_cons_of_mem _ hf, h⟩
  | advance k =>
    obtain ⟨f, hf, h⟩ := Option.bind_eq_some_iff.mp h
    obtain ⟨s, hs, rfl⟩ := Option.map_eq_some_iff.mp h
    exact hsettled.act hf hs

/-- **Whoever calls `finish`, and however often**: from the first call on. -/
theorem settled_of_finish {as : List (Action U)} {i : Nat} (h : Runs.run step w as = some w')
    (hcalled : .finish i ∈ as) : w'.Settled i := by
  obtain ⟨before, after, rfl⟩ := List.append_of_mem hcalled
  obtain ⟨v, -, h⟩ := Runs.run_append_eq_some.mp h
  obtain ⟨x, hx, hrest⟩ := Runs.run_cons_eq_some.mp h
  obtain ⟨-, ⟨⟩⟩ := Option.ite_none_right_eq_some.mp hx
  exact Runs.run_invariant (I := (·.Settled i)) (fun _ _ _ hstep hsettled => hsettled.step hstep) hrest
    (Or.inr ⟨_, List.mem_cons_self, rfl, rfl⟩)

/-- **The places of the terminals**, in any order of openings that succeed or fail and of calls of
    `finish`: unfinished sessions and reservations whose session is not added stay within the limit
    and within each account's; of the reservations made, each is held by its opening or was given
    back, once; and the end of a session is recorded at most once, not before it is finished, and has
    been once `finish` was called for it and no call is still at work. -/
theorem capacity_kept {as : List (Action U)} (h : Runs.run step .empty as = some w) :
    (w.used (fun _ => true) ≤ maxSessions ∧ ∀ u, w.used (· == u) ≤ maxPerAccount) ∧
      ((w.openings.map (·.number) ++ w.givenBack).Perm (List.range w.made) ∧
        w.reserved.Perm (w.openings.map (·.user))) ∧
      ∀ i s, w.sessions[i]? = some s → w.recorded.count i ≤ 1 ∧
        (s.finished = false → w.recorded.count i = 0) ∧
        (.finish i ∈ as → (∀ f ∈ w.finishes, f.session ≠ i) → w.recorded.count i = 1) := by
  have hi : Inv w := Runs.run_invariant (fun _ _ _ hstep hi => Inv.step hi hstep) h Inv.empty
  refine ⟨⟨hi.total, hi.account⟩, ⟨hi.numbers, hi.reserved⟩, fun i s hs => ?_⟩
  have honce : w.recorded.count i + w.finishes.countP (·.won i) = _ := hi.once i s hs
  refine ⟨?_, fun hopen => ?_, fun hcalled hnone => ?_⟩
  · split at honce <;> omega
  · rw [hopen] at honce
    simp at honce
    exact honce.1
  · have hdone : s.finished = true := by
      rcases settled_of_finish h hcalled with ⟨t, ht, hdone⟩ | ⟨f, hf, hsession, -⟩
      · exact Option.some.inj (ht.symm.trans hs) ▸ hdone
      · exact absurd hsession (hnone f hf)
    have hidle : w.finishes.countP (·.won i) = 0 :=
      List.countP_eq_zero.mpr fun f hf hwon =>
        hnone f hf (eq_of_beq (Bool.and_eq_true_iff.mp hwon).1)
    rwa [hidle, hdone] at honce

end Steps

/-- Two accounts: the first opens two terminals and is refused a third; one is closed while a sweep
    finishes it too, and its place is free again; the opening of the second account fails. -/
theorem capacity_kept_swept :
    ∃ w, Runs.run step (.empty : Shells Nat) [.reserve 7, .add 0, .giveBack 0, .reserve 7, .reserve 7,
        .add 0, .giveBack 0, .reserve 8, .finish 0, .finish 0, .advance 1, .reserve 7, .fail 1,
        .advance 0, .giveBack 1, .advance 0, .advance 0] = some w ∧
      w.made = 4 ∧ w.recorded = [0] ∧ w.used (· == 7) ≤ 2 ∧ w.givenBack.Nodup := by
  have hrun : (Runs.run step (.empty : Shells Nat) [.reserve 7, .add 0, .giveBack 0, .reserve 7,
      .reserve 7, .add 0, .giveBack 0, .reserve 8, .finish 0, .finish 0, .advance 1, .reserve 7,
      .fail 1,
      .advance 0, .giveBack 1, .advance 0, .advance 0]).map (fun w => (w.made, w.recorded)) =
        some (4, [0]) := by
    decide +kernel
  obtain ⟨w, hw, hboth⟩ := Option.map_eq_some_iff.mp hrun
  obtain ⟨hmade, hrecorded⟩ := Prod.mk.inj hboth
  obtain ⟨⟨-, haccount⟩, ⟨hnumbers, -⟩, -⟩ := capacity_kept hw
  have hnodup := hnumbers.nodup_iff.mpr List.nodup_range
  exact ⟨w, hw, hmade, hrecorded, haccount 7, (List.nodup_append.mp hnodup).2.1⟩

end Dbs.Shell.Capacity

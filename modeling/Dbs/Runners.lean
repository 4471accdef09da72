/-
  File:      Dbs/Runners.lean
  Subject:   ONE BACKUP OR RESTORE AT A TIME (jobs.py, Runner and Job.tracked): a runner takes the
             runner lease, the work begins here or in a child process, the heartbeat renews while it
             is tracked, the retention follows.

  * `Runner`, `Stage` -- how far a runner is; `step` -- any number of them among the calls on leases;
  * `timely` -- the lease has not run out when the work begins, nor while it goes on, and nobody gives
    it back under it;
  * `Exclusive` -- the invariant: whoever works holds the lease; `one_at_a_time` -- then one works at
    most; `work_overtaken` -- a runner that begins its work when the lease has been taken over.
-/
import Dbs.Leases

namespace Dbs.Runners

open Leases Runs

/-! ## 1. Runners -/

/-- The name of the lease. -/
def runnerLease : String := "dbs.runner"

/-- How long it is granted for. -/
def leaseSeconds : Int := 120

/-- Where a runner is. -/
inductive Stage
  /-- The acquire is under way. -/
  | taking
  /-- The lease is taken; the event is recorded, the job is handed to its process. -/
  | held
  /-- Inside `Job.tracked`, where the heartbeat is active. -/
  | tracked
  /-- In the retention behind it. -/
  | retaining
  /-- Refused, given back, or killed. -/
  | over
deriving DecidableEq

/-- A process that runs schedules. -/
structure Runner where
  owner : Owner
  stage : Stage

/-- In the working part of its run. -/
def Runner.works (r : Runner) : Bool := r.stage = .tracked || r.stage = .retaining

/-- The leases and the runners. -/
structure World where
  leases : Leases.World
  runners : List Runner

/-- Nobody runs. -/
def World.start (clock : Time) : World := ⟨.start clock, []⟩

/-- What may happen next. -/
inductive Action
  | take (owner : Owner)
  | lease (a : Leases.Action)
  | enter (owner : Owner)
  | beat (owner : Owner)
  | leave (owner : Owner)
  /-- `runner.release()`, of a runner that does not work. -/
  | release (owner : Owner)
  /-- The same by the process that handed the work over, while the work goes on. -/
  | abandon (owner : Owner)
  | kill (owner : Owner)

/-- The stage of a runner is changed. -/
def move (owner : Owner) (f : Stage → Stage) (rs : List Runner) : List Runner :=
  rs.map fun r => if r.owner = owner then { r with stage := f r.stage } else r

/-- A runner of this owner is there. -/
def World.at (w : World) (owner : Owner) (stages : List Stage) : Bool :=
  w.runners.any fun r => r.owner = owner && stages.contains r.stage

/-- A call on the runner lease. -/
def World.call (w : World) (owner : Owner) (request : Request) : World :=
  { w with leases := { w.leases with
      calls := ⟨runnerLease, owner, request, w.leases.clock, false⟩ :: w.leases.calls } }

/-- What the end of a call tells its runner: an acquire took the lease or did not. -/
def afterFinish (c : Leases.Call) (granted : Bool) (rs : List Runner) : List Runner :=
  match c.request with
  | .acquire _ =>
    if c.name = runnerLease then
      move c.owner (fun s => if s = .taking then (if granted then .held else .over) else s) rs
    else rs
  | _ => rs

/-- One statement. -/
def step (w : World) : Action → Option World
  | .take owner =>
    if w.runners.any (fun r => r.owner = owner) then none
    else some { w.call owner (.acquire leaseSeconds) with runners := ⟨owner, .taking⟩ :: w.runners }
  | .lease (.call name owner request) =>
    if name = runnerLease then none
    else (Leases.step w.leases (.call name owner request)).map fun leases => { w with leases }
  | .lease (.finish c) =>
    (Leases.step w.leases (.finish c)).map fun leases =>
      ⟨leases, afterFinish c (leases.log.length ≠ w.leases.log.length) w.runners⟩
  | .lease a => (Leases.step w.leases a).map fun leases => { w with leases }
  | .enter owner =>
    if w.at owner [.held] then
      some { w with runners := move owner (fun s => if s = .held then .tracked else s) w.runners }
    else none
  | .beat owner =>
    if w.at owner [.tracked] then some (w.call owner (.renew leaseSeconds)) else none
  | .leave owner =>
    if w.at owner [.tracked] then
      some { w with runners := move owner (fun s => if s = .tracked then .retaining else s) w.runners }
    else none
  | .release owner =>
    if w.at owner [.held, .tracked, .retaining, .over] then
      some { w.call owner .release with runners := move owner (fun _ => .over) w.runners }
    else none
  | .abandon owner =>
    if w.at owner [.held, .tracked, .retaining] then some (w.call owner .release) else none
  | .kill owner => some { w with runners := move owner (fun _ => .over) w.runners }

/-! ## 2. The condition -/

/-- The lease was granted to the owner until a moment that is not before this one. -/
def holdsUntil (w : Leases.World) (owner : Owner) (moment : Time) : Bool :=
  (lastGrant w.log runnerLease owner).any fun e => decide (moment < e)

/-- **In time**: the work begins before the lease has run out, and while it goes on the next renewal
    or its end comes before that; the lease is not given back under it. -/
def timely (w : World) : Action → Bool
  | .enter owner => holdsUntil w.leases owner w.leases.clock
  | .lease (.tick passed) =>
    w.runners.all fun r => !r.works || holdsUntil w.leases r.owner (w.leases.clock + passed)
  | .lease (.finish c) =>
    match c.request with
    | .renew ttl => decide (w.leases.clock < c.now + seconds ttl)
    | _ => true
  | .abandon _ => false
  | _ => true

/-! ## 3. Whoever works holds the lease -/

variable {w w' : World} {v v' : Leases.World} {c : Leases.Call} {r s : Runner} {owner : Owner}
    {a : Action}

theorem holdsUntil_iff : holdsUntil v owner v.clock = true ↔ Holds v runnerLease owner := by
  unfold holdsUntil Holds
  rw [Option.any_eq_true]
  simp only [decide_eq_true_eq]

/-- Two owners do not hold one lease. -/
theorem holds_unique (hc : Consistent v) {name : String} {x y : Owner} (hx : Holds v name x)
    (hy : Holds v name y) : x = y := by
  obtain ⟨e, hg, he⟩ := hx
  obtain ⟨e', hg', he'⟩ := hy
  have h1 := (hc.lapsed name x e hg).resolve_right (Int.not_le.mpr he)
  have h2 := (hc.lapsed name y e' hg').resolve_right (Int.not_le.mpr he')
  exact (Prod.mk.inj (Option.some.inj (h1.symm.trans h2))).1

/-- What the statement of another owner, or of a renewal in time, leaves. -/
theorem holds_finish {name : String} (h : Leases.step v (.finish c) = some v')
    (hholds : Holds v name owner)
    (hc : c.name = name → c.owner = owner →
      ∃ ttl, c.request = .renew ttl ∧ v.clock < c.now + seconds ttl) : Holds v' name owner := by
  obtain ⟨-, ⟨⟩⟩ := Option.ite_none_right_eq_some.mp h
  obtain ⟨e, hg, he⟩ := hholds
  by_cases hown : c.name = name ∧ c.owner = owner
  · obtain ⟨ttl, hrenew, hlate⟩ := hc hown.1 hown.2
    rcases c with ⟨cname, cowner, request, now, created⟩
    obtain rfl : request = .renew ttl := hrenew
    simp only [Leases.Call.statement]
    split
    · refine ⟨now + seconds ttl, ?_, hlate⟩
      show lastGrant (.granted cname cowner _ _ :: v.log) name owner = _
      rw [lastGrant, if_pos hown]
    · exact ⟨e, hg, he⟩
  · have hother : ∀ x log, lastGrant (.granted c.name c.owner x v.clock :: log) name owner =
        lastGrant log name owner := fun x log => by rw [lastGrant, if_neg hown]
    have hback : ∀ log, lastGrant (.released c.name c.owner :: log) name owner =
        lastGrant log name owner := fun log => by rw [lastGrant, if_neg hown]
    refine ⟨e, ?_, he⟩
    rcases c with ⟨cname, cowner, request, now, created⟩
    cases request with
    | acquire _ | renew _ =>
      simp only [Leases.Call.statement]
      split
      · exact (hother _ _).trans hg
      · exact hg
    | release | drop =>
      simp only [Leases.Call.statement]
      split
      · exact (hback _).trans hg
      · exact hg

/-- An acquire of the runner lease. -/
def acquireOf (owner : Owner) (c : Leases.Call) : Bool :=
  c.name = runnerLease && c.owner = owner &&
    match c.request with
    | .acquire _ => true
    | _ => false

/-- A call that is no renewal is one of a runner that does not work. -/
def Idle (rs : List Runner) (c : Leases.Call) : Prop :=
  (∃ ttl, c.request = .renew ttl) ∨ ∃ r ∈ rs, r.owner = c.owner ∧
    (r.stage = .over ∨ r.stage = .taking ∧ acquireOf r.owner c = true)

/-- **The invariant.** -/
structure Exclusive (w : World) : Prop where
  leases : Consistent w.leases
  owners : (w.runners.map Runner.owner).Nodup
  holds : ∀ r ∈ w.runners, r.works = true → Holds w.leases runnerLease r.owner
  calls : ∀ c ∈ w.leases.calls, c.name = runnerLease → Idle w.runners c
  acquires : ∀ owner, w.leases.calls.countP (acquireOf owner) ≤ 1
  known : ∀ c ∈ w.leases.calls, c.name = runnerLease → ∃ r ∈ w.runners, r.owner = c.owner

theorem exclusive_start (clock : Time) : Exclusive (World.start clock) where
  leases := consistent_start clock
  owners := List.nodup_nil
  holds := fun _ h => (List.not_mem_nil h).elim
  calls := fun _ h => (List.not_mem_nil h).elim
  acquires := fun _ => Nat.zero_le 1
  known := fun _ h => (List.not_mem_nil h).elim

variable {f : Stage → Stage} {rs : List Runner}

theorem mem_move (h : s ∈ move owner f rs) :
    ∃ r ∈ rs, s = if r.owner = owner then { r with stage := f r.stage } else r := by
  obtain ⟨r, hr, rfl⟩ := List.mem_map.mp h
  exact ⟨r, hr, rfl⟩

theorem move_owners (owner : Owner) (f : Stage → Stage) (rs : List Runner) :
    (move owner f rs).map Runner.owner = rs.map Runner.owner := by
  rw [move, List.map_map]
  refine List.map_congr_left fun r _ => ?_
  show (if r.owner = owner then { r with stage := f r.stage } else r).owner = r.owner
  split <;> rfl

/-- A change that leaves `over`, and `taking` to whoever has an acquire under way. -/
theorem Idle.move (h : Idle rs c) (hover : f .over = .over)
    (htaking : acquireOf owner c = true → f .taking = .taking ∨ f .taking = .over) :
    Idle (move owner f rs) c := by
  rcases h with h | ⟨r, hr, howner, hstage⟩
  · exact .inl h
  · refine .inr ⟨_, List.mem_map_of_mem hr, ?_, ?_⟩
    · split <;> exact howner
    · by_cases ho : r.owner = owner
      · simp only [if_pos ho]
        rcases hstage with hstage | ⟨hstage, hacquire⟩
        · rw [hstage, hover]
          exact .inl rfl
        · rw [hstage]
          rcases htaking (ho ▸ hacquire) with h | h
          · rw [h]
            exact .inr ⟨rfl, hacquire⟩
          · rw [h]
            exact .inl rfl
      · simp only [if_neg ho]
        exact hstage

/-! ## 4. Every step -/

/-- How often a call stands among those that are left, and among them and itself. -/
theorem countP_erase_add {calls : List Leases.Call} (hc : c ∈ calls) (p : Leases.Call → Bool) :
    calls.countP p = (calls.erase c).countP p + if p c then 1 else 0 := by
  rw [(List.perm_cons_erase hc).countP_eq p, List.countP_cons]

theorem works_of_mem_move
    (hf : ∀ s, (f s = .tracked ∨ f s = .retaining) → s = .tracked ∨ s = .retaining)
    (h : s ∈ move owner f rs) (hw : s.works = true) :
    ∃ r ∈ rs, r.owner = s.owner ∧ r.works = true := by
  obtain ⟨r, hr, rfl⟩ := mem_move h
  refine ⟨r, hr, ?_, ?_⟩
  · split <;> rfl
  · by_cases ho : r.owner = owner
    · simp only [if_pos ho, Runner.works, Bool.or_eq_true, decide_eq_true_eq] at hw ⊢
      exact hf r.stage hw
    · simpa only [if_neg ho] using hw

theorem known_move {o : Owner} (h : ∃ r ∈ rs, r.owner = o) :
    ∃ r ∈ move owner f rs, r.owner = o := by
  obtain ⟨r, hr, ho⟩ := h
  refine ⟨_, List.mem_map_of_mem hr, ?_⟩
  split <;> exact ho

/-- A change of stages after which nobody works that did not work before. -/
theorem Exclusive.move (h : Exclusive w) (hover : f .over = .over)
    (htaking : f .taking = .taking ∨ f .taking = .over)
    (hf : ∀ s, (f s = .tracked ∨ f s = .retaining) → s = .tracked ∨ s = .retaining) :
    Exclusive { w with runners := Runners.move owner f w.runners } where
  __ := h
  owners := by
    rw [move_owners]
    exact h.owners
  holds := fun s hs hw => by
    obtain ⟨r, hr, ho, hworks⟩ := works_of_mem_move hf hs hw
    rw [← ho]
    exact h.holds r hr hworks
  calls := fun c hc hn => (h.calls c hc hn).move hover fun _ => htaking
  known := fun c hc hn => known_move (h.known c hc hn)

theorem mem_at {stages : List Stage} (h : w.at owner stages = true) :
    ∃ r ∈ w.runners, r.owner = owner ∧ r.stage ∈ stages := by
  obtain ⟨r, hr, h⟩ := List.any_eq_true.mp h
  obtain ⟨ho, hs⟩ := Bool.and_eq_true_iff.mp h
  exact ⟨r, hr, of_decide_eq_true ho, List.contains_iff_mem.mp hs⟩

section

variable (h : Exclusive w)

include h

/-- A call of a runner that is no acquire. -/
theorem Exclusive.call {request : Request} (hr : ∀ ttl, request ≠ .acquire ttl)
    (hidle : Idle w.runners ⟨runnerLease, owner, request, w.leases.clock, false⟩)
    (hknown : ∃ r ∈ w.runners, r.owner = owner) : Exclusive (w.call owner request) where
  leases := h.leases.step (a := .call runnerLease owner request) rfl
  owners := h.owners
  holds := h.holds
  calls := fun c hc hn => by
    rcases List.mem_cons.mp hc with rfl | hc
    · exact hidle
    · exact h.calls c hc hn
  acquires := fun o => by
    show List.countP _ (_ :: w.leases.calls) ≤ 1
    rw [List.countP_cons_of_neg]
    · exact h.acquires o
    · cases request with
      | acquire ttl => exact absurd rfl (hr ttl)
      | _ => simp [acquireOf]
  known := fun c hc hn => by
    rcases List.mem_cons.mp hc with rfl | hc
    · exact hknown
    · exact h.known c hc hn

/-- A runner that takes the lease is new, and so is its acquire. -/
theorem Exclusive.take (hfresh : ∀ r ∈ w.runners, r.owner ≠ owner) :
    Exclusive { w.call owner (.acquire leaseSeconds) with
      runners := ⟨owner, .taking⟩ :: w.runners } where
  leases := h.leases.step (a := .call runnerLease owner (.acquire leaseSeconds)) rfl
  owners := List.nodup_cons.mpr ⟨fun hm => by
    obtain ⟨r, hr, ho⟩ := List.mem_map.mp hm
    exact hfresh r hr ho, h.owners⟩
  holds := fun r hr hw => by
    rcases List.mem_cons.mp hr with rfl | hr
    · cases hw
    · exact h.holds r hr hw
  calls := fun c hc hn => by
    rcases List.mem_cons.mp hc with rfl | hc
    · exact .inr ⟨_, List.mem_cons_self, rfl, .inr ⟨rfl, by simp [acquireOf]⟩⟩
    · rcases h.calls c hc hn with hrenew | ⟨r, hr, hidle⟩
      · exact .inl hrenew
      · exact .inr ⟨r, List.mem_cons_of_mem _ hr, hidle⟩
  acquires := fun o => by
    show List.countP _ (_ :: w.leases.calls) ≤ 1
    by_cases ho : owner = o
    · have hnone : w.leases.calls.countP (acquireOf o) = 0 := by
        refine List.countP_eq_zero.mpr fun c hc hacquire => ?_
        simp only [acquireOf, Bool.and_eq_true, decide_eq_true_eq] at hacquire
        obtain ⟨r, hr, hro⟩ := h.known c hc hacquire.1.1
        exact hfresh r hr (hro.trans (hacquire.1.2.trans ho.symm))
      rw [List.countP_cons, hnone]
      split <;> omega
    · rw [List.countP_cons_of_neg]
      · exact h.acquires o
      · simp [acquireOf, ho]
  known := fun c hc hn => by
    rcases List.mem_cons.mp hc with rfl | hc
    · exact ⟨_, List.mem_cons_self, rfl⟩
    · obtain ⟨r, hr, ho⟩ := h.known c hc hn
      exact ⟨r, List.mem_cons_of_mem _ hr, ho⟩

/-- The time that passes. -/
theorem Exclusive.tick {passed : Nat} (hin : timely w (.lease (.tick passed)) = true) :
    Exclusive { w with leases := { w.leases with clock := w.leases.clock + passed } } where
  leases := h.leases.step (a := .tick passed) rfl
  owners := h.owners
  holds := fun r hr hw => by
    have hr := List.all_eq_true.mp hin r hr
    rw [hw] at hr
    exact holdsUntil_iff.mp hr
  calls := h.calls
  acquires := h.acquires
  known := h.known

/-- A call on another lease. -/
theorem Exclusive.other {name : String} {request : Request} (hn : name ≠ runnerLease) :
    Exclusive { w with leases := { w.leases with
      calls := ⟨name, owner, request, w.leases.clock, false⟩ :: w.leases.calls } } where
  leases := h.leases.step (a := .call name owner request) rfl
  owners := h.owners
  holds := h.holds
  calls := fun c hc hname => by
    rcases List.mem_cons.mp hc with rfl | hc
    · exact absurd hname hn
    · exact h.calls c hc hname
  acquires := fun o => by
    show List.countP _ (_ :: w.leases.calls) ≤ 1
    rw [List.countP_cons_of_neg]
    · exact h.acquires o
    · simp [acquireOf, hn]
  known := fun c hc hname => by
    rcases List.mem_cons.mp hc with rfl | hc
    · exact absurd hname hn
    · exact h.known c hc hname

/-- The row of an acquire is looked for, and made. -/
theorem Exclusive.create {table : List Lease} (hc : c ∈ w.leases.calls)
    (hleases : Consistent { w.leases with
      table, calls := { c with created := true } :: w.leases.calls.erase c }) :
    Exclusive { w with leases := { w.leases with
      table, calls := { c with created := true } :: w.leases.calls.erase c } } where
  __ := h
  leases := hleases
  calls := fun d hd hname => by
    rcases List.mem_cons.mp hd with rfl | hd
    · exact h.calls c hc hname
    · exact h.calls d (List.mem_of_mem_erase hd) hname
  acquires := fun o => by
    have hcount := countP_erase_add hc (acquireOf o)
    have hle := h.acquires o
    have hsame : acquireOf o { c with created := true } = acquireOf o c := rfl
    show List.countP _ (_ :: w.leases.calls.erase c) ≤ 1
    rw [List.countP_cons, hsame]
    omega
  known := fun d hd hname => by
    rcases List.mem_cons.mp hd with rfl | hd
    · exact h.known c hc hname
    · exact h.known d (List.mem_of_mem_erase hd) hname

/-- A call on the runner lease under the owner of one that works is a renewal. -/
theorem Exclusive.renews (hc : c ∈ w.leases.calls) (hn : c.name = runnerLease)
    (hr : r ∈ w.runners) (hw : r.works = true) (ho : c.owner = r.owner) :
    ∃ ttl, c.request = .renew ttl := by
  rcases h.calls c hc hn with hrenew | ⟨r', hr', ho', hstage⟩
  · exact hrenew
  · obtain rfl : r' = r := List.inj_on_of_nodup_map h.owners hr' hr (ho'.trans ho)
    rcases hstage with hstage | ⟨hstage, -⟩ <;> simp [Runner.works, hstage] at hw

/-- The acquire of an owner ends once. -/
theorem Exclusive.once (hc : c ∈ w.leases.calls)
    (ha : acquireOf owner c = true) {d : Leases.Call} (hd : d ∈ w.leases.calls.erase c) :
    acquireOf owner d = false := by
  have hcount := countP_erase_add hc (acquireOf owner)
  rw [if_pos ha] at hcount
  have hle := h.acquires owner
  have hzero : (w.leases.calls.erase c).countP (acquireOf owner) = 0 := by omega
  exact Bool.eq_false_iff.mpr (List.countP_eq_zero.mp hzero d hd)

/-- **The end of a call.** Whoever works keeps the lease. -/
theorem Exclusive.finish (hstep : Leases.step w.leases (.finish c) = some v)
    (hin : timely w (.lease (.finish c)) = true) (rs : List Runner)
    (hworks : ∀ s ∈ rs, s.works = true → ∃ r ∈ w.runners, r.owner = s.owner ∧ r.works = true)
    (howners : rs.map Runner.owner = w.runners.map Runner.owner)
    (hidle : ∀ d ∈ w.leases.calls.erase c, Idle w.runners d → Idle rs d) : Exclusive ⟨v, rs⟩ := by
  obtain ⟨⟨hc, hready⟩, hv⟩ := Option.ite_none_right_eq_some.mp hstep
  have hcalls : v.calls = w.leases.calls.erase c := by rw [← Option.some.inj hv]
  refine ⟨h.leases.step hstep, howners ▸ h.owners, fun s hs hw => ?_, fun d hd hn => ?_,
    fun o => ?_, fun d hd hn => ?_⟩
  · obtain ⟨r, hr, ho, hw⟩ := hworks s hs hw
    refine holds_finish hstep (ho ▸ h.holds r hr hw) fun hn hcs => ?_
    obtain ⟨ttl, hrenew⟩ := h.renews hc hn hr hw (hcs.trans ho.symm)
    simp only [timely, hrenew, decide_eq_true_eq] at hin
    exact ⟨ttl, hrenew, hin⟩
  · rw [hcalls] at hd
    exact hidle d hd (h.calls d (List.mem_of_mem_erase hd) hn)
  · have hcount := countP_erase_add hc (acquireOf o)
    have hle := h.acquires o
    rw [hcalls]
    omega
  · rw [hcalls] at hd
    obtain ⟨r, hr, ho⟩ := h.known d (List.mem_of_mem_erase hd) hn
    have hm : d.owner ∈ rs.map Runner.owner := howners ▸ ho ▸ List.mem_map_of_mem hr
    exact List.mem_map.mp hm

/-- What the runner of a call learns from its end. -/
theorem Exclusive.afterFinish (hstep : Leases.step w.leases (.finish c) = some v)
    (hin : timely w (.lease (.finish c)) = true) (granted : Bool) :
    Exclusive ⟨v, afterFinish c granted w.runners⟩ := by
  obtain ⟨⟨hc, -⟩, -⟩ := Option.ite_none_right_eq_some.mp hstep
  have hkeep := h.finish hstep hin w.runners (fun s hs hw => ⟨s, hs, rfl, hw⟩) rfl
    fun _ _ h => h
  unfold Runners.afterFinish
  cases hrequest : c.request with
  | acquire ttl =>
    by_cases hname : c.name = runnerLease
    · simp only [if_pos hname]
      have hown : acquireOf c.owner c = true := by simp [acquireOf, hname, hrequest]
      refine h.finish hstep hin _ (fun s hs hw => works_of_mem_move (fun st hst => ?_) hs hw)
        (move_owners _ _ _) fun d hd hidle => ?_
      · by_cases htaking : st = .taking
        · rw [if_pos htaking] at hst
          cases granted <;> simp at hst
        · rwa [if_neg htaking] at hst
      · refine hidle.move rfl fun ha => ?_
        rw [h.once hc hown hd] at ha
        cases ha
    · simpa only [if_neg hname] using hkeep
  | renew _ | release | drop => exact hkeep

/-- A runner of an owner that holds the lease goes on. -/
theorem Exclusive.enter (hin : timely w (.enter owner) = true)
    (hover : f .over = .over) (htaking : f .taking = .taking) :
    Exclusive { w with runners := Runners.move owner f w.runners } where
  __ := h
  owners := by
    rw [move_owners]
    exact h.owners
  holds := fun s hs hw => by
    obtain ⟨r, hr, rfl⟩ := mem_move hs
    by_cases ho : r.owner = owner
    · simp only [ho]
      exact holdsUntil_iff.mp hin
    · rw [if_neg ho] at hw ⊢
      exact h.holds r hr hw
  calls := fun c hc hn => (h.calls c hc hn).move hover fun _ => .inl htaking
  known := fun c hc hn => known_move (h.known c hc hn)

theorem Exclusive.stop (owner : Owner) :
    Exclusive { w with runners := Runners.move owner (fun _ => .over) w.runners } :=
  h.move rfl (.inr rfl) fun s hs => by rcases hs with hs | hs <;> cases hs

end

/-- **Every step that is in time keeps the invariant.** -/
theorem step_exclusive (hstep : step w a = some w') (hin : timely w a = true) (h : Exclusive w) :
    Exclusive w' := by
  cases a with
  | take owner =>
    obtain ⟨hfresh, hw⟩ := Option.ite_none_left_eq_some.mp hstep
    cases hw
    refine h.take fun r hr ho => hfresh (List.any_eq_true.mpr ⟨r, hr, decide_eq_true ho⟩)
  | lease a =>
    cases a with
    | tick passed =>
      obtain rfl := Option.some.inj (show some _ = some w' from hstep)
      exact h.tick hin
    | call name owner request =>
      obtain ⟨hn, hstep⟩ := Option.ite_none_left_eq_some.mp hstep
      obtain rfl := Option.some.inj (show some _ = some w' from hstep)
      exact h.other hn
    | create c =>
      obtain ⟨v, hv, rfl⟩ := Option.map_eq_some_iff.mp
        (show (Leases.step w.leases (.create c)).map (World.mk · w.runners) = some w' from hstep)
      have hleases := h.leases.step hv
      obtain ⟨⟨hc, -⟩, hv⟩ := Option.ite_none_right_eq_some.mp hv
      cases hv
      exact h.create hc hleases
    | finish c =>
      obtain ⟨v, hv, rfl⟩ := Option.map_eq_some_iff.mp hstep
      exact h.afterFinish hv hin _
  | enter owner =>
    obtain ⟨-, hw⟩ := Option.ite_none_right_eq_some.mp hstep
    exact Option.some.inj hw ▸ h.enter hin rfl rfl
  | beat owner =>
    obtain ⟨hat, hw⟩ := Option.ite_none_right_eq_some.mp hstep
    obtain ⟨r, hr, ho, -⟩ := mem_at hat
    exact Option.some.inj hw ▸ h.call nofun (.inl ⟨_, rfl⟩) ⟨r, hr, ho⟩
  | leave owner =>
    obtain ⟨-, hw⟩ := Option.ite_none_right_eq_some.mp hstep
    refine Option.some.inj hw ▸ h.move rfl (.inl rfl) fun s hs => ?_
    by_cases htracked : s = .tracked
    · exact .inl htracked
    · rwa [if_neg htracked] at hs
  | release owner =>
    obtain ⟨hat, hw⟩ := Option.ite_none_right_eq_some.mp hstep
    obtain ⟨r, hr, ho, -⟩ := mem_at hat
    have hover : ∃ s ∈ move owner (fun _ => .over) w.runners, s.owner = owner ∧ s.stage = .over :=
      ⟨_, List.mem_map_of_mem hr, by rw [if_pos ho]; exact ⟨ho, rfl⟩⟩
    obtain ⟨s, hs, hso, hstage⟩ := hover
    exact Option.some.inj hw ▸ (h.stop owner).call nofun (.inr ⟨s, hs, hso, .inl hstage⟩) ⟨s, hs, hso⟩
  | abandon owner => cases hin
  | kill owner => exact Option.some.inj hstep ▸ h.stop owner

/-! ## 5. One at a time -/

/-- **One backup or restore at a time**: in every run whose steps are in time, two runners that work are
    one. -/
theorem one_at_a_time {clock : Time} {as : List Action}
    (h : run step (World.start clock) as = some w)
    (hin : Along step (fun w a => timely w a = true) (World.start clock) as) :
    ∀ r ∈ w.runners, ∀ s ∈ w.runners, r.works = true → s.works = true → r = s := by
  have hw : Exclusive w :=
    run_invariant_along (fun _ _ _ hstep hin hs => step_exclusive hstep hin hs) h hin
      (exclusive_start clock)
  intro r hr s hs hrw hsw
  exact List.inj_on_of_nodup_map hw.owners hr hs
    (holds_unique hw.leases (hw.holds r hr hrw) (hw.holds s hs hsw))

def nightly : Owner := ⟨"nightly", by decide⟩

def manual : Owner := ⟨"manual", by decide⟩

def taking (owner : Owner) (now : Time) : List Action :=
  [.take owner, .lease (.create ⟨runnerLease, owner, .acquire leaseSeconds, now, false⟩),
    .lease (.finish ⟨runnerLease, owner, .acquire leaseSeconds, now, true⟩)]

/-- A backup with its retention, and behind it another. -/
def inTurn : List Action :=
  taking nightly 0 ++ [.enter nightly, .lease (.tick 30000000), .beat nightly,
    .lease (.finish ⟨runnerLease, nightly, .renew leaseSeconds, 30000000, false⟩), .leave nightly,
    .release nightly, .lease (.finish ⟨runnerLease, nightly, .release, 30000000, false⟩)] ++
  taking manual 30000000 ++ [.enter manual]

theorem one_at_a_time_in_turn : ∃ w, run step (World.start 0) inTurn = some w ∧
    w.at manual [.tracked] = true ∧
    ∀ r ∈ w.runners, ∀ s ∈ w.runners, r.works = true → s.works = true → r = s := by
  obtain ⟨w, hw⟩ : ∃ w, run step (World.start 0) inTurn = some w := ⟨_, rfl⟩
  have hat : (run step (World.start 0) inTurn).any (fun w => w.at manual [.tracked]) = true := by
    decide +kernel
  rw [hw] at hat
  exact ⟨w, hw, hat, one_at_a_time hw (by decide +kernel)⟩

/-- The heartbeats renew in time while they are active. -/
def beating (w : World) : Action → Bool
  | .lease (.tick passed) =>
    w.runners.all fun r => r.stage ≠ .tracked || holdsUntil w.leases r.owner (w.leases.clock + passed)
  | .lease (.finish c) =>
    match c.request with
    | .renew ttl => decide (w.leases.clock < c.now + seconds ttl)
    | _ => true
  | _ => true

/-- The first takes the lease, and its process begins two minutes later: the second has taken the lease
    meanwhile, and is at work. -/
def overtaken : List Action :=
  taking nightly 0 ++ [.lease (.tick 120000000)] ++ taking manual 120000000 ++
    [.enter manual, .enter nightly]

theorem work_overtaken : ¬ ∀ clock as w, run step (World.start clock) as = some w →
    Along step (fun w a => beating w a = true) (World.start clock) as →
    ∀ r ∈ w.runners, ∀ s ∈ w.runners, r.works = true → s.works = true → r = s := by
  intro hclaim
  obtain ⟨w, hw⟩ : ∃ w, run step (World.start 0) overtaken = some w := ⟨_, rfl⟩
  have hboth : (run step (World.start 0) overtaken).any (fun w =>
      w.at manual [.tracked] && w.at nightly [.tracked]) = true := by decide +kernel
  rw [hw] at hboth
  obtain ⟨hm, hn⟩ := Bool.and_eq_true_iff.mp hboth
  obtain ⟨r, hr, hro, hrs⟩ := mem_at hm
  obtain ⟨s, hs, hso, hss⟩ := mem_at hn
  have hrw : r.works = true := by simp [Runner.works, List.mem_singleton.mp hrs]
  have hsw : s.works = true := by simp [Runner.works, List.mem_singleton.mp hss]
  have hsame := hclaim 0 overtaken w hw (by decide +kernel) r hr s hs hrw hsw
  exact absurd (hro.symm.trans ((congrArg Runner.owner hsame).trans hso)) (by decide)

end Dbs.Runners

/-
  File:      Dbs/Jobs.lean
  Subject:   RECOVERY OF LOST JOBS: the events of jobs whose lease has run out are marked interrupted.

  * `jobLease`, `eventOf` -- the lease of a job's event and back;
  * `listExpired`, `eventsOf`, `dropExpired` -- the statements of `recover`;
  * `step` -- recoveries at work among the calls on leases and the operations on the audit trail;
  * `undisturbed` -- no listed lease is granted again before its event is marked;
    `recover_spares_live` -- then no event is marked whose lease has not run out;
    `recover_marks_live` -- a heartbeat between the list and the mark is not seen.
-/
import Dbs.Audit.Chain
import Dbs.Leases

namespace Dbs.Jobs

/-! ## 1. Names -/

def jobLeasePrefix : String := "dbs.job:"

def jobLease (eventId : Nat) : String := jobLeasePrefix ++ toString eventId

def isJobLease (name : String) : Bool := jobLeasePrefix.toList.isPrefixOf name.toList

/-- `int(name[len(JOB_LEASE_PREFIX):])`, where that part is digits. -/
def eventOf (name : String) : Option Nat :=
  let digits := name.toList.drop jobLeasePrefix.length
  if !digits.isEmpty && digits.all Char.isDigit then some (Nat.ofDigitChars 10 digits 0) else none

theorem jobLease_toList (n : Nat) :
    (jobLease n).toList = jobLeasePrefix.toList ++ Nat.toDigits 10 n := by
  rw [jobLease, String.toList_append]
  congr 1
  exact Nat.toList_repr

theorem eventOf_jobLease (n : Nat) : eventOf (jobLease n) = some n := by
  have hd : (jobLease n).toList.drop jobLeasePrefix.length = Nat.toDigits 10 n := by
    rw [jobLease_toList]
    exact List.drop_left' rfl
  have hne : (Nat.toDigits 10 n).isEmpty = false := List.isEmpty_eq_false_iff.mpr Nat.toDigits_ne_nil
  have hall : (Nat.toDigits 10 n).all Char.isDigit = true :=
    List.all_eq_true.mpr fun c hc => Json.digits_isDigit hc
  rw [eventOf, hd, hne, hall, Nat.ofDigitChars_ten_toDigits]
  rfl

/-- The only leases with the prefix are those of events. -/
def WellNamed (name : String) : Prop := isJobLease name = true → ∃ n, name = jobLease n

/-! ## 2. `recover` -/

/-- `filter(name__startswith=JOB_LEASE_PREFIX, expires_at__lte=now)`. -/
def listExpired (now : Time) (table : List Lease) : List String :=
  (table.filter fun l => isJobLease l.name && decide (l.expiresAt ≤ now)).map Lease.name

def eventsOf (expired : List String) : List Nat := expired.filterMap eventOf

/-- `filter(name__in=expired, expires_at__lte=now).delete()`. -/
def dropExpired (now : Time) (expired : List String) (table : List Lease) : List Lease :=
  Rows.delete (fun l => expired.contains l.name && decide (l.expiresAt ≤ now)) table

/-- A recovery between its statements. -/
inductive Recovery where
  | begun (now : Time)
  | listed (now : Time) (expired : List String)
  | marked (now : Time) (expired : List String)
deriving DecidableEq

/-- What is listed and not marked yet. -/
def Recovery.waiting : Recovery → List String
  | .listed _ expired => expired
  | _ => []

/-! ## 3. Recoveries among jobs -/

/-- An event marked interrupted, and whether its lease had not run out. -/
structure Mark where
  eventId : Nat
  live : Bool

/-- The leases, the events and the marks. -/
structure World where
  leases : Leases.World
  events : List AuditEvent
  recoveries : List Recovery
  marks : List Mark

def World.start (clock : Time) : World := ⟨.start clock, [], [], []⟩

/-- The lease of the event has not run out. -/
def World.live (w : World) (eventId : Nat) : Bool :=
  w.leases.table.any fun l => l.name == jobLease eventId && decide (w.leases.clock < l.expiresAt)

inductive Action where
  | lease (a : Leases.Action)
  | audit (o : Audit.Operation)
  | recover
  | list (r : Recovery)
  | mark (r : Recovery) (moment : DateTime)
  | clear (r : Recovery)

/-- A lease with the prefix is asked for by the job of an event. -/
def wellNamedCall : Leases.Action → Bool
  | .call name _ _ => !isJobLease name || (eventOf name).any fun n => name == jobLease n
  | _ => true

/-- What jobs do to the audit trail; `interrupt` is left to `mark`. -/
def ofJob : Audit.Operation → Bool
  | .interrupt _ _ _ _ => false
  | _ => true

section Runs

variable (sha256 : String → String)

/-- One statement. -/
def step (w : World) : Action → Option World
  | .lease a =>
    if wellNamedCall a = true then
      (Leases.step w.leases a).map fun leases => { w with leases }
    else none
  | .audit o =>
    if ofJob o = true then
      (Audit.step sha256 w.events o).map fun events => { w with events }
    else none
  | .recover => some { w with recoveries := .begun w.leases.clock :: w.recoveries }
  | .list r =>
    match r with
    | .begun now =>
      if r ∈ w.recoveries then
        let expired := listExpired now w.leases.table
        let rest := w.recoveries.erase r
        some { w with
          recoveries := if expired.isEmpty then rest else .listed now expired :: rest }
      else none
    | _ => none
  | .mark r moment =>
    match r with
    | .listed now expired =>
      if r ∈ w.recoveries then
        let pks := eventsOf expired
        let lost := w.events.filter (Audit.interruptible none [] (some pks))
        some { w with
          events := Audit.interrupt none [] (some pks) moment w.events
          recoveries := .marked now expired :: w.recoveries.erase r
          marks := lost.map (fun e => ⟨e.pk, w.live e.pk⟩) ++ w.marks }
      else none
    | _ => none
  | .clear r =>
    match r with
    | .marked now expired =>
      if r ∈ w.recoveries then
        some { w with
          leases := { w.leases with table := dropExpired now expired w.leases.table }
          recoveries := w.recoveries.erase r }
      else none
    | _ => none

/-- No lease that waits for its mark is granted again. -/
def undisturbed (w : World) : Action → Bool
  | .lease (.finish c) => !c.grants || w.recoveries.all fun r => !r.waiting.contains c.name
  | _ => true

/-! ## 4. What every undisturbed step keeps -/

variable {sha256} {w w' : World}

/-- The invariant. -/
structure Spared (w : World) : Prop where
  names : (w.leases.table.map Lease.name).Nodup
  past : ∀ c ∈ w.leases.calls, c.now ≤ w.leases.clock
  called : ∀ c ∈ w.leases.calls, WellNamed c.name
  named : ∀ l ∈ w.leases.table, WellNamed l.name
  begun : ∀ now, .begun now ∈ w.recoveries → now ≤ w.leases.clock
  listed : ∀ r ∈ w.recoveries, ∀ name ∈ r.waiting, isJobLease name = true ∧ WellNamed name
  expired : ∀ r ∈ w.recoveries, ∀ name ∈ r.waiting, ∀ l ∈ w.leases.table, l.name = name →
    l.expiresAt ≤ w.leases.clock
  marks : ∀ m ∈ w.marks, m.live = false

theorem spared_start (clock : Time) : Spared (World.start clock) := by
  refine ⟨List.nodup_nil, ?_, ?_, ?_, ?_, ?_, ?_, ?_⟩ <;>
    exact fun _ h => (List.not_mem_nil h).elim

theorem wellNamed_of_call {name : String} {owner : Owner} {request : Leases.Request}
    (h : wellNamedCall (.call name owner request) = true) : WellNamed name := by
  intro hjob
  rcases Bool.or_eq_true_iff.mp h with h | h
  · rw [hjob] at h
    cases h
  · obtain ⟨n, -, hn⟩ := (Option.any_eq_true _ _).mp h
    exact ⟨n, beq_iff_eq.mp hn⟩

theorem mem_listExpired {now : Time} {table : List Lease} {name : String}
    (h : name ∈ listExpired now table) : isJobLease name = true ∧ ∃ l ∈ table, l.name = name := by
  obtain ⟨l, hl, rfl⟩ := List.mem_map.mp h
  obtain ⟨hl, hp⟩ := List.mem_filter.mp hl
  exact ⟨(Bool.and_eq_true_iff.mp hp).1, l, hl, rfl⟩

/-- **Steps of the leases.** Rows change for calls only, and no call grants a listed lease. -/
theorem Spared.lease (h : Spared w) {a : Leases.Action} {leases : Leases.World}
    (hstep : Leases.step w.leases a = some leases) (hname : wellNamedCall a = true)
    (hfree : undisturbed w (.lease a) = true) : Spared { w with leases } := by
  have hclock : w.leases.clock ≤ leases.clock := Leases.step_clock hstep
  have hpast : ∀ c ∈ leases.calls, c.now ≤ leases.clock := by
    intro c hc
    rcases Leases.step_calls hstep hc with ⟨d, hd, -, hnow⟩ | ⟨owner, request, -, hnow⟩
    · exact hnow ▸ Int.le_trans (h.past d hd) hclock
    · exact hnow ▸ hclock
  refine ⟨Leases.step_names hstep h.names, hpast, fun c hc => ?_, fun l hl => ?_,
    fun now hr => Int.le_trans (h.begun now hr) hclock, h.listed, fun r hr name hn l hl hln => ?_,
    h.marks⟩
  · rcases Leases.step_calls hstep hc with ⟨d, hd, hdn, -⟩ | ⟨owner, request, rfl, -⟩
    · exact hdn ▸ h.called d hd
    · exact wellNamed_of_call hname
  · rcases Leases.step_rows hstep hl with hl | ⟨c, hc, hlc, -⟩
    · exact h.named l hl
    · exact hlc ▸ h.called c hc
  · rcases Leases.step_rows hstep hl with hl | ⟨c, hc, hlc, hnow | ⟨rfl, hgrants⟩⟩
    · exact Int.le_trans (h.expired r hr name hn l hl hln) hclock
    · exact hnow ▸ Int.le_trans (h.past c hc) hclock
    · -- the grant of a listed lease
      rw [undisturbed, hgrants, Bool.not_true, Bool.false_or, List.all_eq_true] at hfree
      have hnot := hfree r hr
      rw [Bool.not_eq_true', ← hlc, hln, List.contains_eq_mem, decide_eq_false_iff_not] at hnot
      exact absurd hn hnot

/-- **The list.** What is read as run out has run out. -/
theorem Spared.recoveries (h : Spared w) {now : Time} (hnow : now ≤ w.leases.clock)
    {recoveries : List Recovery} (hr : ∀ r ∈ recoveries, r ∈ w.recoveries ∨
      r = .begun w.leases.clock ∨ r = .listed now (listExpired now w.leases.table) ∨
      r.waiting = [] ∧ ∀ m, r ≠ .begun m) :
    Spared { w with recoveries } := by
  refine ⟨h.names, h.past, h.called, h.named, fun m hm => ?_, fun r hmem name hn => ?_,
    fun r hmem name hn l hl hln => ?_, h.marks⟩
  · rcases hr _ hm with hm | hm | hm | ⟨-, hm⟩
    · exact h.begun m hm
    · exact Recovery.begun.inj hm ▸ Int.le_refl _
    · cases hm
    · exact absurd rfl (hm m)
  · rcases hr r hmem with hm | rfl | rfl | ⟨hm, -⟩
    · exact h.listed r hm name hn
    · exact (List.not_mem_nil hn).elim
    · obtain ⟨hjob, l, hl, rfl⟩ := mem_listExpired hn
      exact ⟨hjob, h.named l hl⟩
    · exact (List.not_mem_nil (hm ▸ hn)).elim
  · rcases hr r hmem with hm | rfl | rfl | ⟨hm, -⟩
    · exact h.expired r hm name hn l hl hln
    · exact (List.not_mem_nil hn).elim
    · obtain ⟨d, hd, hdn⟩ := List.mem_map.mp hn
      obtain ⟨hd, hp⟩ := List.mem_filter.mp hd
      obtain rfl : d = l := Rows.eq_of_key h.names hd hl (hdn.trans hln.symm)
      exact Int.le_trans (of_decide_eq_true (Bool.and_eq_true_iff.mp hp).2) hnow
    · exact (List.not_mem_nil (hm ▸ hn)).elim

/-- An event that is looked for has its lease in the list. -/
theorem jobLease_mem {expired : List String}
    (hl : ∀ name ∈ expired, isJobLease name = true ∧ WellNamed name) {pk : Nat}
    (hpk : pk ∈ eventsOf expired) : jobLease pk ∈ expired := by
  obtain ⟨name, hname, hevent⟩ := List.mem_filterMap.mp hpk
  obtain ⟨hjob, hwell⟩ := hl name hname
  obtain ⟨n, rfl⟩ := hwell hjob
  rw [eventOf_jobLease, Option.some.injEq] at hevent
  exact hevent ▸ hname

/-- **The mark.** The leases of the events it finds have run out. -/
theorem Spared.mark (h : Spared w) {now : Time} {expired : List String}
    (hr : .listed now expired ∈ w.recoveries) {e : AuditEvent}
    (he : Audit.interruptible none [] (some (eventsOf expired)) e = true) : w.live e.pk = false := by
  have hpk : e.pk ∈ eventsOf expired := List.contains_iff_mem.mp (Bool.and_eq_true_iff.mp he).2
  have hmem : jobLease e.pk ∈ expired := jobLease_mem (h.listed _ hr) hpk
  rw [World.live, List.any_eq_false]
  intro l hl hlive
  obtain ⟨hname, hlate⟩ := Bool.and_eq_true_iff.mp hlive
  have hrunOut := h.expired _ hr _ hmem l hl (beq_iff_eq.mp hname)
  exact absurd (of_decide_eq_true hlate) (Int.not_lt.mpr hrunOut)

theorem Spared.step {a : Action} (hstep : Jobs.step sha256 w a = some w')
    (hfree : undisturbed w a = true) (h : Spared w) : Spared w' := by
  cases a with
  | lease a =>
    obtain ⟨hname, hstep⟩ := Option.ite_none_right_eq_some.mp hstep
    obtain ⟨leases, hl, rfl⟩ := Option.map_eq_some_iff.mp hstep
    exact h.lease hl hname hfree
  | audit o =>
    obtain ⟨-, hstep⟩ := Option.ite_none_right_eq_some.mp hstep
    obtain ⟨events, -, rfl⟩ := Option.map_eq_some_iff.mp hstep
    exact { h with }
  | recover =>
    cases hstep
    refine h.recoveries (Int.le_refl _) fun r hr => ?_
    rcases List.mem_cons.mp hr with rfl | hr
    · exact Or.inr (Or.inl rfl)
    · exact Or.inl hr
  | list r =>
    cases r with
    | begun now =>
      obtain ⟨hr, hstep⟩ := Option.ite_none_right_eq_some.mp hstep
      cases hstep
      refine h.recoveries (h.begun now hr) fun r hr => ?_
      split at hr
      · exact Or.inl (List.mem_of_mem_erase hr)
      · rcases List.mem_cons.mp hr with rfl | hr
        · exact Or.inr (Or.inr (Or.inl rfl))
        · exact Or.inl (List.mem_of_mem_erase hr)
    | listed now expired => cases hstep
    | marked now expired => cases hstep
  | mark r moment =>
    cases r with
    | begun now => cases hstep
    | listed now expired =>
      obtain ⟨hr, hstep⟩ := Option.ite_none_right_eq_some.mp hstep
      cases hstep
      have hrest : ∀ r ∈ Recovery.marked now expired :: w.recoveries.erase (.listed now expired),
          r ∈ w.recoveries ∨ r = .begun w.leases.clock ∨
            r = .listed w.leases.clock (listExpired w.leases.clock w.leases.table) ∨
            r.waiting = [] ∧ ∀ m, r ≠ .begun m := by
        intro r hr
        rcases List.mem_cons.mp hr with rfl | hr
        · exact Or.inr (Or.inr (Or.inr ⟨rfl, nofun⟩))
        · exact Or.inl (List.mem_of_mem_erase hr)
      have hkept := h.recoveries (Int.le_refl _) hrest
      refine ⟨hkept.names, hkept.past, hkept.called, hkept.named, hkept.begun, hkept.listed,
        hkept.expired, fun m hm => ?_⟩
      rcases List.mem_append.mp hm with hm | hm
      · obtain ⟨e, he, rfl⟩ := List.mem_map.mp hm
        exact h.mark hr (List.mem_filter.mp he).2
      · exact h.marks m hm
    | marked now expired => cases hstep
  | clear r =>
    cases r with
    | begun now => cases hstep
    | listed now expired => cases hstep
    | marked now expired =>
      obtain ⟨-, ⟨⟩⟩ := Option.ite_none_right_eq_some.mp hstep
      have hrest : ∀ r ∈ w.recoveries.erase (.marked now expired), r ∈ w.recoveries :=
        fun r hr => List.mem_of_mem_erase hr
      have hrow : ∀ l ∈ dropExpired now expired w.leases.table, l ∈ w.leases.table :=
        fun l hl => (Rows.mem_delete.mp hl).1
      exact ⟨h.names.sublist (List.filter_sublist.map _), h.past, h.called,
        fun l hl => h.named l (hrow l hl), fun m hm => h.begun m (hrest _ hm),
        fun r hr => h.listed r (hrest r hr),
        fun r hr name hn l hl => h.expired r (hrest r hr) name hn l (hrow l hl), h.marks⟩

/-- **Recovery spares live jobs** while no listed lease is granted again before its event is marked:
    in no state reached was an event marked interrupted whose lease had not run out. -/
theorem recover_spares_live {clock : Time} {as : List Action}
    (hrun : Runs.run (Jobs.step sha256) (World.start clock) as = some w)
    (hfree : Runs.Along (Jobs.step sha256) (fun w a => undisturbed w a = true) (World.start clock) as) :
    ∀ m ∈ w.marks, m.live = false :=
  (Runs.run_invariant_along (fun _ _ _ hstep hc h => h.step hstep hc) hrun hfree
    (spared_start clock)).marks

end Runs

def worker : Owner := ⟨"worker", by decide⟩

/-- A job starts and its process stands still for longer than the lease; a recovery lists the lease. -/
def stalled : List Action :=
  [.audit (.record 7 { action := "backup.create", status := .running } Audit.noon Audit.noon),
    .lease (.call "dbs.job:7" worker (.acquire 120)),
    .lease (.create ⟨"dbs.job:7", worker, .acquire 120, 0, false⟩),
    .lease (.finish ⟨"dbs.job:7", worker, .acquire 120, 0, true⟩), .lease (.tick 150000000),
    .recover, .list (.begun 150000000)]

def marking : Action := .mark (.listed 150000000 ["dbs.job:7"]) Audit.noon

/-- The heartbeat that goes on before the mark. -/
def heartbeat : List Action :=
  [.lease (.call "dbs.job:7" worker (.renew 120)),
    .lease (.finish ⟨"dbs.job:7", worker, .renew 120, 150000000, false⟩)]

/-- The event of a job that does not go on is marked, and its lease has run out. -/
theorem recover_spares_live_stalled : ∃ w,
    Runs.run (step id) (World.start 0) (stalled ++ [marking]) = some w ∧ w.marks.length = 1 ∧
    ∀ m ∈ w.marks, m.live = false := by
  refine ⟨_, rfl, rfl, ?_⟩
  exact @recover_spares_live id _ 0 (stalled ++ [marking]) rfl (by decide)

/-- **A heartbeat between the list and the mark is not seen**: the event is marked interrupted although
    its lease has been renewed. -/
theorem recover_marks_live : ¬ ∀ as w, Runs.run (step id) (World.start 0) as = some w →
    ∀ m ∈ w.marks, m.live = false := by
  intro h
  have hmarked := h (stalled ++ heartbeat ++ [marking]) _ rfl ⟨7, true⟩
  exact Bool.noConfusion (hmarked List.mem_cons_self)

end Dbs.Jobs

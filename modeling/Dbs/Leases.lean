/-
  File:      Dbs/Leases.lean
  Subject:   LEASES: under a name acts one owner at a time, until a moment that was granted.

  * `acquire`, `renew`, `release`, `drop` -- the statements of each call on the table;
  * `step` -- any number of calls at once: each reads the clock, then its statements run one by one,
    with the statements of the others between them;
  * `Consistent` -- what every step keeps: the row of a name belongs to the owner of its newest grant,
    and every other grant that was not given back has run out;
  * `lease_exclusive` -- nobody acquires a lease before the moment granted to another has come.
-/
import Dbs.Lib.Rows
import Dbs.Lib.Runs

namespace Dbs

/-- A moment, in microseconds. -/
abbrev Time := Int

/-- In microseconds. -/
def seconds (n : Int) : Time := n * 1000000

/-- Who calls. The table writes the empty name for nobody. -/
@[ext] structure Owner where
  name : String
  named : name ≠ ""
deriving DecidableEq

/-- A row of the table. -/
structure Lease where
  name : String
  owner : String
  expiresAt : Time
  renewedAt : Time
deriving DecidableEq, Repr

namespace Leases

/-! ## 1. The statements -/

/-- A row of this name is there. -/
def getOrCreate (name : String) (now : Time) (table : List Lease) : List Lease :=
  if table.any (fun l => l.name == name) then table else table ++ [⟨name, "", now, now⟩]

/-- `filter(name=name)` and `Q(expires_at__lte=now) | Q(owner=owner)`. -/
def mayTake (name owner : String) (now : Time) (l : Lease) : Bool :=
  l.name == name && (decide (l.expiresAt ≤ now) || l.owner == owner)

/-- `filter(name=name, owner=owner)`. -/
def heldBy (name owner : String) (l : Lease) : Bool := l.name == name && l.owner == owner

/-- The row of a lease that is granted. -/
def taken (owner : String) (ttlSeconds : Int) (now : Time) (l : Lease) : Lease :=
  { l with owner, expiresAt := now + seconds ttlSeconds, renewedAt := now }

/-- A conditional update. -/
def take (name owner : String) (ttlSeconds : Int) (now : Time) (table : List Lease) :
    Bool × List Lease :=
  (table.countP (mayTake name owner now) == 1,
    Rows.update (mayTake name owner now) (taken owner ttlSeconds now) table)

/-- Free, or run out. -/
def acquire (name owner : String) (ttlSeconds : Int) (now : Time) (table : List Lease) :
    Bool × List Lease :=
  take name owner ttlSeconds now (getOrCreate name now table)

/-- The row of a lease that goes on. -/
def renewed (ttlSeconds : Int) (now : Time) (l : Lease) : Lease :=
  { l with expiresAt := now + seconds ttlSeconds, renewedAt := now }

/-- Only by its owner. -/
def renew (name owner : String) (ttlSeconds : Int) (now : Time) (table : List Lease) :
    Bool × List Lease :=
  (table.countP (heldBy name owner) == 1,
    Rows.update (heldBy name owner) (renewed ttlSeconds now) table)

/-- The row of a lease that was given back. -/
def released (now : Time) (l : Lease) : Lease := { l with owner := "", expiresAt := now }

/-- Only by its owner. -/
def release (name owner : String) (now : Time) (table : List Lease) : List Lease :=
  Rows.update (heldBy name owner) (released now) table

/-- The row goes, only by its owner. -/
def drop (name owner : String) (table : List Lease) : List Lease :=
  Rows.delete (heldBy name owner) table

/-! ## 2. Calls at the same time -/

/-- What a process calls. -/
inductive Request where
  | acquire (ttlSeconds : Int)
  | renew (ttlSeconds : Int)
  | release
  | drop
deriving DecidableEq

/-- A call that has read the clock; of an acquire, whether its row is in place. -/
structure Call where
  name : String
  owner : Owner
  request : Request
  now : Time
  created : Bool
deriving DecidableEq

/-- What the statements of the calls have done. -/
inductive Entry where
  | granted (name : String) (owner : Owner) (expiry moment : Time)
  | released (name : String) (owner : Owner)

/-- The clock, the table, the calls under way and what was granted and given back, newest first. -/
structure World where
  clock : Time
  table : List Lease
  calls : List Call
  log : List Entry

/-- No lease, and nobody at work. -/
def World.start (clock : Time) : World := ⟨clock, [], [], []⟩

/-- The conditional statement of a call and what it leaves in the log. -/
def Call.statement (c : Call) (clock : Time) (table : List Lease) : List Lease × List Entry :=
  match c.request with
  | .acquire ttl =>
    let (taken, table) := take c.name c.owner.name ttl c.now table
    (table, if taken then [.granted c.name c.owner (c.now + seconds ttl) clock] else [])
  | .renew ttl =>
    let (renewed, table) := renew c.name c.owner.name ttl c.now table
    (table, if renewed then [.granted c.name c.owner (c.now + seconds ttl) clock] else [])
  | .release =>
    (release c.name c.owner.name c.now table,
      if table.any (heldBy c.name c.owner.name) then [.released c.name c.owner] else [])
  | .drop =>
    (drop c.name c.owner.name table,
      if table.any (heldBy c.name c.owner.name) then [.released c.name c.owner] else [])

/-- A call, or time passes. -/
inductive Action where
  | tick (passed : Nat)
  | call (name : String) (owner : Owner) (request : Request)
  | create (c : Call)
  | finish (c : Call)

/-- A call waits with its conditional statement until the row it needs was looked for. -/
def Call.ready (c : Call) : Bool :=
  match c.request with
  | .acquire _ => c.created
  | _ => true

/-- One statement. -/
def step (w : World) : Action → Option World
  | .tick passed => some { w with clock := w.clock + passed }
  | .call name owner request =>
    some { w with calls := ⟨name, owner, request, w.clock, false⟩ :: w.calls }
  | .create c =>
    if c ∈ w.calls ∧ c.ready = false then
      some { w with
        table := getOrCreate c.name c.now w.table
        calls := { c with created := true } :: w.calls.erase c }
    else none
  | .finish c =>
    if c ∈ w.calls ∧ c.ready = true then
      some { w with
        table := (c.statement w.clock w.table).1
        calls := w.calls.erase c
        log := (c.statement w.clock w.table).2 ++ w.log }
    else none

/-! ## 3. What was granted -/

/-- The newest grant of a lease that was not given back. -/
def standing : List Entry → String → Option (Owner × Time)
  | [], _ => none
  | .granted n o e _ :: log, name => if n = name then some (o, e) else standing log name
  | .released n _ :: log, name => if n = name then none else standing log name

/-- The last expiry an owner was granted, unless it gave the lease back afterwards. -/
def lastGrant : List Entry → String → Owner → Option Time
  | [], _, _ => none
  | .granted n o e _ :: log, name, owner =>
    if n = name ∧ o = owner then some e else lastGrant log name owner
  | .released n o :: log, name, owner =>
    if n = name ∧ o = owner then none else lastGrant log name owner

/-- Whoever is granted a lease is granted it when the last expiry of every other has come. -/
def Ordered : List Entry → Prop
  | [] => True
  | .granted name owner _ moment :: log =>
    (∀ other e, other ≠ owner → lastGrant log name other = some e → e ≤ moment) ∧ Ordered log
  | .released _ _ :: log => Ordered log

/-- The row of a name is that of its standing grant. -/
def Stands (table : List Lease) (name : String) : Option (Owner × Time) → Prop
  | some (owner, e) => ∃ l ∈ table, l.name = name ∧ l.owner = owner.name ∧ l.expiresAt = e
  | none => ∀ l ∈ table, l.name = name → l.owner = ""

/-- **What every step keeps.** -/
structure Consistent (w : World) : Prop where
  names : (w.table.map (·.name)).Nodup
  past : ∀ c ∈ w.calls, c.now ≤ w.clock
  stands : ∀ name, Stands w.table name (standing w.log name)
  lapsed : ∀ name owner e, lastGrant w.log name owner = some e →
    standing w.log name = some (owner, e) ∨ e ≤ w.clock
  ordered : Ordered w.log

theorem Ordered.moment {log : List Entry} (h : Ordered log) {before after : List Entry}
    {name : String} {owner : Owner} {e t : Time}
    (hlog : log = after ++ .granted name owner e t :: before) {other : Owner} {e' : Time}
    (ho : other ≠ owner) (hg : lastGrant before name other = some e') : e' ≤ t := by
  subst hlog
  induction after with
  | nil => exact h.1 other e' ho hg
  | cons x after ih =>
    cases x with
    | granted => exact ih h.2
    | released => exact ih h

/-! ## 4. One statement -/

section Statement

variable {table : List Lease} {name : String} {p : Lease → Bool} {f : Lease → Lease}

/-- A name has one row: a filter on the name finds it, or nothing is changed. -/
theorem found_or_unchanged (hn : (table.map (·.name)).Nodup) (hp : ∀ l, p l = true → l.name = name) :
    (∃ l ∈ table, p l = true) ∧ table.countP p = 1 ∨
      table.countP p = 0 ∧ ∀ l ∈ table, p l = false := by
  by_cases h : ∃ l ∈ table, p l = true
  · obtain ⟨l, hl, hpl⟩ := h
    exact Or.inl ⟨⟨l, hl, hpl⟩, Rows.countP_eq_one hn (fun r hr => (hp r hr).trans (hp l hpl).symm)
      hl hpl⟩
  · refine Or.inr ⟨List.countP_eq_zero.mpr fun l hl hpl => h ⟨l, hl, hpl⟩, fun l hl => ?_⟩
    rw [← Bool.not_eq_true]
    exact fun hpl => h ⟨l, hl, hpl⟩

theorem any_eq_false (h : ∀ l ∈ table, p l = false) : table.any p = false :=
  List.any_eq_false.mpr fun l hl hpl => Bool.noConfusion ((h l hl).symm.trans hpl)

variable {g : Option (Owner × Time)}

theorem stands_update_ne (hp : ∀ l, p l = true → l.name = name) (hf : ∀ l, (f l).name = l.name)
    {other : String} (ho : other ≠ name) (h : Stands table other g) :
    Stands (Rows.update p f table) other g := by
  cases g with
  | none =>
    intro l hl hlo
    rcases Rows.mem_update.mp hl with ⟨old, -, hold, rfl⟩ | ⟨hl, -⟩
    · rw [hf, hp old hold] at hlo
      exact absurd hlo.symm ho
    · exact h l hl hlo
  | some g =>
    obtain ⟨l, hl, hlo, hrest⟩ := h
    refine ⟨l, Rows.mem_update.mpr (Or.inr ⟨hl, ?_⟩), hlo, hrest⟩
    rw [← Bool.not_eq_true]
    exact fun hpl => ho (hlo.symm.trans (hp l hpl))

theorem stands_delete_ne (hp : ∀ l, p l = true → l.name = name) {other : String} (ho : other ≠ name)
    (h : Stands table other g) : Stands (Rows.delete p table) other g := by
  cases g with
  | none => exact fun l hl hlo => h l (Rows.mem_delete.mp hl).1 hlo
  | some g =>
    obtain ⟨l, hl, hlo, hrest⟩ := h
    refine ⟨l, Rows.mem_delete.mpr ⟨hl, ?_⟩, hlo, hrest⟩
    rw [← Bool.not_eq_true]
    exact fun hpl => ho (hlo.symm.trans (hp l hpl))

theorem stands_create {now : Time} {other : String}
    (h : Stands table other g) : Stands (getOrCreate name now table) other g := by
  unfold getOrCreate
  split
  · exact h
  · cases g with
    | none =>
      intro l hl hlo
      rcases List.mem_append.mp hl with hl | hl
      · exact h l hl hlo
      · rw [List.mem_singleton.mp hl]
    | some g =>
      obtain ⟨l, hl, hrest⟩ := h
      exact ⟨l, List.mem_append_left _ hl, hrest⟩

theorem names_create (now : Time) (hn : (table.map (·.name)).Nodup) :
    ((getOrCreate name now table).map (·.name)).Nodup := by
  unfold getOrCreate
  split
  · exact hn
  · rename_i h
    rw [List.map_append, List.nodup_append]
    refine ⟨hn, List.nodup_singleton _, ?_⟩
    intro a ha b hb hab
    obtain ⟨l, hl, rfl⟩ := List.mem_map.mp ha
    rw [List.map_singleton, List.mem_singleton] at hb
    exact h (List.any_eq_true.mpr ⟨l, hl, beq_iff_eq.mpr (hab.trans hb)⟩)

theorem mayTake_name {owner : String} {now : Time} (l : Lease)
    (h : mayTake name owner now l = true) : l.name = name :=
  beq_iff_eq.mp (Bool.and_eq_true_iff.mp h).1

theorem heldBy_name {owner : String} (l : Lease) (h : heldBy name owner l = true) : l.name = name :=
  beq_iff_eq.mp (Bool.and_eq_true_iff.mp h).1

/-- Where the row is there or has just been put there. -/
theorem mem_getOrCreate {now : Time} {l : Lease} (h : l ∈ getOrCreate name now table) :
    l ∈ table ∨ l = ⟨name, "", now, now⟩ := by
  unfold getOrCreate at h
  split at h
  · exact Or.inl h
  · exact (List.mem_append.mp h).imp id List.mem_singleton.mp

theorem exists_getOrCreate (name : String) (now : Time) (table : List Lease) :
    ∃ l ∈ getOrCreate name now table, l.name = name := by
  unfold getOrCreate
  split
  · rename_i h
    obtain ⟨l, hl, hname⟩ := List.any_eq_true.mp h
    exact ⟨l, hl, beq_iff_eq.mp hname⟩
  · exact ⟨⟨name, "", now, now⟩, List.mem_append_right _ (List.mem_singleton_self _), rfl⟩

theorem mem_getOrCreate_of_mem {now : Time} {l : Lease} (h : l ∈ table) :
    l ∈ getOrCreate name now table := by
  unfold getOrCreate
  split
  · exact h
  · exact List.mem_append_left _ h

/-- **An acquire of what nobody else holds** succeeds, and leaves the other rows alone. -/
theorem acquire_free {owner : String} {ttl : Int} {now : Time} (hn : (table.map (·.name)).Nodup)
    (hfree : ∀ l ∈ table, l.name = name → l.expiresAt ≤ now ∨ l.owner = owner) :
    (acquire name owner ttl now table).1 = true ∧
      (∃ l ∈ (acquire name owner ttl now table).2, l.name = name ∧ l.owner = owner ∧
        l.expiresAt = now + seconds ttl ∧ l.renewedAt = now) ∧
      ∀ l, l.name ≠ name → (l ∈ (acquire name owner ttl now table).2 ↔ l ∈ table) := by
  obtain ⟨r, hr, hname⟩ := exists_getOrCreate name now table
  have hmay : mayTake name owner now r = true := by
    have hends : r.expiresAt ≤ now ∨ r.owner = owner := by
      rcases mem_getOrCreate hr with hr | rfl
      · exact hfree r hr hname
      · exact Or.inl (Int.le_refl now)
    rw [mayTake, hname, beq_self_eq_true, Bool.true_and]
    exact Bool.or_eq_true_iff.mpr (hends.imp decide_eq_true beq_iff_eq.mpr)
  refine ⟨?_, ⟨taken owner ttl now r, ?_, hname, rfl, rfl, rfl⟩, fun l hother => ?_⟩
  · exact beq_iff_eq.mpr (Rows.countP_eq_one (names_create now hn)
      (fun q hq => (mayTake_name q hq).trans hname.symm) hr hmay)
  · exact Rows.mem_update.mpr (Or.inl ⟨r, hr, hmay, rfl⟩)
  · constructor
    · intro hl
      rcases Rows.mem_update.mp hl with ⟨old, -, hp, rfl⟩ | ⟨hl, -⟩
      · exact absurd (mayTake_name old hp) hother
      · rcases mem_getOrCreate hl with hl | rfl
        · exact hl
        · exact absurd rfl hother
    · intro hl
      refine Rows.mem_update.mpr (Or.inr ⟨mem_getOrCreate_of_mem hl, ?_⟩)
      rw [mayTake, beq_eq_false_iff_ne.mpr hother, Bool.false_and]

theorem names_acquire {owner : String} {ttl : Int} {now : Time} (hn : (table.map (·.name)).Nodup) :
    ((acquire name owner ttl now table).2.map (·.name)).Nodup := by
  have hsame : (acquire name owner ttl now table).2.map (·.name) =
      (getOrCreate name now table).map (·.name) :=
    Rows.map_update Lease.name fun _ _ _ => rfl
  exact hsame ▸ names_create now hn

end Statement

/-! ## 5. Every step -/

variable {w w' : World}

variable {table : List Lease} {calls : List Call}

/-- A statement on one name that leaves the log as it is and every row that stands. -/
theorem Consistent.keep (h : Consistent w)
    (hn : (table.map (·.name)).Nodup) (hc : ∀ c ∈ calls, c.now ≤ w.clock)
    (hs : ∀ name, Stands table name (standing w.log name)) :
    Consistent { w with table, calls } :=
  ⟨hn, hc, hs, h.lapsed, h.ordered⟩

/-- **A grant.** The row is found expired or with its own owner, and is written over. -/
theorem Consistent.grant (h : Consistent w) {name : String} {owner : Owner} {e now : Time}
    {p : Lease → Bool} {f : Lease → Lease} (hc : ∀ c ∈ calls, c.now ≤ w.clock)
    (hnow : now ≤ w.clock) (hp : ∀ l, p l = true → l.name = name)
    (hfree : ∀ l, p l = true → l.expiresAt ≤ now ∨ l.owner = owner.name)
    (hf : ∀ l, (f l).name = l.name)
    (hfo : ∀ l, p l = true → (f l).owner = owner.name ∧ (f l).expiresAt = e)
    (hfound : ∃ l ∈ w.table, p l = true) :
    Consistent { w with
      table := Rows.update p f w.table
      calls := calls
      log := .granted name owner e w.clock :: w.log } := by
  obtain ⟨l, hl, hpl⟩ := hfound
  have hothers : ∀ other x, other ≠ owner → lastGrant w.log name other = some x → x ≤ w.clock := by
    intro other x ho hg
    rcases h.lapsed name other x hg with hstand | hx
    · have hrow := h.stands name
      rw [hstand] at hrow
      obtain ⟨r, hr, hrn, hro, hre⟩ := hrow
      have hrl : r = l := Rows.eq_of_key h.names hr hl (hrn.trans (hp l hpl).symm)
      subst hrl
      rcases hfree r hpl with hfree | hfree
      · rw [← hre]
        exact Int.le_trans hfree hnow
      · exact absurd (Owner.ext (hro.symm.trans hfree)) ho
    · exact hx
  refine ⟨?_, hc, fun other => ?_, fun other o x hg => ?_, hothers, h.ordered⟩
  · show ((Rows.update p f w.table).map (·.name)).Nodup
    rw [Rows.map_update _ fun r _ _ => hf r]
    exact h.names
  · show Stands (Rows.update p f w.table) other (if name = other then _ else _)
    by_cases ho : name = other
    · rw [if_pos ho]
      exact ⟨f l, Rows.mem_update.mpr (Or.inl ⟨l, hl, hpl, rfl⟩),
        (hf l).trans ((hp l hpl).trans ho), hfo l hpl⟩
    · rw [if_neg ho]
      exact stands_update_ne hp hf (Ne.symm ho) (h.stands other)
  · show (if name = other then _ else _) = _ ∨ _
    rw [lastGrant] at hg
    by_cases hname : name = other
    · rw [if_pos hname]
      subst hname
      by_cases ho : owner = o
      · rw [if_pos ⟨rfl, ho⟩] at hg
        exact Or.inl (by rw [Option.some.inj hg, ho])
      · rw [if_neg fun hh => ho hh.2] at hg
        exact Or.inr (hothers o x (Ne.symm ho) hg)
    · rw [if_neg hname]
      rw [if_neg fun hh => hname hh.1] at hg
      exact h.lapsed other o x hg

/-- **A lease given back**: its row is nobody's, or gone. -/
theorem Consistent.giveBack (h : Consistent w) {name : String} {owner : Owner}
    (hc : ∀ c ∈ calls, c.now ≤ w.clock) (hfound : ∃ l ∈ w.table, heldBy name owner.name l = true)
    (hn : (table.map (·.name)).Nodup) (hs : Stands table name none)
    (hothers : ∀ other, other ≠ name → Stands table other (standing w.log other)) :
    Consistent { w with table, calls, log := .released name owner :: w.log } := by
  obtain ⟨l, hl, hheld⟩ := hfound
  have howner : l.owner = owner.name := beq_iff_eq.mp (Bool.and_eq_true_iff.mp hheld).2
  refine ⟨hn, hc, fun other => ?_, fun other o x hg => ?_, h.ordered⟩
  · show Stands table other (if name = other then none else standing w.log other)
    by_cases ho : name = other
    · rw [if_pos ho]
      exact ho ▸ hs
    · rw [if_neg ho]
      exact hothers other (Ne.symm ho)
  · show (if name = other then none else standing w.log other) = _ ∨ _
    rw [lastGrant] at hg
    by_cases hname : name = other
    · rw [if_pos hname]
      subst hname
      by_cases ho : owner = o
      · rw [if_pos ⟨rfl, ho⟩] at hg
        cases hg
      · rw [if_neg fun hh => ho hh.2] at hg
        rcases h.lapsed name o x hg with hstand | hx
        · have hrow := h.stands name
          rw [hstand] at hrow
          obtain ⟨r, hr, hrn, hro, -⟩ := hrow
          have hrl : r = l := Rows.eq_of_key h.names hr hl (hrn.trans (heldBy_name l hheld).symm)
          subst hrl
          exact absurd (Owner.ext (howner.symm.trans hro)) ho
        · exact Or.inr hx
    · rw [if_neg hname]
      rw [if_neg fun hh => hname hh.1] at hg
      exact h.lapsed other o x hg

variable {name owner : String}

theorem heldBy_owner {l : Lease} (h : heldBy name owner l = true) :
    l.owner = owner := beq_iff_eq.mp (Bool.and_eq_true_iff.mp h).2

theorem mayTake_free {now : Time} {l : Lease}
    (h : mayTake name owner now l = true) : l.expiresAt ≤ now ∨ l.owner = owner := by
  rcases Bool.or_eq_true_iff.mp (Bool.and_eq_true_iff.mp h).2 with h | h
  · exact Or.inl (of_decide_eq_true h)
  · exact Or.inr (beq_iff_eq.mp h)

/-- A row released is nobody's. -/
theorem stands_release (hn : (table.map (·.name)).Nodup)
    (now : Time) (hfound : ∃ l ∈ table, heldBy name owner l = true) :
    Stands (release name owner now table) name none := by
  obtain ⟨r, hr, hheld⟩ := hfound
  intro l hl hlo
  rcases Rows.mem_update.mp hl with ⟨old, -, -, rfl⟩ | ⟨hl, hnot⟩
  · rfl
  · have hlr : l = r := Rows.eq_of_key hn hl hr (hlo.trans (heldBy_name r hheld).symm)
    rw [hlr, hheld] at hnot
    cases hnot

theorem stands_drop (hn : (table.map (·.name)).Nodup)
    (hfound : ∃ l ∈ table, heldBy name owner l = true) :
    Stands (drop name owner table) name none := by
  obtain ⟨r, hr, hheld⟩ := hfound
  intro l hl hlo
  obtain ⟨hl, hnot⟩ := Rows.mem_delete.mp hl
  have hlr : l = r := Rows.eq_of_key hn hl hr (hlo.trans (heldBy_name r hheld).symm)
  rw [hlr, hheld] at hnot
  cases hnot

theorem Consistent.finish (h : Consistent w) {c : Call} (hmem : c ∈ w.calls) :
    Consistent { w with
      table := (c.statement w.clock w.table).1
      calls := w.calls.erase c
      log := (c.statement w.clock w.table).2 ++ w.log } := by
  have hc : ∀ d ∈ w.calls.erase c, d.now ≤ w.clock := fun d hd => h.past d (List.mem_of_mem_erase hd)
  have hnow := h.past c hmem
  rcases c with ⟨name, owner, request, now, created⟩
  cases request with
  | acquire ttl =>
    rcases found_or_unchanged h.names (@mayTake_name name owner.name now) with ⟨hf, hone⟩ | ⟨hz, hu⟩
    · have hgrant := h.grant (f := taken owner.name ttl now) (e := now + seconds ttl) hc hnow
        (@mayTake_name name owner.name now) (fun l => mayTake_free) (fun _ => rfl)
        (fun _ _ => ⟨rfl, rfl⟩) hf
      simpa only [Call.statement, take, hone, BEq.rfl, if_true, List.singleton_append] using hgrant
    · have hkeep := h.keep h.names hc h.stands
      have hzero : ((0 : Nat) == 1) = false := rfl
      simpa only [Call.statement, take, hz, Rows.update_eq_self hu, hzero, Bool.false_eq_true, if_false,
        List.nil_append] using hkeep
  | renew ttl =>
    rcases found_or_unchanged h.names (@heldBy_name name owner.name) with ⟨hf, hone⟩ | ⟨hz, hu⟩
    · have hgrant := h.grant (f := renewed ttl now) (e := now + seconds ttl) hc hnow
        (@heldBy_name name owner.name) (fun l hl => Or.inr (heldBy_owner hl)) (fun _ => rfl)
        (fun l hl => ⟨heldBy_owner hl, rfl⟩) hf
      simpa only [Call.statement, renew, hone, BEq.rfl, if_true, List.singleton_append] using hgrant
    · have hkeep := h.keep h.names hc h.stands
      have hzero : ((0 : Nat) == 1) = false := rfl
      simpa only [Call.statement, renew, hz, Rows.update_eq_self hu, hzero, Bool.false_eq_true,
        if_false,
        List.nil_append] using hkeep
  | release =>
    rcases found_or_unchanged h.names (@heldBy_name name owner.name) with ⟨hf, -⟩ | ⟨-, hu⟩
    · have hany : w.table.any (heldBy name owner.name) = true := List.any_eq_true.mpr hf
      have hnames : (release name owner.name now w.table).map (·.name) = w.table.map (·.name) :=
        Rows.map_update _ fun _ _ _ => rfl
      have hback := h.giveBack hc hf (hnames ▸ h.names) (stands_release h.names now hf)
        fun other ho => stands_update_ne (f := released now) (@heldBy_name name owner.name)
          (fun _ => rfl) ho (h.stands other)
      simpa only [Call.statement, hany, if_true, List.singleton_append] using hback
    · have hany : w.table.any (heldBy name owner.name) = false := any_eq_false hu
      have hkeep := h.keep h.names hc h.stands
      simpa only [Call.statement, hany, release, Rows.update_eq_self hu, Bool.false_eq_true, if_false,
        List.nil_append] using hkeep
  | drop =>
    rcases found_or_unchanged h.names (@heldBy_name name owner.name) with ⟨hf, -⟩ | ⟨-, hu⟩
    · have hany : w.table.any (heldBy name owner.name) = true := List.any_eq_true.mpr hf
      have hnames : ((drop name owner.name w.table).map (·.name)).Nodup :=
        h.names.sublist (List.filter_sublist.map _)
      have hback := h.giveBack hc hf hnames (stands_drop h.names hf) fun other ho =>
        stands_delete_ne (@heldBy_name name owner.name) ho (h.stands other)
      simpa only [Call.statement, hany, if_true, List.singleton_append] using hback
    · have hany : w.table.any (heldBy name owner.name) = false := any_eq_false hu
      have hkeep := h.keep h.names hc h.stands
      simpa only [Call.statement, hany, drop, Rows.delete_eq_self hu, Bool.false_eq_true, if_false,
        List.nil_append] using hkeep

variable {a : Action}

theorem Consistent.step (hstep : step w a = some w') (h : Consistent w) : Consistent w' := by
  cases a with
  | tick passed =>
    cases hstep
    have hle : w.clock ≤ w.clock + passed := Int.le_add_of_nonneg_right (Int.natCast_nonneg passed)
    refine ⟨h.names, fun c hc => Int.le_trans (h.past c hc) hle, h.stands, ?_, h.ordered⟩
    intro name owner e hg
    rcases h.lapsed name owner e hg with hs | he
    · exact Or.inl hs
    · exact Or.inr (Int.le_trans he hle)
  | call name owner request =>
    cases hstep
    refine h.keep h.names (fun c hc => ?_) h.stands
    rcases List.mem_cons.mp hc with rfl | hc
    · exact Int.le_refl _
    · exact h.past c hc
  | create c =>
    simp only [Leases.step, Option.ite_none_right_eq_some, Option.some.injEq] at hstep
    obtain ⟨⟨hmem, -⟩, rfl⟩ := hstep
    refine h.keep (names_create c.now h.names) (fun d hd => ?_) fun name =>
      stands_create (h.stands name)
    rcases List.mem_cons.mp hd with rfl | hd
    · exact h.past c hmem
    · exact h.past d (List.mem_of_mem_erase hd)
  | finish c =>
    simp only [Leases.step, Option.ite_none_right_eq_some, Option.some.injEq] at hstep
    obtain ⟨⟨hmem, -⟩, rfl⟩ := hstep
    exact h.finish hmem

theorem consistent_start (clock : Time) : Consistent (World.start clock) :=
  ⟨List.nodup_nil, fun _ h => (List.not_mem_nil h).elim, fun _ _ h => (List.not_mem_nil h).elim,
    fun _ _ _ h => (Option.some_ne_none _ h.symm).elim, trivial⟩

/-! ## 6. Rows and calls over one step -/

/-- A call that gives the lease for a time to come. -/
def Call.grants (c : Call) : Bool :=
  match c.request with
  | .acquire _ => true
  | .renew _ => true
  | _ => false

section

variable (h : Leases.step w a = some w')

include h

theorem step_clock : w.clock ≤ w'.clock := by
  cases a with
  | tick passed =>
    cases h
    exact Int.le_add_of_nonneg_right (Int.natCast_nonneg passed)
  | call name owner request => exact Option.some.inj h ▸ Int.le_refl _
  | create _ | finish _ =>
    obtain ⟨-, h⟩ := Option.ite_none_right_eq_some.mp h
    exact Option.some.inj h ▸ Int.le_refl _

/-- A call comes from a call of before, or has just been made. -/
theorem step_calls {c : Call} (hc : c ∈ w'.calls) :
    (∃ d ∈ w.calls, c.name = d.name ∧ c.now = d.now) ∨
      ∃ owner request, a = .call c.name owner request ∧ c.now = w.clock := by
  cases a with
  | tick passed =>
    cases h
    exact Or.inl ⟨c, hc, rfl, rfl⟩
  | call name owner request =>
    cases h
    rcases List.mem_cons.mp hc with rfl | hc
    · exact Or.inr ⟨owner, request, rfl, rfl⟩
    · exact Or.inl ⟨c, hc, rfl, rfl⟩
  | create d =>
    obtain ⟨⟨hd, -⟩, h⟩ := Option.ite_none_right_eq_some.mp h
    cases h
    rcases List.mem_cons.mp hc with rfl | hc
    · exact Or.inl ⟨d, hd, rfl, rfl⟩
    · exact Or.inl ⟨c, List.mem_of_mem_erase hc, rfl, rfl⟩
  | finish d =>
    obtain ⟨-, ⟨⟩⟩ := Option.ite_none_right_eq_some.mp h
    exact Or.inl ⟨c, List.mem_of_mem_erase hc, rfl, rfl⟩

theorem step_names (hn : (w.table.map (·.name)).Nodup) : (w'.table.map (·.name)).Nodup := by
  cases a with
  | tick _ | call _ _ _ => exact Option.some.inj h ▸ hn
  | create c =>
    obtain ⟨-, h⟩ := Option.ite_none_right_eq_some.mp h
    exact Option.some.inj h ▸ names_create c.now hn
  | finish c =>
    obtain ⟨-, ⟨⟩⟩ := Option.ite_none_right_eq_some.mp h
    have hupdate : ∀ (p : Lease → Bool) (f : Lease → Lease), (∀ l, (f l).name = l.name) →
        ((Rows.update p f w.table).map (·.name)).Nodup := fun p f hf => by
      rw [Rows.map_update _ fun l _ _ => hf l]
      exact hn
    rcases c with ⟨name, owner, request, now, created⟩
    cases request with
    | acquire ttl => exact hupdate _ _ fun _ => rfl
    | renew ttl => exact hupdate _ _ fun _ => rfl
    | release => exact hupdate _ _ fun _ => rfl
    | drop => exact hn.sublist (List.filter_sublist.map _)

/-- A row is one of before, or was written by a call: to end when the call read the clock, or later
    where the call grants the lease. -/
theorem step_rows {l : Lease} (hl : l ∈ w'.table) :
    l ∈ w.table ∨ ∃ c ∈ w.calls, l.name = c.name ∧
      (l.expiresAt = c.now ∨ a = .finish c ∧ c.grants = true) := by
  cases a with
  | tick _ | call _ _ _ =>
    cases h
    exact Or.inl hl
  | create c =>
    obtain ⟨⟨hc, -⟩, h⟩ := Option.ite_none_right_eq_some.mp h
    cases h
    simp only [getOrCreate] at hl
    split at hl
    · exact Or.inl hl
    · rcases List.mem_append.mp hl with hl | hl
      · exact Or.inl hl
      · obtain rfl := List.mem_singleton.mp hl
        exact Or.inr ⟨c, hc, rfl, Or.inl rfl⟩
  | finish c =>
    obtain ⟨⟨hc, -⟩, h⟩ := Option.ite_none_right_eq_some.mp h
    cases h
    rcases c with ⟨name, owner, request, now, created⟩
    cases request with
    | acquire ttl =>
      rcases Rows.mem_update.mp hl with ⟨old, -, hp, rfl⟩ | ⟨hl, -⟩
      · exact Or.inr ⟨_, hc, mayTake_name old hp, Or.inr ⟨rfl, rfl⟩⟩
      · exact Or.inl hl
    | renew ttl =>
      rcases Rows.mem_update.mp hl with ⟨old, -, hp, rfl⟩ | ⟨hl, -⟩
      · exact Or.inr ⟨_, hc, heldBy_name old hp, Or.inr ⟨rfl, rfl⟩⟩
      · exact Or.inl hl
    | release =>
      rcases Rows.mem_update.mp hl with ⟨old, -, hp, rfl⟩ | ⟨hl, -⟩
      · exact Or.inr ⟨_, hc, heldBy_name old hp, Or.inl rfl⟩
      · exact Or.inl hl
    | drop => exact Or.inl (Rows.mem_delete.mp hl).1

end

/-! ## 7. One owner at a time -/

/-- An owner was granted the lease until a moment that has not come, and has not given it back. -/
def Holds (w : World) (name : String) (owner : Owner) : Prop :=
  ∃ e, lastGrant w.log name owner = some e ∧ w.clock < e

/-- The lease is not this owner's any more: another acquired it, or it was given back. -/
def Lost (w : World) (name : String) (owner : Owner) : Prop :=
  ∀ e, standing w.log name ≠ some (owner, e)

theorem Consistent.lost (h : Consistent w) {name : String} {owner : Owner} (hl : Lost w name owner) :
    ∀ l ∈ w.table, heldBy name owner.name l = false := by
  intro l hmem
  rw [← Bool.not_eq_true]
  intro hheld
  have hname := heldBy_name l hheld
  have howner := heldBy_owner hheld
  have hrow := h.stands name
  cases hs : standing w.log name with
  | none =>
    rw [hs] at hrow
    exact owner.named (howner.symm.trans (hrow l hmem hname))
  | some g =>
    obtain ⟨other, e⟩ := g
    rw [hs] at hrow
    obtain ⟨r, hr, hrn, hro, -⟩ := hrow
    have hrl : r = l := Rows.eq_of_key h.names hr hmem (hrn.trans hname.symm)
    have hsame : other = owner := Owner.ext (hro.symm.trans (hrl ▸ howner))
    exact hl e (hsame ▸ hs)

/-- **Mutual exclusion.** In every state reached by calls of any owners in any order: whoever was
    granted a lease was granted it when the last expiry granted to another, who had not given it
    back, had come; no two owners hold one unexpired lease; and a renew or release by an owner who
    lost the lease finds nothing to change. -/
theorem lease_exclusive {clock : Time} (h : Runs.Reachable step (World.start clock) w) :
    (∀ name a b e e' t before after, a ≠ b → w.log = after ++ .granted name b e' t :: before →
      lastGrant before name a = some e → e ≤ t) ∧
    (∀ name a b, Holds w name a → Holds w name b → a = b) ∧
    (∀ name a, Lost w name a → ∀ ttl now,
      renew name a.name ttl now w.table = (false, w.table) ∧
      release name a.name now w.table = w.table) := by
  have hw : Consistent w := h.invariant (fun _ _ _ hstep hc => hc.step hstep) (consistent_start clock)
  refine ⟨fun name a b e e' t before after hne hlog hg => hw.ordered.moment hlog hne hg, ?_, ?_⟩
  · rintro name a b ⟨e, hg, he⟩ ⟨e', hg', he'⟩
    have hlate : ∀ {x : Time}, w.clock < x → ¬ x ≤ w.clock := fun h1 h2 => Int.not_le.mpr h1 h2
    have ha := (hw.lapsed name a e hg).resolve_right (hlate he)
    have hb := (hw.lapsed name b e' hg').resolve_right (hlate he')
    exact (Prod.mk.inj (Option.some.inj (ha.symm.trans hb))).1
  · intro name a hl ttl now
    have hnone := hw.lost hl
    have hcount : w.table.countP (heldBy name a.name) = 0 :=
      List.countP_eq_zero.mpr fun l hmem => by rw [hnone l hmem]; exact Bool.false_ne_true
    refine ⟨?_, Rows.update_eq_self hnone⟩
    rw [renew, hcount, Rows.update_eq_self hnone]
    rfl

theorem first_named : "first" ≠ "" := by decide

theorem second_named : "second" ≠ "" := by decide

def first : Owner := ⟨"first", first_named⟩

def second : Owner := ⟨"second", second_named⟩

/-- The second owner acquires the lease when the ten seconds of the first have passed. -/
def takeover : List Action :=
  [.call "dbs.runner" first (.acquire 10), .create ⟨"dbs.runner", first, .acquire 10, 0, false⟩,
    .finish ⟨"dbs.runner", first, .acquire 10, 0, true⟩, .tick 10000000,
    .call "dbs.runner" second (.acquire 10),
    .create ⟨"dbs.runner", second, .acquire 10, 10000000, false⟩,
    .finish ⟨"dbs.runner", second, .acquire 10, 10000000, true⟩]

def takenOver : World :=
  ⟨10000000, [⟨"dbs.runner", "second", 20000000, 10000000⟩], [],
    [.granted "dbs.runner" second 20000000 10000000, .granted "dbs.runner" first 10000000 0]⟩

/-- After it the first owner can neither renew nor release the lease. -/
theorem lease_exclusive_takeover : Runs.run step (World.start 0) takeover = some takenOver ∧
    Holds takenOver "dbs.runner" second ∧
    renew "dbs.runner" first.name 10 10000000 takenOver.table = (false, takenOver.table) := by
  have hrun : Runs.run step (World.start 0) takeover = some takenOver := rfl
  have hlost : Lost takenOver "dbs.runner" first := fun e h =>
    absurd (Prod.mk.inj (Option.some.inj h)).1 (by decide)
  exact ⟨hrun, ⟨20000000, rfl, by decide⟩,
    ((lease_exclusive ⟨takeover, hrun⟩).2.2 "dbs.runner" first hlost 10 10000000).1⟩

end Leases

end Dbs

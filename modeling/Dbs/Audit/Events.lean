/-
  File:      Dbs/Audit/Events.lean
  Subject:   THE AUDIT TRAIL: its rows and what each operation writes to them.

  * `DateTime` -- a moment as the columns hold it; `isoformat_inj` -- its text is that of no other;
  * `AuditEvent` -- a row; `record`, `queue` -- the two ways it comes in;
  * `start`, `finish`, `fail`, `interrupt` -- the updates: each looks for unfinished rows only.
-/
import Dbs.Lib.Json
import Dbs.Lib.Rows
import Mathlib.Algebra.Group.Nat.Defs

namespace Dbs

/-! ## 1. Moments -/

/-- With leap years. -/
def daysInMonth (year month : Nat) : Nat :=
  if month = 2 then if year % 4 = 0 ∧ (year % 100 ≠ 0 ∨ year % 400 = 0) then 29 else 28
  else if month = 4 ∨ month = 6 ∨ month = 9 ∨ month = 11 then 30
  else 31

/-- A `datetime` as a column gives it: in UTC where the site uses time zones, else without a zone. -/
structure DateTime where
  year : Nat
  month : Nat
  day : Nat
  hour : Nat
  minute : Nat
  second : Nat
  microsecond : Nat
  aware : Bool
  year_le : year ≤ 9999
  month_bounds : 1 ≤ month ∧ month ≤ 12
  day_bounds : 1 ≤ day ∧ day ≤ daysInMonth year month
  hour_lt : hour < 24
  minute_lt : minute < 60
  second_lt : second < 60
  microsecond_lt : microsecond < 1000000

namespace DateTime

/-- From the year down. -/
def fields (d : DateTime) : List Nat :=
  [d.year, d.month, d.day, d.hour, d.minute, d.second, d.microsecond]

/-- The earlier moment. -/
def before (d e : DateTime) : Bool := decide (d.fields < e.fields)

/-- With zeros in front. -/
def padded (width n : Nat) : List Char := (Nat.toDigits 10 n).leftpad width '0'

/-- What `isoformat` writes behind the seconds. -/
def isoEnd (d : DateTime) : List Char :=
  (if d.microsecond = 0 then [] else '.' :: padded 6 d.microsecond) ++
    if d.aware then ['+', '0', '0', ':', '0', '0'] else []

/-- `moment.isoformat()`. -/
def isoformat (d : DateTime) : List Char :=
  padded 4 d.year ++ '-' :: (padded 2 d.month ++ '-' :: (padded 2 d.day ++ 'T' ::
    (padded 2 d.hour ++ ':' :: (padded 2 d.minute ++ ':' :: (padded 2 d.second ++ d.isoEnd)))))

theorem padded_length {width n : Nat} (hw : 0 < width) (hn : n < 10 ^ width) :
    (padded width n).length = width := by
  have h := (Nat.length_toDigits_le_iff (by decide) hw).mpr hn
  rw [padded, List.length_leftpad]
  exact Nat.max_eq_left h

/-- The number is read back. -/
theorem ofDigitChars_padded (width n : Nat) : Nat.ofDigitChars 10 (padded width n) 0 = n := by
  rw [padded, List.leftpad, Nat.ofDigitChars_append, Nat.ofDigitChars_replicate_zero,
    Nat.mul_zero, Nat.ofDigitChars_ten_toDigits]

theorem padded_inj {width n m : Nat} (h : padded width n = padded width m) : n = m := by
  rw [← ofDigitChars_padded width n, ← ofDigitChars_padded width m, h]

/-- Fields of one width, each behind the other. -/
theorem padded_append_inj {width n m : Nat} (hw : 0 < width) (hn : n < 10 ^ width)
    (hm : m < 10 ^ width) {r s : List Char} (h : padded width n ++ r = padded width m ++ s) :
    n = m ∧ r = s := by
  obtain ⟨hp, hr⟩ := List.append_inj h (by rw [padded_length hw hn, padded_length hw hm])
  exact ⟨padded_inj hp, hr⟩

theorem isoEnd_inj {d e : DateTime} (h : d.isoEnd = e.isoEnd) :
    d.microsecond = e.microsecond ∧ d.aware = e.aware := by
  have hl : ∀ n < 1000000, (padded 6 n).length = 6 := fun n hn => padded_length (by decide) hn
  have hd := hl _ d.microsecond_lt
  have he := hl _ e.microsecond_lt
  have hlen := congrArg List.length h
  unfold isoEnd at h hlen
  by_cases hd0 : d.microsecond = 0 <;> by_cases he0 : e.microsecond = 0
  · rw [if_pos hd0, if_pos he0] at hlen
    refine ⟨hd0.trans he0.symm, ?_⟩
    cases hda : d.aware <;> cases hea : e.aware <;> simp [hda, hea] at hlen ⊢
  · rw [if_pos hd0, if_neg he0] at h
    cases hda : d.aware <;> simp [hda] at h
  · rw [if_neg hd0, if_pos he0] at h
    cases hea : e.aware <;> simp [hea] at h
  · rw [if_neg hd0, if_neg he0, List.cons_append, List.cons_append] at h
    obtain ⟨hm, hz⟩ := padded_append_inj (by decide) d.microsecond_lt e.microsecond_lt
      (List.cons.inj h).2
    refine ⟨hm, ?_⟩
    cases hda : d.aware <;> cases hea : e.aware <;> simp [hda, hea] at hz ⊢

/-- **The text of a moment** is that of no other. -/
theorem isoformat_inj {d e : DateTime} (h : d.isoformat = e.isoformat) : d = e := by
  have hday : ∀ x : DateTime, x.day < 10 ^ 2 := by
    intro x
    have h1 := x.day_bounds.2
    unfold daysInMonth at h1
    split at h1
    · split at h1 <;> omega
    · split at h1 <;> omega
  have htwo : ∀ {n : Nat}, n < 60 → n < 10 ^ 2 := fun h => by omega
  have hd := d.year_le
  have he := e.year_le
  obtain ⟨hyear, h⟩ := padded_append_inj (by decide) (by omega) (by omega) h
  obtain ⟨hmonth, h⟩ := padded_append_inj (by decide) (htwo (by have := d.month_bounds; omega))
    (htwo (by have := e.month_bounds; omega)) (List.cons.inj h).2
  obtain ⟨hdayeq, h⟩ := padded_append_inj (by decide) (hday d) (hday e) (List.cons.inj h).2
  obtain ⟨hhour, h⟩ := padded_append_inj (by decide) (htwo (by have := d.hour_lt; omega))
    (htwo (by have := e.hour_lt; omega)) (List.cons.inj h).2
  obtain ⟨hminute, h⟩ := padded_append_inj (by decide) (htwo d.minute_lt) (htwo e.minute_lt)
    (List.cons.inj h).2
  obtain ⟨hsecond, h⟩ := padded_append_inj (by decide) (htwo d.second_lt) (htwo e.second_lt)
    (List.cons.inj h).2
  obtain ⟨hmicro, haware⟩ := isoEnd_inj h
  cases d
  cases e
  simp only at hyear hmonth hdayeq hhour hminute hsecond hmicro haware
  subst hyear hmonth hdayeq hhour hminute hsecond hmicro haware
  rfl

end DateTime

/-! ## 2. Rows -/

/-- The states of an event. -/
inductive AuditStatus where
  | queued
  | running
  | succeeded
  | failed
deriving DecidableEq, Repr

/-- As they are stored. -/
def AuditStatus.value : AuditStatus → String
  | .queued => "queued"
  | .running => "running"
  | .succeeded => "succeeded"
  | .failed => "failed"

namespace Audit

/-- `FINISHED`. -/
def finished : List String := [AuditStatus.succeeded.value, AuditStatus.failed.value]

/-- `UNFINISHED`. -/
def unfinished : List String := [AuditStatus.queued.value, AuditStatus.running.value]

/-- The error code of a stopped event. -/
def interrupted : String := "interrupted"

/-- The most characters of an action. -/
def actionMax : Nat := 64
def targetMax : Nat := 1024
def detailMax : Nat := 4000
def addressMax : Nat := 64
def errorCodeMax : Nat := 64
def subjectMax : Nat := 64

/-- `text[:length]`. -/
def cut (length : Nat) (text : String) : String := String.ofList (text.toList.take length)

/-- The members of a JSON object. -/
abbrev Data := List (Json.Text × Json.Value)

end Audit

open Audit

/-- A row of the audit table. The status is a column of text: whoever can write to the database can
    write anything there. -/
structure AuditEvent where
  pk : Nat
  actor : Option Nat
  action : String
  targetName : String
  detail : String
  data : Json.Value
  status : String
  errorCode : String
  subject : String
  remoteAddr : String
  succeeded : Bool
  startedAt : Option DateTime
  finishedAt : Option DateTime
  createdAt : DateTime
  chainIndex : Option Nat
  chainHash : String

namespace AuditEvent

/-- An end is recorded. -/
def isFinished (e : AuditEvent) : Bool := finished.contains e.status

/-- Queued or running. -/
def isUnfinished (e : AuditEvent) : Bool := unfinished.contains e.status

/-- It has its place in the chain. -/
def isSealed (e : AuditEvent) : Bool := e.chainIndex.isSome

theorem not_isUnfinished {e : AuditEvent} (h : e.isFinished = true) : e.isUnfinished = false := by
  simp only [isFinished, finished, isUnfinished, unfinished, List.contains_cons, List.contains_nil,
    Bool.or_false, Bool.or_eq_true, beq_iff_eq] at *
  rcases h with h | h <;> rw [h] <;> decide

end AuditEvent

namespace Audit

/-! ## 3. What comes in -/

/-- The arguments of `record`. -/
structure Recording where
  action : String
  actor : Option Nat := none
  target : String := ""
  detail : String := ""
  data : Data := []
  status : AuditStatus := .succeeded
  errorCode : String := ""
  remoteAddr : String := ""
  subject : String := ""
  startedAt : Option DateTime := none
  finishedAt : Option DateTime := none

/-- The row that `record` inserts; `createdAt` is the moment of the insert itself. -/
def recorded (pk : Nat) (r : Recording) (now createdAt : DateTime) : AuditEvent where
  pk := pk
  actor := r.actor
  action := cut actionMax r.action
  targetName := cut targetMax r.target
  detail := cut detailMax r.detail
  data := .obj r.data
  status := r.status.value
  errorCode := cut errorCodeMax r.errorCode
  subject := cut subjectMax r.subject
  remoteAddr := cut addressMax r.remoteAddr
  succeeded := r.status == .succeeded
  startedAt := some (r.startedAt.getD now)
  finishedAt := match r.finishedAt with
    | some moment => some moment
    | none => if finished.contains r.status.value then some now else none
  createdAt := createdAt
  chainIndex := none
  chainHash := ""

/-- A finished event, in one statement. -/
def record (pk : Nat) (r : Recording) (now createdAt : DateTime) (table : List AuditEvent) :
    List AuditEvent := table ++ [recorded pk r now createdAt]

/-- The arguments of `queue`. -/
structure Queueing where
  action : String
  actor : Option Nat := none
  target : String := ""
  data : Data := []
  subject : String := ""
  remoteAddr : String := ""

/-- The row of a queued event. -/
def queued (pk : Nat) (q : Queueing) (createdAt : DateTime) : AuditEvent where
  pk := pk
  actor := q.actor
  action := cut actionMax q.action
  targetName := cut targetMax q.target
  detail := ""
  data := .obj q.data
  status := AuditStatus.queued.value
  errorCode := ""
  subject := cut subjectMax q.subject
  remoteAddr := cut addressMax q.remoteAddr
  succeeded := false
  startedAt := none
  finishedAt := none
  createdAt := createdAt
  chainIndex := none
  chainHash := ""

/-- A new event that waits. -/
def queue (pk : Nat) (q : Queueing) (createdAt : DateTime) (table : List AuditEvent) :
    List AuditEvent := table ++ [queued pk q createdAt]

/-! ## 4. What is updated -/

/-- `filter(pk=event_id, status__in=UNFINISHED)`. -/
def isOpen (pk : Nat) (e : AuditEvent) : Bool := e.pk == pk && e.isUnfinished

/-- The row of an event that runs. -/
def started (now : DateTime) (e : AuditEvent) : AuditEvent :=
  { e with status := AuditStatus.running.value, startedAt := some now }

/-- Only a queued event starts. -/
def start (pk : Nat) (now : DateTime) (table : List AuditEvent) : List AuditEvent :=
  Rows.update (isOpen pk) (started now) table

/-- The fields that `_close` writes. -/
def closed (status : AuditStatus) (data : Option Data) (errorCode detail : String) (now : DateTime)
    (e : AuditEvent) : AuditEvent :=
  { e with
    status := status.value
    succeeded := status == .succeeded
    errorCode := cut errorCodeMax errorCode
    finishedAt := some now
    data := match data with
      | some members => .obj members
      | none => e.data
    detail := if detail = "" then e.detail else cut detailMax detail }

/-- `_close`: only an open event ends. -/
def close (pk : Nat) (status : AuditStatus) (data : Option Data) (errorCode detail : String)
    (now : DateTime) (table : List AuditEvent) : List AuditEvent :=
  Rows.update (isOpen pk) (closed status data errorCode detail now) table

/-- It ended well. -/
def finish (pk : Nat) (data : Option Data) (now : DateTime) (table : List AuditEvent) :
    List AuditEvent := close pk .succeeded data "" "" now table

/-- It ended with an error. -/
def fail (pk : Nat) (errorCode : String) (data : Option Data) (detail : String) (now : DateTime)
    (table : List AuditEvent) : List AuditEvent := close pk .failed data errorCode detail now table

/-- A column without a value is before nothing. -/
def isBefore (moment : Option DateTime) (limit : DateTime) : Bool :=
  match moment with
  | some moment => moment.before limit
  | none => false

/-- The rows that `interrupt` looks for. -/
def interruptible (idleSince : Option DateTime) (keep : List Nat) (events : Option (List Nat))
    (e : AuditEvent) : Bool :=
  let queued := e.status == AuditStatus.queued.value
  let running := e.status == AuditStatus.running.value
  let idle := match idleSince with
    | none => queued || running
    | some since => (queued && e.createdAt.before since) || (running && isBefore e.startedAt since)
  let listed := match events with
    | none => true
    | some pks => pks.contains e.pk
  idle && !keep.contains e.pk && listed

/-- The row of an interrupted event. -/
def stopped (now : DateTime) (e : AuditEvent) : AuditEvent :=
  { e with
    status := AuditStatus.failed.value
    succeeded := false
    errorCode := interrupted
    finishedAt := some now }

/-- Ends what is open, idle and not kept. -/
def interrupt (idleSince : Option DateTime) (keep : List Nat) (events : Option (List Nat))
    (now : DateTime) (table : List AuditEvent) : List AuditEvent :=
  Rows.update (interruptible idleSince keep events) (stopped now) table

theorem isOpen_unfinished {pk : Nat} {e : AuditEvent} (h : isOpen pk e = true) :
    e.isUnfinished = true := (Bool.and_eq_true_iff.mp h).2

/-- Whatever is asked for, a row that is interrupted was unfinished. -/
theorem interruptible_unfinished {idleSince : Option DateTime} {keep : List Nat}
    {events : Option (List Nat)} {e : AuditEvent} (h : interruptible idleSince keep events e = true) :
    e.isUnfinished = true := by
  have hidle := (Bool.and_eq_true_iff.mp (Bool.and_eq_true_iff.mp h).1).1
  have hstatus : e.status = AuditStatus.queued.value ∨ e.status = AuditStatus.running.value := by
    cases idleSince with
    | none =>
      rcases Bool.or_eq_true_iff.mp hidle with h | h
      · exact Or.inl (beq_iff_eq.mp h)
      · exact Or.inr (beq_iff_eq.mp h)
    | some since =>
      rcases Bool.or_eq_true_iff.mp hidle with h | h
      · exact Or.inl (beq_iff_eq.mp (Bool.and_eq_true_iff.mp h).1)
      · exact Or.inr (beq_iff_eq.mp (Bool.and_eq_true_iff.mp h).1)
  rcases hstatus with h | h <;> rw [AuditEvent.isUnfinished, h] <;> decide

end Audit

end Dbs

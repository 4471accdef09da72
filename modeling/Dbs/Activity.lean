/-
  File:      Dbs/Activity.lean
  Subject:   THE EVENT OF A JOB (activity_service.py over audit.py): queued, started, its detail
             stored while it runs, closed once; or marked interrupted when its process is gone.

  * `JobEvent` -- the columns the jobs read, the detail of type `δ`;
  * `start`, `progress`, `close`, `interrupt` -- the updates, each on the rows it looks for.
-/
import Dbs.Audit.Events

namespace Dbs.Activity

variable {δ : Type}

structure JobEvent (δ : Type) where
  action : String
  status : AuditStatus
  data : δ

namespace JobEvent

/-- `status__in=UNFINISHED`. -/
def isUnfinished (e : JobEvent δ) : Bool := e.status == .queued || e.status == .running

/-- `ActivityService.start`: `none` where the row was closed before. -/
def start (e : JobEvent δ) : Option (JobEvent δ) :=
  if e.isUnfinished then some { e with status := .running } else none

/-- `set_running_data`. -/
def progress (data : δ) (e : JobEvent δ) : JobEvent δ :=
  if e.status = .running then { e with data } else e

/-- `_close`. -/
def close (status : AuditStatus) (data : Option δ) (e : JobEvent δ) : JobEvent δ :=
  if e.isUnfinished then { e with status, data := data.getD e.data } else e

def succeed (data : δ) : JobEvent δ → JobEvent δ := close .succeeded (some data)

def fail (data : Option δ) : JobEvent δ → JobEvent δ := close .failed data

/-- `interrupt`, of a job that nobody holds: the detail stays as it was stored last. -/
def interrupt (e : JobEvent δ) : JobEvent δ :=
  if e.isUnfinished then { e with status := .failed } else e

variable {e : JobEvent δ} {data : δ}

theorem progress_of_running (h : e.status = .running) : e.progress data = { e with data } :=
  if_pos h

theorem close_of_running {status : AuditStatus} {d : Option δ} (h : e.status = .running) :
    e.close status d = { e with status, data := d.getD e.data } :=
  if_pos (by rw [isUnfinished, h]; rfl)

theorem start_eq_some {e' : JobEvent δ} (h : e.start = some e') :
    e'.status = .running ∧ e'.data = e.data := by
  unfold start at h
  split at h
  · cases h
    exact ⟨rfl, rfl⟩
  · cases h

end JobEvent

end Dbs.Activity

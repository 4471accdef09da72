/-
  File:      Dbs/Pipeline.lean
  Subject:   THE PIPELINE'S CHANNELS (engine/pipeline.py, Pipeline and Channel): bounded queues between
             threads, a flag that stops everybody, and the first failure.

  A put and a get hold their channel's lock from the check of their loop's condition to their end, and
  give it up while they wait. The flag is set under the pipeline's own lock, so it can change between
  a call's check and its end; stopping then wakes the channels one after another, under their locks.

  * `Channel` -- with everything ever put and got on record;
  * `Call` -- a call under way and where it is; `effect` -- its next step, if it is not blocked;
  * `Sound` -- what every step keeps; `step_sound`;
  * `awaited` -- a stopped or failed pipeline still owes a notification to whoever waits unnotified;
  * `work` -- once stopped every step comes nearer the end, and some step can be taken;
  * `pipeline_sound` -- every reachable state; `stopped_unnotified` -- between the flag and the wakes.
-/
import Mathlib.Algebra.BigOperators.Group.List.Basic
import Mathlib.Algebra.GroupWithZero.Nat
import Dbs.Lib.Runs

namespace Dbs.Pipeline

variable {α ε : Type}

/-! ## 1. Channels -/

/-- What a channel carries: an item, or the `_END` behind the last one. -/
inductive Entry (α : Type)
  | item (item : α)
  | sentinel
deriving DecidableEq

def Entry.size (size : α → Nat) : Entry α → Nat
  | .item x => size x
  | .sentinel => 0

def Entry.item? : Entry α → Option α
  | .item x => some x
  | .sentinel => none

structure Channel (α : Type) where
  capacity : Nat
  items : List (Entry α) := []
  bytes : Nat := 0
  /-- Everything put, oldest first, and everything got, each entry with the thread that got it. -/
  put : List (Entry α) := []
  got : List (Nat × Entry α) := []
deriving DecidableEq

/-- Where a call of `put` or `get` is: before its lock, in `wait`, woken and before its lock again, or
    past its loop and holding the lock. -/
inductive Stage
  | entering
  | waiting
  | notified
  | passing
deriving DecidableEq

inductive Method (α : Type)
  | put (item : α)
  | get
deriving DecidableEq

inductive Call (α ε : Type)
  | access (thread channel : Nat) (method : Method α) (stage : Stage)
  | close (thread channel : Nat)
  | stop (thread : Nat)
  /-- `stop` with the flag set; `next` is the channel to wake next -/
  | waking (thread next : Nat)
  | fail (thread : Nat) (failure : ε)
deriving DecidableEq

inductive Outcome (α : Type)
  | returned
  | got (entry : Entry α)
  | raisedStopped
  | indexError
deriving DecidableEq

/-- The threads and the channels. -/
structure World (α ε : Type) where
  stopped : Bool := false
  failure : Option ε := none
  channels : List (Channel α) := []
  calls : List (Call α ε) := []
  /-- How puts, gets and closes ended, and the failures the stages reported, oldest first. -/
  outcomes : List (Nat × Outcome α) := []
  failures : List ε := []
deriving DecidableEq

/-! ## 2. Steps -/

namespace Call

/-- Holds the lock of a channel. -/
def holds (channel : Nat) : Call α ε → Bool
  | .access _ c _ stage => c == channel && stage == .passing
  | _ => false

/-- Waits on a channel and is not notified. -/
def waitsOn (channel : Nat) : Call α ε → Bool
  | .access _ c _ stage => c == channel && stage == .waiting
  | _ => false

/-- `notify_all` on a channel, for one of the calls. -/
def notify (channel : Nat) : Call α ε → Call α ε
  | .access t c m stage =>
    .access t c m (if c = channel ∧ stage = .waiting then .notified else stage)
  | call => call

/-- The channel a call is on. -/
def on : Call α ε → Option Nat
  | .access _ c _ _ => some c
  | .close _ c => some c
  | _ => none

/-- A call that has not begun. -/
def fresh : Call α ε → Bool
  | .access _ _ _ stage => stage == .entering
  | .waking _ _ => false
  | _ => true

end Call

/-- What one step of a call does. -/
inductive Effect (α ε : Type)
  | becomes (call : Call α ε)
  | ends (thread : Nat) (outcome : Outcome α)
  /-- the channel is changed, everybody on it notified, and the call ends -/
  | stores (thread channel : Nat) (changed : Channel α) (outcome : Outcome α)
  | stops (thread : Nat)
  | wakes (thread channel : Nat)
  | woken
  | fails (thread : Nat) (failure : ε)

variable (size : α → Nat)

namespace Channel

/-- The condition under which a put or a get waits, but for the flag. -/
def blocks (c : Channel α) : Method α → Bool
  | .put item => !c.items.isEmpty && decide (c.bytes + size item > c.capacity)
  | .get => c.items.isEmpty

/-- `_append` on a pipeline that is not stopped. -/
def append (c : Channel α) (entry : Entry α) : Channel α :=
  { c with items := c.items ++ [entry], bytes := c.bytes + entry.size size, put := c.put ++ [entry] }

def popped (c : Channel α) (thread : Nat) (entry : Entry α) (rest : List (Entry α)) : Channel α :=
  { c with items := rest, bytes := c.bytes - entry.size size, got := c.got ++ [(thread, entry)] }

end Channel

/-- Nobody holds the channel's lock. -/
def World.free (w : World α ε) (channel : Nat) : Bool := !w.calls.any fun c => c.holds channel

/-- What a put or a get does once it is past its loop. -/
def finish (w : World α ε) (t ch : Nat) (c : Channel α) : Method α → Effect α ε
  | .put x =>
    if w.stopped then .ends t .raisedStopped
    else .stores t ch (c.append size (.item x)) .returned
  | .get =>
    if w.stopped then .ends t .raisedStopped
    else
      match c.items with
      | [] => .ends t .indexError
      | entry :: rest => .stores t ch (c.popped size t entry rest) (.got entry)

/-- The next step of a call; none where it is blocked. -/
def effect (w : World α ε) : Call α ε → Option (Effect α ε)
  | .access _ _ _ .waiting => none
  | .access t ch m .passing => (w.channels[ch]?).map fun c => finish size w t ch c m
  | .access t ch m _ => (w.channels[ch]?).bind fun c =>
    if w.free ch then
      some (.becomes (.access t ch m
        (if c.blocks size m && !w.stopped then .waiting else .passing)))
    else none
  | .close t ch => (w.channels[ch]?).bind fun c =>
    if w.free ch then
      some (if w.stopped then .ends t .raisedStopped
        else .stores t ch (c.append size .sentinel) .returned)
    else none
  | .stop t => some (.stops t)
  | .waking t i =>
    if i < w.channels.length then if w.free i then some (.wakes t i) else none
    else some .woken
  | .fail t failure => some (.fails t failure)

section

variable [DecidableEq α] [DecidableEq ε]

/-- The world after a step of the call `c`. -/
def World.apply (w : World α ε) (c : Call α ε) : Effect α ε → World α ε
  | .becomes call => { w with calls := call :: w.calls.erase c }
  | .ends t outcome =>
    { w with calls := w.calls.erase c, outcomes := w.outcomes ++ [(t, outcome)] }
  | .stores t ch changed outcome =>
    { w with
      channels := w.channels.set ch changed
      calls := (w.calls.erase c).map (Call.notify ch)
      outcomes := w.outcomes ++ [(t, outcome)] }
  | .stops t => { w with stopped := true, calls := .waking t 0 :: w.calls.erase c }
  | .wakes t ch => { w with calls := .waking t (ch + 1) :: (w.calls.erase c).map (Call.notify ch) }
  | .woken => { w with calls := w.calls.erase c }
  | .fails t failure =>
    { w with
      failure := w.failure.or (some failure)
      failures := w.failures ++ [failure]
      calls := .stop t :: w.calls.erase c }

inductive Action (α ε : Type)
  | channel (capacity : Nat)
  | begin (call : Call α ε)
  | run (call : Call α ε)

/-- One statement of one thread. -/
def step (w : World α ε) : Action α ε → Option (World α ε)
  | .channel capacity => some { w with channels := w.channels ++ [{ capacity }] }
  | .begin call =>
    if call.fresh ∧ ∀ ch ∈ call.on, ch < w.channels.length then
      some { w with calls := call :: w.calls }
    else none
  | .run call => if call ∈ w.calls then (effect size w call).map (w.apply call) else none

end

/-- What `__exit__` raises, given how the body of the `with` ended: a body's own exception other than
    `Stopped` goes first. -/
inductive Body (ε : Type)
  | finished
  | stopped
  | raised (failure : ε)

inductive Reported (ε : Type)
  | nothing
  | stopped
  | failure (failure : ε)

def World.exit (w : World α ε) : Body ε → Reported ε
  | .finished => (w.failure.map Reported.failure).getD .nothing
  | .stopped => (w.failure.map Reported.failure).getD .stopped
  | .raised failure => .failure failure

/-! ## 3. What every step keeps -/

/-- **First in, first out, nothing lost, nothing twice**; and the bytes held are within the capacity
    unless they are those of a single item. -/
structure Channel.Sound (c : Channel α) : Prop where
  fifo : c.put = c.got.map Prod.snd ++ c.items
  bytes : c.bytes = (c.items.map (Entry.size size)).sum
  within : c.bytes ≤ c.capacity ∨ ∃ x, c.items.filterMap Entry.item? = [x]

variable {size}

/-- An entry that goes in: an item for which there is room, or the sentinel. -/
theorem Channel.Sound.append {c : Channel α} (h : c.Sound size) {entry : Entry α}
    (hroom : entry = .sentinel ∨ c.items = [] ∨ c.bytes + entry.size size ≤ c.capacity) :
    (c.append size entry).Sound size := by
  refine ⟨?_, ?_, ?_⟩
  · show c.put ++ [entry] = c.got.map Prod.snd ++ (c.items ++ [entry])
    rw [h.fifo, List.append_assoc]
  · show c.bytes + entry.size size = ((c.items ++ [entry]).map (Entry.size size)).sum
    rw [List.map_append, List.sum_append, ← h.bytes]
    simp
  · show c.bytes + entry.size size ≤ c.capacity ∨ ∃ x, (c.items ++ [entry]).filterMap Entry.item? = [x]
    rcases hroom with rfl | hnil | hle
    · rcases h.within with hle | ⟨x, hx⟩
      · exact .inl hle
      · refine .inr ⟨x, ?_⟩
        rw [List.filterMap_append, hx]
        rfl
    · cases entry with
      | sentinel =>
        left
        rw [h.bytes, hnil]
        exact Nat.zero_le _
      | item x => exact .inr ⟨x, by rw [hnil]; rfl⟩
    · exact .inl hle

/-- The oldest entry goes out. -/
theorem Channel.Sound.popped {c : Channel α} (h : c.Sound size) {entry : Entry α}
    {rest : List (Entry α)} (hitems : c.items = entry :: rest) (thread : Nat) :
    (c.popped size thread entry rest).Sound size := by
  have hbytes : c.bytes = entry.size size + (rest.map (Entry.size size)).sum := by
    rw [h.bytes, hitems, List.map_cons, List.sum_cons]
  refine ⟨?_, ?_, ?_⟩
  · show c.put = (c.got ++ [(thread, entry)]).map Prod.snd ++ rest
    rw [h.fifo, hitems, List.map_append, List.append_assoc]
    rfl
  · show c.bytes - entry.size size = (rest.map (Entry.size size)).sum
    omega
  · show c.bytes - entry.size size ≤ c.capacity ∨ ∃ x, rest.filterMap Entry.item? = [x]
    rcases h.within with hle | ⟨x, hx⟩
    · exact .inl (by omega)
    · rw [hitems] at hx
      cases entry with
      | sentinel => exact .inr ⟨x, hx⟩
      | item y =>
        -- the single item goes: only sentinels are left
        have hrest : rest.filterMap Entry.item? = [] := (List.cons.inj hx).2
        have hzero : (rest.map (Entry.size size)).sum = 0 := by
          refine List.sum_eq_zero fun n hn => ?_
          obtain ⟨e, he, rfl⟩ := List.mem_map.mp hn
          have := List.filterMap_eq_nil_iff.mp hrest e he
          cases e with
          | sentinel => rfl
          | item z => cases this
        left
        omega

variable (size)

/-- Somebody will still notify the channel. -/
def Awaited (w : World α ε) (ch : Nat) : Prop := ∃ t i, Call.waking t i ∈ w.calls ∧ i ≤ ch

/-- A call under way is on a channel that exists; past its loop it has the reason it went on for;
    waiting unnotified on a stopped pipeline it will be woken. -/
structure CallSound (w : World α ε) (call : Call α ε) : Prop where
  on : ∀ ch, call.on = some ch → ch < w.channels.length
  passing : ∀ t ch m, call = .access t ch m .passing → ∀ c, w.channels[ch]? = some c →
    w.stopped = true ∨ c.blocks size m = false
  awaited : ∀ ch, call.waitsOn ch = true → w.stopped = true → Awaited w ch

/-- The invariant. -/
structure Sound (w : World α ε) : Prop where
  channels : ∀ c ∈ w.channels, c.Sound size
  calls : ∀ call ∈ w.calls, CallSound size w call
  /-- a lock has one holder -/
  locked : ∀ ch, w.calls.countP (Call.holds ch) ≤ 1
  failure : w.failure = w.failures.head?
  failed : w.failure.isSome → w.stopped = true ∨ ∃ t, Call.stop t ∈ w.calls

theorem sound_start : Sound size ({} : World α ε) :=
  ⟨by simp, by simp, by simp, rfl, by simp⟩

variable {size} {w w' : World α ε} {call : Call α ε}

namespace Call

@[simp] theorem notify_holds (ch ch' : Nat) (call : Call α ε) :
    (call.notify ch').holds ch = call.holds ch := by
  cases call with
  | access t c m stage =>
    rw [notify, holds, holds]
    split
    · rename_i h
      rw [h.2]
      rfl
    · rfl
  | close _ _ | stop _ | waking _ _ | fail _ _ => rfl

@[simp] theorem notify_on (ch : Nat) (call : Call α ε) : (call.notify ch).on = call.on := by
  cases call <;> rfl

/-- After a notification of a channel nobody waits on it. -/
theorem notify_waitsOn {ch n : Nat} {call : Call α ε} (h : (call.notify n).waitsOn ch = true) :
    ch ≠ n ∧ call.waitsOn ch = true := by
  cases call with
  | access t c m stage =>
    rw [notify, waitsOn, Bool.and_eq_true, beq_iff_eq, beq_iff_eq] at h
    obtain ⟨rfl, hs⟩ := h
    split at hs
    · cases hs
    · rename_i hne
      refine ⟨fun he => hne ⟨he, hs⟩, ?_⟩
      rw [waitsOn, hs]
      simp
  | close _ _ | stop _ | waking _ _ | fail _ _ => cases h

/-- Who is past its loop is not changed by a notification. -/
theorem notify_passing {n t ch : Nat} {m : Method α} {call : Call α ε}
    (h : call.notify n = .access t ch m .passing) : call = .access t ch m .passing := by
  cases call with
  | access t' c m' stage =>
    rw [notify, access.injEq] at h
    obtain ⟨rfl, rfl, rfl, hs⟩ := h
    split at hs
    · cases hs
    · rw [hs]
  | close _ _ | stop _ | waking _ _ | fail _ _ => cases h

theorem on_of_holds {ch : Nat} {call : Call α ε} (h : call.holds ch = true) : call.on = some ch := by
  cases call with
  | access t c m stage =>
    rw [holds, Bool.and_eq_true, beq_iff_eq] at h
    rw [on, h.1]
  | close _ _ | stop _ | waking _ _ | fail _ _ => cases h

theorem on_of_waitsOn {ch : Nat} {call : Call α ε} (h : call.waitsOn ch = true) :
    call.on = some ch := by
  cases call with
  | access t c m stage =>
    rw [waitsOn, Bool.and_eq_true, beq_iff_eq] at h
    rw [on, h.1]
  | close _ _ | stop _ | waking _ _ | fail _ _ => cases h

end Call

/-- A call keeps its soundness while its lock keeps the channel and a stop keeps its promise. -/
theorem CallSound.transport (h : CallSound size w call)
    (hlen : w.channels.length ≤ w'.channels.length)
    (hchan : ∀ ch, call.holds ch = true → w'.channels[ch]? = w.channels[ch]?)
    (hstop : w.stopped = true → w'.stopped = true)
    (hwait : ∀ ch, call.waitsOn ch = true → w'.stopped = true → Awaited w' ch) :
    CallSound size w' call where
  on := fun ch ho => Nat.lt_of_lt_of_le (h.on ch ho) hlen
  passing := by
    intro t ch m he c hc
    have hholds : call.holds ch = true := by rw [he, Call.holds]; simp
    rw [hchan ch hholds] at hc
    exact (h.passing t ch m he c hc).imp_left hstop
  awaited := hwait

/-- The same for a call that may have been notified on its way. -/
theorem CallSound.transport_notify (h : CallSound size w call) (n : Nat)
    (hlen : w.channels.length ≤ w'.channels.length)
    (hchan : ∀ ch, call.holds ch = true → w'.channels[ch]? = w.channels[ch]?)
    (hstop : w.stopped = true → w'.stopped = true)
    (hwait : ∀ ch, ch ≠ n → call.waitsOn ch = true → w'.stopped = true → Awaited w' ch) :
    CallSound size w' (call.notify n) where
  on := fun ch ho => Nat.lt_of_lt_of_le (h.on ch (call.notify_on n ▸ ho)) hlen
  passing := by
    intro t ch m he c hc
    have he := Call.notify_passing he
    have hholds : call.holds ch = true := by rw [he, Call.holds]; simp
    rw [hchan ch hholds] at hc
    exact (h.passing t ch m he c hc).imp_left hstop
  awaited := by
    intro ch hw hs
    obtain ⟨hne, hw⟩ := Call.notify_waitsOn hw
    exact hwait ch hne hw hs

/-! ## 4. One step -/

theorem Sound.begins (h : Sound size w) (hfresh : call.fresh = true)
    (hon : ∀ ch ∈ call.on, ch < w.channels.length) :
    Sound size { w with calls := call :: w.calls } := by
  have hholds : ∀ ch, call.holds ch = false := by
    intro ch
    cases call with
    | access t c m stage =>
      obtain rfl : stage = .entering := beq_iff_eq.mp hfresh
      exact Bool.and_false _
    | close _ _ | stop _ | waking _ _ | fail _ _ => rfl
  refine ⟨h.channels, ?_, ?_, h.failure, ?_⟩
  · intro other ho
    rcases List.mem_cons.mp ho with rfl | ho
    · refine ⟨hon, ?_, ?_⟩
      · intro t ch m he
        rw [he] at hfresh
        cases hfresh
      · intro ch hw
        cases other with
        | access t c m stage =>
          obtain rfl : stage = .entering := beq_iff_eq.mp hfresh
          rw [Call.waitsOn, Bool.and_eq_true] at hw
          cases hw.2
        | close _ _ | stop _ | waking _ _ | fail _ _ => cases hw
    · have hold := h.calls other ho
      refine hold.transport (Nat.le_refl _) (fun _ _ => rfl) id fun ch hw hs => ?_
      obtain ⟨t, i, hi, hle⟩ := hold.awaited ch hw hs
      exact ⟨t, i, List.mem_cons_of_mem _ hi, hle⟩
  · intro ch
    rw [List.countP_cons_of_neg (by rw [hholds]; exact Bool.false_ne_true)]
    exact h.locked ch
  · intro hf
    rcases h.failed hf with hs | ⟨t, ht⟩
    · exact .inl hs
    · exact .inr ⟨t, List.mem_cons_of_mem _ ht⟩

theorem Sound.opens (h : Sound size w) (capacity : Nat) :
    Sound size { w with channels := w.channels ++ [{ capacity }] } := by
  refine ⟨?_, ?_, h.locked, h.failure, h.failed⟩
  · intro c hc
    rcases List.mem_append.mp hc with hc | hc
    · exact h.channels c hc
    · rw [List.mem_singleton.mp hc]
      exact ⟨rfl, rfl, .inl (Nat.zero_le _)⟩
  · intro call hcall
    have hold := h.calls call hcall
    refine hold.transport ?_ ?_ id hold.awaited
    · rw [List.length_append]
      exact Nat.le_add_right _ _
    · exact fun ch hh => List.getElem?_append_left (hold.on ch (Call.on_of_holds hh))

section Step

variable [DecidableEq α] [DecidableEq ε]

theorem Awaited.erase {ch : Nat} (h : Awaited w ch) (hne : ∀ t i, call ≠ .waking t i) :
    ∃ t i, Call.waking t i ∈ w.calls.erase call ∧ i ≤ ch := by
  obtain ⟨t, i, hmem, hle⟩ := h
  exact ⟨t, i, (List.mem_erase_of_ne (hne t i).symm).mpr hmem, hle⟩

theorem countP_erase_le (p : Call α ε → Bool) (call : Call α ε) :
    (w.calls.erase call).countP p ≤ w.calls.countP p := List.erase_sublist.countP_le

section

variable (h : Sound size w)

include h

theorem Sound.failed_erase (hne : ∀ t, call ≠ .stop t) (hf : w.failure.isSome = true) :
    w.stopped = true ∨ ∃ t, Call.stop t ∈ w.calls.erase call := by
  rcases h.failed hf with hs | ⟨t, ht⟩
  · exact .inl hs
  · exact .inr ⟨t, (List.mem_erase_of_ne (hne t).symm).mpr ht⟩

/-- Nobody else holds a lock that is free or the call's own. -/
theorem Sound.holds_erase (hmem : call ∈ w.calls) {ch : Nat}
    (hlock : call.holds ch = true ∨ w.free ch = true) :
    ∀ other ∈ w.calls.erase call, other.holds ch = false := by
  intro other ho
  rcases hlock with hown | hfree
  · have hperm : w.calls.countP (Call.holds ch) =
        (call :: w.calls.erase call).countP (Call.holds ch) :=
      (List.perm_cons_erase hmem).countP_eq _
    have hle := h.locked ch
    rw [hperm, List.countP_cons_of_pos hown] at hle
    have hzero : (w.calls.erase call).countP (Call.holds ch) = 0 := by omega
    rw [← Bool.not_eq_true]
    exact List.countP_eq_zero.mp hzero other ho
  · rw [World.free, Bool.not_eq_true', List.any_eq_false] at hfree
    rw [← Bool.not_eq_true]
    exact hfree other (List.mem_of_mem_erase ho)

/-- A call that enters: it waits, or it takes the lock. -/
theorem Sound.becomes {t ch : Nat} {m : Method α} {stage : Stage}
    (hmem : Call.access t ch m stage ∈ w.calls) (hfree : w.free ch = true) {c : Channel α}
    (hc : w.channels[ch]? = some c) : Sound size (w.apply (.access t ch m stage) (.becomes
      (.access t ch m (if c.blocks size m && !w.stopped then .waiting else .passing)))) := by
  set call : Call α ε := .access t ch m stage
  have hlt : ch < w.channels.length := (h.calls _ hmem).on ch rfl
  have hnot : ∀ t i, call ≠ .waking t i := nofun
  have hawait : ∀ ch', Awaited w ch' → Awaited (w.apply call (.becomes (.access t ch m
      (if c.blocks size m && !w.stopped then .waiting else .passing)))) ch' := by
    intro ch' ha
    obtain ⟨t', i, hi, hle⟩ := ha.erase hnot
    exact ⟨t', i, List.mem_cons_of_mem _ hi, hle⟩
  refine ⟨h.channels, ?_, ?_, h.failure, ?_⟩
  · intro other ho
    rcases List.mem_cons.mp ho with rfl | ho
    · refine ⟨?_, ?_, ?_⟩
      · intro ch' he
        exact Option.some.inj he ▸ hlt
      · intro t' ch' m' he c' hc'
        obtain ⟨rfl, rfl, rfl, hs⟩ := Call.access.injEq .. ▸ he
        obtain rfl := Option.some.inj (hc.symm.trans hc')
        show w.stopped = true ∨ _
        split at hs
        · cases hs
        · rename_i hgo
          cases hst : w.stopped with
          | true => exact .inl rfl
          | false =>
            rw [hst, Bool.not_false, Bool.and_true, Bool.not_eq_true] at hgo
            exact .inr hgo
      · intro ch' hw hs
        change w.stopped = true at hs
        rw [hs, Bool.not_true, Bool.and_false, if_neg Bool.false_ne_true, Call.waitsOn] at hw
        simp at hw
    · have hold := h.calls other (List.mem_of_mem_erase ho)
      exact hold.transport (Nat.le_refl _) (fun _ _ => rfl) id fun ch' hw hs =>
        hawait ch' (hold.awaited ch' hw hs)
  · intro ch'
    show (_ :: w.calls.erase call).countP _ ≤ 1
    have hle := h.locked ch'
    have herase := countP_erase_le (w := w) (Call.holds ch') call
    by_cases hown : ch = ch'
    · subst hown
      have hone := List.countP_le_length (p := Call.holds ch) (l := [(.access t ch m
        (if c.blocks size m && !w.stopped then .waiting else .passing) : Call α ε)])
      rw [List.length_singleton] at hone
      rw [← List.singleton_append, List.countP_append]
      have hzero : w.calls.countP (Call.holds ch) = 0 := by
        rw [World.free, Bool.not_eq_true', List.any_eq_false] at hfree
        exact List.countP_eq_zero.mpr hfree
      omega
    · rw [List.countP_cons_of_neg]
      · omega
      · rw [Call.holds, Bool.and_eq_true, beq_iff_eq]
        exact fun he => hown he.1
  · intro hf
    have hne : ∀ t', call ≠ .stop t' := nofun
    rcases h.failed_erase hne hf with hs | ⟨t', ht⟩
    · exact .inl hs
    · exact .inr ⟨t', List.mem_cons_of_mem _ ht⟩

/-- A call that ends and leaves the channels alone. -/
theorem Sound.gone (hstop : ∀ t, call ≠ .stop t)
    (hwaking : ∀ t i, call = .waking t i → w.channels.length ≤ i) :
    Sound size (w.apply call .woken) := by
  refine ⟨h.channels, ?_, fun ch => Nat.le_trans (countP_erase_le _ call) (h.locked ch),
    h.failure, ?_⟩
  · intro other ho
    have hold := h.calls other (List.mem_of_mem_erase ho)
    refine hold.transport (Nat.le_refl _) (fun _ _ => rfl) id fun ch hw hs => ?_
    obtain ⟨t', i, hi, hle⟩ := hold.awaited ch hw hs
    -- a stop that is done has no channel left to wake
    have hlt := hold.on ch (Call.on_of_waitsOn hw)
    have hne : Call.waking t' i ≠ call := by
      intro he
      have := hwaking t' i he.symm
      omega
    exact ⟨t', i, (List.mem_erase_of_ne hne).mpr hi, hle⟩
  · exact fun hf => h.failed_erase hstop hf

theorem Sound.ends {t : Nat} {outcome : Outcome α} (hstop : ∀ t, call ≠ .stop t)
    (hwaking : ∀ t i, call ≠ .waking t i) : Sound size (w.apply call (.ends t outcome)) := by
  have hgone := h.gone hstop fun t i he => absurd he (hwaking t i)
  refine ⟨hgone.channels, fun other ho => ?_, hgone.locked, hgone.failure, hgone.failed⟩
  exact (hgone.calls other ho).transport (Nat.le_refl _) (fun _ _ => rfl) id
    (hgone.calls other ho).awaited

/-- A channel is changed under its lock. -/
theorem Sound.stores (hmem : call ∈ w.calls) {t ch : Nat} {changed : Channel α}
    {outcome : Outcome α} (hlock : call.holds ch = true ∨ w.free ch = true)
    (hs : w.stopped = false) (hchanged : changed.Sound size) (hne : ∀ t, call ≠ .stop t) :
    Sound size (w.apply call (.stores t ch changed outcome)) := by
  have hothers := h.holds_erase hmem hlock
  refine ⟨?_, ?_, ?_, h.failure, ?_⟩
  · intro c hc
    rcases List.mem_or_eq_of_mem_set hc with hc | rfl
    · exact h.channels c hc
    · exact hchanged
  · intro other ho
    obtain ⟨old, hold, rfl⟩ := List.mem_map.mp ho
    refine (h.calls old (List.mem_of_mem_erase hold)).transport_notify ch ?_ ?_ id ?_
    · exact Nat.le_of_eq (List.length_set ..).symm
    · intro ch' hh
      refine List.getElem?_set_ne fun he => ?_
      rw [← he, hothers old hold] at hh
      cases hh
    · intro ch' _ _ hst
      exact absurd (hs.symm.trans hst) Bool.false_ne_true
  · intro ch'
    show ((w.calls.erase call).map (Call.notify ch)).countP _ ≤ 1
    rw [List.countP_map]
    have hcomp : Call.holds ch' ∘ Call.notify (α := α) (ε := ε) ch = Call.holds ch' :=
      funext fun c => Call.notify_holds ch' ch c
    rw [hcomp]
    exact Nat.le_trans (countP_erase_le _ call) (h.locked ch')
  · intro hf
    rcases h.failed_erase hne hf with hst | ⟨t', ht⟩
    · exact .inl hst
    · exact .inr ⟨t', List.mem_map.mpr ⟨_, ht, rfl⟩⟩

/-- A call that holds no lock goes on as another one that holds none. -/
theorem Sound.locked_cons {next : Call α ε} (hn : ∀ ch, next.holds ch = false)
    (ch : Nat) : (next :: w.calls.erase call).countP (Call.holds ch) ≤ 1 := by
  rw [List.countP_cons_of_neg (by rw [hn]; exact Bool.false_ne_true)]
  exact Nat.le_trans (countP_erase_le _ call) (h.locked ch)

/-- The flag is set: the call goes on to wake every channel. -/
theorem Sound.stops {t : Nat} : Sound size (w.apply (.stop t) (.stops t)) := by
  refine ⟨h.channels, ?_, h.locked_cons fun _ => rfl, h.failure, fun _ => .inl rfl⟩
  intro other ho
  rcases List.mem_cons.mp ho with rfl | ho
  · exact ⟨nofun, nofun, nofun⟩
  · refine (h.calls other (List.mem_of_mem_erase ho)).transport (Nat.le_refl _) (fun _ _ => rfl)
      (fun _ => rfl) fun ch _ _ => ?_
    exact ⟨t, 0, List.mem_cons_self, Nat.zero_le ch⟩

/-- A channel is woken: who waits on a later one is still awaited. -/
theorem Sound.wakes {t n : Nat} : Sound size (w.apply (.waking t n) (.wakes t n)) := by
  refine ⟨h.channels, ?_, ?_, h.failure, ?_⟩
  · intro other ho
    rcases List.mem_cons.mp ho with rfl | ho
    · exact ⟨nofun, nofun, nofun⟩
    · obtain ⟨old, hold, rfl⟩ := List.mem_map.mp ho
      have hsound := h.calls old (List.mem_of_mem_erase hold)
      refine hsound.transport_notify n (Nat.le_refl _) (fun _ _ => rfl) id fun ch hne hw hs => ?_
      obtain ⟨t', i, hi, hle⟩ := hsound.awaited ch hw hs
      by_cases he : (Call.waking t' i : Call α ε) = .waking t n
      · obtain ⟨rfl, rfl⟩ := Call.waking.injEq .. ▸ he
        exact ⟨t', i + 1, List.mem_cons_self, by omega⟩
      · refine ⟨t', i, List.mem_cons_of_mem _ (List.mem_map.mpr ⟨.waking t' i, ?_, rfl⟩), hle⟩
        exact (List.mem_erase_of_ne he).mpr hi
  · intro ch
    show (Call.waking t (n + 1) :: (w.calls.erase (.waking t n)).map (Call.notify n)).countP _ ≤ 1
    have hcomp : Call.holds ch ∘ Call.notify (α := α) (ε := ε) n = Call.holds ch :=
      funext fun c => Call.notify_holds ch n c
    rw [List.countP_cons_of_neg (by exact Bool.false_ne_true), List.countP_map, hcomp]
    exact Nat.le_trans (countP_erase_le _ _) (h.locked ch)
  · intro hf
    have hne : ∀ t', (Call.waking t n : Call α ε) ≠ .stop t' := nofun
    rcases h.failed_erase hne hf with hs | ⟨t', ht⟩
    · exact .inl hs
    · exact .inr ⟨t', List.mem_cons_of_mem _ (List.mem_map.mpr ⟨_, ht, rfl⟩)⟩

/-- A failure is recorded, the first one for good, and the call goes on to stop the pipeline. -/
theorem Sound.fails {t : Nat} {failure : ε} :
    Sound size (w.apply (.fail t failure) (.fails t failure)) := by
  refine ⟨h.channels, ?_, h.locked_cons fun _ => rfl, ?_, fun _ => .inr ⟨t, List.mem_cons_self⟩⟩
  · intro other ho
    rcases List.mem_cons.mp ho with rfl | ho
    · exact ⟨nofun, nofun, nofun⟩
    · have hold := h.calls other (List.mem_of_mem_erase ho)
      refine hold.transport (Nat.le_refl _) (fun _ _ => rfl) id fun ch hw hs => ?_
      have hne : ∀ t' i, (Call.fail t failure : Call α ε) ≠ .waking t' i := nofun
      obtain ⟨t', i, hi, hle⟩ := (hold.awaited ch hw hs).erase hne
      exact ⟨t', i, List.mem_cons_of_mem _ hi, hle⟩
  · show w.failure.or (some failure) = (w.failures ++ [failure]).head?
    rw [h.failure]
    cases w.failures <;> rfl

/-- What a call does past its loop. -/
theorem Sound.finish {t ch : Nat} {m : Method α} {c : Channel α}
    (hmem : Call.access t ch m .passing ∈ w.calls) (hc : w.channels[ch]? = some c) :
    Sound size (w.apply (.access t ch m .passing) (finish size w t ch c m)) := by
  have hown : (Call.access t ch m .passing : Call α ε).holds ch = true := by
    rw [Call.holds]
    simp
  have hsound := h.channels c (List.mem_of_getElem? hc)
  have hready := (h.calls _ hmem).passing t ch m rfl c hc
  cases hs : w.stopped with
  | true =>
    cases m with
    | put _ | get =>
      rw [Pipeline.finish, if_pos hs]
      exact h.ends nofun nofun
  | false =>
    have hgo : c.blocks size m = false := hready.resolve_left (by rw [hs]; exact Bool.false_ne_true)
    cases m with
    | put x =>
      rw [Pipeline.finish, if_neg (by rw [hs]; exact Bool.false_ne_true)]
      refine h.stores hmem (.inl hown) hs (hsound.append ?_) nofun
      rw [Channel.blocks, Bool.and_eq_false_iff, Bool.not_eq_false', List.isEmpty_iff,
        decide_eq_false_iff_not, Nat.not_lt] at hgo
      exact .inr hgo
    | get =>
      rw [Pipeline.finish, if_neg (by rw [hs]; exact Bool.false_ne_true)]
      cases hitems : c.items with
      | nil =>
        rw [Channel.blocks, hitems] at hgo
        cases hgo
      | cons entry rest =>
        exact h.stores hmem (.inl hown) hs (hsound.popped hitems t) nofun

/-- **One step of a call keeps everything.** -/
theorem Sound.run (hmem : call ∈ w.calls) {e : Effect α ε}
    (he : effect size w call = some e) : Sound size (w.apply call e) := by
  cases call with
  | access t ch m stage =>
    cases stage with
    | waiting => cases he
    | passing =>
      obtain ⟨c, hc, rfl⟩ := Option.map_eq_some_iff.mp he
      exact h.finish hmem hc
    | entering | notified =>
      obtain ⟨c, hc, he⟩ := Option.bind_eq_some_iff.mp he
      obtain ⟨hfree, he⟩ := Option.ite_none_right_eq_some.mp he
      cases he
      exact h.becomes hmem hfree hc
  | close t ch =>
    obtain ⟨c, hc, he⟩ := Option.bind_eq_some_iff.mp he
    obtain ⟨hfree, he⟩ := Option.ite_none_right_eq_some.mp he
    cases he
    cases hs : w.stopped with
    | true => exact h.ends nofun nofun
    | false =>
      have hsound := h.channels c (List.mem_of_getElem? hc)
      exact h.stores hmem (.inr hfree) hs (hsound.append (.inl rfl)) nofun
  | stop t =>
    cases he
    exact h.stops
  | waking t i =>
    rw [effect] at he
    split at he
    · obtain ⟨-, ⟨⟩⟩ := Option.ite_none_right_eq_some.mp he
      exact h.wakes
    · rename_i hge
      cases he
      refine h.gone nofun fun t' i' hi => ?_
      obtain ⟨-, rfl⟩ := Call.waking.injEq .. ▸ hi
      exact Nat.le_of_not_lt hge
  | fail t failure =>
    cases he
    exact h.fails

/-- **Every step keeps everything.** -/
theorem step_sound {a : Action α ε} (hs : step size w a = some w') : Sound size w' := by
  cases a with
  | channel capacity =>
    cases hs
    exact h.opens capacity
  | begin call =>
    obtain ⟨⟨hfresh, hon⟩, hs⟩ := Option.ite_none_right_eq_some.mp hs
    cases hs
    exact h.begins hfresh hon
  | run call =>
    obtain ⟨hmem, hs⟩ := Option.ite_none_right_eq_some.mp hs
    obtain ⟨e, he, rfl⟩ := Option.map_eq_some_iff.mp hs
    exact h.run hmem he

end

end Step

/-! ## 5. Once stopped -/

/-- What a call has still to do, at most, once the pipeline is stopped. -/
def Call.work (channels : Nat) : Call α ε → Nat
  | .access _ _ _ .waiting => 3
  | .access _ _ _ .passing => 1
  | .access _ _ _ _ => 2
  | .close _ _ => 1
  | .waking _ i => 1 + (channels - i)
  | .stop _ => 2 + channels
  | .fail _ _ => 3 + channels

def World.work (w : World α ε) : Nat := (w.calls.map (Call.work w.channels.length)).sum

theorem Call.work_notify_le (n ch : Nat) (call : Call α ε) :
    (call.notify ch).work n ≤ call.work n := by
  cases call with
  | access t c m stage =>
    rw [notify]
    split
    · rename_i h
      rw [h.2]
      exact Nat.le_succ 2
    · exact Nat.le_refl _
  | close _ _ | stop _ | waking _ _ | fail _ _ => exact Nat.le_refl _

theorem work_notify_le (n ch : Nat) (calls : List (Call α ε)) :
    ((calls.map (Call.notify ch)).map (Call.work n)).sum ≤ (calls.map (Call.work n)).sum := by
  induction calls with
  | nil => exact Nat.le_refl _
  | cons call calls ih =>
    rw [List.map_cons, List.map_cons, List.map_cons, List.sum_cons, List.sum_cons]
    exact Nat.add_le_add (call.work_notify_le n ch) ih

/-- Where every lock is free, a call that does not wait can take its step. -/
theorem effect_isSome (h : Sound size w) (hmem : call ∈ w.calls) (hfree : ∀ ch, w.free ch = true)
    (hwait : ∀ ch, call.waitsOn ch = false) : (effect size w call).isSome = true := by
  have hon := (h.calls call hmem).on
  cases call with
  | access t ch m stage =>
    have hget := List.getElem?_eq_getElem (hon ch rfl)
    cases stage with
    | waiting =>
      have := hwait ch
      rw [Call.waitsOn] at this
      simp at this
    | passing => rw [effect, hget]; rfl
    | entering | notified =>
      show (Option.bind w.channels[ch]? _).isSome = true
      rw [hget, Option.bind_some, if_pos (hfree ch)]
      rfl
  | close t ch =>
    show (Option.bind w.channels[ch]? _).isSome = true
    rw [List.getElem?_eq_getElem (hon ch rfl), Option.bind_some, if_pos (hfree ch)]
    rfl
  | stop t => rfl
  | waking t i =>
    rw [effect]
    split
    · rw [if_pos (hfree i)]
      rfl
    · rfl
  | fail t failure => rfl

section Stopped

variable [DecidableEq α] [DecidableEq ε]

theorem work_erase (hmem : call ∈ w.calls) :
    w.work = call.work w.channels.length +
      ((w.calls.erase call).map (Call.work w.channels.length)).sum :=
  (List.sum_map_erase _ hmem).symm

/-- **A step of a stopped pipeline**: it comes nearer the end, the flag stays, and a put, a get or a
    close that ends raises `Stopped`. -/
theorem stopped_run (hmem : call ∈ w.calls) (hs : w.stopped = true) {e : Effect α ε}
    (he : effect size w call = some e) :
    (w.apply call e).work < w.work ∧ (w.apply call e).stopped = true ∧
      ∃ ts : List Nat, (w.apply call e).outcomes =
        w.outcomes ++ ts.map fun t => (t, .raisedStopped) := by
  have hwork := work_erase hmem
  have hnone : ∃ ts : List Nat, w.outcomes = w.outcomes ++ ts.map fun t => (t, .raisedStopped) :=
    ⟨[], (List.append_nil _).symm⟩
  -- whoever enters goes past its loop
  have henter : ∀ (t ch : Nat) (m : Method α) (c : Channel α),
      call.work w.channels.length = 2 →
      (w.apply call (.becomes (.access t ch m
        (if c.blocks size m && !w.stopped then .waiting else .passing)))).work < w.work := by
    intro t ch m c h2
    rw [hs, Bool.not_true, Bool.and_false, if_neg Bool.false_ne_true]
    show ((Call.access t ch m .passing :: w.calls.erase call).map (Call.work w.channels.length)).sum < _
    rw [List.map_cons, List.sum_cons, hwork, h2]
    exact Nat.add_lt_add_right (Nat.lt_succ_self 1) _
  have hend : ∀ t, 0 < call.work w.channels.length → (w.apply call (.ends t .raisedStopped)).work <
      w.work ∧ (w.apply call (.ends t .raisedStopped)).stopped = true ∧
      ∃ ts : List Nat, (w.apply call (.ends t .raisedStopped)).outcomes =
        w.outcomes ++ ts.map fun t => (t, .raisedStopped) := by
    intro t hpos
    refine ⟨?_, hs, [t], rfl⟩
    show ((w.calls.erase call).map (Call.work w.channels.length)).sum < _
    rw [hwork]
    omega
  cases call with
  | access t ch m stage =>
    cases stage with
    | waiting => cases he
    | passing =>
      obtain ⟨c, hc, rfl⟩ := Option.map_eq_some_iff.mp he
      have hfinish : finish size w t ch c m = .ends t .raisedStopped := by
        cases m with
        | put x => rw [Pipeline.finish, if_pos hs]
        | get => rw [Pipeline.finish, if_pos hs]
      rw [hfinish]
      exact hend t Nat.one_pos
    | entering | notified =>
      obtain ⟨c, hc, he⟩ := Option.bind_eq_some_iff.mp he
      obtain ⟨hfree, he⟩ := Option.ite_none_right_eq_some.mp he
      cases he
      exact ⟨henter t ch m c rfl, hs, hnone⟩
  | close t ch =>
    obtain ⟨c, hc, he⟩ := Option.bind_eq_some_iff.mp he
    obtain ⟨hfree, he⟩ := Option.ite_none_right_eq_some.mp he
    cases he
    rw [if_pos hs]
    exact hend t Nat.one_pos
  | stop t =>
    cases he
    refine ⟨?_, rfl, hnone⟩
    show ((Call.waking t 0 :: w.calls.erase (.stop t)).map (Call.work w.channels.length)).sum < _
    rw [List.map_cons, List.sum_cons, hwork]
    exact Nat.add_lt_add_right (by show 1 + (w.channels.length - 0) < 2 + w.channels.length; omega) _
  | waking t i =>
    rw [effect] at he
    split at he
    · rename_i hlt
      obtain ⟨-, ⟨⟩⟩ := Option.ite_none_right_eq_some.mp he
      refine ⟨?_, hs, hnone⟩
      show ((Call.waking t (i + 1) :: (w.calls.erase (.waking t i)).map (Call.notify i)).map
        (Call.work w.channels.length)).sum < _
      rw [List.map_cons, List.sum_cons, hwork]
      refine Nat.add_lt_add_of_lt_of_le ?_ (work_notify_le _ _ _)
      show 1 + (w.channels.length - (i + 1)) < 1 + (w.channels.length - i)
      omega
    · cases he
      refine ⟨?_, hs, hnone⟩
      show ((w.calls.erase (.waking t i)).map (Call.work w.channels.length)).sum < _
      rw [hwork]
      exact Nat.lt_add_of_pos_left (Nat.add_pos_left Nat.one_pos _)
  | fail t failure =>
    cases he
    refine ⟨?_, hs, hnone⟩
    show ((Call.stop t :: w.calls.erase (.fail t failure)).map (Call.work w.channels.length)).sum < _
    rw [List.map_cons, List.sum_cons, hwork]
    exact Nat.add_lt_add_right (by show 2 + w.channels.length < 3 + w.channels.length; omega) _

/-- The same for any step, also of a call that has just begun. -/
theorem stopped_step {a : Action α ε} (hs : w.stopped = true) (ha : step size w a = some w') :
    w'.stopped = true ∧
      ∃ ts : List Nat, w'.outcomes = w.outcomes ++ ts.map fun t => (t, .raisedStopped) := by
  cases a with
  | channel capacity =>
    cases ha
    exact ⟨hs, [], (List.append_nil _).symm⟩
  | begin call =>
    obtain ⟨-, ⟨⟩⟩ := Option.ite_none_right_eq_some.mp ha
    exact ⟨hs, [], (List.append_nil _).symm⟩
  | run call =>
    obtain ⟨hmem, ha⟩ := Option.ite_none_right_eq_some.mp ha
    obtain ⟨e, he, rfl⟩ := Option.map_eq_some_iff.mp ha
    exact (stopped_run hmem hs he).2

/-- **Blocked or later, every put and get of a stopped pipeline that ends raises `Stopped`.** -/
theorem stopped_outcomes {as : List (Action α ε)} (hs : w.stopped = true)
    (h : Runs.run (step size) w as = some w') :
    ∃ ts : List Nat, w'.outcomes = w.outcomes ++ ts.map fun t => (t, .raisedStopped) := by
  have hI : w'.stopped = true ∧
      ∃ ts : List Nat, w'.outcomes = w.outcomes ++ ts.map fun t => (t, .raisedStopped) := by
    refine Runs.run_invariant (I := fun v => v.stopped = true ∧
      ∃ ts : List Nat, v.outcomes = w.outcomes ++ ts.map fun t => (t, .raisedStopped))
      (fun u a v huv hu => ?_) h ⟨hs, [], (List.append_nil _).symm⟩
    obtain ⟨hu, ts, hts⟩ := hu
    obtain ⟨hv, ts', hts'⟩ := stopped_step hu huv
    refine ⟨hv, ts ++ ts', ?_⟩
    rw [hts', hts, List.append_assoc, List.map_append]
  exact hI.2

/-- **The calls under way come to an end**: each of their steps leaves less to do. -/
theorem stopped_work {as : List (Action α ε)} (hs : w.stopped = true)
    (has : ∀ a ∈ as, ∃ call, a = .run call) (h : Runs.run (step size) w as = some w') :
    as.length + w'.work ≤ w.work := by
  induction as generalizing w with
  | nil =>
    rw [← Option.some.inj h]
    exact Nat.le_of_eq (Nat.zero_add _)
  | cons a as ih =>
    obtain ⟨m, hm, h⟩ := Runs.run_cons_eq_some.mp h
    obtain ⟨call, rfl⟩ := has a List.mem_cons_self
    obtain ⟨hmem, hm⟩ := Option.ite_none_right_eq_some.mp hm
    obtain ⟨e, he, rfl⟩ := Option.map_eq_some_iff.mp hm
    obtain ⟨hless, hs', -⟩ := stopped_run hmem hs he
    have := ih hs' (fun a' ha' => has a' (List.mem_cons_of_mem _ ha')) h
    rw [List.length_cons]
    omega

/-- **Nobody is stuck**: while calls of a stopped pipeline are under way, one of them can go on. -/
theorem stopped_progress (h : Sound size w) (hs : w.stopped = true) (hne : w.calls ≠ []) :
    ∃ call ∈ w.calls, (step size w (.run call)).isSome = true := by
  have hstep : ∀ call ∈ w.calls, (effect size w call).isSome = true →
      (step size w (.run call)).isSome = true := by
    intro call hmem he
    rw [step, if_pos hmem, Option.isSome_map]
    exact he
  by_cases hlock : ∃ call ∈ w.calls, ∃ ch, call.holds ch = true
  · -- the holder of a lock goes on
    obtain ⟨call, hmem, ch, hh⟩ := hlock
    refine ⟨call, hmem, hstep call hmem ?_⟩
    have hlt := (h.calls call hmem).on ch (Call.on_of_holds hh)
    cases call with
    | access t c m stage =>
      rw [Call.holds, Bool.and_eq_true, beq_iff_eq, beq_iff_eq] at hh
      obtain ⟨rfl, rfl⟩ := hh
      rw [effect, List.getElem?_eq_getElem hlt]
      rfl
    | close _ _ | stop _ | waking _ _ | fail _ _ => cases hh
  · have hfree : ∀ ch, w.free ch = true := by
      intro ch
      rw [World.free, Bool.not_eq_true', List.any_eq_false]
      exact fun call hmem hh => hlock ⟨call, hmem, ch, hh⟩
    obtain ⟨call, hmem⟩ := List.exists_mem_of_ne_nil _ hne
    by_cases hwait : ∃ ch, call.waitsOn ch = true
    · -- whoever waits is awaited by a stop, which goes on
      obtain ⟨ch, hw⟩ := hwait
      obtain ⟨t, i, hi, -⟩ := (h.calls call hmem).awaited ch hw hs
      exact ⟨_, hi, hstep _ hi (effect_isSome h hi hfree fun _ => rfl)⟩
    · refine ⟨call, hmem, hstep call hmem (effect_isSome h hmem hfree fun ch => ?_)⟩
      rw [← Bool.not_eq_true]
      exact fun hw => hwait ⟨ch, hw⟩

end Stopped

/-! ## 6. Every reachable state -/

/-- Somebody is about to set the flag, or still to wake the channel. -/
def Owed (w : World α ε) (ch : Nat) : Prop := (∃ t, Call.stop t ∈ w.calls) ∨ Awaited w ch

/-- **Everything once, or everybody stopped.** In every state the calls can reach:
    what was put on a channel is what was got, in that order, and what it still holds, within its
    capacity or a single item; a put or get that waits unnotified on a stopped or failed pipeline is
    still owed its notification by a call under way; once stopped, every put and get that ends raises
    `Stopped`, the calls under way end after as many steps as there is work, and none is stuck before;
    the failure on record is the first, and it is what the end of the `with` raises unless its body
    raised an exception of its own. -/
theorem pipeline_sound [DecidableEq α] [DecidableEq ε] (size : α → Nat) (w : World α ε)
    (h : Runs.Reachable (step size) {} w) :
    (∀ c ∈ w.channels, c.put = c.got.map Prod.snd ++ c.items ∧
      ((c.items.map (Entry.size size)).sum ≤ c.capacity ∨
        ∃ x, c.items.filterMap Entry.item? = [x])) ∧
    (w.stopped = true ∨ w.failure.isSome = true →
      ∀ call ∈ w.calls, ∀ ch, call.waitsOn ch = true → Owed w ch) ∧
    (w.stopped = true →
      (∀ as w', Runs.run (step size) w as = some w' →
        ∃ ts : List Nat, w'.outcomes = w.outcomes ++ ts.map fun t => (t, .raisedStopped)) ∧
      (∀ as w', (∀ a ∈ as, ∃ call, a = .run call) → Runs.run (step size) w as = some w' →
        as.length + w'.work ≤ w.work) ∧
      (w.calls ≠ [] → ∃ call ∈ w.calls, (step size w (.run call)).isSome = true)) ∧
    (w.failure = w.failures.head? ∧ ∀ failure, w.failures.head? = some failure →
      ∀ body, (∀ own, body ≠ .raised own) → w.exit body = .failure failure) := by
  have hw : Sound size w :=
    h.invariant (fun s a t hs hI => step_sound hI hs) (sound_start size)
  refine ⟨?_, ?_, ?_, hw.failure, ?_⟩
  · intro c hc
    have hsound := hw.channels c hc
    exact ⟨hsound.fifo, hsound.bytes ▸ hsound.within⟩
  · intro hor call hmem ch hwait
    have hstopped : w.stopped = true → Owed w ch := fun hs =>
      .inr ((hw.calls call hmem).awaited ch hwait hs)
    rcases hor with hs | hf
    · exact hstopped hs
    · exact (hw.failed hf).elim hstopped fun ht => .inl ht
  · exact fun hs => ⟨fun as w' => stopped_outcomes hs, fun as w' => stopped_work hs,
      stopped_progress hw hs⟩
  · intro failure hfirst body hbody
    rw [← hw.failure] at hfirst
    cases body with
    | finished | stopped => rw [World.exit, hfirst]; rfl
    | raised own => exact absurd rfl (hbody own)

/-! ## 7. Between the flag and the wakes -/

/-- A get waits on an empty channel; another thread sets the flag. -/
def stopsBesideGet : List (Action Nat Nat) :=
  [.channel 10, .begin (.access 0 0 .get .entering), .run (.access 0 0 .get .entering),
    .begin (.stop 1), .run (.stop 1)]

/-- The state of that moment. -/
def flagSet : World Nat Nat where
  stopped := true
  channels := [{ capacity := 10 }]
  calls := [.waking 1 0, .access 0 0 .get .waiting]

theorem reachable_flagSet : Runs.Reachable (step id) {} flagSet := ⟨stopsBesideGet, by decide⟩

theorem pipeline_sound_flagSet : Owed flagSet 0 ∧
    ∃ call ∈ flagSet.calls, (step id flagSet (.run call)).isSome = true := by
  obtain ⟨-, howed, hstopped, -⟩ := pipeline_sound id flagSet reachable_flagSet
  exact ⟨howed (.inl rfl) (.access 0 0 .get .waiting) (by decide) 0 rfl,
    (hstopped rfl).2.2 (by decide)⟩

/-- **A stopped pipeline can have somebody waiting unnotified**, until the stop that set the flag has
    woken the channel. -/
theorem stopped_unnotified : ¬ (∀ w : World Nat Nat, Runs.Reachable (step id) {} w →
    w.stopped = true → ∀ call ∈ w.calls, ∀ ch, call.waitsOn ch = false) := by
  intro h
  exact absurd (h flagSet reachable_flagSet rfl (.access 0 0 .get .waiting) (by decide) 0) (by decide)

end Dbs.Pipeline

/-
  File:      Dbs/Prefetching.lean
  Subject:   A SOURCE THAT IS READ AHEAD (container/sources.py; engine/pipeline.py,
             PrefetchingSource): a thread reads a range of the file into a channel, and reads at the
             window take from there.

  The threads are those of the pipeline's channels: the reads are made by thread 0, the prefetching
  thread is 1, and others may stop the pipeline, fail or use other channels at any moment. A read of
  the file is under the source's own lock and one step.

  * `FileSource.readAt`, `ByteSource.readAt` -- the plain sources; `readAt_eq` -- however the file
    cuts its reads into pieces;
  * `State`, `step` -- the window, the two threads and the pipeline;
  * `Within` -- what a read has to meet: at the window it ends within the range, and no read of the
    window has raised `Stopped` before;
  * `Inv`, `step_inv` -- what the channel has carried is what stands in the source;
  * `prefetching_transparent` -- every read gives what the plain source holds, or raises `Stopped`;
    `prefetching_short` -- a second read behind `Stopped`, and a read from the end of the range.
-/
import Dbs.Pipeline
import Dbs.Primitives

namespace Dbs.Prefetching

open Octets
open Pipeline (Channel Entry Outcome World)

/-! ## 1. The plain sources -/

section Stands

variable {data a b bytes : Bytes} {place : Nat}

/-- These bytes stand there. -/
def Stands (data : Bytes) (place : Nat) (bytes : Bytes) : Prop :=
  bytes = slice data place bytes.length

theorem stands_nil (data : Bytes) (place : Nat) : Stands data place [] := (slice_length_zero _ _).symm

theorem stands_slice (data : Bytes) (place length : Nat) :
    Stands data place (slice data place length) := by
  rw [Stands, slice_length]
  rcases Nat.le_total length (data.length - place) with h | h
  · rw [Nat.min_eq_left h]
  · rw [Nat.min_eq_right h, slice, slice, List.take_of_length_le, List.take_of_length_le]
    · rw [List.length_drop]
    · rw [List.length_drop]
      exact h

theorem stands_append :
    Stands data place (a ++ b) ↔ Stands data place a ∧ Stands data (place + a.length) b := by
  rw [Stands, Stands, Stands, List.length_append, slice_add]
  constructor
  · intro h
    have hlen := congrArg List.length h
    rw [List.length_append, List.length_append, slice_length, slice_length] at hlen
    exact List.append_inj h (by rw [slice_length]; omega)
  · intro h
    rw [← h.1, ← h.2]

/-- What stands there is all there is to read: it is as long, or the data ends with it. -/
theorem Stands.slice_eq (h : Stands data place bytes) {length : Nat}
    (hend : bytes.length = length ∨ bytes.length ≤ length ∧ data.length ≤ place + bytes.length) :
    bytes = slice data place length := by
  rcases hend with rfl | ⟨hle, hend⟩
  · exact h
  · obtain ⟨more, rfl⟩ := Nat.exists_eq_add_of_le hle
    rw [slice_add, slice_eq_nil more hend, List.append_nil]
    exact h

end Stands

/-- `ByteSource.read_at`. -/
def ByteSource.readAt (data : Bytes) (offset length : Int) : Bytes :=
  if offset < 0 ∨ length ≤ 0 ∨ data.length ≤ offset then [] else slice data offset.toNat length.toNat

/-- A file behind its origin, and how many bytes a `read` of so many gives there. -/
structure FileSource where
  data : Bytes
  given : Nat → Nat → Nat
  pos : ∀ offset remaining, 0 < remaining → 0 < given offset remaining
  le : ∀ offset remaining, given offset remaining ≤ remaining

namespace FileSource

/-- The parts that a read of the file takes. -/
def readParts (f : FileSource) : (fuel offset remaining : Nat) → List Bytes
  | 0, _, _ => []
  | fuel + 1, offset, remaining =>
    if remaining = 0 then []
    else
      let piece := slice f.data offset (f.given offset remaining)
      if piece = [] then []
      else piece :: f.readParts fuel (offset + piece.length) (remaining - piece.length)

/-- `FileSource.read_at`; every part has a byte at least. -/
def readAt (f : FileSource) (offset length : Int) : Bytes :=
  if offset < 0 ∨ length ≤ 0 ∨ f.data.length ≤ offset then []
  else
    let length := min length.toNat (f.data.length - offset.toNat)
    (f.readParts length offset.toNat length).flatten

variable (f : FileSource)

theorem readParts_flatten {fuel offset remaining : Nat} (hfuel : remaining ≤ fuel) :
    (f.readParts fuel offset remaining).flatten = slice f.data offset remaining := by
  induction fuel generalizing offset remaining with
  | zero =>
    obtain rfl := Nat.le_zero.mp hfuel
    exact (slice_length_zero _ _).symm
  | succ fuel ih =>
    rw [readParts]
    by_cases hzero : remaining = 0
    · rw [if_pos hzero, hzero, slice_length_zero]
      rfl
    have hpos := f.pos offset remaining (Nat.pos_of_ne_zero hzero)
    have hle := f.le offset remaining
    have hpiece := stands_slice f.data offset (f.given offset remaining)
    have hlen := slice_length f.data offset (f.given offset remaining)
    rw [if_neg hzero]
    generalize slice f.data offset (f.given offset remaining) = piece at hpiece hlen ⊢
    simp only
    split
    · rename_i hnil
      rw [hnil, List.length_nil] at hlen
      rw [slice_eq_nil _ (by omega)]
      rfl
    · rename_i hne
      have hsome := List.length_pos_of_ne_nil hne
      obtain ⟨rest, hrest⟩ := Nat.exists_eq_add_of_le (show piece.length ≤ remaining by omega)
      rw [List.flatten_cons, ih (by omega), hrest, Nat.add_sub_cancel_left, slice_add, ← hpiece]

/-- **A file is read as its bytes are**, however it cuts them into parts. -/
theorem readAt_eq (offset length : Int) :
    f.readAt offset length = ByteSource.readAt f.data offset length := by
  rw [readAt, ByteSource.readAt]
  split
  · rfl
  · simp only
    rw [f.readParts_flatten (Nat.le_refl _)]
    refine (stands_slice _ _ _).slice_eq ?_
    rw [slice_length]
    omega

/-- A read that begins within the naturals. -/
theorem readAt_nat (offset length : Nat) : f.readAt offset length = slice f.data offset length := by
  rw [readAt_eq, ByteSource.readAt, Int.toNat_natCast, Int.toNat_natCast]
  split
  · rename_i h
    rcases h with h | h | h
    · exact absurd h (by omega)
    · rw [show length = 0 by omega, slice_length_zero]
    · exact (slice_eq_nil _ (by omega)).symm
  · rfl

end FileSource

/-! ## 2. The window and the two threads -/

def pieceBytes : Nat := 1024 * 1024

def channelBytes : Nat := 2 * 1024 * 1024

/-- Where `_read_ahead` is: before the test of its loop, in `put` or `close`, at its end, failed. -/
inductive Ahead
  | idle
  | reading (offset : Nat)
  | putting (offset : Nat) (piece : Bytes)
  | closing
  | over
  | failed

/-- `_pieces`: nothing, the channel's iterator, or that iterator once it has raised. -/
inductive Pieces
  | absent
  | live
  | ended
deriving DecidableEq

/-- A read that `_take` has under way. -/
structure Taking where
  offset : Int
  length : Int
  needed : Nat
  parts : List Bytes

inductive Result
  | returned (bytes : Bytes)
  | raised (outcome : Outcome Bytes)
deriving DecidableEq

structure Read where
  offset : Int
  length : Int
  result : Result
deriving DecidableEq

variable {ε : Type}

structure State (ε : Type) where
  world : World Bytes ε := {}
  channel : Option Nat := none
  ahead : Ahead := .idle
  pieces : Pieces := .absent
  position : Nat := 0
  pending : Bytes := []
  taking : Option Taking := none
  /-- The reads that have ended, oldest first. -/
  reads : List Read := []

namespace State

/-- The read ends and gives its parts. -/
def finish (s : State ε) (t : Taking) : State ε :=
  { s with
    position := s.position + t.parts.flatten.length
    taking := none
    reads := s.reads ++ [⟨t.offset, t.length, .returned t.parts.flatten⟩] }

/-- An exception out of the iterator ends the iterator too. -/
def raise (s : State ε) (t : Taking) (outcome : Outcome Bytes) : State ε :=
  { s with
    pieces := .ended
    taking := none
    reads := s.reads ++ [⟨t.offset, t.length, .raised outcome⟩] }

/-- A call of the pipeline begins. -/
def begins [DecidableEq ε] (s : State ε) (call : Pipeline.Call Bytes ε) : Option (State ε) :=
  (Pipeline.step List.length s.world (.begin call)).map fun world => { s with world }

variable [DecidableEq ε]

/-- The next piece of the channel; an iterator that has ended gives nothing. -/
def fetch (s : State ε) (t : Taking) : Option (State ε) :=
  match s.pieces, s.channel with
  | .live, some channel =>
    { s with taking := some t }.begins (.access 0 channel .get .entering)
  | _, _ => some ({ s with pieces := .absent }.finish t)

/-- The loop of `_take`, up to the piece it waits for. -/
def take (s : State ε) (t : Taking) : Option (State ε) :=
  if s.pending = [] then s.fetch t
  else
    let part := s.pending.take t.needed
    let s := { s with pending := s.pending.drop part.length }
    let t := { t with parts := t.parts ++ [part], needed := t.needed - part.length }
    if t.needed = 0 then some (s.finish t) else s.fetch t

/-- What the channel gave; the end and an empty piece end the window. -/
def received (s : State ε) (t : Taking) : Outcome Bytes → Option (State ε)
  | .got (.item piece) =>
    if piece = [] then some ({ s with pieces := .absent }.finish t)
    else { s with pending := piece }.take t
  | .got .sentinel => some ({ s with pieces := .absent }.finish t)
  | outcome => some (s.raise t outcome)

end State

/-- What a put or a close gave the prefetching thread; `Stopped` ends it. -/
def Ahead.received : Ahead → Outcome Bytes → Ahead
  | .putting offset piece, .returned => .reading (offset + piece.length)
  | _, _ => .over

inductive Action (ε : Type)
  /-- `prefetch` -/
  | prefetch
  /-- the next turn of `_read_ahead`, and a read of the file that fails there -/
  | readAhead
  | readFails (failure : ε)
  /-- `read_at` -/
  | read (offset length : Int)
  /-- another channel, another thread's call, and a step of any call -/
  | opens (capacity : Nat)
  | begins (call : Pipeline.Call Bytes ε)
  | run (call : Pipeline.Call Bytes ε)

section Step

variable [DecidableEq ε] (f : FileSource) (start stop : Nat)

/-- `min(end, self.size)`. -/
def rangeEnd : Nat := min stop f.data.length

/-- What `_read_ahead` reads next; nothing at the end of the range. -/
def pieceAt (offset : Nat) : Bytes :=
  if offset < rangeEnd f stop then
    f.readAt offset (min pieceBytes (rangeEnd f stop - offset) : Nat)
  else []

/-- The threads go on with what a call of the channel gave them. -/
def react (s : State ε) (call : Pipeline.Call Bytes ε) (outcome : Outcome Bytes) : Option (State ε) :=
  if call.on.isSome ∧ call.on = s.channel then
    match call, s.taking with
    | .access _ _ .get _, some t => s.received t outcome
    | .access _ _ .get _, none => some s
    | _, _ => some { s with ahead := s.ahead.received outcome }
  else some s

/-- What a call ends with, where it ends. -/
def outcome : Pipeline.Effect Bytes ε → Option (Outcome Bytes)
  | .ends _ outcome => some outcome
  | .stores _ _ _ outcome => some outcome
  | _ => none

/-- One statement of either thread. -/
def step (s : State ε) : Action ε → Option (State ε)
  | .prefetch =>
    if s.channel = none ∧ s.taking = none then
      (Pipeline.step List.length s.world (.channel channelBytes)).map fun world =>
        { s with
          world
          channel := some s.world.channels.length
          ahead := .reading start
          pieces := .live
          position := start }
    else none
  | .readAhead =>
    match s.ahead, s.channel with
    | .reading offset, some channel =>
      let piece := pieceAt f stop offset
      if piece = [] then { s with ahead := .closing }.begins (.close 1 channel)
      else
        { s with ahead := .putting offset piece }.begins (.access 1 channel (.put piece) .entering)
    | _, _ => none
  | .readFails failure =>
    match s.ahead with
    | .reading offset =>
      if offset < rangeEnd f stop then { s with ahead := .failed }.begins (.fail 1 failure) else none
    | _ => none
  | .read offset length =>
    if s.taking = none then
      if s.pieces ≠ .absent ∧ offset = s.position ∧ 0 < length then
        s.take ⟨offset, length, length.toNat, []⟩
      else
        some { s with reads := s.reads ++ [⟨offset, length, .returned (f.readAt offset length)⟩] }
    else none
  | .opens capacity =>
    (Pipeline.step List.length s.world (.channel capacity)).map fun world => { s with world }
  | .begins call => if call.on.isSome ∧ call.on = s.channel then none else s.begins call
  | .run call =>
    if call ∈ s.world.calls then
      (Pipeline.effect List.length s.world call).bind fun e =>
        let s := { s with world := s.world.apply call e }
        (outcome e).elim (some s) (react s call)
    else none

end Step

/-! ## 3. What a step of a call does to one channel -/

section Calls

variable {w : World Bytes ε} {call : Pipeline.Call Bytes ε} {e : Pipeline.Effect Bytes ε} {ch : Nat}
  {o : Outcome Bytes}

/-- What a put puts; a get puts nothing. -/
def entryOf : Pipeline.Method Bytes → Option (Entry Bytes)
  | .put piece => some (.item piece)
  | .get => none

/-- What a call is to this channel: a get, or the entry it puts. -/
def role (ch : Nat) : Pipeline.Call Bytes ε → Option (Option (Entry Bytes))
  | .access _ c m _ => if c = ch then some (entryOf m) else none
  | .close _ c => if c = ch then some (some .sentinel) else none
  | _ => none

/-- The roles of the calls under way, in some order. -/
def roles (ch : Nat) (w : World Bytes ε) : List (Option (Entry Bytes)) := w.calls.filterMap (role ch)

theorem role_none : role ch call = none ↔ call.on ≠ some ch := by
  cases call with
  | access _ _ _ _ | close _ _ | stop _ | waking _ _ | fail _ _ => simp [role, Pipeline.Call.on]

theorem role_notify (n : Nat) (call : Pipeline.Call Bytes ε) :
    role ch (call.notify n) = role ch call := by
  cases call <;> rfl

theorem roles_notify (n : Nat) (calls : List (Pipeline.Call Bytes ε)) :
    (calls.map (Pipeline.Call.notify n)).filterMap (role ch) = calls.filterMap (role ch) := by
  rw [List.filterMap_map]
  exact List.filterMap_congr fun call _ => role_notify n call

theorem roles_cons (ch : Nat) (call : Pipeline.Call Bytes ε) (calls : List (Pipeline.Call Bytes ε)) :
    (call :: calls).filterMap (role ch) = (role ch call).toList ++ calls.filterMap (role ch) := by
  rw [List.filterMap_cons]
  cases role ch call <;> rfl

/-- A put or a get that is past its loop ends. -/
theorem outcome_finish (w : World Bytes ε) (t c : Nat) (channel : Channel Bytes)
    (m : Pipeline.Method Bytes) : outcome (Pipeline.finish List.length w t c channel m) ≠ none := by
  cases m with
  | put piece =>
    rw [Pipeline.finish]
    split
    · exact Option.some_ne_none _
    · exact Option.some_ne_none _
  | get =>
    rw [Pipeline.finish]
    split
    · exact Option.some_ne_none _
    · split
      · exact Option.some_ne_none _
      · exact Option.some_ne_none _

variable [DecidableEq ε]

theorem roles_erase (ch : Nat) (hmem : call ∈ w.calls) :
    (roles ch w).Perm ((role ch call).toList ++ (w.calls.erase call).filterMap (role ch)) :=
  ((List.perm_cons_erase hmem).filterMap (role ch)).trans (List.Perm.of_eq (roles_cons ch _ _))

/-- **A call that goes on** keeps its role, and the channels are as they were. -/
theorem goes_on (ch : Nat) (hmem : call ∈ w.calls) (he : Pipeline.effect List.length w call = some e)
    (ho : outcome e = none) :
    (roles ch w).Perm (roles ch (w.apply call e)) ∧ (w.apply call e).channels = w.channels := by
  have herase := roles_erase ch hmem
  cases call with
  | access t c m stage =>
    have hbecomes : ∀ stage', (roles ch w).Perm
        (roles ch (w.apply (.access t c m stage) (.becomes (.access t c m stage')))) :=
      fun stage' => herase.trans (List.Perm.of_eq (roles_cons ch (.access t c m stage') _).symm)
    cases stage with
    | waiting => cases he
    | passing =>
      obtain ⟨channel, -, rfl⟩ := Option.map_eq_some_iff.mp he
      exact absurd ho (outcome_finish w t c channel m)
    | entering | notified =>
      obtain ⟨channel, -, he⟩ := Option.bind_eq_some_iff.mp he
      obtain ⟨-, ⟨⟩⟩ := Option.ite_none_right_eq_some.mp he
      exact ⟨hbecomes _, rfl⟩
  | close t c =>
    obtain ⟨channel, -, he⟩ := Option.bind_eq_some_iff.mp he
    obtain ⟨-, ⟨⟩⟩ := Option.ite_none_right_eq_some.mp he
    split at ho
    · cases ho
    · cases ho
  | stop t =>
    cases he
    exact ⟨herase, rfl⟩
  | waking t i =>
    rw [Pipeline.effect] at he
    split at he
    · obtain ⟨-, ⟨⟩⟩ := Option.ite_none_right_eq_some.mp he
      exact ⟨herase.trans (List.Perm.of_eq (roles_notify i _).symm), rfl⟩
    · cases he
      exact ⟨herase, rfl⟩
  | fail t failure =>
    cases he
    exact ⟨herase, rfl⟩

/-- A call that ends gives it up. -/
theorem roles_ends (ch : Nat) (hmem : call ∈ w.calls) (ho : outcome e = some o) :
    (roles ch w).Perm ((role ch call).toList ++ roles ch (w.apply call e)) := by
  have herase := roles_erase ch hmem
  cases e with
  | ends t outcome => exact herase
  | stores t c changed outcome =>
    have hroles : roles ch (w.apply call (.stores t c changed outcome)) =
        (w.calls.erase call).filterMap (role ch) := roles_notify c _
    rw [hroles]
    exact herase
  | becomes _ | stops _ | wakes _ _ | woken | fails _ _ => cases ho

/-- **What a call that ends does**: stopped it raises and changes nothing; else a get takes the oldest
    entry, and a put or a close appends its own. -/
theorem ends_on (hw : Pipeline.Sound List.length w) (hmem : call ∈ w.calls)
    (he : Pipeline.effect List.length w call = some e) (ho : outcome e = some o)
    {r : Option (Entry Bytes)} (hrole : role ch call = some r) : (w.apply call e).stopped = w.stopped ∧
      ((o = .raisedStopped ∧ w.stopped = true ∧ (w.apply call e).channels = w.channels) ∨
      (w.stopped = false ∧ ∃ c, w.channels[ch]? = some c ∧
        ((∃ t entry rest, r = none ∧ o = .got entry ∧ c.items = entry :: rest ∧
            (w.apply call e).channels = w.channels.set ch (c.popped List.length t entry rest)) ∨
          ∃ entry, r = some entry ∧ o = .returned ∧
            (w.apply call e).channels = w.channels.set ch (c.append List.length entry)))) := by
  cases call with
  | access t c m stage =>
    obtain ⟨rfl, hr⟩ := Option.ite_none_right_eq_some.mp hrole
    cases hr
    cases stage with
    | waiting => cases he
    | entering | notified =>
      obtain ⟨channel, -, he⟩ := Option.bind_eq_some_iff.mp he
      obtain ⟨-, ⟨⟩⟩ := Option.ite_none_right_eq_some.mp he
      cases ho
    | passing =>
      obtain ⟨channel, hc, rfl⟩ := Option.map_eq_some_iff.mp he
      have hgo := (hw.calls _ hmem).passing t c m rfl channel hc
      cases hs : w.stopped with
      | true =>
        have hfinish : Pipeline.finish List.length w t c channel m = .ends t .raisedStopped := by
          cases m <;> rw [Pipeline.finish, if_pos hs]
        rw [hfinish] at ho ⊢
        cases ho
        exact ⟨hs, .inl ⟨rfl, rfl, rfl⟩⟩
      | false =>
        have hne : ¬ w.stopped = true := by rw [hs]; exact Bool.false_ne_true
        cases m with
        | put piece =>
          rw [Pipeline.finish, if_neg hne] at ho ⊢
          cases ho
          exact ⟨hs, .inr ⟨rfl, channel, hc, .inr ⟨.item piece, rfl, rfl, rfl⟩⟩⟩
        | get =>
          cases hitems : channel.items with
          | nil =>
            have hblocks := hgo.resolve_left hne
            rw [Channel.blocks, hitems] at hblocks
            cases hblocks
          | cons entry rest =>
            have hfinish : Pipeline.finish List.length w t c channel .get =
                .stores t c (channel.popped List.length t entry rest) (.got entry) := by
              rw [Pipeline.finish, if_neg hne, hitems]
            rw [hfinish] at ho ⊢
            cases ho
            exact ⟨hs, .inr ⟨rfl, channel, hc, .inl ⟨t, entry, rest, rfl, rfl, hitems, rfl⟩⟩⟩
  | close t c =>
    obtain ⟨rfl, hr⟩ := Option.ite_none_right_eq_some.mp hrole
    cases hr
    obtain ⟨channel, hc, he⟩ := Option.bind_eq_some_iff.mp he
    obtain ⟨-, ⟨⟩⟩ := Option.ite_none_right_eq_some.mp he
    cases hs : w.stopped with
    | true =>
      rw [hs] at ho
      cases ho
      exact ⟨hs, .inl ⟨rfl, rfl, rfl⟩⟩
    | false =>
      rw [hs] at ho
      cases ho
      exact ⟨hs, .inr ⟨rfl, channel, hc, .inr ⟨.sentinel, rfl, rfl, rfl⟩⟩⟩
  | stop _ | waking _ _ | fail _ _ => cases hrole

/-- A call on another channel leaves this one as it was. -/
theorem other_channel (hw : Pipeline.Sound List.length w) (hmem : call ∈ w.calls)
    (he : Pipeline.effect List.length w call = some e) (hrole : role ch call = none) :
    (w.apply call e).channels[ch]? = w.channels[ch]? := by
  cases ho : outcome e with
  | none => rw [(goes_on ch hmem he ho).2]
  | some o =>
    have hends : ∀ {c r}, role c call = some r →
        (w.apply call e).channels[ch]? = w.channels[ch]? := by
      intro c r hr
      have hne : c ≠ ch := by
        rintro rfl
        rw [hrole] at hr
        cases hr
      obtain ⟨-, ⟨-, -, hsame⟩ | ⟨-, channel, -,
        ⟨t, entry, rest, -, -, -, hset⟩ | ⟨entry, -, -, hset⟩⟩⟩ := ends_on hw hmem he ho hr
      · rw [hsame]
      · rw [hset, List.getElem?_set_ne hne]
      · rw [hset, List.getElem?_set_ne hne]
    cases call with
    | access t c m stage => exact hends (c := c) (if_pos rfl)
    | close t c => exact hends (c := c) (if_pos rfl)
    | stop t =>
      cases he
      cases ho
    | waking t i =>
      rw [Pipeline.effect] at he
      split at he
      · obtain ⟨-, ⟨⟩⟩ := Option.ite_none_right_eq_some.mp he
        cases ho
      · cases he
        cases ho
    | fail t failure =>
      cases he
      cases ho

/-- The flag stays. -/
theorem keeps_flag (call : Pipeline.Call Bytes ε) (e : Pipeline.Effect Bytes ε)
    (hs : w.stopped = true) :
    (w.apply call e).stopped = true := by
  cases e with
  | stops t => rfl
  | becomes _ | ends _ _ | stores _ _ _ _ | wakes _ _ | woken | fails _ _ => exact hs

/-- A failure that was recorded, or is about to be. -/
def Failing (w : World Bytes ε) : Prop :=
  w.failure.isSome = true ∨ ∃ t failure, Pipeline.Call.fail t failure ∈ w.calls

theorem keeps_failing (hmem : call ∈ w.calls) (he : Pipeline.effect List.length w call = some e)
    (h : Failing w) : Failing (w.apply call e) := by
  rcases h with h | ⟨t, failure, hfail⟩
  · left
    cases e with
    | fails t' failure' =>
      show (w.failure.or (some failure')).isSome = true
      rw [Option.or_of_isSome h]
      exact h
    | becomes _ | ends _ _ | stores _ _ _ _ | stops _ | wakes _ _ | woken => exact h
  · by_cases hcall : call = .fail t failure
    · subst hcall
      cases he
      left
      show (w.failure.or (some failure)).isSome = true
      cases w.failure <;> rfl
    · right
      have hrest : Pipeline.Call.fail t failure ∈ w.calls.erase call :=
        (List.mem_erase_of_ne (Ne.symm hcall)).mpr hfail
      refine ⟨t, failure, ?_⟩
      cases e with
      | becomes call => exact List.mem_cons_of_mem _ hrest
      | ends t' outcome => exact hrest
      | stores t' c changed outcome => exact List.mem_map_of_mem (f := Pipeline.Call.notify c) hrest
      | stops t' => exact List.mem_cons_of_mem _ hrest
      | wakes t' c =>
        exact List.mem_cons_of_mem _ (List.mem_map_of_mem (f := Pipeline.Call.notify c) hrest)
      | woken => exact hrest
      | fails t' failure' => exact List.mem_cons_of_mem _ hrest

/-- **What the threads make of a call that has ended.** -/
theorem react_eq (s : State ε) (call : Pipeline.Call Bytes ε) (o : Outcome Bytes) :
    (∀ ch ∈ s.channel, role ch call = none) ∧ react s call o = some s ∨
    ∃ ch, s.channel = some ch ∧
      (role ch call = some none ∧ react s call o = s.taking.elim (some s) (s.received · o) ∨
        ∃ entry, role ch call = some (some entry) ∧
          react s call o = some { s with ahead := s.ahead.received o }) := by
  by_cases hon : call.on.isSome ∧ call.on = s.channel
  · right
    obtain ⟨ch, hch⟩ := Option.isSome_iff_exists.mp hon.1
    refine ⟨ch, hon.2.symm.trans hch, ?_⟩
    unfold react
    rw [if_pos hon]
    cases call with
    | access t c m stage =>
      cases hch
      cases m with
      | put piece => exact .inr ⟨_, if_pos rfl, rfl⟩
      | get =>
        refine .inl ⟨if_pos rfl, ?_⟩
        cases s.taking <;> rfl
    | close t c =>
      cases hch
      exact .inr ⟨_, if_pos rfl, rfl⟩
    | stop _ | waking _ _ | fail _ _ => cases hch
  · left
    refine ⟨fun ch hch => role_none.mpr fun heq => hon
      ⟨?_, heq.trans (Option.mem_def.mp hch).symm⟩, ?_⟩
    · rw [heq]
      rfl
    · unfold react
      rw [if_neg hon]

end Calls

/-! ## 4. What every step keeps -/

section Invariant

variable (f : FileSource) (start stop : Nat)

/-- What a read has to meet: at the window it ends within the range, or the source ends there, and no
    read of the window has raised before. -/
def Within (s : State ε) : Action ε → Prop
  | .read offset length => s.pieces ≠ .absent → offset = s.position → 0 < length →
      s.pieces = .live ∧ (offset + length ≤ stop ∨ f.data.length ≤ stop)
  | _ => True

instance (s : State ε) : ∀ a, Decidable (Within f stop s a)
  | .read offset length => inferInstanceAs (Decidable (s.pieces ≠ .absent → offset = s.position →
      0 < length → s.pieces = .live ∧ (offset + length ≤ stop ∨ f.data.length ≤ stop)))
  | .prefetch | .readAhead | .readFails _ | .opens _ | .begins _ | .run _ => isTrue trivial

/-- The read gave what the plain source holds there, or `Stopped` of a pipeline that is stopped. -/
def Good (s : State ε) (r : Read) : Prop :=
  r.result = .returned (ByteSource.readAt f.data r.offset r.length) ∨
    r.result = .raised .raisedStopped ∧ s.world.stopped = true

/-- What the calls under way on the channel are to be. -/
def expected (s : State ε) : List (Option (Entry Bytes)) :=
  (if s.taking.isSome then [none] else []) ++
    match s.ahead with
    | .putting _ piece => [some (.item piece)]
    | .closing => [some .sentinel]
    | _ => []

/-- The whole range is on the channel. -/
def Complete (bytes : Bytes) : Prop := rangeEnd f stop ≤ start + bytes.length

/-- The prefetching thread, from what the channel has carried. -/
def AheadSound (chunks : List Bytes) (tail : List (Entry Bytes)) : Ahead → Prop
  | .reading offset => offset = start + chunks.flatten.length ∧ tail = []
  | .putting offset piece => offset = start + chunks.flatten.length ∧ tail = [] ∧ piece ≠ [] ∧
      Stands f.data offset piece
  | .closing => tail = [] ∧ Complete f start stop chunks.flatten
  | _ => True

/-- The parts of the read under way. -/
def State.parts (s : State ε) : Bytes := (s.taking.elim [] Taking.parts).flatten

/-- A read under way at the window. -/
structure TakingSound (pieces : Pieces) (position : Nat) (t : Taking) : Prop where
  live : pieces = .live
  offset : t.offset = position
  length : t.length = (t.parts.flatten.length + t.needed : Nat)
  needed : 0 < t.needed
  within : t.offset + t.length ≤ stop ∨ f.data.length ≤ stop

/-- **What the channel has carried is what stands in the source**, and what was taken from it is what
    the reads gave and the window still holds. -/
structure Flow (s : State ε) (c : Channel Bytes) (chunks taken : List Bytes)
    (tail : List (Entry Bytes)) : Prop where
  put : c.put = chunks.map Entry.item ++ tail
  closed : tail = [] ∨ tail = [.sentinel] ∧ Complete f start stop chunks.flatten
  nonempty : [] ∉ chunks
  stands : Stands f.data start chunks.flatten
  ahead : AheadSound f start stop chunks tail s.ahead
  got : s.pieces = .live → c.got.map Prod.snd = taken.map Entry.item ∧
    start + taken.flatten.length = s.position + (s.parts ++ s.pending).length ∧
    Stands f.data s.position (s.parts ++ s.pending)

/-- The invariant. -/
structure Inv (s : State ε) : Prop where
  world : Pipeline.Sound List.length s.world
  reads : ∀ r ∈ s.reads, Good f s r
  taking : ∀ t ∈ s.taking, TakingSound f stop s.pieces s.position t ∧ s.pending = []
  failing : s.ahead = .failed → Failing s.world
  unopened : s.channel = none → s.pieces = .absent ∧ s.pending = []
  opened : ∀ ch ∈ s.channel, (roles ch s.world).Perm (expected s) ∧
    ∃ c chunks taken tail, s.world.channels[ch]? = some c ∧ Flow f start stop s c chunks taken tail

theorem inv_start : Inv f start stop ({} : State ε) where
  world := Pipeline.sound_start List.length
  reads := nofun
  taking := nofun
  failing := nofun
  unopened := fun _ => ⟨rfl, rfl⟩
  opened := nofun

variable {f start stop} {s s' : State ε} {t : Taking} {ch : Nat}

theorem Good.mono {r : Read} (h : Good f s r)
    (hs : s.world.stopped = true → s'.world.stopped = true) : Good f s' r :=
  h.imp_right fun h => ⟨h.1, hs h.2⟩

variable {w : World Bytes ε}

/-- Something else moves the pipeline. -/
theorem Inv.transport (h : Inv f start stop s) (hw : Pipeline.Sound List.length w)
    (hs : s.world.stopped = true → w.stopped = true) (hf : Failing s.world → Failing w)
    (hroles : ∀ ch ∈ s.channel, (roles ch w).Perm (roles ch s.world))
    (hchannels : ∀ ch ∈ s.channel, w.channels[ch]? = s.world.channels[ch]?) :
    Inv f start stop { s with world := w } where
  __ := h
  world := hw
  reads := fun r hr => (h.reads r hr).mono hs
  failing := fun ha => hf (h.failing ha)
  opened := by
    intro ch hch
    obtain ⟨hperm, c, chunks, taken, tail, hc, hflow⟩ := h.opened ch hch
    refine ⟨(hroles ch hch).trans hperm, c, chunks, taken, tail, (hchannels ch hch).trans hc, ?_⟩
    exact { hflow with }

/-- A read goes on at the window, with what is pending. -/
structure Serving (f : FileSource) (start stop ch : Nat) (s : State ε) (t : Taking) : Prop where
  world : Pipeline.Sound List.length s.world
  reads : ∀ r ∈ s.reads, Good f s r
  failing : s.ahead = .failed → Failing s.world
  channel : s.channel = some ch
  roles : (roles ch s.world).Perm (expected { s with taking := none })
  flow : ∃ c chunks taken tail, s.world.channels[ch]? = some c ∧
    Flow f start stop { s with taking := some t } c chunks taken tail

variable {c : Channel Bytes} {chunks taken : List Bytes} {tail : List (Entry Bytes)}

/-- A read that ends leaves what is pending where it stands. -/
theorem Flow.finish (h : Flow f start stop { s with taking := some t } c chunks taken tail) :
    Flow f start stop (s.finish t) c chunks taken tail := by
  refine ⟨h.put, h.closed, h.nonempty, h.stands, h.ahead, fun hlive => ?_⟩
  obtain ⟨hgot, hcount, hstands⟩ := h.got hlive
  refine ⟨hgot, ?_, (stands_append.mp hstands).2⟩
  rw [hcount, List.length_append, ← Nat.add_assoc]
  rfl

/-- What the parts of a read give, at its end or at the end of the source. -/
theorem readAt_parts (ht : TakingSound f stop s.pieces s.position t) {bytes : Bytes}
    (hstands : Stands f.data s.position bytes)
    (hend : (bytes.length : Int) = t.length ∨
      bytes.length ≤ t.length ∧ f.data.length ≤ s.position + bytes.length) :
    f.readAt t.offset t.length = bytes := by
  obtain ⟨-, hoffset, hlength, -, -⟩ := ht
  rw [hoffset, hlength, f.readAt_nat]
  rw [hlength] at hend
  refine (hstands.slice_eq ?_).symm
  omega

/-- The read ends and was a good one. -/
theorem Serving.finish (h : Serving f start stop ch s t)
    (hgood : f.readAt t.offset t.length = t.parts.flatten) : Inv f start stop (s.finish t) where
  __ := h
  reads := by
    intro r hr
    rcases List.mem_append.mp hr with hr | hr
    · exact h.reads r hr
    · rw [List.mem_singleton.mp hr]
      exact .inl (congrArg Result.returned (hgood.symm.trans (f.readAt_eq _ _)))
  taking := nofun
  unopened := fun hnone => absurd (h.channel.symm.trans hnone) nofun
  opened := by
    intro channel hchannel
    obtain rfl : ch = channel := Option.some.inj (h.channel.symm.trans hchannel)
    obtain ⟨c, chunks, taken, tail, hc, hflow⟩ := h.flow
    exact ⟨h.roles, c, chunks, taken, tail, hc, hflow.finish⟩

variable {entry : Entry Bytes}

/-- The oldest entry behind what was taken: the next of the chunks, or the end behind all of them. -/
theorem next_entry {rest : List (Entry Bytes)} (htail : tail = [] ∨ tail = [.sentinel])
    (h : chunks.map Entry.item ++ tail = taken.map Entry.item ++ entry :: rest) :
    (∃ piece more, entry = .item piece ∧ chunks = taken ++ piece :: more) ∨
      entry = .sentinel ∧ taken = chunks ∧ tail = [.sentinel] := by
  induction taken generalizing chunks with
  | nil =>
    cases chunks with
    | nil =>
      rcases htail with rfl | rfl
      · cases h
      · exact .inr ⟨(List.cons.inj h).1.symm, rfl, rfl⟩
    | cons piece more => exact .inl ⟨piece, more, (List.cons.inj h).1.symm, rfl⟩
  | cons first taken ih =>
    cases chunks with
    | nil =>
      rcases htail with rfl | rfl
      · cases h
      · exact absurd (List.cons.inj h).1 nofun
    | cons piece more =>
      obtain ⟨hpiece, hmore⟩ := List.cons.inj h
      obtain rfl : piece = first := Entry.item.inj hpiece
      rcases ih hmore with ⟨next, others, hentry, rfl⟩ | ⟨hentry, rfl, htail'⟩
      · exact .inl ⟨next, others, hentry, rfl⟩
      · exact .inr ⟨hentry, rfl, htail'⟩

/-- What a piece out of the channel adds to the window. -/
theorem Flow.got_piece {piece : Bytes} {more : List Bytes} {thread : Nat} {rest : List (Entry Bytes)}
    (h : Flow f start stop s c (taken ++ piece :: more) taken tail) (hlive : s.pieces = .live)
    (hpending : s.pending = []) :
    Flow f start stop { s with world := w, pending := piece }
      (c.popped List.length thread (.item piece) rest) (taken ++ piece :: more) (taken ++ [piece])
      tail := by
  obtain ⟨hgot, hcount, hstands⟩ := h.got hlive
  rw [hpending, List.append_nil] at hcount hstands
  refine ⟨h.put, h.closed, h.nonempty, h.stands, h.ahead, fun _ => ⟨?_, ?_, ?_⟩⟩
  · show (c.got ++ [(thread, Entry.item piece)]).map Prod.snd = (taken ++ [piece]).map Entry.item
    rw [List.map_append, hgot, List.map_append]
    rfl
  · show start + (taken ++ [piece]).flatten.length = s.position + (s.parts ++ piece).length
    rw [List.flatten_append, List.flatten_singleton, List.length_append, List.length_append]
    omega
  · show Stands f.data s.position (s.parts ++ piece)
    have hchunks := h.stands
    rw [List.flatten_append, List.flatten_cons, stands_append, stands_append] at hchunks
    refine stands_append.mpr ⟨hstands, ?_⟩
    rw [← hcount]
    exact hchunks.2.1

/-- **`Stopped` out of the channel** ends the read and the iterator. -/
theorem Serving.raise (h : Serving f start stop ch s t) (hstopped : s.world.stopped = true) :
    Inv f start stop (s.raise t .raisedStopped) where
  __ := h
  reads := by
    intro r hr
    rcases List.mem_append.mp hr with hr | hr
    · exact h.reads r hr
    · rw [List.mem_singleton.mp hr]
      exact .inr ⟨rfl, hstopped⟩
  taking := nofun
  unopened := fun hnone => absurd (h.channel.symm.trans hnone) nofun
  opened := by
    intro channel hchannel
    obtain rfl : ch = channel := Option.some.inj (h.channel.symm.trans hchannel)
    obtain ⟨c, chunks, taken, tail, hc, hflow⟩ := h.flow
    exact ⟨h.roles, c, chunks, taken, tail, hc, hflow.put, hflow.closed, hflow.nonempty, hflow.stands,
      hflow.ahead, nofun⟩

/-- The calls that are left once the prefetching thread's call has ended. -/
theorem perm_of_ahead {l : List (Option (Entry Bytes))} (h : (some entry :: l).Perm (expected s)) :
    l.Perm (if s.taking.isSome then [none] else []) ∧
      ((∃ offset piece, s.ahead = .putting offset piece ∧ entry = .item piece) ∨
        s.ahead = .closing ∧ entry = .sentinel) := by
  have hnone : some entry ∉
      (if s.taking.isSome then [none] else [] : List (Option (Entry Bytes))) := by
    split <;> simp
  have hmem := h.subset List.mem_cons_self
  rw [expected] at h hmem
  have hlast := (List.mem_append.mp hmem).resolve_left hnone
  cases ha : s.ahead with
  | putting offset piece =>
    rw [ha] at h hlast
    obtain rfl : entry = .item piece := Option.some.inj (List.mem_singleton.mp hlast)
    exact ⟨(h.trans (List.perm_append_singleton _ _)).cons_inv, .inl ⟨offset, piece, rfl, rfl⟩⟩
  | closing =>
    rw [ha] at h hlast
    obtain rfl : entry = .sentinel := Option.some.inj (List.mem_singleton.mp hlast)
    exact ⟨(h.trans (List.perm_append_singleton _ _)).cons_inv, .inr ⟨rfl, rfl⟩⟩
  | idle | reading _ | «over» | failed => rw [ha] at hlast; cases hlast

variable {call : Pipeline.Call Bytes ε}

/-- A get on the channel is that of a read under way. -/
theorem Inv.get_taking (h : Inv f start stop s) (hch : s.channel = some ch)
    (hmem : call ∈ s.world.calls) (hrole : role ch call = some none) : s.taking.isSome = true := by
  have hnone : none ∈ expected s :=
    (h.opened ch hch).1.subset (List.mem_filterMap.mpr ⟨call, hmem, hrole⟩)
  rw [expected] at hnone
  cases ht : s.taking with
  | some t => rfl
  | none =>
    rw [ht] at hnone
    cases ha : s.ahead <;> rw [ha] at hnone <;> simp at hnone

theorem Inv.stops (h : Inv f start stop s) (hfailed : s.ahead = .failed) : s.world.stopped = true ∨
    ∃ t, Pipeline.Call.stop t ∈ s.world.calls ∨
      ∃ failure, Pipeline.Call.fail t failure ∈ s.world.calls := by
  rcases h.failing hfailed with hfailure | ⟨t, failure, hmem⟩
  · exact (h.world.failed hfailure).imp_right fun ⟨t, hmem⟩ => ⟨t, .inl hmem⟩
  · exact .inr ⟨t, .inr ⟨failure, hmem⟩⟩

/-- A read under way has its get among the calls. -/
theorem Inv.calls_ne_nil (h : Inv f start stop s) (ht : s.taking.isSome = true) :
    s.world.calls ≠ [] := by
  intro hnil
  cases hch : s.channel with
  | none =>
    obtain ⟨t, ht⟩ := Option.isSome_iff_exists.mp ht
    have hlive := (h.taking t ht).1.live
    rw [(h.unopened hch).1] at hlive
    cases hlive
  | some ch =>
    have hperm := (h.opened ch hch).1
    rw [roles, hnil, List.filterMap_nil] at hperm
    have hempty := hperm.nil_eq
    rw [expected, if_pos ht] at hempty
    cases hempty

variable [DecidableEq ε]

theorem begins_eq (h : s.begins call = some s') :
    s' = { s with world := { s.world with calls := call :: s.world.calls } } ∧
      (Pipeline.Sound List.length s.world → Pipeline.Sound List.length s'.world) := by
  obtain ⟨w, hw, rfl⟩ := Option.map_eq_some_iff.mp h
  refine ⟨?_, fun hsound => Pipeline.step_sound hsound hw⟩
  obtain ⟨-, hw⟩ := Option.ite_none_right_eq_some.mp hw
  rw [← Option.some.inj hw]

/-- A get begins, for a window with nothing pending. -/
theorem Serving.fetch (h : Serving f start stop ch s t) (ht : TakingSound f stop s.pieces s.position t)
    (hpending : s.pending = []) (hs : s.fetch t = some s') : Inv f start stop s' := by
  have hbegins : ({ s with taking := some t } : State ε).begins (.access 0 ch .get .entering) =
      some s' := by
    rw [State.fetch] at hs
    split at hs
    · rename_i channel _ hchannel
      obtain rfl : ch = channel := Option.some.inj (h.channel.symm.trans hchannel)
      exact hs
    · rename_i hnot
      exact absurd h.channel (hnot ch ht.live)
  obtain ⟨rfl, hsound⟩ := begins_eq hbegins
  obtain ⟨c, chunks, taken, tail, hc, hflow⟩ := h.flow
  refine ⟨hsound h.world, h.reads, ?_, fun ha => ?_, fun hnone => ?_, ?_⟩
  · intro t' ht'
    obtain rfl : t = t' := Option.some.inj ht'
    exact ⟨ht, hpending⟩
  · exact (h.failing ha).imp_right fun ⟨i, failure, hmem⟩ => ⟨i, failure, List.mem_cons_of_mem _ hmem⟩
  · exact absurd (h.channel.symm.trans hnone) nofun
  · intro channel hchannel
    obtain rfl : ch = channel := Option.some.inj (h.channel.symm.trans hchannel)
    refine ⟨?_, c, chunks, taken, tail, hc,
      { hflow with }⟩
    have hrole : role ch (.access 0 ch .get .entering : Pipeline.Call Bytes ε) = some none := if_pos rfl
    have hcons := roles_cons ch (.access 0 ch .get .entering) s.world.calls
    rw [hrole] at hcons
    exact (List.Perm.of_eq hcons).trans (h.roles.cons none)

theorem take_append_drop_length (bytes : Bytes) (n : Nat) :
    bytes.take n ++ bytes.drop (bytes.take n).length = bytes := by
  rw [List.length_take]
  rcases Nat.le_total n bytes.length with h | h
  · rw [Nat.min_eq_left h, List.take_append_drop]
  · rw [Nat.min_eq_right h, List.take_of_length_le h, List.drop_length, List.append_nil]

/-- **The loop of `_take`** gives what stands at the window, or waits for more. -/
theorem Serving.take (h : Serving f start stop ch s t) (ht : TakingSound f stop s.pieces s.position t)
    (hs : s.take t = some s') : Inv f start stop s' := by
  rw [State.take] at hs
  split at hs
  · rename_i hpending
    exact h.fetch ht hpending hs
  · rename_i hpending
    simp only at hs
    have hpart := take_append_drop_length s.pending t.needed
    have hlen : (s.pending.take t.needed).length = min t.needed s.pending.length := List.length_take
    generalize s.pending.take t.needed = part at hs hpart hlen
    obtain ⟨c, chunks, taken, tail, hc, hflow⟩ := h.flow
    -- the part goes from what is pending to the read
    have hparts : (t.parts ++ [part]).flatten = t.parts.flatten ++ part := by
      rw [List.flatten_append, List.flatten_singleton]
    have hsame : (t.parts ++ [part]).flatten ++ s.pending.drop part.length =
        t.parts.flatten ++ s.pending := by
      rw [hparts, List.append_assoc, hpart]
    have hflow' : Flow f start stop { s with
        pending := s.pending.drop part.length
        taking := some { t with parts := t.parts ++ [part], needed := t.needed - part.length } }
        c chunks taken tail := by
      refine ⟨hflow.put, hflow.closed, hflow.nonempty, hflow.stands, hflow.ahead, fun hlive => ?_⟩
      show _ ∧ _ = s.position + ((t.parts ++ [part]).flatten ++ s.pending.drop part.length).length ∧
        Stands f.data s.position ((t.parts ++ [part]).flatten ++ s.pending.drop part.length)
      rw [hsame]
      exact hflow.got hlive
    have hserving : Serving f start stop ch { s with pending := s.pending.drop part.length }
        { t with parts := t.parts ++ [part], needed := t.needed - part.length } :=
      ⟨h.world, h.reads, h.failing, h.channel, h.roles, c, chunks, taken, tail, hc, hflow'⟩
    have hlength := ht.length
    have hwhole : (t.parts ++ [part]).flatten.length = t.parts.flatten.length + part.length := by
      rw [hparts, List.length_append]
    split at hs
    · rename_i hzero
      rw [← Option.some.inj hs]
      refine hserving.finish (readAt_parts ht ?_ (.inl ?_))
      · exact (stands_append.mp (hflow'.got ht.live).2.2).1
      · have hneeded : part.length = t.needed := by omega
        show ((t.parts ++ [part]).flatten.length : Int) = t.length
        omega
    · rename_i hmore
      refine hserving.fetch ⟨ht.live, ht.offset, ?_, ?_, ht.within⟩ ?_ hs
      · show t.length = ((t.parts ++ [part]).flatten.length + (t.needed - part.length) : Nat)
        omega
      · exact Nat.pos_of_ne_zero hmore
      · exact List.drop_eq_nil_of_le (by omega)

variable {e : Pipeline.Effect Bytes ε}

/-- **What the channel gives to a read.** -/
theorem Inv.receives (h : Inv f start stop s) (hch : s.channel = some ch) (ht : s.taking = some t)
    {o : Outcome Bytes} (hmem : call ∈ s.world.calls)
    (he : Pipeline.effect List.length s.world call = some e) (ho : outcome e = some o)
    (hrole : role ch call = some none)
    (hs : State.received { s with world := s.world.apply call e } t o = some s') :
    Inv f start stop s' := by
  obtain ⟨hperm, c, chunks, taken, tail, hc, hflow⟩ := h.opened ch hch
  obtain ⟨htaking, hpending⟩ := h.taking t ht
  obtain ⟨hflag, hends⟩ := ends_on h.world hmem he ho hrole
  have hroles : (roles ch (s.world.apply call e)).Perm (expected { s with taking := none }) := by
    have hcall := roles_ends ch hmem ho
    rw [hrole] at hcall
    have hexpected : expected s = none :: expected { s with taking := none } := by
      rw [expected, ht]
      rfl
    rw [hexpected] at hperm
    exact (hcall.symm.trans hperm).cons_inv
  have hserving : ∀ {c' taken' pending' pieces'}, (s.world.apply call e).channels[ch]? = some c' →
      Flow f start stop
        { s with world := s.world.apply call e, pending := pending', pieces := pieces' }
        c' chunks taken' tail →
      Serving f start stop ch
        { s with world := s.world.apply call e, pending := pending', pieces := pieces' } t := by
    intro c' taken' pending' pieces' hc' hflow'
    refine ⟨h.world.run hmem he, fun r hr => (h.reads r hr).mono (keeps_flag call e),
      fun ha => keeps_failing hmem he (h.failing ha), hch, hroles, c', chunks, taken', tail, hc', ?_⟩
    have hsame : ({ s with
        world := s.world.apply call e, pending := pending', pieces := pieces'
        taking := some t } : State ε) =
        { s with world := s.world.apply call e, pending := pending', pieces := pieces' } := by
      rw [← ht]
    rw [hsame]
    exact hflow'
  obtain ⟨hgot, hcount, hstands⟩ := hflow.got htaking.live
  rcases hends with ⟨rfl, hstopped, hsame⟩ |
    ⟨-, c', hc', ⟨thread, entry, rest, -, rfl, hitems, hset⟩ | ⟨_, hr, -⟩⟩
  · cases hs
    have hflow' : Flow f start stop { s with world := s.world.apply call e } c chunks taken tail :=
      { hflow with }
    exact (hserving (hsame ▸ hc) hflow').raise (hflag.trans hstopped)
  · obtain rfl : c = c' := Option.some.inj (hc.symm.trans hc')
    have hfifo := (h.world.channels c (List.mem_of_getElem? hc)).fifo
    rw [hflow.put, hgot, hitems] at hfifo
    have hpopped : (s.world.apply call e).channels[ch]? =
        some (c.popped List.length thread entry rest) := by
      rw [hset, List.getElem?_set_self (List.getElem?_eq_some_iff.mp hc).1]
    rcases next_entry (hflow.closed.imp_right And.left) hfifo with
      ⟨piece, more, rfl, rfl⟩ | ⟨rfl, rfl, htail⟩
    · have hne : piece ≠ [] := fun hnil => hflow.nonempty (by
        rw [hnil]
        exact List.mem_append_right _ List.mem_cons_self)
      rw [State.received, if_neg hne] at hs
      exact (hserving hpopped (hflow.got_piece htaking.live hpending)).take htaking hs
    · -- the channel has carried the whole range
      cases hs
      have hparts : s.parts = t.parts.flatten := by
        rw [State.parts, ht]
        rfl
      rw [hpending, List.append_nil] at hcount hstands
      have hcomplete := (hflow.closed.resolve_left (by rw [htail]; exact List.cons_ne_nil _ _)).2
      have hflow' : Flow f start stop { s with world := s.world.apply call e, pieces := .absent }
          (c.popped List.length thread .sentinel rest) taken taken tail :=
        ⟨hflow.put, hflow.closed, hflow.nonempty, hflow.stands, hflow.ahead, nofun⟩
      refine (hserving hpopped hflow').finish (readAt_parts htaking ?_ (.inr ?_))
      · rw [← hparts]
        exact hstands
      · have hlength := htaking.length
        have hneeded := htaking.needed
        have hwithin := htaking.within
        have hoffset := htaking.offset
        rw [Complete, rangeEnd, hcount] at hcomplete
        rw [← hparts] at hlength ⊢
        exact ⟨by omega, by omega⟩
  · cases hr

/-- **What the channel gives to the prefetching thread.** -/
theorem Inv.aheadReceives (h : Inv f start stop s) (hch : s.channel = some ch) {o : Outcome Bytes}
    (hmem : call ∈ s.world.calls)
    (he : Pipeline.effect List.length s.world call = some e) (ho : outcome e = some o)
    (hrole : role ch call = some (some entry)) :
    Inv f start stop { s with world := s.world.apply call e, ahead := s.ahead.received o } := by
  obtain ⟨hperm, c, chunks, taken, tail, hc, hflow⟩ := h.opened ch hch
  obtain ⟨hflag, hends⟩ := ends_on h.world hmem he ho hrole
  have hcall := roles_ends ch hmem ho
  rw [hrole] at hcall
  obtain ⟨hrest, hahead⟩ := perm_of_ahead (hcall.symm.trans hperm)
  have hsound := hflow.ahead
  -- the invariant, from the channel and the calls that are left
  have hinv : ∀ {c' chunks' tail'}, (s.world.apply call e).channels[ch]? = some c' →
      Flow f start stop { s with world := s.world.apply call e, ahead := s.ahead.received o }
        c' chunks' taken tail' →
      (roles ch (s.world.apply call e)).Perm (expected { s with
        world := s.world.apply call e, ahead := s.ahead.received o }) →
      s.ahead.received o ≠ .failed →
      Inv f start stop { s with world := s.world.apply call e, ahead := s.ahead.received o } := by
    intro c' chunks' tail' hc' hflow' hperm' hfailed
    refine ⟨h.world.run hmem he, fun r hr => (h.reads r hr).mono (keeps_flag call e), h.taking,
      fun ha => absurd ha hfailed, h.unopened, fun ch' hch' => ?_⟩
    obtain rfl : ch = ch' := Option.some.inj (hch.symm.trans hch')
    exact ⟨hperm', c', chunks', taken, tail', hc', hflow'⟩
  have hperm' : ∀ a : Ahead, (∀ offset piece, a ≠ .putting offset piece) → a ≠ .closing →
      (roles ch (s.world.apply call e)).Perm
        (expected { s with world := s.world.apply call e, ahead := a }) := by
    intro a hput hclose
    rw [expected]
    cases a with
    | putting offset piece => exact absurd rfl (hput offset piece)
    | closing => exact absurd rfl hclose
    | idle | reading _ | «over» | failed => rwa [List.append_nil]
  rcases hends with ⟨rfl, -, hsame⟩ | ⟨-, c', hc', ⟨_, _, _, hr, -⟩ | ⟨_, hr, rfl, hset⟩⟩
  · have hover : s.ahead.received .raisedStopped = .over := by
      rcases hahead with ⟨offset, piece, ha, -⟩ | ⟨ha, -⟩
      · rw [ha]; rfl
      · rw [ha]; rfl
    rw [hover] at hinv ⊢
    exact hinv (hsame ▸ hc)
      ⟨hflow.put, hflow.closed, hflow.nonempty, hflow.stands, trivial, hflow.got⟩
      (hperm' _ nofun nofun) nofun
  · cases hr
  · cases hr
    obtain rfl : c = c' := Option.some.inj (hc.symm.trans hc')
    have happended : (s.world.apply call e).channels[ch]? = some (c.append List.length entry) := by
      rw [hset, List.getElem?_set_self (List.getElem?_eq_some_iff.mp hc).1]
    rcases hahead with ⟨offset, piece, ha, rfl⟩ | ⟨ha, rfl⟩
    · have hreading : s.ahead.received .returned = .reading (offset + piece.length) := by rw [ha]; rfl
      rw [ha] at hsound
      obtain ⟨rfl, rfl, hne, hpiece⟩ := hsound
      rw [hreading] at hinv ⊢
      have hflatten : (chunks ++ [piece]).flatten = chunks.flatten ++ piece := by
        rw [List.flatten_append, List.flatten_singleton]
      have hstands : Stands f.data start (chunks ++ [piece]).flatten := by
        rw [hflatten]
        exact stands_append.mpr ⟨hflow.stands, hpiece⟩
      have hput : (c.append List.length (.item piece)).put =
          (chunks ++ [piece]).map Entry.item ++ [] := by
        show c.put ++ [Entry.item piece] = _
        rw [hflow.put, List.append_nil, List.append_nil, List.map_append]
        rfl
      have hnonempty : [] ∉ chunks ++ [piece] := by
        intro hnil
        rcases List.mem_append.mp hnil with hnil | hnil
        · exact hflow.nonempty hnil
        · exact hne (List.mem_singleton.mp hnil).symm
      refine hinv happended ⟨hput, .inl rfl, hnonempty, hstands, ⟨?_, rfl⟩, hflow.got⟩
        (hperm' _ nofun nofun) nofun
      rw [hflatten, List.length_append, Nat.add_assoc]
    · have hover : s.ahead.received .returned = .over := by rw [ha]; rfl
      rw [ha] at hsound
      obtain ⟨rfl, hcomplete⟩ := hsound
      have hput : (c.append List.length .sentinel).put = chunks.map Entry.item ++ [.sentinel] := by
        show c.put ++ [Entry.sentinel] = _
        rw [hflow.put, List.append_nil]
      rw [hover] at hinv ⊢
      exact hinv happended
        ⟨hput, .inr ⟨rfl, hcomplete⟩, hflow.nonempty, hflow.stands, trivial, hflow.got⟩
        (hperm' _ nofun nofun) nofun

theorem pieceAt_stands (offset : Nat) : Stands f.data offset (pieceAt f stop offset) := by
  rw [pieceAt]
  split
  · rw [f.readAt_nat]
    exact stands_slice _ _ _
  · exact stands_nil _ _

/-- Nothing is read at the end of the range only. -/
theorem rangeEnd_le {offset : Nat} (h : pieceAt f stop offset = []) : rangeEnd f stop ≤ offset := by
  refine Nat.not_lt.mp fun hlt => ?_
  rw [pieceAt, if_pos hlt, f.readAt_nat] at h
  have hlen := congrArg List.length h
  rw [slice_length, List.length_nil] at hlen
  have hend : rangeEnd f stop ≤ f.data.length := Nat.min_le_right _ _
  have hpiece : 0 < pieceBytes := by decide
  omega

section

variable (h : Inv f start stop s)

include h

/-- A call of another thread, or on another channel, begins. -/
theorem Inv.others
    (hon : ∀ ch ∈ s.channel, role ch call = none) (hs : s.begins call = some s') :
    Inv f start stop s' := by
  obtain ⟨rfl, hsound⟩ := begins_eq hs
  refine h.transport (hsound h.world) id ?_ (fun ch hch => ?_) fun _ _ => rfl
  · exact fun hf => hf.imp_right fun ⟨t, failure, hmem⟩ => ⟨t, failure, List.mem_cons_of_mem _ hmem⟩
  · refine List.Perm.of_eq ((roles_cons ch _ _).trans ?_)
    rw [hon ch hch]
    rfl

/-- The prefetching thread's own call begins. -/
theorem Inv.aheadBegins {offset : Nat} (ha : s.ahead = .reading offset)
    (hch : s.channel = some ch) {a : Ahead} (hrole : role ch call = some (some entry))
    (hexpected : expected { s with ahead := a } =
      (if s.taking.isSome then [none] else []) ++ [some entry])
    (hfailed : a ≠ .failed)
    (hsound : ∀ chunks, AheadSound f start stop chunks [] (.reading offset) →
      AheadSound f start stop chunks [] a)
    (hs : ({ s with ahead := a } : State ε).begins call = some s') : Inv f start stop s' := by
  obtain ⟨rfl, hworld⟩ := begins_eq hs
  refine ⟨hworld h.world, h.reads, h.taking, fun hf => absurd hf hfailed, h.unopened,
    fun ch' hch' => ?_⟩
  obtain rfl : ch = ch' := Option.some.inj (hch.symm.trans hch')
  obtain ⟨hperm, c, chunks, taken, tail, hc, hflow⟩ := h.opened ch hch
  have hahead := hflow.ahead
  rw [ha] at hahead
  obtain ⟨hoffset, rfl⟩ := hahead
  refine ⟨?_, c, chunks, taken, [], hc, hflow.put, hflow.closed, hflow.nonempty, hflow.stands,
    hsound chunks ⟨hoffset, rfl⟩, hflow.got⟩
  have hcons := roles_cons ch call s.world.calls
  rw [hrole] at hcons
  have hnow : expected s = if s.taking.isSome then [none] else [] := by
    rw [expected, ha, List.append_nil]
  rw [hnow] at hperm
  refine ((List.Perm.of_eq hcons).trans (hperm.cons _)).trans ?_
  exact (List.perm_append_singleton _ _).symm.trans (List.Perm.of_eq hexpected.symm)

/-- Nothing but what the thread has begun: the read fails and the failure is about to be recorded. -/
theorem Inv.readFails {offset : Nat} {failure : ε} (ha : s.ahead = .reading offset)
    (hs : ({ s with ahead := .failed } : State ε).begins (.fail 1 failure) = some s') :
    Inv f start stop s' := by
  obtain ⟨rfl, hworld⟩ := begins_eq hs
  refine ⟨hworld h.world, h.reads, h.taking, fun _ => .inr ⟨1, failure, List.mem_cons_self⟩,
    h.unopened, fun ch hch => ?_⟩
  obtain ⟨hperm, c, chunks, taken, tail, hc, hflow⟩ := h.opened ch hch
  refine ⟨?_, c, chunks, taken, tail, hc, hflow.put, hflow.closed, hflow.nonempty, hflow.stands,
    trivial, hflow.got⟩
  have hnow : expected s = expected { s with ahead := .failed } := by
    rw [expected, expected, ha]
  exact hnow ▸ hperm

/-- The channel is opened and the thread is started. -/
theorem Inv.prefetch (hnone : s.channel = none) (ht : s.taking = none)
    (hw : Pipeline.step List.length s.world (.channel channelBytes) = some w) :
    Inv f start stop { s with
      world := w, channel := some s.world.channels.length, ahead := .reading start, pieces := .live,
      position := start } := by
  have hsound := Pipeline.step_sound h.world hw
  cases hw
  refine ⟨hsound, h.reads, fun t htaking => absurd (ht.symm.trans htaking) nofun, nofun, nofun,
    fun ch hch => ?_⟩
  cases hch
  refine ⟨List.Perm.of_eq ?_, { capacity := channelBytes }, [], [], [], ?_, ?_⟩
  · -- no call is on a channel that does not exist
    have hroles : s.world.calls.filterMap (role s.world.channels.length) = [] := by
      rw [List.filterMap_eq_nil_iff]
      intro call hcall
      refine role_none.mpr fun hon => ?_
      exact Nat.lt_irrefl _ ((h.world.calls call hcall).on _ hon)
    refine hroles.trans ?_
    rw [expected, ht]
    rfl
  · exact List.getElem?_concat_length
  · refine ⟨rfl, .inl rfl, List.not_mem_nil, stands_nil _ _, ⟨rfl, rfl⟩, fun _ => ⟨rfl, ?_, ?_⟩⟩
    · rw [State.parts, ht, (h.unopened hnone).2]
      rfl
    · rw [State.parts, ht, (h.unopened hnone).2]
      exact stands_nil _ _

/-- A read of `read_at` begins, and ends unless it waits for the channel. -/
theorem Inv.read {offset length : Int} (hwithin : Within f stop s (.read offset length))
    (hs : step f start stop s (.read offset length) = some s') : Inv f start stop s' := by
  obtain ⟨ht, hs⟩ := Option.ite_none_right_eq_some.mp hs
  split at hs
  · rename_i hwindow
    obtain ⟨hpieces, hoffset, hpos⟩ := hwindow
    obtain ⟨hlive, hends⟩ := hwithin hpieces hoffset hpos
    cases hch : s.channel with
    | none => exact absurd (h.unopened hch).1 hpieces
    | some ch =>
      obtain ⟨hperm, c, chunks, taken, tail, hc, hflow⟩ := h.opened ch hch
      have hsame : ({ s with taking := none } : State ε) = s := by rw [← ht]
      have hparts : s.parts = [] := by rw [State.parts, ht]; rfl
      have hflow' : Flow f start stop { s with taking := some ⟨offset, length, length.toNat, []⟩ }
          c chunks taken tail := by
        refine ⟨hflow.put, hflow.closed, hflow.nonempty, hflow.stands, hflow.ahead, fun hl => ?_⟩
        have hgot := hflow.got hl
        rw [hparts] at hgot
        exact hgot
      have hserving : Serving f start stop ch s ⟨offset, length, length.toNat, []⟩ :=
        ⟨h.world, h.reads, h.failing, hch, hsame.symm ▸ hperm, c, chunks, taken, tail, hc, hflow'⟩
      refine hserving.take ⟨hlive, hoffset, ?_, ?_, hends⟩ hs
      · show length = ((([] : List Bytes).flatten.length + length.toNat : Nat) : Int)
        rw [List.flatten_nil, List.length_nil]
        omega
      · show 0 < length.toNat
        omega
  · cases hs
    refine ⟨h.world, fun r hr => ?_, h.taking, h.failing, h.unopened, fun ch hch => ?_⟩
    · rcases List.mem_append.mp hr with hr | hr
      · exact h.reads r hr
      · rw [List.mem_singleton.mp hr]
        exact .inl (congrArg Result.returned (f.readAt_eq _ _))
    · obtain ⟨hperm, c, chunks, taken, tail, hc, hflow⟩ := h.opened ch hch
      exact ⟨hperm, c, chunks, taken, tail, hc, hflow.put, hflow.closed, hflow.nonempty, hflow.stands,
        hflow.ahead, hflow.got⟩

/-- A step of a call. -/
theorem Inv.run (hs : step f start stop s (.run call) = some s') : Inv f start stop s' := by
  obtain ⟨hmem, hs⟩ := Option.ite_none_right_eq_some.mp hs
  obtain ⟨e, he, hs⟩ := Option.bind_eq_some_iff.mp hs
  have hmoved : (∀ ch ∈ s.channel, (roles ch (s.world.apply call e)).Perm (roles ch s.world)) →
      (∀ ch ∈ s.channel, (s.world.apply call e).channels[ch]? = s.world.channels[ch]?) →
      Inv f start stop { s with world := s.world.apply call e } :=
    h.transport (h.world.run hmem he) (keeps_flag call e) (keeps_failing hmem he)
  cases ho : outcome e with
  | none =>
    rw [ho] at hs
    cases hs
    refine hmoved (fun ch _ => (goes_on ch hmem he ho).1.symm) fun ch _ => ?_
    rw [(goes_on ch hmem he ho).2]
  | some o =>
    rw [ho] at hs
    obtain hs : react { s with world := s.world.apply call e } call o = some s' := hs
    rcases react_eq { s with world := s.world.apply call e } call o with
      ⟨hrole, hreact⟩ | ⟨ch, hch, ⟨hrole, hreact⟩ | ⟨entry, hrole, hreact⟩⟩
    · obtain rfl := Option.some.inj (hreact.symm.trans hs)
      refine hmoved (fun ch hch => ?_) fun ch hch => other_channel h.world hmem he (hrole ch hch)
      have hends := roles_ends ch hmem ho
      rw [hrole ch hch] at hends
      exact hends.symm
    · obtain ⟨t, ht⟩ := Option.isSome_iff_exists.mp (h.get_taking hch hmem hrole)
      refine h.receives hch ht hmem he ho hrole ?_
      rw [hreact] at hs
      have htaking : ({ s with world := s.world.apply call e } : State ε).taking = some t := ht
      rw [htaking] at hs
      exact hs
    · obtain rfl := Option.some.inj (hreact.symm.trans hs)
      exact h.aheadReceives hch hmem he ho hrole

/-- **Every step keeps everything.** -/
theorem step_inv {a : Action ε} (hwithin : Within f stop s a)
    (hs : step f start stop s a = some s') : Inv f start stop s' := by
  cases a with
  | prefetch =>
    obtain ⟨⟨hnone, ht⟩, hs⟩ := Option.ite_none_right_eq_some.mp hs
    obtain ⟨w, hw, rfl⟩ := Option.map_eq_some_iff.mp hs
    exact h.prefetch hnone ht hw
  | readAhead =>
    rw [step] at hs
    split at hs
    · rename_i offset ch ha hch
      simp only at hs
      split at hs
      · rename_i hnil
        have hrole : role ch (.close 1 ch : Pipeline.Call Bytes ε) = some (some .sentinel) := if_pos rfl
        refine h.aheadBegins (a := .closing) ha hch hrole rfl nofun
          (fun chunks hreading => ⟨rfl, ?_⟩) hs
        rw [Complete, ← hreading.1]
        exact rangeEnd_le hnil
      · rename_i hne
        have hrole : role ch (.access 1 ch (.put (pieceAt f stop offset)) .entering :
            Pipeline.Call Bytes ε) = some (some (.item (pieceAt f stop offset))) := if_pos rfl
        exact h.aheadBegins (a := .putting offset (pieceAt f stop offset)) ha hch hrole rfl nofun
          (fun chunks hreading => ⟨hreading.1, rfl, hne, pieceAt_stands _⟩) hs
    · cases hs
  | readFails failure =>
    rw [step] at hs
    split at hs
    · rename_i offset ha
      obtain ⟨-, hs⟩ := Option.ite_none_right_eq_some.mp hs
      exact h.readFails ha hs
    · cases hs
  | read offset length => exact h.read hwithin hs
  | opens capacity =>
    have hs : (Pipeline.step List.length s.world (.channel capacity)).map
        (fun world => { s with world }) = some s' := hs
    obtain ⟨w, hw, rfl⟩ := Option.map_eq_some_iff.mp hs
    have hsound := Pipeline.step_sound h.world hw
    cases hw
    refine h.transport hsound id id (fun ch _ => List.Perm.refl _) fun ch hch => ?_
    obtain ⟨-, c, -, -, -, hc, -⟩ := h.opened ch hch
    exact List.getElem?_append_left (List.getElem?_eq_some_iff.mp hc).1
  | begins call =>
    obtain ⟨hon, hs⟩ := Option.ite_none_left_eq_some.mp hs
    refine h.others (fun ch hch => ?_) hs
    refine role_none.mpr fun heq => hon ⟨?_, heq.trans (Option.mem_def.mp hch).symm⟩
    rw [heq]
    rfl
  | run call => exact h.run hs

end

/-! ## 5. Once stopped -/

/-- A step of a call on a stopped pipeline moves nothing but the pipeline, and nobody waits longer. -/
theorem Inv.stopped_run (h : Inv f start stop s) (hstopped : s.world.stopped = true)
    (hmem : call ∈ s.world.calls) (he : Pipeline.effect List.length s.world call = some e) :
    ∃ u, step f start stop s (.run call) = some u ∧ u.world = s.world.apply call e := by
  have hstep : step f start stop s (.run call) =
      (outcome e).elim (some { s with world := s.world.apply call e })
        (react { s with world := s.world.apply call e } call) := by
    rw [step, if_pos hmem, he, Option.bind_some]
  rw [hstep]
  cases ho : outcome e with
  | none => exact ⟨_, rfl, rfl⟩
  | some o =>
    rw [Option.elim_some]
    rcases react_eq { s with world := s.world.apply call e } call o with
      ⟨-, hreact⟩ | ⟨ch, hch, ⟨hrole, hreact⟩ | ⟨entry, -, hreact⟩⟩
    · exact ⟨_, hreact, rfl⟩
    · obtain ⟨t, ht⟩ := Option.isSome_iff_exists.mp (h.get_taking hch hmem hrole)
      have htaking : ({ s with world := s.world.apply call e } : State ε).taking = some t := ht
      obtain ⟨-, ⟨rfl, -⟩ | ⟨hgoes, -⟩⟩ := ends_on h.world hmem he ho hrole
      · rw [hreact, htaking]
        exact ⟨_, rfl, rfl⟩
      · rw [hstopped] at hgoes
        cases hgoes
    · exact ⟨_, hreact, rfl⟩

variable (f start stop)

/-- **No read is left waiting**: while one is under way on a pipeline that is stopped, or whose
    prefetching has failed, some call can take its step; once stopped there are no more steps than
    there is work; and a failure of the prefetching thread stops the pipeline. -/
structure NotLeft (s : State ε) : Prop where
  goes_on : s.world.stopped = true ∨ s.ahead = .failed → s.taking.isSome = true →
    ∃ call, (step f start stop s (.run call)).isSome = true
  ends : s.world.stopped = true → ∀ as u, (∀ a ∈ as, ∃ call, a = .run call) →
    Runs.run (step f start stop) s as = some u → as.length + u.world.work ≤ s.world.work
  stops : s.ahead = .failed → s.world.stopped = true ∨
    ∃ t, Pipeline.Call.stop t ∈ s.world.calls ∨
      ∃ failure, Pipeline.Call.fail t failure ∈ s.world.calls

variable {f start stop}

theorem Inv.goes_on (h : Inv f start stop s) (hends : s.world.stopped = true ∨ s.ahead = .failed)
    (ht : s.taking.isSome = true) : ∃ call, (step f start stop s (.run call)).isSome = true := by
  have hstopped : s.world.stopped = true →
      ∃ call, (step f start stop s (.run call)).isSome = true := by
    intro hstopped
    obtain ⟨call, hmem, hstep⟩ := Pipeline.stopped_progress h.world hstopped (h.calls_ne_nil ht)
    rw [Pipeline.step, if_pos hmem, Option.isSome_map] at hstep
    obtain ⟨e, he⟩ := Option.isSome_iff_exists.mp hstep
    obtain ⟨u, hu, -⟩ := h.stopped_run hstopped hmem he
    exact ⟨call, hu ▸ rfl⟩
  rcases hends with hs | hfailed
  · exact hstopped hs
  · rcases h.stops hfailed with hs | ⟨t, hmem | ⟨failure, hmem⟩⟩
    · exact hstopped hs
    · refine ⟨.stop t, ?_⟩
      rw [step, if_pos hmem]
      rfl
    · refine ⟨.fail t failure, ?_⟩
      rw [step, if_pos hmem]
      rfl

theorem Inv.ends (h : Inv f start stop s) (hstopped : s.world.stopped = true) (as : List (Action ε))
    (u : State ε) (has : ∀ a ∈ as, ∃ call, a = .run call)
    (hrun : Runs.run (step f start stop) s as = some u) :
    as.length + u.world.work ≤ s.world.work := by
  induction as generalizing s with
  | nil =>
    rw [← Option.some.inj hrun]
    exact Nat.le_of_eq (Nat.zero_add _)
  | cons a as ih =>
    obtain ⟨v, hv, hrest⟩ := Runs.run_cons_eq_some.mp hrun
    obtain ⟨call, rfl⟩ := has a List.mem_cons_self
    have hinv := step_inv (a := .run call) h trivial hv
    obtain ⟨hmem, hbind⟩ := Option.ite_none_right_eq_some.mp hv
    obtain ⟨e, he, -⟩ := Option.bind_eq_some_iff.mp hbind
    obtain ⟨v', hv', hworld⟩ := h.stopped_run hstopped hmem he
    obtain rfl := Option.some.inj (hv.symm.trans hv')
    obtain ⟨hless, hflag, -⟩ := Pipeline.stopped_run hmem hstopped he
    rw [← hworld] at hless hflag
    have := ih hinv hflag (fun a ha => has a (List.mem_cons_of_mem _ ha)) hrest
    rw [List.length_cons]
    omega

end Invariant

/-- **Prefetching is transparent**: along every run, with reads anywhere and any timing of the
    threads, every read that met the condition gives what the plain source holds there, or raises
    `Stopped` of a stopped pipeline; and no read is left waiting. -/
theorem prefetching_transparent {ε : Type} [DecidableEq ε] (f : FileSource) (start stop : Nat)
    (as : List (Action ε)) (s : State ε) (h : Runs.run (step f start stop) {} as = some s)
    (hwithin : Runs.Along (step f start stop) (Within f stop) {} as) :
    (∀ r ∈ s.reads, Good f s r) ∧ NotLeft f start stop s := by
  have hinv : Inv f start stop s :=
    Runs.run_invariant_along (fun s a t hs hc hI => step_inv hI hc hs) h hwithin
      (inv_start f start stop)
  exact ⟨hinv.reads, hinv.goes_on, hinv.ends, hinv.stops⟩

/-! ## 6. Three bytes -/

section ThreeBytes

/-- A read that does not go over the end of the range. -/
def NotAcross (stop : Nat) : Action Nat → Prop
  | .read offset length => offset + length ≤ stop ∨ stop ≤ offset
  | _ => True

instance (stop : Nat) : ∀ a, Decidable (NotAcross stop a)
  | .read offset length => inferInstanceAs (Decidable (offset + length ≤ stop ∨ stop ≤ offset))
  | .prefetch | .readAhead | .readFails _ | .opens _ | .begins _ | .run _ => isTrue trivial

def threeBytes : FileSource where
  data := [1, 2, 3]
  given := fun _ remaining => remaining
  pos := fun _ _ h => h
  le := fun _ _ => Nat.le_refl _

/-- Another thread stops the pipeline while a read waits; the same read is made again. -/
def readTwice : List (Action Nat) :=
  [.prefetch, .read 0 2, .begins (.stop 2), .run (.stop 2), .run (.access 0 0 .get .entering),
    .run (.access 0 0 .get .passing), .read 0 2]

/-- The range of two bytes is read, and then the byte behind it. -/
def readBehind : List (Action Nat) :=
  [.prefetch, .readAhead, .run (.access 1 0 (.put [1, 2]) .entering),
    .run (.access 1 0 (.put [1, 2]) .passing), .readAhead, .run (.close 1 0), .read 0 2,
    .run (.access 0 0 .get .entering), .run (.access 0 0 .get .passing), .read 2 1,
    .run (.access 0 0 .get .entering), .run (.access 0 0 .get .passing)]

/-- The first two bytes come from the window, one byte from the file, and the last from the window. -/
def readThree : List (Action Nat) :=
  [.prefetch, .readAhead, .run (.access 1 0 (.put [1, 2, 3]) .entering),
    .run (.access 1 0 (.put [1, 2, 3]) .passing), .read 0 2, .run (.access 0 0 .get .entering),
    .run (.access 0 0 .get .passing), .read 1 1, .read 2 1, .readAhead, .run (.close 1 0)]

theorem prefetching_three : ∃ s, Runs.run (step threeBytes 0 3) {} readThree = some s ∧
    (∀ r ∈ s.reads, Good threeBytes s r) ∧ NotLeft threeBytes 0 3 s := by
  obtain ⟨s, hs⟩ := Option.isSome_iff_exists.mp
    (show (Runs.run (step threeBytes 0 3) {} readThree).isSome = true by decide +kernel)
  exact ⟨s, hs, prefetching_transparent threeBytes 0 3 readThree s hs (by decide +kernel)⟩

theorem reads_readTwice : (Runs.run (step threeBytes 0 3) {} readTwice).map State.reads =
    some [⟨0, 2, .raised .raisedStopped⟩, ⟨0, 2, .returned []⟩] := by decide +kernel

theorem reads_readBehind : (Runs.run (step threeBytes 0 2) {} readBehind).map
    (fun s => (s.world.stopped, s.reads)) =
    some (false, [⟨0, 2, .returned [1, 2]⟩, ⟨2, 1, .returned []⟩]) := by decide +kernel

/-- **Two short reads**: behind `Stopped` the same read gives nothing; and so does a read from the end
    of the range, once everything in front of it was taken, on a pipeline that nobody stopped. -/
theorem prefetching_short :
    (¬ ∀ as s, Runs.run (step threeBytes 0 3) {} as = some s → (∀ a ∈ as, NotAcross 3 a) →
      ∀ r ∈ s.reads, Good threeBytes s r) ∧
    ¬ ∀ as s, Runs.run (step threeBytes 0 2) {} as = some s → s.world.stopped = false →
      (∀ a ∈ as, NotAcross 2 a) → ∀ r ∈ s.reads, Good threeBytes s r := by
  constructor
  · intro h
    obtain ⟨s, hs, hreads⟩ := Option.map_eq_some_iff.mp reads_readTwice
    have hgood := h readTwice s hs (by decide) ⟨0, 2, .returned []⟩ (by rw [hreads]; decide)
    rcases hgood with hgood | ⟨hgood, -⟩
    · exact absurd hgood (by decide)
    · exact absurd hgood (by decide)
  · intro h
    obtain ⟨s, hs, hreads⟩ := Option.map_eq_some_iff.mp reads_readBehind
    obtain ⟨hstopped, hreads⟩ := Prod.mk.inj hreads
    have hgood := h readBehind s hs hstopped (by decide) ⟨2, 1, .returned []⟩ (by rw [hreads]; decide)
    rcases hgood with hgood | ⟨hgood, -⟩
    · exact absurd hgood (by decide)
    · exact absurd hgood (by decide)

end ThreeBytes

end Dbs.Prefetching

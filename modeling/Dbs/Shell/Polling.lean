/-
  File:      Dbs/Shell/Polling.lean
  Subject:   POLLING A SHELL THAT ENDS BY ITSELF (`ShellService.output` and `finish` in
             shell/service.py, `forget` and `ending` in sessions.py): the poll that drains an ended
             shell finishes its session, and after that only the end is remembered.

  One client, which polls with the cursor it last received; it may give up a poll, whose answer is
  then lost, and poll again while the lost one is still under way. Polls, the thread that reads the
  channel and the client take turns, one statement of one of them at a time. The client may poll the
  session all the time, and the session does not time out.

  * `Stage`, `Session.advance` -- where a poll is, and its next statement;
  * `InTime` -- no poll that the client waits for finds the session ended and its own cursor behind
    that;
  * `polls_complete` -- then the client has received the stream up to its cursor, and all of it when it
    is told that the shell has ended or that there is no such terminal;
    `behind_told` -- and otherwise it is told so without the last bytes;
  * `last_bytes_lost` -- the answer with the last bytes is lost, and the poll repeated.
-/
import Dbs.Shell.Buffer

namespace Dbs.Shell.Polling

open Octets

/-! ## 1. Polls -/

structure Ending where
  cursor : Nat
  reason : String
  exitStatus : Option Int

/-- What `output` returns. -/
structure Reply where
  data : Bytes
  cursor : Nat
  skipped : Bool
  closed : Bool
  reason : String
  exitStatus : Option Int
deriving DecidableEq

/-- Where a poll is. -/
inductive Stage
  /-- In front of `SHELLS.ending`. -/
  | called
  /-- In front of `SHELLS.find`, in `get`. -/
  | looking
  /-- In front of `session.read`. -/
  | found
  /-- In `buffer.read`, with the cursor that it made of the one it was given. -/
  | waiting (cursor : Nat)
  /-- In front of `session.drained`. -/
  | read (data : Bytes) (following : Nat) (skipped : Bool)
  /-- In `finish`, in front of `if session.finished`. -/
  | finishing (reply : Reply)
  /-- In `finish`, in front of `SHELLS.forget`. -/
  | forgetting (reply : Reply)
  | returning (reply : Reply)
  /-- `TerminalNotFound` is on its way. -/
  | missing
deriving DecidableEq

structure Poll where
  cursor : Nat
  stage : Stage

/-- `stream`: what the shell wrote; `known`: `SHELLS.sessions` has the session; `current`: the poll
    that the client waits for, `lost`: those that it gave up; `cursor`, `received`, `told`, `missing`:
    what it has received, and whether it was told that the shell has ended or that there is no such
    terminal. -/
structure Session where
  buffer : OutputBuffer
  stream : Bytes
  ended : Bool
  reason : String
  exitStatus : Option Int
  finished : Bool
  known : Bool
  ending : Option Ending
  current : Option Poll
  lost : List Poll
  cursor : Nat
  received : Bytes
  told : Bool
  missing : Bool

inductive Action
  /-- The shell writes; `append` is through with waiting. -/
  | output (chunk : Bytes)
  /-- The channel is at its end: `end` sets `ended`. -/
  | exit (reason : String) (exitStatus : Option Int)
  /-- And then closes the buffer. -/
  | close
  | poll
  /-- The client gives up; the answer of the poll will be lost. -/
  | lose
  /-- The next statement of the poll that the client waits for. -/
  | advance
  /-- The next statement of a lost poll. -/
  | advanceLost (k : Nat)

namespace Session

def new (capacity : Nat) : Session :=
  ⟨.new capacity, [], false, "", none, false, true, none, none, [], 0, [], false, false⟩

variable (s : Session)

/-- `{"data": "", "cursor": max(cursor, ending.cursor), …}`. -/
def remembered (cursor : Nat) (ending : Ending) : Reply :=
  ⟨[], max cursor ending.cursor, cursor < ending.cursor, true, ending.reason, ending.exitStatus⟩

/-- What is returned after a read. -/
def reply (data : Bytes) (following : Nat) (skipped closed : Bool) : Reply :=
  ⟨data, following, skipped, closed, if closed then s.reason else "",
    if closed then s.exitStatus else none⟩

/-- The next statement of a poll: what it does to the session, and where the poll is then. -/
def advance (cursor : Nat) : Stage → Session × Option Stage
  | .called =>
    (s, some (match s.ending with
      | some ending => .returning (remembered cursor ending)
      | none => .looking))
  | .looking => (s, some (if s.known = true ∧ s.finished = false then .found else .missing))
  | .found =>
    let clipped := min cursor s.buffer.endOffset
    ({ s with buffer := s.buffer.acknowledge clipped }, some (.waiting clipped))
  | .waiting clipped =>
    let found := s.buffer.following clipped
    (s, some (.read found.1 found.2.1 found.2.2))
  | .read data following skipped =>
    let closed := s.ended && s.buffer.drained following
    let reply := s.reply data following skipped closed
    (s, some (if closed then .finishing reply else .returning reply))
  | .finishing reply =>
    if s.finished then (s, some (.returning reply))
    else ({ s with finished := true }, some (.forgetting reply))
  | .forgetting reply =>
    ({ s with known := false, ending := some ⟨s.buffer.endOffset, s.reason, s.exitStatus⟩ },
      some (.returning reply))
  | .returning _ => (s, none)
  | .missing => (s, none)

/-- The client receives an answer. -/
def receive (reply : Reply) : Session :=
  { s with cursor := reply.cursor, received := s.received ++ reply.data, told := reply.closed,
           current := none }

/-- A statement of the poll that the client waits for. -/
def advanceCurrent (poll : Poll) : Session :=
  match poll.stage with
  | .returning reply => s.receive reply
  | .missing => { s with missing := true, current := none }
  | stage =>
    let next := s.advance poll.cursor stage
    { next.1 with current := next.2.map (⟨poll.cursor, ·⟩) }

def advanceLost (k : Nat) (poll : Poll) : Session :=
  let next := s.advance poll.cursor poll.stage
  { next.1 with lost := match next.2 with
      | some stage => s.lost.set k ⟨poll.cursor, stage⟩
      | none => s.lost.eraseIdx k }

end Session

def step (s : Session) : Action → Option Session
  | .output chunk =>
    if s.ended = false ∧ ¬s.buffer.Full chunk then
      some { s with buffer := (s.buffer.append chunk).2, stream := s.stream ++ chunk }
    else none
  | .exit reason exitStatus =>
    if s.ended = false then
      some { s with ended := true, reason := reason, exitStatus := exitStatus }
    else none
  | .close => if s.ended = true then some { s with buffer := s.buffer.close } else none
  | .poll => if s.current = none then some { s with current := some ⟨s.cursor, .called⟩ } else none
  | .lose => some { s with current := none, lost := s.current.toList ++ s.lost }
  | .advance => s.current.map s.advanceCurrent
  | .advanceLost k => s.lost[k]?.map (s.advanceLost k)

/-- A poll that finds the end remembered, or `get` without the session, has asked with a cursor that is
    not behind the end. -/
def Poll.AtEnd (s : Session) (poll : Poll) : Prop :=
  (poll.stage = .called → ∀ e ∈ s.ending, e.cursor ≤ poll.cursor) ∧
    (poll.stage = .looking → ¬(s.known = true ∧ s.finished = false) →
      s.buffer.endOffset ≤ poll.cursor)

instance (s : Session) (poll : Poll) : Decidable (poll.AtEnd s) :=
  inferInstanceAs (Decidable (_ ∧ _))

/-- No poll that the client waits for finds the session ended, and its own cursor behind that. -/
def InTime (s : Session) : Action → Prop
  | .advance => ∀ poll ∈ s.current, poll.AtEnd s
  | .output _ | .exit _ _ | .close | .poll | .lose | .advanceLost _ => True

instance (s : Session) : ∀ a, Decidable (InTime s a)
  | .advance => inferInstanceAs (Decidable (∀ poll ∈ s.current, poll.AtEnd s))
  | .output _ | .exit _ _ | .close | .poll | .lose | .advanceLost _ =>
    inferInstanceAs (Decidable True)

/-! ## 2. What polls bring -/

/-- The bytes take a client from one cursor to the other. -/
structure Brings (stream : Bytes) (cursor : Nat) (data : Bytes) (following : Nat) : Prop where
  forward : cursor ≤ following
  within : following ≤ stream.length
  data : stream.take cursor ++ data = stream.take following

variable {stream : Bytes} {cursor : Nat}

theorem Brings.nothing (h : cursor ≤ stream.length) :
    Brings stream cursor [] cursor := ⟨Nat.le_refl _, h, List.append_nil _⟩

theorem Brings.slice {cursor n : Nat} (h : cursor ≤ stream.length) :
    Brings stream cursor (slice stream cursor n) (cursor + (slice stream cursor n).length) where
  forward := Nat.le_add_right _ _
  within := by
    rw [slice_length]
    omega
  data := by rw [List.take_add, Octets.slice, List.length_take, ← List.take_eq_take_min]

theorem Brings.grow {stream more data : Bytes} {cursor following : Nat}
    (h : Brings stream cursor data following) : Brings (stream ++ more) cursor data following where
  forward := h.forward
  within := h.within.trans (by rw [List.length_append]; omega)
  data := by
    rw [List.take_append_of_le_length (h.forward.trans h.within),
      List.take_append_of_le_length h.within, h.data]

/-- A poll that is finishing the session has found the buffer closed. -/
def Stage.Fits (closed : Prop) : Stage → Prop
  | .called | .looking | .found | .waiting _ | .read _ _ _ | .returning _ | .missing => True
  | .finishing _ | .forgetting _ => closed

/-- What a poll with the client's cursor has for the client, at each stage. -/
def Stage.Delivers (stream : Bytes) (cursor : Nat) (closed : Prop) : Stage → Prop
  | .called | .looking | .found => True
  | .waiting clipped => clipped = cursor
  | .read data following _ => Brings stream cursor data following
  | .finishing reply | .forgetting reply =>
    Brings stream cursor reply.data reply.cursor ∧ reply.closed = true ∧
      reply.cursor = stream.length ∧ closed
  | .returning reply =>
    Brings stream cursor reply.data reply.cursor ∧
      (reply.closed = true → reply.cursor = stream.length ∧ closed)
  | .missing => cursor = stream.length ∧ closed

theorem Stage.Delivers.fits {closed : Prop} {stage : Stage}
    (h : stage.Delivers stream cursor closed) : stage.Fits closed := by
  cases stage with
  | finishing _ | forgetting _ => exact h.2.2.2
  | called | looking | found | waiting _ | read _ _ _ | returning _ | missing => trivial

/-- The shell still writes: nothing has found the buffer closed. -/
theorem Stage.Delivers.grow {stream more : Bytes} {closed : Prop} {stage : Stage}
    (h : stage.Delivers stream cursor closed) (hopen : ¬closed) :
    stage.Delivers (stream ++ more) cursor closed := by
  cases stage with
  | called | looking | found => trivial
  | waiting clipped => exact h
  | read data following skipped => exact Brings.grow h
  | finishing _ | forgetting _ => exact absurd h.2.2.2 hopen
  | returning reply => exact ⟨h.1.grow, fun hclosed => absurd (h.2 hclosed).2 hopen⟩
  | missing => exact absurd h.2 hopen

theorem Stage.Delivers.close {closed closed' : Prop} {stage : Stage}
    (h : stage.Delivers stream cursor closed) (himp : closed → closed') :
    stage.Delivers stream cursor closed' := by
  cases stage with
  | called | looking | found => trivial
  | waiting _ | read _ _ _ => exact h
  | finishing _ | forgetting _ => exact ⟨h.1, h.2.1, h.2.2.1, himp h.2.2.2⟩
  | returning reply => exact ⟨h.1, fun hclosed => (h.2 hclosed).imp_right himp⟩
  | missing => exact h.imp_right himp

/-! ## 3. The session -/

/-- What holds of the session and of what the client has received. -/
structure Sound (s : Session) : Prop where
  holds : s.buffer.Holds s.stream
  acknowledged : s.buffer.acknowledged ≤ s.cursor
  within : s.cursor ≤ s.stream.length
  received : s.received = s.stream.take s.cursor
  closed : s.buffer.closed = true → s.ended = true
  finished : s.finished = true → s.buffer.closed = true
  ending : ∀ e ∈ s.ending, e.cursor = s.stream.length ∧ s.buffer.closed = true
  known : s.known = false → s.buffer.closed = true
  told : (s.told = true ∨ s.missing = true) → s.cursor = s.stream.length ∧ s.buffer.closed = true

/-- The session with all polls. -/
structure Inv (s : Session) : Prop where
  sound : Sound s
  current : ∀ p ∈ s.current, p.cursor = s.cursor ∧
    p.stage.Delivers s.stream s.cursor (s.buffer.closed = true)
  lost : ∀ p ∈ s.lost, p.cursor ≤ s.cursor ∧ p.stage.Fits (s.buffer.closed = true)

section Advance

variable {s : Session} {cursor : Nat} {stage : Stage}

/-- A statement of a poll leaves the stream, the client and the polls, and whether the buffer is
    closed. -/
theorem advance_frame (s : Session) (cursor : Nat) (stage : Stage) :
    (s.advance cursor stage).1.stream = s.stream ∧ (s.advance cursor stage).1.cursor = s.cursor ∧
      (s.advance cursor stage).1.received = s.received ∧
      (s.advance cursor stage).1.current = s.current ∧ (s.advance cursor stage).1.lost = s.lost ∧
      (s.advance cursor stage).1.buffer.closed = s.buffer.closed := by
  cases stage with
  | found => exact ⟨rfl, rfl, rfl, rfl, rfl, OutputBuffer.acknowledge_closed _ _⟩
  | finishing reply =>
    rw [Session.advance]
    split <;> exact ⟨rfl, rfl, rfl, rfl, rfl, rfl⟩
  | called | looking | waiting _ | read _ _ _ | forgetting _ | returning _ | missing =>
    exact ⟨rfl, rfl, rfl, rfl, rfl, rfl⟩

/-- A session that `get` does not find has been drained. -/
theorem Sound.gone (hs : Sound s) (h : ¬(s.known = true ∧ s.finished = false)) :
    s.buffer.closed = true := by
  cases hknown : s.known with
  | false => exact hs.known hknown
  | true =>
    cases hfinished : s.finished with
    | false => exact absurd ⟨hknown, hfinished⟩ h
    | true => exact hs.finished hfinished

theorem Sound.advance (hs : Sound s) (hcursor : cursor ≤ s.cursor)
    (hfits : stage.Fits (s.buffer.closed = true)) : Sound (s.advance cursor stage).1 := by
  cases stage with
  | called | looking => exact hs
  | found =>
    have hclosed := OutputBuffer.acknowledge_closed s.buffer
      (min cursor s.buffer.endOffset)
    refine ⟨hs.holds.acknowledge ?_, ?_, hs.within, hs.received, fun h => hs.closed ?_,
      fun h => ?_, fun e he => ?_, fun h => ?_, fun h => ?_⟩
    · exact (Nat.min_le_right _ _).trans hs.holds.endOffset_eq.le
    · show (s.buffer.acknowledge _).acknowledged ≤ s.cursor
      rw [hs.holds.acknowledged_eq]
      have hack := hs.acknowledged
      omega
    · exact hclosed ▸ h
    · exact hclosed.trans (hs.finished h)
    · exact (hs.ending e he).imp_right hclosed.trans
    · exact hclosed.trans (hs.known h)
    · exact (hs.told h).imp_right hclosed.trans
  | waiting _ | read _ _ _ => exact hs
  | finishing reply =>
    rw [Session.advance]
    split
    · exact hs
    · exact { hs with finished := fun _ => hfits }
  | forgetting reply =>
    refine { hs with known := fun _ => hfits, ending := fun e he => ?_ }
    cases he
    exact ⟨hs.holds.endOffset_eq, hfits⟩
  | returning _ | missing => exact hs

/-- A poll that stays under way fits its next stage, whether it is lost or not. -/
theorem fits_advance (hfits : stage.Fits (s.buffer.closed = true)) :
    ∀ next ∈ (s.advance cursor stage).2, next.Fits (s.buffer.closed = true) := by
  intro next hnext
  cases stage with
  | called =>
    cases hnext
    cases s.ending <;> trivial
  | looking =>
    cases hnext
    split <;> trivial
  | found | waiting _ =>
    cases hnext
    trivial
  | read data following skipped =>
    cases hnext
    split
    · next hclosed =>
      rw [Bool.and_eq_true, OutputBuffer.drained, Bool.and_eq_true] at hclosed
      exact hclosed.2.1
    · trivial
  | finishing reply =>
    rw [Session.advance] at hnext
    split at hnext
    · cases hnext
      trivial
    · cases hnext
      exact hfits
  | forgetting reply =>
    cases hnext
    trivial
  | returning _ | missing => cases hnext

/-- **A poll with the client's cursor brings what comes next in the stream**, if it does not find the
    session ended and its cursor behind that. -/
theorem delivers_advance (hs : Sound s)
    (hd : stage.Delivers s.stream s.cursor (s.buffer.closed = true))
    (htime : (⟨s.cursor, stage⟩ : Poll).AtEnd s) :
    ∀ next ∈ (s.advance s.cursor stage).2,
      next.Delivers s.stream s.cursor (s.buffer.closed = true) := by
  intro next hnext
  cases stage with
  | called =>
    cases hnext
    cases hending : s.ending with
    | none => trivial
    | some e =>
      obtain ⟨hlength, hclosed⟩ := hs.ending e hending
      have hbehind := htime.1 rfl e hending
      have hcursor : max s.cursor e.cursor = s.cursor := Nat.max_eq_left hbehind
      have hat : s.cursor = s.stream.length := by
        have hwithin := hs.within
        omega
      refine ⟨?_, fun _ => ⟨hcursor.trans hat, hclosed⟩⟩
      show Brings s.stream s.cursor [] (max s.cursor e.cursor)
      rw [hcursor]
      exact Brings.nothing hs.within
  | looking =>
    cases hnext
    split
    · trivial
    · next hgone =>
      have hend : s.buffer.endOffset ≤ s.cursor := htime.2 rfl hgone
      rw [hs.holds.endOffset_eq] at hend
      exact ⟨Nat.le_antisymm hs.within hend, hs.gone hgone⟩
  | found =>
    cases hnext
    show min s.cursor s.buffer.endOffset = s.cursor
    rw [hs.holds.endOffset_eq, Nat.min_eq_left hs.within]
  | waiting clipped =>
    cases hnext
    obtain rfl : clipped = s.cursor := hd
    show Brings s.stream s.cursor (s.buffer.following s.cursor).1 (s.buffer.following s.cursor).2.1
    rw [hs.holds.following_eq, Nat.max_eq_left hs.acknowledged]
    exact Brings.slice hs.within
  | read data following skipped =>
    cases hnext
    have hbrings : Brings s.stream s.cursor data following := hd
    split
    · next hclosed =>
      have hdrained := hclosed
      rw [Bool.and_eq_true, OutputBuffer.drained, Bool.and_eq_true, decide_eq_true_eq,
        hs.holds.endOffset_eq] at hdrained
      exact ⟨hbrings, hclosed, Nat.le_antisymm hbrings.within hdrained.2.2, hdrained.2.1⟩
    · next hopen => exact ⟨hbrings, fun hclosed => absurd hclosed hopen⟩
  | finishing reply =>
    rw [Session.advance] at hnext
    split at hnext
    · cases hnext
      exact ⟨hd.1, fun _ => hd.2.2⟩
    · cases hnext
      exact hd
  | forgetting reply =>
    cases hnext
    exact ⟨hd.1, fun _ => hd.2.2⟩
  | returning _ | missing => cases hnext

end Advance

/-! ## 4. Runs -/

section Runs

variable {s s' : Session} {capacity : Nat} {a : Action} {as : List Action}

theorem Inv.new : Inv (.new capacity) where
  sound := ⟨⟨rfl, Nat.le_refl _, rfl⟩, Nat.le_refl _, Nat.le_refl _, rfl, nofun, nofun, nofun,
    nofun, nofun⟩
  current := nofun
  lost := nofun

section

variable (hi : Inv s)

include hi

theorem Inv.output {chunk : Bytes} (hgoing : s.ended = false) :
    Inv { s with buffer := (s.buffer.append chunk).2, stream := s.stream ++ chunk } := by
  have hopen : ¬s.buffer.closed = true := by
    intro hclosed
    rw [hi.sound.closed hclosed] at hgoing
    cases hgoing
  rw [OutputBuffer.append, if_neg hopen]
  have hs := hi.sound
  have hlonger : s.stream.length ≤ (s.stream ++ chunk).length := by
    rw [List.length_append]
    omega
  refine ⟨⟨hs.holds.append, hs.acknowledged, hs.within.trans hlonger, ?_, hs.closed, hs.finished,
    fun e he => absurd (hs.ending e he).2 hopen, fun hk => absurd (hs.known hk) hopen,
    fun ht => absurd (hs.told ht).2 hopen⟩, ?_, hi.lost⟩
  · rw [List.take_append_of_le_length hs.within]
    exact hs.received
  · exact fun p hp => ⟨(hi.current p hp).1, (hi.current p hp).2.grow hopen⟩

theorem Inv.close (hended : s.ended = true) :
    Inv { s with buffer := s.buffer.close } where
  sound := { hi.sound with
    holds := hi.sound.holds.close
    closed := fun _ => hended
    finished := fun _ => rfl
    ending := fun e he => ⟨(hi.sound.ending e he).1, rfl⟩
    known := fun _ => rfl
    told := fun ht => ⟨(hi.sound.told ht).1, rfl⟩ }
  current := fun p hp => ⟨(hi.current p hp).1, (hi.current p hp).2.close fun _ => rfl⟩
  lost := fun p hp => ⟨(hi.lost p hp).1, by cases p.stage <;> trivial⟩

/-- The client gives up the poll. -/
theorem Inv.lose : Inv { s with current := none, lost := s.current.toList ++ s.lost } where
  sound := { hi.sound with }
  current := nofun
  lost := fun p hp => by
    rcases List.mem_append.mp hp with hp | hp
    · obtain ⟨hcursor, hd⟩ := hi.current p (Option.mem_toList.mp hp)
      exact ⟨hcursor.le, hd.fits⟩
    · exact hi.lost p hp

/-- The client receives the answer. -/
theorem Inv.receive {p : Poll} {reply : Reply} (hp : p ∈ s.current)
    (hstage : p.stage = .returning reply) : Inv (s.receive reply) := by
  obtain ⟨-, hd⟩ := hi.current p hp
  rw [hstage] at hd
  obtain ⟨hbrings, htold⟩ := hd
  have hs := hi.sound
  refine ⟨⟨hs.holds, hs.acknowledged.trans hbrings.forward, hbrings.within, ?_, hs.closed, hs.finished,
    hs.ending, hs.known, fun h => h.elim htold fun hm => ?_⟩, nofun, fun q hq => ?_⟩
  · show s.received ++ reply.data = _
    rw [hs.received]
    exact hbrings.data
  · obtain ⟨hend, hclosed⟩ := hs.told (.inr hm)
    exact ⟨Nat.le_antisymm hbrings.within (hend ▸ hbrings.forward), hclosed⟩
  · exact ⟨(hi.lost q hq).1.trans hbrings.forward, (hi.lost q hq).2⟩

theorem Inv.advance {p : Poll} (hp : p ∈ s.current)
    (htime : p.AtEnd s) : Inv (s.advanceCurrent p) := by
  obtain ⟨hcursor, hd⟩ := hi.current p hp
  unfold Session.advanceCurrent
  split
  · next reply hstage => exact hi.receive hp hstage
  · next hstage =>
    rw [hstage] at hd
    exact ⟨{ hi.sound with told := fun _ => hd }, nofun, hi.lost⟩
  · obtain ⟨hstream, hsame, hreceived, -, hlost, hclosed⟩ :=
      advance_frame s p.cursor p.stage
    have hsound := hi.sound.advance hcursor.le hd.fits
    refine ⟨{ hsound with }, fun q hq => ?_, fun q hq => ?_⟩
    · obtain ⟨next, hnext, rfl⟩ := Option.map_eq_some_iff.mp hq
      refine ⟨hcursor.trans hsame.symm, ?_⟩
      show next.Delivers (s.advance p.cursor p.stage).1.stream (s.advance p.cursor p.stage).1.cursor _
      rw [hstream, hsame]
      have hat : (⟨s.cursor, p.stage⟩ : Poll).AtEnd s := hcursor ▸ htime
      rw [hcursor] at hnext
      exact (delivers_advance hi.sound hd hat next hnext).close hclosed.trans
    · obtain ⟨hle, hfits⟩ := hi.lost q (hlost ▸ hq)
      refine ⟨hle.trans hsame.ge, ?_⟩
      show q.stage.Fits ((s.advance p.cursor p.stage).1.buffer.closed = true)
      rw [hclosed]
      exact hfits

theorem Inv.advanceLost {k : Nat} {p : Poll} (hp : s.lost[k]? = some p) :
    Inv (s.advanceLost k p) := by
  obtain ⟨hcursor, hfits⟩ := hi.lost p (List.mem_of_getElem? hp)
  obtain ⟨hstream, hsame, hreceived, hcurrent, hlost, hclosed⟩ :=
    advance_frame s p.cursor p.stage
  refine ⟨{ hi.sound.advance hcursor hfits with }, fun q hq => ?_, fun q hq => ?_⟩
  · obtain ⟨hq', hd⟩ := hi.current q (hcurrent ▸ hq)
    refine ⟨hq'.trans hsame.symm, ?_⟩
    show q.stage.Delivers (s.advance p.cursor p.stage).1.stream (s.advance p.cursor p.stage).1.cursor
      ((s.advance p.cursor p.stage).1.buffer.closed = true)
    rw [hstream, hsame, hclosed]
    exact hd
  · have hold : ∀ q ∈ s.lost, q.cursor ≤ (s.advance p.cursor p.stage).1.cursor ∧
        q.stage.Fits ((s.advance p.cursor p.stage).1.buffer.closed = true) := by
      intro q hq
      rw [hsame, hclosed]
      exact hi.lost q hq
    replace hq : q ∈ (match (s.advance p.cursor p.stage).2 with
      | some stage => s.lost.set k ⟨p.cursor, stage⟩
      | none => s.lost.eraseIdx k) := hq
    split at hq
    · next stage hnext =>
      rcases List.mem_or_eq_of_mem_set hq with hq | rfl
      · exact hold q hq
      · refine ⟨hcursor.trans hsame.ge, ?_⟩
        show stage.Fits ((s.advance p.cursor p.stage).1.buffer.closed = true)
        rw [hclosed]
        exact fits_advance hfits stage hnext
    · exact hold q (List.mem_of_mem_eraseIdx hq)

theorem Inv.step (h : step s a = some s') (ht : InTime s a) : Inv s' := by
  cases a with
  | output chunk =>
    obtain ⟨⟨hgoing, -⟩, ⟨⟩⟩ := Option.ite_none_right_eq_some.mp h
    exact hi.output hgoing
  | exit reason exitStatus =>
    obtain ⟨-, ⟨⟩⟩ := Option.ite_none_right_eq_some.mp h
    exact ⟨{ hi.sound with closed := fun _ => rfl }, hi.current, hi.lost⟩
  | close =>
    obtain ⟨hended, ⟨⟩⟩ := Option.ite_none_right_eq_some.mp h
    exact hi.close hended
  | poll =>
    obtain ⟨-, ⟨⟩⟩ := Option.ite_none_right_eq_some.mp h
    refine ⟨{ hi.sound with }, fun p hp => ?_, hi.lost⟩
    cases hp
    exact ⟨rfl, trivial⟩
  | lose =>
    cases h
    exact hi.lose
  | advance =>
    obtain ⟨p, hp, rfl⟩ := Option.map_eq_some_iff.mp h
    exact hi.advance hp (ht p hp)
  | advanceLost k =>
    obtain ⟨p, hp, rfl⟩ := Option.map_eq_some_iff.mp h
    exact hi.advanceLost hp

end

/-- **The answers a client receives, put together, are what the shell wrote**, each byte once, up to
    the cursor it received, and up to the last byte when it is told that the shell has ended or that
    there is no such terminal; in whatever order the shell writes and ends, answers are lost and polls
    repeated, where no poll that the client waits for finds the session ended and its own cursor
    behind that. -/
theorem polls_complete (h : Runs.run step (.new capacity) as = some s)
    (ht : Runs.Along step InTime (.new capacity) as) :
    s.received = s.stream.take s.cursor ∧ s.cursor ≤ s.stream.length ∧
      (s.told = true ∨ s.missing = true → s.received = s.stream ∧ s.ended = true) := by
  have hinv : Inv s :=
    Runs.run_invariant_along (fun _ _ _ hstep hin hi => Inv.step hi hstep hin) h ht Inv.new
  obtain ⟨hs, -, -⟩ := hinv
  refine ⟨hs.received, hs.within, fun htold => ?_⟩
  obtain ⟨hlength, hclosed⟩ := hs.told htold
  exact ⟨by rw [hs.received, hlength, List.take_length], hs.closed hclosed⟩

/-- What a client behind the end has received is not the stream. -/
theorem Inv.short (hi : Inv s) (h : s.cursor < s.stream.length) : s.received ≠ s.stream := by
  intro heq
  rw [hi.sound.received] at heq
  have hshort := congrArg List.length heq
  rw [List.length_take] at hshort
  omega

/-- **A poll that is not in time** is answered that the shell has ended or that there is no such
    terminal, and that answer, when it arrives, is without the last bytes. -/
theorem behind_told (hi : Inv s) (h : ¬InTime s .advance) :
    ∃ t, Runs.run step s [.advance, .advance] = some t ∧ (t.told = true ∨ t.missing = true) ∧
      t.received ≠ t.stream := by
  have hrun : ∀ {t u}, step s .advance = some t → step t .advance = some u →
      Runs.run step s [.advance, .advance] = some u := fun ht hu =>
    Runs.run_cons_eq_some.mpr ⟨_, ht, Runs.run_cons_eq_some.mpr ⟨_, hu, rfl⟩⟩
  obtain ⟨⟨cursor, stage⟩, hp, hlate⟩ : ∃ p ∈ s.current, ¬p.AtEnd s := by
    simpa only [InTime, not_forall, exists_prop] using h
  obtain rfl : cursor = s.cursor := (hi.current _ hp).1
  have hadvance : step s .advance = some (s.advanceCurrent ⟨s.cursor, stage⟩) :=
    congrArg (Option.map s.advanceCurrent) hp
  rcases not_and_or.mp hlate with hlate | hlate
  · obtain ⟨rfl, e, he, hbehind⟩ :
        stage = .called ∧ ∃ e, s.ending = some e ∧ s.cursor < e.cursor := by
      simpa only [Classical.not_imp, not_forall, Nat.not_le, Option.mem_def, exists_prop] using hlate
    rw [(hi.sound.ending e he).1] at hbehind
    have hreply : s.advance s.cursor .called =
      (s, some (.returning (Session.remembered s.cursor e))) := by
      rw [Session.advance, he]
    have hfirst : step s .advance = some { s with
        current := some ⟨s.cursor, .returning (Session.remembered s.cursor e)⟩ } := by
      simp only [hadvance, Session.advanceCurrent, hreply, Option.map_some]
    refine ⟨_, hrun hfirst rfl, .inl rfl, ?_⟩
    show s.received ++ [] ≠ s.stream
    rw [List.append_nil]
    exact hi.short hbehind
  · obtain ⟨rfl, hgone, hbehind⟩ : stage = .looking ∧ ¬(s.known = true ∧ s.finished = false) ∧
        s.cursor < s.buffer.endOffset := by
      simpa only [Classical.not_imp, Nat.not_le, exists_prop] using hlate
    rw [hi.sound.holds.endOffset_eq] at hbehind
    have hfirst : step s .advance = some { s with current := some ⟨s.cursor, .missing⟩ } := by
      simp only [hadvance, Session.advanceCurrent, Session.advance, if_neg hgone, Option.map_some]
    exact ⟨_, hrun hfirst rfl, .inr rfl, hi.short hbehind⟩

end Runs

/-- The shell writes, the first answer is lost and the poll repeated; the shell ends while the client
    polls again, and the client is told so with the last bytes. -/
theorem polls_complete_repeated :
    ∃ s, Runs.run step (.new 64) [.output [98, 121], .poll, .advance, .advance, .advance, .advance,
        .lose, .poll, .advance, .advance, .advance, .advance, .advance, .advance, .poll, .advance,
        .advance, .advance, .output [101], .exit "exited" (some 0), .close, .advanceLost 0, .advance,
        .advance, .advance, .advance, .advance] = some s ∧
      s.told = true ∧ s.received = [98, 121, 101] ∧ s.received = s.stream := by
  have hrun : (Runs.run step (.new 64)
    [.output [98, 121], .poll, .advance, .advance, .advance, .advance,
      .lose, .poll, .advance, .advance, .advance, .advance, .advance, .advance, .poll, .advance,
      .advance, .advance, .output [101], .exit "exited" (some 0), .close, .advanceLost 0, .advance,
      .advance, .advance, .advance, .advance]).map (fun s => (s.told, s.received)) =
        some (true, [98, 121, 101]) := by
    decide +kernel
  obtain ⟨s, hs, hboth⟩ := Option.map_eq_some_iff.mp hrun
  obtain ⟨htold, hreceived⟩ := Prod.mk.inj hboth
  obtain ⟨-, -, hall⟩ := polls_complete hs (by decide +kernel)
  exact ⟨s, hs, htold, hreceived, (hall (.inl htold)).1⟩

/-- **The last bytes are lost with one answer**: the shell writes `bye` and exits; the poll that has
    drained it finishes the session, its answer is lost, and the repeated poll is told that the shell
    has ended, with no bytes. -/
theorem last_bytes_lost :
    ∃ s, Runs.run step (.new 64) [.output [98, 121, 101], .exit "exited" (some 0), .close, .poll,
        .advance, .advance, .advance, .advance, .advance, .advance, .advance, .lose, .poll, .advance,
        .advance] = some s ∧
      s.told = true ∧ s.received = [] ∧ s.stream = [98, 121, 101] := by
  have hrun : (Runs.run step (.new 64) [.output [98, 121, 101], .exit "exited" (some 0), .close, .poll,
      .advance, .advance, .advance, .advance, .advance, .advance, .advance, .lose, .poll, .advance,
      .advance]).map (fun s => (s.told, s.received, s.stream)) =
        some (true, [], [98, 121, 101]) := by
    decide +kernel
  obtain ⟨s, hs, heq⟩ := Option.map_eq_some_iff.mp hrun
  obtain ⟨htold, hboth⟩ := Prod.mk.inj heq
  obtain ⟨hreceived, hstream⟩ := Prod.mk.inj hboth
  exact ⟨s, hs, htold, hreceived, hstream⟩

end Dbs.Shell.Polling

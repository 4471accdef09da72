/-
  File:      Dbs/Shell/Buffer.lean
  Subject:   WHAT A SHELL WRITES, AND WHAT IS TYPED (shell/buffer.py, and `ShellSession.write` in
             sessions.py): a buffer that is read from a cursor and forgets what was acknowledged.

  Any number of readers, each with any cursor; `append` waits until there is room, and a read until
  there is something to return, the buffer is closed or its time is over. Keystrokes come with numbers;
  `channel.sendall` sends them, or raises when it has sent a part.

  * `OutputBuffer` -- `append`, and the two halves of `read`, before and after it waits;
  * `OutputBuffer.Holds` -- the buffer has the stream from the last acknowledged byte on;
  * `Answer.Right` -- a read returns the stream from its cursor on, or from the end that the
    stream had when it began, if the cursor was ahead of that;
  * `Follows` -- a reader takes the cursor it last received, and no other reads past it;
  * `stream_seen` -- it sees the stream once and in order; the buffer holds no more than its capacity or
    the last chunk; every number reaches the shell once at most, and the numbers increase;
  * `ahead_of_the_stream` -- a cursor ahead of the stream is taken for its end, and what one reader has
    acknowledged another one does not see.
-/
import Dbs.Lib.Octets
import Dbs.Lib.Runs

namespace Dbs.Shell

open Octets

/-! ## 1. The buffer -/

def readMax : Nat := 256 * 1024

structure OutputBuffer where
  capacity : Nat
  data : Bytes
  start : Nat
  acknowledged : Nat
  closed : Bool

namespace OutputBuffer

def new (capacity : Nat) : OutputBuffer := ⟨capacity, [], 0, 0, false⟩

variable (b : OutputBuffer)

/-- `end`. -/
def endOffset : Nat := b.start + b.data.length

/-- `append` waits. -/
def Full (chunk : Bytes) : Prop :=
  b.closed = false ∧ b.acknowledged < b.endOffset ∧
    b.capacity < b.endOffset - b.acknowledged + chunk.length

instance (chunk : Bytes) : Decidable (b.Full chunk) := inferInstanceAs (Decidable (_ ∧ _ ∧ _))

/-- Where `append` does not wait. -/
def append (chunk : Bytes) : Bool × OutputBuffer :=
  if b.closed then (false, b) else (true, { b with data := b.data ++ chunk })

/-- `_trim`. -/
def trim : OutputBuffer :=
  if 0 < b.acknowledged - b.start then
    { b with data := b.data.drop (b.acknowledged - b.start), start := b.acknowledged }
  else b

/-- `read`, before it waits; the cursor is not behind `end` any more. -/
def acknowledge (cursor : Nat) : OutputBuffer :=
  if b.acknowledged < cursor then { b with acknowledged := cursor }.trim else b

/-- `read`, when it has waited: the bytes, the cursor behind them, and whether some were skipped. -/
def following (cursor : Nat) : Bytes × Nat × Bool :=
  let begin := max cursor b.start
  let chunk := slice b.data (begin - b.start) readMax
  (chunk, begin + chunk.length, cursor < b.start)

def drained (cursor : Nat) : Bool := b.closed && b.endOffset ≤ cursor

def close : OutputBuffer := { b with closed := true }

/-- The buffer has the stream from the last acknowledged byte on. -/
structure Holds (b : OutputBuffer) (stream : Bytes) : Prop where
  start : b.start = b.acknowledged
  within : b.acknowledged ≤ stream.length
  data : b.data = stream.drop b.acknowledged

section Holds

variable {b} {stream : Bytes} {cursor : Nat}

section

variable (h : b.Holds stream)

include h

theorem Holds.endOffset_eq : b.endOffset = stream.length := by
  rw [endOffset, h.data, h.start, List.length_drop]
  have hwithin := h.within
  omega

theorem Holds.append {chunk : Bytes} :
    Holds { b with data := b.data ++ chunk } (stream ++ chunk) where
  start := h.start
  within := h.within.trans (by rw [List.length_append]; omega)
  data := by rw [h.data, List.drop_append_of_le_length h.within]

theorem Holds.close : b.close.Holds stream := { h with }

theorem Holds.acknowledge_eq :
    b.acknowledge cursor =
      { b with data := stream.drop (max b.acknowledged cursor), start := max b.acknowledged cursor,
               acknowledged := max b.acknowledged cursor } := by
  by_cases hlater : b.acknowledged < cursor
  · have hdropped : 0 < cursor - b.start := by rw [h.start]; omega
    rw [acknowledge, if_pos hlater, trim, if_pos hdropped, h.data, h.start,
      List.drop_drop, Nat.max_eq_right hlater.le, Nat.add_sub_cancel' hlater.le]
  · rw [acknowledge, if_neg hlater, Nat.max_eq_left (Nat.le_of_not_lt hlater), ← h.data,
      ← h.start]
    obtain ⟨capacity, data, start, acknowledged, closed⟩ := b
    obtain rfl : start = acknowledged := h.start
    rfl

theorem Holds.acknowledge (hc : cursor ≤ stream.length) : (b.acknowledge cursor).Holds stream := by
  rw [h.acknowledge_eq]
  exact ⟨rfl, Nat.max_le.mpr ⟨h.within, hc⟩, rfl⟩

theorem Holds.acknowledged_eq :
    (b.acknowledge cursor).acknowledged = max b.acknowledged cursor := by
  rw [h.acknowledge_eq]

/-- **What a read returns is the stream**, from the cursor on or from the last acknowledged byte. -/
theorem Holds.following_eq (cursor : Nat) :
    b.following cursor =
      (slice stream (max cursor b.acknowledged) readMax,
        max cursor b.acknowledged + (slice stream (max cursor b.acknowledged) readMax).length,
        decide (cursor < b.acknowledged)) := by
  have hchunk : slice b.data (max cursor b.start - b.start) readMax =
      slice stream (max cursor b.acknowledged) readMax := by
    rw [h.data, slice_drop, h.start, Nat.add_sub_cancel' (Nat.le_max_right ..)]
  rw [following, hchunk, h.start]

end

theorem acknowledge_capacity : (b.acknowledge cursor).capacity = b.capacity := by
  rw [acknowledge]
  split
  · rw [trim]
    split <;> rfl
  · rfl

theorem acknowledge_closed (b : OutputBuffer) (cursor : Nat) :
    (b.acknowledge cursor).closed = b.closed := by
  rw [acknowledge]
  split
  · rw [trim]
    split <;> rfl
  · rfl

/-- What is held never grows by an acknowledgement. -/
theorem acknowledge_data_le (h : b.Holds stream) :
    (b.acknowledge cursor).data.length ≤ b.data.length := by
  rw [h.acknowledge_eq, h.data, List.length_drop, List.length_drop]
  omega

end Holds

end OutputBuffer

/-! ## 2. A session with its readers -/

/-- A read that waits. `began`: the end of the stream when it was called; `cursor`: what it made of the
    cursor asked for. -/
structure Reading where
  asked : Nat
  began : Nat

def Reading.cursor (r : Reading) : Nat := min r.asked r.began

theorem Reading.cursor_mk {asked began : Nat} : Reading.cursor ⟨asked, began⟩ = min asked began := rfl

/-- What a read returned, and at which stream and which acknowledgement. -/
structure Answer (ι : Type) where
  reader : ι
  reading : Reading
  stream : Bytes
  acknowledged : Nat
  chunk : Bytes
  following : Nat
  skipped : Bool

/-- What `channel.sendall` does: it sends everything, or one of the `CONNECTION_ERRORS` after a part. -/
inductive Sending
  | whole
  | lost (sent : Nat)

/-- `stream`: what `append` took; `answers`: the newest first; `reached`: what the shell was sent. -/
structure ShellSession (ι : Type) where
  buffer : OutputBuffer
  stream : Bytes
  lastChunk : Nat
  readings : ι → Option Reading
  answers : List (Answer ι)
  closed : Bool
  lastSeq : Int
  bytesIn : Nat
  reached : List (Int × Bytes)

inductive Action (ι : Type)
  /-- `buffer.append` by the thread that reads the channel; it is through with waiting. -/
  | append (chunk : Bytes)
  /-- `read`, up to where it waits. -/
  | ask (reader : ι) (cursor : Nat)
  /-- The read returns. -/
  | answer (reader : ι)
  | write (seq : Int) (data : Bytes) (sending : Sending)
  /-- `end`, for whatever reason. -/
  | terminate

variable {ι : Type} [DecidableEq ι]

namespace ShellSession

def new (capacity : Nat) : ShellSession ι :=
  ⟨.new capacity, [], 0, fun _ => none, [], false, -1, 0, []⟩

variable (s : ShellSession ι)

/-- `end`. -/
def terminated : ShellSession ι :=
  if s.closed then s else { s with closed := true, buffer := s.buffer.close }

/-- Nothing where it raises `TerminalClosed`. -/
def write (seq : Int) (data : Bytes) (sending : Sending) : Option Bool × ShellSession ι :=
  if s.closed then (none, s)
  else if seq ≤ s.lastSeq then (some false, s)
  else match sending with
    | .whole =>
      (some true, { s with lastSeq := seq, bytesIn := s.bytesIn + data.length,
                           reached := s.reached ++ [(seq, data)] })
    | .lost sent => (none, { s with reached := s.reached ++ [(seq, data.take sent)] }.terminated)

def appended (chunk : Bytes) : ShellSession ι :=
  if s.buffer.closed then s
  else { s with buffer := (s.buffer.append chunk).2, stream := s.stream ++ chunk,
                lastChunk := chunk.length }

def asked (reader : ι) (cursor : Nat) : ShellSession ι :=
  let reading : Reading := ⟨cursor, s.buffer.endOffset⟩
  { s with buffer := s.buffer.acknowledge reading.cursor,
           readings := Function.update s.readings reader (some reading) }

def answerOf (reader : ι) (reading : Reading) : Answer ι :=
  let found := s.buffer.following reading.cursor
  ⟨reader, reading, s.stream, s.buffer.acknowledged, found.1, found.2.1, found.2.2⟩

def answered (reader : ι) (reading : Reading) : ShellSession ι :=
  { s with readings := Function.update s.readings reader none,
           answers := s.answerOf reader reading :: s.answers }

@[simp] theorem readings_asked {reader : ι} {cursor : Nat} :
    (s.asked reader cursor).readings =
      Function.update s.readings reader (some ⟨cursor, s.buffer.endOffset⟩) := rfl

@[simp] theorem readings_answered {reader : ι} {reading : Reading} :
    (s.answered reader reading).readings = Function.update s.readings reader none := rfl

/-- The cursor that a reader last received. -/
def cursor (reader : ι) : Nat :=
  ((s.answers.find? (·.reader = reader)).map (·.following)).getD 0

/-- What a reader received, put together. -/
def received (reader : ι) : Bytes :=
  ((s.answers.filter (·.reader = reader)).reverse.map (·.chunk)).flatten

end ShellSession

def step (s : ShellSession ι) : Action ι → Option (ShellSession ι)
  | .append chunk => if s.buffer.Full chunk then none else some (s.appended chunk)
  | .ask reader cursor => if s.readings reader = none then some (s.asked reader cursor) else none
  | .answer reader => (s.readings reader).map (s.answered reader)
  | .write seq data sending => some (s.write seq data sending).2
  | .terminate => some s.terminated

/-- The reader takes the cursor it last received, and no other reads past it. -/
def Follows (i : ι) (s : ShellSession ι) : Action ι → Prop
  | .ask reader cursor =>
    if reader = i then cursor = s.cursor i else min cursor s.buffer.endOffset ≤ s.cursor i
  | .append _ | .answer _ | .write _ _ _ | .terminate => True

instance (i : ι) (s : ShellSession ι) : ∀ a, Decidable (Follows i s a)
  | .ask reader cursor => inferInstanceAs (Decidable
      (if reader = i then cursor = s.cursor i else min cursor s.buffer.endOffset ≤ s.cursor i))
  | .append _ | .answer _ | .write _ _ _ | .terminate => inferInstanceAs (Decidable True)

/-! ## 3. What a step keeps -/

/-- What a read returned is the stream as it stood then, from its cursor on or from the last
    acknowledged byte. -/
structure Answer.Right (a : Answer ι) : Prop where
  chunk : a.chunk = slice a.stream (max a.reading.cursor a.acknowledged) readMax
  following : a.following = max a.reading.cursor a.acknowledged + a.chunk.length
  skipped : a.skipped = decide (a.reading.cursor < a.acknowledged)

structure Inv (capacity : Nat) (s : ShellSession ι) : Prop where
  holds : s.buffer.Holds s.stream
  room : s.buffer.capacity = capacity
  held : s.buffer.data.length ≤ max capacity s.lastChunk
  began : ∀ r, ∀ x ∈ s.readings r, x.began ≤ s.stream.length
  answers : ∀ a ∈ s.answers, a.Right ∧ a.stream <+: s.stream
  reached : (s.reached.map Prod.fst).Pairwise (· < ·)
  lastSeq : s.closed = true ∨ ∀ p ∈ s.reached, p.1 ≤ s.lastSeq

section Steps

variable {s s' : ShellSession ι} {capacity : Nat} {a : Action ι} {as : List (Action ι)}

omit [DecidableEq ι] in
theorem Inv.new : Inv capacity (.new capacity : ShellSession ι) where
  holds := ⟨rfl, Nat.le_refl _, rfl⟩
  room := rfl
  held := Nat.zero_le _
  began := nofun
  answers := nofun
  reached := List.Pairwise.nil
  lastSeq := Or.inr nofun

omit [DecidableEq ι] in
/-- A chunk goes in where there is room, or where nothing is left to acknowledge. -/
theorem Inv.append {chunk : Bytes} (hi : Inv capacity s) (hroom : ¬s.buffer.Full chunk) :
    Inv capacity (s.appended chunk) := by
  rw [ShellSession.appended]
  split
  · exact hi
  · next hopen =>
    have hclosed : s.buffer.closed = false := Bool.eq_false_of_not_eq_true hopen
    have happend : s.buffer.append chunk = (true, { s.buffer with data := s.buffer.data ++ chunk }) :=
      if_neg hopen
    have hlength : s.buffer.endOffset - s.buffer.acknowledged = s.buffer.data.length := by
      rw [OutputBuffer.endOffset, hi.holds.start]
      omega
    rw [happend]
    refine ⟨hi.holds.append, hi.room, ?_, fun r x hx => ?_, fun a ha => ?_, hi.reached, hi.lastSeq⟩
    · show (s.buffer.data ++ chunk).length ≤ max capacity chunk.length
      rw [List.length_append, ← hlength, ← hi.room]
      have hfits : s.buffer.endOffset ≤ s.buffer.acknowledged ∨
          s.buffer.endOffset - s.buffer.acknowledged + chunk.length ≤ s.buffer.capacity := by
        by_contra hnot
        exact hroom ⟨hclosed, by omega, by omega⟩
      omega
    · refine (hi.began r x hx).trans ?_
      rw [List.length_append]
      omega
    · obtain ⟨hright, hwithin⟩ := hi.answers a ha
      exact ⟨hright, hwithin.trans (List.prefix_append _ _)⟩

theorem Inv.ask {reader : ι} {cursor : Nat} (hi : Inv capacity s) :
    Inv capacity (s.asked reader cursor) where
  holds := hi.holds.acknowledge ((Nat.min_le_right _ _).trans hi.holds.endOffset_eq.le)
  room := OutputBuffer.acknowledge_capacity.trans hi.room
  held := (OutputBuffer.acknowledge_data_le hi.holds).trans hi.held
  began r x hx := by
    by_cases hr : r = reader
    · rw [hr, ShellSession.readings_asked, Function.update_self] at hx
      cases hx
      exact hi.holds.endOffset_eq.le
    · rw [ShellSession.readings_asked, Function.update_of_ne hr] at hx
      exact hi.began r x hx
  answers := hi.answers
  reached := hi.reached
  lastSeq := hi.lastSeq

omit [DecidableEq ι] in
theorem answerOf_right (reader : ι) (x : Reading) (hi : Inv capacity s) :
    (s.answerOf reader x).Right := by
  have heq := hi.holds.following_eq x.cursor
  refine ⟨congrArg Prod.fst heq, ?_, congrArg (fun p => p.2.2) heq⟩
  show (s.buffer.following x.cursor).2.1 = _ + (s.buffer.following x.cursor).1.length
  rw [heq]
  rfl

theorem Inv.answer {reader : ι} {x : Reading} (hi : Inv capacity s) :
    Inv capacity (s.answered reader x) where
  __ := hi
  began r y hy := by
    by_cases hr : r = reader
    · rw [hr, ShellSession.readings_answered, Function.update_self] at hy
      cases hy
    · rw [ShellSession.readings_answered, Function.update_of_ne hr] at hy
      exact hi.began r y hy
  answers a ha := by
    rcases List.mem_cons.mp ha with rfl | ha
    · exact ⟨answerOf_right _ _ hi, List.prefix_refl _⟩
    · exact hi.answers a ha

omit [DecidableEq ι] in
theorem Inv.terminate (hi : Inv capacity s) : Inv capacity s.terminated := by
  rw [ShellSession.terminated]
  split
  · exact hi
  · exact ⟨hi.holds.close, hi.room, hi.held, hi.began, hi.answers, hi.reached, Or.inl rfl⟩

omit [DecidableEq ι] in
/-- A number that is sent is larger than all that were. -/
theorem Inv.reach {seq : Int} (hi : Inv capacity s) (hopen : ¬s.closed = true)
    (hlater : ¬seq ≤ s.lastSeq) (data : Bytes) :
    ((s.reached ++ [(seq, data)]).map Prod.fst).Pairwise (· < ·) := by
  rw [List.map_append, List.pairwise_append]
  refine ⟨hi.reached, List.pairwise_singleton _ _, fun n hn m hm => ?_⟩
  obtain ⟨p, hp, rfl⟩ := List.mem_map.mp hn
  obtain rfl := List.mem_singleton.mp hm
  exact (hi.lastSeq.resolve_left hopen p hp).trans_lt (not_le.mp hlater)

omit [DecidableEq ι] in
theorem Inv.write {seq : Int} {data : Bytes} {sending : Sending} (hi : Inv capacity s) :
    Inv capacity (s.write seq data sending).2 := by
  unfold ShellSession.write
  split
  · exact hi
  · next hopen =>
    split
    · exact hi
    · next hlater =>
      cases sending with
      | whole =>
        refine ⟨hi.holds, hi.room, hi.held, hi.began, hi.answers,
          hi.reach hopen hlater data, Or.inr fun p hp => ?_⟩
        rcases List.mem_append.mp hp with hp | hp
        · exact (hi.lastSeq.resolve_left hopen p hp).trans (not_le.mp hlater).le
        · rw [List.mem_singleton.mp hp]
      | lost sent =>
        show Inv capacity (ShellSession.terminated _)
        rw [ShellSession.terminated]
        split
        · next hclosed => exact absurd hclosed hopen
        · exact ⟨hi.holds.close, hi.room, hi.held, hi.began, hi.answers,
            hi.reach hopen hlater _, Or.inl rfl⟩

theorem Inv.step (hi : Inv capacity s) (h : step s a = some s') : Inv capacity s' := by
  cases a with
  | append chunk =>
    obtain ⟨hroom, ⟨⟩⟩ := Option.ite_none_left_eq_some.mp h
    exact hi.append hroom
  | ask reader cursor =>
    obtain ⟨-, ⟨⟩⟩ := Option.ite_none_right_eq_some.mp h
    exact hi.ask
  | answer reader =>
    obtain ⟨x, -, rfl⟩ := Option.map_eq_some_iff.mp h
    exact hi.answer
  | write seq data sending =>
    cases h
    exact hi.write
  | terminate =>
    cases h
    exact hi.terminate

end Steps

/-! ## 4. A reader that follows -/

section Follow

variable {s s' : ShellSession ι} {i reader : ι} {capacity : Nat} {a : Action ι}
  {as : List (Action ι)} {x : Reading}

theorem cursor_answered :
    (s.answered reader x).cursor i =
      if reader = i then (s.answerOf reader x).following else s.cursor i := by
  rw [ShellSession.cursor, ShellSession.answered, List.find?_cons]
  have hreader : (s.answerOf reader x).reader = reader := rfl
  rw [hreader]
  by_cases h : reader = i
  · rw [if_pos h, decide_eq_true h]
    rfl
  · rw [if_neg h, decide_eq_false h]
    rfl

theorem received_answered :
    (s.answered reader x).received i =
      s.received i ++ if reader = i then (s.answerOf reader x).chunk else [] := by
  rw [ShellSession.received, ShellSession.answered, List.filter_cons]
  have hreader : (s.answerOf reader x).reader = reader := rfl
  rw [hreader]
  by_cases h : reader = i
  · rw [if_pos h, if_pos (decide_eq_true h), List.reverse_cons, List.map_append, List.flatten_append]
    exact congrArg (s.received i ++ ·) (List.append_nil _)
  · rw [if_neg h, decide_eq_false h, List.append_nil]
    rfl

/-- What holds for a reader that follows. -/
structure Seen (i : ι) (s : ShellSession ι) : Prop where
  acknowledged : s.buffer.acknowledged ≤ s.cursor i
  within : s.cursor i ≤ s.stream.length
  received : s.received i = s.stream.take (s.cursor i)
  reading : ∀ x ∈ s.readings i, x.cursor = s.cursor i

omit [DecidableEq ι] in
/-- Where neither the reader's answers nor the acknowledgements change, and the stream may go on. -/
theorem Seen.grow [DecidableEq ι] {t : ShellSession ι} (hs : Seen i s)
    (hanswers : t.answers = s.answers)
    (hreadings : t.readings i = s.readings i) (hwithin : s.stream <+: t.stream)
    (hack : t.buffer.acknowledged ≤ s.cursor i) : Seen i t := by
  have hcursor : t.cursor i = s.cursor i := by rw [ShellSession.cursor, hanswers, ShellSession.cursor]
  have hreceived : t.received i = s.received i := by
    rw [ShellSession.received, hanswers, ShellSession.received]
  refine ⟨by rw [hcursor]; exact hack, ?_, ?_, ?_⟩
  · rw [hcursor]
    exact hs.within.trans hwithin.length_le
  · rw [hcursor, hreceived, hs.received]
    obtain ⟨more, hmore⟩ := hwithin
    rw [← hmore, List.take_append_of_le_length hs.within]
  · rw [hreadings, hcursor]
    exact hs.reading

theorem Seen.ask {cursor : Nat} (hs : Seen i s) (hi : Inv capacity s)
    (hf : Follows i s (.ask reader cursor)) : Seen i (s.asked reader cursor) := by
  have hend := hi.holds.endOffset_eq
  have hwithin := hs.within
  have hack := hs.acknowledged
  by_cases hr : reader = i
  · have hcursor : cursor = s.cursor i := (if_pos hr).mp hf
    have hclipped : Reading.cursor ⟨cursor, s.buffer.endOffset⟩ = s.cursor i := by
      rw [Reading.cursor_mk, hend, hcursor]
      omega
    refine ⟨?_, hs.within, hs.received, fun x hx => ?_⟩
    · show (s.buffer.acknowledge _).acknowledged ≤ s.cursor i
      rw [hi.holds.acknowledged_eq, hclipped]
      omega
    · rw [ShellSession.readings_asked, hr, Function.update_self] at hx
      cases hx
      exact hclipped
  · have hother : min cursor s.buffer.endOffset ≤ s.cursor i := (if_neg hr).mp hf
    refine hs.grow rfl (Function.update_of_ne (Ne.symm hr) ..) (List.prefix_refl _) ?_
    show (s.buffer.acknowledge (Reading.cursor ⟨cursor, s.buffer.endOffset⟩)).acknowledged ≤ _
    rw [hi.holds.acknowledged_eq, Reading.cursor_mk]
    omega

theorem Seen.answer (hs : Seen i s) (hi : Inv capacity s) (hx : s.readings reader = some x) :
    Seen i (s.answered reader x) := by
  by_cases hr : reader = i
  · have hcursor : x.cursor = s.cursor i := hs.reading x (by rw [← hr]; exact hx)
    have hright := answerOf_right reader x hi
    have hfrom : max x.cursor s.buffer.acknowledged = s.cursor i := by
      rw [hcursor, Nat.max_eq_left hs.acknowledged]
    have hchunk : (s.answerOf reader x).chunk = slice s.stream (s.cursor i) readMax := by
      rw [hright.chunk]
      exact congrArg (slice s.stream · readMax) hfrom
    have hfollowing : (s.answerOf reader x).following =
        s.cursor i + (slice s.stream (s.cursor i) readMax).length := by
      rw [hright.following, hchunk]
      exact congrArg (· + _) hfrom
    have hlength := slice_length s.stream (s.cursor i) readMax
    have hwithin := hs.within
    refine ⟨?_, ?_, ?_, fun y hy => ?_⟩
    · rw [cursor_answered, if_pos hr, hfollowing]
      exact hs.acknowledged.trans (Nat.le_add_right _ _)
    · rw [cursor_answered, if_pos hr, hfollowing]
      show _ ≤ s.stream.length
      omega
    · rw [cursor_answered, received_answered, if_pos hr, if_pos hr, hfollowing, hchunk, hs.received]
      show _ = s.stream.take _
      rw [List.take_add, slice, List.length_take, ← List.take_eq_take_min]
    · rw [ShellSession.readings_answered, hr, Function.update_self] at hy
      cases hy
  · refine ⟨?_, ?_, ?_, fun y hy => ?_⟩
    · rw [cursor_answered, if_neg hr]
      exact hs.acknowledged
    · rw [cursor_answered, if_neg hr]
      exact hs.within
    · rw [cursor_answered, received_answered, if_neg hr, if_neg hr, List.append_nil]
      exact hs.received
    · rw [ShellSession.readings_answered, Function.update_of_ne (Ne.symm hr)] at hy
      rw [cursor_answered, if_neg hr]
      exact hs.reading y hy

theorem Seen.step (hs : Seen i s) (hi : Inv capacity s) (h : step s a = some s')
    (hf : Follows i s a) : Seen i s' := by
  cases a with
  | append chunk =>
    obtain ⟨-, ⟨⟩⟩ := Option.ite_none_left_eq_some.mp h
    rw [ShellSession.appended]
    split
    · exact hs
    · next hopen =>
      refine hs.grow rfl rfl (List.prefix_append _ _) ?_
      rw [OutputBuffer.append, if_neg hopen]
      exact hs.acknowledged
  | ask reader cursor =>
    obtain ⟨-, ⟨⟩⟩ := Option.ite_none_right_eq_some.mp h
    exact hs.ask hi hf
  | answer reader =>
    obtain ⟨x, hx, rfl⟩ := Option.map_eq_some_iff.mp h
    exact hs.answer hi hx
  | write seq data sending =>
    cases h
    unfold ShellSession.write
    split
    · exact hs
    · next hopen =>
      split
      · exact hs
      · cases sending with
        | whole => exact hs.grow rfl rfl (List.prefix_refl _) hs.acknowledged
        | lost sent =>
          show Seen i (ShellSession.terminated _)
          rw [ShellSession.terminated]
          split <;> exact hs.grow rfl rfl (List.prefix_refl _) hs.acknowledged
  | terminate =>
    cases h
    rw [ShellSession.terminated]
    split
    · exact hs
    · exact hs.grow rfl rfl (List.prefix_refl _) hs.acknowledged

/-! ## 5. Runs -/

/-- **A read returns the stream from its cursor on**, where that was not acknowledged away and not ahead
    of the stream (a cursor ahead is taken for the end of the stream as it stood then); a reader that
    takes the cursor it last received, and whom no other reads past, has seen the stream up to there,
    once and in order; the buffer holds no more than its capacity or the last chunk; and what is typed
    reaches the shell in the order of its numbers, each at most once. -/
theorem stream_seen (h : Runs.run step (.new capacity) as = some s) :
    (∀ a ∈ s.answers, a.stream <+: s.stream ∧
      (a.reading.asked ≤ a.reading.began → a.acknowledged ≤ a.reading.asked →
        a.chunk = slice a.stream a.reading.asked readMax ∧
          a.following = a.reading.asked + a.chunk.length ∧ a.skipped = false) ∧
      (a.reading.began < a.reading.asked → a.acknowledged ≤ a.reading.began →
        a.chunk = slice a.stream a.reading.began readMax ∧
          a.following = a.reading.began + a.chunk.length ∧ a.skipped = false)) ∧
    (∀ i, Runs.Along step (Follows i) (.new capacity) as →
      s.received i = s.stream.take (s.cursor i) ∧ s.cursor i ≤ s.stream.length) ∧
    s.buffer.data.length ≤ max capacity s.lastChunk ∧
    (s.reached.map Prod.fst).Pairwise (· < ·) := by
  have hinv : Inv capacity s :=
    Runs.run_invariant (fun _ _ _ hstep hi => Inv.step hi hstep) h Inv.new
  have hright : ∀ a ∈ s.answers, ∀ from_, a.reading.cursor = from_ → a.acknowledged ≤ from_ →
      a.chunk = slice a.stream from_ readMax ∧ a.following = from_ + a.chunk.length ∧
        a.skipped = false := by
    intro a ha from_ hfrom hack
    obtain ⟨hr, -⟩ := hinv.answers a ha
    have hmax : max a.reading.cursor a.acknowledged = from_ := by
      rw [hfrom, Nat.max_eq_left hack]
    refine ⟨by rw [hr.chunk, hmax], by rw [hr.following, hmax], ?_⟩
    rw [hr.skipped, hfrom, decide_eq_false (Nat.not_lt.mpr hack)]
  refine ⟨fun a ha => ⟨(hinv.answers a ha).2, fun hasked => ?_, fun hbegan => ?_⟩, ?_, hinv.held,
    hinv.reached⟩
  · exact hright a ha _ (Nat.min_eq_left hasked)
  · exact hright a ha _ (Nat.min_eq_right hbegan.le)
  · intro i hfollows
    have hstart : Seen i (.new capacity) := ⟨Nat.le_refl _, Nat.zero_le _, rfl, nofun⟩
    obtain ⟨-, hseen⟩ := Runs.run_invariant_along (I := fun t => Inv capacity t ∧ Seen i t)
      (fun _ _ _ hstep hf hi => ⟨hi.1.step hstep, hi.2.step hi.1 hstep hf⟩) h hfollows
      ⟨Inv.new, hstart⟩
    exact ⟨hseen.received, hseen.within⟩

end Follow

/-- Two chunks read in two turns, and keystrokes that come again and too late. -/
theorem stream_seen_twoChunks :
    ∃ s, Runs.run step (.new 8) [.append [1, 2], .ask 1 0, .answer 1, .ask 1 2, .append [3],
        .answer 1, .write 0 [108] .whole, .write 2 [115] .whole, .write 1 [10] .whole,
        .write 2 [115] .whole] = some s ∧
      s.received 1 = [1, 2, 3] ∧ s.reached = [(0, [108]), (2, [115])] ∧
      s.received 1 = s.stream.take (s.cursor 1) ∧ (s.reached.map Prod.fst).Pairwise (· < ·) := by
  have hrun : (Runs.run step (.new 8) [.append [1, 2], .ask 1 0, .answer 1, .ask 1 2, .append [3],
      .answer 1, .write 0 [108] .whole, .write 2 [115] .whole, .write 1 [10] .whole,
      .write 2 [115] .whole]).map (fun s => (s.received 1, s.reached)) =
        some ([1, 2, 3], [(0, [108]), (2, [115])]) := by
    decide +kernel
  obtain ⟨s, hs, hboth⟩ := Option.map_eq_some_iff.mp hrun
  obtain ⟨hreceived, hreached⟩ := Prod.mk.inj hboth
  obtain ⟨-, hseen, -, hnumbers⟩ := stream_seen hs
  exact ⟨s, hs, hreceived, hreached, (hseen 1 (by decide +kernel)).1, hnumbers⟩

/-- **A cursor ahead of the stream is taken for its end**: a read from 10 on, of a stream of three
    bytes that grows to twelve while the read waits, returns all nine new bytes. And when reader 2 has
    read from 2 on, reader 1, who begins at the start, does not see the first two bytes. -/
theorem ahead_of_the_stream :
    (∃ s, Runs.run step (.new 1024)
    [.append [1, 2, 3], .ask 1 10, .append [4, 5, 6, 7, 8, 9, 10, 11, 12],
        .answer 1] = some s ∧
      ∃ a ∈ s.answers, a.acknowledged ≤ a.reading.asked ∧
        slice a.stream a.reading.asked readMax = [11, 12] ∧
        a.chunk = [4, 5, 6, 7, 8, 9, 10, 11, 12]) ∧
    (∃ s, Runs.run step (.new 1024) [.append [1, 2, 3], .ask 2 2, .ask 1 0, .answer 1] = some s ∧
      s.cursor 1 = 3 ∧ s.received 1 = [3] ∧ s.received 1 ≠ s.stream.take (s.cursor 1)) := by
  have hahead : (Runs.run step (.new 1024) [.append [1, 2, 3], .ask 1 10,
      .append [4, 5, 6, 7, 8, 9, 10, 11, 12], .answer 1]).map
      (fun s => s.answers.map fun a =>
        (decide (a.acknowledged ≤ a.reading.asked), slice a.stream a.reading.asked readMax, a.chunk)) =
        some [(true, [11, 12], [4, 5, 6, 7, 8, 9, 10, 11, 12])] := by
    decide +kernel
  have hpast : (Runs.run step (.new 1024) [.append [1, 2, 3], .ask 2 2, .ask 1 0, .answer 1]).map
      (fun s => (s.cursor 1, s.received 1, s.stream)) = some (3, [3], [1, 2, 3]) := by
    decide +kernel
  constructor
  · obtain ⟨s, hs, hanswers⟩ := Option.map_eq_some_iff.mp hahead
    have hmem : (true, ([11, 12] : Bytes), ([4, 5, 6, 7, 8, 9, 10, 11, 12] : Bytes)) ∈
        s.answers.map fun a =>
          (decide (a.acknowledged ≤ a.reading.asked), slice a.stream a.reading.asked readMax,
            a.chunk) := by
      rw [hanswers]
      exact List.mem_singleton_self _
    obtain ⟨a, ha, heq⟩ := List.mem_map.mp hmem
    obtain ⟨hack, hboth⟩ := Prod.mk.inj heq
    obtain ⟨hslice, hchunk⟩ := Prod.mk.inj hboth
    exact ⟨s, hs, a, ha, of_decide_eq_true hack, hslice, hchunk⟩
  · obtain ⟨s, hs, heq⟩ := Option.map_eq_some_iff.mp hpast
    obtain ⟨hcursor, hboth⟩ := Prod.mk.inj heq
    obtain ⟨hreceived, hstream⟩ := Prod.mk.inj hboth
    refine ⟨s, hs, hcursor, hreceived, ?_⟩
    rw [hreceived, hstream, hcursor]
    decide

end Dbs.Shell

/-
  File:      Dbs/Encoding.lean
  Subject:   A PAYLOAD ON ITS WAY INTO A CONTAINER AND OUT OF IT (engine/pipeline.py, encoding and
             decoding): cut into segments, each a compressed member of its own; the members inflated
             from chunks cut anywhere.

  What the channels between the threads carry arrives whole and in order (Pipeline); here are the
  functions at their ends.

  * `segmentsOf` -- `_compress`; `Pool`, `Encoded` -- segments deflated by any number of workers;
  * `Inflater` -- `feed`, `drain`, `finish`; `decode` -- `_decode`;
  * `Position` -- where an inflater is in the members; `exec_feed` -- one chunk;
  * `decode_encoded` -- the frames come back; `decode_cut` -- a member cut short is noticed;
  * `encoding_decoding` -- with the container between.
-/
import Dbs.Container.RoundTrip
import Dbs.Lib.Runs
import Dbs.Lib.Zlib

namespace Dbs.Encoding

open Octets Effects Zlib

/-- `PAYLOAD_COMPRESSED`. -/
def payloadCompressed : Nat := 1

/-- `PIECE_BYTES`. -/
def pieceBytes : Nat := 1024 * 1024

/-! ## 1. Segments -/

/-- The inner loop of `_compress`: one item, behind what is pending; the segments that are full, and
    what is pending then. Every turn takes a byte. -/
def cut (segmentBytes : Nat) : (fuel : Nat) → (pending view : Bytes) → List Bytes × Bytes
  | 0, pending, _ => ([], pending)
  | fuel + 1, pending, view =>
    if view = [] then ([], pending)
    else
      let taken := view.take (segmentBytes - pending.length)
      let rest := view.drop (segmentBytes - pending.length)
      if (pending ++ taken).length ≥ segmentBytes then
        let (segments, pending') := cut segmentBytes fuel [] rest
        ((pending ++ taken) :: segments, pending')
      else cut segmentBytes fuel (pending ++ taken) rest

def segmentsFrom (segmentBytes : Nat) : (pending : Bytes) → (frames : List Bytes) → List Bytes
  | pending, [] => if pending = [] then [] else [pending]
  | pending, item :: frames =>
    let (segments, pending') := cut segmentBytes item.length pending item
    segments ++ segmentsFrom segmentBytes pending' frames

/-- The segments `_compress` submits. -/
def segmentsOf (segmentBytes : Nat) (frames : List Bytes) : List Bytes :=
  segmentsFrom segmentBytes [] frames

theorem cut_flatten {segmentBytes fuel : Nat} (pending view : Bytes)
    (hpending : pending.length < segmentBytes)
    (hfuel : view.length ≤ fuel) :
    (cut segmentBytes fuel pending view).1.flatten ++ (cut segmentBytes fuel pending view).2 =
        pending ++ view ∧
      (cut segmentBytes fuel pending view).2.length < segmentBytes := by
  induction fuel generalizing pending view with
  | zero =>
    rw [List.length_eq_zero_iff.mp (Nat.le_zero.mp hfuel), List.append_nil]
    exact ⟨rfl, hpending⟩
  | succ fuel ih =>
    rw [cut]
    split
    · rename_i hnil
      rw [hnil, List.append_nil]
      exact ⟨rfl, hpending⟩
    rename_i hne
    have hpos : 0 < view.length := List.length_pos_iff.mpr hne
    have hrest : (view.drop (segmentBytes - pending.length)).length ≤ fuel := by
      rw [List.length_drop]
      omega
    have hwhole : pending ++ view.take (segmentBytes - pending.length) ++
        view.drop (segmentBytes - pending.length) = pending ++ view := by
      rw [List.append_assoc, List.take_append_drop]
    simp only
    split
    · obtain ⟨hflat, hlt⟩ := ih [] _ (by rw [List.length_nil]; omega) hrest
      rw [List.flatten_cons, List.append_assoc, hflat, List.nil_append, hwhole]
      exact ⟨rfl, hlt⟩
    · rename_i hshort
      obtain ⟨hflat, hlt⟩ := ih _ _ (Nat.lt_of_not_le hshort) hrest
      rw [hflat, hwhole]
      exact ⟨rfl, hlt⟩

theorem segmentsFrom_flatten {segmentBytes : Nat} (pending : Bytes) (frames : List Bytes)
    (hpending : pending.length < segmentBytes) :
    (segmentsFrom segmentBytes pending frames).flatten = pending ++ frames.flatten := by
  induction frames generalizing pending with
  | nil =>
    rw [segmentsFrom, List.flatten_nil, List.append_nil]
    split
    · rename_i h
      rw [h, List.flatten_nil]
    · exact List.flatten_singleton
  | cons item frames ih =>
    obtain ⟨hflat, hlt⟩ := cut_flatten pending item hpending (Nat.le_refl _)
    rw [segmentsFrom, List.flatten_append, ih _ hlt, ← List.append_assoc, hflat, List.flatten_cons,
      List.append_assoc]

/-- **The segments are the frames**, joined. -/
theorem segmentsOf_flatten {segmentBytes : Nat} (hpos : 0 < segmentBytes) (frames : List Bytes) :
    (segmentsOf segmentBytes frames).flatten = frames.flatten :=
  segmentsFrom_flatten [] frames hpos

/-! ## 2. Workers -/

variable (Z : Library)

/-- A segment handed to the pool. -/
inductive Future
  | pending (segment : Bytes)
  | running (segment : Bytes)
  | finished (data : Bytes)

def Future.isRunning : Future → Bool
  | .running _ => true
  | _ => false

/-- What its `result` will be. -/
def Future.outcome : Future → Bytes
  | .pending segment => Z.deflate segment
  | .running segment => Z.deflate segment
  | .finished data => data

/-- The pool of `_compress`: the segments submitted, and their futures, in the order of the channel. -/
structure Pool where
  submitted : List Bytes := []
  futures : List Future := []

inductive Action
  | submit (segment : Bytes)
  | start (index : Nat)
  | finish (index : Nat)

/-- One step: the compressor submits a segment, a free worker takes one up, or a worker has deflated its
    own. -/
def poolStep (workers : Nat) (p : Pool) : Action → Option Pool
  | .submit segment => some ⟨p.submitted ++ [segment], p.futures ++ [.pending segment]⟩
  | .start index =>
    match p.futures[index]? with
    | some (.pending segment) =>
      if (p.futures.filter Future.isRunning).length < workers then
        some { p with futures := p.futures.set index (.running segment) }
      else none
    | _ => none
  | .finish index =>
    match p.futures[index]? with
    | some (.running segment) =>
      some { p with futures := p.futures.set index (.finished (Z.deflate segment)) }
    | _ => none

/-- Whoever finishes first, every future has the outcome of its segment. -/
def Pool.Sound (p : Pool) : Prop := p.futures.map (·.outcome Z) = p.submitted.map Z.deflate

theorem sound_step {workers : Nat} (p : Pool) (a : Action) (q : Pool)
    (h : poolStep Z workers p a = some q) (hp : p.Sound Z) : q.Sound Z := by
  unfold poolStep at h
  split at h
  · cases h
    unfold Pool.Sound at hp ⊢
    simp only [List.map_append, hp]
    rfl
  · split at h
    · rename_i segment hget
      split at h
      · cases h
        have hsame : ((p.futures.set _ (.running segment)).map (Future.outcome Z)) = _ :=
          Runs.map_set_same hget rfl
        exact hsame.trans hp
      · cases h
    · cases h
  · split at h
    · rename_i segment hget
      cases h
      have hsame : ((p.futures.set _ (.finished (Z.deflate segment))).map (Future.outcome Z)) = _ :=
        Runs.map_set_same hget rfl
      exact hsame.trans hp
    · cases h

/-- What `_encode` hands to the container writer, item by item: the results of the segments' futures, or
    the frames as they are. -/
inductive Encoded (segmentBytes workers : Nat) (frames : List Bytes) : (compress : Bool) →
    (items : List Bytes) → Prop
  | compressed {p : Pool} {items : List Bytes} (reached : Runs.Reachable (poolStep Z workers) {} p)
      (submitted : p.submitted = segmentsOf segmentBytes frames)
      (finished : p.futures = items.map .finished) : Encoded segmentBytes workers frames true items
  | passedThrough : Encoded segmentBytes workers frames false frames

/-- One worker is enough: it takes up each segment as it is submitted. -/
theorem reachable_finished {workers : Nat} (hworkers : 0 < workers) (segments : List Bytes) :
    Runs.Reachable (poolStep Z workers) {}
      ⟨segments, segments.map fun s => .finished (Z.deflate s)⟩ := by
  induction segments using List.reverseRecOn with
  | nil => exact .refl
  | append_singleton segments s ih =>
    rw [List.map_append, List.map_singleton]
    set futures : List Future := segments.map fun s => .finished (Z.deflate s) with hf
    have hrunning : futures.filter Future.isRunning = [] := by
      rw [List.filter_eq_nil_iff, hf]
      intro f hmem
      obtain ⟨s', -, rfl⟩ := List.mem_map.mp hmem
      exact nofun
    have hlast (f : Future) : (futures ++ [f])[futures.length]? = some f := by
      rw [List.getElem?_append_right (Nat.le_refl _), Nat.sub_self]
      rfl
    have hset (f g : Future) : (futures ++ [f]).set futures.length g = futures ++ [g] := by
      rw [List.set_append_right _ _ (Nat.le_refl _), Nat.sub_self]
      rfl
    have hsubmit : poolStep Z workers ⟨segments, futures⟩ (.submit s) =
        some ⟨segments ++ [s], futures ++ [.pending s]⟩ := rfl
    have hstart : poolStep Z workers ⟨segments ++ [s], futures ++ [.pending s]⟩
        (.start futures.length) = some ⟨segments ++ [s], futures ++ [.running s]⟩ := by
      simp only [poolStep, hlast, hset, List.filter_append, hrunning]
      exact if_pos hworkers
    have hfinish : poolStep Z workers ⟨segments ++ [s], futures ++ [.running s]⟩
        (.finish futures.length) = some ⟨segments ++ [s], futures ++ [.finished (Z.deflate s)]⟩ := by
      simp only [poolStep, hlast, hset]
    exact ((ih.next hsubmit).next hstart).next hfinish

theorem exists_encoded {workers : Nat} (hworkers : 0 < workers) (segmentBytes : Nat)
    (frames : List Bytes) :
    Encoded Z segmentBytes workers frames true ((segmentsOf segmentBytes frames).map Z.deflate) :=
  .compressed (reachable_finished Z hworkers _) rfl (by rw [List.map_map]; rfl)

/-- **The items are the segments**, deflated, in their order. -/
theorem Encoded.items_eq {segmentBytes workers : Nat} {frames items : List Bytes}
    (h : Encoded Z segmentBytes workers frames true items) :
    items = (segmentsOf segmentBytes frames).map Z.deflate := by
  cases h with
  | compressed reached submitted finished =>
    have hsound := reached.invariant (I := Pool.Sound Z) (sound_step Z) rfl
    rw [Pool.Sound, submitted, finished, List.map_map] at hsound
    rw [← hsound]
    exact (List.map_id _).symm

/-! ## 3. The inflater -/

inductive Failure
  /-- `zlib.error`. -/
  | zlibError
  | corruptionError (message : String)
  | outOfFuel

/-- `Inflater`, and what was put into its channel. -/
structure Inflater where
  member : Z.Member
  started : Bool
  pieces : List Bytes

abbrev Inflating := Prog Failure (Inflater Z)

/-- A new inflater. -/
def Inflater.new : Inflater Z := ⟨Z.fresh, false, []⟩

def put (piece : Bytes) : Inflating Z Unit := modify fun i => { i with pieces := i.pieces ++ [piece] }

/-- `self._member.decompress(data, PIECE_BYTES)`. -/
def decompress (data : Bytes) : Inflating Z Bytes := do
  let i ← get
  match Z.decompress i.member data pieceBytes with
  | none => throw .zlibError
  | some (out, member) =>
    set { i with member }
    return out

def drain : (fuel : Nat) → Inflating Z Unit
  | 0 => throw .outOfFuel
  | fuel + 1 => do
    let out ← decompress Z []
    if out = [] then return
    put Z out
    drain fuel

def feed : (fuel : Nat) → (data : Bytes) → Inflating Z Unit
  | 0, _ => throw .outOfFuel
  | fuel + 1, data => do
    if data = [] then return
    modify fun i => { i with started := true }
    let out ← decompress Z data
    if out ≠ [] then put Z out
    let i ← get
    if Z.eof i.member then
      set { i with member := Z.fresh, started := false }
      feed fuel (Z.unusedData i.member)
    else
      if Z.unconsumedTail i.member = [] then drain Z fuel
      feed fuel (Z.unconsumedTail i.member)

def finish : Inflating Z Unit := do
  let i ← get
  if i.started ∧ Z.eof i.member = false then
    throw (.corruptionError "The compressed payload ends early.")

/-- `_decode`: every chunk is fed to an inflater, or put as it is where the payload is not
    compressed. -/
def decode (flags fuel : Nat) (chunks : List Bytes) : Inflating Z Unit :=
  if flags &&& payloadCompressed ≠ 0 then do
    chunks.forM (feed Z fuel)
    finish Z
  else chunks.forM (put Z)

/-! ## 4. Where an inflater is -/

section Positions

variable {Z} {During : Z.Member → (plain taken made : Bytes) → Prop}

/-- The members of segments, one behind the other. -/
def members (Z : Library) (segments : List Bytes) : Bytes := (segments.map Z.deflate).flatten

@[simp] theorem members_append (a b : List Bytes) :
    members Z (a ++ b) = members Z a ++ members Z b := by
  rw [members, List.map_append, List.flatten_append]
  rfl

@[simp] theorem members_cons (s : Bytes) (later : List Bytes) :
    members Z (s :: later) = Z.deflate s ++ members Z later := rfl

/-- The calls of `decompress` that segments to come can take at most. -/
def calls (later : List Bytes) : Nat := later.flatten.length + 3 * later.length

structure Between (done : List Bytes) (i : Inflater Z) : Prop where
  member : i.member = Z.fresh
  started : i.started = false
  pieces : i.pieces.flatten = done.flatten

structure Inside (During : Z.Member → (plain taken made : Bytes) → Prop) (done : List Bytes)
    (s taken made : Bytes) (i : Inflater Z) : Prop where
  during : During i.member s taken made
  eof : Z.eof i.member = false
  started : i.started = true
  pieces : i.pieces.flatten = done.flatten ++ made

/-- The object has seen its member's end, and nothing was behind it. -/
structure Behind (done : List Bytes) (s : Bytes) (i : Inflater Z) : Prop where
  eof : Z.eof i.member = true
  unused : Z.unusedData i.member = []
  started : i.started = true
  pieces : i.pieces.flatten = done.flatten ++ s

/-- An inflater that has been given `x` of the segments' members, with the calls that may be to come;
    inside a member there may be something left to return. -/
inductive Ready (During : Z.Member → (plain taken made : Bytes) → Prop) (segments : List Bytes) :
    (x : Bytes) → (n : Nat) → Inflater Z → Prop
  | between {done later i} (split : segments = done ++ later) (h : Between done i) :
    Ready During segments (members Z done) (calls later) i
  | inside {done s later taken made i} (split : segments = done ++ s :: later)
    (h : Inside During done s taken made i) :
    Ready During segments (members Z done ++ taken) (s.length - made.length + calls later + 2) i
  | behind {done s later i} (split : segments = done ++ s :: later) (h : Behind done s i) :
    Ready During segments (members Z done ++ Z.deflate s) (calls later + 1) i

/-- **Where an inflater is after a chunk**: between two members, inside one and not through with it,
    or at the end of one. -/
inductive Position (During : Z.Member → (plain taken made : Bytes) → Prop) (segments : List Bytes) :
    (x : Bytes) → Inflater Z → Prop
  | between {done later i} (split : segments = done ++ later) (h : Between done i) :
    Position During segments (members Z done) i
  | inside {done s later taken made i} (split : segments = done ++ s :: later)
    (h : Inside During done s taken made i) (more : taken ≠ Z.deflate s) :
    Position During segments (members Z done ++ taken) i
  | behind {done s later i} (split : segments = done ++ s :: later) (h : Behind done s i) :
    Position During segments (members Z done ++ Z.deflate s) i

theorem calls_le (done later : List Bytes) : calls later ≤ calls (done ++ later) := by
  unfold calls
  rw [List.flatten_append, List.length_append, List.length_append]
  omega

theorem calls_cons (s : Bytes) (later : List Bytes) :
    calls (s :: later) = s.length + calls later + 3 := by
  unfold calls
  rw [List.flatten_cons, List.length_append, List.length_cons]
  omega

theorem Position.ready {segments : List Bytes} {x : Bytes} {i : Inflater Z}
    (h : Position During segments x i) : ∃ n ≤ calls segments, Ready During segments x n i := by
  cases h with
  | @between done later _ split h => exact ⟨_, split ▸ calls_le done later, .between split h⟩
  | @inside done s later taken made _ split h more =>
    refine ⟨_, ?_, .inside split h⟩
    have hle := calls_le done (s :: later)
    rw [← split, calls_cons] at hle
    omega
  | @behind done s later _ split h =>
    refine ⟨_, ?_, .behind split h⟩
    have hle := calls_le done (s :: later)
    rw [← split, calls_cons] at hle
    omega

/-! ## 5. One chunk -/

variable {member : Z.Member}

theorem exec_decompress {i : Inflater Z} {data out : Bytes}
    (h : Z.decompress i.member data pieceBytes = some (out, member)) :
    exec (decompress Z data) i = (.ok out, { i with member }) := by
  rw [decompress, exec_bind_ok (exec_get _), h]
  rfl

variable {segments : List Bytes} {done later : List Bytes} {s taken made : Bytes} {i : Inflater Z}

variable {fuel : Nat}

/-- One turn of draining, inside a member. -/
theorem exec_drain_succ {out : Bytes}
    (h : Z.decompress i.member [] pieceBytes = some (out, member)) :
    exec (drain Z (fuel + 1)) i = if out = [] then (.ok (), { i with member })
      else exec (drain Z fuel) ⟨member, i.started, i.pieces ++ [out]⟩ := by
  rw [drain, exec_bind_ok (exec_decompress h)]
  split
  · rfl
  · rw [put, exec_bind_ok (exec_modify _ _)]

theorem exec_drain_behind (hZ : Lawful Z During) (h : Behind done s i) (fuel : Nat) :
    ∃ j, exec (drain Z (fuel + 1)) i = (.ok (), j) ∧ Behind done s j := by
  obtain ⟨member, hcall, heof, hunused⟩ := hZ.ended [] pieceBytes h.eof
  refine ⟨{ i with member }, (exec_drain_succ hcall).trans (if_pos rfl), heof, ?_, h.started, h.pieces⟩
  rw [hunused, h.unused, List.append_nil]

/-- **Draining** returns what is left to return of what was taken. -/
theorem exec_drain (hZ : Lawful Z During) (h : Inside During done s taken made i)
    (hfuel : s.length - made.length + 1 < fuel) :
    ∃ j, exec (drain Z fuel) i = (.ok (), j) ∧ (taken = Z.deflate s ∧ Behind done s j ∨
      taken ≠ Z.deflate s ∧ ∃ made', Inside During done s taken made' j) := by
  induction fuel generalizing made i with
  | zero => exact absurd hfuel (Nat.not_lt_zero _)
  | succ fuel ih =>
    obtain ⟨out, member, used, rest, hcall, hturn⟩ := hZ.turn [] h.during h.eof
      (show 0 < pieceBytes by decide) (.inl (by rw [List.append_nil]; exact hZ.taken_prefix h.during))
    obtain ⟨rfl, rfl⟩ := List.append_eq_nil_iff.mp hturn.data.symm
    have hduring := hturn.during
    have hstopped := hturn.stopped
    rw [List.append_nil] at hduring hstopped
    rw [exec_drain_succ hcall]
    have hpieces : (i.pieces ++ [out]).flatten = done.flatten ++ (made ++ out) := by
      rw [List.flatten_append, List.flatten_singleton, h.pieces, List.append_assoc]
    split
    · rename_i hout
      subst hout
      refine ⟨_, rfl, ?_⟩
      rw [List.append_nil] at hduring hstopped
      rcases hstopped with ⟨heof, htaken, rfl, hunused⟩ | ⟨heof, -, hlimit⟩
      · exact .inl ⟨htaken, heof, hunused, h.started, h.pieces⟩
      · refine .inr ⟨?_, made, hduring, heof, h.started, h.pieces⟩
        rcases hlimit with hlimit | ⟨-, hmore⟩
        · exact absurd hlimit (by decide)
        · exact hmore
    · rename_i hout
      have hgrows := List.length_pos_iff.mpr hout
      have hlen := (hZ.made_prefix hduring).length_le
      rw [List.length_append] at hlen
      rcases hstopped with ⟨heof, htaken, hmade, hunused⟩ | ⟨heof, -, -⟩
      · obtain ⟨fuel, rfl⟩ : ∃ n, fuel = n + 1 := ⟨fuel - 1, by omega⟩
        have hbehind : Behind done s (⟨member, i.started, i.pieces ++ [out]⟩ : Inflater Z) :=
          ⟨heof, hunused, h.started, by rw [hpieces, hmade]⟩
        obtain ⟨j, hrun, hj⟩ := exec_drain_behind hZ hbehind fuel
        exact ⟨j, hrun, .inl ⟨htaken, hj⟩⟩
      · exact ih (i := ⟨member, i.started, i.pieces ++ [out]⟩)
          ⟨hduring, heof, h.started, hpieces⟩ (by rw [List.length_append]; omega)

/-- What a call that returned `out` leaves in the channel. -/
def returned (pieces : List Bytes) (out : Bytes) : List Bytes :=
  if out ≠ [] then pieces ++ [out] else pieces

theorem returned_flatten (pieces : List Bytes) (out : Bytes) :
    (returned pieces out).flatten = pieces.flatten ++ out := by
  unfold returned
  split
  · rw [List.flatten_append, List.flatten_singleton]
  · rename_i h
    rw [not_not.mp h, List.append_nil]

theorem exec_feed_nil (fuel : Nat) (i : Inflater Z) : exec (feed Z (fuel + 1) []) i = (.ok (), i) := rfl

/-- One turn of feeding. -/
theorem exec_feed_succ {data out : Bytes} (hdata : data ≠ [])
    (h : Z.decompress i.member data pieceBytes = some (out, member)) :
    exec (feed Z (fuel + 1) data) i =
      if Z.eof member then
        exec (feed Z fuel (Z.unusedData member)) ⟨Z.fresh, false, returned i.pieces out⟩
      else if Z.unconsumedTail member = [] then
        exec (drain Z fuel >>= fun _ => feed Z fuel (Z.unconsumedTail member))
          ⟨member, true, returned i.pieces out⟩
      else exec (feed Z fuel (Z.unconsumedTail member)) ⟨member, true, returned i.pieces out⟩ := by
  have hcall : exec (decompress Z data) { i with started := true } =
      (.ok out, ⟨member, true, i.pieces⟩) := exec_decompress h
  rw [feed]
  refine (congrArg (fun x => exec x i) (if_neg hdata)).trans ?_
  rw [exec_bind_ok (exec_modify _ _), exec_bind_ok hcall]
  unfold returned
  by_cases hout : out ≠ []
  · simp only [if_pos hout]
    rw [put, exec_bind_ok (exec_modify _ _), exec_bind_ok (exec_get _)]
    by_cases heof : Z.eof member = true
    · simp only [if_pos heof]
      rw [exec_bind_ok (exec_set _ _)]
    · simp only [if_neg heof]
      split <;> rfl
  · simp only [if_neg hout]
    rw [exec_bind_ok (exec_get _)]
    by_cases heof : Z.eof member = true
    · simp only [if_pos heof]
      rw [exec_bind_ok (exec_set _ _)]
    · simp only [if_neg heof]
      split <;> rfl

/-- Feeding with this fuel takes any chunk the members go on with. -/
def Feeds (During : Z.Member → (plain taken made : Bytes) → Prop) (segments : List Bytes) (fuel : Nat) :
    Prop :=
  ∀ {x : Bytes} {n : Nat} {data : Bytes} {i : Inflater Z}, Ready During segments x n i →
    (data = [] → Position During segments x i) → x ++ data <+: members Z segments → n < fuel →
    ∃ j, exec (feed Z fuel data) i = (.ok (), j) ∧ Position During segments (x ++ data) j

/-- A turn inside a member, and the turns behind it. -/
theorem exec_feed_inside (hZ : Lawful Z During) (ih : Feeds During segments fuel)
    (hsplit : segments = done ++ s :: later) {data : Bytes} (hdata : data ≠ [])
    (h : Inside During done s taken made { i with started := true })
    (hx : members Z done ++ taken ++ data <+: members Z segments)
    (hfuel : s.length - made.length + calls later + 2 ≤ fuel) :
    ∃ j, exec (feed Z (fuel + 1) data) i = (.ok (), j) ∧
      Position During segments (members Z done ++ taken ++ data) j := by
  have hagree : taken ++ data <+: Z.deflate s ∨ Z.deflate s <+: taken ++ data := by
    rw [hsplit, members_append, members_cons, List.append_assoc, List.prefix_append_right_inj] at hx
    exact List.prefix_or_prefix_of_prefix hx (List.prefix_append _ _)
  obtain ⟨out, member, used, rest, hcall, hturn⟩ := hZ.turn data h.during h.eof
    (show 0 < pieceBytes by decide) hagree
  have hduring := hturn.during
  have hout := hturn.out_length
  have hlen := (hZ.made_prefix hduring).length_le
  rw [List.length_append] at hlen
  have hpieces : (returned i.pieces out).flatten = done.flatten ++ (made ++ out) := by
    rw [returned_flatten, h.pieces, List.append_assoc]
  rw [exec_feed_succ (i := i) hdata hcall]
  rcases hturn.stopped with ⟨heof, htaken, hmade, hunused⟩ | ⟨heof, htail, hlimit⟩
  · -- the member's end: what is left is the next member's
    rw [if_pos heof, hunused]
    have hsum : members Z done ++ taken ++ data = members Z (done ++ [s]) ++ rest := by
      rw [members_append, members_cons, ← htaken, hturn.data]
      simp only [members, List.map_nil, List.flatten_nil, List.append_nil, List.append_assoc]
    have hbetween : Between (done ++ [s]) (⟨Z.fresh, false, returned i.pieces out⟩ : Inflater Z) := by
      refine ⟨rfl, rfl, hpieces.trans ?_⟩
      rw [hmade, List.flatten_append, List.flatten_singleton]
    have hnext : segments = done ++ [s] ++ later := by rw [hsplit, List.append_assoc]; rfl
    rw [hsum] at hx ⊢
    exact ih (.between hnext hbetween) (fun _ => .between hnext hbetween) hx (by omega)
  · rw [if_neg (Bool.eq_false_iff.mp heof), htail]
    have hinside : Inside During done s (taken ++ used) (made ++ out)
        ⟨member, true, returned i.pieces out⟩ := ⟨hduring, heof, rfl, hpieces⟩
    have hsum : members Z done ++ taken ++ data = members Z done ++ (taken ++ used) ++ rest := by
      rw [hturn.data]
      simp only [List.append_assoc]
    split
    · -- all of the chunk is taken: what is left to return comes out of an empty call
      rename_i hnil
      subst hnil
      rw [hsum, List.append_nil]
      have hfuel' : s.length - (made ++ out).length + 1 < fuel := by
        rw [List.length_append]
        omega
      obtain ⟨j, hdrain, hj⟩ := exec_drain hZ hinside hfuel'
      obtain ⟨fuel, rfl⟩ : ∃ k, fuel = k + 1 := ⟨fuel - 1, by omega⟩
      refine ⟨j, (exec_bind_ok hdrain).trans (exec_feed_nil fuel j), ?_⟩
      rcases hj with ⟨htaken, hj⟩ | ⟨hmore, made', hj⟩
      · rw [htaken]
        exact .behind hsplit hj
      · exact .inside hsplit hj hmore
    · -- the limit was reached
      rename_i hrest
      have hfull : out.length = pieceBytes := by
        rcases hlimit with hfull | ⟨hnil, -⟩
        · exact hfull
        · exact absurd hnil hrest
      have hpos : 0 < pieceBytes := by decide
      rw [hsum] at hx ⊢
      exact ih (.inside hsplit hinside) (fun h => absurd h hrest) hx (by
        rw [List.length_append]
        omega)

/-- **Feeding one chunk**, wherever the inflater is. -/
theorem exec_feed (hZ : Lawful Z During) (fuel : Nat) : Feeds During segments fuel := by
  induction fuel with
  | zero => exact fun _ _ _ hfuel => absurd hfuel (Nat.not_lt_zero _)
  | succ fuel ih =>
    intro x n data i h hdone hx hfuel
    by_cases hdata : data = []
    · refine ⟨i, ?_, ?_⟩
      · rw [hdata, exec_feed_nil]
      · rw [hdata, List.append_nil]
        exact hdone hdata
    cases h with
    | @between done later _ hsplit h =>
      cases later with
      | nil =>
        rw [hsplit, List.append_nil] at hx
        have hle := hx.length_le
        rw [List.length_append] at hle
        exact absurd (List.length_eq_zero_iff.mp (by omega)) hdata
      | cons s later =>
        have hinside : Inside During done s [] [] { i with started := true } := by
          refine ⟨?_, ?_, rfl, ?_⟩
          · show During i.member s [] []
            rw [h.member]
            exact hZ.fresh s
          · show Z.eof i.member = false
            rw [h.member]
            exact hZ.fresh_eof
          · rw [List.append_nil]
            exact h.pieces
        rw [calls_cons] at hfuel
        have hrun := exec_feed_inside hZ ih hsplit hdata hinside
          (by rw [List.append_nil]; exact hx) (by rw [List.length_nil]; omega)
        rw [List.append_nil] at hrun
        exact hrun
    | @inside done s later taken made _ hsplit h =>
      exact exec_feed_inside hZ ih hsplit hdata ⟨h.during, h.eof, rfl, h.pieces⟩ hx (by omega)
    | @behind done s later _ hsplit h =>
      obtain ⟨member, hcall, heof, hunused⟩ := hZ.ended data pieceBytes h.eof
      rw [exec_feed_succ hdata hcall, if_pos heof, hunused, h.unused, List.nil_append]
      have hnext : segments = done ++ [s] ++ later := by rw [hsplit, List.append_assoc]; rfl
      have hsum : members Z done ++ Z.deflate s = members Z (done ++ [s]) := by
        rw [members_append, members_cons]
        exact (congrArg _ (List.append_nil _)).symm
      have hbetween : Between (done ++ [s]) (⟨Z.fresh, false, returned i.pieces []⟩ : Inflater Z) := by
        refine ⟨rfl, rfl, ?_⟩
        rw [returned_flatten, List.append_nil, h.pieces, List.flatten_append, List.flatten_singleton]
      rw [hsum] at hx ⊢
      exact ih (.between hnext hbetween) (fun _ => .between hnext hbetween) hx (by omega)

theorem exec_chunks (hZ : Lawful Z During) (hfuel : calls segments < fuel)
    (chunks : List Bytes) {x : Bytes} {i : Inflater Z} (h : Position During segments x i)
    (hx : x ++ chunks.flatten <+: members Z segments) :
    ∃ j, exec (chunks.forM (feed Z fuel)) i = (.ok (), j) ∧
      Position During segments (x ++ chunks.flatten) j := by
  induction chunks generalizing x i with
  | nil => exact ⟨i, rfl, by rw [List.flatten_nil, List.append_nil]; exact h⟩
  | cons chunk chunks ih =>
    rw [List.flatten_cons, ← List.append_assoc] at hx ⊢
    obtain ⟨n, hn, hready⟩ := h.ready
    obtain ⟨j, hfeed, hj⟩ := exec_feed hZ fuel hready (fun _ => h) ((List.prefix_append _ _).trans hx)
      (Nat.lt_of_le_of_lt hn hfuel)
    obtain ⟨k, hrun, hk⟩ := ih hj hx
    exact ⟨k, by rw [exec_forM_cons, hfeed]; exact hrun, hk⟩

/-! ## 6. The end -/

theorem exec_finish_ok (h : ¬ (i.started = true ∧ Z.eof i.member = false)) :
    exec (finish Z) i = (.ok (), i) := by
  rw [finish, exec_bind_ok (exec_get _), if_neg h]
  rfl

theorem exec_finish_error (h : i.started = true ∧ Z.eof i.member = false) :
    exec (finish Z) i = (.error (.corruptionError "The compressed payload ends early."), i) := by
  rw [finish, exec_bind_ok (exec_get _), if_pos h, exec_throw]

theorem members_eq_nil (hZ : Lawful Z During) {later : List Bytes} (h : members Z later = []) :
    later = [] := by
  cases later with
  | nil => rfl
  | cons s later =>
    rw [members_cons, List.append_eq_nil_iff] at h
    exact absurd h.1 (hZ.deflate_ne_nil s)

/-- **At the end of all the members** everything was returned, and `finish` is content. -/
theorem finish_whole (hZ : Lawful Z During) (h : Position During segments (members Z segments) i) :
    exec (finish Z) i = (.ok (), i) ∧ i.pieces.flatten = segments.flatten := by
  generalize hx : members Z segments = x at h
  cases h with
  | @between done later _ hsplit h =>
    have hnil : later = [] := members_eq_nil hZ (by
      rw [hsplit, members_append] at hx
      exact List.append_right_eq_self.mp hx)
    subst hnil
    refine ⟨exec_finish_ok fun hstarted => ?_, ?_⟩
    · rw [h.started] at hstarted
      exact absurd hstarted.1 Bool.false_ne_true
    · rw [h.pieces, hsplit, List.append_nil]
  | @inside done s later taken made _ hsplit h more =>
    rw [hsplit, members_append, members_cons, List.append_cancel_left_eq] at hx
    have hle := (hZ.taken_prefix h.during).length_le
    have hlen := congrArg List.length hx
    rw [List.length_append] at hlen
    have hnil : members Z later = [] := List.length_eq_zero_iff.mp (by omega)
    rw [hnil, List.append_nil] at hx
    exact absurd hx.symm more
  | @behind done s later _ hsplit h =>
    have hnil : later = [] := members_eq_nil hZ (by
      rw [hsplit, members_append, members_cons, List.append_cancel_left_eq] at hx
      exact List.append_right_eq_self.mp hx)
    subst hnil
    refine ⟨exec_finish_ok fun hstarted => ?_, ?_⟩
    · rw [h.eof] at hstarted
      exact absurd hstarted.2 Bool.true_eq_false.mp
    · rw [h.pieces, hsplit, List.flatten_append, List.flatten_singleton]

/-- No number of whole members is one that is cut. -/
theorem members_ne_cut (hsplit : segments = done ++ s :: later) {y : Bytes} (hy : y <+: Z.deflate s)
    (hne : y ≠ []) (hcut : y ≠ Z.deflate s) {done' : List Bytes} (hdone : done' <+: segments) :
    members Z done' ≠ members Z done ++ y := by
  intro h
  have hlen := congrArg List.length h
  rw [List.length_append] at hlen
  have hpos := List.length_pos_iff.mpr hne
  rcases Nat.lt_or_ge done.length done'.length with hlt | hge
  · have hmore : done ++ [s] <+: done' := by
      have hsegments : done ++ [s] <+: segments := by
        rw [hsplit]
        exact (List.prefix_append_right_inj done).mpr (List.prefix_append [s] later)
      refine List.prefix_of_prefix_length_le hsegments hdone ?_
      rw [List.length_append, List.length_singleton]
      omega
    obtain ⟨more, rfl⟩ := hmore
    rw [members_append, members_append, members_cons] at hlen
    simp only [List.length_append] at hlen
    have hle := hy.length_le
    exact hcut (hy.eq_of_length (by omega))
  · have hfew : done' <+: done :=
      List.prefix_of_prefix_length_le hdone (hsplit ▸ List.prefix_append done (s :: later)) hge
    obtain ⟨more, rfl⟩ := hfew
    rw [members_append, List.length_append] at hlen
    omega

/-- **Inside a member** `finish` raises. -/
theorem finish_cut (hsplit : segments = done ++ s :: later) {y : Bytes} (hy : y <+: Z.deflate s)
    (hne : y ≠ []) (hcut : y ≠ Z.deflate s) (h : Position During segments (members Z done ++ y) i) :
    exec (finish Z) i = (.error (.corruptionError "The compressed payload ends early."), i) := by
  generalize hx : members Z done ++ y = x at h
  cases h with
  | @between done' later' _ hsplit' h =>
    exact absurd hx.symm (members_ne_cut hsplit hy hne hcut (hsplit' ▸ List.prefix_append _ _))
  | @inside done' s' later' taken made _ hsplit' h more => exact exec_finish_error ⟨h.started, h.eof⟩
  | @behind done' s' later' _ hsplit' h =>
    have hwhole : members Z (done' ++ [s']) = members Z done' ++ Z.deflate s' := by
      rw [members_append, members_cons]
      exact congrArg _ (List.append_nil _)
    refine absurd (hwhole.trans hx.symm) (members_ne_cut hsplit hy hne hcut ?_)
    rw [hsplit']
    exact (List.prefix_append_right_inj done').mpr (List.prefix_append [s'] later')

/-! ## 7. There and back -/

/-- The flags of a container: whether its payload is compressed. -/
def flagsOf (compress : Bool) : Nat := if compress then payloadCompressed else 0

variable {chunks : List Bytes}

theorem exec_decode_compressed {j : Inflater Z}
    (h : exec (chunks.forM (feed Z fuel)) i = (.ok (), j)) :
    exec (decode Z (flagsOf true) fuel chunks) i = exec (finish Z) j := by
  rw [decode, if_pos (by decide), exec_bind_ok h]

theorem exec_puts (chunks : List Bytes) (i : Inflater Z) :
    exec (chunks.forM (put Z)) i = (.ok (), { i with pieces := i.pieces ++ chunks }) := by
  induction chunks generalizing i with
  | nil =>
    exact congrArg (fun p => (_, (⟨i.member, i.started, p⟩ : Inflater Z))) (List.append_nil _).symm
  | cons chunk chunks ih =>
    rw [exec_forM_cons, put, exec_modify]
    simp only
    rw [ih]
    simp only [List.append_assoc, List.singleton_append]

variable {segmentBytes workers : Nat} {frames items : List Bytes} {compress : Bool}

theorem position_new : Position During segments (members Z []) (.new Z) :=
  .between rfl ⟨rfl, rfl, rfl⟩

/-- **What was encoded is decoded**, however it is cut. -/
theorem decode_encoded (hZ : Lawful Z During) (hsegment : 0 < segmentBytes)
    (hencoded : Encoded Z segmentBytes workers frames compress items)
    (hchunks : chunks.flatten = items.flatten) :
    ∃ bound, ∀ fuel, bound < fuel → ∃ j,
      exec (decode Z (flagsOf compress) fuel chunks) (.new Z) = (.ok (), j) ∧
        j.pieces.flatten = frames.flatten := by
  cases compress with
  | false =>
    cases hencoded
    refine ⟨0, fun fuel _ => ⟨_, (congrArg (fun x => exec x _) (if_neg (by decide))).trans
      (exec_puts chunks _), ?_⟩⟩
    exact hchunks
  | true =>
    have hitems : items.flatten = members Z (segmentsOf segmentBytes frames) := by
      rw [hencoded.items_eq]
      rfl
    refine ⟨calls (segmentsOf segmentBytes frames), fun fuel hfuel => ?_⟩
    obtain ⟨j, hrun, hj⟩ := exec_chunks hZ hfuel chunks position_new
      (by rw [hchunks, hitems]; exact List.prefix_rfl)
    have hend : members Z [] ++ chunks.flatten = members Z (segmentsOf segmentBytes frames) := by
      rw [hchunks, hitems]
      rfl
    rw [hend] at hj
    obtain ⟨hfinish, hpieces⟩ := finish_whole hZ hj
    exact ⟨j, (exec_decode_compressed hrun).trans hfinish,
      hpieces.trans (segmentsOf_flatten hsegment frames)⟩

/-- **A payload cut inside a member is noticed.** -/
theorem decode_cut (hZ : Lawful Z During) (hsplit : segments = done ++ s :: later) {y : Bytes}
    (hy : y <+: Z.deflate s) (hne : y ≠ []) (hcut : y ≠ Z.deflate s)
    (hchunks : chunks.flatten = members Z done ++ y) :
    ∃ bound, ∀ fuel, bound < fuel → ∃ j, exec (decode Z (flagsOf true) fuel chunks) (.new Z) =
      (.error (.corruptionError "The compressed payload ends early."), j) := by
  refine ⟨calls segments, fun fuel hfuel => ?_⟩
  have hx : members Z [] ++ chunks.flatten <+: members Z segments := by
    show chunks.flatten <+: members Z segments
    rw [hchunks, hsplit, members_append, members_cons]
    exact (List.prefix_append_right_inj _).mpr (hy.trans (List.prefix_append _ _))
  obtain ⟨j, hrun, hj⟩ := exec_chunks hZ hfuel chunks position_new hx
  have hend : members Z [] ++ chunks.flatten = members Z done ++ y := hchunks
  rw [hend] at hj
  exact ⟨j, (exec_decode_compressed hrun).trans (finish_cut hsplit hy hne hcut hj)⟩

/-- **Encoding and decoding undo each other.** The frames of a backup, cut into segments of any size
    that any number of workers deflates, or passed through, and written to a container: a reader's
    chunks decode to the frames, and so does what was written cut in any other way; cut inside a
    member it ends in `CorruptionError`. -/
theorem encoding_decoding {P : Primitives} (hP : P.OpensWhatItSeals) (hZ : Lawful Z During)
    (hsegment : 0 < segmentBytes) (hencoded : Encoded Z segmentBytes workers frames compress items)
    {drawn : Drawn} {passphrase : Bytes} {params : KDFParams} {layout : StreamLayout}
    {writerWorkers : Nat} {w : StreamWriter}
    (hcreate : StreamWriter.create P never drawn passphrase params layout writerWorkers
      (flagsOf compress) = .ok w) (checkSpares : Bool) :
    (∀ D, written P w items = some D → ∃ r t,
      StreamReader.create P D (some passphrase) = .ok r ∧
      exec (r.chunks P checkSpares) (r.start []) = (.ok (), t) ∧
      ∃ bound, ∀ fuel, bound < fuel → ∃ j,
        exec (decode Z r.header.flags fuel t.out) (.new Z) = (.ok (), j) ∧
          j.pieces.flatten = frames.flatten) ∧
    (∀ chunks : List Bytes, chunks.flatten = items.flatten → ∃ bound, ∀ fuel, bound < fuel → ∃ j,
      exec (decode Z (flagsOf compress) fuel chunks) (.new Z) = (.ok (), j) ∧
        j.pieces.flatten = frames.flatten) ∧
    (compress = true → ∀ done s later y, segmentsOf segmentBytes frames = done ++ s :: later →
      y <+: Z.deflate s → y ≠ [] → y ≠ Z.deflate s →
      ∀ chunks : List Bytes, chunks.flatten = members Z done ++ y → ∃ bound, ∀ fuel, bound < fuel →
        ∃ j, exec (decode Z (flagsOf compress) fuel chunks) (.new Z) =
          (.error (.corruptionError "The compressed payload ends early."), j)) := by
  refine ⟨fun D hD => ?_, fun chunks hchunks => decode_encoded hZ hsegment hencoded hchunks, ?_⟩
  · obtain ⟨hb, rfl⟩ := written_ok hcreate hD
    obtain ⟨-, -, hheader⟩ := StreamWriter.create_ok hcreate
    obtain ⟨u, t, hread, hout, -⟩ := (Contents.ends_chunks_intact hb
      (Contents.opens (c := contentsOf w items) hP) checkSpares).returns fun _ _ h => h
    refine ⟨_, t, Contents.create_intact hb (keyed_of_create hP hcreate items), hread, ?_⟩
    have hflags : w.header.flags = flagsOf compress := hheader.flags
    obtain ⟨bound, hdecode⟩ := decode_encoded hZ hsegment hencoded hout
    refine ⟨bound, fun fuel hfuel => ?_⟩
    obtain ⟨j, hrun, hj⟩ := hdecode fuel hfuel
    refine ⟨j, ?_, hj⟩
    rw [← hflags] at hrun
    exact hrun
  · rintro rfl done s later y hsplit hy hne hcut chunks hchunks
    exact decode_cut hZ hsplit hy hne hcut hchunks

end Positions

/-! ## 8. A small payload -/

/-- `zlib` on the one byte 97; on other strings some words of which none begins another. -/
def sample (plain : Bytes) : Bytes :=
  if plain = [97] then [120, 156, 75, 4, 0, 0, 98, 0, 98]
  else (plain.flatMap fun b => [1, b]) ++ [0]

theorem marked_prefix (a b : Bytes)
    (h : (a.flatMap fun b => [(1 : UInt8), b]) ++ [0] <+: (b.flatMap fun b => [1, b]) ++ [0]) :
    a = b := by
  induction a generalizing b with
  | nil =>
    cases b with
    | nil => rfl
    | cons y b =>
      obtain ⟨tail, htail⟩ := h
      exact absurd (congrArg List.head? htail) (by simp)
  | cons x a ih =>
    cases b with
    | nil =>
      have hle := h.length_le
      simp at hle
    | cons y b =>
      simp only [List.flatMap_cons, List.cons_append, List.nil_append, List.cons_prefix_cons] at h
      obtain ⟨-, rfl, h⟩ := h
      rw [ih b h]

theorem sample_prefixFree : PrefixFree sample := by
  intro a b h
  -- the one word starts with 120, the others with 0 or 1
  have hother (plain : Bytes) : ∃ x rest, (plain.flatMap fun b => [(1 : UInt8), b]) ++ [0] = x :: rest ∧
      x ≠ 120 := by
    cases plain with
    | nil => exact ⟨0, [], rfl, by decide⟩
    | cons y plain => exact ⟨1, _, rfl, by decide⟩
  unfold sample at h
  split at h
  · rename_i ha
    split at h
    · rename_i hb
      rw [ha, hb]
    · obtain ⟨x, rest, hb, hx⟩ := hother b
      rw [hb, List.cons_prefix_cons] at h
      exact absurd h.1.symm hx
  · split at h
    · obtain ⟨x, rest, ha, hx⟩ := hother a
      rw [ha, List.cons_prefix_cons] at h
      exact absurd h.1 hx
    · exact marked_prefix a b h

theorem sample_ne_nil (plain : Bytes) : sample plain ≠ [] := by
  unfold sample
  split
  · exact List.cons_ne_nil _ _
  · exact List.append_ne_nil_of_right_ne_nil _ (List.cons_ne_nil _ _)

/-- One frame of one byte, compressed by one worker. -/
theorem encoding_decoding_small : ∃ w D r t, ∃ bound, ∀ fuel, bound < fuel → ∃ j,
    StreamWriter.create .plain never .plain [] {} .small 1 (flagsOf true) = .ok w ∧
    written .plain w [[120, 156, 75, 4, 0, 0, 98, 0, 98]] = some D ∧
    StreamReader.create .plain D (some []) = .ok r ∧
    exec (r.chunks .plain true) (r.start []) = (.ok (), t) ∧
    exec (decode (ofCode sample) r.header.flags fuel t.out) (.new _) = (.ok (), j) ∧
    j.pieces.flatten = [97] := by
  have hZ : Lawful (ofCode sample) (Zlib.Reading sample) :=
    lawful_ofCode sample_prefixFree sample_ne_nil
  have hencoded : Encoded (ofCode sample) (1024 * 1024) 1 [[97]] true
      [[120, 156, 75, 4, 0, 0, 98, 0, 98]] :=
    exists_encoded (ofCode sample) (by decide) (1024 * 1024) [[97]]
  have hreturns : ∃ w, StreamWriter.create .plain never .plain [] {} .small 1 (flagsOf true) = .ok w :=
    StreamWriter.create_returns .plain [] rfl layoutProblem_small le_rfl (by decide)
  obtain ⟨w, hcreate⟩ := hreturns
  obtain ⟨hfresh, -, hheader⟩ := StreamWriter.create_ok hcreate
  have hblocks : (contentsOf w [[120, 156, 75, 4, 0, 0, 98, 0, 98]]).blocks ≤ maxBlocks := by
    have hlayout : (contentsOf w [[120, 156, 75, 4, 0, 0, 98, 0, 98]]).layout = .small := hheader.layout
    rw [Contents.blocks_eq, hlayout]
    show max 1 ((9 + StreamLayout.small.chunkCapacity - 1) / StreamLayout.small.chunkCapacity) ≤
      maxBlocks
    decide
  obtain ⟨D, hD⟩ : ∃ D, written .plain w [[120, 156, 75, 4, 0, 0, 98, 0, 98]] = some D :=
    ⟨_, (written_eq hfresh _).trans (if_pos hblocks)⟩
  obtain ⟨r, t, hr, hread, bound, hdecode⟩ :=
    (encoding_decoding Primitives.plain_opens hZ (by decide) hencoded hcreate true).1 _ hD
  refine ⟨w, D, r, t, bound, fun fuel hfuel => ?_⟩
  obtain ⟨j, hrun, hj⟩ := hdecode fuel hfuel
  exact ⟨j, hcreate, hD, hr, hread, hrun, hj⟩

end Dbs.Encoding

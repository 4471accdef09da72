/-
  File:      Dbs/Container/Failing.lean
  Subject:   THE STREAM WRITER OVER A SINK THAT FAILS: what a container holds that was closed after
             writes that raised.

  A close that returns saw no write of the sink fail, and an operation during which none failed is the
  operation over a sink that never fails. But a `write` that raised leaves the writer open: what it had
  numbered and not stored is gone, and the next close does not know.

  * `Follows` -- an operation over the sink, and the same over one that never fails;
  * `Stuck` -- more chunks than a container holds: from there a close raises;
  * `closed_whole` -- no failure of the sink within a `write`: a closed container is whole;
  * `closed_gap` -- one failure there, and two payloads leave one container.
-/
import Dbs.Container.RoundTrip

namespace Dbs

open Octets Effects

/-- The writes of the sink from the `n`th up to the `m`th work. -/
def Works (fails : Nat → Bool) (n m : Nat) : Prop := ∀ i, n ≤ i → i < m → fails i = false

namespace StreamWriter

variable {P : Primitives} {fails : Nat → Bool}

/-! ## 1. While the sink works -/

/-- `x`, over a sink that may fail, and `y`, the same over one that never does: while the sink works
    they agree, and where `x` returns the sink worked. -/
structure Follows (fails : Nat → Bool) {α : Type} (x y : Writing α) (w : StreamWriter) : Prop where
  le : w.emits ≤ (exec x w).2.emits
  same : Works fails w.emits (exec x w).2.emits → exec x w = exec y w
  loud : ∀ a t, exec x w = (.ok a, t) → Works fails w.emits t.emits

variable {α β : Type} {w : StreamWriter}

/-- A step that leaves the sink alone. -/
theorem follows_quiet {x : Writing α} (h : (exec x w).2.emits = w.emits) : Follows fails x x w := by
  refine ⟨h.ge, fun _ => rfl, fun a t ht i h1 h2 => ?_⟩
  rw [ht] at h
  change t.emits = w.emits at h
  omega

theorem follows_bind {x y : Writing β} {f g : β → Writing α} (hx : Follows fails x y w)
    (hf : ∀ b t, exec x w = (.ok b, t) → Follows fails (f b) (g b) t) :
    Follows fails (x >>= f) (y >>= g) w := by
  obtain ⟨hle, hsame, hloud⟩ := hx
  cases hxw : exec x w with
  | mk r t =>
    rw [hxw] at hle hsame
    cases r with
    | error e =>
      refine ⟨?_, ?_, ?_⟩
      · rw [exec_bind_error hxw]
        exact hle
      · rw [exec_bind_error hxw]
        intro hworks
        rw [exec_bind_error (hsame hworks).symm]
      · intro a u hu
        rw [exec_bind_error hxw] at hu
        cases hu
    | ok b =>
      obtain ⟨hle', hsame', hloud'⟩ := hf b t hxw
      have hfirst := hloud b t hxw
      refine ⟨?_, ?_, ?_⟩
      · rw [exec_bind_ok hxw]
        exact hle.trans hle'
      · rw [exec_bind_ok hxw, exec_bind_ok (hsame hfirst).symm]
        exact fun hworks => hsame' fun i h1 h2 => hworks i (hle.trans h1) h2
      · intro a u hu i h1 h2
        rw [exec_bind_ok hxw] at hu
        rcases Nat.lt_or_ge i t.emits with hi | hi
        · exact hfirst i h1 hi
        · exact hloud' a u hu i hi h2

theorem follows_ite {c : Prop} [Decidable c] {x y x' y' : Writing α} (h : c → Follows fails x y w)
    (h' : ¬ c → Follows fails x' y' w) :
    Follows fails (if c then x else x') (if c then y else y') w := by
  split
  · exact h ‹_›
  · exact h' ‹_›

theorem follows_pure (a : α) : Follows fails (pure a) (pure a) w := follows_quiet rfl

theorem follows_get {f g : StreamWriter → Writing α} (h : Follows fails (f w) (g w) w) :
    Follows fails (get >>= f) (get >>= g) w :=
  follows_bind (follows_quiet rfl) fun b t ht => by
    rw [exec_get] at ht
    cases ht
    exact h

theorem follows_throw (e : Raised) : Follows fails (throw e : Writing α) (throw e) w :=
  follows_quiet rfl

theorem follows_modify {f : StreamWriter → StreamWriter} (h : (f w).emits = w.emits) :
    Follows fails (modify f : Writing PUnit) (modify f) w := follows_quiet h

theorem follows_set {t : StreamWriter} (h : t.emits = w.emits) :
    Follows fails (set t : Writing PUnit) (set t) w := follows_quiet h

theorem exec_emit_eq (fails : Nat → Bool) (data : Bytes) (w : StreamWriter) :
    exec (emit fails data) w = if fails w.emits then
      (.error .sinkError, { w with emits := w.emits + 1 }) else (.ok (), w.emitted data) := by
  rw [emit, exec_bind_ok (exec_get _)]
  simp only
  split
  · rw [exec_bind_ok (exec_set _ _)]
    rfl
  · rfl

theorem follows_emit (data : Bytes) : Follows fails (emit fails data) (emit never data) w := by
  have hrun := exec_emit_eq fails data w
  cases hf : fails w.emits with
  | true =>
    rw [hf, if_pos rfl] at hrun
    refine ⟨?_, ?_, ?_⟩
    · rw [hrun]
      exact Nat.le_succ _
    · rw [hrun]
      intro hworks
      have := hworks w.emits (Nat.le_refl _) (Nat.lt_succ_self _)
      rw [hf] at this
      cases this
    · intro a t ht
      rw [hrun] at ht
      cases ht
  | false =>
    rw [hf, if_neg Bool.false_ne_true] at hrun
    refine ⟨?_, ?_, ?_⟩
    · rw [hrun]
      exact Nat.le_succ _
    · rw [hrun, exec_emit]
      exact fun _ => rfl
    · intro a t ht i h1 h2
      rw [hrun] at ht
      cases ht
      obtain rfl : i = w.emits := Nat.le_antisymm (Nat.le_of_lt_succ h2) h1
      exact hf

theorem follows_place (slot : Bytes) : Follows fails (place fails slot) (place never slot) w := by
  refine follows_bind (follows_emit slot) fun _ t _ => ?_
  refine follows_bind (follows_modify rfl) fun _ u _ => ?_
  refine follows_get (follows_ite (fun _ => ?_) fun _ => follows_pure _)
  exact follows_bind (follows_set rfl) fun _ _ _ => follows_emit _

theorem follows_places (slots : List Bytes) :
    Follows fails (slots.forM (place fails)) (slots.forM (place never)) w := by
  induction slots generalizing w with
  | nil => exact follows_pure _
  | cons slot slots ih => exact follows_bind (follows_place slot) fun _ _ _ => ih

theorem follows_flush (final : Bool) :
    Follows fails (flush P fails final) (flush P never final) w := by
  rw [flush, flush]
  refine follows_get (follows_ite (fun _ => follows_pure _) fun _ => ?_)
  refine follows_ite (fun _ => follows_bind (follows_throw _) fun _ _ h => ?_) fun _ => ?_
  · rw [exec_throw] at h
    cases h
  · exact follows_bind (follows_set rfl) fun _ _ _ => follows_places _

theorem follows_queue (chunk : Bytes) :
    Follows fails (queue P fails chunk) (queue P never chunk) w := by
  refine follows_bind (follows_modify rfl) fun _ t _ => follows_get ?_
  exact follows_ite (fun _ => follows_flush false) fun _ => follows_pure _

theorem follows_queueFull (fuel : Nat) (view : Bytes) :
    Follows fails (queueFull P fails fuel view) (queueFull P never fuel view) w := by
  induction fuel generalizing w view with
  | zero => exact follows_pure _
  | succ fuel ih =>
    refine follows_get (follows_ite (fun _ => ?_) fun _ => follows_pure _)
    exact follows_bind (follows_queue _) fun _ _ _ => ih _

theorem follows_fillPending (data : Bytes) :
    Follows fails (fillPending P fails data) (fillPending P never data) w := by
  refine follows_get (follows_ite (fun _ => ?_) fun _ => follows_pure _)
  refine follows_bind (follows_set rfl) fun _ _ _ => ?_
  refine follows_ite (fun _ => follows_pure _) fun _ => ?_
  refine follows_bind (follows_queue _) fun _ _ _ => ?_
  exact follows_bind (follows_modify rfl) fun _ _ _ => follows_pure _

theorem follows_ensureOpen : Follows fails ensureOpen ensureOpen w := by
  refine follows_quiet ?_
  rw [ensureOpen, exec_bind_ok (exec_get _)]
  split <;> rfl

/-- **A write**, whether it returns or raises. -/
theorem follows_write (data : Bytes) :
    Follows fails (write P fails data) (write P never data) w := by
  refine follows_bind follows_ensureOpen fun _ _ _ => ?_
  refine follows_bind (follows_fillPending data) fun view _ _ => ?_
  refine follows_bind (follows_queueFull view.length view) fun _ _ _ => ?_
  exact follows_bind (follows_modify rfl) fun _ _ _ => follows_pure _

theorem follows_drainWindow (fuel : Nat) :
    Follows fails (drainWindow fails fuel) (drainWindow never fuel) w := by
  induction fuel generalizing w with
  | zero => exact follows_pure _
  | succ fuel ih =>
    refine follows_get ?_
    cases w.window with
    | nil => exact follows_pure _
    | cons slot rest =>
      refine follows_bind (follows_set rfl) fun _ _ _ => ?_
      exact follows_bind (follows_emit slot) fun _ _ _ => ih

theorem follows_finishContainer :
    Follows fails (finishContainer P fails) (finishContainer P never) w := by
  refine follows_bind (follows_modify rfl) fun _ _ _ => ?_
  refine follows_bind (follows_flush true) fun _ _ _ => follows_get ?_
  refine follows_bind (follows_drainWindow _) fun _ _ _ => follows_get ?_
  refine follows_bind (follows_emit _) fun _ _ _ => ?_
  exact follows_bind (follows_emit _) fun _ _ _ => follows_emit _

/-- An exception aborts the writer. -/
def settled : Except Raised α → StreamWriter → StreamWriter
  | .ok _, t => t
  | .error _, t => t.abort

theorem settled_emits (r : Except Raised α) (t : StreamWriter) : (settled r t).emits = t.emits := by
  cases r <;> rfl

theorem exec_aborting {x : Writing α} {r : Except Raised α} {t : StreamWriter}
    (h : exec x w = (r, t)) :
    exec (tryCatch x fun e => do modify abort; throw e) w = (r, settled r t) := by
  rw [exec_tryCatch, h]
  cases r <;> rfl

theorem follows_aborting {x y : Writing α} (h : Follows fails x y w) :
    Follows fails (tryCatch x fun e => do modify abort; throw e)
      (tryCatch y fun e => do modify abort; throw e) w := by
  obtain ⟨hle, hsame, hloud⟩ := h
  cases hx : exec x w with
  | mk r t =>
    rw [hx] at hle hsame
    refine ⟨?_, ?_, ?_⟩
    · rw [exec_aborting hx, settled_emits]
      exact hle
    · rw [exec_aborting hx, settled_emits]
      exact fun hworks => (exec_aborting (hsame hworks).symm).symm
    · intro a u hu
      rw [exec_aborting hx] at hu
      cases hu
      exact hloud a t hx

/-- **A close.** -/
theorem follows_close : Follows fails (close P fails) (close P never) w := by
  refine follows_get ?_
  cases w.summary with
  | some summary => exact follows_pure _
  | none =>
    refine follows_bind follows_ensureOpen fun _ t _ => ?_
    refine follows_bind ?_ fun _ _ _ => follows_get ?_
    · exact follows_aborting follows_finishContainer
    · exact follows_bind (follows_set rfl) fun _ _ _ => follows_pure _

/-! ## 2. More chunks than a container holds -/

/-- Neither closed nor aborted. -/
structure Open (w : StreamWriter) : Prop where
  closed : w.closed = false
  summary : w.summary = none
  nextIndex : w.nextIndex ≤ maxBlocks

/-- The next flush cannot number its chunks. -/
structure Stuck (w : StreamWriter) : Prop extends Open w where
  chunks : maxBlocks < w.nextIndex + w.batch.length

theorem flush_stuck (hw : Stuck w) (final : Bool) : exec (flush P fails final) w =
    (.error (.containerError "The stream exceeds the largest block count a container holds."), w) := by
  have hne : ¬ w.batch.isEmpty = true := fun h => by
    have h1 := hw.nextIndex
    have h2 := hw.chunks
    rw [List.isEmpty_iff.mp h] at h2
    exact absurd h2 (Nat.not_lt.mpr h1)
  rw [flush, exec_bind_ok (exec_get _), if_neg hne]
  simp only
  rw [if_pos hw.chunks, exec_bind_error (exec_throw _ _)]

theorem Stuck.batched (hw : Stuck w) (chunk : Bytes) :
    Stuck { w with batch := w.batch ++ [chunk] } := by
  refine ⟨{ hw with }, Nat.lt_of_lt_of_le hw.chunks ?_⟩
  show w.nextIndex + w.batch.length ≤ w.nextIndex + (w.batch ++ [chunk]).length
  rw [List.length_append]
  omega

theorem keeps_queue_stuck (chunk : Bytes) : Keeps Stuck (queue P fails chunk) := by
  intro w h
  rw [queue, exec_bind_ok (exec_modify _ _), exec_bind_ok (exec_get _)]
  split
  · rw [flush_stuck (h.batched chunk)]
    exact h.batched chunk
  · exact h.batched chunk

theorem keeps_queueFull_stuck (fuel : Nat) (view : Bytes) :
    Keeps Stuck (queueFull P fails fuel view) := by
  induction fuel generalizing view with
  | zero => exact keeps_pure _
  | succ fuel ih =>
    exact keeps_bind keeps_get fun _ =>
      keeps_ite (keeps_bind (keeps_queue_stuck _) fun _ => ih _) (keeps_pure _)

theorem keeps_fillPending_stuck (data : Bytes) : Keeps Stuck (fillPending P fails data) := by
  intro w h
  have hset (pending : Bytes) : Stuck { w with pending } :=
    ⟨{ h with }, h.chunks⟩
  have hqueue (chunk view : Bytes) : Keeps Stuck (do
      queue P fails chunk
      modify fun w => { w with pending := [] }
      return view) :=
    keeps_bind (keeps_queue_stuck chunk) fun _ => keeps_bind
      (keeps_modify fun _ h => ⟨{ h with }, h.chunks⟩) fun _ => keeps_pure _
  rw [fillPending, exec_bind_ok (exec_get _)]
  simp only
  split
  · rw [exec_bind_ok (exec_set _ _)]
    exact keeps_ite (keeps_pure _) (hqueue _ _) _ (hset _)
  · exact h

theorem keeps_write_stuck (data : Bytes) : Keeps Stuck (write P fails data) := by
  have hopen : Keeps Stuck ensureOpen :=
    keeps_bind keeps_get fun _ => keeps_ite (keeps_throw _) (keeps_pure _)
  refine keeps_bind hopen fun _ => keeps_bind (keeps_fillPending_stuck data) fun view => ?_
  refine keeps_bind (keeps_queueFull_stuck _ view) fun _ => ?_
  exact keeps_bind (keeps_modify fun _ h => ⟨{ h with }, h.chunks⟩)
    fun _ => keeps_pure _

/-- **From there a close raises.** -/
theorem close_stuck (hw : Stuck w) : ∃ e t, exec (close P fails) w = (.error e, t) := by
  set v : StreamWriter := { w with
    pending := [], finalChunkLen := w.pending.length + tagLength, batch := w.batch ++ [w.pending] }
  have hmore := hw.batched w.pending
  have hv : Stuck v := ⟨{ hw with }, hmore.chunks⟩
  obtain ⟨e, hfinish⟩ : ∃ e, exec (finishContainer P fails) w = (.error e, v) :=
    ⟨.containerError "The stream exceeds the largest block count a container holds.", by
      rw [finishContainer, exec_bind_ok (exec_modify _ _), exec_bind_error (flush_stuck hv true)]⟩
  refine ⟨e, v.abort, ?_⟩
  rw [close, exec_bind_ok (exec_get _), hw.summary]
  simp only
  rw [exec_bind_ok (Contents.exec_ensureOpen hw.closed), exec_bind_error (exec_aborting hfinish)]
  rfl

theorem ends_place_never (hw : Open w) (slot : Bytes) :
    Ends (fun _ t => Open t) (fun _ _ => False) (exec (place never slot) w) := by
  rw [place, exec_bind_ok (exec_emit _ _), exec_bind_ok (exec_modify _ _),
    exec_bind_ok (exec_get _)]
  split
  · rw [exec_bind_ok (exec_set _ _)]
    exact { hw with }
  · exact { hw with }

/-- Over a sink that never fails a flush raises for that reason only, and changes nothing. -/
theorem ends_flush_never (hw : Open w) (final : Bool) :
    Ends (fun _ t => Open t) (fun _ t => t = w ∧ Stuck w) (exec (flush P never final) w) := by
  rw [flush, exec_bind_ok (exec_get _)]
  split
  · exact hw
  simp only
  split
  · rename_i hmany
    exact ⟨rfl, hw, hmany⟩
  · rename_i hfit
    rw [exec_bind_ok (exec_set _ _)]
    refine (ends_forM (I := fun _ t => Open t) (fun _ slot _ _ _ h => ends_place_never h slot) ?_).mono
      (fun _ _ h => h) fun _ _ h => h.elim
    refine ⟨hw.closed, hw.summary, ?_⟩
    show w.nextIndex + _ ≤ maxBlocks
    rw [List.length_map, List.length_zipIdx]
    omega

theorem ends_queue_never (hw : Open w) (chunk : Bytes) :
    Ends (fun _ t => Open t) (fun _ t => Stuck t) (exec (queue P never chunk) w) := by
  have hmore : Open { w with batch := w.batch ++ [chunk] } := { hw with }
  rw [queue, exec_bind_ok (exec_modify _ _), exec_bind_ok (exec_get _)]
  split
  · exact (ends_flush_never hmore false).mono (fun _ _ h => h) fun _ t h => h.1 ▸ h.2
  · exact hmore

theorem ends_queueFull_never (hw : Open w) (fuel : Nat) (view : Bytes) :
    Ends (fun _ t => Open t) (fun _ t => Stuck t) (exec (queueFull P never fuel view) w) := by
  induction fuel generalizing w view with
  | zero => exact hw
  | succ fuel ih =>
    rw [queueFull, exec_bind_ok (exec_get _)]
    simp only
    split
    · exact ends_bind (ends_queue_never hw _) fun _ _ h => ih h _
    · exact hw

/-- **A write that raises** over a sink that never fails leaves the writer stuck. -/
theorem ends_write_never (hw : Open w) (data : Bytes) :
    Ends (fun _ t => Open t) (fun _ t => Stuck t) (exec (write P never data) w) := by
  rw [write, exec_bind_ok (Contents.exec_ensureOpen hw.closed)]
  refine ends_bind (M := fun _ t => Open t) ?_ fun view t ht => ?_
  · rw [fillPending, exec_bind_ok (exec_get _)]
    simp only
    split
    · rw [exec_bind_ok (exec_set _ _)]
      have hset (pending : Bytes) : Open { w with pending } := { hw with }
      split
      · exact hset _
      · exact ends_bind (ends_queue_never (hset _) _) fun _ _ h => { h with }
    · exact hw
  · exact ends_bind (ends_queueFull_never ht view.length view) fun _ _ h =>
      { h with }

/-- Over a sink that never fails a close with room for its chunks returns. -/
theorem close_returns (hw : Open w) (hroom : w.nextIndex + w.batch.length + 1 ≤ maxBlocks) :
    ∃ summary t, exec (close P never) w = (.ok summary, t) := by
  set v : StreamWriter := { w with
    pending := [], finalChunkLen := w.pending.length + tagLength, batch := w.batch ++ [w.pending] }
  have hv : Open v := { hw with }
  have hfinish : Ends (fun _ _ => True) (fun _ _ => False) (exec (finishContainer P never) w) := by
    rw [finishContainer, exec_bind_ok (exec_modify _ _)]
    refine ends_bind ((ends_flush_never hv true).mono (fun _ _ h => h) fun _ _ h => ?_) fun _ t _ => ?_
    · have hmany : maxBlocks < w.nextIndex + (w.batch ++ [w.pending]).length := h.2.chunks
      rw [List.length_append, List.length_singleton] at hmany
      omega
    · rw [exec_bind_ok (exec_get _), exec_bind_ok (Contents.exec_drainWindow _ _ rfl),
        exec_bind_ok (exec_get _), exec_bind_ok (exec_emit _ _), exec_bind_ok (exec_emit _ _),
        exec_emit]
      trivial
  obtain ⟨u, t, hrun, -⟩ := hfinish.returns fun _ _ h => h
  refine ⟨t.summaryOf P, { t with closed := true, summary := some (t.summaryOf P) }, ?_⟩
  rw [close, exec_bind_ok (exec_get _), hw.summary]
  simp only
  rw [exec_bind_ok (Contents.exec_ensureOpen hw.closed), exec_bind_ok (exec_aborting hrun)]
  rfl

/-! ## 3. Whole runs -/

variable (P fails)

/-- A call of `write` by a caller that goes on whether it raises or not. -/
def writeCaught (data : Bytes) : Writing Unit :=
  tryCatch (do let _ ← write P fails data) fun _ => return

def writes (pieces : List Bytes) : Writing Unit := pieces.forM (writeCaught P fails)

variable {P fails}

theorem exec_writeCaught (data : Bytes) (w : StreamWriter) :
    exec (writeCaught P fails data) w = (.ok (), (exec (write P fails data) w).2) := by
  rw [writeCaught, exec_tryCatch, exec_bind]
  cases exec (write P fails data) w with
  | mk r t => cases r <;> rfl

theorem exec_writes_cons (data : Bytes) (pieces : List Bytes) (w : StreamWriter) :
    exec (writes P fails (data :: pieces)) w =
      exec (writes P fails pieces) (exec (write P fails data) w).2 := by
  show exec (writeCaught P fails data >>= fun _ => writes P fails pieces) w = _
  rw [exec_bind_ok (exec_writeCaught data w)]

theorem writes_emits (pieces : List Bytes) (w : StreamWriter) :
    w.emits ≤ (exec (writes P fails pieces) w).2.emits := by
  induction pieces generalizing w with
  | nil => exact Nat.le_refl _
  | cons data pieces ih =>
    rw [exec_writes_cons]
    exact (follows_write data).le.trans (ih _)

/-- While the sink works the run is the run over a sink that never fails. -/
theorem writes_same (pieces : List Bytes) (w : StreamWriter)
    (hworks : Works fails w.emits (exec (writes P fails pieces) w).2.emits) :
    exec (writes P fails pieces) w = exec (writes P never pieces) w := by
  induction pieces generalizing w with
  | nil => rw [writes, writes, exec_forM_nil, exec_forM_nil]
  | cons data pieces ih =>
    obtain ⟨hle, hsame, -⟩ := follows_write (P := P) (w := w) data
    rw [exec_writes_cons] at hworks
    rw [exec_writes_cons, exec_writes_cons]
    generalize hr : exec (write P fails data) w = r at hle hsame hworks ⊢
    have hrest : r.2.emits ≤ (exec (writes P fails pieces) r.2).2.emits := writes_emits pieces r.2
    have hfirst : r = exec (write P never data) w :=
      hsame fun i h1 h2 => hworks i h1 (Nat.lt_of_lt_of_le h2 hrest)
    rw [← hfirst]
    exact ih r.2 fun i h1 h2 => hworks i (Nat.le_trans hle h1) h2

theorem writes_stuck (pieces : List Bytes) {w : StreamWriter} (h : Stuck w) :
    Stuck (exec (writes P fails pieces) w).2 := by
  induction pieces generalizing w with
  | nil => exact h
  | cons data pieces ih =>
    rw [exec_writes_cons]
    exact ih (keeps_write_stuck data w h)

/-- **What the calls leave** over a sink that never fails: a writer of the whole payload, or one that is
    stuck. -/
theorem writes_never {c : Contents} {pieces : List Bytes} {fed : Nat} {w : StreamWriter}
    (hfed : c.Fed P fed w) (hopen : Open w) (hpieces : c.payload.drop fed = pieces.flatten)
    (hle : fed ≤ c.payload.length) :
    Stuck (exec (writes P never pieces) w).2 ∨
      Open (exec (writes P never pieces) w).2 ∧
      c.Fed P c.payload.length (exec (writes P never pieces) w).2 := by
  induction pieces generalizing fed w with
  | nil =>
    obtain rfl : fed = c.payload.length := by
      have := congrArg List.length hpieces
      rw [List.length_drop, List.flatten_nil, List.length_nil] at this
      omega
    exact .inr ⟨hopen, hfed⟩
  | cons data pieces ih =>
    have hlen := congrArg List.length hpieces
    rw [List.length_drop, List.flatten_cons, List.length_append] at hlen
    have hslice : slice c.payload fed data.length = data := by
      rw [slice, hpieces, List.flatten_cons, List.take_left]
    have hwrite := Contents.ends_write P hfed (n := data.length) (by omega)
    rw [hslice] at hwrite
    have hnever := ends_write_never (P := P) hopen data
    rw [exec_writes_cons]
    generalize exec (write P never data) w = r at hwrite hnever
    obtain ⟨r, t⟩ := r
    cases r with
    | error e => exact .inl (writes_stuck pieces hnever)
    | ok _ =>
      refine ih hwrite hnever ?_ (by omega)
      rw [← List.drop_drop, hpieces, List.flatten_cons, List.drop_left]

/-- Whether a writer is created depends on the first write of the sink only. -/
theorem create_eq (hfirst : fails 0 = false) (drawn : Drawn) (passphrase : Bytes) (params : KDFParams)
    (layout : StreamLayout) (workers flags : Nat) :
    create P fails drawn passphrase params layout workers flags =
      create P never drawn passphrase params layout workers flags := by
  have hemit (header : StreamHeader) (dataKey data : Bytes) :
      exec (emit fails data) { header, dataKey, workers } =
        exec (emit never data) { header, dataKey, workers } := by
    rw [exec_emit_eq, hfirst, if_neg Bool.false_ne_true, exec_emit]
  simp only [create, hemit]

/-- A writer that was created has stored its header. -/
theorem create_parts {drawn : Drawn} {passphrase : Bytes} {params : KDFParams} {layout : StreamLayout}
    {workers flags : Nat} (h : create P fails drawn passphrase params layout workers flags = .ok w) :
    create P never drawn passphrase params layout workers flags = .ok w ∧
      ∃ header, w = emitted { header, dataKey := drawn.dataKey, workers } (header.seal P) := by
  obtain ⟨-, -, -, header, -, hemit⟩ := create_stored h
  rw [exec_emit_eq] at hemit
  cases hfirst : fails 0 with
  | true =>
    rw [if_pos hfirst] at hemit
    cases hemit
  | false =>
    rw [if_neg (Bool.eq_false_iff.mp hfirst)] at hemit
    rw [← create_eq hfirst]
    exact ⟨h, header, (Prod.mk.inj hemit).2.symm⟩

theorem open_of_fresh (h : Fresh P w) : Open w := by
  obtain ⟨-, hclosed, hsummary, -, k, m, he, hle, -⟩ := h.fed []
  refine ⟨hclosed, hsummary, ?_⟩
  have hk : w.nextIndex = k := congrArg StreamWriter.nextIndex he
  have hpos := Contents.capacity_pos (c := ⟨w.header, w.dataKey, []⟩)
  have hzero : k + m = 0 := by
    rcases Nat.mul_eq_zero.mp (Nat.le_zero.mp hle) with h | h
    · exact h
    · omega
  rw [hk, (Nat.add_eq_zero_iff.mp hzero).1]
  exact Nat.zero_le _

/-- A reader with the passphrase yields exactly the payload. -/
def Reads (P : Primitives) (bytes passphrase : Bytes) (checkSpares : Bool) (payload : Bytes) : Prop :=
  ∃ r t, StreamReader.create P bytes (some passphrase) = .ok r ∧
    exec (r.chunks P checkSpares) (r.start []) = (.ok (), t) ∧ t.out.flatten = payload

theorem Reads.unique {bytes passphrase payload payload' : Bytes} {checkSpares : Bool}
    (h : Reads P bytes passphrase checkSpares payload)
    (h' : Reads P bytes passphrase checkSpares payload') :
    payload = payload' := by
  obtain ⟨r, t, hr, ht, rfl⟩ := h
  obtain ⟨r', t', hr', ht', rfl⟩ := h'
  rw [hr] at hr'
  cases hr'
  rw [ht] at ht'
  cases ht'
  rfl

/-- **A closed container is whole**, where no write of the sink failed within a `write`: whatever of the
    calls raised and whatever fails while closing, if `close` returns, the sink holds a container of
    everything that was handed over. -/
theorem closed_whole (hP : P.OpensWhatItSeals) {drawn : Drawn} {passphrase : Bytes} {params : KDFParams}
    {layout : StreamLayout} {workers flags : Nat}
    (hcreate : create P fails drawn passphrase params layout workers flags = .ok w)
    (pieces : List Bytes) (hworks : Works fails w.emits (exec (writes P fails pieces) w).2.emits)
    {summary : StreamSummary} {t : StreamWriter}
    (hclose : exec (close P fails) (exec (writes P fails pieces) w).2 = (.ok summary, t))
    (checkSpares : Bool) : Reads P t.out passphrase checkSpares pieces.flatten := by
  obtain ⟨hcreated, -⟩ := create_parts hcreate
  obtain ⟨hfresh, -, -⟩ := create_ok hcreated
  rw [writes_same pieces w hworks] at hclose
  obtain ⟨-, hsame, hloud⟩ := follows_close (P := P)
    (w := (exec (writes P never pieces) w).2)
  rw [hclose] at hsame
  have hnever := (hsame (hloud _ _ hclose)).symm
  rcases writes_never (hfresh.fed pieces.flatten) (open_of_fresh hfresh) rfl
    (Nat.zero_le _) with hstuck | ⟨-, hfed⟩
  · obtain ⟨e, u, hraise⟩ := close_stuck (P := P) hstuck
    rw [hraise] at hclose
    cases hclose
  · have hclosed := (Contents.ends_close P hfed).of_ok hnever
    have ho := Contents.opens (c := contentsOf w pieces) hP
    obtain ⟨u, v, hread, hout, -⟩ :=
      (Contents.ends_chunks_intact hclosed.blocks_le ho checkSpares).returns fun _ _ h => h
    rw [hclosed.out]
    exact ⟨_, v, Contents.create_intact hclosed.blocks_le (keyed_of_create hP hcreated pieces), hread,
      hout⟩

/-- One write to a container of one block. -/
theorem closed_whole_small : ∃ w summary t, create .plain never .plain [] {} .small 1 0 = .ok w ∧
    exec (close .plain never) (exec (writes .plain never [ascii "payload"]) w).2 = (.ok summary, t) ∧
    Reads .plain t.out [] true [ascii "payload"].flatten := by
  obtain ⟨w, hcreate, -, hblocks, -⟩ := exists_small .plain [ascii "payload"] 1 (by decide)
    (by decide)
  obtain ⟨hfresh, -, -⟩ := create_ok hcreate
  have hle : (contentsOf w [ascii "payload"]).blocks ≤ maxBlocks := by
    rw [hblocks]
    decide
  have hfew : ¬ maxBlocks < (contentsOf w [ascii "payload"]).blocks := Nat.not_lt.mpr hle
  obtain ⟨n, t, hwrite, hfed⟩ := (Contents.ends_write .plain (hfresh.fed [ascii "payload"].flatten)
    (n := (ascii "payload").length) (Nat.le_refl _)).returns fun _ _ h => hfew h
  obtain ⟨summary, u, hclose, -⟩ := (Contents.ends_close .plain hfed).returns fun _ _ h => hfew h
  have hrun : (exec (writes .plain never [ascii "payload"]) w).2 = t := by
    rw [exec_writes_cons, writes, exec_forM_nil]
    exact congrArg Prod.snd hwrite
  have hdone : exec (close .plain never) (exec (writes .plain never [ascii "payload"]) w).2 =
      (.ok summary, u) := by
    rw [hrun]
    exact hclose
  exact ⟨w, summary, u, hcreate, hdone, closed_whole Primitives.plain_opens hcreate _
    (fun _ _ _ => rfl) hdone true⟩

/-! ## 4. A container closed after a failure -/

/-- What a batch leaves whose first slot could not be stored: its indices are taken, its chunks gone. -/
def lost (w : StreamWriter) (chunks : Nat) : StreamWriter :=
  { w with batch := [], nextIndex := w.nextIndex + chunks, emits := w.emits + 1 }

theorem exec_places_lost (hfail : fails w.emits = true) {slots : List Bytes} (hne : slots ≠ []) :
    exec (slots.forM (place fails)) w = (.error .sinkError, { w with emits := w.emits + 1 }) := by
  obtain ⟨slot, slots, rfl⟩ := List.exists_cons_of_ne_nil hne
  rw [exec_forM_cons, place, exec_bind, exec_emit_eq, if_pos hfail]

theorem exec_flush_lost (hfail : fails w.emits = true) (hne : w.batch ≠ [])
    (hroom : w.nextIndex + w.batch.length ≤ maxBlocks) (final : Bool) :
    exec (flush P fails final) w = (.error .sinkError, w.lost w.batch.length) := by
  rw [flush, exec_bind_ok (exec_get _), if_neg fun h => hne (List.isEmpty_iff.mp h)]
  simp only
  rw [if_neg (Nat.not_lt.mpr hroom), exec_bind_ok (exec_set _ _), Contents.groups_eq]
  refine (exec_places_lost (w := { w with batch := [], nextIndex := _ }) hfail ?_).trans ?_
  · rw [ne_eq, List.map_eq_nil_iff, List.map_eq_nil_iff, List.zipIdx_eq_nil_iff]
    exact hne
  · rw [List.length_map, List.length_zipIdx]
    rfl

/-- Queueing full chunks until a batch is full, and the first slot of it cannot be stored. -/
theorem exec_queueFull_lost (hfail : fails w.emits = true)
    (hroom : w.nextIndex + batchBlocks * w.workers ≤ maxBlocks) (fuel : Nat) (view : Bytes)
    (batch : List Bytes) (hbatch : batch.length < batchBlocks * w.workers)
    (hlong : w.layout.chunkCapacity * (batchBlocks * w.workers - batch.length) < view.length)
    (hfuel : view.length ≤ fuel) :
    exec (queueFull P fails fuel view) { w with batch } =
      (.error .sinkError, w.lost (batchBlocks * w.workers)) := by
  have hpos : 0 < w.layout.chunkCapacity := w.header.layout_valid.capacity_pos
  induction fuel generalizing view batch with
  | zero => omega
  | succ fuel ih =>
    obtain ⟨room, hr⟩ : ∃ n, batchBlocks * w.workers - batch.length = n + 1 :=
      ⟨batchBlocks * w.workers - batch.length - 1, by omega⟩
    rw [hr, Nat.mul_succ] at hlong
    have hmore : w.layout.chunkCapacity < view.length := by omega
    have hlen : (batch ++ [view.take w.layout.chunkCapacity]).length = batch.length + 1 := by
      rw [List.length_append, List.length_singleton]
    rw [queueFull, exec_bind_ok (exec_get _)]
    refine (congrArg (fun x => exec x _) (if_pos hmore)).trans ?_
    rcases Nat.eq_zero_or_pos room with h0 | hroom'
    · -- the batch is full
      have hfull : batch.length + 1 = batchBlocks * w.workers := by omega
      have hflush := exec_flush_lost (P := P) (w := { w with
        batch := batch ++ [view.take w.layout.chunkCapacity] }) hfail
        (List.append_ne_nil_of_right_ne_nil _ (List.cons_ne_nil _ _))
        (by show w.nextIndex + (batch ++ [_]).length ≤ _; omega) false
      have hqueue : exec (queue P fails (view.take w.layout.chunkCapacity)) { w with batch } =
          (.error .sinkError, w.lost (batchBlocks * w.workers)) := by
        rw [queue, exec_bind_ok (exec_modify _ _), exec_bind_ok (exec_get _)]
        refine (congrArg (fun x => exec x _) (if_pos ?_)).trans (hflush.trans ?_)
        · show batchBlocks * w.workers ≤ (batch ++ [_]).length
          omega
        · show (_, lost _ (batch ++ [_]).length) = _
          rw [hlen, hfull]
          rfl
      exact exec_bind_error hqueue
    · have hqueue : exec (queue P fails (view.take w.layout.chunkCapacity)) { w with batch } =
          (.ok (), { w with batch := batch ++ [view.take w.layout.chunkCapacity] }) := by
        rw [queue, exec_bind_ok (exec_modify _ _), exec_bind_ok (exec_get _)]
        refine (congrArg (fun x => exec x _) (if_neg ?_)).trans rfl
        show ¬ batchBlocks * w.workers ≤ (batch ++ [_]).length
        omega
      refine (exec_bind_ok hqueue).trans (ih (view.drop w.layout.chunkCapacity)
        (batch ++ [view.take w.layout.chunkCapacity]) (by omega) ?_ ?_)
      · rw [hlen, List.length_drop, show batchBlocks * w.workers - (batch.length + 1) = room by omega]
        omega
      · rw [List.length_drop]
        omega

/-- A write of more than a batch, whose first slot cannot be stored: what is left does not depend on
    what was handed over. -/
theorem exec_write_lost (hopen : w.closed = false) (hpending : w.pending = []) (hbatch : w.batch = [])
    (hfail : fails w.emits = true) (hroom : w.nextIndex + batchBlocks * w.workers ≤ maxBlocks)
    (hworkers : 0 < w.workers) {data : Bytes}
    (hlong : w.layout.chunkCapacity * (batchBlocks * w.workers) < data.length) :
    exec (write P fails data) w = (.error .sinkError, w.lost (batchBlocks * w.workers)) := by
  have hfill : exec (fillPending P fails data) w = (.ok data, w) := by
    rw [fillPending, exec_bind_ok (exec_get _), if_neg fun h => h.1 hpending]
    rfl
  have hsame : { w with batch := [] } = w := by
    rw [← hbatch]
  have hfull := exec_queueFull_lost (P := P) hfail hroom data.length data [] (by
    show 0 < 16 * w.workers
    omega) hlong (Nat.le_refl _)
  rw [hsame] at hfull
  rw [write, exec_bind_ok (Contents.exec_ensureOpen hopen), exec_bind_ok hfill, exec_bind_error hfull]

/-- A sink whose second write fails. -/
def second (i : Nat) : Bool := i == 1

/-- **A failure within a write** that filled a batch: the writer is closed without an error, and
    whatever the two payloads were, the sink holds the same. -/
theorem closed_gap : ∃ w, create .plain second .plain [] {} .small 1 0 = .ok w ∧
    ∃ byte ∈ [(0 : UInt8), 1], ∃ summary t,
      exec (close .plain second) (exec (writes .plain second [List.replicate 7681 byte]) w).2 =
        (.ok summary, t) ∧
      ¬ Reads .plain t.out [] false (List.replicate 7681 byte) := by
  have hreturns : ∃ w, create .plain never .plain [] {} .small 1 0 = .ok w :=
    create_returns .plain [] rfl layoutProblem_small le_rfl (by decide)
  obtain ⟨w, hnever⟩ := hreturns
  have hcreate : create .plain second .plain [] {} .small 1 0 = .ok w :=
    (create_eq rfl _ _ _ _ _ _).trans hnever
  obtain ⟨-, -, hheader⟩ := create_ok hnever
  obtain ⟨-, header, hw⟩ := create_parts hcreate
  have hlayout : w.layout = .small := hheader.layout
  have hworkers : w.workers = 1 := by rw [hw]; rfl
  have hindex : w.nextIndex = 0 := by rw [hw]; rfl
  have hemits : w.emits = 1 := by rw [hw]; rfl
  have hopen : Open w := open_of_fresh (create_ok hnever).1
  have hlost (byte : UInt8) :
      (exec (writes .plain second [List.replicate 7681 byte]) w).2 = w.lost 16 := by
    have hwrite : exec (write .plain second (List.replicate 7681 byte)) w =
        (.error .sinkError, w.lost (batchBlocks * w.workers)) := exec_write_lost
      hopen.closed (by rw [hw]; rfl) (by rw [hw]; rfl)
      (by rw [hemits]; rfl) (by rw [hindex, hworkers]; decide) (by rw [hworkers]; decide)
      (by rw [hlayout, hworkers, List.length_replicate]; decide)
    rw [exec_writes_cons, writes, exec_forM_nil, hwrite, hworkers]
    rfl
  obtain ⟨summary, t, hclose⟩ : ∃ summary t,
      exec (close .plain second) (w.lost 16) = (.ok summary, t) := by
    have hworks (m : Nat) : Works second (w.lost 16).emits m := fun i hi _ => by
      have h2 : w.emits + 1 ≤ i := hi
      exact beq_false_of_ne (by omega)
    rw [(follows_close (P := .plain)).same (hworks _)]
    refine close_returns ⟨hopen.closed, hopen.summary, ?_⟩ ?_
    · show w.nextIndex + 16 ≤ maxBlocks
      rw [hindex]
      decide
    · show w.nextIndex + 16 + 0 + 1 ≤ maxBlocks
      rw [hindex]
      decide
  refine ⟨w, hcreate, ?_⟩
  by_contra hnone
  have hread (byte : UInt8) (hbyte : byte ∈ [(0 : UInt8), 1]) :
      Reads .plain t.out [] false (List.replicate 7681 byte) := by
    by_contra hnot
    exact hnone ⟨byte, hbyte, summary, t, by rw [hlost]; exact hclose, hnot⟩
  have hsame := (hread 0 (by decide)).unique (hread 1 (by decide))
  exact absurd (congrArg (List.getD · 0 0) hsame) (by decide)

end StreamWriter

end Dbs

/-
  File:      Dbs/Container/Schedule.lean
  Subject:   THE THREE DESCRIPTIONS OF ONE ORDER (container/stream.py): the schedule that knows the
             number of blocks, the writer that does not, and the formula for a first copy.

  * `BothCopies` -- a schedule has both copies of a block, once each, the first one in front;
  * `Placed` -- the writer after some slots: what it stored, and its window; `exec_place_slot` -- one
    more slot;
  * `exec_placeAll` -- the slots so far, in the order of any schedule that goes on;
  * `schedule_agrees` -- all slots and the window behind them: the schedule.
-/
import Dbs.Container.Written

namespace Dbs

open Octets Effects

/-! ## 1. The schedule -/

/-- Both copies of a block, once each: the first at the formula's position, in front of the second. -/
structure BothCopies (entries : List (Nat × Nat × Bool)) (index interleave : Nat) : Prop where
  first : entries.filter (fun e => e.2 = (index, true)) =
    [(firstCopyPosition index interleave, index, true)]
  second : ∃ position, firstCopyPosition index interleave < position ∧
    entries.filter (fun e => e.2 = (index, false)) = [(position, index, false)]

/-- What occurs at one place only is filtered alone. -/
theorem filter_eq_singleton {α : Type} {l : List α} {p : α → Bool} {i : Nat} {a : α}
    (hi : l[i]? = some a)
    (hp : p a = true) (honly : ∀ j b, l[j]? = some b → p b = true → j = i) : l.filter p = [a] := by
  induction l generalizing i with
  | nil => cases hi
  | cons b l ih =>
    cases i with
    | zero =>
      cases hi
      have hnone : l.filter p = [] := by
        refine List.filter_eq_nil_iff.mpr fun c hc hpc => ?_
        obtain ⟨j, hj⟩ := List.mem_iff_getElem?.mp hc
        exact absurd (honly (j + 1) c hj hpc) (Nat.succ_ne_zero j)
      rw [List.filter_cons_of_pos hp, hnone]
    | succ i =>
      have hb : ¬ p b = true := fun hpb => absurd (honly 0 b rfl hpb) (Nat.succ_ne_zero i).symm
      rw [List.filter_cons_of_neg hb]
      exact ih hi fun j c hj hc => Nat.succ.inj (honly (j + 1) c hj hc)

/-- An entry of the schedule stands at the position it names. -/
theorem schedule_getElem? {blocks interleave position : Nat} {e : Nat × Nat × Bool}
    (h : (schedule blocks interleave)[position]? = some e) :
    e.2.1 < blocks ∧ e.1 = copyPosition blocks interleave e.2 ∧ e.1 = position := by
  have hpos : e.1 = position := by
    rw [schedule, List.getElem?_map, List.getElem?_zipIdx, Option.map_map, Option.map_eq_some_iff] at h
    obtain ⟨copy, -, rfl⟩ := h
    exact Nat.zero_add position
  rw [schedule_eq, List.getElem?_map, Option.map_eq_some_iff] at h
  obtain ⟨copy, hcopy, rfl⟩ := h
  exact ⟨mem_copies.mp (List.mem_of_getElem? hcopy), rfl, hpos⟩

theorem schedule_at {blocks interleave : Nat} {copy : Nat × Bool} (h : copy.1 < blocks) :
    (schedule blocks interleave)[copyPosition blocks interleave copy]? =
      some (copyPosition blocks interleave copy, copy) := by
  rw [schedule_eq, List.getElem?_map, copies_getElem? h]
  rfl

theorem schedule_filter {blocks interleave : Nat} {copy : Nat × Bool} (h : copy.1 < blocks) :
    (schedule blocks interleave).filter (fun e => e.2 = copy) =
      [(copyPosition blocks interleave copy, copy)] := by
  refine filter_eq_singleton (schedule_at h) (decide_eq_true rfl) fun j e hj he => ?_
  obtain ⟨-, hplace, hpos⟩ := schedule_getElem? hj
  rw [← hpos, hplace, of_decide_eq_true he]

theorem schedule_bothCopies {blocks interleave index : Nat} (h : index < blocks) :
    BothCopies (schedule blocks interleave) index interleave := by
  refine ⟨@schedule_filter _ _ (index, true) h, secondCopyPosition index blocks interleave, ?_,
    @schedule_filter _ _ (index, false) h⟩
  exact Nat.lt_of_le_of_lt (Nat.le_add_right _ _) (copies_apart h)

theorem schedule_positions (blocks interleave : Nat) :
    (schedule blocks interleave).map Prod.fst = List.range (2 * blocks) := by
  refine List.ext_getElem? fun i => ?_
  rw [List.getElem?_map]
  rcases Nat.lt_or_ge i (2 * blocks) with hi | hi
  · rw [List.getElem?_range hi]
    obtain ⟨e, he⟩ : ∃ e, (schedule blocks interleave)[i]? = some e :=
      ⟨_, List.getElem?_eq_getElem (by rwa [schedule_length])⟩
    rw [he, Option.map_some, (schedule_getElem? he).2.2]
  · rw [List.getElem?_eq_none (by rwa [schedule_length]),
      List.getElem?_eq_none (by rwa [List.length_range])]
    rfl

/-! ## 2. The writer -/

namespace StreamWriter

variable {w v : StreamWriter} {done : List Bytes}

/-- The slots of the first `n` steps of a schedule of that many blocks. -/
def stepSlots (slots : List Bytes) (blocks interleave n : Nat) : Bytes :=
  (((List.range n).flatMap (scheduleStep blocks interleave)).map fun copy =>
    slots.getD copy.1 []).flatten

/-- The writer `v` is `w` after it placed the slots `done`: the last ones are in its window, and those
    before them are stored twice. -/
structure Placed (w v : StreamWriter) (done : List Bytes) : Prop where
  header : v.header = w.header
  window : v.window = done.drop (done.length - w.layout.interleave)
  out : v.out = w.out ++ stepSlots done done.length w.layout.interleave done.length

theorem Placed.start (h : w.window = []) : Placed w w [] :=
  ⟨rfl, h.trans List.drop_nil.symm, by simp [stepSlots]⟩

/-- The steps so far are the same for every number of blocks that is not smaller, and for all slots that
    begin so. -/
theorem stepSlots_congr {more : List Bytes} {blocks interleave : Nat} (h : done.length ≤ blocks) :
    stepSlots (done ++ more) blocks interleave done.length =
      stepSlots done done.length interleave done.length := by
  have hsteps : (List.range done.length).flatMap (scheduleStep blocks interleave) =
      (List.range done.length).flatMap (scheduleStep done.length interleave) := by
    refine List.flatMap_congr fun k hk => ?_
    have hk := List.mem_range.mp hk
    rw [scheduleStep, scheduleStep, if_pos hk, if_pos (Nat.lt_of_lt_of_le hk h)]
  rw [stepSlots, stepSlots, hsteps]
  refine congrArg List.flatten (List.map_congr_left fun copy hc => ?_)
  obtain ⟨k, hk, hcopy⟩ := List.mem_flatMap.mp hc
  have hk := List.mem_range.mp hk
  have hlt : copy.1 < done.length := by
    rw [scheduleStep, if_pos hk] at hcopy
    rcases List.mem_append.mp hcopy with hcopy | hcopy
    · rw [List.mem_singleton.mp hcopy]
      exact hk
    · split at hcopy
      · rw [List.mem_singleton.mp hcopy]
        exact Nat.lt_of_le_of_lt (Nat.sub_le _ _) hk
      · cases hcopy
  rw [List.getD_eq_getElem?_getD, List.getElem?_append_left hlt, List.getD_eq_getElem?_getD]

theorem stepSlots_succ (done : List Bytes) (slot : Bytes) (interleave : Nat) :
    stepSlots (done ++ [slot]) (done.length + 1) interleave (done.length + 1) =
      stepSlots done done.length interleave done.length ++ (slot ++
        if interleave ≤ done.length then (done ++ [slot]).getD (done.length - interleave) []
          else []) := by
  have hfront : stepSlots (done ++ [slot]) (done.length + 1) interleave done.length =
      stepSlots done done.length interleave done.length := stepSlots_congr (Nat.le_succ done.length)
  have hself : (done ++ [slot]).getD done.length [] = slot := by
    rw [List.getD_eq_getElem?_getD, List.getElem?_concat_length]
    rfl
  rw [← hfront, stepSlots, List.range_succ, List.flatMap_append, List.map_append, List.flatten_append,
    ← stepSlots, List.flatMap_singleton, scheduleStep, if_pos (Nat.lt_succ_self _)]
  refine congrArg (_ ++ ·) ?_
  split
  · rw [List.map_append, List.map_singleton, List.map_singleton, hself]
    simp
  · rw [List.append_nil, List.append_nil, List.map_singleton, hself]
    simp

/-- **One more slot is placed.** -/
theorem exec_place_slot (h : Placed w v done) (slot : Bytes) :
    ∃ t, exec (place never slot) v = (.ok (), t) ∧ Placed w t (done ++ [slot]) := by
  have hlay : v.layout.interleave = w.layout.interleave := by rw [layout, h.header, layout]
  have hlen : (done ++ [slot]).length = done.length + 1 := List.length_append
  have hwindow : v.window.length = done.length - (done.length - w.layout.interleave) := by
    rw [h.window, List.length_drop]
  have hwith : v.window ++ [slot] = (done ++ [slot]).drop (done.length - w.layout.interleave) := by
    rw [h.window, List.drop_append_of_le_length (Nat.sub_le _ _)]
  have hsteps := stepSlots_succ done slot w.layout.interleave
  by_cases hI : w.layout.interleave ≤ done.length
  · have hlt : done.length - w.layout.interleave < (done ++ [slot]).length := by omega
    have hsplit := List.drop_eq_getElem_cons hlt
    rw [← hwith] at hsplit
    refine ⟨_, exec_place_of_lt (by rw [hlay, hwindow]; omega) hsplit, h.header, ?_, ?_⟩
    · show (done ++ [slot]).drop (done.length - w.layout.interleave + 1) = _
      rw [hlen]
      congr 1
      omega
    · show v.out ++ slot ++ (done ++ [slot])[done.length - w.layout.interleave] = _
      rw [hlen, hsteps, if_pos hI, h.out, List.getD_eq_getElem _ _ hlt]
      simp only [List.append_assoc]
  · refine ⟨_, exec_place_of_le (by rw [hlay, hwindow]; omega), h.header, ?_, ?_⟩
    · show v.window ++ [slot] = _
      rw [hwith, hlen]
      congr 1
      omega
    · show v.out ++ slot = _
      rw [hlen, hsteps, if_neg hI, h.out]
      simp only [List.append_assoc, List.append_nil]

/-- **The slots so far** stand as in every schedule that goes on. -/
theorem exec_placeAll (h : Placed w v done) (slots : List Bytes) :
    ∃ t, exec (slots.forM (place never)) v = (.ok (), t) ∧ Placed w t (done ++ slots) := by
  induction slots generalizing v done with
  | nil => exact ⟨v, rfl, by rwa [List.append_nil]⟩
  | cons slot slots ih =>
    obtain ⟨u, hu, hplaced⟩ := exec_place_slot h slot
    obtain ⟨t, ht, hall⟩ := ih hplaced
    refine ⟨t, ?_, by rwa [List.append_assoc] at hall⟩
    rw [exec_forM_cons, hu]
    exact ht

/-- Behind the last first copy only second copies are left: those in the window. -/
theorem stepSlots_add (slots : List Bytes) (interleave t : Nat) :
    stepSlots slots slots.length interleave (slots.length + t) =
      stepSlots slots slots.length interleave slots.length ++
        ((slots.take (slots.length + t - interleave)).drop (slots.length - interleave)).flatten := by
  induction t with
  | zero =>
    have hlen : (slots.take (slots.length - interleave)).length ≤ slots.length - interleave :=
      List.length_take_le _ _
    rw [Nat.add_zero, List.drop_of_length_le hlen, List.flatten_nil, List.append_nil]
  | succ t ih =>
    rw [← Nat.add_assoc, stepSlots, List.range_succ, List.flatMap_append, List.map_append,
      List.flatten_append, ← stepSlots, ih, List.append_assoc, List.flatMap_singleton, scheduleStep,
      if_neg (by omega), List.nil_append]
    refine congrArg (_ ++ ·) ?_
    split
    · rename_i hle
      rw [Nat.succ_sub hle]
      rcases Nat.lt_or_ge (slots.length + t - interleave) slots.length with hlt | hge
      · rw [← List.take_concat_get' _ _ hlt, List.drop_append_of_le_length, List.flatten_append,
          List.map_singleton, List.getD_eq_getElem _ _ hlt]
        rw [List.length_take]
        omega
      · -- no slot is left
        rw [List.take_of_length_le hge, List.take_of_length_le (Nat.le_succ_of_le hge),
          List.map_singleton, List.getD_eq_default _ _ hge]
        simp
    · rename_i hlt
      rw [show slots.length + t + 1 - interleave = slots.length + t - interleave by omega]
      simp

/-- The slots are placed, and what is left in the window is stored. -/
def placeAll (fails : Nat → Bool) (slots : List Bytes) : Writing Unit := do
  slots.forM (place fails)
  drainWindow fails (← get).window.length

/-- **A writer that places its slots one after another** and empties its window stores the schedule. -/
theorem exec_placeAll_schedule (h : w.window = []) (slots : List Bytes) :
    ∃ t, exec (placeAll never slots) w = (.ok (), t) ∧
      t.out = w.out ++ ((schedule slots.length w.layout.interleave).map
        fun e => slots.getD e.2.1 []).flatten := by
  obtain ⟨v, hv, hplaced⟩ := exec_placeAll (Placed.start h) slots
  rw [List.nil_append] at hplaced
  refine ⟨Contents.drained v, ?_, ?_⟩
  · rw [placeAll, exec_bind_ok hv, exec_bind_ok (exec_get _)]
    exact Contents.exec_drainWindow v.window v rfl
  · have hall := stepSlots_add slots w.layout.interleave w.layout.interleave
    rw [Nat.add_sub_cancel, List.take_length] at hall
    show v.out ++ v.window.flatten = _
    rw [hplaced.out, hplaced.window, List.append_assoc, ← hall, schedule_eq, List.map_map]
    rfl

end StreamWriter

/-! ## 3. One order -/

/-- **The schedule, the writer and the formula agree**: both copies of every block once, the first one
    in front and at its formula's place; a writer stores whatever slots it is given in that order; and
    so does every run of a writer that finishes. -/
theorem schedule_agrees (blocks interleave : Nat) :
    (schedule blocks interleave).length = 2 * blocks ∧
    (schedule blocks interleave).map Prod.fst = List.range (2 * blocks) ∧
    (∀ e ∈ schedule blocks interleave, e.2.1 < blocks) ∧
    (∀ index < blocks, BothCopies (schedule blocks interleave) index interleave) ∧
    (∀ (w : StreamWriter) (slots : List Bytes), w.window = [] → w.layout.interleave = interleave →
      slots.length = blocks → ∃ t, exec (StreamWriter.placeAll never slots) w = (.ok (), t) ∧
        t.out = w.out ++ ((schedule blocks interleave).map fun e => slots.getD e.2.1 []).flatten) ∧
    ∀ (P : Primitives) (drawn : Drawn) (passphrase : Bytes) (params : KDFParams) (layout : StreamLayout)
      (workers flags : Nat) (w : StreamWriter) (pieces : List Bytes) (C : Bytes),
      StreamWriter.create P never drawn passphrase params layout workers flags = .ok w →
      written P w pieces = some C → w.layout.interleave = interleave →
      (contentsOf w pieces).blocks = blocks →
      slice C headerSize (2 * blocks * w.layout.slotSize) =
        ((schedule blocks interleave).map fun e => (contentsOf w pieces).slot P e.2.1).flatten := by
  refine ⟨schedule_length _ _, schedule_positions _ _, ?_, fun _ h => schedule_bothCopies h, ?_, ?_⟩
  · intro e he
    obtain ⟨position, hposition⟩ := List.mem_iff_getElem?.mp he
    exact (schedule_getElem? hposition).1
  · rintro w slots hwindow rfl rfl
    exact StreamWriter.exec_placeAll_schedule hwindow slots
  · rintro P drawn passphrase params layout workers flags w pieces C hw hC rfl rfl
    obtain ⟨-, rfl⟩ := written_ok hw hC
    have hslots : ((schedule (contentsOf w pieces).blocks w.layout.interleave).map
        fun e => (contentsOf w pieces).slot P e.2.1).flatten =
          ((contentsOf w pieces).slots P).flatten := by
      rw [schedule_eq, List.map_map]
      rfl
    have hlen : ((contentsOf w pieces).slots P).flatten.length =
        2 * (contentsOf w pieces).blocks * w.layout.slotSize :=
          (contentsOf w pieces).flatten_slots_length P
    rw [hslots, ← hlen, Contents.bytes, List.append_assoc, List.append_assoc, List.append_assoc,
      slice_append_right _ _ _ (by rw [StreamHeader.seal_length]), StreamHeader.seal_length,
      Nat.sub_self]
    exact List.take_left' rfl

end Dbs

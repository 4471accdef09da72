/-
  File:      Dbs/Container/Resolve.lean
  Subject:   WHAT A PASS HANDS ON: every block once, in the order of the indices, and each one settled
             by its two stored copies alone.

  A pass keeps blocks back, for their second copy or for the blocks before them. `outcome` says what
  becomes of a block from its two slots; the run lemma `ends_resolved` says that the caller receives
  exactly the outcomes, whatever the schedule, and is the rule every property of a reader rests on.

  * `slots_eq`, `arrivals_eq` -- reading in batches gives the slot of every copy;
  * `At` -- the state after `A` first and `B` second copies; `ends_arrive_first`,
    `ends_arrive_second`, `ends_release` -- one step each;
  * `ends_resolved` -- the rule: what every arrival and every delivery carries on holds at the end.
-/
import Dbs.Container.Reader
import Dbs.Container.Contents

namespace Dbs

open Octets Effects

namespace StreamReader

variable (P : Primitives) (r : StreamReader)

/-! ## 1. Slots -/

theorem pieces_range {n N : Nat} {q : List Nat} (hq : q ∈ pieces n (List.range N)) :
    q = List.range' (q.headD 0) q.length := by
  obtain ⟨i, -, rfl⟩ := List.mem_map.mp hq
  have hs : slice (List.range N) (i * n) n = List.range' (i * n) (min n (N - i * n)) := by
    refine List.ext_getElem (by simp [slice_length]) fun j h1 h2 => ?_
    simp [slice]
  rw [hs, List.length_range']
  rcases Nat.eq_zero_or_pos (min n (N - i * n)) with h | h
  · rw [h]; rfl
  · obtain ⟨k, hk⟩ : ∃ k, min n (N - i * n) = k + 1 := ⟨_, (Nat.succ_pred_eq_of_pos h).symm⟩
    rw [hk, List.range'_succ]
    rfl

/-- **Reading in batches** gives every slot at its position. -/
theorem slots_eq : r.slots = (List.range (2 * r.blocks)).map (slotAt r.layout r.source) := by
  have hbatch : ∀ q ∈ pieces readBatchSlots (List.range (2 * r.blocks)),
      ((List.range q.length).map fun number =>
        slice (readAt r.source (headerSize + q.headD 0 * r.layout.slotSize)
          (q.length * r.layout.slotSize)) (number * r.layout.slotSize) r.layout.slotSize) =
      q.map (slotAt r.layout r.source) := by
    intro q hq
    conv_rhs => rw [pieces_range hq]
    rw [List.range'_eq_map_range, List.map_map]
    refine List.map_congr_left fun k hk => ?_
    have hlt : k + 1 ≤ q.length := List.mem_range.mp hk
    have hle := Nat.mul_le_mul_right r.layout.slotSize hlt
    rw [Nat.succ_mul] at hle
    rw [readAt, slice_slice hle, Function.comp_apply, slotAt, Nat.add_mul, Nat.add_assoc]
  rw [slots, List.flatMap_def, List.map_congr_left hbatch, ← List.map_flatten,
    pieces_flatten (by decide)]

/-- The slot of a copy, as the reader finds it. -/
def copyAt (copy : Nat × Bool) : Bytes :=
  slotAt r.layout r.source (copyPosition r.blocks r.layout.interleave copy)

theorem arrivals_eq : (copies r.blocks r.layout.interleave).zip r.slots =
    (copies r.blocks r.layout.interleave).map fun copy => (copy, r.copyAt copy) := by
  have hz : ∀ (L : List (Nat × Bool)) (f : Nat → Bytes),
      L.zip ((List.range L.length).map f) = L.zipIdx.map fun (copy, p) => (copy, f p) := by
    intro L f
    refine List.ext_getElem (by simp) fun i h1 h2 => ?_
    simp
  have hl := copies_length r.blocks r.layout.interleave
  rw [slots_eq, ← hl, hz]
  unfold copies
  rw [steps_zipIdx, List.map_map]
  rfl

/-! ## 2. Outcomes -/

/-- The block of an intact first copy. -/
def intact (index : Nat) : Option Block := r.clean P (r.copyAt (index, true)) index

/-- A copy that is there in full. -/
def whole (copy : Nat × Bool) : Option Bytes :=
  if (r.copyAt copy).length == r.layout.slotSize then some (r.copyAt copy) else none

/-- **What becomes of a block**, from its two copies. -/
def outcome (index : Nat) : Option Block :=
  match r.intact P index with
  | some block => some block
  | none => (r.repair P {} index (r.whole (index, true)) (r.whole (index, false))).1

/-- The report does not change which block a repair gives. -/
theorem repair_fst (report report' : StreamRepairReport) (index : Nat) (first second : Option Bytes) :
    (r.repair P report index first second).1 = (r.repair P report' index first second).1 := by
  unfold repair
  cases second.bind fun raw => r.clean P raw index with
  | some block => rfl
  | none =>
    simp only
    split
    · rfl
    cases (Rs.repairFromCopies P.codec ((first.toList ++ second.toList).map
        fun raw => raw.take r.layout.encodedSize) r.layout.nsym).data with
    | none => rfl
    | some data =>
      simp only
      cases r.chunkLen data index with
      | none => rfl
      | some chunkLen =>
        simp only
        split
        · rfl
        · split <;> rfl

theorem clean_eq_none {raw : Bytes} (h : raw.length ≠ r.layout.slotSize) (index : Nat) :
    r.clean P raw index = none := by
  rw [clean, if_pos h]

/-- What the arrival of a copy does to the report. -/
def noteComplete (copy : Nat × Bool) (report : StreamRepairReport) : StreamRepairReport :=
  if (r.copyAt copy).length == r.layout.slotSize then report
  else { report with copiesAvailable := 1 }

def firstReport (index : Nat) (report : StreamRepairReport) : StreamRepairReport :=
  let report := r.noteComplete (index, true) report
  if (r.intact P index).isSome then { report with blocksDirect := report.blocksDirect + 1 }
  else report

def secondReport (checkSpares : Bool) (index : Nat) (report : StreamRepairReport) :
    StreamRepairReport :=
  let report := r.noteComplete (index, false) report
  match r.intact P index with
  | none =>
    let (block, report) := r.repair P report index (r.whole (index, true)) (r.whole (index, false))
    if block.isNone then { report with failedBlocks := report.failedBlocks ++ [index] } else report
  | some block =>
    if checkSpares && !r.spareIntact P (r.copyAt (index, false)) (some block.tag) then
      { report with sparesDamaged := report.sparesDamaged ++ [index] }
    else report

/-! ## 3. Arrivals -/

section Arrivals

variable {ω : Type} (checkSpares : Bool)

variable {index : Nat}

theorem exec_arrive_intact {block : Block} (h : r.intact P index = some block) (s : Pass ω) :
    exec (r.arrive P checkSpares ((index, true), r.copyAt (index, true))) s = (.ok (), { s with
      report := r.firstReport P index s.report
      ready := Function.update s.ready index (some (some block))
      firstTags := if checkSpares then Function.update s.firstTags index (some block.tag)
        else s.firstTags }) := by
  have hc : ((r.copyAt (index, true)).length == r.layout.slotSize) = true := by
    by_contra hne
    rw [intact, r.clean_eq_none P (by simpa using hne)] at h
    cases h
  have hi : r.clean P (r.copyAt (index, true)) index = some block := h
  simp only [arrive, hc, Bool.not_true, Bool.false_eq_true, if_false, if_true, hi]
  rw [exec_bind_ok (exec_get _), exec_set]
  simp only [firstReport, noteComplete, hc, h, Option.isSome_some, if_true]

theorem exec_arrive_waiting (h : r.intact P index = none) (s : Pass ω) :
    exec (r.arrive P checkSpares ((index, true), r.copyAt (index, true))) s = (.ok (), { s with
      report := r.firstReport P index s.report
      waiting := Function.update s.waiting index (some (r.whole (index, true))) }) := by
  have hi : r.clean P (r.copyAt (index, true)) index = none := h
  by_cases hc : ((r.copyAt (index, true)).length == r.layout.slotSize) = true
  · simp only [arrive, hc, Bool.not_true, Bool.false_eq_true, if_false, if_true, hi]
    rw [exec_bind_ok (exec_get _), exec_set]
    simp only [firstReport, noteComplete, whole, hc, h, Option.isSome_none, Bool.false_eq_true,
      if_true, if_false]
  · simp only [Bool.not_eq_true] at hc
    simp only [arrive, hc, Bool.not_false, Bool.false_eq_true, if_false, if_true]
    rw [exec_bind_ok (exec_modify _ _), exec_bind_ok (exec_get _), exec_set]
    simp only [firstReport, noteComplete, whole, hc, h, Option.isSome_none, Bool.false_eq_true,
      if_false]

theorem exec_arrive_settling (h : r.intact P index = none) {s : Pass ω}
    (hw : s.waiting index = some (r.whole (index, true))) :
    exec (r.arrive P checkSpares ((index, false), r.copyAt (index, false))) s = (.ok (), { s with
      report := r.secondReport P checkSpares index s.report
      waiting := Function.update s.waiting index none
      ready := Function.update s.ready index (some (r.outcome P index)) }) := by
  have ho : ∀ report, (r.repair P report index (r.whole (index, true)) (r.whole (index, false))).1 =
      r.outcome P index := by
    intro report
    rw [r.repair_fst P report {}, outcome, h]
  by_cases hc : ((r.copyAt (index, false)).length == r.layout.slotSize) = true
  · have hwhole : some (r.copyAt (index, false)) = r.whole (index, false) := by
      rw [whole, if_pos hc]
    simp only [arrive, hc, Bool.not_true, Bool.false_eq_true, if_false, if_true]
    rw [exec_bind_ok (exec_get _), hw]
    simp only [exec_set, secondReport, noteComplete, hc, h, hwhole, ho, if_true]
  · simp only [Bool.not_eq_true] at hc
    have hwhole : none = r.whole (index, false) := by
      rw [whole, hc]
      rfl
    simp only [arrive, hc, Bool.not_false, Bool.false_eq_true, if_false, if_true]
    rw [exec_bind_ok (exec_modify _ _), exec_bind_ok (exec_get _)]
    simp only [hw]
    simp only [exec_set, secondReport, noteComplete, hc, h, hwhole, ho, Bool.false_eq_true, if_false]

theorem exec_arrive_spare {block : Block} (h : r.intact P index = some block)
    {s : Pass ω} (hw : s.waiting index = none)
    (ht : checkSpares = true → s.firstTags index = some block.tag) :
    exec (r.arrive P checkSpares ((index, false), r.copyAt (index, false))) s = (.ok (), { s with
      report := r.secondReport P checkSpares index s.report
      firstTags := if checkSpares then Function.update s.firstTags index none
        else s.firstTags }) := by
  by_cases hc : ((r.copyAt (index, false)).length == r.layout.slotSize) = true
  · simp only [arrive, hc, Bool.not_true, Bool.false_eq_true, if_false]
    rw [exec_bind_ok (exec_get _)]
    simp only [hw, secondReport, noteComplete, hc, h, if_true]
    cases checkSpares with
    | false => rfl
    | true =>
      simp only [if_true, exec_set, ht rfl, Bool.true_and]
      cases r.spareIntact P (r.copyAt (index, false)) (some block.tag) <;> rfl
  · simp only [Bool.not_eq_true] at hc
    simp only [arrive, hc, Bool.not_false, if_true, Bool.false_eq_true, if_false]
    rw [exec_bind_ok (exec_modify _ _), exec_bind_ok (exec_get _)]
    simp only [hw, secondReport, noteComplete, hc, h, Bool.false_eq_true, if_false]
    cases checkSpares with
    | false => rfl
    | true =>
      simp only [if_true, exec_set, ht rfl, Bool.true_and]
      cases r.spareIntact P (r.copyAt (index, false)) (some block.tag) <;> rfl

end Arrivals

/-! ## 4. The run -/

section Run

variable {ω : Type} (checkSpares : Bool) (consume : Nat → Option Block → Reading ω Unit)
  (J : Nat → StreamRepairReport → List Bytes → ω → Prop) (fail : Raised → Pass ω → Prop)

/-- What the caller has to show of a property `J n` of the report, the digest and its own state: it
    survives every arrival, and the delivery of block `n` takes it to `J (n + 1)`. -/
structure Carries : Prop where
  first : ∀ index n report digest out, index < r.blocks → n ≤ index → J n report digest out →
    J n (r.firstReport P index report) digest out
  second : ∀ index n report digest out, index < r.blocks → (r.intact P index = none → n ≤ index) →
    J n report digest out → J n (r.secondReport P checkSpares index report) digest out
  deliver : ∀ s : Pass ω, s.nextIndex < r.blocks → J s.nextIndex s.report s.digest s.out →
    Ends (fun _ t => (∃ report digest out, t = { s with report, digest, out }) ∧
      J (s.nextIndex + 1) t.report t.digest t.out) fail
      (exec (deliver consume s.nextIndex (r.outcome P s.nextIndex)) s)

/-- The first copies below `A` and the second copies below `B` settle block `index`. -/
def Settled (A B index : Nat) : Prop := index < A ∧ (r.intact P index ≠ none ∨ index < B)

instance (A B index : Nat) : Decidable (r.Settled P A B index) := by
  unfold Settled; infer_instance

/-- **The pass after `A` first and `B` second copies**: what is settled and not handed on is ready,
    what is not settled waits. -/
structure At (A B : Nat) (s : Pass ω) : Prop where
  le : B ≤ A
  blocks : A ≤ r.blocks
  handedOn : ∀ i < s.nextIndex, r.Settled P A B i
  ready : ∀ i, s.ready i =
    if s.nextIndex ≤ i ∧ r.Settled P A B i then some (r.outcome P i) else none
  waiting : ∀ i, s.waiting i =
    if B ≤ i ∧ i < A ∧ r.intact P i = none then some (r.whole (i, true)) else none
  firstTags : checkSpares = true → ∀ i block, B ≤ i → i < A → r.intact P i = some block →
    s.firstTags i = some block.tag
  holds : J s.nextIndex s.report s.digest s.out

variable {P r checkSpares consume J fail}

variable {s : Pass ω} {A B : Nat}

theorem At.nextIndex_le (h : r.At P checkSpares J A B s) : s.nextIndex ≤ A := by
  by_contra hlt
  exact absurd (h.handedOn A (by omega)).1 (by omega)

/-- A block whose first copy is not intact is not handed on before its second copy. -/
theorem At.nextIndex_le_of_waiting {A B i : Nat} (h : r.At P checkSpares J A B s)
    (hi : r.intact P i = none) (hB : B ≤ i) : s.nextIndex ≤ i := by
  by_contra hlt
  rcases (h.handedOn i (by omega)).2 with h' | h'
  · exact h' hi
  · omega

/-- **Handing on** goes up to the first block that is not settled. -/
theorem ends_release (hc : r.Carries P checkSpares consume J fail) (fuel : Nat)
    (h : r.At P checkSpares J A B s) (hf : A ≤ s.nextIndex + fuel) :
    Ends (fun _ t => r.At P checkSpares J A B t ∧ ¬ r.Settled P A B t.nextIndex) fail
      (exec (release consume fuel) s) := by
  induction fuel generalizing s with
  | zero =>
    refine ⟨h, fun hs => ?_⟩
    have := hs.1
    omega
  | succ fuel ih =>
    rw [release, exec_bind_ok (exec_get _), h.ready]
    by_cases hs : r.Settled P A B s.nextIndex
    · rw [if_pos ⟨le_rfl, hs⟩]
      simp only
      rw [exec_bind_ok (exec_set _ _)]
      have hlt : s.nextIndex < r.blocks := Nat.lt_of_lt_of_le hs.1 h.blocks
      refine ends_bind (hc.deliver { s with ready := Function.update s.ready s.nextIndex none }
        hlt h.holds) ?_
      rintro _ t ⟨⟨report, digest, out, rfl⟩, hJ⟩
      rw [exec_bind_ok (exec_modify _ _)]
      refine ih ⟨h.le, h.blocks, ?_, ?_, h.waiting, h.firstTags, hJ⟩ ?_
      · intro i hi
        have hi' : i < s.nextIndex + 1 := hi
        rcases Nat.lt_or_ge i s.nextIndex with h' | h'
        · exact h.handedOn i h'
        · rwa [show i = s.nextIndex by omega]
      · intro i
        show Function.update s.ready s.nextIndex none i =
          if s.nextIndex + 1 ≤ i ∧ r.Settled P A B i then some (r.outcome P i) else none
        rcases eq_or_ne i s.nextIndex with rfl | hne
        · rw [Function.update_self, if_neg (by omega)]
        · rw [Function.update_of_ne hne, h.ready]
          have : s.nextIndex ≤ i ↔ s.nextIndex + 1 ≤ i := by omega
          simp only [this]
      · show A ≤ s.nextIndex + 1 + fuel
        omega
    · rw [if_neg fun h' => hs h'.2]
      exact ⟨h, hs⟩

theorem settled_succ_first (hAB : B ≤ A) (i : Nat) :
    r.Settled P (A + 1) B i ↔ r.Settled P A B i ∨ (i = A ∧ r.intact P A ≠ none) := by
  unfold Settled
  constructor
  · rintro ⟨h1, h2⟩
    rcases Nat.lt_or_ge i A with h | h
    · exact Or.inl ⟨h, h2⟩
    · obtain rfl : i = A := by omega
      exact Or.inr ⟨rfl, h2.resolve_right (by omega)⟩
  · rintro (⟨h1, h2⟩ | ⟨rfl, h⟩)
    · exact ⟨by omega, h2⟩
    · exact ⟨by omega, Or.inl h⟩

theorem settled_succ_second (hlt : B < A) (i : Nat) :
    r.Settled P A (B + 1) i ↔ r.Settled P A B i ∨ i = B := by
  unfold Settled
  constructor
  · rintro ⟨h1, h2 | h2⟩
    · exact Or.inl ⟨h1, Or.inl h2⟩
    · rcases Nat.lt_or_ge i B with h | h
      · exact Or.inl ⟨h1, Or.inr h⟩
      · exact Or.inr (by omega)
  · rintro (⟨h1, h2 | h2⟩ | rfl)
    · exact ⟨h1, Or.inl h2⟩
    · exact ⟨h1, Or.inr (by omega)⟩
    · exact ⟨hlt, Or.inr (by omega)⟩

/-- **A first copy arrives.** -/
theorem ends_arrive_first (hc : r.Carries P checkSpares consume J fail)
    (h : r.At P checkSpares J A B s) (hA : A < r.blocks) :
    Ends (fun _ t => r.At P checkSpares J (A + 1) B t) fail
      (exec (r.arrive P checkSpares ((A, true), r.copyAt (A, true))) s) := by
  have hle := h.nextIndex_le
  have hJ := hc.first A _ _ _ _ hA hle h.holds
  have hset : ∀ i, r.Settled P A B i → r.Settled P (A + 1) B i := fun i hi =>
    (settled_succ_first h.le i).mpr (Or.inl hi)
  cases hi : r.intact P A with
  | some block =>
    have ho : r.outcome P A = some block := by rw [outcome, hi]
    rw [exec_arrive_intact P r checkSpares hi]
    refine ⟨Nat.le_succ_of_le h.le, hA, fun i h' => hset i (h.handedOn i h'), ?_, ?_, ?_, hJ⟩
    · intro i
      show Function.update s.ready A (some (some block)) i =
        if s.nextIndex ≤ i ∧ r.Settled P (A + 1) B i then some (r.outcome P i) else none
      rcases eq_or_ne i A with rfl | hne
      · rw [Function.update_self, ho, if_pos ⟨hle, by omega, Or.inl (by rw [hi]; nofun)⟩]
      · rw [Function.update_of_ne hne, h.ready]
        simp only [settled_succ_first h.le, hne, false_and, or_false]
    · intro i
      show s.waiting i = _
      rw [h.waiting]
      rcases eq_or_ne i A with rfl | hne
      · rw [if_neg (by omega), if_neg (by rw [hi]; nofun)]
      · have : i < A ↔ i < A + 1 := by omega
        simp only [this]
    · rintro rfl i block' hB hlt hib
      show Function.update s.firstTags A (some block.tag) i = _
      rcases eq_or_ne i A with rfl | hne
      · rw [hi] at hib
        cases hib
        exact Function.update_self ..
      · rw [Function.update_of_ne hne]
        exact h.firstTags rfl i block' hB (by omega) hib
  | none =>
    rw [exec_arrive_waiting P r checkSpares hi]
    refine ⟨Nat.le_succ_of_le h.le, hA, fun i h' => hset i (h.handedOn i h'), ?_, ?_, ?_, hJ⟩
    · intro i
      show s.ready i = _
      rw [h.ready]
      simp only [settled_succ_first h.le, hi, ne_eq, not_true_eq_false, and_false, or_false]
    · intro i
      show Function.update s.waiting A (some (r.whole (A, true))) i = _
      rcases eq_or_ne i A with rfl | hne
      · rw [Function.update_self, if_pos ⟨h.le, by omega, hi⟩]
      · have : i < A ↔ i < A + 1 := by omega
        rw [Function.update_of_ne hne, h.waiting]
        simp only [this]
    · intro hcs i block hB hlt hib
      rcases eq_or_ne i A with rfl | hne
      · rw [hi] at hib
        cases hib
      · exact h.firstTags hcs i block hB (by omega) hib

/-- **A second copy arrives.** -/
theorem ends_arrive_second (hc : r.Carries P checkSpares consume J fail)
    (h : r.At P checkSpares J A B s) (hB : B < A) :
    Ends (fun _ t => r.At P checkSpares J A (B + 1) t) fail
      (exec (r.arrive P checkSpares ((B, false), r.copyAt (B, false))) s) := by
  have hBN : B < r.blocks := Nat.lt_of_lt_of_le hB h.blocks
  have hset : ∀ i, r.Settled P A B i → r.Settled P A (B + 1) i := fun i hi =>
    (settled_succ_second hB i).mpr (Or.inl hi)
  have hJ := hc.second B _ _ _ _ hBN (fun hi => h.nextIndex_le_of_waiting hi le_rfl) h.holds
  cases hi : r.intact P B with
  | none =>
    have hle := h.nextIndex_le_of_waiting hi le_rfl
    have hw : s.waiting B = some (r.whole (B, true)) := by
      rw [h.waiting, if_pos ⟨le_rfl, hB, hi⟩]
    rw [exec_arrive_settling P r checkSpares hi hw]
    refine ⟨hB, h.blocks, fun i h' => hset i (h.handedOn i h'), ?_, ?_, ?_, hJ⟩
    · intro i
      show Function.update s.ready B (some (r.outcome P B)) i = _
      rcases eq_or_ne i B with rfl | hne
      · rw [Function.update_self, if_pos ⟨hle, hB, Or.inr (by omega)⟩]
      · rw [Function.update_of_ne hne, h.ready]
        simp only [settled_succ_second hB, hne, or_false]
    · intro i
      show Function.update s.waiting B none i = _
      rcases eq_or_ne i B with rfl | hne
      · rw [Function.update_self, if_neg (by omega)]
      · have : B ≤ i ↔ B + 1 ≤ i := by omega
        rw [Function.update_of_ne hne, h.waiting]
        simp only [this]
    · intro hcs i block hBi hlt hib
      exact h.firstTags hcs i block (by omega) hlt hib
  | some block =>
    have hw : s.waiting B = none := by
      rw [h.waiting, if_neg (by rw [hi]; nofun)]
    rw [exec_arrive_spare P r checkSpares hi hw fun hcs => h.firstTags hcs B block le_rfl hB hi]
    have hsame : ∀ i, r.Settled P A (B + 1) i ↔ r.Settled P A B i := by
      intro i
      rw [settled_succ_second hB]
      refine or_iff_left_of_imp ?_
      rintro rfl
      exact ⟨hB, Or.inl (by rw [hi]; nofun)⟩
    refine ⟨hB, h.blocks, fun i h' => hset i (h.handedOn i h'), ?_, ?_, ?_, hJ⟩
    · intro i
      show s.ready i = _
      rw [h.ready]
      simp only [hsame]
    · intro i
      show s.waiting i = _
      rw [h.waiting]
      rcases eq_or_ne i B with rfl | hne
      · rw [if_neg (by rw [hi]; nofun), if_neg (by omega)]
      · have : B ≤ i ↔ B + 1 ≤ i := by omega
        simp only [this]
    · rintro rfl i block' hBi hlt hib
      show Function.update s.firstTags B none i = _
      rw [Function.update_of_ne (by omega)]
      exact h.firstTags rfl i block' (by omega) hlt hib

/-- One turn of the loop over the slots. -/
def turn (P : Primitives) (r : StreamReader) (checkSpares : Bool)
    (consume : Nat → Option Block → Reading ω Unit) (arrival : (Nat × Bool) × Bytes) :
    Reading ω Unit := do
  r.arrive P checkSpares arrival
  release consume r.blocks

/-- The state between two turns. -/
def Between (P : Primitives) (r : StreamReader) (checkSpares : Bool)
    (J : Nat → StreamRepairReport → List Bytes → ω → Prop) (A B : Nat) (s : Pass ω) : Prop :=
  r.At P checkSpares J A B s ∧ ¬ r.Settled P A B s.nextIndex

section

variable (hc : r.Carries P checkSpares consume J fail)

include hc

theorem ends_turn_first
    (h : r.At P checkSpares J A B s) (hA : A < r.blocks) :
    Ends (fun _ t => r.Between P checkSpares J (A + 1) B t) fail
      (exec (r.turn P checkSpares consume ((A, true), r.copyAt (A, true))) s) := by
  refine ends_bind (ends_arrive_first hc h hA) fun _ t ht => ?_
  exact ends_release hc r.blocks ht (by have := ht.blocks; omega)

theorem ends_turn_second
    (h : r.At P checkSpares J A B s) (hB : B < A) :
    Ends (fun _ t => r.Between P checkSpares J A (B + 1) t) fail
      (exec (r.turn P checkSpares consume ((B, false), r.copyAt (B, false))) s) := by
  refine ends_bind (ends_arrive_second hc h hB) fun _ t ht => ?_
  exact ends_release hc r.blocks ht (by have := ht.blocks; omega)

/-- **Step by step through the schedule**: after `k` steps the first copies below `k` and the second
    copies below `k - interleave` have arrived. -/
theorem ends_steps
    (h : r.Between P checkSpares J 0 0 s) (k : Nat) (hk : k ≤ r.blocks + r.layout.interleave) :
    Ends (fun _ t => r.Between P checkSpares J (min k r.blocks) (k - r.layout.interleave) t) fail
      (exec ((((List.range k).flatMap (scheduleStep r.blocks r.layout.interleave)).map
        fun copy => (copy, r.copyAt copy)).forM (r.turn P checkSpares consume)) s) := by
  have hI := r.header.layout_valid.bounds
  rw [show r.header.layout = r.layout from rfl] at hI
  induction k with
  | zero =>
    rw [Nat.zero_sub, Nat.zero_min]
    exact h
  | succ k ih =>
    rw [List.range_succ, List.flatMap_append, List.map_append, List.flatMap_singleton,
      scheduleStep, List.map_append]
    refine ends_forM_append (ih (by omega)) fun _ t ht => ?_
    -- the first copy of the step's own block, while there is one
    have hfirst : Ends (fun _ u => r.Between P checkSpares J (min (k + 1) r.blocks)
        (k - r.layout.interleave) u) fail
        (exec (((if k < r.blocks then [(k, true)] else []).map
          fun copy => (copy, r.copyAt copy)).forM (r.turn P checkSpares consume)) t) := by
      split
      · rename_i hlt
        have hmin : min k r.blocks = k := by omega
        rw [hmin] at ht
        have h1 := ends_turn_first hc ht.1 hlt
        rw [show min (k + 1) r.blocks = k + 1 by omega]
        exact ends_bind h1 fun _ u hu => hu
      · rw [show min (k + 1) r.blocks = min k r.blocks by omega]
        exact ht
    refine ends_forM_append hfirst fun _ u hu => ?_
    split
    · rename_i hle
      have hlt : k - r.layout.interleave < min (k + 1) r.blocks := by omega
      have h2 := ends_turn_second hc hu.1 hlt
      rw [show k + 1 - r.layout.interleave = k - r.layout.interleave + 1 by omega]
      exact ends_bind h2 fun _ v hv => hv
    · rw [show k + 1 - r.layout.interleave = k - r.layout.interleave by omega]
      exact hu

end

/-- Before the first slot. -/
theorem between_start {out : ω} {report : StreamRepairReport} (h0 : J 0 report [] out) :
    r.Between P checkSpares J 0 0 ({ report, out } : Pass ω) := by
  refine ⟨⟨le_rfl, Nat.zero_le _, fun i hi => absurd hi (Nat.not_lt_zero i), fun i => ?_,
    fun i => ?_, fun _ i _ _ hi => absurd hi (Nat.not_lt_zero i), h0⟩,
    fun hs => absurd hs.1 (Nat.not_lt_zero _)⟩
  · rw [if_neg fun hs => absurd hs.2.1 (Nat.not_lt_zero i)]
  · rw [if_neg fun hs => absurd hs.2.1 (Nat.not_lt_zero i)]

/-- **The rule for a pass**: what the caller carries through every arrival and every delivery holds,
    at the end, of all blocks. -/
theorem ends_resolved (hc : r.Carries P checkSpares consume J fail) {out : ω}
    {report : StreamRepairReport} (h0 : J 0 report [] out) :
    Ends (fun _ t => J r.blocks t.report t.digest t.out) fail
      (exec (r.resolved P checkSpares consume) { report, out }) := by
  have hloop := ends_steps hc (between_start h0) (r.blocks + r.layout.interleave) le_rfl
  rw [Nat.add_sub_cancel, Nat.min_eq_right (Nat.le_add_right _ _)] at hloop
  rw [resolved, arrivals_eq]
  refine ends_bind hloop fun _ t ht => ?_
  -- every block is settled, so every block is handed on
  have hall : t.nextIndex = r.blocks := by
    have hle := ht.1.nextIndex_le
    by_contra hne
    exact ht.2 ⟨by omega, Or.inr (by omega)⟩
  rw [exec_bind_ok (exec_get _), hall, Nat.sub_self]
  exact hall ▸ ht.1.holds

/-- A pass, from its fresh report to the check of the trailer's digest. -/
theorem ends_pass (hc : r.Carries P checkSpares consume J fail) {out : ω}
    (h0 : J 0 r.freshReport [] out) :
    Ends (fun _ t => ∃ report, J r.blocks report t.digest t.out ∧
        t.report = r.checkDigest P t.digest report) fail
      (exec (r.pass P checkSpares consume) (r.start out)) := by
  rw [pass, exec_bind_ok (exec_modify _ _)]
  refine ends_bind (ends_resolved hc h0) fun _ t ht => ?_
  rw [exec_modify]
  exact ⟨t.report, ht, rfl⟩

end Run

end StreamReader

end Dbs

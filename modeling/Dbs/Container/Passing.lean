/-
  File:      Dbs/Container/Passing.lean
  Subject:   WHAT A PASS HAS IN HAND (container/stream.py, `_resolved` and `_pass`): after every slot,
             not only at the end.

  * `Due` -- which copy comes next, from how many first and second copies have come;
  * `firstSlots` -- the loop over the slots, stopped after some of them; `ends_firstSlots` -- where
    it stands then;
  * `Passing` -- the blocks so far in order, no block waiting whose second copy is gone, and no more
    in hand than the interleave and one;
  * `Vouched` -- a stored tag, or a block rebuilt without decoding and listed as unverified;
  * `passes_in_order` -- all of it for every reader; `unstored_tag` -- a healed block with a tag of
    its own.
-/
import Dbs.Container.Sparse

namespace Dbs

open Octets Effects

/-! ## 1. The copy that comes next -/

/-- The copy that comes after `A` first and `B` second copies. -/
inductive Due (blocks interleave : Nat) : Nat → Nat → Option (Nat × Bool) → Prop where
  | first {A : Nat} (h : A < blocks) : Due blocks interleave A (A - interleave) (some (A, true))
  | second {B : Nat} (h : B < blocks) :
      Due blocks interleave (min (B + interleave + 1) blocks) B (some (B, false))
  | done : Due blocks interleave blocks blocks none

section Schedule

variable {blocks interleave A B : Nat} {next : Option (Nat × Bool)}

theorem due_start (blocks interleave : Nat) : ∃ next, Due blocks interleave 0 0 next := by
  rcases Nat.eq_zero_or_pos blocks with rfl | h
  · exact ⟨_, .done⟩
  · have hfirst : Due blocks interleave 0 (0 - interleave) (some (0, true)) := .first h
    rw [Nat.zero_sub] at hfirst
    exact ⟨_, hfirst⟩

/-- After a first copy: the second copy that has waited long enough, or the next first one. -/
theorem due_succ_first (interleave : Nat) (h : A < blocks) :
    ∃ next, Due blocks interleave (A + 1) (A - interleave) next := by
  by_cases hle : interleave ≤ A
  · have hmin : min (A - interleave + interleave + 1) blocks = A + 1 := by omega
    exact ⟨_, hmin ▸ Due.second (by omega)⟩
  · have hzero : A - interleave = A + 1 - interleave := by omega
    rcases Nat.lt_or_ge (A + 1) blocks with hlt | hge
    · exact ⟨_, hzero ▸ Due.first hlt⟩
    · have hmin : min (A - interleave + interleave + 1) blocks = A + 1 := by omega
      exact ⟨_, hmin ▸ Due.second (by omega)⟩

/-- After a second copy: the next first one, or, behind the last of them, the next second one. -/
theorem due_succ_second (interleave : Nat) (h : B < blocks) :
    ∃ next, Due blocks interleave (min (B + interleave + 1) blocks) (B + 1) next := by
  rcases Nat.lt_or_ge (B + interleave + 1) blocks with hlt | hge
  · have hB : B + 1 = B + interleave + 1 - interleave := by omega
    rw [Nat.min_eq_left hlt.le, hB]
    exact ⟨_, .first hlt⟩
  · rw [Nat.min_eq_right hge]
    rcases Nat.lt_or_ge (B + 1) blocks with hlt | hge'
    · have hsecond : Due blocks interleave (min (B + 1 + interleave + 1) blocks) (B + 1)
          (some (B + 1, false)) := .second hlt
      rw [Nat.min_eq_right (by omega)] at hsecond
      exact ⟨_, hsecond⟩
    · obtain rfl : B + 1 = blocks := by omega
      exact ⟨_, .done⟩

section

variable (h : Due blocks interleave A B next)

include h

/-- **The schedule names the copy that is due.** -/
theorem Due.copies_getElem? : (copies blocks interleave)[A + B]? = next := by
  cases h with
  | first h =>
    have hpos : copyPosition blocks interleave (A, true) = A + (A - interleave) := by
      simp only [copyPosition, if_true, firstCopyPosition]
      split <;> omega
    rw [← hpos]
    exact Dbs.copies_getElem? h
  | second h =>
    have hpos : copyPosition blocks interleave (B, false) = min (B + interleave + 1) blocks + B := by
      simp only [copyPosition, Bool.false_eq_true, if_false, secondCopyPosition, Nat.add_comm]
    rw [← hpos]
    exact Dbs.copies_getElem? h
  | done => exact List.getElem?_eq_none (by rw [copies_length]; omega)

theorem Due.le : A ≤ min (B + interleave + 1) blocks := by
  cases h <;> omega

/-- A second copy that has not come is still to come. -/
theorem Due.mem_drop {i : Nat} (hB : B ≤ i) (hA : i < A) :
    (i, false) ∈ (copies blocks interleave).drop (A + B) := by
  have hle := h.le
  have hget : (copies blocks interleave)[copyPosition blocks interleave (i, false)]? =
      some (i, false) := Dbs.copies_getElem? (by show i < blocks; omega)
  have hpos : A + B ≤ copyPosition blocks interleave (i, false) := by
    simp only [copyPosition, Bool.false_eq_true, if_false, secondCopyPosition]
    omega
  rw [← Nat.add_sub_cancel' hpos, ← List.getElem?_drop] at hget
  exact List.mem_of_getElem? hget

end

end Schedule

/-! ## 2. The loop over the slots -/

namespace StreamReader

variable (P : Primitives) (r : StreamReader) (checkSpares : Bool)

/-- The loop over the slots after `n` of them. -/
def firstSlots {ω : Type} (consume : Nat → Option Block → Reading ω Unit) (n : Nat) : Reading ω Unit :=
  (((copies r.blocks r.layout.interleave).zip r.slots).take n).forM (r.turn P checkSpares consume)

variable {P r checkSpares} {ω : Type} {consume : Nat → Option Block → Reading ω Unit}
  {J : Nat → StreamRepairReport → List Bytes → ω → Prop} {fail : Raised → Pass ω → Prop}
  {A B : Nat} {s : Pass ω}

/-- What an arrival leaves of the rest: the report counts it, and nothing is handed on. -/
theorem arrive_first (A : Nat) (s : Pass ω) :
    ∃ t, exec (r.arrive P checkSpares ((A, true), r.copyAt (A, true))) s = (.ok (), t) ∧
      t.report = r.firstReport P A s.report ∧ t.nextIndex = s.nextIndex := by
  cases hi : r.intact P A with
  | some block => exact ⟨_, exec_arrive_intact P r checkSpares hi s, rfl, rfl⟩
  | none => exact ⟨_, exec_arrive_waiting P r checkSpares hi s, rfl, rfl⟩

theorem arrive_second (h : r.At P checkSpares J A B s) (hB : B < A) :
    ∃ t, exec (r.arrive P checkSpares ((B, false), r.copyAt (B, false))) s = (.ok (), t) ∧
      t.report = r.secondReport P checkSpares B s.report ∧ t.nextIndex = s.nextIndex := by
  cases hi : r.intact P B with
  | some block =>
    have hw : s.waiting B = none := by
      rw [h.waiting, if_neg (by rw [hi]; nofun)]
    exact ⟨_, exec_arrive_spare P r checkSpares hi hw
      fun hcs => h.firstTags hcs B block le_rfl hB hi, rfl, rfl⟩
  | none =>
    have hw : s.waiting B = some (r.whole (B, true)) := by
      rw [h.waiting, if_pos ⟨le_rfl, hB, hi⟩]
    exact ⟨_, exec_arrive_settling P r checkSpares hi hw, rfl, rfl⟩

/-- A caller that only keeps what it is handed leaves the report as it is. -/
theorem ends_release_report (fuel : Nat) (s : Pass (List (Nat × Option Block)))
    {fail : Raised → Pass (List (Nat × Option Block)) → Prop} :
    Ends (fun _ t => t.report = s.report) fail (exec (release handOn fuel) s) := by
  induction fuel generalizing s with
  | zero => exact rfl
  | succ fuel ih =>
    rw [release, exec_bind_ok (exec_get _)]
    cases s.ready s.nextIndex with
    | none => exact rfl
    | some block =>
      simp only
      rw [exec_bind_ok (exec_set _ _), deliver, handOn, bind_assoc,
        exec_bind_ok (exec_modify _ _), exec_bind_ok (exec_modify _ _),
        exec_bind_ok (exec_modify _ _)]
      exact ih _

end StreamReader

/-! ## 3. Tags that are stored -/

namespace StreamReader

variable (P : Primitives) (r : StreamReader)

/-- The codewords of the whole copies of a block. -/
def rebuilt (index : Nat) : Rs.Repaired :=
  Rs.repairFromCopies P.codec
    (((r.whole (index, true)).toList ++ (r.whole (index, false)).toList).map
      fun raw => raw.take r.layout.encodedSize) r.layout.nsym

/-- **The block's tag is stored** in one of its slots; or the block was joined from codewords that
    were consistent as they stood, no two copies of it agree on another tag, and the report lists it as
    unverified. -/
def Vouched (report : StreamRepairReport) (index : Nat) (block : Block) : Prop :=
  (∃ second raw, r.whole (index, second) = some raw ∧ raw.drop r.layout.encodedSize = block.tag) ∨
  ((r.rebuilt P index).data = some block.data ∧ (r.rebuilt P index).decoded = false ∧
    (∀ first second, r.whole (index, true) = some first → r.whole (index, false) = some second →
      first.drop r.layout.encodedSize ≠ second.drop r.layout.encodedSize) ∧
    index ∈ report.unverifiedBlocks)

variable {P r}

theorem Vouched.mono {report report' : StreamRepairReport} {index : Nat} {block : Block}
    (h : r.Vouched P report index block)
    (hsub : report.unverifiedBlocks ⊆ report'.unverifiedBlocks) : r.Vouched P report' index block := by
  rcases h with h | ⟨hdata, hdecoded, hdiffer, hmem⟩
  · exact Or.inl h
  · exact Or.inr ⟨hdata, hdecoded, hdiffer, hsub hmem⟩

theorem countRepair_unverifiedBlocks (report : StreamRepairReport) (sources : Finset Bool)
    (decoded : Bool) :
    (countRepair report sources decoded).unverifiedBlocks = report.unverifiedBlocks := by
  unfold countRepair
  split
  · rfl
  · split <;> rfl

theorem noteComplete_unverifiedBlocks (copy : Nat × Bool) (report : StreamRepairReport) :
    (r.noteComplete copy report).unverifiedBlocks = report.unverifiedBlocks := by
  unfold noteComplete
  split <;> rfl

theorem firstReport_unverifiedBlocks (index : Nat) (report : StreamRepairReport) :
    (r.firstReport P index report).unverifiedBlocks = report.unverifiedBlocks := by
  unfold firstReport
  simp only
  split
  · exact noteComplete_unverifiedBlocks _ _
  · exact noteComplete_unverifiedBlocks _ _

/-- The tag of a slot that is intact as it stands. -/
theorem clean_tag {raw : Bytes} {index : Nat} {block : Block} (h : r.clean P raw index = some block) :
    raw.length = r.layout.slotSize ∧ raw.drop r.layout.encodedSize = block.tag := by
  rw [clean, Option.ite_none_left_eq_some, not_not] at h
  obtain ⟨hl, h⟩ := h
  simp only [Option.ite_none_left_eq_some] at h
  obtain ⟨-, h⟩ := h
  refine ⟨hl, ?_⟩
  cases hs : Rs.stripParity (raw.take r.layout.encodedSize) r.layout.nsym with
  | none => rw [hs] at h; cases h
  | some data =>
    simp only [hs] at h
    cases hn : r.chunkLen data index with
    | none => rw [hn] at h; cases h
    | some n =>
      simp only [hn, Option.some.injEq] at h
      rw [← h]

theorem vouched_intact {report : StreamRepairReport} {index : Nat} {block : Block}
    (h : r.intact P index = some block) : r.Vouched P report index block := by
  obtain ⟨hl, htag⟩ := clean_tag h
  exact Or.inl ⟨true, _, by rw [whole, if_pos (beq_iff_eq.mpr hl)], htag⟩

/-- **A repaired block is vouched for** by the report the repair leaves, which lists what the report
    before it listed. -/
theorem vouched_repair (report : StreamRepairReport) (index : Nat) :
    report.unverifiedBlocks ⊆ (r.repair P report index (r.whole (index, true))
      (r.whole (index, false))).2.unverifiedBlocks ∧
    ∀ block, (r.repair P report index (r.whole (index, true)) (r.whole (index, false))).1 = some block →
      r.Vouched P (r.repair P report index (r.whole (index, true)) (r.whole (index, false))).2
        index block := by
  unfold repair
  cases hsecond : (r.whole (index, false)).bind fun raw => r.clean P raw index with
  | some found =>
    refine ⟨fun _ h => h, fun block hblock => Or.inl ?_⟩
    cases hblock
    obtain ⟨raw, hraw, hclean⟩ := Option.bind_eq_some_iff.mp hsecond
    exact ⟨false, raw, hraw, (clean_tag hclean).2⟩
  | none =>
    simp only
    split
    · exact ⟨fun _ h => h, fun _ h => (by cases h)⟩
    have hrebuilt : Rs.repairFromCopies P.codec
        (((r.whole (index, true)).toList ++ (r.whole (index, false)).toList).map
          fun raw => raw.take r.layout.encodedSize) r.layout.nsym = r.rebuilt P index := rfl
    rw [hrebuilt]
    cases hdata : (r.rebuilt P index).data with
    | none => exact ⟨fun _ h => h, fun _ h => (by cases h)⟩
    | some data =>
      simp only
      cases r.chunkLen data index with
      | none => exact ⟨fun _ h => h, fun _ h => (by cases h)⟩
      | some n =>
        simp only
        split
        · rename_i hmem
          refine ⟨fun _ h => by rwa [countRepair_unverifiedBlocks], fun block hblock => Or.inl ?_⟩
          cases hblock
          obtain ⟨raw, hraw, htag⟩ := List.mem_map.mp hmem
          rcases List.mem_append.mp hraw with hraw | hraw
          · exact ⟨true, raw, Option.mem_toList.mp hraw, htag⟩
          · exact ⟨false, raw, Option.mem_toList.mp hraw, htag⟩
        · split
          · exact ⟨fun _ h => h, fun _ h => (by cases h)⟩
          · rename_i hno
            refine ⟨fun _ h => ?_, fun block hblock => Or.inr ?_⟩
            · rw [countRepair_unverifiedBlocks]
              exact List.mem_append_left _ h
            · cases hblock
              refine ⟨hdata, by simpa using fun h => hno (Or.inl h), ?_, ?_⟩
              · intro first second h1 h2 hsame
                rw [h1, h2] at hno
                exact hno (Or.inr ⟨rfl, hsame⟩)
              rw [countRepair_unverifiedBlocks]
              exact List.mem_append_right _ (List.mem_singleton_self _)

/-- **After its second copy a block is vouched for**, and what was listed stays listed. -/
theorem vouched_secondReport (checkSpares : Bool) (index : Nat) (report : StreamRepairReport) :
    report.unverifiedBlocks ⊆ (r.secondReport P checkSpares index report).unverifiedBlocks ∧
    ∀ block, r.outcome P index = some block →
      r.Vouched P (r.secondReport P checkSpares index report) index block := by
  unfold secondReport outcome
  simp only
  cases hi : r.intact P index with
  | some found =>
    refine ⟨?_, fun block hblock => ?_⟩
    · simp only
      split
      · exact (noteComplete_unverifiedBlocks _ _).symm ▸ fun _ h => h
      · exact (noteComplete_unverifiedBlocks _ _).symm ▸ fun _ h => h
    · cases hblock
      exact vouched_intact hi
  | none =>
    obtain ⟨hsub, hvouched⟩ := vouched_repair (P := P) (r := r)
      (r.noteComplete (index, false) report) index
    rw [noteComplete_unverifiedBlocks] at hsub
    simp only
    refine ⟨?_, fun block hblock => ?_⟩
    · split <;> exact hsub
    · rw [r.repair_fst P _ (r.noteComplete (index, false) report)] at hblock
      rw [hblock]
      exact hvouched block hblock

end StreamReader

/-! ## 4. After every slot -/

/-- The pass has block `index` in hand: its first copy waits, or the block is ready. -/
def Pass.InHand {ω : Type} (s : Pass ω) (index : Nat) : Prop :=
  s.waiting index ≠ none ∨ s.ready index ≠ none

/-- The pass has at most `n` blocks in hand. -/
def Pass.InHandAtMost {ω : Type} (s : Pass ω) (n : Nat) : Prop :=
  ∀ held : Finset Nat, (∀ index ∈ held, s.InHand index) → held.card ≤ n

namespace StreamReader

variable {P : Primitives} {r : StreamReader} {checkSpares : Bool} {ω : Type}

/-- **What holds of a pass after `n` slots.** -/
structure Passing (P : Primitives) (r : StreamReader) (n : Nat)
    (s : Pass (List (Nat × Option Block))) : Prop where
  inOrder : s.out.map (·.1) = List.range s.nextIndex
  toCome : ∀ index, s.waiting index ≠ none →
    (index, false) ∈ (copies r.blocks r.layout.interleave).drop n
  outOfOrder : ∀ index, s.ready index ≠ none → s.nextIndex < index
  inHand : s.InHandAtMost (r.layout.interleave + 1)
  vouched : ∀ index block, (index, some block) ∈ s.out → r.Vouched P s.report index block

/-- Every block that has had its second copy is vouched for. -/
def Listed (P : Primitives) (r : StreamReader) (B : Nat) (report : StreamRepairReport) : Prop :=
  ∀ index < B, ∀ block, r.outcome P index = some block → r.Vouched P report index block

theorem Listed.mono {B : Nat} {report report' : StreamRepairReport} (h : r.Listed P B report)
    (hsub : report.unverifiedBlocks ⊆ report'.unverifiedBlocks) : r.Listed P B report' :=
  fun index hlt block hblock => (h index hlt block hblock).mono hsub

theorem Listed.second {B : Nat} {report : StreamRepairReport} (h : r.Listed P B report) :
    r.Listed P (B + 1) (r.secondReport P checkSpares B report) := by
  obtain ⟨hsub, hB⟩ := vouched_secondReport (P := P) (r := r) checkSpares B report
  intro index hlt block hblock
  rcases Nat.lt_or_ge index B with h' | h'
  · exact (h index h' block hblock).mono hsub
  · obtain rfl : index = B := by omega
    exact hB block hblock

section InHand

variable {J : Nat → StreamRepairReport → List Bytes → ω → Prop} {A B : Nat} {s : Pass ω}

/-- What is in hand lies between the second and the first copies that have come. -/
theorem At.inHand (h : r.At P checkSpares J A B s) {b : Nat} (hb : b ≤ B) (hn : b ≤ s.nextIndex)
    {index : Nat} (hi : s.InHand index) : b ≤ index ∧ index < A := by
  rcases hi with hi | hi
  · rw [h.waiting, ne_eq, ite_eq_right_iff, Classical.not_imp] at hi
    exact ⟨hb.trans hi.1.1, hi.1.2.1⟩
  · rw [h.ready, ne_eq, ite_eq_right_iff, Classical.not_imp] at hi
    exact ⟨hn.trans hi.1.1, hi.1.2.1⟩

theorem At.inHandAtMost (h : r.At P checkSpares J A B s) {b : Nat} (hb : b ≤ B) (hn : b ≤ s.nextIndex) :
    s.InHandAtMost (A - b) := by
  intro held hheld
  have hsub : held ⊆ Finset.Ico b A := fun index hi =>
    Finset.mem_Ico.mpr (h.inHand hb hn (hheld index hi))
  exact (Finset.card_le_card hsub).trans (Nat.card_Ico b A).le

theorem Between.le_nextIndex (h : r.Between P checkSpares J A B s) : B ≤ s.nextIndex := by
  by_contra hlt
  have hle := h.1.le
  exact h.2 ⟨by omega, Or.inr (by omega)⟩

end InHand

variable {A B : Nat} {s : Pass (List (Nat × Option Block))} {next : Option (Nat × Bool)}

/-- **Between two slots** everything holds. -/
theorem Between.passing (h : r.Between P checkSpares (HandedOn P r) A B s) (hl : r.Listed P B s.report)
    (hdue : Due r.blocks r.layout.interleave A B next) : r.Passing P (A + B) s := by
  have hout : s.out = (List.range s.nextIndex).map fun i => (i, r.outcome P i) := h.1.holds.1
  have hle := hdue.le
  refine ⟨?_, ?_, ?_, ?_, ?_⟩
  · rw [hout, List.map_map]
    exact List.map_id _
  · intro index hi
    rw [h.1.waiting, ne_eq, ite_eq_right_iff, Classical.not_imp] at hi
    exact hdue.mem_drop hi.1.1 hi.1.2.1
  · intro index hi
    rw [h.1.ready, ne_eq, ite_eq_right_iff, Classical.not_imp] at hi
    refine Nat.lt_of_le_of_ne hi.1.1 ?_
    rintro rfl
    exact h.2 hi.1.2
  · intro held hheld
    have := h.1.inHandAtMost le_rfl h.le_nextIndex held hheld
    omega
  · intro index block hmem
    rw [hout] at hmem
    obtain ⟨i, hi, he⟩ := List.mem_map.mp hmem
    obtain ⟨rfl, hblock⟩ := Prod.mk.inj he
    have hsettled := h.1.handedOn i (List.mem_range.mp hi)
    cases hintact : r.intact P i with
    | some found =>
      rw [outcome, hintact] at hblock
      cases hblock
      exact vouched_intact hintact
    | none =>
      rcases hsettled.2 with hne | hlt
      · exact absurd hintact hne
      · exact hl i hlt block hblock

/-- One turn of the loop, with what it leaves in the report. -/
theorem ends_turn {B' A' : Nat} {copy : Nat × Bool} {report : StreamRepairReport}
    {s : Pass (List (Nat × Option Block))} {fail : Raised → Pass (List (Nat × Option Block)) → Prop}
    (hturn : Ends (fun _ t => r.Between P checkSpares (HandedOn P r) A' B' t) fail
      (exec (r.turn P checkSpares handOn (copy, r.copyAt copy)) s))
    (hreport : ∃ t, exec (r.arrive P checkSpares (copy, r.copyAt copy)) s = (.ok (), t) ∧
      t.report = report ∧ t.nextIndex = s.nextIndex) :
    Ends (fun _ t => r.Between P checkSpares (HandedOn P r) A' B' t ∧ t.report = report) fail
      (exec (r.turn P checkSpares handOn (copy, r.copyAt copy)) s) := by
  obtain ⟨t, hexec, rfl, -⟩ := hreport
  refine hturn.and ?_
  rw [turn, exec_bind_ok hexec]
  exact ends_release_report r.blocks t

/-- What every slot keeps of the report, by the number of second copies that have come. -/
structure Reported (P : Primitives) (r : StreamReader) (checkSpares : Bool)
    (K : Nat → StreamRepairReport → Prop) : Prop where
  start : K 0 r.freshReport
  first : ∀ A B report, A < r.blocks → K B report → K B (r.firstReport P A report)
  second : ∀ B report, B < r.blocks → K B report → K (B + 1) (r.secondReport P checkSpares B report)

theorem reported_listed : r.Reported P checkSpares (r.Listed P) := by
  refine ⟨fun _ h => absurd h (Nat.not_lt_zero _), fun A B report _ h => h.mono ?_,
    fun B report _ h => h.second⟩
  rw [firstReport_unverifiedBlocks]
  exact fun _ h => h

/-- The loop after `n` slots. -/
structure Slots (P : Primitives) (r : StreamReader) (checkSpares : Bool)
    (K : Nat → StreamRepairReport → Prop) (n A B : Nat) (next : Option (Nat × Bool))
    (s : Pass (List (Nat × Option Block))) : Prop where
  due : Due r.blocks r.layout.interleave A B next
  sum : A + B = n
  between : r.Between P checkSpares (HandedOn P r) A B s
  reported : K B s.report

/-- **The loop after `n` slots.** -/
theorem ends_firstSlots {K : Nat → StreamRepairReport → Prop} (hK : r.Reported P checkSpares K)
    {n : Nat}
    (hn : n ≤ 2 * r.blocks) {fail : Raised → Pass (List (Nat × Option Block)) → Prop} :
    Ends (fun _ t => ∃ A B next, r.Slots P checkSpares K n A B next t) fail
      (exec (r.firstSlots P checkSpares handOn n) (r.start [])) := by
  have hc := carries_handOn (P := P) r checkSpares fail
  induction n with
  | zero =>
    obtain ⟨next, hdue⟩ := due_start r.blocks r.layout.interleave
    exact ⟨0, 0, next, hdue, rfl, between_start ⟨rfl, rfl⟩, hK.start⟩
  | succ n ih =>
    have hstep : ∀ t, (∃ A B next, r.Slots P checkSpares K n A B next t) →
        Ends (fun _ u => ∃ A B next, r.Slots P checkSpares K (n + 1) A B next u) fail
        (exec ((((copies r.blocks r.layout.interleave).zip r.slots)[n]?.toList).forM
          (r.turn P checkSpares handOn)) t) := by
      rintro t ⟨A, B, next, hdue, rfl, hbetween, hreported⟩
      rw [arrivals_eq, List.getElem?_map, hdue.copies_getElem?]
      cases hdue with
      | first hA =>
        have hturn := ends_turn (ends_turn_first hc hbetween.1 hA) (arrive_first A t)
        obtain ⟨next, hdue⟩ := due_succ_first r.layout.interleave hA
        refine ends_bind hturn fun _ u hu => ?_
        refine ⟨A + 1, _, next, hdue, by omega, hu.1, ?_⟩
        rw [hu.2]
        exact hK.first A _ _ hA hreported
      | @second B hB =>
        have hlt : B < min (B + r.layout.interleave + 1) r.blocks := by omega
        have hturn := ends_turn (ends_turn_second hc hbetween.1 hlt)
          (arrive_second hbetween.1 hlt)
        obtain ⟨next, hdue⟩ := due_succ_second r.layout.interleave hB
        refine ends_bind hturn fun _ u hu => ?_
        refine ⟨_, B + 1, next, hdue, by omega, hu.1, ?_⟩
        rw [hu.2]
        exact hK.second B _ hB hreported
      | done => omega
    rw [firstSlots, List.take_add_one]
    exact ends_forM_append (ih (by omega)) fun _ t ht => hstep t ht

/-- **A slot that has just come**: the current block is in hand, too. -/
theorem inHand_arrive {n : Nat} (hn : n < 2 * r.blocks)
    (hdue : Due r.blocks r.layout.interleave A B next)
    (hAB : A + B = n) (h : r.Between P checkSpares (HandedOn P r) A B s) :
    ∃ arrival u, ((copies r.blocks r.layout.interleave).zip r.slots)[n]? = some arrival ∧
      exec (r.arrive P checkSpares arrival) s = (.ok (), u) ∧
      u.InHandAtMost (r.layout.interleave + 1) := by
  have hc := carries_handOn (P := P) r checkSpares fun _ _ => False
  have hget := congrArg (Option.map fun copy => (copy, r.copyAt copy)) hdue.copies_getElem?
  have hB := h.le_nextIndex
  rw [← List.getElem?_map, ← arrivals_eq, hAB] at hget
  cases hdue with
  | first hA =>
    obtain ⟨u, hu, -, hnext⟩ := arrive_first A s
    have hat := (ends_arrive_first hc h.1 hA).of_ok hu
    refine ⟨_, u, hget, hu, fun held hheld => ?_⟩
    have := hat.inHandAtMost le_rfl (by rw [hnext]; exact hB) held hheld
    omega
  | second hlt =>
    obtain ⟨u, hu, -, hnext⟩ := arrive_second h.1 (by omega)
    have hat := (ends_arrive_second hc h.1 (by omega)).of_ok hu
    refine ⟨_, u, hget, hu, fun held hheld => ?_⟩
    have := hat.inHandAtMost (Nat.le_succ B) (by rw [hnext]; exact hB) held hheld
    omega
  | done => omega

/-- The last slot is followed by the check of the trailer's digest. -/
theorem exec_pass_of_firstSlots {t : Pass (List (Nat × Option Block))}
    (ht : exec (r.firstSlots P checkSpares handOn (2 * r.blocks)) (r.start []) = (.ok (), t))
    (hnext : t.nextIndex = r.blocks) : exec (r.pass P checkSpares handOn) (r.start []) =
      (.ok (), { t with report := r.checkDigest P t.digest t.report }) := by
  have hall : ((copies r.blocks r.layout.interleave).zip r.slots).take (2 * r.blocks) =
      (copies r.blocks r.layout.interleave).zip r.slots := by
    refine List.take_of_length_le ?_
    rw [arrivals_eq, List.length_map, copies_length]
  rw [firstSlots, hall] at ht
  rw [pass, exec_bind_ok (exec_modify _ _), resolved, bind_assoc]
  refine (exec_bind_ok ht).trans ?_
  have hnone : r.blocks - t.nextIndex = 0 := by omega
  rw [bind_assoc, exec_bind_ok (exec_get _), hnone, List.range'_zero,
    exec_bind_ok (exec_forM_nil _ _), exec_modify]

/-- **The loop behind the last slot**: all blocks, and the report before the check of the digest. -/
theorem exec_pass_handOn {K : Nat → StreamRepairReport → Prop} (hK : r.Reported P checkSpares K) :
    ∃ t next, exec (r.pass P checkSpares handOn) (r.start []) =
        (.ok (), { t with report := r.checkDigest P t.digest t.report }) ∧
      t.nextIndex = r.blocks ∧ r.Slots P checkSpares K (2 * r.blocks) r.blocks r.blocks next t := by
  obtain ⟨⟨⟩, t, ht, A, B, next, h⟩ := (ends_firstSlots hK le_rfl).returns fun _ _ h => h
  have hle := h.due.le
  have h1 := h.between.1.nextIndex_le
  have h2 := h.between.le_nextIndex
  have hsum := h.sum
  obtain rfl : A = r.blocks := by omega
  obtain rfl : B = r.blocks := by omega
  have hnext : t.nextIndex = r.blocks := by omega
  exact ⟨t, next, exec_pass_of_firstSlots ht hnext, hnext, h⟩

end StreamReader

/-- **A pass in order.** For every source and every damage: after `n` slots the blocks so far are
    handed on in order, a waiting block's second copy is still to come, and at most the interleave and
    the current block are in hand; every block handed on has a tag that is stored in one of its slots,
    or is listed as unverified. In the end every block is handed on once, and the trailer's digest
    decides about those that are listed. -/
theorem passes_in_order (P : Primitives) (r : StreamReader) (checkSpares : Bool) :
    (∀ n ≤ 2 * r.blocks, ∃ s,
      exec (r.firstSlots P checkSpares handOn n) (r.start []) = (.ok (), s) ∧ r.Passing P n s ∧
      (n < 2 * r.blocks → ∃ arrival u,
        ((copies r.blocks r.layout.interleave).zip r.slots)[n]? = some arrival ∧
        exec (r.arrive P checkSpares arrival) s = (.ok (), u) ∧
        u.InHandAtMost (r.layout.interleave + 1))) ∧
    ∃ t report, exec (r.pass P checkSpares handOn) (r.start []) = (.ok (), t) ∧
      t.out.map (·.1) = List.range r.blocks ∧ t.report = r.checkDigest P t.digest report ∧
      ∀ index block, (index, some block) ∈ t.out → r.Vouched P report index block := by
  constructor
  · intro n hn
    obtain ⟨⟨⟩, s, hs, A, B, next, h⟩ :=
      (StreamReader.ends_firstSlots StreamReader.reported_listed hn).returns fun _ _ h => h
    refine ⟨s, hs, ?_, fun hlt => StreamReader.inHand_arrive hlt h.due h.sum h.between⟩
    rw [← h.sum]
    exact h.between.passing h.reported h.due
  · obtain ⟨t, next, ht, hnext, h⟩ :=
      StreamReader.exec_pass_handOn (@StreamReader.reported_listed P r checkSpares)
    have hpassing := h.between.passing h.reported h.due
    refine ⟨_, t.report, ht, ?_, rfl, hpassing.vouched⟩
    exact hpassing.inOrder.trans (by rw [hnext])

/-! ## 5. A block with a tag of its own -/

section Unstored

variable {P : Primitives} {c : Contents}

variable {r : StreamReader} {trailer : Option StreamTrailer} {damaged : List String}

/-- **The block is rebuilt** from two slots whose tags were changed in different places: nothing is
    decoded, and neither tag is its own. -/
theorem repair_retagged (ht : c.KnownTrailer P trailer)
    (hb : c.blocks ≤ maxBlocks) {D : Bytes} (hr : r = c.reader P D trailer damaged)
    (report : StreamRepairReport) :
    ∃ sources, r.repair P report 0 (some (retagged P c 0)) (some (retagged P c 1)) =
      (some (c.resolvedBlock P 0), StreamReader.countRepair
        { report with unverifiedBlocks := report.unverifiedBlocks ++ [0] } sources false) := by
  have hlayout : r.layout = c.layout := by rw [hr]; rfl
  have hid : r.header = c.header := by rw [hr]; rfl
  have hclean : r.clean P (retagged P c 1) 0 = none := by
    rw [hr]
    refine Contents.clean_of_tag_ne ?_
    rw [take_retagged]
    exact (drop_retagged_ne (by decide)).symm
  have hn : c.layout.nsym < Rs.codewordSize := c.header.layout_valid.nsym_lt
  obtain ⟨hdata, hdecoded⟩ := Rs.repairFromCopies_encode P.codec hn (c.block P 0)
  have hchunk : r.chunkLen (c.block P 0) 0 = some (c.ciphertext P 0).length := by
    rw [hr]
    exact Contents.chunkLen_block ht c.blocks_pos hb
  have hcopies : [retagged P c 0, retagged P c 1].map (fun raw => raw.take c.layout.encodedSize) =
      [Rs.encode (c.block P 0) c.layout.nsym, Rs.encode (c.block P 0) c.layout.nsym] := by
    rw [List.map_cons, List.map_cons, take_retagged, take_retagged]
    rfl
  have htag : slotTag P c.header.containerId (Rs.encode (c.block P 0) c.layout.nsym) = c.tag P 0 := rfl
  have hstored : ¬ c.tag P 0 ∈ [retagged P c 0, retagged P c 1].map
      fun raw => raw.drop c.layout.encodedSize := by
    simp only [List.map_cons, List.map_nil, List.mem_cons, List.not_mem_nil, or_false, not_or]
    exact ⟨(drop_retagged_ne (by decide)).symm, (drop_retagged_ne (by decide)).symm⟩
  have hdiffer : (retagged P c 0).drop c.layout.encodedSize ≠
      (retagged P c 1).drop c.layout.encodedSize := by
    rw [drop_retagged, drop_retagged]
    intro h
    refine tag_set_getElem? (P := P) (c := c) (k := 0) (by decide) ?_
    rw [h, List.getElem?_set_ne (by decide)]
  rw [StreamReader.repair, Option.bind_some, hclean]
  simp only [Option.toList_some, List.singleton_append, hlayout, hid, hcopies, List.isEmpty_cons,
    Bool.false_eq_true, if_false]
  simp only [hdata, hchunk, htag, if_neg hstored, hdecoded, Bool.false_eq_true, false_or]
  rw [if_neg fun h => hdiffer h.2]
  exact ⟨_, rfl⟩

/-- What a rebuilt block is counted as. -/
theorem countRepair_counts (report : StreamRepairReport) (sources : Finset Bool) (decoded : Bool) :
    0 < (StreamReader.countRepair report sources decoded).blocksRsCorrected +
        (StreamReader.countRepair report sources decoded).blocksUsedB +
        (StreamReader.countRepair report sources decoded).blocksMerged ∧
      (StreamReader.countRepair report sources decoded).failedBlocks = report.failedBlocks ∧
      (StreamReader.countRepair report sources decoded).problems = report.problems := by
  unfold StreamReader.countRepair
  split
  · exact ⟨Nat.succ_pos _, rfl, rfl⟩
  · split
    · refine ⟨?_, rfl, rfl⟩
      show 0 < _ + (report.blocksUsedB + 1) + _
      omega
    · refine ⟨?_, rfl, rfl⟩
      show 0 < report.blocksRsCorrected + 1 + _ + _
      omega

/-- No block failed; once a second copy has come a block is counted as repaired. -/
def Healing (B : Nat) (report : StreamRepairReport) : Prop :=
  report.failedBlocks = [] ∧ report.problems = [] ∧
    (0 < B → 0 < report.blocksRsCorrected + report.blocksUsedB + report.blocksMerged)

section Reader

variable (hl : c.layout = .small) (hblocks : c.blocks = 1) (ht : c.KnownTrailer P trailer) {D : Bytes}
  (hr : r = c.reader P D trailer damaged) (h1 : r.copyAt (0, true) = retagged P c 0)
  (h2 : r.copyAt (0, false) = retagged P c 1)

include hr h1

theorem intact_retagged : r.intact P 0 = none := by
  rw [StreamReader.intact, h1, hr]
  refine Contents.clean_of_tag_ne ?_
  rw [take_retagged]
  exact (drop_retagged_ne (by decide)).symm

include hl h2

theorem whole_retagged (second : Bool) : (r.copyAt (0, second)).length = r.layout.slotSize ∧
    r.whole (0, second) = some (r.copyAt (0, second)) := by
  have hs : r.layout.slotSize = 534 := by
    rw [hr, Contents.reader_layout, hl]
    decide
  have hlen : (r.copyAt (0, second)).length = r.layout.slotSize := by
    cases second with
    | true => rw [h1, hs, retagged_length hl]
    | false => rw [h2, hs, retagged_length hl]
  exact ⟨hlen, by rw [StreamReader.whole, if_pos (beq_iff_eq.mpr hlen)]⟩

include hblocks ht

theorem reported_healing : r.Reported P false Healing := by
  have hrblocks : r.blocks = 1 := by rw [hr, ← hblocks]; rfl
  have hwhole := whole_retagged hl hr h1 h2
  have hnote : ∀ second report, r.noteComplete (0, second) report = report := fun second report => by
    rw [StreamReader.noteComplete, if_pos (beq_iff_eq.mpr (hwhole second).1)]
  refine ⟨⟨by rw [hr]; rfl, by rw [hr]; rfl, fun h => absurd h (Nat.lt_irrefl 0)⟩, ?_, ?_⟩
  · intro A B report hA h
    obtain rfl : A = 0 := by omega
    rw [StreamReader.firstReport, hnote, intact_retagged hr h1]
    exact h
  · intro B report hB h
    obtain rfl : B = 0 := by omega
    obtain ⟨sources, hrepair⟩ := repair_retagged ht (by rw [hblocks]; decide) hr report
    rw [← h1, ← h2] at hrepair
    rw [StreamReader.secondReport, hnote]
    simp only [intact_retagged hr h1, (hwhole _).2, hrepair, Option.isNone_some, Bool.false_eq_true,
      if_false]
    obtain ⟨hcount, hfailed, hproblems⟩ := countRepair_counts
      { report with unverifiedBlocks := report.unverifiedBlocks ++ [0] } sources false
    exact ⟨hfailed.trans h.1, hproblems.trans h.2.1, fun _ => hcount⟩

theorem outcome_retagged : r.outcome P 0 = some (c.resolvedBlock P 0) := by
  have hwhole := whole_retagged hl hr h1 h2
  obtain ⟨sources, hrepair⟩ := repair_retagged ht (by rw [hblocks]; decide) hr {}
  rw [← h1, ← h2] at hrepair
  rw [StreamReader.outcome, intact_retagged hr h1]
  simp only
  rw [(hwhole true).2, (hwhole false).2, hrepair]

end Reader

/-- Where the digest is that of the blocks a healing report stays one. -/
theorem healed_checkDigest (ht : c.KnownTrailer P trailer) {D : Bytes} {report : StreamRepairReport}
    {B : Nat} (h : Healing B report) (hB : 0 < B) :
    ((c.reader P D trailer damaged).checkDigest P ((List.range c.blocks).map (c.tag P)) report).healed =
      true := by
  obtain ⟨hfailed, hproblems, hcount⟩ := h
  have hhealed : ∀ unverified,
      ({ report with unverifiedBlocks := unverified } : StreamRepairReport).healed = true := by
    intro unverified
    have := hcount hB
    simp only [StreamRepairReport.healed, StreamRepairReport.ok, hfailed, hproblems, List.isEmpty_nil,
      Bool.and_self, Bool.true_and, Bool.or_eq_true, bne_iff_ne, ne_eq]
    omega
  unfold StreamReader.checkDigest
  rcases ht with rfl | rfl
  · exact hhealed report.unverifiedBlocks
  · have hd : blocksDigest P c.header.containerId ((List.range c.blocks).map (c.tag P)) =
        (c.trailer P).blocksDigest := rfl
    simp only [Contents.reader_trailer, Contents.reader_header]
    rw [if_neg (not_not.mpr hfailed)]
    simp only [hd, if_true]
    exact hhealed []

end Unstored

/-- **A healed block whose tag is in none of its slots.** Both tags of a one block container are
    changed, in different places, and nothing else: the reader yields the block, calls the container
    healed, and the tag it computed stands in neither slot. -/
theorem unstored_tag : ∃ w r t block,
    StreamWriter.create .plain never .plain [] {} .small 1 0 = .ok w ∧
    written .plain w [ascii "payload"] = some ((contentsOf w [ascii "payload"]).bytes .plain) ∧
    StreamReader.create .plain (withSlots .plain (contentsOf w [ascii "payload"])
      (retagged .plain (contentsOf w [ascii "payload"]) 0)
      (retagged .plain (contentsOf w [ascii "payload"]) 1)) (some []) = .ok r ∧
    exec (r.pass .plain false handOn) (r.start []) = (.ok (), t) ∧ (0, some block) ∈ t.out ∧
    t.report.healed = true ∧
    ∀ second, (r.copyAt (0, second)).drop r.layout.encodedSize ≠ block.tag := by
  obtain ⟨w, hcreate, hl, hblocks, hwritten⟩ := exists_small .plain [ascii "payload"] 1
    (by decide) (by decide)
  set c := contentsOf w [ascii "payload"]
  obtain ⟨trailer, damaged, ht, hcreated, h1, h2⟩ := opened_withSlots hl
    (retagged_length (P := .plain) hl 0) (retagged_length (P := .plain) hl 1) hblocks
    (keyed_of_create Primitives.plain_opens hcreate [ascii "payload"])
  set r := c.reader .plain (withSlots .plain c (retagged .plain c 0) (retagged .plain c 1)) trailer
    damaged with hr
  obtain ⟨t, next, hpass, hnext, hloop⟩ := StreamReader.exec_pass_handOn
    (reported_healing hl hblocks ht hr h1 h2)
  have hrblocks : r.blocks = 1 := hblocks
  have houtcome := outcome_retagged hl hblocks ht hr h1 h2
  obtain ⟨hout, hdigest⟩ := hloop.between.1.holds
  rw [hnext, hrblocks, List.range_one, List.map_singleton, houtcome] at hout
  rw [hnext, hrblocks, List.range_one, List.flatMap_singleton, houtcome] at hdigest
  refine ⟨w, r, _, c.resolvedBlock .plain 0, hcreate, hwritten, hcreated, hpass, ?_, ?_, ?_⟩
  · show (0, some (c.resolvedBlock .plain 0)) ∈ t.out
    rw [hout]
    exact List.mem_singleton_self _
  · have htags : t.digest = (List.range c.blocks).map (c.tag .plain) := by
      rw [hdigest, hblocks]
      rfl
    show (r.checkDigest .plain t.digest t.report).healed = true
    rw [htags]
    exact healed_checkDigest ht hloop.reported (by rw [hrblocks]; exact Nat.one_pos)
  · have hlayout : r.layout = c.layout := rfl
    rintro (_ | _)
    · rw [h2, hlayout]
      exact drop_retagged_ne (by decide)
    · rw [h1, hlayout]
      exact drop_retagged_ne (by decide)

end Dbs

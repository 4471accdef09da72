/-
  File:      Dbs/Audit/Chain.lean
  Subject:   THE AUDIT CHAIN: finished events are sealed one after another, each with a hash over the
             hash before it and its own text.

  * `canonical`, `link` -- what is hashed; `sealPending`, `verifyChain` -- how links are made and
    checked;
  * `Linked` -- links one behind the other; `verifyRows_linked` -- these are what the check accepts;
  * `Chained` -- what every operation keeps: the sealed rows are finished and linked from 1 on;
  * `chain_intact` -- over every run of operations the chain verifies, no sealed row changes, and a
    finished event stays what it is until it is sealed, once.
-/
import Dbs.Audit.Events
import Dbs.Lib.Runs
import Mathlib.Data.List.Range
import Mathlib.Data.Prod.Lex

namespace Dbs.Audit

/-! ## 1. The text of an event -/

/-- `CHAINED_FIELDS`, and the index of the link. -/
def chainedKeys : List Json.Text :=
  ["action", "target_name", "detail", "data", "status", "error_code", "subject", "remote_addr",
    "succeeded", "started_at", "finished_at", "created_at", "chain_index"].map Json.Text.ofString

/-- `_plain`. -/
def plain (moment : DateTime) : Json.Value :=
  .str (Json.Text.ofString (String.ofList moment.isoformat))

/-- A moment, or null. -/
def plainOrNone : Option DateTime → Json.Value
  | some moment => plain moment
  | none => .scalar .null

/-- A text as a JSON value. -/
def text (s : String) : Json.Value := .str (Json.Text.ofString s)

/-- A chain index, or null. -/
def index : Option Nat → Json.Value
  | some n => .scalar (.int n)
  | none => .scalar .null

/-- What the chain seals of a row, in order. -/
def chainedValues (e : AuditEvent) : List Json.Value :=
  [text e.action, text e.targetName, text e.detail, e.data, text e.status, text e.errorCode,
    text e.subject, text e.remoteAddr, .scalar (.bool e.succeeded), plainOrNone e.startedAt,
    plainOrNone e.finishedAt, plain e.createdAt, index e.chainIndex]

/-- The text that is hashed. -/
def canonical (e : AuditEvent) : String :=
  String.ofList (Json.dumps (.obj (chainedKeys.zip (chainedValues e))))

section Chain

/-! ## 2. Sealing and checking -/

-- the hex digest of the UTF-8 bytes of a text
variable (sha256 : String → String)

/-- The hash of a row behind another hash. -/
def link (previousHash : String) (e : AuditEvent) : String := sha256 (previousHash ++ canonical e)

/-- `filter(chain_index__isnull=True, status__in=FINISHED)`. -/
def unsealed (table : List AuditEvent) : List AuditEvent :=
  table.filter fun e => !e.isSealed && e.isFinished

/-- The rows to seal, oldest first. -/
def pending (table : List AuditEvent) : List AuditEvent := Rows.orderBy AuditEvent.pk (unsealed table)

/-- `filter(chain_index__isnull=False)`. -/
def sealedRows (table : List AuditEvent) : List AuditEvent := table.filter AuditEvent.isSealed

/-- The index of a sealed row. -/
def place (e : AuditEvent) : Nat := e.chainIndex.getD 0

/-- `order_by("-chain_index").first()`. -/
def lastLink (table : List AuditEvent) : Option (Nat × String) :=
  ((Rows.orderBy (fun e => OrderDual.toDual (place e)) (sealedRows table)).head?).map
    fun e => (place e, e.chainHash)

/-- The row with its place in the chain. -/
def linked (index : Nat) (hash : String) (e : AuditEvent) : AuditEvent :=
  { e with chainIndex := some index, chainHash := hash }

/-- The loop of the sealing. -/
def sealFrom : Nat → String → List AuditEvent → List AuditEvent → List AuditEvent
  | _, _, [], table => table
  | index, previous, e :: rest, table =>
    let hash := link sha256 previous { e with chainIndex := some (index + 1) }
    sealFrom (index + 1) hash rest
      (Rows.update (fun r => r.pk == e.pk && !r.isSealed) (linked (index + 1) hash) table)

/-- How many events were sealed, and the table with them sealed. -/
def sealPending (limit : Nat) (table : List AuditEvent) : Nat × List AuditEvent :=
  let batch := (pending table).take limit
  if batch.isEmpty then (0, table) else
    let last := (lastLink table).getD (0, "")
    (batch.length, sealFrom sha256 last.1 last.2 batch table)

/-- What a check of the chain says. -/
structure ChainCheck where
  checked : Nat := 0
  head : String := ""
  brokenAt : Option Nat := none
  eventId : Option Nat := none
  reason : String := ""
  unsealed : Nat := 0
  unfinished : Nat := 0

/-- No row is broken. -/
def ChainCheck.intact (c : ChainCheck) : Bool := c.brokenAt.isNone

/-- `order_by("chain_index", "pk")`. -/
def inOrder (table : List AuditEvent) : List AuditEvent :=
  Rows.orderBy (fun e => toLex (place e, e.pk)) (sealedRows table)

/-- The problem of a row with another index. -/
def wrongPlace (expected : Nat) (e : AuditEvent) : String :=
  if place e < expected then s!"link {place e} appears twice (row {e.pk})"
  else s!"links {expected} to {place e - 1} are missing before row {e.pk}: " ++
    "rows were deleted or unsealed"

/-- The loop of the check. -/
def verifyRows (check : ChainCheck) (previous : String) (expected : Nat) :
    List AuditEvent → ChainCheck
  | [] => { check with head := previous }
  | e :: rest =>
    if place e ≠ expected then
      { check with
        brokenAt := some expected
        eventId := some e.pk
        reason := wrongPlace expected e }
    else if link sha256 previous e ≠ e.chainHash then
      { check with
        brokenAt := some expected
        eventId := some e.pk
        reason := s!"row {e.pk} was changed after it was sealed" }
    else verifyRows { check with checked := check.checked + 1 } e.chainHash (expected + 1) rest

/-- The check of all sealed rows. -/
def verifyChain (table : List AuditEvent) : ChainCheck :=
  let check := verifyRows sha256 {} "" 1 (inOrder table)
  if check.intact then
    { check with
      unsealed := table.countP fun e => !e.isSealed && e.isFinished
      unfinished := table.countP AuditEvent.isUnfinished }
  else check

/-! ## 3. Links -/

/-- The rows are links from an index on, the first behind a given hash. -/
def Linked : Nat → String → List AuditEvent → Prop
  | _, _, [] => True
  | index, previous, e :: rest =>
    e.chainIndex = some index ∧ link sha256 previous e = e.chainHash ∧
      Linked (index + 1) e.chainHash rest

/-- The hash of the last link. -/
def headOf : String → List AuditEvent → String
  | previous, [] => previous
  | _, e :: rest => headOf e.chainHash rest

variable {sha256} {index : Nat} {previous : String} {chain table : List AuditEvent}

theorem Linked.places (h : Linked sha256 index previous chain) :
    chain.map AuditEvent.chainIndex = (List.range' index chain.length).map some := by
  induction chain generalizing index previous with
  | nil => rfl
  | cons e rest ih =>
    rw [List.map_cons, List.length_cons, List.range'_succ, List.map_cons, h.1, ih h.2.2]

variable {e : AuditEvent}

theorem linked_concat (h : Linked sha256 index previous chain)
    (hi : e.chainIndex = some (index + chain.length))
    (hl : link sha256 (headOf previous chain) e = e.chainHash) :
    Linked sha256 index previous (chain ++ [e]) := by
  induction chain generalizing index previous with
  | nil => exact ⟨hi, hl, trivial⟩
  | cons d rest ih =>
    refine ⟨h.1, h.2.1, ih h.2.2 ?_ hl⟩
    rw [hi, List.length_cons]
    congr 1
    omega

theorem headOf_concat (e : AuditEvent) : headOf previous (chain ++ [e]) = e.chainHash := by
  induction chain generalizing previous with
  | nil => rfl
  | cons d rest ih => exact ih

theorem Linked.last (h : Linked sha256 index previous (chain ++ [e])) :
    place e = index + chain.length := by
  induction chain generalizing index previous with
  | nil => rw [place, h.1, Option.getD_some, List.length_nil, Nat.add_zero]
  | cons d rest ih =>
    rw [ih h.2.2, List.length_cons]
    omega

theorem Linked.pairwise (h : Linked sha256 index previous chain) :
    chain.Pairwise fun a b => place a < place b := by
  have hplaces : chain.map place = List.range' index chain.length := by
    have hm := congrArg (List.map fun o : Option Nat => o.getD 0) h.places
    rw [List.map_map, List.map_map] at hm
    exact hm.trans (List.map_id _)
  rw [← List.pairwise_map (f := place) (R := (· < ·)), hplaces]
  exact List.pairwise_lt_range'

/-- **Links are what the check accepts**, whatever rows the table holds. -/
theorem verifyRows_linked {check : ChainCheck} (hrows : ∀ e ∈ chain, e.isSealed = true)
    (hc : check.brokenAt = none) :
    (verifyRows sha256 check previous index chain).brokenAt = none ↔
      Linked sha256 index previous chain := by
  induction chain generalizing check previous index with
  | nil => exact ⟨fun _ => trivial, fun _ => hc⟩
  | cons e rest ih =>
    have he := hrows e List.mem_cons_self
    have hrest := fun x hx => hrows x (List.mem_cons_of_mem e hx)
    have hplace : place e = index ↔ e.chainIndex = some index := by
      unfold place
      cases hci : e.chainIndex with
      | none => rw [AuditEvent.isSealed, hci] at he; cases he
      | some n => rw [Option.getD_some, Option.some.injEq]
    rw [verifyRows, Linked, ← hplace]
    by_cases h1 : place e = index
    · rw [if_neg (not_not.mpr h1)]
      by_cases h2 : link sha256 previous e = e.chainHash
      · rw [if_neg (not_not.mpr h2)]
        have hnext := @ih (index + 1) e.chainHash { check with checked := check.checked + 1 } hrest hc
        exact hnext.trans ⟨fun h => ⟨h1, h2, h⟩, fun h => h.2.2⟩
      · rw [if_pos h2]
        exact ⟨fun h => (nomatch h), fun h => absurd h.2.1 h2⟩
    · rw [if_pos h1]
      exact ⟨fun h => (nomatch h), fun h => absurd h.1 h1⟩

theorem verifyRows_eq {check : ChainCheck} (h : Linked sha256 index previous chain) :
    verifyRows sha256 check previous index chain =
      { check with checked := check.checked + chain.length, head := headOf previous chain } := by
  induction chain generalizing check previous index with
  | nil => rfl
  | cons e rest ih =>
    have hplace : place e = index := by rw [place, h.1, Option.getD_some]
    rw [verifyRows, if_neg (not_not.mpr hplace), if_neg (not_not.mpr h.2.1), ih h.2.2]
    rw [List.length_cons, headOf]
    congr 1
    show check.checked + 1 + rest.length = check.checked + (rest.length + 1)
    omega

/-! ## 4. What an operation leaves -/

theorem mem_sealedRows : e ∈ sealedRows table ↔ e ∈ table ∧ e.isSealed = true :=
  List.mem_filter

theorem mem_unsealed :
    e ∈ unsealed table ↔ e ∈ table ∧ e.isSealed = false ∧ e.isFinished = true := by
  rw [unsealed, List.mem_filter, Bool.and_eq_true, Bool.not_eq_true']

theorem mem_pending : e ∈ pending table ↔ e ∈ table ∧ e.isSealed = false ∧ e.isFinished = true :=
  (Rows.orderBy_perm _ _).mem_iff.trans mem_unsealed

variable (sha256) in
/-- **What every operation keeps.** -/
structure Chained (table : List AuditEvent) : Prop where
  keys : (table.map AuditEvent.pk).Nodup
  final : ∀ e ∈ table, e.isSealed = true → e.isFinished = true
  links : ∃ chain, (sealedRows table).Perm chain ∧ Linked sha256 1 "" chain

theorem chained_nil : Chained sha256 [] :=
  ⟨List.nodup_nil, fun _ h => (List.not_mem_nil h).elim, [], List.Perm.nil, trivial⟩

/-- What an event says, without its place in the chain. -/
def content (e : AuditEvent) : AuditEvent := { e with chainIndex := none, chainHash := "" }

/-- One table after another: the sealed rows are what they were, and so is what the finished events
    say. -/
structure Follows (table later : List AuditEvent) : Prop where
  sealedKept : ∀ e ∈ table, e.isSealed = true → e ∈ later
  finishedKept : ∀ e ∈ table, e.isFinished = true →
    ∃ e' ∈ later, content e' = content e ∧ e'.isFinished = true

theorem Follows.refl : Follows table table :=
  ⟨fun _ h _ => h, fun e h hf => ⟨e, h, rfl, hf⟩⟩

theorem Follows.trans {later latest : List AuditEvent} (h : Follows table later)
    (h' : Follows later latest) : Follows table latest := by
  refine ⟨fun e he hs => h'.sealedKept e (h.sealedKept e he hs) hs, fun e he hf => ?_⟩
  obtain ⟨d, hd, hcontent, hdf⟩ := h.finishedKept e he hf
  obtain ⟨c, hc, hcontent', hcf⟩ := h'.finishedKept d hd hdf
  exact ⟨c, hc, hcontent'.trans hcontent, hcf⟩

theorem sealedRows_append (hs : e.isSealed = false) :
    sealedRows (table ++ [e]) = sealedRows table := by
  rw [sealedRows, List.filter_append, List.filter_cons_of_neg (by rw [hs]; exact Bool.false_ne_true)]
  exact List.append_nil _

/-- A new row, not sealed yet. -/
theorem Chained.append (h : Chained sha256 table) (hs : e.isSealed = false)
    (hpk : e.pk ∉ table.map AuditEvent.pk) :
    Chained sha256 (table ++ [e]) ∧ Follows table (table ++ [e]) := by
  have hrows : sealedRows (table ++ [e]) = sealedRows table := sealedRows_append hs
  refine ⟨⟨?_, fun d hd hds => ?_, by rw [hrows]; exact h.links⟩,
    fun d hd _ => List.mem_append_left _ hd, fun d hd hdf => ⟨d, List.mem_append_left _ hd, rfl, hdf⟩⟩
  · rw [List.map_append, List.nodup_append]
    refine ⟨h.keys, List.nodup_singleton _, fun a ha b hb hab => ?_⟩
    rw [List.map_singleton, List.mem_singleton] at hb
    exact hpk (hb ▸ hab ▸ ha)
  · rcases List.mem_append.mp hd with hd | hd
    · exact h.final d hd hds
    · rw [List.mem_singleton.mp hd, hs] at hds
      cases hds

/-- **An update of unfinished rows** touches no sealed row. -/
theorem Chained.update (h : Chained sha256 table) {p : AuditEvent → Bool} {f : AuditEvent → AuditEvent}
    (hp : ∀ e, p e = true → e.isUnfinished = true) (hpk : ∀ e, (f e).pk = e.pk)
    (hci : ∀ e, (f e).chainIndex = e.chainIndex) :
    Chained sha256 (Rows.update p f table) ∧ Follows table (Rows.update p f table) := by
  have hfinished : ∀ e, e.isFinished = true → p e = false := by
    intro e he
    rw [← Bool.not_eq_true]
    exact fun hpe => Bool.noConfusion ((hp e hpe).symm.trans (AuditEvent.not_isUnfinished he))
  have hsealed : ∀ e ∈ table, e.isSealed = true → p e = false :=
    fun e he hs => hfinished e (h.final e he hs)
  have hkeep : ∀ e ∈ table, e.isFinished = true → e ∈ Rows.update p f table :=
    fun e he hf => Rows.mem_update.mpr (Or.inr ⟨he, hfinished e hf⟩)
  have hfs : ∀ e, (f e).isSealed = e.isSealed := fun e => by
    rw [AuditEvent.isSealed, AuditEvent.isSealed, hci]
  have hrows : sealedRows (Rows.update p f table) = sealedRows table := by
    rw [sealedRows, Rows.update, List.filter_map]
    have hcomp : (AuditEvent.isSealed ∘ fun r => if p r = true then f r else r) =
        AuditEvent.isSealed := by
      funext e
      show AuditEvent.isSealed (if p e = true then f e else e) = e.isSealed
      split
      · exact hfs e
      · rfl
    rw [hcomp]
    exact Rows.update_eq_self fun e he => hsealed e (mem_sealedRows.mp he).1 (mem_sealedRows.mp he).2
  refine ⟨⟨?_, fun e he hs => ?_, by rw [hrows]; exact h.links⟩,
    fun e he hs => hkeep e he (h.final e he hs), fun e he hf => ⟨e, hkeep e he hf, rfl, hf⟩⟩
  · rw [Rows.map_update _ fun e _ _ => hpk e]
    exact h.keys
  · rcases Rows.mem_update.mp he with ⟨old, hold, hpo, rfl⟩ | ⟨he, -⟩
    · rw [hfs] at hs
      rw [hsealed old hold hs] at hpo
      cases hpo
    · exact h.final e he hs

/-! ## 5. Sealing -/

theorem lastLink_eq (hp : (sealedRows table).Perm chain) (hl : Linked sha256 1 "" chain) :
    (lastLink table).getD (0, "") = (chain.length, headOf "" chain) := by
  have horder : Rows.orderBy (fun e => OrderDual.toDual (place e)) (sealedRows table) =
      chain.reverse := by
    refine Rows.orderBy_eq (hp.trans (List.reverse_perm chain).symm) ?_
    rw [List.pairwise_reverse]
    exact hl.pairwise.imp fun h => h
  rw [lastLink, horder]
  rcases List.eq_nil_or_concat' chain with rfl | ⟨init, e, rfl⟩
  · rfl
  · have hplace : place e = (init ++ [e]).length := by
      rw [hl.last, List.length_append, List.length_singleton, Nat.add_comm]
    rw [List.reverse_append, List.reverse_singleton, List.singleton_append, List.head?_cons,
      Option.map_some, Option.getD_some, headOf_concat, hplace]

section

variable (hn : (table.map AuditEvent.pk).Nodup)

include hn

/-- **One event sealed.** -/
theorem seal_one {hash : String}
    (he : e ∈ table) (hs : e.isSealed = false) (hf : e.isFinished = true) :
    (sealedRows (Rows.update (fun r => r.pk == e.pk && !r.isSealed) (linked index hash) table)).Perm
      (sealedRows table ++ [linked index hash e]) ∧
    (unsealed table).Perm
      (e :: unsealed (Rows.update (fun r => r.pk == e.pk && !r.isSealed) (linked index hash) table)) ∧
    Follows table (Rows.update (fun r => r.pk == e.pk && !r.isSealed) (linked index hash) table) := by
  have hpk : ∀ r : AuditEvent, (r.pk == e.pk && !r.isSealed) = true → r.pk = e.pk :=
    fun r h => beq_iff_eq.mp (Bool.and_eq_true_iff.mp h).1
  have hpe : (e.pk == e.pk && !e.isSealed) = true := by rw [hs, BEq.rfl]; rfl
  obtain ⟨rest, h1, h2⟩ := Rows.update_perm (f := linked index hash) hn hpk he hpe
  refine ⟨?_, ?_, fun d hd hds => ?_, fun d hd hdf => ?_⟩
  · have hrest : sealedRows (e :: rest) = sealedRows rest :=
      List.filter_cons_of_neg (by rw [hs]; exact Bool.false_ne_true)
    have hnew : sealedRows (linked index hash e :: rest) = linked index hash e :: sealedRows rest :=
      List.filter_cons_of_pos rfl
    have hfiltered : (sealedRows (Rows.update (fun r => r.pk == e.pk && !r.isSealed)
        (linked index hash) table)).Perm (linked index hash e :: sealedRows rest) :=
      hnew ▸ h2.filter _
    refine hfiltered.trans (List.Perm.trans ?_ (List.perm_append_singleton _ _).symm)
    exact List.Perm.cons _ (hrest ▸ (h1.filter _).symm)
  · have hrest : unsealed (e :: rest) = e :: unsealed rest :=
      List.filter_cons_of_pos (by rw [hs, hf]; rfl)
    have hnew : unsealed (linked index hash e :: rest) = unsealed rest :=
      List.filter_cons_of_neg Bool.false_ne_true
    have hbefore : (unsealed table).Perm (e :: unsealed rest) := hrest ▸ h1.filter _
    have hafter : (unsealed (Rows.update (fun r => r.pk == e.pk && !r.isSealed)
        (linked index hash) table)).Perm (unsealed rest) := hnew ▸ h2.filter _
    exact hbefore.trans (List.Perm.cons e hafter.symm)
  · exact Rows.mem_update.mpr (Or.inr ⟨hd, by rw [hds, Bool.not_true, Bool.and_false]⟩)
  · by_cases hde : (d.pk == e.pk && !d.isSealed) = true
    · exact ⟨linked index hash d, Rows.mem_update.mpr (Or.inl ⟨d, hd, hde, rfl⟩), rfl, hdf⟩
    · exact ⟨d, Rows.mem_update.mpr (Or.inr ⟨hd, by rwa [Bool.not_eq_true] at hde⟩), rfl, hdf⟩

/-- **A batch sealed**: the chain goes on with it, and the rest is left unsealed. -/
theorem chained_sealFrom {batch rest : List AuditEvent}
    (hfinal : ∀ e ∈ table, e.isSealed = true → e.isFinished = true)
    (hp : (sealedRows table).Perm chain) (hl : Linked sha256 1 "" chain)
    (hu : (unsealed table).Perm (batch ++ rest)) :
    Chained sha256 (sealFrom sha256 chain.length (headOf "" chain) batch table) ∧
    Follows table (sealFrom sha256 chain.length (headOf "" chain) batch table) ∧
    (unsealed (sealFrom sha256 chain.length (headOf "" chain) batch table)).Perm rest := by
  induction batch generalizing table chain with
  | nil => exact ⟨⟨hn, hfinal, chain, hp, hl⟩, .refl, hu⟩
  | cons e batch ih =>
    obtain ⟨he, hs, hf⟩ := mem_unsealed.mp (hu.mem_iff.mpr List.mem_cons_self)
    set hash := link sha256 (headOf "" chain) { e with chainIndex := some (chain.length + 1) }
      with hhash
    obtain ⟨h1, h2, h3⟩ := seal_one hn he hs hf
    set next := Rows.update (fun r => r.pk == e.pk && !r.isSealed)
      (linked (chain.length + 1) hash) table with hnext
    have hkeys : next.map AuditEvent.pk = table.map AuditEvent.pk :=
      Rows.map_update _ fun _ _ _ => rfl
    have hfinal' : ∀ d ∈ next, d.isSealed = true → d.isFinished = true := by
      intro d hd hds
      rcases List.mem_append.mp (h1.mem_iff.mp (mem_sealedRows.mpr ⟨hd, hds⟩)) with hd | hd
      · exact hfinal d (mem_sealedRows.mp hd).1 hds
      · rw [List.mem_singleton.mp hd]
        exact hf
    have hlinked : Linked sha256 1 "" (chain ++ [linked (chain.length + 1) hash e]) :=
      linked_concat hl (by rw [Nat.add_comm]; rfl) hhash.symm
    have hrest : (unsealed next).Perm (batch ++ rest) := (List.perm_cons e).mp (h2.symm.trans hu)
    have hstep := ih (hkeys ▸ hn) hfinal' (h1.trans (hp.append_right _)) hlinked hrest
    rw [List.length_append, List.length_singleton, headOf_concat] at hstep
    exact ⟨hstep.1, h3.trans hstep.2.1, hstep.2.2⟩

theorem pending_pairwise : (pending table).Pairwise fun a b => a.pk < b.pk := by
  have hsub : ((unsealed table).map AuditEvent.pk).Nodup := hn.sublist (List.filter_sublist.map _)
  have hnodup : ((pending table).map AuditEvent.pk).Nodup :=
    (((Rows.orderBy_perm _ _).map _).nodup_iff).mpr hsub
  exact List.Pairwise.imp₂ (fun _ _ hle hne => lt_of_le_of_ne hle hne)
    (Rows.orderBy_pairwise AuditEvent.pk (unsealed table)) (List.pairwise_map.mp hnodup)

end

/-- **`seal_pending`** seals the first pending events and leaves the others pending. -/
theorem Chained.sealPending (h : Chained sha256 table) (limit : Nat) :
    Chained sha256 (sealPending sha256 limit table).2 ∧
    Follows table (sealPending sha256 limit table).2 ∧
    pending (sealPending sha256 limit table).2 = (pending table).drop limit := by
  obtain ⟨chain, hp, hl⟩ := h.links
  unfold Audit.sealPending
  by_cases hb : ((pending table).take limit).isEmpty = true
  · rw [if_pos hb]
    refine ⟨h, .refl, ?_⟩
    rcases List.take_eq_nil_iff.mp (List.isEmpty_iff.mp hb) with hz | hz
    · rw [hz, List.drop_zero]
    · rw [hz, List.drop_nil]
  · rw [if_neg hb]
    show Chained sha256 (sealFrom sha256 _ _ _ table) ∧ Follows table (sealFrom sha256 _ _ _ table) ∧
      pending (sealFrom sha256 _ _ _ table) = _
    rw [lastLink_eq hp hl]
    have hu : (unsealed table).Perm ((pending table).take limit ++ (pending table).drop limit) := by
      rw [List.take_append_drop]
      exact (Rows.orderBy_perm _ _).symm
    obtain ⟨h1, h2, h3⟩ := chained_sealFrom h.keys h.final hp hl hu
    refine ⟨h1, h2, Rows.orderBy_eq h3 ?_⟩
    exact (pending_pairwise h.keys).sublist (List.drop_sublist limit _)

end Chain

/-! ## 6. Runs -/

/-- An operation, with the key its row gets and the moments it reads. -/
inductive Operation where
  | record (pk : Nat) (r : Recording) (now createdAt : DateTime)
  | queue (pk : Nat) (q : Queueing) (createdAt : DateTime)
  | start (pk : Nat) (now : DateTime)
  | finish (pk : Nat) (data : Option Data) (now : DateTime)
  | fail (pk : Nat) (errorCode : String) (data : Option Data) (detail : String) (now : DateTime)
  | interrupt (idleSince : Option DateTime) (keep : List Nat) (events : Option (List Nat))
      (now : DateTime)
  | sealPending (limit : Nat)

section Runs

variable (sha256 : String → String)

/-- A row comes in under a key that no row has. -/
def step (table : List AuditEvent) : Operation → Option (List AuditEvent)
  | .record pk r now createdAt =>
    if pk ∈ table.map AuditEvent.pk then none else some (record pk r now createdAt table)
  | .queue pk q createdAt =>
    if pk ∈ table.map AuditEvent.pk then none else some (queue pk q createdAt table)
  | .start pk now => some (start pk now table)
  | .finish pk data now => some (finish pk data now table)
  | .fail pk errorCode data detail now => some (fail pk errorCode data detail now table)
  | .interrupt idleSince keep events now => some (interrupt idleSince keep events now table)
  | .sealPending limit => some (sealPending sha256 limit table).2

variable {sha256} {table later : List AuditEvent}

theorem Chained.step (h : Chained sha256 table) {o : Operation}
    (hstep : Audit.step sha256 table o = some later) : Chained sha256 later ∧ Follows table later := by
  cases o with
  | record _ _ _ _ | queue _ _ _ =>
    obtain ⟨hpk, hstep⟩ := Option.ite_none_left_eq_some.mp hstep
    exact Option.some.inj hstep ▸ h.append rfl hpk
  | start _ _ | finish _ _ _ | fail _ _ _ _ _ =>
    cases hstep
    exact h.update (fun _ => isOpen_unfinished) (fun _ => rfl) (fun _ => rfl)
  | interrupt idleSince keep events now =>
    cases hstep
    exact h.update (fun _ => interruptible_unfinished) (fun _ => rfl) (fun _ => rfl)
  | sealPending limit =>
    cases hstep
    exact ⟨(h.sealPending limit).1, (h.sealPending limit).2.1⟩

theorem Chained.run (h : Chained sha256 table) {os : List Operation}
    (hrun : Runs.run (Audit.step sha256) table os = some later) :
    Chained sha256 later ∧ Follows table later := by
  refine Runs.run_invariant (I := fun t => Chained sha256 t ∧ Follows table t)
    (fun s o t hst hs => ?_) hrun ⟨h, .refl⟩
  obtain ⟨hchained, hfollows⟩ := hs.1.step hst
  exact ⟨hchained, hs.2.trans hfollows⟩

/-- The sealed rows in the order of the check are the chain. -/
theorem inOrder_eq {chain : List AuditEvent} (hp : (sealedRows table).Perm chain)
    (hl : Linked sha256 1 "" chain) : inOrder table = chain :=
  Rows.orderBy_eq hp (hl.pairwise.imp fun h => Prod.Lex.toLex_lt_toLex.mpr (Or.inl h))

theorem Chained.verifies (h : Chained sha256 table) :
    (inOrder table).map AuditEvent.chainIndex =
      (List.range' 1 (sealedRows table).length).map some ∧
    (verifyChain sha256 table).intact = true ∧
    (verifyChain sha256 table).checked = (sealedRows table).length := by
  obtain ⟨chain, hp, hl⟩ := h.links
  rw [inOrder_eq hp hl, hp.length_eq]
  refine ⟨hl.places, ?_⟩
  have hcheck : verifyRows sha256 {} "" 1 (inOrder table) =
      { checked := chain.length, head := headOf "" chain } := by
    rw [inOrder_eq hp hl, verifyRows_eq hl, Nat.zero_add]
  rw [verifyChain, hcheck]
  exact ⟨rfl, rfl⟩

/-- **The chain stays valid over whole runs.** In every table reached by the operations in any order
    the sealed events carry the indices from 1 on without gap or repetition and the check finds the
    chain intact. Whatever is done afterwards, a sealed row stays as it is, and a finished event keeps
    what it says and is sealed or pending; the next sealing takes the pending events in their order,
    each out of the pending ones for good. -/
theorem chain_intact {os os' : List Operation} (hrun : Runs.run (step sha256) [] os = some table)
    (hlater : Runs.run (step sha256) table os' = some later) :
    ((inOrder later).map AuditEvent.chainIndex =
      (List.range' 1 (sealedRows later).length).map some) ∧
    (verifyChain sha256 later).intact = true ∧
    (verifyChain sha256 later).checked = (sealedRows later).length ∧
    (later.map AuditEvent.pk).Nodup ∧
    (∀ e ∈ table, e.isSealed = true → e ∈ later) ∧
    (∀ e ∈ table, e.isFinished = true → ∃ e' ∈ later, content e' = content e ∧
      (e'.isSealed = true ∨ e' ∈ pending later)) ∧
    (∀ limit, pending (sealPending sha256 limit later).2 = (pending later).drop limit) := by
  obtain ⟨hchained, hfollows⟩ := (chained_nil.run hrun).1.run hlater
  obtain ⟨h1, h2, h3⟩ := hchained.verifies
  refine ⟨h1, h2, h3, hchained.keys, hfollows.sealedKept, fun e he hf => ?_,
    fun limit => (hchained.sealPending limit).2.2⟩
  obtain ⟨d, hd, hcontent, hdf⟩ := hfollows.finishedKept e he hf
  refine ⟨d, hd, hcontent, ?_⟩
  cases hs : d.isSealed with
  | true => exact Or.inl rfl
  | false => exact Or.inr (mem_pending.mpr ⟨hd, hs, hdf⟩)

end Runs

def noon : DateTime :=
  ⟨2026, 1, 2, 12, 0, 0, 0, true, by decide, by decide, by decide, by decide, by decide, by decide,
    by decide⟩

/-- Two jobs end, one by an interruption, and are sealed one at a time. -/
def twoJobs : List Operation :=
  [.record 1 { action := "backup.create", status := .running } noon noon,
    .queue 2 { action := "backup.restore" } noon, .finish 1 none noon,
    .interrupt none [] (some [1, 2]) noon, .sealPending 1]

/-- A failure that comes too late, and the rest sealed. -/
def theRest : List Operation := [.fail 1 "unexpected" none "" noon, .sealPending 200]

theorem chain_intact_twoJobs : ∃ table later,
    Runs.run (step id) [] twoJobs = some table ∧ (pending table).length = 1 ∧
    Runs.run (step id) table theRest = some later ∧ (sealedRows later).length = 2 ∧
    (verifyChain id later).intact = true ∧ (verifyChain id later).checked = 2 := by
  refine ⟨_, _, rfl, by decide, rfl, by decide, ?_⟩
  obtain ⟨-, hintact, hchecked, -⟩ := @chain_intact id _ _ twoJobs theRest rfl rfl
  exact ⟨hintact, hchecked⟩

end Dbs.Audit

/-
  File:      Dbs/Audit/Commitment.lean
  Subject:   THE HEAD OF THE CHAIN COMMITS TO ALL OF IT: two tables that verify with one length and one
             head say the same in every sealed row.

  * `Agrees` -- equal in every chained field; `canonical_inj` -- rows of one text agree;
  * `CommitsTo` -- what is assumed of the hash; `link_inj` -- equal links have one hash before them and
    one text;
  * `head_commits` -- from the head backwards, link by link.
-/
import Dbs.Audit.Chain

namespace Dbs.Audit

/-! ## 1. The text tells the event -/

/-- Equal in every chained field; of the data, up to the order of its keys. -/
structure Agrees (e d : AuditEvent) : Prop where
  action : e.action = d.action
  targetName : e.targetName = d.targetName
  detail : e.detail = d.detail
  data : Json.norm e.data = Json.norm d.data
  status : e.status = d.status
  errorCode : e.errorCode = d.errorCode
  subject : e.subject = d.subject
  remoteAddr : e.remoteAddr = d.remoteAddr
  succeeded : e.succeeded = d.succeeded
  startedAt : e.startedAt = d.startedAt
  finishedAt : e.finishedAt = d.finishedAt
  createdAt : e.createdAt = d.createdAt
  chainIndex : e.chainIndex = d.chainIndex

theorem norm_text_inj {s t : String} (h : Json.norm (text s) = Json.norm (text t)) : s = t := by
  simp only [text, Json.norm, Json.Value.str.injEq] at h
  exact Json.Text.ofString_inj h

theorem norm_plain_inj {d e : DateTime} (h : Json.norm (plain d) = Json.norm (plain e)) : d = e :=
  DateTime.isoformat_inj (String.ofList_inj.mp (norm_text_inj h))

theorem norm_plainOrNone_inj {d e : Option DateTime}
    (h : Json.norm (plainOrNone d) = Json.norm (plainOrNone e)) : d = e := by
  cases d with
  | none =>
    cases e with
    | none => rfl
    | some e => cases h
  | some d =>
    cases e with
    | none => cases h
    | some e => rw [norm_plain_inj h]

theorem norm_index_inj {n m : Option Nat} (h : Json.norm (index n) = Json.norm (index m)) : n = m := by
  cases n with
  | none =>
    cases m with
    | none => rfl
    | some m => cases h
  | some n =>
    cases m with
    | none => cases h
    | some m =>
      have hscalar : Json.Value.scalar (.int n) = .scalar (.int m) := h
      rw [Int.natCast_inj.mp (Json.Scalar.int.inj (Json.Value.scalar.inj hscalar))]

theorem chainedKeys_nodup : chainedKeys.Nodup := by decide

/-- **Rows of one text agree** in every chained field. -/
theorem canonical_inj {e d : AuditEvent} (h : canonical e = canonical d) : Agrees e d := by
  have hnorm := Json.dumps_inj (String.ofList_inj.mp h)
  have hvalues := Json.norm_obj_inj chainedKeys_nodup rfl rfl hnorm
  simp only [chainedValues, List.map_cons, List.map_nil, List.cons.injEq, and_true] at hvalues
  obtain ⟨h1, h2, h3, h4, h5, h6, h7, h8, h9, h10, h11, h12, h13⟩ := hvalues
  refine ⟨norm_text_inj h1, norm_text_inj h2, norm_text_inj h3, h4, norm_text_inj h5,
    norm_text_inj h6, norm_text_inj h7, norm_text_inj h8, ?_, norm_plainOrNone_inj h10,
    norm_plainOrNone_inj h11, norm_plain_inj h12, norm_index_inj h13⟩
  simpa only [Json.norm, Json.Value.scalar.injEq, Json.Scalar.bool.injEq] using h9

/-! ## 2. Links -/

/-- The digits of a hex digest. -/
def hexDigits : List Char := "0123456789abcdef".toList

/-- What the chain relies on: no two texts have one digest, and a digest is written in hex digits. -/
structure CommitsTo (sha256 : String → String) : Prop where
  injective : Function.Injective sha256
  hex : ∀ s, ∀ c ∈ (sha256 s).toList, c ∈ hexDigits

theorem canonical_begins (e : AuditEvent) : ∃ t, (canonical e).toList = '{' :: t := by
  obtain ⟨c, t, ht, hc⟩ := Json.render_begins (Json.norm (.obj (chainedKeys.zip (chainedValues e))))
  rw [Json.norm] at hc
  cases hc with
  | obj members => exact ⟨t, by rw [canonical, String.toList_ofList]; exact ht⟩

/-- A brace ends a part without braces. -/
theorem split_at_brace {a b r s : List Char} (ha : '{' ∉ a) (hb : '{' ∉ b)
    (h : a ++ '{' :: r = b ++ '{' :: s) : a = b ∧ r = s := by
  induction a generalizing b with
  | nil =>
    cases b with
    | nil => exact ⟨rfl, (List.cons.inj h).2⟩
    | cons c b => exact absurd ((List.cons.inj h).1 ▸ List.mem_cons_self) hb
  | cons c a ih =>
    cases b with
    | nil => exact absurd ((List.cons.inj h).1 ▸ List.mem_cons_self) ha
    | cons d b =>
      obtain ⟨rfl, hrest⟩ := List.cons.inj h
      obtain ⟨rfl, hr⟩ := ih (fun hm => ha (List.mem_cons_of_mem _ hm))
        (fun hm => hb (List.mem_cons_of_mem _ hm)) hrest
      exact ⟨rfl, hr⟩

section Commitment

variable {sha256 : String → String} {previous previous' : String}

theorem CommitsTo.no_brace (h : CommitsTo sha256) (s : String) : '{' ∉ (sha256 s).toList :=
  fun hm => absurd (h.hex s '{' hm) (by decide)

/-- **Equal links** have one hash before them, and their rows agree. -/
theorem CommitsTo.link_inj (h : CommitsTo sha256) {e d : AuditEvent} (hp : '{' ∉ previous.toList)
    (hp' : '{' ∉ previous'.toList) (hl : link sha256 previous e = link sha256 previous' d) :
    previous = previous' ∧ Agrees e d := by
  obtain ⟨r, hr⟩ := canonical_begins e
  obtain ⟨s, hs⟩ := canonical_begins d
  have htext := congrArg String.toList (h.injective hl)
  rw [String.toList_append, String.toList_append, hr, hs] at htext
  obtain ⟨h1, h2⟩ := split_at_brace hp hp' htext
  refine ⟨String.toList_inj.mp h1, canonical_inj (String.toList_inj.mp ?_)⟩
  rw [hr, hs, h2]

variable {chain : List AuditEvent}

theorem CommitsTo.head_no_brace (h : CommitsTo sha256) {index : Nat}
    (hp : '{' ∉ previous.toList) (hl : Linked sha256 index previous chain) :
    '{' ∉ (headOf previous chain).toList := by
  induction chain generalizing index previous with
  | nil => exact hp
  | cons e rest ih => exact ih (hl.2.1 ▸ h.no_brace _) hl.2.2

theorem Linked.init {index : Nat} {e : AuditEvent}
    (h : Linked sha256 index previous (chain ++ [e])) : Linked sha256 index previous chain ∧
      link sha256 (headOf previous chain) e = e.chainHash := by
  induction chain generalizing index previous with
  | nil => exact ⟨trivial, h.2.1⟩
  | cons d rest ih =>
    obtain ⟨h1, h2⟩ := ih h.2.2
    exact ⟨⟨h.1, h.2.1, h1⟩, h2⟩

/-- From the head backwards. -/
theorem CommitsTo.chains (h : CommitsTo sha256) {chain chain' : List AuditEvent}
    (hl : Linked sha256 1 "" chain) (hl' : Linked sha256 1 "" chain')
    (hlen : chain.length = chain'.length) (hhead : headOf "" chain = headOf "" chain') :
    List.Forall₂ Agrees chain chain' := by
  have hempty : '{' ∉ "".toList := by decide
  induction hn : chain.length generalizing chain chain' with
  | zero =>
    have hn' : chain'.length = 0 := hlen.symm.trans hn
    rw [List.length_eq_zero_iff.mp hn, List.length_eq_zero_iff.mp hn']
    exact .nil
  | succ n ih =>
    rcases List.eq_nil_or_concat' chain with rfl | ⟨init, e, rfl⟩
    · cases hn
    rcases List.eq_nil_or_concat' chain' with rfl | ⟨init', d, rfl⟩
    · rw [hn] at hlen
      cases hlen
    rw [headOf_concat, headOf_concat] at hhead
    obtain ⟨hi, he⟩ := hl.init
    obtain ⟨hi', hd⟩ := hl'.init
    obtain ⟨hprevious, hagrees⟩ := h.link_inj (h.head_no_brace hempty hi)
      (h.head_no_brace hempty hi') (he.trans (hhead.trans hd.symm))
    rw [List.length_append, List.length_singleton] at hn
    rw [List.length_append, List.length_append, List.length_singleton, List.length_singleton] at hlen
    have hbefore := ih hi hi' (by omega) hprevious (by omega)
    exact List.rel_append hbefore (.cons hagrees .nil)

/-! ## 3. Tables -/

/-- What an intact check says about any table. -/
theorem verifyChain_intact {table : List AuditEvent} (h : (verifyChain sha256 table).intact = true) :
    Linked sha256 1 "" (inOrder table) ∧
    (verifyChain sha256 table).checked = (inOrder table).length ∧
    (verifyChain sha256 table).head = headOf "" (inOrder table) := by
  have hsealed : ∀ e ∈ inOrder table, e.isSealed = true := fun e he =>
    (mem_sealedRows.mp ((Rows.orderBy_perm _ _).mem_iff.mp he)).2
  have hlinked : Linked sha256 1 "" (inOrder table) := by
    have hiff : (verifyRows sha256 {} "" 1 (inOrder table)).brokenAt = none ↔
        Linked sha256 1 "" (inOrder table) := verifyRows_linked hsealed rfl
    refine hiff.mp ?_
    unfold verifyChain at h
    by_cases hi : (verifyRows sha256 {} "" 1 (inOrder table)).intact = true
    · exact Option.isNone_iff_eq_none.mp hi
    · rw [if_neg hi] at h
      exact absurd h hi
  have hcheck : verifyRows sha256 {} "" 1 (inOrder table) =
      { checked := (inOrder table).length, head := headOf "" (inOrder table) } := by
    rw [verifyRows_eq hlinked, Nat.zero_add]
  refine ⟨hlinked, ?_, ?_⟩ <;> rw [verifyChain, hcheck] <;> rfl

theorem mem_inOrder {table : List AuditEvent} {e : AuditEvent} {n : Nat} (he : e ∈ table)
    (hn : e.chainIndex = some n) : e ∈ inOrder table :=
  (Rows.orderBy_perm _ _).mem_iff.mpr
    (mem_sealedRows.mpr ⟨he, by rw [AuditEvent.isSealed, hn]; rfl⟩)

/-- In a linked table an index has one row, at its place. -/
theorem Linked.at_index {index : Nat} {e : AuditEvent} {n : Nat}
    (hl : Linked sha256 index previous chain) (he : e ∈ chain) (hn : e.chainIndex = some n) :
    chain[n - index]? = some e := by
  obtain ⟨i, hi, rfl⟩ := List.getElem_of_mem he
  have hp := congrArg (fun l => l[i]?) hl.places
  simp only [List.getElem?_map, List.getElem?_eq_getElem hi, Option.map_some, hn,
    List.getElem?_range' hi, Option.some.injEq] at hp
  have hindex : n - index = i := by omega
  rw [hindex, List.getElem?_eq_getElem hi]

/-- **The head commits to the whole history.** For a hash without collisions: two tables, whatever
    rows were written into them, on which the check succeeds with one number of sealed events and one
    head, agree row by row in every chained field; so the events at every index do. -/
theorem head_commits (h : CommitsTo sha256) {table table' : List AuditEvent}
    (hi : (verifyChain sha256 table).intact = true) (hi' : (verifyChain sha256 table').intact = true)
    (hchecked : (verifyChain sha256 table).checked = (verifyChain sha256 table').checked)
    (hhead : (verifyChain sha256 table).head = (verifyChain sha256 table').head) :
    List.Forall₂ Agrees (inOrder table) (inOrder table') ∧
    ∀ n, ∀ e ∈ table, ∀ d ∈ table', e.chainIndex = some n → d.chainIndex = some n → Agrees e d := by
  obtain ⟨hl, hc, hh⟩ := verifyChain_intact hi
  obtain ⟨hl', hc', hh'⟩ := verifyChain_intact hi'
  have hrows := h.chains hl hl' (hc.symm.trans (hchecked.trans hc')) (hh.symm.trans (hhead.trans hh'))
  refine ⟨hrows, fun n e he d hd hen hdn => ?_⟩
  have h1 := hl.at_index (mem_inOrder he hen) hen
  have h2 := hl'.at_index (mem_inOrder hd hdn) hdn
  obtain ⟨hlt, he⟩ := List.getElem?_eq_some_iff.mp h1
  obtain ⟨hlt', hd⟩ := List.getElem?_eq_some_iff.mp h2
  exact he ▸ hd ▸ (List.forall₂_iff_get.mp hrows).2 (n - 1) hlt hlt'

end Commitment

/-- A digest of any length: every character by its number, one digit for each unit. -/
def unaryDigest (s : String) : String :=
  String.ofList (s.toList.flatMap fun c => List.replicate c.toNat 'a' ++ ['b'])

theorem replicate_append_inj {n m : Nat} {r s : List Char}
    (h : List.replicate n 'a' ++ 'b' :: r = List.replicate m 'a' ++ 'b' :: s) : n = m ∧ r = s := by
  induction n generalizing m with
  | zero =>
    cases m with
    | zero => exact ⟨rfl, (List.cons.inj h).2⟩
    | succ m => exact absurd (List.cons.inj h).1 (by decide)
  | succ n ih =>
    cases m with
    | zero => exact absurd (List.cons.inj h).1 (by decide)
    | succ m =>
      obtain ⟨hnm, hr⟩ := ih (List.cons.inj h).2
      exact ⟨congrArg Nat.succ hnm, hr⟩

theorem unaryDigest_commits : CommitsTo unaryDigest := by
  refine ⟨fun s t h => ?_, fun s c hc => ?_⟩
  · have hl := String.ofList_inj.mp h
    refine String.toList_inj.mp ?_
    generalize s.toList = a at hl
    generalize t.toList = b at hl
    induction a generalizing b with
    | nil =>
      cases b with
      | nil => rfl
      | cons d b => simp at hl
    | cons c a ih =>
      cases b with
      | nil => simp at hl
      | cons d b =>
        rw [List.flatMap_cons, List.flatMap_cons, List.append_assoc, List.append_assoc] at hl
        obtain ⟨hcd, hrest⟩ := replicate_append_inj hl
        rw [Char.toNat_inj.mp hcd, ih b hrest]
  · rw [unaryDigest, String.toList_ofList] at hc
    obtain ⟨d, -, hc⟩ := List.mem_flatMap.mp hc
    rcases List.mem_append.mp hc with hc | hc
    · rw [List.eq_of_mem_replicate hc]
      decide
    · rw [List.mem_singleton.mp hc]
      decide

/-- A third job, still running. -/
def stillRunning : AuditEvent :=
  recorded 3 { action := "backup.create", status := .running } noon noon

/-- Two sealed jobs are what they were after a third one came in. -/
theorem head_commits_twoJobs : ∃ table,
    Runs.run (step unaryDigest) [] (twoJobs ++ theRest) = some table ∧ (inOrder table).length = 2 ∧
    List.Forall₂ Agrees (inOrder table) (inOrder (table ++ [stillRunning])) := by
  have hreached : ∃ table, Runs.run (step unaryDigest) [] (twoJobs ++ theRest) = some table ∧
      (inOrder table).length = 2 ∧ stillRunning.pk ∉ table.map AuditEvent.pk :=
    ⟨_, rfl, by decide, by decide⟩
  obtain ⟨table, hrun, hlength, hpk⟩ := hreached
  refine ⟨table, hrun, hlength, ?_⟩
  have hchained : Chained unaryDigest table := (chained_nil.run hrun).1
  have hmore : Chained unaryDigest (table ++ [stillRunning]) := (hchained.append rfl hpk).1
  have hrows : sealedRows (table ++ [stillRunning]) = sealedRows table := sealedRows_append rfl
  obtain ⟨-, hi, hc⟩ := hchained.verifies
  obtain ⟨-, hi', hc'⟩ := hmore.verifies
  refine (head_commits unaryDigest_commits hi hi' ?_ ?_).1
  · rw [hc, hc', hrows]
  · rw [(verifyChain_intact hi).2.2, (verifyChain_intact hi').2.2, inOrder, inOrder, hrows]

end Dbs.Audit

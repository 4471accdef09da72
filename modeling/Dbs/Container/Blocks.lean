/-
  File:      Dbs/Container/Blocks.lean
  Subject:   REPAIRING A VERSION 1 BACKUP (container/blocks.py): block by block from two stored copies,
             each block checked against its recorded hash.

  A block comes from the first copy that yields it, stripped or decoded; failing both copies, each of
  its codewords is rebuilt from either of them. The hash, and the decoder of the third-party package,
  are parameters. (The plan's block size plays no part in a repair and is left out.)

  * `decodeBlock`, `rebuildFromBoth`, `repairBlock`, `repairCopies` -- the code;
  * `Tallied` -- what holds after some of the blocks; `tallied_run`;
  * `decode_of_near` -- a stored block within `nsym / 2` errors a codeword is decoded;
  * `NearWord`, `Recorded` -- a damaged block, the plan of a backup; `repairAll_near`;
  * `repair_sound_complete` -- the blocks, the counts, the failures, and the way back;
    `plan_unchecked` -- plans whose lists or lengths do not fit one another.
-/
import Dbs.Container.Decoder

namespace Dbs.Blocks

open Octets ReedSolomon
open Rs (Codec codewordSize codewordCount codewordAt encode codeword messages messageAt)

/-! ## 1. The code -/

section Definitions

variable {η : Type} [DecidableEq η]

structure BlockPlan (η : Type) where
  nsym : Int
  ciphertextLen : Int
  encLens : List Int
  encHashes : List η
  dataHashes : List η

def BlockPlan.nBlocks (plan : BlockPlan η) : Nat := plan.encLens.length

/-- `zip(plan.enc_lens, plan.enc_hashes, plan.data_hashes)`. -/
def BlockPlan.entries (plan : BlockPlan η) : List (Int × η × η) :=
  plan.encLens.zip (plan.encHashes.zip plan.dataHashes)

structure RepairReport where
  totalBlocks : Nat := 0
  blocksDirect : Nat := 0
  blocksRsCorrected : Nat := 0
  blocksUsedB : Nat := 0
  blocksMerged : Nat := 0
  copiesAvailable : Nat := 2
  failedBlocks : List Nat := []
deriving DecidableEq, Repr

/-- The two copies. -/
inductive Label
  | a
  | b
deriving DecidableEq, Repr

/-- Where an index of a sequence lies; one below zero counts from the end. -/
def place (length : Nat) (i : Int) : Nat := if i < 0 then (length + i).toNat else min i.toNat length

/-- `data[start:stop]`. -/
def cut (data : Bytes) (start stop : Int) : Bytes :=
  (data.take (place data.length stop)).drop (place data.length start)

/-- `RSCodec(nsym)`, the third-party decoder; it refuses some `nsym`. -/
abbrev Reedsolo := Int → Option (Bytes → List Nat → Option Bytes)

structure RSCodec where
  nsym : Int
  decode : Bytes → List Nat → Option Bytes

/-- The length of a codeword is not set, so it is the decoder's default. -/
def RSCodec.nsize (_ : RSCodec) : Nat := 255

/-- The decoder that `rs.py` makes for itself. -/
def codecOf (reedsolo : Reedsolo) : Codec := fun nsym stored erasures =>
  (reedsolo nsym).bind fun decode => decode stored erasures

variable (reedsolo : Reedsolo) (hash : Bytes → η)

/-- `data if data is not None and _hash(data) == data_hash else None`. -/
def checked (dataHash : η) (data : Option Bytes) : Option Bytes :=
  data.filter fun d => hash d = dataHash

def decodeWithReedsolo (rsc : RSCodec) (encoded : Bytes) (dataHash : η) : Option Bytes :=
  checked hash dataHash (rsc.decode encoded [])

def rebuildCodeword (rsc : RSCodec) (first second : Bytes) : Option Bytes :=
  match rsc.decode first [] <|> rsc.decode second [] with
  | some data => some data
  | none =>
    let differing := Rs.differing first second
    if differing = [] ∨ rsc.nsym < differing.length then none
    else rsc.decode first differing <|> rsc.decode second differing

def rebuildFromBoth (rsc : RSCodec) (encoded : List Bytes) (dataHash : η) : Option Bytes :=
  match encoded with
  | [first, second] =>
    if first.length ≠ second.length then none
    else
      let rebuilt := ((pieces rsc.nsize first).zip (pieces rsc.nsize second)).mapM fun words =>
        rebuildCodeword rsc words.1 words.2
      checked hash dataHash (rebuilt.map List.flatten)
  | _ => none

def decodeBlock (rsc : RSCodec) (encoded : Bytes) (dataHash : η) : Option Bytes :=
  if rsc.nsize ≠ codewordSize ∨ ¬ ((Rs.minNsym : Int) ≤ rsc.nsym ∧ rsc.nsym ≤ Rs.maxNsym) then
    decodeWithReedsolo hash rsc encoded dataHash
  else
    match checked hash dataHash (Rs.stripParity encoded rsc.nsym.toNat) with
    | some stripped => some stripped
    | none => checked hash dataHash (Rs.decode (codecOf reedsolo) encoded rsc.nsym.toNat)

/-- What a block came from. -/
structure Chosen where
  data : Bytes
  usedB : Bool
  neededRs : Bool

/-- The first copy that yields the block. -/
def firstCopy (rsc : RSCodec) (encHash dataHash : η) : List (Label × Bytes) → Option Chosen
  | [] => none
  | (label, encoded) :: rest =>
    match decodeBlock reedsolo hash rsc encoded dataHash with
    | some data => some ⟨data, label = .b, hash encoded ≠ encHash⟩
    | none => firstCopy rsc encHash dataHash rest

/-- The loop over the blocks. -/
structure Progress where
  report : RepairReport
  chunks : List Bytes := []
  offset : Int := 0

def repairBlock (rsc : RSCodec) (sources : List (Label × Bytes)) (s : Progress)
    (entry : (Int × η × η) × Nat) : Progress :=
  let ((encLen, encHash, dataHash), index) := entry
  let encodedCopies := sources.map fun source => cut source.2 s.offset (s.offset + encLen)
  let offset := s.offset + encLen
  match firstCopy reedsolo hash rsc encHash dataHash ((sources.map (·.1)).zip encodedCopies) with
  | some chosen =>
    { report := { s.report with
        blocksUsedB := s.report.blocksUsedB + if chosen.usedB then 1 else 0
        blocksRsCorrected := s.report.blocksRsCorrected + if chosen.neededRs then 1 else 0
        blocksDirect := s.report.blocksDirect + if chosen.neededRs then 0 else 1 }
      chunks := s.chunks ++ [chosen.data]
      offset }
  | none =>
    match rebuildFromBoth hash rsc encodedCopies dataHash with
    | some data =>
      { report := { s.report with blocksMerged := s.report.blocksMerged + 1 }
        chunks := s.chunks ++ [data]
        offset }
    | none =>
      { report := { s.report with failedBlocks := s.report.failedBlocks ++ [index] }
        chunks := s.chunks ++ [[]]
        offset }

def sourcesOf (copyA copyB : Option Bytes) : List (Label × Bytes) :=
  [(Label.a, copyA), (Label.b, copyB)].filterMap fun (label, copy) => copy.map (Prod.mk label)

/-- The block loop from its start. -/
def repairAll (rsc : RSCodec) (copyA copyB : Option Bytes) (plan : BlockPlan η) : Progress :=
  let sources := sourcesOf copyA copyB
  plan.entries.zipIdx.foldl (repairBlock reedsolo hash rsc sources)
    { report := { totalBlocks := plan.nBlocks, copiesAvailable := sources.length } }

/-- The ciphertext if every block was repaired, and the report; nothing where the decoder refuses
    `nsym`. -/
def repairCopies (copyA copyB : Option Bytes) (plan : BlockPlan η) :
    Option (Option Bytes × RepairReport) :=
  match reedsolo plan.nsym with
  | none => none
  | some decode =>
    let done := repairAll reedsolo hash ⟨plan.nsym, decode⟩ copyA copyB plan
    if done.report.failedBlocks ≠ [] then some (none, done.report)
    else
      let ciphertext := done.chunks.flatten
      some (some (if (ciphertext.length : Int) ≠ plan.ciphertextLen then
        cut ciphertext 0 plan.ciphertextLen else ciphertext), done.report)

end Definitions

/-! ## 2. A block has its hash -/

section Hashes

variable {η : Type} [DecidableEq η] {reedsolo : Reedsolo} {hash : Bytes → η} {rsc : RSCodec}
  {encHash dataHash : η} {data : Bytes}

theorem checked_eq_some {found : Option Bytes} :
    checked hash dataHash found = some data ↔ found = some data ∧ hash data = dataHash := by
  rw [checked, Option.filter_eq_some_iff, decide_eq_true_iff]

theorem hash_decodeBlock {encoded : Bytes}
    (h : decodeBlock reedsolo hash rsc encoded dataHash = some data) : hash data = dataHash := by
  rw [decodeBlock] at h
  split at h
  · exact (checked_eq_some.mp h).2
  · cases hstrip : checked hash dataHash (Rs.stripParity encoded rsc.nsym.toNat) with
    | some stripped =>
      rw [hstrip] at h
      cases h
      exact (checked_eq_some.mp hstrip).2
    | none =>
      rw [hstrip] at h
      exact (checked_eq_some.mp h).2

theorem hash_firstCopy {sources : List (Label × Bytes)} {chosen : Chosen}
    (h : firstCopy reedsolo hash rsc encHash dataHash sources = some chosen) :
    hash chosen.data = dataHash := by
  induction sources with
  | nil => cases h
  | cons source sources ih =>
    rw [firstCopy] at h
    cases hd : decodeBlock reedsolo hash rsc source.2 dataHash with
    | some data =>
      rw [hd] at h
      cases h
      exact hash_decodeBlock hd
    | none =>
      rw [hd] at h
      exact ih h

theorem hash_rebuildFromBoth {encoded : List Bytes}
    (h : rebuildFromBoth hash rsc encoded dataHash = some data) : hash data = dataHash := by
  unfold rebuildFromBoth at h
  split at h
  · split at h
    · cases h
    · exact (checked_eq_some.mp h).2
  · cases h

/-! ## 3. The counts -/

/-- **After some blocks**: each of them was counted once, and without a failure each has its chunk,
    with its hash. -/
structure Tallied (hash : Bytes → η) (total : Nat) (done : List (Int × η × η)) (s : Progress) :
    Prop where
  total : s.report.totalBlocks = total
  count : s.report.blocksDirect + s.report.blocksRsCorrected + s.report.blocksMerged +
    s.report.failedBlocks.length = done.length
  chunks : s.report.failedBlocks = [] →
    List.Forall₂ (fun chunk entry => hash chunk = entry.2.2) s.chunks done

theorem forall₂_concat {α β : Type} {R : α → β → Prop} {l : List α} {m : List β} {a : α} {b : β}
    (h : List.Forall₂ R l m) (hab : R a b) : List.Forall₂ R (l ++ [a]) (m ++ [b]) :=
  List.rel_append h (.cons hab .nil)

theorem tallied_step {total : Nat} {done : List (Int × η × η)} {s : Progress}
    (sources : List (Label × Bytes)) (h : Tallied hash total done s) (entry : Int × η × η)
    (index : Nat) :
    Tallied hash total (done ++ [entry]) (repairBlock reedsolo hash rsc sources s (entry, index)) := by
  have hcount := h.count
  obtain ⟨encLen, encHash, dataHash⟩ := entry
  rw [repairBlock]
  simp only
  split
  · rename_i chosen hchosen
    refine ⟨h.total, ?_, fun hfailed => forall₂_concat (h.chunks hfailed) (hash_firstCopy hchosen)⟩
    rw [List.length_append, List.length_singleton, ← hcount]
    cases chosen.neededRs with
    | true => simp only [if_true]; omega
    | false => simp only [Bool.false_eq_true, if_false]; omega
  · split
    · rename_i data hdata
      refine ⟨h.total, ?_, fun hfailed =>
        forall₂_concat (h.chunks hfailed) (hash_rebuildFromBoth hdata)⟩
      rw [List.length_append, List.length_singleton, ← hcount]
      simp only
      omega
    · refine ⟨h.total, ?_, fun hfailed => absurd hfailed (List.concat_ne_nil _ _)⟩
      simp only [List.length_append, List.length_singleton]
      omega

/-- By induction on the blocks that are left. -/
theorem tallied_run {total : Nat} {done : List (Int × η × η)} {s : Progress}
    (sources : List (Label × Bytes)) (h : Tallied hash total done s) (entries : List (Int × η × η))
    (index : Nat) : Tallied hash total (done ++ entries)
      ((entries.zipIdx index).foldl (repairBlock reedsolo hash rsc sources) s) := by
  induction entries generalizing done s index with
  | nil =>
    rw [List.append_nil]
    exact h
  | cons entry entries ih =>
    rw [List.zipIdx_cons, List.foldl_cons, List.append_cons]
    exact ih (tallied_step sources h entry index) (index + 1)

theorem tallied_repairAll (copyA copyB : Option Bytes) (plan : BlockPlan η) :
    Tallied hash plan.nBlocks plan.entries (repairAll reedsolo hash rsc copyA copyB plan) := by
  have hstart : Tallied hash plan.nBlocks [] { report :=
      { totalBlocks := plan.nBlocks, copiesAvailable := (sourcesOf copyA copyB).length } } :=
    ⟨rfl, rfl, fun _ => .nil⟩
  exact tallied_run (sourcesOf copyA copyB) hstart plan.entries 0

end Hashes

/-! ## 4. A block that is near -/

/-- The decoder returns the message whose codeword is within `nsym / 2` errors. -/
def Corrects (codec : Codec) : Prop :=
  ∀ nsym < codewordSize, ∀ stored m : Bytes, nsym < stored.length → stored.length ≤ codewordSize →
    m.length + nsym = stored.length → hamming stored (codeword nsym m) ≤ nsym / 2 →
    codec nsym stored [] = some m

/-- A stored block in which no codeword has more than `nsym / 2` errors. -/
structure NearWord (nsym : Nat) (stored encoded : Bytes) : Prop where
  length : stored.length = encoded.length
  near : ∀ j < codewordCount encoded.length,
    hamming (codewordAt stored j) (codewordAt encoded j) ≤ nsym / 2

section Near

variable {codec : Codec} {nsym : Nat}

/-- **A near block is decoded.** -/
theorem decode_of_near (hcodec : codec.ByCodeword) (hcorrects : Corrects codec)
    (hn : nsym < codewordSize)
    {stored data : Bytes} (h : NearWord nsym stored (encode data nsym)) :
    Rs.decode codec stored nsym = some data := by
  have hwf : Rs.isWellFormed stored.length nsym = true := by
    rw [h.length, Rs.encode_length hn]
    exact Rs.isWellFormed_encodedLength hn _
  have hcount : codewordCount stored.length = (messages nsym data).length := by
    rw [h.length, Rs.codewordCount_encode hn]
  have hdecoded : ∀ j ∈ List.range (codewordCount stored.length),
      codec nsym (codewordAt stored j) [] = some (messageAt nsym data j) := by
    intro j hj
    have hj := List.mem_range.mp hj
    have hj' : j < (messages nsym data).length := hcount ▸ hj
    have hm : (messageAt nsym data j).length ≤ Rs.messageLength nsym := slice_length_le _ _ _
    have hlen : (codewordAt stored j).length = (messageAt nsym data j).length + nsym := by
      rw [← Rs.codeword_length hm, ← Rs.codewordAt_encode hn hj']
      exact Rs.codewordAt_length_eq h.length j
    have hnear := h.near j (by rw [← h.length]; exact hj)
    rw [Rs.codewordAt_encode hn hj'] at hnear
    exact hcorrects nsym hn _ _ (Rs.length_codewordAt hn hwf hj) (Rs.codewordAt_length_le stored j)
      hlen.symm hnear
  rw [Rs.decode_eq_decodeWhole hcodec hn, Rs.decodeWhole_eq hcodec hn,
    Rows.mapM_eq_some_map hdecoded, hcount,
    Option.map_some, ← Rs.messages_eq_map, Rs.messages_flatten hn]

end Near

/-! ## 5. A backup and its plan -/

section Complete

variable {η : Type} [DecidableEq η] {reedsolo : Reedsolo} {hash : Bytes → η} {nsym : Nat}
  {decode : Bytes → List Nat → Option Bytes}

/-- The plan of a backup whose ciphertext is cut into these blocks. -/
structure Recorded (hash : Bytes → η) (nsym : Nat) (blocks : List Bytes) (plan : BlockPlan η) :
    Prop where
  parity : plan.nsym = nsym
  ciphertextLen : plan.ciphertextLen = blocks.flatten.length
  encLens : plan.encLens = blocks.map fun block => ((encode block nsym).length : Int)
  encHashes : plan.encHashes = blocks.map fun block => hash (encode block nsym)
  dataHashes : plan.dataHashes = blocks.map hash

/-- The entry of a block. -/
def entryOf (hash : Bytes → η) (nsym : Nat) (block : Bytes) : Int × η × η :=
  ((encode block nsym).length, hash (encode block nsym), hash block)

omit [DecidableEq η] in
theorem Recorded.entries {blocks : List Bytes} {plan : BlockPlan η}
    (h : Recorded hash nsym blocks plan) :
    plan.entries = blocks.map (entryOf hash nsym) := by
  rw [BlockPlan.entries, h.encLens, h.encHashes, h.dataHashes, List.zip_map', List.zip_map']
  rfl

theorem cut_eq_slice (data : Bytes) (start length : Nat) :
    cut data start (start + length) = slice data start length := by
  have hplace : ∀ i : Nat, place data.length i = min i data.length := by
    intro i
    rw [place, if_neg (by omega), Int.toNat_natCast]
  have hsum : (start + length : Int) = ((start + length : Nat) : Int) := by omega
  rw [cut, hsum, hplace, hplace, slice, List.take_drop]
  rcases Nat.le_total start data.length with h | h
  · rw [Nat.min_eq_left h]
    rcases Nat.le_total (start + length) data.length with h' | h'
    · rw [Nat.min_eq_left h']
    · rw [Nat.min_eq_right h', List.take_of_length_le le_rfl, List.take_of_length_le h']
  · rw [Nat.min_eq_right h, List.drop_of_length_le (List.length_take_le' _ _),
      List.drop_of_length_le ((List.length_take_le' _ _).trans h)]

/-- A near copy yields the block: stripped, if that has the hash already, or decoded. -/
theorem decodeBlock_near (hcodec : (codecOf reedsolo).ByCodeword)
    (hcorrects : Corrects (codecOf reedsolo))
    (hrange : Rs.minNsym ≤ nsym ∧ nsym ≤ Rs.maxNsym) {stored block : Bytes}
    (h : NearWord nsym stored (encode block nsym)) :
    ∃ data, decodeBlock reedsolo hash ⟨nsym, decode⟩ stored (hash block) = some data := by
  have hn : nsym < codewordSize := lt_of_le_of_lt hrange.2 (by decide)
  have hin : ¬ (RSCodec.nsize ⟨nsym, decode⟩ ≠ codewordSize ∨
      ¬ ((Rs.minNsym : Int) ≤ nsym ∧ (nsym : Int) ≤ Rs.maxNsym)) := by
    rw [not_or, not_not, not_not]
    exact ⟨rfl, by omega, by omega⟩
  rw [decodeBlock, if_neg hin]
  simp only [Int.toNat_natCast]
  cases checked hash (hash block) (Rs.stripParity stored nsym) with
  | some stripped => exact ⟨stripped, rfl⟩
  | none => exact ⟨block, checked_eq_some.mpr ⟨decode_of_near hcodec hcorrects hn h, rfl⟩⟩

/-- The first copy that yields something yields the block, if no other bytes have its hash. -/
theorem firstCopy_near (encHash : η) {rsc : RSCodec} {block : Bytes} {sources : List (Label × Bytes)}
    (hhash : ∀ data, hash data = hash block → data = block)
    (h : ∃ source ∈ sources, ∃ data, decodeBlock reedsolo hash rsc source.2 (hash block) = some data) :
    ∃ chosen, firstCopy reedsolo hash rsc encHash (hash block) sources = some chosen ∧
      chosen.data = block := by
  induction sources with
  | nil =>
    obtain ⟨_, hmem, -⟩ := h
    cases hmem
  | cons source sources ih =>
    rw [firstCopy]
    cases hd : decodeBlock reedsolo hash rsc source.2 (hash block) with
    | some data => exact ⟨_, rfl, hhash data (hash_decodeBlock hd)⟩
    | none =>
      obtain ⟨other, hmem, data, hdata⟩ := h
      rcases List.mem_cons.mp hmem with rfl | hmem
      · rw [hd] at hdata
        cases hdata
      · exact ih ⟨other, hmem, data, hdata⟩

variable {copyA copyB : Option Bytes}

theorem mem_sourcesOf {copy : Bytes} :
    (copyA = some copy ∨ copyB = some copy) ↔ ∃ label, (label, copy) ∈ sourcesOf copyA copyB := by
  cases copyA <;> cases copyB <;> simp [sourcesOf, eq_comm, exists_or]

/-- Every block of the backup is near in one of the copies, at its place there. -/
def NearEach (nsym : Nat) (blocks : List Bytes) (copyA copyB : Option Bytes) : Prop :=
  ∀ i block, blocks[i]? = some block → ∃ copy, (copyA = some copy ∨ copyB = some copy) ∧
    NearWord nsym
      (slice copy ((blocks.take i).flatMap (encode · nsym)).length (encode block nsym).length)
      (encode block nsym)

/-- **The loop over a backup**: by induction on the blocks that are left, with those before them joined
    and none of them failed. -/
theorem repairAll_near (hcodec : (codecOf reedsolo).ByCodeword)
    (hcorrects : Corrects (codecOf reedsolo))
    (hrange : Rs.minNsym ≤ nsym ∧ nsym ≤ Rs.maxNsym) {blocks : List Bytes}
    (hhash : ∀ block ∈ blocks, ∀ data, hash data = hash block → data = block)
    (hnear : NearEach nsym blocks copyA copyB) (done rest : List Bytes)
      (hblocks : blocks = done ++ rest)
    (index : Nat) {s : Progress} (hfailed : s.report.failedBlocks = []) (hchunks : s.chunks = done)
    (hoffset : s.offset = ((done.flatMap (encode · nsym)).length : Int)) :
    let final := ((rest.map (entryOf hash nsym)).zipIdx index).foldl
      (repairBlock reedsolo hash ⟨nsym, decode⟩ (sourcesOf copyA copyB)) s
    final.report.failedBlocks = [] ∧ final.chunks = blocks := by
  induction rest generalizing done s index with
  | nil =>
    rw [List.append_nil] at hblocks
    exact ⟨hfailed, hchunks.trans hblocks.symm⟩
  | cons block rest ih =>
    have hat : blocks[done.length]? = some block := by
      rw [hblocks, List.getElem?_append_right le_rfl, Nat.sub_self]
      rfl
    have htake : blocks.take done.length = done := by rw [hblocks, List.take_left]
    obtain ⟨copy, hcopy, hword⟩ := hnear _ _ hat
    rw [htake] at hword
    obtain ⟨label, hsource⟩ := mem_sourcesOf.mp hcopy
    -- the copy that is near is among those that are tried
    have hslice : cut copy s.offset (s.offset + ((encode block nsym).length : Int)) =
        slice copy (done.flatMap (encode · nsym)).length (encode block nsym).length := by
      rw [hoffset]
      exact cut_eq_slice copy _ _
    have htried : ∃ source ∈ ((sourcesOf copyA copyB).map (·.1)).zip
        ((sourcesOf copyA copyB).map fun source =>
          cut source.2 s.offset (s.offset + ((encode block nsym).length : Int))),
        ∃ data, decodeBlock reedsolo hash ⟨nsym, decode⟩ source.2 (hash block) = some data := by
      rw [List.zip_map']
      refine ⟨_, List.mem_map_of_mem hsource, ?_⟩
      simp only [hslice]
      exact decodeBlock_near hcodec hcorrects hrange hword
    obtain ⟨chosen, hchosen, hdata⟩ := firstCopy_near (hash (encode block nsym))
      (hhash block (List.mem_of_getElem? hat)) htried
    have hstep : (repairBlock reedsolo hash ⟨nsym, decode⟩ (sourcesOf copyA copyB) s
        (entryOf hash nsym block, index)).report.failedBlocks = [] ∧
        (repairBlock reedsolo hash ⟨nsym, decode⟩ (sourcesOf copyA copyB) s
          (entryOf hash nsym block, index)).chunks = done ++ [block] ∧
        (repairBlock reedsolo hash ⟨nsym, decode⟩ (sourcesOf copyA copyB) s
          (entryOf hash nsym block, index)).offset =
          (((done ++ [block]).flatMap (encode · nsym)).length : Int) := by
      rw [entryOf, repairBlock]
      simp only [hchosen]
      refine ⟨hfailed, by rw [hchunks, hdata], ?_⟩
      rw [hoffset, List.flatMap_append, List.length_append, List.flatMap_singleton]
      omega
    rw [List.map_cons, List.zipIdx_cons, List.foldl_cons]
    exact ih (done ++ [block]) (by rw [hblocks, List.append_assoc]; rfl) (index + 1) hstep.1 hstep.2.1
      hstep.2.2

/-- The blocks joined are as long as the plan says, or they are cut to that. -/
theorem ciphertext_eq (joined : Bytes) (length : Int) :
    (if (joined.length : Int) ≠ length then cut joined 0 length else joined) = cut joined 0 length := by
  split
  · rfl
  · rename_i h
    have hlength : length = ((0 + joined.length : Nat) : Int) := by omega
    have hcut := cut_eq_slice joined 0 joined.length
    rw [Int.natCast_zero, slice_zero, List.take_length, zero_add] at hcut
    rw [hlength, Nat.zero_add, hcut]

theorem repairCopies_eq {plan : BlockPlan η} (h : reedsolo plan.nsym = some decode) :
    repairCopies reedsolo hash copyA copyB plan =
      let done := repairAll reedsolo hash ⟨plan.nsym, decode⟩ copyA copyB plan
      some (if done.report.failedBlocks ≠ [] then none
        else some (cut done.chunks.flatten 0 plan.ciphertextLen), done.report) := by
  rw [repairCopies, h]
  simp only [ciphertext_eq]
  split
  · rfl
  · rfl

/-- **A repair is sound and complete, block by block.** Whatever the copies and the plan: a ciphertext
    is made of blocks with the recorded hashes, cut to the recorded length; the blocks taken directly,
    corrected, merged and failed are the blocks that all three lists of the plan describe; and there
    is no ciphertext exactly where a block failed. Where the plan is that of a backup and every block
    is near in a copy, its ciphertext comes back. -/
theorem repair_sound_complete (reedsolo : Reedsolo) (hash : Bytes → η) (copyA copyB : Option Bytes)
    (plan : BlockPlan η) :
    (∀ result report, repairCopies reedsolo hash copyA copyB plan = some (result, report) →
      (∀ ciphertext, result = some ciphertext → ∃ blocks,
        List.Forall₂ (fun block entry => hash block = entry.2.2) blocks plan.entries ∧
        ciphertext = cut blocks.flatten 0 plan.ciphertextLen ∧
        ((blocks.flatten.length : Int) = plan.ciphertextLen → ciphertext = blocks.flatten)) ∧
      report.blocksDirect + report.blocksRsCorrected + report.blocksMerged +
        report.failedBlocks.length = plan.entries.length ∧
      report.totalBlocks = plan.nBlocks ∧
      (plan.nBlocks ≤ plan.encHashes.length → plan.nBlocks ≤ plan.dataHashes.length →
        plan.entries.length = plan.nBlocks) ∧
      (result = none ↔ report.failedBlocks ≠ [])) ∧
    (∀ (nsym : Nat) (decode : Bytes → List Nat → Option Bytes) (blocks : List Bytes),
      Rs.minNsym ≤ nsym ∧ nsym ≤ Rs.maxNsym → reedsolo nsym = some decode →
      (codecOf reedsolo).ByCodeword → Corrects (codecOf reedsolo) →
      (∀ block ∈ blocks, ∀ data, hash data = hash block → data = block) →
      Recorded hash nsym blocks plan → NearEach nsym blocks copyA copyB →
      ∃ report, repairCopies reedsolo hash copyA copyB plan = some (some blocks.flatten, report)) := by
  constructor
  · intro result report h
    cases hdecode : reedsolo plan.nsym with
    | none =>
      rw [repairCopies, hdecode] at h
      cases h
    | some decode =>
      rw [repairCopies_eq hdecode] at h
      obtain ⟨hresult, rfl⟩ := Prod.mk.inj (Option.some.inj h)
      have htallied : Tallied hash plan.nBlocks plan.entries
          (repairAll reedsolo hash ⟨plan.nsym, decode⟩ copyA copyB plan) :=
        tallied_repairAll copyA copyB plan
      refine ⟨fun ciphertext hsome => ?_, htallied.count, htallied.total, fun h1 h2 => ?_, ?_⟩
      · rw [hsome] at hresult
        obtain ⟨hfailed, hcut⟩ := Option.ite_none_left_eq_some.mp hresult
        refine ⟨_, htallied.chunks (not_not.mp hfailed), (Option.some.inj hcut).symm, fun hlength => ?_⟩
        rw [← Option.some.inj hcut, ← ciphertext_eq, if_neg (not_not.mpr hlength)]
      · rw [BlockPlan.entries, List.length_zip, List.length_zip]
        unfold BlockPlan.nBlocks at *
        omega
      · rw [← hresult, ite_eq_left_iff]
        simp
  · intro nsym decode blocks hrange hdecode hcodec hcorrects hhash hplan hnear
    have hdecode' : reedsolo plan.nsym = some decode := by rw [hplan.parity, hdecode]
    obtain ⟨hfailed, hchunks⟩ : (repairAll reedsolo hash ⟨plan.nsym, decode⟩ copyA copyB
        plan).report.failedBlocks = [] ∧
        (repairAll reedsolo hash ⟨plan.nsym, decode⟩ copyA copyB plan).chunks = blocks := by
      rw [repairAll, hplan.entries, hplan.parity]
      exact repairAll_near hcodec hcorrects hrange hhash hnear [] blocks rfl 0 rfl rfl rfl
    rw [repairCopies_eq hdecode']
    simp only
    rw [if_neg (not_not.mpr hfailed), hchunks, ← ciphertext_eq, hplan.ciphertextLen,
      if_neg (not_not.mpr rfl)]
    exact ⟨_, rfl⟩

end Complete

/-- One block in one copy, and a decoder that corrects: the block comes back. -/
theorem repair_sound_complete_one : ∃ reedsolo : Reedsolo, (codecOf reedsolo).ByCodeword ∧
    Corrects (codecOf reedsolo) ∧ ∃ report, repairCopies reedsolo id (some (encode [7] 2)) none
      ⟨2, 1, [(encode [7] 2).length], [encode [7] 2], [[7]]⟩ = some (some [7], report) := by
  obtain ⟨codec, hcodec, hnear⟩ := Rs.exists_byCodeword
  let reedsolo : Reedsolo := fun nsym => some (codec nsym.toNat)
  have hsame : codecOf reedsolo = codec := rfl
  have hcorrects : Corrects codec := fun nsym hn stored m hw hle hl hd =>
    (hnear nsym hn stored m hw hle).mpr ⟨hl, hd⟩
  refine ⟨reedsolo, hsame ▸ hcodec, hsame ▸ hcorrects, ?_⟩
  refine (repair_sound_complete reedsolo id (some (encode [7] 2)) none _).2 2 (codec 2) [[7]]
    (by decide) rfl
    (hsame ▸ hcodec) (hsame ▸ hcorrects) (fun _ _ _ h => h) ⟨rfl, rfl, rfl, rfl, rfl⟩ ?_
  intro i block hi
  obtain ⟨rfl, rfl⟩ : i = 0 ∧ block = [7] := by
    cases i with
    | zero => exact ⟨rfl, (Option.some.inj hi).symm⟩
    | succ i => cases hi
  refine ⟨_, .inl rfl, ?_⟩
  rw [List.take_zero, List.flatMap_nil, List.length_nil, slice_zero, List.take_length]
  exact ⟨rfl, fun j _ => by rw [hamming_self]; exact Nat.zero_le _⟩

/-! ## 6. Plans that do not fit -/

/-- A decoder that corrects nothing. -/
def noDecoder : Reedsolo := fun _ => some fun _ _ => none

/-- **A plan is taken as it is.** A recorded length below that of the blocks gives a ciphertext that
    is not made of blocks with the recorded hashes; and where a list of hashes is shorter than the
    list of lengths fewer blocks are counted than there are. -/
theorem plan_unchecked :
    (∃ report, repairCopies noDecoder id (some [7, 9]) none ⟨1, 0, [2], [[7, 9]], [[7]]⟩ =
        some (some [], report) ∧
      ¬ ∃ blocks, List.Forall₂ (fun block dataHash => id block = dataHash) blocks [[(7 : UInt8)]] ∧
        [] = blocks.flatten) ∧
    ∃ ciphertext report, repairCopies noDecoder id (some [7, 9, 7, 9]) none
        ⟨1, 1, [2, 2], [[7, 9]], [[7]]⟩ = some (some ciphertext, report) ∧
      report.blocksDirect + report.blocksRsCorrected + report.blocksMerged +
        report.failedBlocks.length ≠ report.totalBlocks := by
  refine ⟨⟨_, rfl, ?_⟩, [7], ⟨2, 1, 0, 0, 0, 1, []⟩, rfl, by decide⟩
  rintro ⟨blocks, hblocks, hjoined⟩
  cases hblocks with
  | cons hblock hrest =>
    cases hrest
    rw [id_eq] at hblock
    subst hblock
    cases hjoined

end Dbs.Blocks

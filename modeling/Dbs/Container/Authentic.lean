/-
  File:      Dbs/Container/Authentic.lean
  Subject:   NOTHING BUT THE PAYLOAD: what a reader with the data key yields from any bytes whatever.

  The number of blocks, the layout and the nonce prefix come from metadata nobody authenticates; all
  that is relied on is that under the data key nothing opens but the writer's own chunks, each under
  the nonce of its index and its final flag.

  * `create_bounds` -- the counts a reader accepts keep the nonces apart;
  * `open_authentic` -- a chunk that opens is the writer's chunk of that index, and the reader's last
    block is the writer's;
  * `chunks_authentic` -- so a pass yields a prefix of the payload, and all of it when it ends.
-/
import Dbs.Container.RoundTrip

namespace Dbs

open Octets Effects

variable {P : Primitives}

/-! ## 1. Counts -/

variable {header : StreamHeader}

theorem open_blocks {raw : Bytes} {t : StreamTrailer}
    (h : StreamTrailer.open P raw header = some t) : 1 ≤ t.blocks ∧ t.blocks ≤ maxBlocks := by
  unfold StreamTrailer.open at h
  split at h
  · cases h
  simp only at h
  split at h
  · cases h
  -- the fields of the body
  split at h
  split at h
  · cases h
  split at h
  · cases h
  split at h
  · cases h
  rename_i hb
  split at h
  · cases h
  split at h
  · cases h
  cases h
  exact not_not.mp hb

variable {D : Bytes}

theorem readTrailers_blocks {start : Nat} {agrees : StreamTrailer → Bool} {t : StreamTrailer}
    (h : (readTrailers P D header start agrees).1 = some t) :
    1 ≤ t.blocks ∧ t.blocks ≤ maxBlocks := by
  unfold readTrailers at h
  split at h
  · cases h
  simp only at h
  split at h
  · cases h
  · rename_i chosen hc
    cases h
    obtain ⟨o, hmem, ho⟩ := List.exists_of_findSome?_eq_some hc
    obtain ⟨number, -, rfl⟩ := List.mem_map.mp hmem
    exact open_blocks (Option.filter_eq_some_iff.mp ho).1

theorem countFrom_bounds {interleave candidate position count : Nat} {d : Option (Nat × Nat)}
    (h : countFrom interleave candidate position d = some count) (hc : candidate < maxBlocks) :
    1 ≤ count ∧ count ≤ maxBlocks := by
  unfold countFrom at h
  split at h
  · cases h
  split at h
  · cases h
    omega
  split at h
  · simp only at h
    split at h
    · cases h
      omega
    · cases h
  · cases h

theorem mem_scanBatch_lt {L : StreamLayout} {size index : Nat} {x : Nat × Nat × Nat}
    (h : x ∈ scanBatch L size index) : x.1 < maxBlocks := by
  have hm := (List.takeWhile_sublist _).subset h
  obtain ⟨k, hk, rfl⟩ := List.mem_map.mp hm
  rw [List.mem_range'_1] at hk
  show k < maxBlocks
  omega

theorem scanFrom_bounds {L : StreamLayout} {fuel index count : Nat}
    (h : scanFrom P D L fuel index = .ok count) : 1 ≤ count ∧ count ≤ maxBlocks := by
  induction fuel generalizing index with
  | zero => cases h
  | succ fuel ih =>
    rw [scanFrom] at h
    simp only at h
    split at h
    · cases h
    split at h
    · rename_i count' hfound
      cases h
      obtain ⟨x, hx, hcount⟩ := List.exists_of_findSome?_eq_some hfound
      exact countFrom_bounds hcount (mem_scanBatch_lt (List.of_mem_zip hx).1)
    · exact ih h

theorem locateEnd_bounds {trailer : Option StreamTrailer} {blocks : Nat} {damaged : List String}
    (h : locateEnd P D header = .ok (trailer, blocks, damaged)) :
    1 ≤ blocks ∧ blocks ≤ maxBlocks := by
  cases hr : readTrailers P D header (D.length - headerSize - 2 * trailerSize)
      (fun found => header.layout.containerSize found.blocks == D.length) with
  | mk t d =>
    cases t with
    | some t =>
      rw [locateEnd_of_trailer hr] at h
      cases h
      exact readTrailers_blocks (congrArg Prod.fst hr)
    | none =>
      cases hs : scanBlockCount P D header.layout with
      | error e =>
        unfold locateEnd at h
        simp only [hr, hs, bind, Except.bind] at h
        cases h
      | ok count =>
        rw [locateEnd_of_scan (congrArg Prod.fst hr) hs] at h
        have hb := scanFrom_bounds hs
        revert h
        generalize readTrailers P D header (headerSize + 2 * count * header.layout.slotSize)
          (fun found => found.blocks == count) = second
        obtain ⟨t, d⟩ := second
        cases t with
        | none => intro h; cases h; exact hb
        | some t => intro h; cases h; exact hb

variable {r : StreamReader}

/-- What a reader is made of. -/
theorem create_bounds {passphrase : Option Bytes} (h : StreamReader.create P D passphrase = .ok r) :
    (∀ cipher, r.cipher = some cipher →
      cipher = ⟨cipher.key, r.header.noncePrefix, r.header.seal P⟩) ∧
      1 ≤ r.blocks ∧ r.blocks ≤ maxBlocks := by
  unfold StreamReader.create at h
  cases hh : locateHeader P D with
  | error e => rw [hh] at h; cases h
  | ok found =>
    obtain ⟨header, damaged⟩ := found
    rw [hh] at h
    cases passphrase with
    | none =>
      cases he : locateEnd P D header with
      | error e => simp only [bind, Except.bind, pure, Except.pure, he] at h; cases h
      | ok found =>
        simp only [bind, Except.bind, pure, Except.pure, he] at h
        cases h
        exact ⟨nofun, locateEnd_bounds he⟩
    | some passphrase =>
      cases hd : deriveKey P passphrase header.salt header.kdfParams with
      | error e => simp only [bind, Except.bind, hd] at h; cases h
      | ok kek =>
        cases hu : unwrapKey P kek header.wrapNonce header.wrappedKey header.keyBinding with
        | error e => simp only [bind, Except.bind, hd, hu] at h; cases h
        | ok dataKey =>
          cases he : locateEnd P D header with
          | error e =>
            simp only [bind, Except.bind, pure, Except.pure, hd, hu, he] at h; cases h
          | ok found =>
            simp only [bind, Except.bind, pure, Except.pure, hd, hu, he] at h
            cases h
            refine ⟨fun cipher hc => ?_, locateEnd_bounds he⟩
            cases hc
            rfl

/-! ## 2. Chunks that open -/

/-- Everything the writer of `c` seals under the data key: one chunk for each block, under the nonce of
    its index and its final flag, bound to the header. -/
def Contents.sealedChunks (P : Primitives) (c : Contents) : List (Bytes × Bytes × Bytes) :=
  (List.range c.blocks).map fun i =>
    (chunkNonce c.header.noncePrefix i (c.final i), c.header.seal P, c.chunk i)

variable {c : Contents}

/-- **What opens is the writer's**, index and flag included, whatever header the reader found. -/
theorem open_authentic (hs : P.SealedOnly c.dataKey (c.sealedChunks P)) (hb : c.blocks ≤ maxBlocks)
    {index : Nat} (hi : index < maxBlocks) {final : Bool} {ciphertext plaintext : Bytes}
    (h : ChunkCipher.open P ⟨c.dataKey, header.noncePrefix, header.seal P⟩ index ciphertext final =
      .ok plaintext) :
    index < c.blocks ∧ final = c.final index ∧ plaintext = c.chunk index := by
  have hmem := ((hs _ _ _ _).mp ((ChunkCipher.open_ok P).mp h)).1
  obtain ⟨i, hlt, he⟩ := List.mem_map.mp hmem
  have hlt' : i < c.blocks := List.mem_range.mp hlt
  obtain ⟨hn, hrest⟩ := Prod.mk.inj he
  obtain ⟨-, hchunk⟩ := Prod.mk.inj hrest
  have hlen : c.header.noncePrefix.length = header.noncePrefix.length := by
    rw [c.header.noncePrefix_length, header.noncePrefix_length]
  have hmax : maxBlocks = 2 ^ 32 - 1 := rfl
  obtain ⟨rfl, hflag⟩ := chunkNonce_inj hlen (by omega) (by omega) hn
  exact ⟨hlt', hflag.symm, hchunk.symm⟩

/-! ## 3. Passes -/

/-- The first chunks are a prefix of the payload. -/
theorem Contents.chunks_prefix {n : Nat} (h : n ≤ c.blocks) :
    ((List.range n).map c.chunk).flatten <+: c.payload := by
  obtain ⟨m, hm⟩ : ∃ m, c.blocks = n + m := ⟨c.blocks - n, by omega⟩
  have hp := c.flatten_chunks
  rw [hm, List.range_add, List.map_append, List.flatten_append] at hp
  exact ⟨_, hp⟩

/-- What has been yielded after the blocks below `n`: their chunks, each with the writer's flag. -/
structure Yielded (c : Contents) (blocks n : Nat) (out : List Bytes) : Prop where
  out : out.flatten = ((List.range n).map c.chunk).flatten
  le : n ≤ c.blocks
  final : ∀ i < n, (i + 1 == blocks) = c.final i

theorem Yielded.prefix {blocks n : Nat} {out : List Bytes} (h : Yielded c blocks n out) :
    out.flatten <+: c.payload := by
  rw [h.out]
  exact Contents.chunks_prefix h.le

/-- When the reader's last block is yielded, it is the writer's last block. -/
theorem Yielded.complete {blocks : Nat} {out : List Bytes} (h : Yielded c blocks blocks out)
    (hpos : 1 ≤ blocks) : out.flatten = c.payload := by
  have hlast := h.final (blocks - 1) (by omega)
  have htrue : (blocks - 1 + 1 == blocks) = true := by
    rw [beq_iff_eq]
    omega
  rw [htrue, Contents.final, eq_comm, beq_iff_eq] at hlast
  have hblocks : blocks = c.blocks := by omega
  rw [h.out, hblocks, c.flatten_chunks]

/-- **One block**: it is the writer's next chunk, or the pass ends. -/
theorem ends_yieldChunk (hs : P.SealedOnly c.dataKey (c.sealedChunks P)) (hb : c.blocks ≤ maxBlocks)
    (hr : r.blocks ≤ maxBlocks) {cipher : ChunkCipher}
    (hc : cipher = ⟨c.dataKey, r.header.noncePrefix, r.header.seal P⟩) {index : Nat}
    (hi : index < r.blocks) (block : Option Block) {s : Pass (List Bytes)}
    (h : Yielded c r.blocks index s.out) :
    Ends (fun _ t => (∃ report out, t = { s with report, out }) ∧
        Yielded c r.blocks (index + 1) t.out)
      (fun _ t => t.out.flatten <+: c.payload) (exec (r.yieldChunk P cipher index block) s) := by
  cases block with
  | none =>
    rw [StreamReader.yieldChunk, exec_bind_ok (exec_get _), exec_throw]
    exact h.prefix
  | some block =>
    rw [StreamReader.yieldChunk]
    cases ho : cipher.open P index (StreamReader.ciphertextOf block) (index + 1 == r.blocks) with
    | error e =>
      simp only
      rw [exec_bind_ok (exec_modify _ _), exec_throw]
      exact h.prefix
    | ok plaintext =>
      subst hc
      obtain ⟨hlt, hfinal, rfl⟩ := open_authentic hs hb (by omega) ho
      have hnext : ∀ out, out.flatten = s.out.flatten ++ c.chunk index →
          Yielded c r.blocks (index + 1) out := by
        intro out hout
        refine ⟨?_, hlt, fun i hi => ?_⟩
        · rw [hout, h.out, List.range_succ, List.map_append, List.flatten_append]
          simp
        · rcases Nat.lt_succ_iff_lt_or_eq.mp hi with hi | rfl
          · exact h.final i hi
          · exact hfinal
      simp only
      rw [StreamReader.discardUnverified, exec_bind_ok (exec_modify _ _)]
      by_cases hne : c.chunk index = []
      · rw [if_neg (not_not.mpr hne), exec_pure]
        exact ⟨⟨_, _, rfl⟩, hnext _ (by rw [hne, List.append_nil])⟩
      · rw [if_pos hne, exec_modify]
        refine ⟨⟨_, _, rfl⟩, hnext _ ?_⟩
        show (s.out ++ [c.chunk index]).flatten = _
        rw [List.flatten_append, List.flatten_singleton]

/-- **A pass over any bytes.** The slots may be damaged, reordered, duplicated or cut off and the block
    count altered: every delivery either fails or is the writer's next chunk. -/
theorem ends_chunks_authentic (hs : P.SealedOnly c.dataKey (c.sealedChunks P))
    (hb : c.blocks ≤ maxBlocks) (hr : 1 ≤ r.blocks ∧ r.blocks ≤ maxBlocks)
    {cipher : ChunkCipher} (hcipher : r.cipher = some cipher)
    (hc : cipher = ⟨c.dataKey, r.header.noncePrefix, r.header.seal P⟩) (checkSpares : Bool) :
    Ends (fun _ t => t.out.flatten = c.payload) (fun _ t => t.out.flatten <+: c.payload)
      (exec (r.chunks P checkSpares) (r.start [])) := by
  let J (n : Nat) (_ : StreamRepairReport) (_ out : List Bytes) : Prop := Yielded c r.blocks n out
  have hcarries : r.Carries P checkSpares (r.yieldChunk P cipher) J
      (fun _ t => t.out.flatten <+: c.payload) := by
    refine ⟨fun _ _ _ _ _ _ _ h => h, fun _ _ _ _ _ _ _ h => h, fun s hlt h => ?_⟩
    rw [StreamReader.deliver, exec_bind_ok (exec_modify _ _)]
    set block := r.outcome P s.nextIndex
    have hy := ends_yieldChunk hs hb hr.2 hc hlt block
      (s := { s with digest := s.digest ++ (block.map (·.tag)).toList }) h
    refine hy.mono ?_ fun _ _ h => h
    rintro _ t ⟨⟨report, out, rfl⟩, ht⟩
    exact ⟨⟨_, _, _, rfl⟩, ht⟩
  have h0 : J 0 r.freshReport [] [] := ⟨rfl, Nat.zero_le _, fun i hi => absurd hi (Nat.not_lt_zero i)⟩
  rw [StreamReader.chunks, hcipher]
  simp only
  refine ends_bind (StreamReader.ends_pass hcarries h0) ?_
  rintro _ t ⟨report, h, -⟩
  have hdone : t.out.flatten = c.payload := Yielded.complete h hr.1
  rw [exec_bind_ok (exec_get _)]
  split
  · rw [exec_throw]
    exact hdone ▸ List.prefix_rfl
  · exact hdone

/-- **Authenticity.** Let a writer have sealed one container under its data key, and nothing else. From
    any bytes whatever, a reader that holds this key yields a prefix of the payload, and exactly the
    payload when `chunks` ends without raising. -/
theorem chunks_authentic {drawn : Drawn} {passphrase : Bytes} {params : KDFParams}
    {layout : StreamLayout} {workers flags : Nat} {w t : StreamWriter} {summary : StreamSummary}
    (hcreate : StreamWriter.create P never drawn passphrase params layout workers flags = .ok w)
    (pieces : List Bytes) (hrun : exec (StreamWriter.writeAll P never pieces) w = (.ok summary, t))
    (hsealed : P.SealedOnly w.dataKey ((contentsOf w pieces).sealedChunks P))
    (D : Bytes) {passphrase' : Bytes} {r : StreamReader}
    (hr : StreamReader.create P D (some passphrase') = .ok r)
    {cipher : ChunkCipher} (hcipher : r.cipher = some cipher) (hkey : cipher.key = w.dataKey)
    (checkSpares : Bool) :
    match exec (r.chunks P checkSpares) (r.start []) with
    | (.ok _, u) => u.out.flatten = pieces.flatten
    | (.error _, u) => u.out.flatten <+: pieces.flatten := by
  obtain ⟨hfresh, -, -⟩ := StreamWriter.create_ok hcreate
  have hclosed := (ends_writeAll P hfresh pieces).of_ok hrun
  obtain ⟨hform, hbounds⟩ := create_bounds hr
  have hc := hform cipher hcipher
  rw [hkey] at hc
  have h := ends_chunks_authentic (c := contentsOf w pieces) hsealed hclosed.blocks_le hbounds hcipher
    hc checkSpares
  revert h
  generalize exec (r.chunks P checkSpares) (r.start []) = outcome
  intro h
  obtain ⟨result, u⟩ := outcome
  cases result with
  | ok _ | error _ => exact h

/-- An ideal AEAD under the data key of a small container, and the reader of that container. -/
theorem chunks_authentic_small : ∃ (P : Primitives) (w t : StreamWriter) (summary : StreamSummary)
    (r : StreamReader) (cipher : ChunkCipher),
    StreamWriter.create P never .plain [] {} .small 1 0 = .ok w ∧
    exec (StreamWriter.writeAll P never [ascii "payload"]) w = (.ok summary, t) ∧
    P.SealedOnly w.dataKey ((contentsOf w [ascii "payload"]).sealedChunks P) ∧
    StreamReader.create P ((contentsOf w [ascii "payload"]).bytes P) (some []) = .ok r ∧
    r.cipher = some cipher ∧ cipher.key = w.dataKey ∧
    match exec (r.chunks P false) (r.start []) with
    | (.ok _, u) => u.out.flatten = ascii "payload"
    | (.error _, u) => u.out.flatten <+: ascii "payload" := by
  obtain ⟨w, hplain, -, hblocks, -⟩ := exists_small .plain [ascii "payload"] 1 (by decide)
    (by decide)
  set c := contentsOf w [ascii "payload"]
  set P := Primitives.plain.idealised w.dataKey (c.sealedChunks .plain)
  have hcreate : StreamWriter.create P never .plain [] {} .small 1 0 = .ok w := hplain
  obtain ⟨hfresh, hkey, hheader⟩ := StreamWriter.create_ok hcreate
  have hb : c.blocks ≤ maxBlocks := by rw [hblocks]; decide
  have hsealed : P.SealedOnly w.dataKey (c.sealedChunks P) :=
    Primitives.idealised_sealedOnly .plain Primitives.plain_opens w.dataKey _
  -- the passphrase's key is not the data key, so the wrapped key opens as before
  have hkeyed : c.Keyed P [] := by
    obtain ⟨kek, hderive, hunwrap⟩ := keyed_of_create Primitives.plain_opens hplain [ascii "payload"]
    have hkek : kek = zeros 32 := by
      have hparams : c.header.kdfParams = {} := hheader.kdfParams
      rw [hparams] at hderive
      exact (Except.ok.inj hderive).symm
    have hne : kek ≠ w.dataKey := by
      rw [hkek, hkey]
      decide
    refine ⟨kek, hderive, Eq.trans ?_ hunwrap⟩
    rw [unwrapKey, unwrapKey, Primitives.idealised_decrypt_of_ne _ _ _ hne]
  obtain ⟨summary, t, hrun, -⟩ :=
    (ends_writeAll P hfresh [ascii "payload"]).returns fun _ _ h =>
      absurd hb (Nat.not_le_of_lt h)
  refine ⟨P, w, t, summary, _, _, hcreate, hrun, hsealed, Contents.create_intact hb hkeyed, rfl, rfl,
    ?_⟩
  exact chunks_authentic hcreate [ascii "payload"] hrun hsealed _
    (Contents.create_intact hb hkeyed) rfl rfl false

end Dbs

/-
  File:      Dbs/Container/Rs.lean
  Subject:   REED-SOLOMON BLOCKS (container/rs.py): encoding, stripping, and repair from two copies.

  A block is cut into messages of `255 - nsym` bytes; each is stored with `nsym` parity bytes behind
  it. The parity comes from a table: one remainder for each place of the message.

  * `parityRow`, `encodeMany` -- the table-driven encoder; `codeword` -- one message with its parity;
  * `stripParity`, `damagedCodewords` -- what a reader does without decoding;
  * `decodeAny`, `repairFromCopies` -- one codeword at a time from whichever copy yields it; the
    decoder `codec` of the third-party package is a parameter;
  * `isCodeword_codeword` -- a message with its parity vanishes at `α^0 … α^(nsym-1)`;
    `codeword_of_near` -- so two of them that differ in at most `nsym` bytes are equal.
-/
import Dbs.Lib.Octets
import Dbs.Lib.Galois
import Dbs.Lib.ReedSolomon

namespace Dbs.Rs

open Octets Galois ReedSolomon

/-! ## 1. The generator and the table of remainders -/

/-- The length of a codeword. -/
def codewordSize : Nat := 255

/-- The fewest parity bytes. -/
def minNsym : Nat := 1

/-- The most parity bytes. -/
def maxNsym : Nat := 254

/-- A byte as a field element, and back. -/
def sym (b : UInt8) : GF256 := ⟨b.toBitVec⟩

/-- A symbol as a byte. -/
def octet (a : GF256) : UInt8 := ⟨a.bits⟩

@[simp] theorem sym_octet (a : GF256) : sym (octet a) = a := rfl
@[simp] theorem octet_sym (b : UInt8) : octet (sym b) = b := rfl

theorem sym_inj {a b : UInt8} (h : sym a = sym b) : a = b := by
  rw [← octet_sym a, h, octet_sym]

/-- The product of `x - α^power` over the powers below `nsym`, the highest coefficient first. -/
def generator : Nat → List GF256
  | 0 => [1]
  | power + 1 =>
    let poly := generator power
    List.zipWith (· + ·) (poly ++ [0]) (0 :: poly.map (· * GF256.exp power))

/-- One step of the remainder table: multiply by x and reduce by the generator. -/
def nextRemainder (tail remainder : List GF256) : List GF256 :=
  let lead := remainder.headD 0
  List.zipWith (fun shifted coefficient => shifted + lead * coefficient) (remainder.drop 1 ++ [0]) tail

/-- The remainders of `x^(254 - position)`, for the places of a message in order. -/
def positionRemainders (nsym : Nat) : List (List GF256) :=
  let tail := (generator nsym).drop 1
  (List.iterate (nextRemainder tail) tail (codewordSize - nsym)).reverse

/-! ## 2. Encoding -/

/-- A codeword without its parity. -/
def messageLength (nsym : Nat) : Nat := codewordSize - nsym

/-- The length with parity. -/
def encodedLength (dataLen nsym : Nat) : Nat :=
  let full := dataLen / messageLength nsym
  let rest := dataLen % messageLength nsym
  full * codewordSize + if rest = 0 then 0 else rest + nsym

/-- How many codewords that is. -/
def codewordCount (encodedLen : Nat) : Nat := (encodedLen + codewordSize - 1) / codewordSize

/-- A length that encoding gives. -/
def isWellFormed (encodedLen nsym : Nat) : Bool :=
  let rest := encodedLen % codewordSize
  rest == 0 || decide (nsym < rest)

/-- The parity of one message of full length: its bytes times the remainders of their places. -/
def parityRow (nsym : Nat) (message : Bytes) : Bytes :=
  ((message.zip (positionRemainders nsym)).foldl
    (fun accumulator (byte, remainder) =>
      List.zipWith (· + ·) accumulator (remainder.map (sym byte * ·)))
    (List.replicate nsym 0)).map octet

/-- The parity of each message. -/
def parity (messages : List Bytes) (nsym : Nat) : List Bytes := messages.map (parityRow nsym)

/-- A short message stands at the end of its row. -/
def messageRow (nsym : Nat) (message : Bytes) : Bytes :=
  zeros (messageLength nsym - message.length) ++ message

/-- The messages, the last one filled up. -/
def messageRows (data : Bytes) (nsym : Nat) : List Bytes :=
  (pieces (messageLength nsym) data).map (messageRow nsym)

/-- The codewords of one block from its messages and its share of the parity rows. -/
def assemble (block : Bytes) (nsym : Nat) (blockParity : List Bytes) : Bytes :=
  (List.zipWith (· ++ ·) (pieces (messageLength nsym) block) blockParity).flatten

/-- Each message and its parity. -/
def assembleAll (nsym : Nat) : List Bytes → List Bytes → List Bytes
  | [], _ => []
  | block :: blocks, allParity =>
    let count := (messageRows block nsym).length
    assemble block nsym (allParity.take count) :: assembleAll nsym blocks (allParity.drop count)

/-- The parity of all blocks is computed together and shared out again. -/
def encodeMany (blocks : List Bytes) (nsym : Nat) : List Bytes :=
  assembleAll nsym blocks (parity (blocks.flatMap (messageRows · nsym)) nsym)

/-- The codewords of one text. -/
def encode (data : Bytes) (nsym : Nat) : Bytes := (encodeMany [data] nsym).headD []

/-! ## 3. Reading -/

/-- A stored codeword's message part. -/
def messageOf (nsym : Nat) (stored : Bytes) : Bytes := stored.take (stored.length - nsym)

/-- The messages in them. -/
def stripParity (encoded : Bytes) (nsym : Nat) : Option Bytes :=
  if isWellFormed encoded.length nsym then
    some ((pieces codewordSize encoded).flatMap (messageOf nsym))
  else none

/-- The parity stored behind a message is the message's own. -/
def consistent (nsym : Nat) (stored : Bytes) : Bool :=
  parityRow nsym (messageRow nsym (messageOf nsym stored)) == stored.drop (stored.length - nsym)

/-- Those with wrong parity. -/
def damagedCodewords (encoded : Bytes) (nsym : Nat) : Option (List Nat) :=
  if isWellFormed encoded.length nsym then
    some (((pieces codewordSize encoded).zipIdx.filter fun (stored, _) => !consistent nsym stored).map
      (·.2))
  else none

/-- One of them. -/
def codewordAt (encoded : Bytes) (index : Nat) : Bytes :=
  slice encoded (index * codewordSize) codewordSize

/-- The third-party decoder: parity symbols, stored codeword and the places to treat as erased; it
    returns the message, or fails. -/
abbrev Codec := Nat → Bytes → List Nat → Option Bytes

variable (codec : Codec)

/-- The library's decoder. -/
def decodeCodeword (stored : Bytes) (nsym : Nat) (erasures : List Nat) : Option Bytes :=
  codec nsym stored erasures

/-- The first candidate that `decode` accepts, with its number. -/
def firstDecoded (decode : Bytes → Option Bytes) : List Bytes → Nat → Option (Nat × Bytes)
  | [], _ => none
  | candidate :: rest, source =>
    match decode candidate with
    | some piece => some (source, piece)
    | none => firstDecoded decode rest (source + 1)

/-- The places in which two stored codewords differ. -/
def differing (first second : Bytes) : List Nat :=
  ((first.zip second).zipIdx.filter fun ((a, b), _) => a != b).map (·.2)

/-- The first copy that decodes; failing that, two copies of one length that differ in at most `nsym`
    places are decoded with those places erased. -/
def decodeAny (codewords : List Bytes) (nsym : Nat) : Option (Nat × Bytes) :=
  match firstDecoded (fun candidate => decodeCodeword codec candidate nsym []) codewords 0 with
  | some found => some found
  | none =>
    match codewords with
    | [first, second] =>
      let places := differing first second
      if first.length = second.length ∧ 0 < places.length ∧ places.length ≤ nsym then
        firstDecoded (fun candidate => decodeCodeword codec candidate nsym places) codewords 0
      else none
    | _ => none

/-- What a repair reports: the block, the copies used and whether anything was decoded. -/
structure Repaired where
  data : Option Bytes
  used : Finset Nat
  decoded : Bool

/-- `repaired[start : start + len(piece)] = piece`. -/
def splice (data : Bytes) (start : Nat) (piece : Bytes) : Bytes :=
  data.take start ++ piece ++ data.drop (start + piece.length)

/-- The codewords from `index` on, each from the first copy in which it is consistent, else from a
    copy that decodes. -/
def repairFrom (copies stripped : List Bytes) (nsym : Nat) :
    List Nat → Bytes → Finset Nat → Bool → Repaired
  | [], repaired, used, decoded => ⟨some repaired, used, decoded⟩
  | index :: rest, repaired, used, decoded =>
    let start := index * messageLength nsym
    match copies.findIdx? fun copy => consistent nsym (codewordAt copy index) with
    | some source =>
      let piece := slice (stripped.getD source []) start (messageLength nsym)
      repairFrom copies stripped nsym rest (splice repaired start piece) (insert source used) decoded
    | none =>
      match decodeAny codec (copies.map (codewordAt · index)) nsym with
      | none => ⟨none, used, decoded⟩
      | some (source, piece) =>
        repairFrom copies stripped nsym rest (splice repaired start piece) (insert source used) true

/-- Codeword by codeword, from all copies. -/
def repairFromCopies (copies : List Bytes) (nsym : Nat) : Repaired :=
  match copies with
  | [] => ⟨none, ∅, false⟩
  | first :: _ =>
    if (copies.any fun copy => copy.length != first.length) || !isWellFormed first.length nsym then
      ⟨none, ∅, false⟩
    else
      let stripped := copies.map fun copy => (stripParity copy nsym).getD []
      repairFrom codec copies stripped nsym (List.range (codewordCount first.length))
        (stripped.headD []) ∅ false

/-! ## 4. The generator vanishes at its roots, the remainders spell powers -/

/-- The generator of the field. -/
def alpha : GF256 := GF256.exp 1

theorem alpha_pow (i : Nat) : alpha ^ i = GF256.exp i := by
  rw [alpha, GF256.exp_pow, Nat.one_mul]

theorem generator_length (nsym : Nat) : (generator nsym).length = nsym + 1 := by
  induction nsym with
  | zero => rfl
  | succ n ih => simp [generator, ih]

theorem generator_head (nsym : Nat) : ∃ tail, generator nsym = 1 :: tail := by
  induction nsym with
  | zero => exact ⟨[], rfl⟩
  | succ n ih =>
    obtain ⟨tail, h⟩ := ih
    simp [generator, h]

theorem generator_root {nsym i : Nat} (h : i < nsym) :
    evalBe (generator nsym) (GF256.exp i) = 0 := by
  induction nsym with
  | zero => omega
  | succ n ih =>
    have hl : (generator n ++ [0]).length = (0 :: (generator n).map (· * GF256.exp n)).length := by
      simp
    have hm : (generator n).map (· * GF256.exp n) = (generator n).map (GF256.exp n * ·) :=
      List.map_congr_left fun c _ => mul_comm _ _
    have he : evalBe (generator (n + 1)) (GF256.exp i) =
        evalBe (generator n) (GF256.exp i) * (GF256.exp i + GF256.exp n) := by
      rw [generator, evalBe_zipWith_add hl, evalBe_concat, evalBe_cons, hm, evalBe_map_mul]
      ring
    rw [he]
    rcases Nat.lt_or_ge i n with hin | hin
    · rw [ih hin, zero_mul]
    · rw [show i = n by omega, GF256.add_self, mul_zero]

section Remainders

variable {nsym : Nat} {tail : List GF256} (ht : generator nsym = 1 :: tail)

include ht

theorem tail_length : tail.length = nsym := by
  have := generator_length nsym
  rw [ht] at this
  simpa using this

/-- The tail of the generator is the remainder of `x^nsym`. -/
theorem tail_eval {i : Nat} (h : i < nsym) : evalBe tail (GF256.exp i) = GF256.exp i ^ nsym := by
  have hr := generator_root h
  rw [ht, evalBe_cons, one_mul, tail_length ht] at hr
  exact (GF256.add_eq_zero_iff.mp hr).symm

theorem nextRemainder_length {r : List GF256} (hr : r.length = nsym) :
    (nextRemainder tail r).length = nsym := by
  rw [nextRemainder, List.length_zipWith, tail_length ht]
  simp [hr]
  omega

theorem nextRemainder_eval {r : List GF256} (hr : r.length = nsym) {i : Nat} (h : i < nsym) :
    evalBe (nextRemainder tail r) (GF256.exp i) = GF256.exp i * evalBe r (GF256.exp i) := by
  cases r with
  | nil => simp at hr; omega
  | cons lead rest =>
    have hl : (rest ++ [0]).length = (tail.map (lead * ·)).length := by
      have := tail_length ht
      simp at hr ⊢
      omega
    have hz : nextRemainder tail (lead :: rest) =
        List.zipWith (· + ·) (rest ++ [0]) (tail.map (lead * ·)) := by
      rw [List.zipWith_map_right]; rfl
    have hn : nsym = rest.length + 1 := by simpa using hr.symm
    rw [hz, evalBe_zipWith_add hl, evalBe_concat, evalBe_map_mul, tail_eval ht h, evalBe_cons, hn,
      pow_succ]
    ring

theorem iterate_nextRemainder (k : Nat) :
    ((nextRemainder tail)^[k] tail).length = nsym ∧
      ∀ i < nsym, evalBe ((nextRemainder tail)^[k] tail) (GF256.exp i) =
        GF256.exp i ^ (nsym + k) := by
  induction k with
  | zero => exact ⟨tail_length ht, fun i hi => tail_eval ht hi⟩
  | succ k ih =>
    rw [Function.iterate_succ_apply']
    refine ⟨nextRemainder_length ht ih.1, fun i hi => ?_⟩
    rw [nextRemainder_eval ht ih.1 hi, ih.2 i hi, ← Nat.add_assoc, pow_succ, mul_comm]

end Remainders

/-! ## 5. A message with its parity is a codeword -/

/-- One step of the parity sum. -/
def addRemainder (accumulator : List GF256) (entry : UInt8 × List GF256) : List GF256 :=
  List.zipWith (· + ·) accumulator (entry.2.map (sym entry.1 * ·))

/-- **The table sums a message's value times `x^nsym`**: by induction on the message, whose first byte
    meets the highest remainder. -/
theorem parity_sum {nsym : Nat} {tail : List GF256} (ht : generator nsym = 1 :: tail)
    (message : Bytes) (acc : List GF256) (hacc : acc.length = nsym) :
    let sum := (message.zip (List.iterate (nextRemainder tail) tail message.length).reverse).foldl
      addRemainder acc
    sum.length = nsym ∧ ∀ i < nsym, evalBe sum (GF256.exp i) =
      evalBe acc (GF256.exp i) + evalBe (message.map sym) (GF256.exp i) * GF256.exp i ^ nsym := by
  induction message generalizing acc with
  | nil => exact ⟨hacc, fun i _ => by simp⟩
  | cons byte message ih =>
    obtain ⟨hrl, hre⟩ := iterate_nextRemainder ht message.length
    have hrev : (List.iterate (nextRemainder tail) tail (message.length + 1)).reverse =
        (nextRemainder tail)^[message.length] tail ::
          (List.iterate (nextRemainder tail) tail message.length).reverse := by
      rw [List.iterate_add, List.reverse_append]
      rfl
    set r := (nextRemainder tail)^[message.length] tail with hr
    have hl : acc.length = (r.map (sym byte * ·)).length := by rw [List.length_map, hrl, hacc]
    have hacc' : (addRemainder acc (byte, r)).length = nsym := by
      rw [addRemainder, List.length_zipWith, ← hl, Nat.min_self, hacc]
    obtain ⟨h1, h2⟩ := ih (addRemainder acc (byte, r)) hacc'
    refine ⟨?_, fun i hi => ?_⟩
    · simpa only [List.length_cons, hrev, List.zip_cons_cons, List.foldl_cons] using h1
    · have he : evalBe (addRemainder acc (byte, r)) (GF256.exp i) =
          evalBe acc (GF256.exp i) + sym byte * GF256.exp i ^ (nsym + message.length) := by
        rw [addRemainder, evalBe_zipWith_add hl, evalBe_map_mul, hre i hi]
      simp only [List.length_cons, hrev, List.zip_cons_cons, List.foldl_cons]
      rw [h2 i hi, he, List.map_cons, evalBe_cons, List.length_map, pow_add]
      ring

variable {nsym : Nat}

variable {message : Bytes}

theorem parityRow_spec (hm : message.length = messageLength nsym) :
    (parityRow nsym message).length = nsym ∧ ∀ i < nsym,
      evalBe ((parityRow nsym message).map sym) (GF256.exp i) =
        evalBe (message.map sym) (GF256.exp i) * GF256.exp i ^ nsym := by
  obtain ⟨tail, ht⟩ := generator_head nsym
  obtain ⟨h1, h2⟩ := parity_sum ht message (List.replicate nsym 0) List.length_replicate
  have hrow : parityRow nsym message = ((message.zip
      (List.iterate (nextRemainder tail) tail message.length).reverse).foldl addRemainder
      (List.replicate nsym 0)).map octet := by
    rw [parityRow, positionRemainders, ht, hm]
    rfl
  refine ⟨by rw [hrow, List.length_map, h1], fun i hi => ?_⟩
  have hsym : (sym ∘ octet) = id := funext sym_octet
  rw [hrow, List.map_map, hsym, List.map_id, h2 i hi, evalBe_replicate_zero, zero_add]

theorem messageRow_length (h : message.length ≤ messageLength nsym) :
    (messageRow nsym message).length = messageLength nsym := by
  rw [messageRow, List.length_append, zeros_length]
  omega

/-- A message and its parity behind it. -/
def codeword (nsym : Nat) (message : Bytes) : Bytes :=
  message ++ parityRow nsym (messageRow nsym message)

theorem codeword_length (h : message.length ≤ messageLength nsym) :
    (codeword nsym message).length = message.length + nsym := by
  rw [codeword, List.length_append, (parityRow_spec (messageRow_length h)).1]

theorem isCodeword_codeword (h : message.length ≤ messageLength nsym) :
    IsCodeword alpha nsym ((codeword nsym message).map sym) := by
  intro i hi
  obtain ⟨hl, he⟩ := parityRow_spec (messageRow_length h)
  have hz : (messageRow nsym message).map sym =
      List.replicate (messageLength nsym - message.length) 0 ++ message.map sym := by
    rw [messageRow, List.map_append, zeros, List.map_replicate]
    rfl
  rw [alpha_pow, codeword, List.map_append, evalBe_append, he i hi, hz, evalBe_zeros_append,
    List.length_map, hl, GF256.add_self]

theorem codeword_inj {m m' : Bytes} (hl : m.length = m'.length)
    (h : codeword nsym m = codeword nsym m') : m = m' := (List.append_inj h hl).1

theorem hamming_map_sym (v w : Bytes) : hamming (v.map sym) (w.map sym) = hamming v w := by
  rw [hamming, hamming, List.zip_map, List.countP_map]
  refine List.countP_congr fun p _ => ?_
  have hp : sym p.1 = sym p.2 ↔ p.1 = p.2 := ⟨sym_inj, fun e => e ▸ rfl⟩
  simp [hp]

/-- **Two messages of one length whose codewords differ in at most `nsym` bytes are equal.** -/
theorem codeword_of_near (hn : nsym < codewordSize) {m m' : Bytes}
    (hm : m.length ≤ messageLength nsym) (hl : m.length = m'.length)
    (hd : hamming (codeword nsym m) (codeword nsym m') ≤ nsym) : m = m' := by
  have hm' : m'.length ≤ messageLength nsym := hl ▸ hm
  have hlen : (codeword nsym m).length ≤ 255 := by
    rw [codeword_length hm]
    unfold messageLength codewordSize at hm
    unfold codewordSize at hn
    omega
  have hα : Set.InjOn (alpha ^ ·) (Finset.range ((codeword nsym m).map sym).length) := by
    intro i hi j hj e
    simp only [List.length_map, Finset.coe_range, Set.mem_Iio] at hi hj
    simp only [alpha_pow] at e
    exact GF256.exp_inj (by omega) (by omega) e
  have he := eq_of_hamming_le hα
    (by rw [List.length_map, List.length_map, codeword_length hm, codeword_length hm', hl])
    (isCodeword_codeword hm) (isCodeword_codeword hm') (by rw [hamming_map_sym]; exact hd)
  exact codeword_inj hl (List.map_injective_iff.mpr (fun _ _ => sym_inj) he)

/-! ## 6. A block is the codewords of its messages -/

theorem messageLength_pos (hn : nsym < codewordSize) : 0 < messageLength nsym := by
  unfold messageLength; omega

theorem messageLength_add (hn : nsym < codewordSize) : messageLength nsym + nsym = codewordSize := by
  unfold messageLength; omega

/-- The messages of a block. -/
def messages (nsym : Nat) (data : Bytes) : List Bytes := pieces (messageLength nsym) data

theorem messages_flatten (hn : nsym < codewordSize) (data : Bytes) :
    (messages nsym data).flatten = data := pieces_flatten (messageLength_pos hn) data

theorem messages_length_le (hn : nsym < codewordSize) {data m : Bytes}
    (h : m ∈ messages nsym data) : m.length ≤ messageLength nsym :=
  (cut_pieces (messageLength_pos hn) data).length_le m h

theorem zipWith_append_map (f : Bytes → Bytes) (L : List Bytes) :
    List.zipWith (· ++ ·) L (L.map f) = L.map fun m => m ++ f m := by
  rw [List.zipWith_map_right, List.zipWith_self]

theorem assemble_eq (block : Bytes) (nsym : Nat) :
    assemble block nsym (parity (messageRows block nsym) nsym) =
      ((messages nsym block).map (codeword nsym)).flatten := by
  rw [assemble, parity, messageRows, List.map_map, zipWith_append_map]
  rfl

/-- **A batch is encoded block by block**: sharing out the parity gives each block its own. -/
theorem encodeMany_eq (blocks : List Bytes) (nsym : Nat) :
    encodeMany blocks nsym =
      blocks.map fun block => ((messages nsym block).map (codeword nsym)).flatten := by
  rw [encodeMany]
  induction blocks with
  | nil => rfl
  | cons block blocks ih =>
    have hp : parity ((block :: blocks).flatMap (messageRows · nsym)) nsym =
        parity (messageRows block nsym) nsym ++ parity (blocks.flatMap (messageRows · nsym)) nsym := by
      rw [List.flatMap_cons, parity, List.map_append]
      rfl
    have hl : (parity (messageRows block nsym) nsym).length = (messageRows block nsym).length :=
      List.length_map _
    simp only [assembleAll]
    rw [hp, List.take_left' hl, List.drop_left' hl, ih, assemble_eq, List.map_cons]

theorem encode_eq (data : Bytes) (nsym : Nat) :
    encode data nsym = ((messages nsym data).map (codeword nsym)).flatten := by
  rw [encode, encodeMany_eq]
  rfl

theorem encodeMany_eq_map (blocks : List Bytes) (nsym : Nat) :
    encodeMany blocks nsym = blocks.map (encode · nsym) := by
  rw [encodeMany_eq]
  exact List.map_congr_left fun block _ => (encode_eq block nsym).symm

theorem cut_map_codeword (hn : nsym < codewordSize) {L : List Bytes}
    (h : Cut (messageLength nsym) L) : Cut codewordSize (L.map (codeword nsym)) := by
  have ha := messageLength_add hn
  induction h with
  | nil => exact .nil
  | last l h0 hl =>
    exact .last _ (by rw [codeword_length hl]; omega) (by rw [codeword_length hl]; omega)
  | cons l L hl _ ih => exact .cons _ _ (by rw [codeword_length hl.le]; omega) ih

/-- **Cutting an encoded block gives back its codewords.** -/
theorem pieces_encode (hn : nsym < codewordSize) (data : Bytes) :
    pieces codewordSize (encode data nsym) = (messages nsym data).map (codeword nsym) := by
  rw [encode_eq]
  exact pieces_flatten_of_cut (by decide)
    (cut_map_codeword hn (cut_pieces (messageLength_pos hn) data))

/-- The first codeword of a block that is longer than one message. -/
theorem encode_take (hn : nsym < codewordSize) {data : Bytes}
    (h : messageLength nsym ≤ data.length) :
    (encode data nsym).take codewordSize = codeword nsym (data.take (messageLength nsym)) := by
  have h0 := messageLength_pos hn
  have hne : data ≠ [] := List.ne_nil_of_length_pos (by omega)
  have hl : (data.take (messageLength nsym)).length = messageLength nsym := by
    rw [List.length_take]; omega
  rw [encode_eq, messages, pieces_cons h0 hne, List.map_cons, List.flatten_cons]
  refine List.take_left' ?_
  rw [codeword_length hl.le, hl, messageLength_add hn]

theorem mem_damagedCodewords {w : List Bytes} (hw : ∀ x ∈ w, x.length = codewordSize) {i : Nat}
    {stored : Bytes} (hi : w[i]? = some stored) (hc : consistent nsym stored = true) :
    i ∉ (damagedCodewords w.flatten nsym).getD [] := by
  have hwf : isWellFormed w.flatten.length nsym = true := by
    rw [flatten_length_of_eq hw]
    simp [isWellFormed]
  rw [damagedCodewords, if_pos hwf, pieces_flatten_of_cut (by decide)
    (cut_of_length_eq hw), Option.getD_some, List.mem_map]
  rintro ⟨⟨x, j⟩, hmem, rfl⟩
  rw [List.mem_filter, List.mem_zipIdx_iff_getElem?] at hmem
  rw [hi] at hmem
  obtain ⟨h1, h2⟩ := hmem
  cases h1
  simp [hc] at h2

theorem messageOf_codeword {m : Bytes} (h : m.length ≤ messageLength nsym) :
    messageOf nsym (codeword nsym m) = m := by
  rw [messageOf, codeword_length h, Nat.add_sub_cancel, codeword]
  exact List.take_left' rfl

theorem consistent_codeword {m : Bytes} (h : m.length ≤ messageLength nsym) :
    consistent nsym (codeword nsym m) = true := by
  rw [consistent, messageOf_codeword h, codeword_length h, Nat.add_sub_cancel, beq_iff_eq, codeword]
  exact (List.drop_left' rfl).symm

theorem messageOf_length (nsym : Nat) (w : Bytes) : (messageOf nsym w).length = w.length - nsym := by
  rw [messageOf, List.length_take]; omega

theorem messageOf_length_le (w : Bytes) (h : w.length ≤ codewordSize) :
    (messageOf nsym w).length ≤ messageLength nsym := by
  rw [messageOf_length, messageLength]; omega

/-- A stored codeword is consistent exactly when it is the codeword of its message part. -/
theorem consistent_iff {w : Bytes} (h : w.length ≤ codewordSize) :
    consistent nsym w = true ↔ w = codeword nsym (messageOf nsym w) := by
  constructor
  · intro hc
    rw [consistent, beq_iff_eq] at hc
    rw [codeword, hc, messageOf, List.take_append_drop]
  · intro hw
    rw [hw]
    exact consistent_codeword (messageOf_length_le w h)

section

variable (hn : nsym < codewordSize)

include hn

theorem encodedLength_add (n : Nat) :
    encodedLength (messageLength nsym + n) nsym = codewordSize + encodedLength n nsym := by
  have h0 := messageLength_pos hn
  simp only [encodedLength, Nat.add_div_left _ h0, Nat.add_mod_left, Nat.succ_mul]
  omega

theorem flatten_map_codeword_length {L : List Bytes} (h : Cut (messageLength nsym) L) :
    (L.map (codeword nsym)).flatten.length = encodedLength L.flatten.length nsym := by
  have h0 := messageLength_pos hn
  have ha := messageLength_add hn
  have hz : encodedLength 0 nsym = 0 := by simp [encodedLength]
  induction h with
  | nil => exact hz.symm
  | last l hl0 hl =>
    rw [List.map_singleton, List.flatten_singleton, List.flatten_singleton, codeword_length hl]
    rcases Nat.lt_or_ge l.length (messageLength nsym) with h | h
    · simp only [encodedLength, Nat.div_eq_of_lt h, Nat.mod_eq_of_lt h]
      rw [if_neg (by omega)]
      omega
    · have he := encodedLength_add hn 0
      rw [hz, Nat.add_zero] at he
      rw [show l.length = messageLength nsym by omega, he]
      omega
  | cons l L hl _ ih =>
    rw [List.map_cons, List.flatten_cons, List.flatten_cons, List.length_append,
      List.length_append, ih, hl, encodedLength_add hn, codeword_length hl.le]
    omega

theorem encode_length (data : Bytes) :
    (encode data nsym).length = encodedLength data.length nsym := by
  have h := flatten_map_codeword_length hn (cut_pieces (messageLength_pos hn) data)
  rw [encode_eq, messages, h, pieces_flatten (messageLength_pos hn)]

theorem isWellFormed_encodedLength (n : Nat) : isWellFormed (encodedLength n nsym) nsym = true := by
  have hr := Nat.mod_lt n (messageLength_pos hn)
  have ha := messageLength_add hn
  rw [show codewordSize = 255 from rfl] at ha
  by_cases h0 : n % messageLength nsym = 0
  · have hm : encodedLength n nsym % codewordSize = 0 := by
      rw [encodedLength, if_pos h0, Nat.add_zero, Nat.mul_mod_left]
    simp [isWellFormed, hm]
  · have hm : encodedLength n nsym % codewordSize = n % messageLength nsym + nsym := by
      rw [encodedLength, if_neg h0, show codewordSize = 255 from rfl]
      omega
    simp only [isWellFormed, hm, Bool.or_eq_true, decide_eq_true_eq]
    right
    omega

/-- No codeword of an encoded block counts as damaged. -/
theorem damagedCodewords_encode (data : Bytes) :
    damagedCodewords (encode data nsym) nsym = some [] := by
  rw [damagedCodewords, encode_length hn, if_pos (isWellFormed_encodedLength hn _), pieces_encode hn,
    Option.some.injEq, List.map_eq_nil_iff, List.filter_eq_nil_iff]
  rintro ⟨w, i⟩ hw
  obtain ⟨m, hm, rfl⟩ := List.mem_map.mp (List.fst_mem_of_mem_zipIdx hw)
  simp [consistent_codeword (messages_length_le hn hm)]

end

theorem flatMap_messageOf_codeword {L : List Bytes} (h : ∀ m ∈ L, m.length ≤ messageLength nsym) :
    (L.map (codeword nsym)).flatMap (messageOf nsym) = L.flatten := by
  induction L with
  | nil => rfl
  | cons m L ih =>
    rw [List.map_cons, List.flatMap_cons, messageOf_codeword (h m List.mem_cons_self),
      ih fun x hx => h x (List.mem_cons_of_mem _ hx), List.flatten_cons]

/-- **Stripping the parity undoes encoding.** -/
theorem stripParity_encode (hn : nsym < codewordSize) (data : Bytes) :
    stripParity (encode data nsym) nsym = some data := by
  rw [stripParity, encode_length hn, if_pos (isWellFormed_encodedLength hn _), pieces_encode hn,
    flatMap_messageOf_codeword fun m hm => messages_length_le hn hm, messages_flatten hn]

end Dbs.Rs

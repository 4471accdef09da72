/-
  File:      Dbs/Container/Encoder.lean
  Subject:   THE ENCODER AS THE PROGRAM RUNS IT (container/rs.py): logarithm tables, tables of
             remainders for every byte in every place, and arrays of rows; and what it computes, the
             remainder of a polynomial division.

  An array is the list of its rows. The last message of a block is short and stands at the end of its
  row, the rows of all blocks share one array, and long arrays are worked through in batches.

  * `fieldTables`, `multiply` -- the tables; `multiply_eq` -- the product of the field;
  * `parityRows`, `parity` -- one XOR for each byte; `parity_eq` -- the parity of each row;
  * `messageRows`, `encodeMany`, `split`, `damagedCodewords` -- the arrays of a block;
    `encodeMany_eq`, `damagedCodewords_eq`, `stripParity_eq` -- the same as message by message;
  * `parityRow_eq_remainder` -- the parity is the remainder modulo the generator;
  * `encoding_divides` -- all of it.
-/
import Dbs.Container.Rs
import Dbs.Lib.GaloisModulus

namespace Dbs.Rs.Arrays

open Octets Galois ReedSolomon

/-! ## 1. The tables of the field -/

def primitivePolynomial : Nat := 0x11D

/-- The loop over the powers below 255: the two tables, and the power it is at. -/
structure FieldLoop where
  exp : List Nat := List.replicate 512 0
  log : List Nat := List.replicate 256 0
  value : Nat := 1

def FieldLoop.next (t : FieldLoop) (power : Nat) : FieldLoop :=
  let value := t.value <<< 1
  { exp := t.exp.set power t.value
    log := t.log.set t.value power
    value := if value &&& 0x100 ≠ 0 then value ^^^ primitivePolynomial else value }

/-- `exp[power] = exp[power - 255]`, for the powers up to 512. -/
def repeatPowers (exp : List Nat) : Nat → List Nat
  | 0 => exp
  | n + 1 =>
    let exp := repeatPowers exp n
    exp.set (255 + n) (exp.getD n 0)

def fieldTables : List Nat × List Nat :=
  let loop := (List.range 255).foldl FieldLoop.next {}
  (repeatPowers loop.exp 257, loop.log)

def expTable : List Nat := fieldTables.1

def logTable : List Nat := fieldTables.2

def multiply (a b : Nat) : Nat :=
  if a = 0 ∨ b = 0 then 0 else expTable.getD (logTable.getD a 0 + logTable.getD b 0) 0

/-- The number of a field element. -/
def number (a : GF256) : Nat := a.bits.toNat

theorem number_lt (a : GF256) : number a < 256 := a.bits.isLt

theorem number_inj {a b : GF256} (h : number a = number b) : a = b :=
  GF256.ext (BitVec.eq_of_toNat_eq h)

theorem number_sym (b : UInt8) : number (sym b) = b.toNat := rfl

theorem number_double (a : GF256) : number a.double =
    if (number a <<< 1) &&& 0x100 ≠ 0 then (number a <<< 1) ^^^ primitivePolynomial
    else number a <<< 1 := by
  have hall : ∀ i : Fin (2 ^ 8), number (GF256.double ⟨BitVec.ofFin i⟩) =
      if (i.val <<< 1) &&& 0x100 ≠ 0 then (i.val <<< 1) ^^^ primitivePolynomial
      else i.val <<< 1 := by decide +kernel
  exact hall a.bits.toFin

/-- **The loop after `k` powers**: the tables hold them. -/
structure Filled (k : Nat) (t : FieldLoop) : Prop where
  exp_length : t.exp.length = 512
  log_length : t.log.length = 256
  value : t.value = number (GF256.exp k)
  exp : ∀ j < k, t.exp.getD j 0 = number (GF256.exp j)
  log : ∀ j < k, t.log.getD (number (GF256.exp j)) 0 = j

theorem getD_set_self {l : List Nat} {i : Nat} (h : i < l.length) (v : Nat) :
    (l.set i v).getD i 0 = v := by
  rw [List.getD_eq_getElem?_getD, List.getElem?_set_self h, Option.getD_some]

theorem getD_set_ne {l : List Nat} {i j : Nat} (h : i ≠ j) (v : Nat) :
    (l.set i v).getD j 0 = l.getD j 0 := by
  rw [List.getD_eq_getElem?_getD, List.getElem?_set_ne h, List.getD_eq_getElem?_getD]

theorem Filled.next {k : Nat} {t : FieldLoop} (h : Filled k t) (hk : k < 255) :
    Filled (k + 1) (t.next k) := by
  have hvalue : t.value < 256 := by rw [h.value]; exact number_lt _
  refine ⟨by rw [FieldLoop.next, List.length_set, h.exp_length],
    by rw [FieldLoop.next, List.length_set, h.log_length], ?_, fun j hj => ?_, fun j hj => ?_⟩
  · have hexp : GF256.exp (k + 1) = (GF256.exp k).double := Function.iterate_succ_apply' _ _ _
    rw [hexp, number_double, ← h.value]
    rfl
  · show (t.exp.set k t.value).getD j 0 = _
    rcases Nat.lt_succ_iff_lt_or_eq.mp hj with hlt | rfl
    · rw [getD_set_ne (by omega), h.exp j hlt]
    · rw [getD_set_self (by rw [h.exp_length]; omega), h.value]
  · show (t.log.set t.value k).getD _ 0 = j
    rcases Nat.lt_succ_iff_lt_or_eq.mp hj with hlt | rfl
    · have hne : t.value ≠ number (GF256.exp j) := by
        rw [h.value]
        intro he
        have := GF256.exp_inj hk (by omega) (number_inj he)
        omega
      rw [getD_set_ne hne, h.log j hlt]
    · rw [← h.value, getD_set_self (by rw [h.log_length]; exact hvalue)]

theorem filled_loop (k : Nat) (hk : k ≤ 255) : Filled k ((List.range k).foldl FieldLoop.next {}) := by
  induction k with
  | zero =>
    exact ⟨List.length_replicate, List.length_replicate, rfl, fun j hj => absurd hj (Nat.not_lt_zero j),
      fun j hj => absurd hj (Nat.not_lt_zero j)⟩
  | succ k ih =>
    rw [List.range_succ, List.foldl_append]
    exact (ih (by omega)).next hk

theorem exp_add_255 (k : Nat) : GF256.exp (255 + k) = GF256.exp k := by
  rw [← GF256.exp_mul_exp, GF256.exp_255, one_mul]

theorem repeatPowers_spec {exp : List Nat} (hl : exp.length = 512)
    (hexp : ∀ j < 255, exp.getD j 0 = number (GF256.exp j)) (n : Nat) (hn : n ≤ 257) :
    (repeatPowers exp n).length = 512 ∧
      ∀ j < 255 + n, (repeatPowers exp n).getD j 0 = number (GF256.exp j) := by
  induction n with
  | zero => exact ⟨hl, hexp⟩
  | succ n ih =>
    obtain ⟨hlen, ih⟩ := ih (by omega)
    refine ⟨by rw [repeatPowers, List.length_set, hlen], fun j hj => ?_⟩
    show ((repeatPowers exp n).set (255 + n) ((repeatPowers exp n).getD n 0)).getD j 0 = _
    rcases Nat.lt_or_ge j (255 + n) with hlt | hge
    · rw [getD_set_ne (by omega), ih j hlt]
    · obtain rfl : j = 255 + n := by omega
      rw [getD_set_self (by omega), ih n (by omega), exp_add_255]

theorem expTable_getD {j : Nat} (hj : j < 512) : expTable.getD j 0 = number (GF256.exp j) := by
  have h := filled_loop 255 le_rfl
  unfold expTable fieldTables
  generalize (List.range 255).foldl FieldLoop.next {} = loop at h
  obtain ⟨n, hn⟩ : ∃ n, n = 257 := ⟨_, rfl⟩
  have hspec := (repeatPowers_spec h.exp_length h.exp n hn.le).2 j (by omega)
  rw [← hn]
  exact hspec

theorem logTable_getD {a : GF256} (ha : a ≠ 0) : logTable.getD (number a) 0 = GF256.log a := by
  have h := filled_loop 255 le_rfl
  unfold logTable fieldTables
  generalize (List.range 255).foldl FieldLoop.next {} = loop at h
  have hlog := h.log (GF256.log a) (GF256.log_lt a)
  rwa [GF256.exp_log ha] at hlog

/-- **The product by the tables** is the product of the field. -/
theorem multiply_eq (a b : GF256) : multiply (number a) (number b) = number (a * b) := by
  have hzero : ∀ c : GF256, number c = 0 ↔ c = 0 := fun c =>
    ⟨fun h => number_inj h, fun h => by rw [h]; rfl⟩
  rw [multiply, GF256.mul_def]
  simp only [hzero]
  split
  · rfl
  · rename_i h
    rw [not_or] at h
    rw [logTable_getD h.1, logTable_getD h.2]
    refine expTable_getD ?_
    have h1 := GF256.log_lt a
    have h2 := GF256.log_lt b
    omega

/-! ## 2. The table of remainders -/

def generator (nsym : Nat) : List Nat :=
  (List.range nsym).foldl (fun poly power =>
    let root := expTable.getD power 0
    List.zipWith (· ^^^ ·) (poly ++ [0])
      (0 :: poly.map fun coefficient => multiply coefficient root)) [1]

def nextRemainder (tail remainder : List Nat) : List Nat :=
  let lead := remainder.headD 0
  List.zipWith (fun shifted coefficient => shifted ^^^ multiply lead coefficient)
    (remainder.drop 1 ++ [0]) tail

def positionRemainders (nsym : Nat) : List (List Nat) :=
  let tail := (generator nsym).drop 1
  (List.iterate (nextRemainder tail) tail (codewordSize - nsym)).reverse

def multiplicationTable : List (List Nat) :=
  (List.range 256).map fun a => (List.range 256).map fun b => multiply a b

/-- The bytes of the words that hold `nsym` parity bytes. -/
def rowWidth (nsym : Nat) : Nat := (nsym + 7) / 8 * 8

/-- For every place of a message and every byte there, the parity it adds. -/
def parityTable (nsym : Nat) : List (List Bytes) :=
  (positionRemainders nsym).map fun remainder => (List.range 256).map fun value =>
    (remainder.map fun coefficient =>
      UInt8.ofNat ((multiplicationTable.getD value []).getD coefficient 0)) ++
      zeros (rowWidth nsym - nsym)

theorem number_add (a b : GF256) : number (a + b) = number a ^^^ number b :=
  BitVec.toNat_xor a.bits b.bits

theorem ofNat_number (a : GF256) : UInt8.ofNat (number a) = octet a :=
  UInt8.ofNat_toNat (x := octet a)

variable {nsym : Nat}

theorem generator_eq (hn : nsym < 512) : generator nsym = (Rs.generator nsym).map number := by
  induction nsym with
  | zero => rfl
  | succ n ih =>
    have hstep : generator (n + 1) =
        List.zipWith (· ^^^ ·) (generator n ++ [0])
          (0 :: (generator n).map fun coefficient => multiply coefficient (expTable.getD n 0)) := by
      rw [generator, List.range_succ, List.foldl_append]
      rfl
    have hmul : ((Rs.generator n).map number).map
        (fun coefficient => multiply coefficient (number (GF256.exp n))) =
        ((Rs.generator n).map (· * GF256.exp n)).map number := by
      rw [List.map_map, List.map_map]
      exact List.map_congr_left fun c _ => multiply_eq c (GF256.exp n)
    have hzero : (0 : Nat) = number 0 := rfl
    rw [hstep, ih (by omega), expTable_getD (by omega), hmul, Rs.generator, List.map_zipWith]
    simp only [number_add]
    rw [hzero, ← List.map_singleton, ← List.map_append, ← List.map_cons, List.zipWith_map]

theorem nextRemainder_eq (tail remainder : List GF256) :
    nextRemainder (tail.map number) (remainder.map number) =
      (Rs.nextRemainder tail remainder).map number := by
  have hlead : (remainder.map number).headD 0 = number (remainder.headD 0) := by
    cases remainder <;> rfl
  rw [nextRemainder, Rs.nextRemainder, List.map_zipWith]
  simp only [hlead, number_add, ← multiply_eq]
  rw [← List.map_drop, show [0] = [(0 : GF256)].map number from rfl, ← List.map_append,
    List.zipWith_map]

theorem positionRemainders_eq (hn : nsym < 512) :
    positionRemainders nsym = (Rs.positionRemainders nsym).map (·.map number) := by
  have hiterate : ∀ (tail r : List GF256) (n : Nat),
      List.iterate (nextRemainder (tail.map number)) (r.map number) n =
        (List.iterate (Rs.nextRemainder tail) r n).map (·.map number) := by
    intro tail r n
    induction n generalizing r with
    | zero => rfl
    | succ n ih => rw [List.iterate, List.iterate, nextRemainder_eq, ih, List.map_cons]
  rw [positionRemainders, Rs.positionRemainders, generator_eq hn, ← List.map_drop, List.map_reverse]
  simp only [hiterate]

theorem getD_map_range {β : Type} (f : Nat → β) (d : β) {n i : Nat} (h : i < n) :
    ((List.range n).map f).getD i d = f i := by
  rw [List.getD_eq_getElem?_getD, List.getElem?_map, List.getElem?_range h]
  rfl

theorem getD_map {β γ : Type} (f : β → γ) (l : List β) (d : γ) (e : β) {i : Nat} (h : i < l.length) :
    (l.map f).getD i d = f (l.getD i e) := by
  rw [List.getD_eq_getElem?_getD, List.getElem?_map, List.getElem?_eq_getElem h,
    List.getD_eq_getElem _ _ h]
  rfl

theorem multiplicationTable_getD (a b : GF256) :
    (multiplicationTable.getD (number a) []).getD (number b) 0 = number (a * b) := by
  rw [multiplicationTable, getD_map_range _ _ (number_lt a), getD_map_range _ _ (number_lt b),
    multiply_eq]

/-- **An entry of the table**: the remainder of its place, times its byte. -/
theorem parityTable_getD (hn : nsym < 512) (position : Nat)
    (hp : position < (Rs.positionRemainders nsym).length) (byte : UInt8) :
    ((parityTable nsym).getD position []).getD byte.toNat [] =
      ((((Rs.positionRemainders nsym).getD position []).map (sym byte * ·)).map octet) ++
        zeros (rowWidth nsym - nsym) := by
  rw [parityTable, positionRemainders_eq hn, List.map_map, getD_map _ _ [] [] hp, Function.comp_apply,
    getD_map_range _ _ byte.toNat_lt, List.map_map, List.map_map]
  congr 1
  refine List.map_congr_left fun c _ => ?_
  rw [Function.comp_apply, Function.comp_apply, ← number_sym byte, multiplicationTable_getD,
    ofNat_number]

/-! ## 3. Parity -/

/-- The XOR of two rows of words, byte by byte. -/
def xorRow (a b : Bytes) : Bytes := List.zipWith (· ^^^ ·) a b

/-- One column of the messages after the other: what its bytes add to each row's parity. -/
def parityRows (messages : List Bytes) (table : List (List Bytes)) (width : Nat) : List Bytes :=
  (List.range table.length).foldl
    (fun accumulator position =>
      let gathered := messages.map fun row => (table.getD position []).getD
        (row.getD position 0).toNat []
      List.zipWith xorRow accumulator gathered)
    (messages.map fun _ => zeros width)

def parityBatchRows : Nat := 4096

/-- The parity of every row, in batches where there are many. -/
def parity (messages : List Bytes) (nsym : Nat) : List Bytes :=
  let table := parityTable nsym
  if messages.length ≤ parityBatchRows then
    (parityRows messages table (rowWidth nsym)).map (List.take nsym)
  else
    (pieces parityBatchRows messages).flatMap fun rows =>
      (parityRows rows table (rowWidth nsym)).map (List.take nsym)

/-- **A loop over the columns of an array** is a loop over the columns of each row. -/
theorem foldl_zipWith {β γ δ : Type} (step : γ → δ → β → γ) (rows : List β) (init : β → γ)
    (l : List δ) :
    l.foldl (fun accumulator p => List.zipWith (fun a row => step a p row) accumulator rows)
      (rows.map init) = rows.map fun row => l.foldl (fun a p => step a p row) (init row) := by
  induction l generalizing init with
  | nil => rfl
  | cons p l ih =>
    rw [List.foldl_cons, List.zipWith_map_left, List.zipWith_self]
    exact ih fun row => step (init row) p row

theorem positionRemainders_length (nsym : Nat) :
    (Rs.positionRemainders nsym).length = messageLength nsym := by
  rw [Rs.positionRemainders, List.length_reverse, List.length_iterate, messageLength]

theorem rowWidth_ge (nsym : Nat) : nsym ≤ rowWidth nsym := by
  unfold rowWidth
  omega

theorem xorRow_octets {a b : List GF256} (h : a.length = b.length) (pad : Nat) :
    xorRow (a.map octet ++ zeros pad) (b.map octet ++ zeros pad) =
      (List.zipWith (· + ·) a b).map octet ++ zeros pad := by
  have hz : List.zipWith (· ^^^ ·) (zeros pad) (zeros pad) = zeros pad := by
    rw [zeros, List.zipWith_self, List.map_replicate]
    rfl
  rw [xorRow, List.zipWith_append (by rw [List.length_map, List.length_map, h]), hz, List.map_zipWith,
    List.zipWith_map]
  rfl

/-- Every remainder in the table has `nsym` places. -/
theorem positionRemainders_getD_length {nsym position : Nat} (hp : position < messageLength nsym) :
    ((Rs.positionRemainders nsym).getD position []).length = nsym := by
  obtain ⟨tail, ht⟩ := generator_head nsym
  have hmem : (Rs.positionRemainders nsym).getD position [] ∈ Rs.positionRemainders nsym := by
    rw [List.getD_eq_getElem _ _ (by rw [positionRemainders_length]; exact hp)]
    exact List.getElem_mem _
  generalize (Rs.positionRemainders nsym).getD position [] = remainder at hmem
  rw [Rs.positionRemainders, List.mem_reverse, ht] at hmem
  obtain ⟨n, hn⟩ := List.mem_iff_getElem?.mp hmem
  rcases Nat.lt_or_ge n (codewordSize - nsym) with hlt | hge
  · rw [List.getElem?_iterate _ _ _ _ hlt, Option.some.injEq] at hn
    rw [← hn]
    exact (iterate_nextRemainder ht n).1
  · rw [List.getElem?_eq_none (by rw [List.length_iterate]; exact hge)] at hn
    cases hn

/-- The parity of the first `n` places of a row. -/
theorem foldl_positions (hn : nsym < 512) {row : Bytes} (hr : row.length = messageLength nsym)
    (n : Nat) (hle : n ≤ messageLength nsym) :
    let sum := ((row.zip (Rs.positionRemainders nsym)).take n).foldl addRemainder
      (List.replicate nsym 0)
    sum.length = nsym ∧ (List.range n).foldl (fun a position =>
        xorRow a (((parityTable nsym).getD position []).getD (row.getD position 0).toNat []))
        (zeros (rowWidth nsym)) = sum.map octet ++ zeros (rowWidth nsym - nsym) := by
  induction n with
  | zero =>
    refine ⟨List.length_replicate, ?_⟩
    have hge := rowWidth_ge nsym
    rw [List.range_zero, List.foldl_nil, List.take_zero, List.foldl_nil, List.map_replicate]
    show List.replicate _ 0 = List.replicate _ 0 ++ List.replicate _ 0
    rw [List.replicate_append_replicate, Nat.add_sub_cancel' hge]
  | succ n ih =>
    obtain ⟨hlen, ih⟩ := ih (by omega)
    have hp : n < (Rs.positionRemainders nsym).length := by rw [positionRemainders_length]; omega
    have hzip : (row.zip (Rs.positionRemainders nsym))[n]? =
        some (row.getD n 0, (Rs.positionRemainders nsym).getD n []) := by
      rw [List.getElem?_zip_eq_some]
      exact ⟨by rw [List.getD_eq_getElem _ _ (by omega), List.getElem?_eq_getElem],
        by rw [List.getD_eq_getElem _ _ hp, List.getElem?_eq_getElem]⟩
    have hadd : (((Rs.positionRemainders nsym).getD n []).map (sym (row.getD n 0) * ·)).length =
        nsym := by rw [List.length_map, positionRemainders_getD_length (by omega)]
    refine ⟨?_, ?_⟩
    · rw [List.take_add_one, hzip, List.foldl_append]
      simp only [Option.toList_some, List.foldl_cons, List.foldl_nil, addRemainder]
      rw [List.length_zipWith, hlen, hadd, Nat.min_self]
    · rw [List.range_succ, List.foldl_append, ih, List.take_add_one, hzip, List.foldl_append]
      simp only [Option.toList_some, List.foldl_cons, List.foldl_nil, addRemainder]
      rw [parityTable_getD hn n hp, xorRow_octets (by rw [hlen, hadd])]

theorem parityTable_length (hn : nsym < 512) : (parityTable nsym).length = messageLength nsym := by
  rw [parityTable, positionRemainders_eq hn, List.length_map, List.length_map,
    positionRemainders_length]

/-- One batch. -/
theorem parityRows_eq (hn : nsym < 512) {messages : List Bytes}
    (hm : ∀ row ∈ messages, row.length = messageLength nsym) :
    (parityRows messages (parityTable nsym) (rowWidth nsym)).map (List.take nsym) =
      Rs.parity messages nsym := by
  have hloop : parityRows messages (parityTable nsym) (rowWidth nsym) =
      messages.map fun row => (List.range (messageLength nsym)).foldl (fun a position =>
        xorRow a (((parityTable nsym).getD position []).getD (row.getD position 0).toNat []))
        (zeros (rowWidth nsym)) := by
    rw [parityRows, parityTable_length hn]
    simp only [List.zipWith_map_right]
    exact foldl_zipWith (fun a position row =>
      xorRow a (((parityTable nsym).getD position []).getD (row.getD position 0).toNat []))
      messages (fun _ => zeros (rowWidth nsym)) (List.range (messageLength nsym))
  rw [hloop, List.map_map, Rs.parity]
  refine List.map_congr_left fun row hrow => ?_
  have hr := hm row hrow
  obtain ⟨hlen, hsum⟩ := foldl_positions hn hr (messageLength nsym) le_rfl
  have hall : (row.zip (Rs.positionRemainders nsym)).take (messageLength nsym) =
      row.zip (Rs.positionRemainders nsym) := by
    refine List.take_of_length_le ?_
    rw [List.length_zip, hr]
    exact min_le_left _ _
  rw [Function.comp_apply, hsum, hall, List.take_left' (by rw [List.length_map, ← hall, hlen])]
  rfl

/-- **The parity of an array of messages** is that of each of them, in one batch or many. -/
theorem parity_eq (hn : nsym < 512) {messages : List Bytes}
    (hm : ∀ row ∈ messages, row.length = messageLength nsym) :
    parity messages nsym = Rs.parity messages nsym := by
  rw [parity]
  split
  · exact parityRows_eq hn hm
  · have hbatch : ∀ rows ∈ pieces parityBatchRows messages,
        (parityRows rows (parityTable nsym) (rowWidth nsym)).map (List.take nsym) =
          Rs.parity rows nsym := by
      intro rows hrows
      refine parityRows_eq hn fun row hrow => hm row ?_
      rw [← pieces_flatten (by decide : 0 < parityBatchRows) messages]
      exact List.mem_flatten_of_mem hrows hrow
    rw [List.flatMap_def, List.map_congr_left hbatch]
    simp only [Rs.parity]
    rw [← List.map_flatten, pieces_flatten (by decide)]

/-! ## 4. Encoding -/

/-- A block as an array of messages; the last one may be short. -/
def messageRows (data : Bytes) (nsym : Nat) : List Bytes × Nat :=
  let messageLen := messageLength nsym
  let full := data.length / messageLen
  let rest := data.length % messageLen
  (((List.range full).map fun i => slice data (i * messageLen) messageLen) ++
    if rest = 0 then [] else [zeros (messageLen - rest) ++ data.drop (full * messageLen)], rest)

/-- The codewords of a block from its layout and its share of the parity. -/
def encodeBlock (nsym : Nat) (layout : List Bytes × Nat) (block : Bytes) (blockParity : List Bytes) :
    Bytes :=
  let (rows, rest) := layout
  let full := rows.length - if rest = 0 then 0 else 1
  let codewords := List.zipWith (· ++ ·) (rows.take full) (blockParity.take full)
  let tail := if rest = 0 then [] else
    block.drop (full * messageLength nsym) ++ blockParity.getD full []
  codewords.flatten ++ tail

/-- The blocks one after the other; `start` is the first row of the next one. -/
def encodeBlocks (nsym : Nat) (allParity : List Bytes) :
    List ((List Bytes × Nat) × Bytes) → (start : Nat) → List Bytes
  | [], _ => []
  | (layout, block) :: more, start =>
    let count := layout.1.length
    encodeBlock nsym layout block (slice allParity start count) ::
      encodeBlocks nsym allParity more (start + count)

def encodeMany (blocks : List Bytes) (nsym : Nat) : List Bytes :=
  if blocks = [] then []
  else
    let layouts := blocks.map (messageRows · nsym)
    let allParity := parity (layouts.flatMap (·.1)) nsym
    encodeBlocks nsym allParity (layouts.zip blocks) 0

def encode (data : Bytes) (nsym : Nat) : Bytes := (encodeMany [data] nsym).headD []

section Encoding

variable {nsym : Nat}

/-- The full messages of a block. -/
def fullMessages (nsym : Nat) (data : Bytes) : List Bytes :=
  (List.range (data.length / messageLength nsym)).map fun i =>
    slice data (i * messageLength nsym) (messageLength nsym)

theorem fullMessages_length (data : Bytes) :
    (fullMessages nsym data).length = data.length / messageLength nsym := by
  rw [fullMessages, List.length_map, List.length_range]

theorem messageRow_full {m : Bytes} (h : m.length = messageLength nsym) : messageRow nsym m = m := by
  rw [messageRow, h, Nat.sub_self]
  rfl

theorem length_fullMessages {data m : Bytes} (h : m ∈ fullMessages nsym data) :
    m.length = messageLength nsym := by
  obtain ⟨i, hi, rfl⟩ := List.mem_map.mp h
  have hlt := List.mem_range.mp hi
  refine slice_length_eq ?_
  have hle := Nat.mul_le_mul_right (messageLength nsym) (Nat.succ_le_of_lt hlt)
  have hd := Nat.div_mul_le_self data.length (messageLength nsym)
  rw [Nat.succ_mul] at hle
  omega

section

variable (hn : nsym < codewordSize)

include hn

theorem messages_eq_append (data : Bytes) : messages nsym data =
    fullMessages nsym data ++ if data.length % messageLength nsym = 0 then [] else
      [data.drop (data.length / messageLength nsym * messageLength nsym)] :=
  pieces_eq_append (messageLength_pos hn) data

/-- **The rows of a block** are those of its messages. -/
theorem messageRows_eq (data : Bytes) :
    messageRows data nsym = (Rs.messageRows data nsym, data.length % messageLength nsym) := by
  have hfull : (fullMessages nsym data).map (messageRow nsym) = fullMessages nsym data :=
    (List.map_congr_left fun m hm => messageRow_full (length_fullMessages hm)).trans (List.map_id _)
  have hsum : data.length - data.length / messageLength nsym * messageLength nsym =
      data.length % messageLength nsym := by
    have := Nat.div_add_mod' data.length (messageLength nsym)
    omega
  have hrows : Rs.messageRows data nsym = fullMessages nsym data ++
      if data.length % messageLength nsym = 0 then [] else
        [zeros (messageLength nsym - data.length % messageLength nsym) ++
          data.drop (data.length / messageLength nsym * messageLength nsym)] := by
    rw [Rs.messageRows, show pieces (messageLength nsym) data = messages nsym data from rfl,
      messages_eq_append hn, List.map_append, hfull]
    split
    · rfl
    · rw [List.map_singleton, messageRow, List.length_drop, hsum]
  rw [hrows]
  rfl

/-- **A block from its rows and its parity** is the codewords of its messages. -/
theorem encodeBlock_eq (block : Bytes) :
    encodeBlock nsym (messageRows block nsym) block (Rs.parity (Rs.messageRows block nsym) nsym) =
      ((messages nsym block).map (codeword nsym)).flatten := by
  have hfull : (fullMessages nsym block).map (messageRow nsym) = fullMessages nsym block :=
    (List.map_congr_left fun m hm => messageRow_full (length_fullMessages hm)).trans (List.map_id _)
  have hrows : Rs.messageRows block nsym = (messages nsym block).map (messageRow nsym) := rfl
  have hlen : (fullMessages nsym block).length = _ := fullMessages_length block
  have hcodewords : List.zipWith (· ++ ·) (fullMessages nsym block)
      ((fullMessages nsym block).map (parityRow nsym)) =
      (fullMessages nsym block).map (codeword nsym) := by
    rw [zipWith_append_map]
    refine List.map_congr_left fun m hm => ?_
    rw [codeword, messageRow_full (length_fullMessages hm)]
  rw [messageRows_eq hn, encodeBlock]
  rw [hrows, messages_eq_append hn, List.map_append, hfull, Rs.parity, List.map_append]
  split
  · simp only [List.map_nil, List.append_nil, Nat.sub_zero, List.take_length]
    rw [List.take_of_length_le (by rw [List.length_map]), hcodewords]
  · rename_i hrest
    simp only [List.map_singleton, List.length_append, List.length_singleton, Nat.add_sub_cancel]
    rw [List.take_left' rfl, List.take_left' (by rw [List.length_map]), hcodewords, List.map_append,
      List.map_singleton, List.flatten_append, List.flatten_singleton, codeword,
      List.getD_eq_getElem?_getD, List.getElem?_append_right (by rw [List.length_map]), List.length_map,
      Nat.sub_self, hlen]
    rfl

theorem encodeBlocks_eq (blocks : List Bytes) (front : List Bytes) :
    encodeBlocks nsym (front ++ Rs.parity (blocks.flatMap (Rs.messageRows · nsym)) nsym)
        ((blocks.map (messageRows · nsym)).zip blocks) front.length =
      blocks.map fun block => ((messages nsym block).map (codeword nsym)).flatten := by
  induction blocks generalizing front with
  | nil => rfl
  | cons block blocks ih =>
    have hcount : (messageRows block nsym).1.length =
        (Rs.parity (Rs.messageRows block nsym) nsym).length := by
      rw [messageRows_eq hn, Rs.parity, List.length_map]
    have hsplit : front ++ Rs.parity ((block :: blocks).flatMap (Rs.messageRows · nsym)) nsym =
        front ++ (Rs.parity (Rs.messageRows block nsym) nsym ++
          Rs.parity (blocks.flatMap (Rs.messageRows · nsym)) nsym) := by
      rw [List.flatMap_cons, Rs.parity, List.map_append]
      rfl
    rw [hsplit, List.map_cons, List.zip_cons_cons, encodeBlocks]
    rw [hcount, slice_middle, encodeBlock_eq hn, List.map_cons, ← List.append_assoc,
      ← List.length_append, ih]

/-- **Encoding by arrays is encoding message by message.** -/
theorem encodeMany_eq (blocks : List Bytes) :
    encodeMany blocks nsym = Rs.encodeMany blocks nsym := by
  rw [Rs.encodeMany_eq, encodeMany]
  split
  · rename_i h
    rw [h]
    rfl
  · have hrows : (blocks.map (messageRows · nsym)).flatMap (·.1) =
        blocks.flatMap (Rs.messageRows · nsym) := by
      rw [List.flatMap_map]
      exact List.flatMap_congr fun block _ => by rw [messageRows_eq hn]
    have hlength : ∀ row ∈ blocks.flatMap (Rs.messageRows · nsym), row.length = messageLength nsym := by
      intro row hrow
      obtain ⟨block, -, hrow⟩ := List.mem_flatMap.mp hrow
      obtain ⟨m, hm, rfl⟩ := List.mem_map.mp hrow
      exact messageRow_length (messages_length_le hn hm)
    simp only [hrows, parity_eq (hn.trans (by decide)) hlength]
    exact encodeBlocks_eq hn blocks []

theorem encode_eq (data : Bytes) : encode data nsym = Rs.encode data nsym := by
  rw [encode, encodeMany_eq hn, Rs.encode]

end

/-! ## 5. Reading -/

/-- The full codewords of a stored block. -/
def fullCodewords (encoded : Bytes) : List Bytes :=
  (List.range (encoded.length / codewordSize)).map fun i => slice encoded (i * codewordSize)
    codewordSize

/-- A stored block as an array of messages and one of parity; the last message may be short. -/
def split (encoded : Bytes) (nsym : Nat) : List Bytes × List Bytes :=
  let messageLen := messageLength nsym
  let rest := encoded.length % codewordSize
  let tail := encoded.drop (encoded.length / codewordSize * codewordSize)
  ((fullCodewords encoded).map (List.take messageLen) ++
      (if rest = 0 then [] else [zeros (messageLen - (rest - nsym)) ++ tail.take (rest - nsym)]),
    (fullCodewords encoded).map (List.drop messageLen) ++
      (if rest = 0 then [] else [tail.drop (rest - nsym)]))

def stripParity (encoded : Bytes) (nsym : Nat) : Option Bytes :=
  if isWellFormed encoded.length nsym then
    let messageLen := messageLength nsym
    let rest := encoded.length % codewordSize
    let data := ((fullCodewords encoded).map (List.take messageLen)).flatten
    some (if rest = 0 then data
      else data ++
        (encoded.take (encoded.length - nsym)).drop (encoded.length / codewordSize * codewordSize))
  else none

def damagedCodewords (encoded : Bytes) (nsym : Nat) : Option (List Nat) :=
  if isWellFormed encoded.length nsym then
    let (messages, stored) := split encoded nsym
    let mismatch := List.zipWith (· != ·) (parity messages nsym) stored
    some ((mismatch.zipIdx.filter (·.1)).map (·.2))
  else none

theorem length_fullCodewords {encoded w : Bytes} (h : w ∈ fullCodewords encoded) :
    w.length = codewordSize := by
  obtain ⟨i, hi, rfl⟩ := List.mem_map.mp h
  have hlt := List.mem_range.mp hi
  refine slice_length_eq ?_
  have hle := Nat.mul_le_mul_right codewordSize (Nat.succ_le_of_lt hlt)
  have hd := Nat.div_mul_le_self encoded.length codewordSize
  rw [Nat.succ_mul] at hle
  omega

theorem codewords_eq_append (encoded : Bytes) : pieces codewordSize encoded =
    fullCodewords encoded ++ if encoded.length % codewordSize = 0 then [] else
      [encoded.drop (encoded.length / codewordSize * codewordSize)] :=
  pieces_eq_append (by decide) encoded

theorem tail_length (encoded : Bytes) :
    (encoded.drop (encoded.length / codewordSize * codewordSize)).length =
      encoded.length % codewordSize := by
  have := Nat.div_add_mod' encoded.length codewordSize
  rw [List.length_drop]
  omega

/-- **The two arrays** hold the message and the parity of each codeword. -/
theorem split_eq (encoded : Bytes) : split encoded nsym =
    ((pieces codewordSize encoded).map fun w => messageRow nsym (messageOf nsym w),
      (pieces codewordSize encoded).map fun w => w.drop (w.length - nsym)) := by
  have htail := tail_length encoded
  have hfull : (fullCodewords encoded).map (fun w => messageRow nsym (messageOf nsym w)) =
      (fullCodewords encoded).map (List.take (messageLength nsym)) :=
    List.map_congr_left fun w hw => by
      have hw := length_fullCodewords hw
      have hm : (messageOf nsym w).length = messageLength nsym := by rw [messageOf_length, hw]; rfl
      rw [messageRow_full hm, messageOf, hw]
      rfl
  have hstored : (fullCodewords encoded).map (fun w => w.drop (w.length - nsym)) =
      (fullCodewords encoded).map (List.drop (messageLength nsym)) :=
    List.map_congr_left fun w hw => by rw [length_fullCodewords hw]; rfl
  rw [codewords_eq_append, List.map_append, List.map_append, hfull, hstored, split]
  split
  · rfl
  · rw [List.map_singleton, List.map_singleton, messageRow, messageOf_length, messageOf, htail]

theorem stripParity_eq (encoded : Bytes) :
    stripParity encoded nsym = Rs.stripParity encoded nsym := by
  have htail := tail_length encoded
  have hfull : (fullCodewords encoded).flatMap (messageOf nsym) =
      ((fullCodewords encoded).map (List.take (messageLength nsym))).flatten := by
    rw [List.flatMap_def]
    refine congrArg List.flatten (List.map_congr_left fun w hw => ?_)
    rw [messageOf, length_fullCodewords hw]
    rfl
  rw [stripParity, Rs.stripParity]
  split
  · rw [codewords_eq_append, List.flatMap_append, hfull]
    simp only
    split
    · rw [List.flatMap_nil, List.append_nil]
    · have hdiv := Nat.div_add_mod' encoded.length codewordSize
      rw [List.flatMap_singleton, messageOf, htail, List.drop_take]
      congr 3
      omega
  · rfl

/-- **The damaged codewords** are those whose own parity is not what they store. -/
theorem damagedCodewords_eq (hn : nsym < codewordSize) (encoded : Bytes) :
    damagedCodewords encoded nsym = Rs.damagedCodewords encoded nsym := by
  have hrows : ∀ row ∈ (pieces codewordSize encoded).map (fun w => messageRow nsym (messageOf nsym w)),
      row.length = messageLength nsym := by
    intro row hrow
    obtain ⟨w, hw, rfl⟩ := List.mem_map.mp hrow
    exact messageRow_length (messageOf_length_le w ((cut_pieces (by decide) encoded).length_le w hw))
  have hmismatch : List.zipWith (· != ·)
      (parity ((pieces codewordSize encoded).map fun w => messageRow nsym (messageOf nsym w)) nsym)
      ((pieces codewordSize encoded).map fun w => w.drop (w.length - nsym)) =
      (pieces codewordSize encoded).map fun w => !consistent nsym w := by
    rw [parity_eq (hn.trans (by decide)) hrows, Rs.parity, List.map_map, List.zipWith_map,
      List.zipWith_self]
    rfl
  rw [damagedCodewords, Rs.damagedCodewords, split_eq]
  simp only
  rw [hmismatch, List.zipIdx_map, List.filter_map, List.map_map]
  rfl

/-! ## 6. The parity is a remainder -/

open Polynomial

/-- The code's generator is the product of `X - α^power`. -/
theorem wordPoly_generator (nsym : Nat) : wordPoly (Rs.generator nsym) = generatorPoly alpha nsym := by
  induction nsym with
  | zero => simp [Rs.generator, wordPoly, generatorPoly]
  | succ n ih =>
    have hneg : ∀ a : GF256, -a = a := fun a =>
      (eq_neg_of_add_eq_zero_left (GF256.add_self a)).symm
    have hl : (Rs.generator n ++ [0]).length =
        (0 :: (Rs.generator n).map (· * GF256.exp n)).length := by
      simp only [List.length_append, List.length_cons, List.length_map, List.length_nil]
    rw [Rs.generator, wordPoly_zipWith_add hl, wordPoly_concat, wordPoly_cons, wordPoly_map_mul, ih,
      C_0, zero_mul,
      add_zero, zero_add, generatorPoly, generatorPoly, Finset.prod_range_succ, alpha_pow,
      sub_eq_add_neg, ← C_neg, hneg]
    ring

/-- The remainder of `message * X^nsym` modulo the generator, its highest coefficient first. -/
noncomputable def remainder (nsym : Nat) (message : Bytes) : Bytes :=
  (highFirst nsym ((wordPoly (message.map sym) * X ^ nsym) %ₘ generatorPoly alpha nsym)).map octet

/-- **The parity of a message**, a short one too, is its remainder. -/
theorem parityRow_eq_remainder (hn : nsym < codewordSize) {message : Bytes}
    (hm : message.length ≤ messageLength nsym) :
    parityRow nsym (messageRow nsym message) = remainder nsym message := by
  obtain ⟨hl, he⟩ := parityRow_spec (messageRow_length hm)
  have hα : Set.InjOn (alpha ^ ·) (Finset.range nsym) := by
    intro i hi j hj e
    simp only [Finset.coe_range, Set.mem_Iio] at hi hj
    simp only [alpha_pow] at e
    unfold codewordSize at hn
    exact GF256.exp_inj (by omega) (by omega) e
  have hz : (messageRow nsym message).map sym =
      List.replicate (messageLength nsym - message.length) 0 ++ message.map sym := by
    rw [messageRow, List.map_append, zeros, List.map_replicate]
    rfl
  have hrem : (wordPoly (message.map sym) * X ^ nsym) %ₘ generatorPoly alpha nsym =
      wordPoly ((parityRow nsym (messageRow nsym message)).map sym) := by
    refine modByMonic_eq_wordPoly hα (by rw [List.length_map, hl]) fun i hi => ?_
    rw [alpha_pow, he i hi, hz, evalBe_zeros_append, eval_mul, eval_wordPoly, eval_pow, eval_X]
  have hlen : ((parityRow nsym (messageRow nsym message)).map sym).length = nsym := by
    rw [List.length_map, hl]
  have hread := highFirst_wordPoly ((parityRow nsym (messageRow nsym message)).map sym)
  rw [hlen] at hread
  have hoctet : (octet ∘ sym) = id := funext octet_sym
  rw [remainder, hrem, hread, List.map_map, hoctet, List.map_id]

theorem poly_alpha : alpha.poly = X := by
  have hbits : alpha.bits.toNat = 2 * 1 := by decide
  have hone : bitsPoly 1 = 1 := GF256.poly_one
  rw [GF256.poly, hbits, bitsPoly_double (by decide), hone, mul_one]

end Encoding

open Polynomial

/-- **Encoding is division.** The tables multiply in GF(2)[X] modulo 0x11D, where `alpha` is X; the
    generator is the product of `X - alpha^power`; and of every batch of blocks, each message is
    followed by the remainder of `message * X^nsym`. So the length is `encodedLength`, no codeword
    counts as damaged, and stripping the parity gives the block back. -/
theorem encoding_divides (nsym : Nat) (hrange : minNsym ≤ nsym ∧ nsym ≤ maxNsym) :
    (∀ a b : GF256, multiply (number a) (number b) = number (a * b) ∧
      (a * b).poly = (a.poly * b.poly) %ₘ modulus) ∧
    alpha.poly = X ∧
    generator nsym = (Rs.generator nsym).map number ∧
    wordPoly (Rs.generator nsym) = generatorPoly alpha nsym ∧
    (∀ blocks : List Bytes, encodeMany blocks nsym = blocks.map fun block =>
      ((messages nsym block).map fun message => message ++ remainder nsym message).flatten) ∧
    ∀ data : Bytes,
      encode data nsym = ((messages nsym data).map fun message =>
      message ++ remainder nsym message).flatten ∧
      (encode data nsym).length = encodedLength data.length nsym ∧
      damagedCodewords (encode data nsym) nsym = some [] ∧
      stripParity (encode data nsym) nsym = some data := by
  have hn : nsym < codewordSize := lt_of_le_of_lt hrange.2 (by decide)
  have hcodeword : ∀ block : Bytes, (messages nsym block).map (codeword nsym) =
      (messages nsym block).map fun message => message ++ remainder nsym message := fun block =>
    List.map_congr_left fun m hm => by rw [codeword,
      parityRow_eq_remainder hn (messages_length_le hn hm)]
  refine ⟨fun a b => ⟨multiply_eq a b, GF256.poly_mul a b⟩, poly_alpha,
    generator_eq (hn.trans (by decide)),
    wordPoly_generator nsym, fun blocks => ?_, fun data => ⟨?_, ?_, ?_, ?_⟩⟩
  · rw [encodeMany_eq hn, Rs.encodeMany_eq]
    exact List.map_congr_left fun block _ => by rw [hcodeword]
  · rw [encode_eq hn, Rs.encode_eq, hcodeword]
  · rw [encode_eq hn, encode_length hn]
  · rw [encode_eq hn, damagedCodewords_eq hn]
    exact damagedCodewords_encode hn data
  · rw [encode_eq hn, stripParity_eq, stripParity_encode hn]

/-- Two parity bytes, in range. -/
theorem encoding_divides_two :
    (∀ blocks : List Bytes, encodeMany blocks 2 = blocks.map fun block =>
      ((messages 2 block).map fun message => message ++ remainder 2 message).flatten) ∧
    ∀ data : Bytes, stripParity (encode data 2) 2 = some data := by
  obtain ⟨-, -, -, -, hmany, hdata⟩ := encoding_divides 2 (by decide)
  exact ⟨hmany, fun data => (hdata data).2.2.2⟩

end Dbs.Rs.Arrays

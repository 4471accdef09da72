/-
  File:      Dbs/Lib/Octets.lean
  Subject:   BYTE STRINGS: slices, big-endian integers, strings cut into pieces of one length.

  * `slice` -- `data[start : start + length]`, with the laws of slicing a concatenation;
  * `toBe`, `ofBe` -- unsigned big-endian integers of a fixed width, and the two round trips;
  * `pieces` -- a string cut into consecutive pieces of `n` (the last one may be shorter), the only
    `Cut` of it (`pieces_flatten_of_cut`); `flatten_slice` -- the `i`th piece of a concatenation of
    equally long strings is the `i`th one.
-/
import Mathlib.Data.List.Basic
import Mathlib.Data.List.Induction
import Mathlib.Tactic.Ring
import Mathlib.Tactic.Linarith

namespace Octets

abbrev Bytes := List UInt8

/-! ## 1. Slices -/

section Slice

variable {α : Type*}

/-- `data[start : start + length]`: shorter where the string ends first. -/
def slice (data : List α) (start length : Nat) : List α := (data.drop start).take length

theorem slice_length (d : List α) (s n : Nat) : (slice d s n).length = min n (d.length - s) := by
  simp [slice]

theorem slice_length_le (d : List α) (s n : Nat) : (slice d s n).length ≤ n := by
  rw [slice_length]; omega

variable {d : List α}

theorem slice_length_eq {s n : Nat} (h : s + n ≤ d.length) : (slice d s n).length = n := by
  rw [slice_length]; omega

@[simp] theorem slice_zero (d : List α) (n : Nat) : slice d 0 n = d.take n := rfl

@[simp] theorem slice_length_zero (d : List α) (s : Nat) : slice d s 0 = [] := by simp [slice]

theorem slice_eq_nil {s : Nat} (n : Nat) (h : d.length ≤ s) : slice d s n = [] := by
  simp [slice, List.drop_eq_nil_of_le h]

/-- A slice that starts behind the first string is a slice of the second. -/
theorem slice_append_right (a b : List α) {s : Nat} (n : Nat) (h : a.length ≤ s) :
    slice (a ++ b) s n = slice b (s - a.length) n := by
  simp [slice, List.drop_append, List.drop_eq_nil_of_le h]

/-- A slice that ends inside the first string does not see the second. -/
theorem slice_append_left (a b : List α) {s n : Nat} (h : s + n ≤ a.length) :
    slice (a ++ b) s n = slice a s n := by
  have hs : s ≤ a.length := by omega
  have hn : n ≤ (a.drop s).length := by rw [List.length_drop]; omega
  rw [slice, slice, List.drop_append_of_le_length hs, List.take_append_of_le_length hn]

theorem slice_middle (a b c : List α) : slice (a ++ (b ++ c)) a.length b.length = b := by
  rw [slice_append_right a _ _ (Nat.le_refl _), Nat.sub_self, slice_zero, List.take_left]

theorem slice_take {k s n : Nat} (h : s + n ≤ k) : slice (d.take k) s n = slice d s n := by
  rw [slice, slice, List.drop_take, List.take_take, Nat.min_eq_left (by omega)]

theorem slice_drop (d : List α) (k s n : Nat) : slice (d.drop k) s n = slice d (k + s) n := by
  rw [slice, slice, List.drop_drop]

/-- A slice of a slice is a slice. -/
theorem slice_slice {s n t m : Nat} (h : t + m ≤ n) :
    slice (slice d s n) t m = slice d (s + t) m := by
  rw [slice, slice, slice, List.drop_take, List.take_take, List.drop_drop,
    Nat.min_eq_left (by omega)]

theorem slice_getElem? (d : List α) {s n i : Nat} (h : i < n) : (slice d s n)[i]? = d[s + i]? := by
  simp [slice, List.getElem?_take_of_lt h]

theorem take_slice (d : List α) (s n r : Nat) : (slice d s n).take r = slice d s (min r n) := by
  rw [slice, slice, List.take_take]

theorem drop_slice (d : List α) (s n r : Nat) : (slice d s n).drop r = slice d (s + r) (n - r) := by
  rw [slice, slice, List.drop_take, List.drop_drop]

/-- A slice depends on its own places only. -/
theorem slice_congr {d e : List α} {s n : Nat} (h : ∀ i, s ≤ i → i < s + n → d[i]? = e[i]?) :
    slice d s n = slice e s n := by
  refine List.ext_getElem? fun i => ?_
  rcases Nat.lt_or_ge i n with hi | hi
  · rw [slice_getElem? d hi, slice_getElem? e hi]
    exact h _ (by omega) (by omega)
  · rw [List.getElem?_eq_none ((slice_length_le d s n).trans hi),
      List.getElem?_eq_none ((slice_length_le e s n).trans hi)]

/-- Two neighbouring slices are one. -/
theorem slice_add (d : List α) (s n m : Nat) :
    slice d s (n + m) = slice d s n ++ slice d (s + n) m := by
  rw [slice, slice, slice, List.take_add, List.drop_drop]

end Slice

/-! ## 2. Concatenations of equally long strings -/

section Pieces

variable {α : Type*}

/-- The string cut into consecutive pieces of `n`; the last one may be shorter. -/
def pieces (n : Nat) (d : List α) : List (List α) :=
  (List.range ((d.length + n - 1) / n)).map fun i => slice d (i * n) n

/-- The first `k` pieces of `n`, joined, are the first `k * n` items. -/
theorem flatten_map_slice (d : List α) (n k : Nat) :
    ((List.range k).map fun i => slice d (i * n) n).flatten = d.take (k * n) := by
  induction k with
  | zero => simp
  | succ k ih =>
    rw [List.range_succ, List.map_append, List.flatten_append, ih, Nat.add_mul, Nat.one_mul,
      List.take_add]
    simp [slice]

variable {n : Nat}

theorem pieces_flatten (hn : 0 < n) (d : List α) : (pieces n d).flatten = d := by
  rw [pieces, flatten_map_slice]
  refine List.take_of_length_le ?_
  have h := Nat.div_add_mod (d.length + n - 1) n
  have hm := Nat.mod_lt (d.length + n - 1) hn
  have hc : (d.length + n - 1) / n * n = n * ((d.length + n - 1) / n) := Nat.mul_comm _ _
  omega

@[simp] theorem pieces_nil (n : Nat) : pieces n ([] : List α) = [] := by
  rcases n with - | n
  · simp [pieces]
  · simp [pieces, Nat.div_eq_of_lt]

/-- Cutting is cutting off the first piece and cutting the rest. -/
theorem pieces_cons (hn : 0 < n) {d : List α} (hd : d ≠ []) :
    pieces n d = d.take n :: pieces n (d.drop n) := by
  have hl : 0 < d.length := List.length_pos_iff.mpr hd
  have hc : (d.length + n - 1) / n = ((d.drop n).length + n - 1) / n + 1 := by
    rw [List.length_drop, ← Nat.add_div_right _ hn]
    rcases Nat.lt_or_ge d.length n with h | h
    · have h0 : d.length - n + n - 1 + n = (n - 1) + n := by omega
      rw [h0, Nat.add_div_right _ hn, Nat.div_eq_of_lt (by omega : n - 1 < n)]
      exact Nat.div_eq_of_lt_le (by omega) (by omega)
    · congr 1; omega
  rw [pieces, hc, List.range_succ_eq_map, List.map_cons, List.map_map, Nat.zero_mul, slice_zero,
    pieces]
  congr 1
  refine List.map_congr_left fun i _ => ?_
  simp only [Function.comp_apply, slice, List.drop_drop, Nat.succ_eq_add_one]
  congr 2
  ring

/-- The full pieces, and what is left behind them. -/
theorem pieces_eq_append (hn : 0 < n) (d : List α) :
    pieces n d = ((List.range (d.length / n)).map fun i => slice d (i * n) n) ++
      if d.length % n = 0 then [] else [d.drop (d.length / n * n)] := by
  have hm := Nat.mod_lt d.length hn
  have hd := Nat.div_add_mod d.length n
  rw [pieces]
  split
  · rename_i h
    have hc : (d.length + n - 1) / n = d.length / n := by
      have he : d.length + n - 1 = n * (d.length / n) + (n - 1) := by omega
      rw [he, Nat.mul_add_div hn, Nat.div_eq_of_lt (by omega : n - 1 < n), Nat.add_zero]
    rw [hc, List.append_nil]
  · rename_i h
    have hc : (d.length + n - 1) / n = d.length / n + 1 := by
      have he : d.length + n - 1 = n * (d.length / n + 1) + (d.length % n - 1) := by
        rw [Nat.mul_add]
        omega
      rw [he, Nat.mul_add_div hn, Nat.div_eq_of_lt (by omega : d.length % n - 1 < n), Nat.add_zero]
    have hl : (d.drop (d.length / n * n)).length ≤ n := by
      rw [List.length_drop, Nat.mul_comm]
      omega
    rw [hc, List.range_succ, List.map_append, List.map_singleton, slice, List.take_of_length_le hl]

/-- A list of strings as cutting leaves it: all of length `n`, the last one not empty and at most
    that long. -/
inductive Cut (n : Nat) : List (List α) → Prop
  | nil : Cut n []
  | last (l : List α) (h0 : 0 < l.length) (hn : l.length ≤ n) : Cut n [l]
  | cons (l : List α) (L : List (List α)) (h : l.length = n) (hL : Cut n L) : Cut n (l :: L)

variable {L : List (List α)}

theorem Cut.length_le (h : Cut n L) : ∀ l ∈ L, l.length ≤ n := by
  induction h with
  | nil => simp
  | last l _ hl => simpa using hl
  | cons l L hl _ ih => exact List.forall_mem_cons.mpr ⟨hl.le, ih⟩

theorem Cut.ne_nil (hn : 0 < n) (h : Cut n L) : ∀ l ∈ L, l ≠ [] := by
  induction h with
  | nil => simp
  | last l h0 _ => simpa using List.ne_nil_of_length_pos h0
  | cons l L hl _ ih =>
    have hne : l ≠ [] := List.ne_nil_of_length_pos (hl ▸ hn)
    exact List.forall_mem_cons.mpr ⟨hne, ih⟩

theorem Cut.length_eq (h : Cut n L) {i : Nat}
    (hi : i + 1 < L.length) : (L.getD i []).length = n := by
  induction h generalizing i with
  | nil | last _ _ _ => simp at hi
  | cons l L hl _ ih =>
    cases i with
    | zero => simpa using hl
    | succ i => simpa using ih (by simpa using hi)

theorem cut_of_length_eq (h : ∀ x ∈ L, x.length = n) : Cut n L := by
  induction L with
  | nil => exact .nil
  | cons x L ih =>
    exact .cons x L (h x List.mem_cons_self) (ih fun y hy => h y (List.mem_cons_of_mem _ hy))

theorem pieces_flatten_of_cut (hn : 0 < n) (h : Cut n L) : pieces n L.flatten = L := by
  induction h with
  | nil => simp
  | last l h0 hl =>
    have hne : l ≠ [] := List.ne_nil_of_length_pos h0
    rw [List.flatten_singleton, pieces_cons hn hne, List.take_of_length_le hl,
      List.drop_of_length_le hl, pieces_nil]
  | cons l L hl hL ih =>
    have hne : (l :: L).flatten ≠ [] := by
      rw [List.flatten_cons]
      exact List.ne_nil_of_length_pos (by rw [List.length_append]; omega)
    rw [pieces_cons hn hne, List.flatten_cons, List.take_left' hl, List.drop_left' hl, ih]

theorem cut_pieces (hn : 0 < n) (d : List α) : Cut n (pieces n d) := by
  induction hl : d.length using Nat.strong_induction_on generalizing d with
  | _ k ih =>
    rcases eq_or_ne d [] with rfl | hd
    · rw [pieces_nil]; exact .nil
    · have hd0 : 0 < d.length := List.length_pos_iff.mpr hd
      rw [pieces_cons hn hd]
      rcases Nat.lt_or_ge d.length n with h | h
      · rw [List.drop_of_length_le (by omega), pieces_nil]
        exact .last _ (by rw [List.length_take]; omega) (by rw [List.length_take]; omega)
      · exact .cons _ _ (by rw [List.length_take]; omega)
          (ih _ (by rw [List.length_drop]; omega) _ rfl)

theorem flatten_length_of_eq (h : ∀ l ∈ L, l.length = n) : L.flatten.length = L.length * n := by
  induction L with
  | nil => simp
  | cons l L ih =>
    rw [List.flatten_cons, List.length_append, ih fun x hx => h x (List.mem_cons_of_mem _ hx),
      h l List.mem_cons_self, List.length_cons]
    ring

/-- The `i`th piece of a concatenation of strings of one length is the `i`th string. -/
theorem flatten_slice (h : ∀ l ∈ L, l.length = n) {i : Nat}
    {l : List α} (hi : L[i]? = some l) : slice L.flatten (i * n) n = l := by
  induction L generalizing i with
  | nil => simp at hi
  | cons x L ih =>
    have hx := h x List.mem_cons_self
    have hL : ∀ l ∈ L, l.length = n := fun y hy => h y (List.mem_cons_of_mem _ hy)
    cases i with
    | zero =>
      simp only [List.getElem?_cons_zero, Option.some.injEq] at hi
      subst hi
      rw [List.flatten_cons, Nat.zero_mul, slice_zero,
        List.take_append_of_le_length (by omega), List.take_of_length_le (by omega)]
    | succ i =>
      rw [List.getElem?_cons_succ] at hi
      have he : (i + 1) * n = i * n + n := by ring
      rw [List.flatten_cons, slice_append_right _ _ _ (by rw [hx, he]; omega), hx, he,
        Nat.add_sub_cancel]
      exact ih hL hi

end Pieces

/-! ## 3. Big-endian integers -/

def zeros (n : Nat) : Bytes := List.replicate n 0

@[simp] theorem zeros_length (n : Nat) : (zeros n).length = n := List.length_replicate

/-- The `w` low bytes of `v`, the highest first. -/
def toBe : Nat → Nat → Bytes
  | 0, _ => []
  | w + 1, v => toBe w (v / 256) ++ [UInt8.ofNat (v % 256)]

/-- The unsigned number a byte string spells, the highest byte first. -/
def ofBe (b : Bytes) : Nat := b.foldl (fun n x => n * 256 + x.toNat) 0

@[simp] theorem toBe_length (w v : Nat) : (toBe w v).length = w := by
  induction w generalizing v with
  | zero => rfl
  | succ w ih => rw [toBe, List.length_append, ih]; rfl

theorem ofBe_concat (b : Bytes) (x : UInt8) : ofBe (b ++ [x]) = ofBe b * 256 + x.toNat := by
  simp [ofBe]

theorem ofBe_toBe {w v : Nat} (h : v < 256 ^ w) : ofBe (toBe w v) = v := by
  induction w generalizing v with
  | zero => simp [ofBe, toBe] at h ⊢; omega
  | succ w ih =>
    have hv : v / 256 < 256 ^ w := Nat.div_lt_of_lt_mul (by rw [pow_succ] at h; omega)
    have hb : (UInt8.ofNat (v % 256)).toNat = v % 256 := by
      rw [UInt8.toNat_ofNat']; omega
    rw [toBe, ofBe_concat, ih hv, hb]
    omega

theorem ofBe_lt (b : Bytes) : ofBe b < 256 ^ b.length := by
  induction b using List.reverseRecOn with
  | nil => simp [ofBe]
  | append_singleton b x ih =>
    have hx := x.toNat_lt
    rw [ofBe_concat, List.length_append, List.length_singleton, pow_succ]
    omega

theorem toBe_ofBe (b : Bytes) : toBe b.length (ofBe b) = b := by
  induction b using List.reverseRecOn with
  | nil => rfl
  | append_singleton b x ih =>
    have hx := x.toNat_lt
    have hd : (ofBe b * 256 + x.toNat) / 256 = ofBe b := by omega
    have hm : (ofBe b * 256 + x.toNat) % 256 = x.toNat := by omega
    rw [ofBe_concat, List.length_append, List.length_singleton, toBe, hd, hm, ih,
      UInt8.ofNat_toNat]

theorem toBe_inj {w a b : Nat} (ha : a < 256 ^ w) (hb : b < 256 ^ w) (h : toBe w a = toBe w b) :
    a = b := by
  rw [← ofBe_toBe ha, h, ofBe_toBe hb]

end Octets

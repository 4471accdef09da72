/-
  File:      Dbs/Lib/ReedSolomon.lean
  Subject:   REED-SOLOMON CODES OVER ANY FIELD: words that vanish at consecutive powers of a point.

  A word is a list of symbols, the first one the highest coefficient.

  * `evalBe` -- the value of a word's polynomial at a point (Horner);
  * `IsCodeword α k w` -- `w` vanishes at `α^0 … α^(k-1)`;
  * `hamming` -- the number of places in which two words differ;
  * `eq_of_hamming_le` -- **the distance**: two codewords of one length (at most the order of `α`)
    that differ in at most `k` places are equal, by a polynomial that vanishes at all places but one;
  * `IsBoundedDistance` -- what a bounded-distance decoder of radius `t` promises, and that there is
    one whenever `2 * t ≤ k`;
  * `wordPoly`, `generatorPoly`; `modByMonic_eq_wordPoly` -- the word that takes a polynomial's values
    at the first powers of `α` is its remainder modulo the generator.
-/
import Mathlib.Algebra.Polynomial.Roots
import Mathlib.Data.List.GetD

namespace ReedSolomon

open Polynomial

variable {F : Type*} [Field F]

/-! ## 1. Words as polynomials -/

/-- The value at `x` of the polynomial whose coefficients the word lists, the highest first. -/
def evalBe (w : List F) (x : F) : F := w.foldl (fun a c => a * x + c) 0

@[simp] theorem evalBe_nil (x : F) : evalBe [] x = 0 := rfl

theorem evalBe_concat (w : List F) (c x : F) : evalBe (w ++ [c]) x = evalBe w x * x + c := by
  simp [evalBe]

theorem evalBe_append (v w : List F) (x : F) :
    evalBe (v ++ w) x = evalBe v x * x ^ w.length + evalBe w x := by
  induction w using List.reverseRecOn with
  | nil => simp
  | append_singleton w c ih =>
    rw [← List.append_assoc, evalBe_concat, evalBe_concat, ih, List.length_append,
      List.length_singleton, pow_succ]
    ring

theorem evalBe_cons (c : F) (w : List F) (x : F) :
    evalBe (c :: w) x = c * x ^ w.length + evalBe w x := by
  rw [← List.singleton_append, evalBe_append]
  simp [evalBe]

theorem evalBe_replicate_zero (n : Nat) (x : F) : evalBe (List.replicate n 0) x = 0 := by
  induction n with
  | zero => rfl
  | succ n ih => rw [List.replicate_succ, evalBe_cons, ih]; ring

/-- Leading zeros do not change a word's value. -/
theorem evalBe_zeros_append (n : Nat) (w : List F) (x : F) :
    evalBe (List.replicate n 0 ++ w) x = evalBe w x := by
  rw [evalBe_append, evalBe_replicate_zero, zero_mul, zero_add]

variable {v w : List F}

theorem evalBe_zipWith_add (h : v.length = w.length) (x : F) :
    evalBe (List.zipWith (· + ·) v w) x = evalBe v x + evalBe w x := by
  induction v generalizing w with
  | nil => cases w with
    | nil => simp
    | cons b w => simp at h
  | cons a v ih =>
    cases w with
    | nil => simp at h
    | cons b w =>
      have h' : v.length = w.length := by simpa using h
      rw [List.zipWith_cons_cons, evalBe_cons, evalBe_cons, evalBe_cons, ih h',
        List.length_zipWith, h', Nat.min_self]
      ring

theorem evalBe_map_mul (c : F) (w : List F) (x : F) :
    evalBe (w.map (c * ·)) x = c * evalBe w x := by
  induction w with
  | nil => simp
  | cons a w ih => rw [List.map_cons, evalBe_cons, evalBe_cons, ih, List.length_map]; ring

/-- A word's value as a sum over its places. -/
theorem evalBe_eq_sum (w : List F) (x : F) :
    evalBe w x = ∑ j ∈ Finset.range w.length, w.getD j 0 * x ^ (w.length - 1 - j) := by
  induction w using List.reverseRecOn with
  | nil => simp
  | append_singleton w c ih =>
    rw [evalBe_concat, ih, List.length_append, List.length_singleton, Finset.sum_range_succ,
      Finset.sum_mul]
    congr 1
    · refine Finset.sum_congr rfl fun j hj => ?_
      have hj' := Finset.mem_range.mp hj
      rw [List.getD_append _ _ _ _ hj', mul_assoc, ← pow_succ]
      congr 2
      omega
    · simp

/-! ## 2. The code and its distance -/

/-- The words that vanish at the first `k` powers of `α`. -/
def IsCodeword (α : F) (k : Nat) (w : List F) : Prop := ∀ i < k, evalBe w (α ^ i) = 0

/-- Weighted power sums that vanish up to `k` vanish for every polynomial of degree below `k`. -/
theorem sum_eval_eq_zero {n k : Nat} {e x : Nat → F}
    (hs : ∀ i < k, ∑ j ∈ Finset.range n, e j * x j ^ i = 0) {p : F[X]} (hp : p.natDegree < k) :
    ∑ j ∈ Finset.range n, e j * p.eval (x j) = 0 := by
  calc ∑ j ∈ Finset.range n, e j * p.eval (x j)
      = ∑ j ∈ Finset.range n, ∑ i ∈ Finset.range k, p.coeff i * (e j * x j ^ i) := by
        refine Finset.sum_congr rfl fun j _ => ?_
        rw [eval_eq_sum_range' hp, Finset.mul_sum]
        exact Finset.sum_congr rfl fun i _ => by ring
    _ = ∑ i ∈ Finset.range k, p.coeff i * ∑ j ∈ Finset.range n, e j * x j ^ i := by
        rw [Finset.sum_comm]
        exact Finset.sum_congr rfl fun i _ => (Finset.mul_sum _ _ _).symm
    _ = 0 := Finset.sum_eq_zero fun i hi => by rw [hs i (Finset.mem_range.mp hi), mul_zero]

/-- **Few places, many vanishing power sums: all weights are zero.** -/
theorem eq_zero_of_power_sums [DecidableEq F] {n k : Nat} {e x : Nat → F}
    (hx : Set.InjOn x (Finset.range n)) (hs : ∀ i < k, ∑ j ∈ Finset.range n, e j * x j ^ i = 0)
    (hw : ((Finset.range n).filter fun j => e j ≠ 0).card ≤ k) :
    ∀ j < n, e j = 0 := by
  intro t ht
  by_contra hne
  set S := (Finset.range n).filter fun j => e j ≠ 0 with hS
  have htS : t ∈ S := Finset.mem_filter.mpr ⟨Finset.mem_range.mpr ht, hne⟩
  -- the polynomial that vanishes at every place of the support but `t`
  set p : F[X] := ∏ s ∈ S.erase t, (X - C (x s)) with hp
  have hdeg : p.natDegree < k := by
    have hd : p.natDegree = (S.erase t).card := by
      rw [hp]; exact natDegree_finsetProd_X_sub_C_eq_card _ _
    rw [hd, Finset.card_erase_of_mem htS]
    have := Finset.card_pos.mpr ⟨t, htS⟩
    omega
  have hsum := sum_eval_eq_zero hs hdeg
  have hother : ∀ j ∈ Finset.range n, j ≠ t → e j * p.eval (x j) = 0 := by
    intro j hj hjt
    by_cases hj0 : e j = 0
    · rw [hj0, zero_mul]
    · have hjS : j ∈ S.erase t := Finset.mem_erase.mpr ⟨hjt, Finset.mem_filter.mpr ⟨hj, hj0⟩⟩
      rw [hp, eval_prod, Finset.prod_eq_zero hjS (by simp), mul_zero]
  rw [Finset.sum_eq_single t hother fun h => absurd (Finset.mem_range.mpr ht) h] at hsum
  rcases mul_eq_zero.mp hsum with h | h
  · exact hne h
  · rw [hp, eval_prod, Finset.prod_eq_zero_iff] at h
    obtain ⟨s, hs', h0⟩ := h
    obtain ⟨hst, hsS⟩ := Finset.mem_erase.mp hs'
    have hsn := (Finset.mem_filter.mp hsS).1
    have he : x t = x s := by simpa [sub_eq_zero] using h0
    exact hst (hx (by simpa using hsn) (by simpa using ht) he.symm)

/-- The number of places in which two words differ. -/
def hamming {β : Type*} [DecidableEq β] (v w : List β) : Nat :=
  (v.zip w).countP fun p => p.1 ≠ p.2

section Hamming

variable {β : Type*} [DecidableEq β]

theorem hamming_cons (a b : β) (v w : List β) :
    hamming (a :: v) (b :: w) = hamming v w + if a ≠ b then 1 else 0 := by
  simp [hamming, List.countP_cons]

@[simp] theorem hamming_self (w : List β) : hamming w w = 0 := by
  induction w with
  | nil => rfl
  | cons a w ih => rw [hamming_cons, ih]; simp

theorem hamming_comm (v w : List β) : hamming v w = hamming w v := by
  induction v generalizing w with
  | nil => cases w <;> simp [hamming]
  | cons a v ih =>
    cases w with
    | nil => simp [hamming]
    | cons b w => rw [hamming_cons, hamming_cons, ih]; simp [ne_comm]

/-- One changed place. -/
theorem hamming_set_le (w : List β) (k : Nat) (b : β) : hamming (w.set k b) w ≤ 1 := by
  induction w generalizing k with
  | nil => simp [hamming]
  | cons a w ih =>
    cases k with
    | zero =>
      rw [List.set_cons_zero, hamming_cons, hamming_self]
      split <;> omega
    | succ k =>
      rw [List.set_cons_succ, hamming_cons, if_neg (not_not.mpr rfl)]
      exact ih k

theorem hamming_triangle {u v w : List β} (huv : u.length = v.length) (hvw : v.length = w.length) :
    hamming u w ≤ hamming u v + hamming v w := by
  induction u generalizing v w with
  | nil => simp [hamming]
  | cons a u ih =>
    cases v with
    | nil => simp at huv
    | cons b v =>
      cases w with
      | nil => simp at hvw
      | cons c w =>
        have h := ih (by simpa using huv) (by simpa using hvw)
        have hac : a ≠ c → a ≠ b ∨ b ≠ c := fun hne => by
          by_contra! he
          exact hne (he.1.trans he.2)
        rw [hamming_cons, hamming_cons, hamming_cons]
        split
        · rename_i hne
          rcases hac hne with h1 | h1
          · rw [if_pos h1]; omega
          · rw [if_pos h1]; omega
        · omega

end Hamming

theorem card_support_sub [DecidableEq F] (h : v.length = w.length) :
    ((Finset.range v.length).filter fun j => v.getD j 0 - w.getD j 0 ≠ 0).card = hamming v w := by
  induction v generalizing w with
  | nil => simp [hamming]
  | cons a v ih =>
    cases w with
    | nil => simp at h
    | cons b w =>
      have h' : v.length = w.length := by simpa using h
      rw [hamming_cons, ← ih h', List.length_cons, Finset.card_filter, Finset.card_filter,
        Finset.sum_range_succ']
      simp [sub_eq_zero]

/-- **The distance of the code**: two codewords of one length that differ in at most `k` places are
    equal, as long as the powers of `α` below the length are pairwise different. -/
theorem eq_of_hamming_le [DecidableEq F] {α : F} {k : Nat}
    (hα : Set.InjOn (α ^ ·) (Finset.range v.length)) (hl : v.length = w.length)
    (hv : IsCodeword α k v) (hw : IsCodeword α k w) (hd : hamming v w ≤ k) : v = w := by
  set n := v.length with hn
  have hx : Set.InjOn (fun j => α ^ (n - 1 - j)) (Finset.range n) := by
    intro i hi j hj e
    have hi' := Finset.mem_range.mp hi
    have hj' := Finset.mem_range.mp hj
    have he : n - 1 - i = n - 1 - j :=
      hα (Finset.mem_coe.mpr (Finset.mem_range.mpr (by omega)))
        (Finset.mem_coe.mpr (Finset.mem_range.mpr (by omega))) e
    omega
  have hs : ∀ i < k, ∑ j ∈ Finset.range n, (v.getD j 0 - w.getD j 0) * (α ^ (n - 1 - j)) ^ i = 0 := by
    intro i hi
    have h1 := hv i hi
    have h2 := hw i hi
    rw [evalBe_eq_sum, ← hn] at h1
    rw [evalBe_eq_sum, ← hl] at h2
    calc ∑ j ∈ Finset.range n, (v.getD j 0 - w.getD j 0) * (α ^ (n - 1 - j)) ^ i
        = ∑ j ∈ Finset.range n, v.getD j 0 * (α ^ i) ^ (n - 1 - j)
          - ∑ j ∈ Finset.range n, w.getD j 0 * (α ^ i) ^ (n - 1 - j) := by
          rw [← Finset.sum_sub_distrib]
          refine Finset.sum_congr rfl fun j _ => ?_
          rw [sub_mul, ← pow_mul, ← pow_mul, Nat.mul_comm]
      _ = 0 := by rw [h1, h2, sub_zero]
  have hz := eq_zero_of_power_sums hx hs (by rw [hn, card_support_sub hl]; exact hd)
  refine List.ext_getElem hl fun j h1 h2 => ?_
  have := sub_eq_zero.mp (hz j h1)
  rwa [List.getD_eq_getElem _ _ h1, List.getD_eq_getElem _ _ h2] at this

/-! ## 3. Bounded-distance decoding -/

section Decoder

variable {β : Type*} [DecidableEq β]

/-- What a bounded-distance decoder of radius `t` for the words `C` promises: it returns the word of
    `C` within distance `t` if there is one, and fails otherwise. -/
def IsBoundedDistance (C : List β → Prop) (t : Nat) (decode : List β → Option (List β)) : Prop :=
  ∀ w c, decode w = some c ↔ C c ∧ c.length = w.length ∧ hamming w c ≤ t

/-- A code whose words of one length are equal as soon as they differ in at most `2 * t` places has
    a bounded-distance decoder of radius `t`. -/
theorem exists_boundedDistance {C : List β → Prop} {t : Nat}
    (hC : ∀ c d, C c → C d → c.length = d.length → hamming c d ≤ 2 * t → c = d) :
    ∃ decode, IsBoundedDistance C t decode := by
  classical
  let Near (w c : List β) : Prop := C c ∧ c.length = w.length ∧ hamming w c ≤ t
  have huniq : ∀ w c d, Near w c → Near w d → c = d := by
    rintro w c d ⟨hc, hcl, hcd⟩ ⟨hd, hdl, hdd⟩
    refine hC c d hc hd (hcl.trans hdl.symm) ?_
    have h3 := hamming_triangle hcl hdl.symm
    have h4 := hamming_comm c w
    omega
  refine ⟨fun w => if h : ∃ c, Near w c then some h.choose else none, fun w c => ?_⟩
  by_cases hex : ∃ c, Near w c
  · simp only [dif_pos hex, Option.some.injEq]
    exact ⟨fun e => e ▸ hex.choose_spec, fun h => huniq w _ _ hex.choose_spec h⟩
  · simp only [dif_neg hex, reduceCtorEq, false_iff]
    exact fun h => hex ⟨c, h⟩

end Decoder

/-! ## 4. Systematic words -/

/-- The polynomial whose coefficients a word lists, the highest first. -/
noncomputable def wordPoly (w : List F) : F[X] := w.foldl (fun p c => p * X + C c) 0

theorem wordPoly_concat (w : List F) (c : F) : wordPoly (w ++ [c]) = wordPoly w * X + C c := by
  simp [wordPoly]

theorem wordPoly_append (v w : List F) :
    wordPoly (v ++ w) = wordPoly v * X ^ w.length + wordPoly w := by
  induction w using List.reverseRecOn with
  | nil => simp [wordPoly]
  | append_singleton w c ih =>
    rw [← List.append_assoc, wordPoly_concat, wordPoly_concat, ih, List.length_append,
      List.length_singleton, pow_succ]
    ring

theorem wordPoly_cons (c : F) (w : List F) : wordPoly (c :: w) = C c * X ^ w.length + wordPoly w := by
  rw [← List.singleton_append, wordPoly_append]
  simp [wordPoly]

theorem eval_wordPoly (w : List F) (x : F) : (wordPoly w).eval x = evalBe w x := by
  induction w using List.reverseRecOn with
  | nil => simp [wordPoly]
  | append_singleton w c ih =>
    rw [wordPoly_concat, evalBe_concat, eval_add, eval_mul, eval_X, eval_C, ih]

theorem wordPoly_degree_lt (w : List F) : (wordPoly w).degree < w.length := by
  induction w using List.reverseRecOn with
  | nil => simp [wordPoly]
  | append_singleton w c ih =>
    rw [wordPoly_concat, List.length_append, List.length_singleton]
    refine (degree_lt_iff_coeff_zero _ _).mpr fun k hk => ?_
    have hlow := (degree_lt_iff_coeff_zero _ _).mp ih
    cases k with
    | zero => omega
    | succ k => rw [coeff_add, coeff_mul_X, coeff_C_succ, add_zero, hlow k (by omega)]

/-- The `n` lowest coefficients of a polynomial, the highest of them first. -/
noncomputable def highFirst : Nat → F[X] → List F
  | 0, _ => []
  | n + 1, p => p.coeff n :: highFirst n p

theorem highFirst_congr {n : Nat} {p q : F[X]} (h : ∀ i < n, p.coeff i = q.coeff i) :
    highFirst n p = highFirst n q := by
  induction n with
  | zero => rfl
  | succ n ih => rw [highFirst, highFirst, h n (Nat.lt_succ_self n), ih fun i hi => h i (by omega)]

/-- A word is read off its polynomial. -/
theorem highFirst_wordPoly (w : List F) : highFirst w.length (wordPoly w) = w := by
  induction w with
  | nil => rfl
  | cons c w ih =>
    have hlow := (degree_lt_iff_coeff_zero _ _).mp (wordPoly_degree_lt w)
    rw [List.length_cons, highFirst, wordPoly_cons]
    congr 1
    · rw [coeff_add, coeff_C_mul_X_pow, if_pos rfl, hlow _ le_rfl, add_zero]
    · refine (highFirst_congr fun i hi => ?_).trans ih
      rw [coeff_add, coeff_C_mul_X_pow, if_neg (by omega), zero_add]

theorem wordPoly_zipWith_add (h : v.length = w.length) :
    wordPoly (List.zipWith (· + ·) v w) = wordPoly v + wordPoly w := by
  induction v generalizing w with
  | nil =>
    rw [List.eq_nil_of_length_eq_zero h.symm]
    simp [wordPoly]
  | cons a v ih =>
    cases w with
    | nil => cases h
    | cons b w =>
      have hl : v.length = w.length := Nat.succ.inj h
      rw [List.zipWith_cons_cons, wordPoly_cons, wordPoly_cons, wordPoly_cons, ih hl,
        List.length_zipWith, hl, Nat.min_self, C_add]
      ring

theorem wordPoly_map_mul (c : F) (w : List F) : wordPoly (w.map (· * c)) = wordPoly w * C c := by
  induction w with
  | nil => simp [wordPoly]
  | cons a w ih =>
    rw [List.map_cons, wordPoly_cons, wordPoly_cons, List.length_map, ih, C_mul]
    ring

/-- The generator: the product of `X - α^i` below `k`. -/
noncomputable def generatorPoly (α : F) (k : Nat) : F[X] := ∏ i ∈ Finset.range k, (X - C (α ^ i))

theorem generatorPoly_monic (α : F) (k : Nat) : (generatorPoly α k).Monic :=
  monic_prod_X_sub_C _ _

theorem generatorPoly_degree (α : F) (k : Nat) : (generatorPoly α k).degree = k := by
  rw [generatorPoly, degree_prod, Finset.sum_congr rfl fun i _ => degree_X_sub_C (α ^ i)]
  simp

/-- What vanishes at the first powers of `α` is a multiple of the generator. -/
theorem generatorPoly_dvd {α : F} {k : Nat} (hα : Set.InjOn (α ^ ·) (Finset.range k)) {p : F[X]}
    (hp : ∀ i < k, p.eval (α ^ i) = 0) : generatorPoly α k ∣ p := by
  refine Finset.prod_dvd_of_coprime (fun i hi j hj hij => ?_) fun i hi => ?_
  · refine isCoprime_X_sub_C_of_isUnit_sub (sub_ne_zero.mpr fun h => hij (hα hi hj h)).isUnit
  · exact dvd_iff_isRoot.mpr (hp i (Finset.mem_range.mp hi))

/-- **The word that takes a polynomial's values at the first powers of `α`** is its remainder modulo the
    generator. -/
theorem modByMonic_eq_wordPoly {α : F} {k : Nat} (hα : Set.InjOn (α ^ ·) (Finset.range k)) {p : F[X]}
    {w : List F} (hl : w.length = k) (hw : ∀ i < k, evalBe w (α ^ i) = p.eval (α ^ i)) :
    p %ₘ generatorPoly α k = wordPoly w := by
  have hdvd : generatorPoly α k ∣ p - wordPoly w := generatorPoly_dvd hα fun i hi => by
    rw [eval_sub, eval_wordPoly, hw i hi, sub_self]
  rw [modByMonic_eq_of_dvd_sub (generatorPoly_monic α k) hdvd,
    (modByMonic_eq_self_iff (generatorPoly_monic α k)).mpr]
  rw [generatorPoly_degree, ← hl]
  exact wordPoly_degree_lt w

end ReedSolomon

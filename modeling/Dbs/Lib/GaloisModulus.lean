/-
  File:      Dbs/Lib/GaloisModulus.lean
  Subject:   THE TABLES' PRODUCT IS THE PRODUCT OF POLYNOMIALS over GF(2), modulo 0x11D.

  * `bitsPoly` -- a number's bits as coefficients; XOR is their sum, doubling multiplies by X;
  * `dvd_double` -- so doubling an element is multiplying by X modulo 0x11D;
  * `poly_mul` -- and the product by logarithms is the remainder of the product.
-/
import Dbs.Lib.Galois
import Mathlib.Algebra.Polynomial.Div
import Mathlib.Algebra.Field.ZMod
import Mathlib.Tactic.ComputeDegree

namespace Galois

open Polynomial

/-- The polynomial over GF(2) whose coefficients are the low nine bits of a number. -/
noncomputable def bitsPoly (n : Nat) : (ZMod 2)[X] :=
  ∑ i ∈ Finset.range 9, if n.testBit i then X ^ i else 0

theorem coeff_bitsPoly (n k : Nat) :
    (bitsPoly n).coeff k = if k < 9 ∧ n.testBit k = true then 1 else 0 := by
  have hterm : ∀ i, (if n.testBit i then X ^ i else (0 : (ZMod 2)[X])).coeff k =
      if i = k then (if n.testBit k then 1 else 0) else 0 := by
    intro i
    rcases eq_or_ne i k with rfl | h
    · rw [if_pos rfl]
      split
      · rw [coeff_X_pow_self]
      · rw [coeff_zero]
    · rw [if_neg h]
      split
      · rw [coeff_X_pow, if_neg h.symm]
      · rw [coeff_zero]
  rw [bitsPoly, finsetSum_coeff, Finset.sum_congr rfl fun i _ => hterm i, Finset.sum_ite_eq']
  simp only [Finset.mem_range]
  split <;> split <;> simp_all

theorem bitsPoly_xor (m n : Nat) : bitsPoly (m ^^^ n) = bitsPoly m + bitsPoly n := by
  ext k
  simp only [coeff_add, coeff_bitsPoly, Nat.testBit_xor]
  by_cases hk : k < 9
  · cases m.testBit k <;> cases n.testBit k <;> simp [hk]
    decide
  · simp [hk]

/-- Shifting the bits multiplies by X. -/
theorem bitsPoly_double {n : Nat} (h : n < 256) : bitsPoly (2 * n) = X * bitsPoly n := by
  ext k
  cases k with
  | zero => simp [coeff_bitsPoly]
  | succ k =>
    have hhigh : 8 ≤ k → n.testBit k = false := fun hk =>
      Nat.testBit_lt_two_pow (lt_of_lt_of_le h (Nat.pow_le_pow_right (by decide : 0 < 2) hk))
    rw [coeff_X_mul, coeff_bitsPoly, coeff_bitsPoly, Nat.testBit_succ,
      Nat.mul_div_cancel_left n (by decide : 0 < 2)]
    rcases Nat.lt_or_ge k 8 with hk | hk
    · have h9 : k < 9 := by omega
      have h9' : k + 1 < 9 := by omega
      simp only [h9, h9', true_and]
    · simp [hhigh hk]

/-- The modulus of the field. -/
noncomputable def modulus : (ZMod 2)[X] := bitsPoly 0x11D

theorem modulus_eq : modulus = X ^ 8 + (X ^ 4 + X ^ 3 + X ^ 2 + 1) := by
  have hbit : ∀ i < 9, (0x11D : Nat).testBit i = decide (i ∈ [0, 2, 3, 4, 8]) := by decide
  simp only [modulus, bitsPoly, Finset.sum_range_succ, Finset.sum_range_zero]
  simp only [hbit 0 (by decide), hbit 1 (by decide), hbit 2 (by decide), hbit 3 (by decide),
    hbit 4 (by decide), hbit 5 (by decide), hbit 6 (by decide), hbit 7 (by decide), hbit 8 (by decide)]
  simp
  ring

theorem degree_low : (X ^ 4 + X ^ 3 + X ^ 2 + 1 : (ZMod 2)[X]).degree < 8 := by
  refine lt_of_le_of_lt (b := ((4 : ℕ) : WithBot ℕ)) ?_ (by decide)
  compute_degree
  exact le_rfl

theorem modulus_monic : modulus.Monic := by
  rw [modulus_eq]
  exact monic_X_pow_add degree_low

theorem modulus_degree : modulus.degree = 8 := by
  rw [modulus_eq, degree_add_eq_left_of_degree_lt]
  · exact degree_X_pow 8
  · rw [degree_X_pow]
    exact degree_low

namespace GF256

/-- The polynomial an element stands for. -/
noncomputable def poly (a : GF256) : (ZMod 2)[X] := bitsPoly a.bits.toNat

theorem poly_degree_lt (a : GF256) : a.poly.degree < 8 := by
  refine (degree_lt_iff_coeff_zero _ 8).mpr fun k hk => ?_
  have hbit : a.bits.toNat.testBit k = false :=
    Nat.testBit_lt_two_pow (lt_of_lt_of_le a.bits.isLt (Nat.pow_le_pow_right (by decide) hk))
  rw [poly, coeff_bitsPoly, if_neg (by simp [hbit])]

theorem poly_one : poly 1 = 1 := by
  ext k
  rw [poly, coeff_bitsPoly, coeff_one]
  show (if k < 9 ∧ Nat.testBit 1 k = true then (1 : ZMod 2) else 0) = _
  cases k with
  | zero => simp
  | succ k => simp [Nat.testBit_succ]

theorem double_bits (a : GF256) : (double a).bits.toNat =
    2 * a.bits.toNat ^^^ if a.bits.msb then 0x11D else 0 := by
  have hall : ∀ i : Fin (2 ^ 8), (double ⟨BitVec.ofFin i⟩).bits.toNat =
      2 * (BitVec.ofFin i).toNat ^^^ if (BitVec.ofFin i).msb then 0x11D else 0 := by decide +kernel
  exact hall a.bits.toFin

/-- **Doubling is multiplying by X** modulo 0x11D. -/
theorem dvd_double (a : GF256) : modulus ∣ (double a).poly - X * a.poly := by
  rw [poly, double_bits, bitsPoly_xor, bitsPoly_double a.bits.isLt, poly, add_sub_cancel_left]
  split
  · exact dvd_rfl
  · have hzero : bitsPoly 0 = 0 := by
      ext k
      simp [coeff_bitsPoly]
    rw [hzero]
    exact dvd_zero _

theorem dvd_double_iterate (k : Nat) (a : GF256) : modulus ∣ (double^[k] a).poly - X ^ k * a.poly := by
  induction k with
  | zero => simp
  | succ k ih =>
    rw [Function.iterate_succ_apply']
    have hstep := dvd_double (double^[k] a)
    have hsum : (double (double^[k] a)).poly - X ^ (k + 1) * a.poly =
        ((double (double^[k] a)).poly - X * (double^[k] a).poly) +
          X * ((double^[k] a).poly - X ^ k * a.poly) := by ring
    rw [hsum]
    exact dvd_add hstep (Dvd.dvd.mul_left ih X)

/-- **The product by logarithms is the product of polynomials** modulo 0x11D. -/
theorem poly_mul (a b : GF256) : (a * b).poly = (a.poly * b.poly) %ₘ modulus := by
  have hdvd : modulus ∣ a.poly * b.poly - (a * b).poly := by
    by_cases ha : a = 0
    · subst ha
      have hzero : (0 : GF256).poly = 0 := by
        ext k
        show (bitsPoly 0).coeff k = _
        simp [coeff_bitsPoly]
      rw [zero_mul, hzero, zero_mul, sub_zero]
      exact dvd_zero _
    · obtain ⟨k, -, rfl⟩ := exists_exp ha
      have hb := dvd_double_iterate k b
      have h1 := dvd_double_iterate k 1
      rw [poly_one, mul_one] at h1
      rw [double_iterate_mul]
      have hsum : (exp k).poly * b.poly - (double^[k] b).poly =
          ((double^[k] 1).poly - X ^ k) * b.poly - ((double^[k] b).poly - X ^ k * b.poly) := by
        rw [exp]
        ring
      rw [hsum]
      exact dvd_sub (Dvd.dvd.mul_right h1 _) hb
  rw [modByMonic_eq_of_dvd_sub modulus_monic hdvd, (modByMonic_eq_self_iff modulus_monic).mpr]
  rw [modulus_degree]
  exact poly_degree_lt _

end GF256

end Galois

/-
  File:      Dbs/Lib/Galois.lean
  Subject:   THE FIELD GF(256) BY TABLES: polynomials over GF(2) modulo x^8 + x^4 + x^3 + x^2 + 1,
             multiplied through the powers of x.

  * `double` -- multiplication by x; `exp k` -- the `k`th power of x; `log` -- the first exponent;
  * `double_iterate_mul` -- multiplying by `exp k` is doubling `k` times, so it is additive: the
    one fact the field laws rest on;
  * the instance `Field GF256`, and `exp_inj` -- the 255 powers are pairwise different.
-/
import Mathlib.Algebra.Field.Basic
import Mathlib.Algebra.CharP.Two
import Mathlib.Data.List.Iterate
import Mathlib.Dynamics.PeriodicPts.Defs
import Mathlib.NumberTheory.Divisors

namespace Galois

/-- A field element: the bits of a byte are the coefficients of a polynomial over GF(2). -/
@[ext] structure GF256 where
  bits : BitVec 8
deriving DecidableEq

namespace GF256

instance : Zero GF256 := ⟨⟨0⟩⟩
instance : One GF256 := ⟨⟨1⟩⟩
instance : Add GF256 := ⟨fun a b => ⟨a.bits ^^^ b.bits⟩⟩

@[simp] theorem bits_zero : (0 : GF256).bits = 0 := rfl
@[simp] theorem bits_one : (1 : GF256).bits = 1 := rfl
@[simp] theorem bits_add (a b : GF256) : (a + b).bits = a.bits ^^^ b.bits := rfl

/-- Multiplication by x, reduced by 0x11D. -/
def double (a : GF256) : GF256 :=
  ⟨if a.bits.msb then (a.bits <<< 1) ^^^ 0x1D#8 else a.bits <<< 1⟩

/-- The powers of x. -/
def exp (k : Nat) : GF256 := double^[k] 1

/-- The powers of x up to the order of the group, in order. -/
def powers : List GF256 := List.iterate double 1 255

/-- The first exponent of `a`; 0 where there is none. -/
def log (a : GF256) : Nat := if powers.idxOf a < 255 then powers.idxOf a else 0

/-! ## 1. Doubling is additive -/

theorem double_add (a b : GF256) : double (a + b) = double a + double b := by
  ext1
  simp only [double, bits_add, BitVec.msb_xor, BitVec.shiftLeft_xor_distrib]
  cases a.bits.msb <;> cases b.bits.msb <;> simp <;> ext <;> simp <;> grind

theorem double_zero : double 0 = 0 := by decide

theorem double_iterate_add (k : Nat) (a b : GF256) :
    double^[k] (a + b) = double^[k] a + double^[k] b := by
  induction k generalizing a b with
  | zero => rfl
  | succ k ih => rw [Function.iterate_succ_apply, double_add, ih]; rfl

theorem double_iterate_zero (k : Nat) : double^[k] 0 = 0 := by
  induction k with
  | zero => rfl
  | succ k ih => rw [Function.iterate_succ_apply, double_zero, ih]

/-! ## 2. Powers and logarithms -/

theorem exp_add (i j : Nat) : exp (i + j) = double^[i] (exp j) := by
  rw [exp, exp, Function.iterate_add_apply]

theorem powers_getElem? {k : Nat} (h : k < 255) : powers[k]? = some (exp k) := by
  rw [powers, List.getElem?_iterate _ _ _ _ h]
  rfl

theorem exp_255 : exp 255 = 1 := by decide +kernel

theorem double_period : Function.minimalPeriod double 1 = 255 := by
  have hd : Function.minimalPeriod double 1 ∣ 255 :=
    Function.IsPeriodicPt.minimalPeriod_dvd exp_255
  -- a proper divisor of 255 = 3 * 5 * 17 divides one of the three maximal ones
  have hp : ∀ m, m ∣ 255 → m ≠ 255 → m ∣ 85 ∨ m ∣ 51 ∨ m ∣ 15 := by
    intro m hm
    have hmem : m ∈ Nat.divisors 255 := Nat.mem_divisors.mpr ⟨hm, by decide⟩
    revert hmem
    generalize hD : Nat.divisors 255 = D
    have : D = {1, 3, 5, 15, 17, 51, 85, 255} := by rw [← hD]; decide +kernel
    subst this
    simp only [Finset.mem_insert, Finset.mem_singleton]
    rintro (rfl | rfl | rfl | rfl | rfl | rfl | rfl | rfl) <;> decide
  have hne : ∀ n, double^[n] 1 ≠ 1 → ¬ Function.minimalPeriod double 1 ∣ n := fun n hn h =>
    hn (Function.isPeriodicPt_iff_minimalPeriod_dvd.mpr h)
  by_contra h
  rcases hp _ hd h with h | h | h
  · exact hne 85 (by decide +kernel) h
  · exact hne 51 (by decide +kernel) h
  · exact hne 15 (by decide +kernel) h

/-- The powers of x below the order of the group are pairwise different. -/
theorem exp_inj {i j : Nat} (hi : i < 255) (hj : j < 255) (h : exp i = exp j) : i = j :=
  Function.iterate_injOn_Iio_minimalPeriod (f := double) (x := 1)
    (by simpa [double_period] using hi) (by simpa [double_period] using hj) h

theorem exp_ne_zero (k : Nat) : exp k ≠ 0 := by
  intro h
  -- doubling zero stays zero, but 255 more doublings of `exp k` come back to a power of 1
  have h1 : ∀ n, exp (255 * n) = 1 := fun n => by
    induction n with
    | zero => rfl
    | succ n ih => rw [Nat.mul_succ, exp_add, exp_255]; exact ih
  have h2 : exp (255 * k - k + k) = 0 := by rw [exp_add, h, double_iterate_zero]
  rw [Nat.sub_add_cancel (by omega), h1] at h2
  exact absurd h2 (by decide)

def bitsEquiv : GF256 ≃ Fin 256 where
  toFun a := a.bits.toFin
  invFun i := ⟨⟨i⟩⟩
  left_inv _ := rfl
  right_inv _ := rfl

instance : Fintype GF256 := Fintype.ofEquiv _ bitsEquiv.symm

/-- Every element but zero is a power of x: there are as many powers as elements left. -/
theorem exists_exp {a : GF256} (h : a ≠ 0) : ∃ k < 255, exp k = a := by
  have hinj : Set.InjOn exp (Finset.range 255) := fun i hi j hj e =>
    exp_inj (Finset.mem_range.mp hi) (Finset.mem_range.mp hj) e
  have hsub : (Finset.range 255).image exp ⊆ Finset.univ.erase 0 := fun x hx => by
    obtain ⟨k, -, rfl⟩ := Finset.mem_image.mp hx
    exact Finset.mem_erase.mpr ⟨exp_ne_zero k, Finset.mem_univ _⟩
  have hcard : (Finset.univ.erase (0 : GF256)).card ≤ ((Finset.range 255).image exp).card := by
    rw [Finset.card_image_of_injOn hinj, Finset.card_erase_of_mem (Finset.mem_univ _),
      Finset.card_univ, Fintype.card_congr bitsEquiv]
    simp
  have hmem : a ∈ (Finset.range 255).image exp := by
    rw [Finset.eq_of_subset_of_card_le hsub hcard]
    exact Finset.mem_erase.mpr ⟨h, Finset.mem_univ _⟩
  obtain ⟨k, hk, e⟩ := Finset.mem_image.mp hmem
  exact ⟨k, Finset.mem_range.mp hk, e⟩

theorem powers_length : powers.length = 255 := List.length_iterate _ _ _

theorem exp_log {a : GF256} (h : a ≠ 0) : exp (log a) = a := by
  obtain ⟨k, hk, e⟩ := exists_exp h
  have hm : a ∈ powers := e ▸ List.mem_of_getElem? (powers_getElem? hk)
  have hl : powers.idxOf a < 255 := powers_length ▸ List.idxOf_lt_length_of_mem hm
  have hg := powers_getElem? hl
  rw [List.getElem?_idxOf hm, Option.some.injEq] at hg
  rw [log, if_pos hl, ← hg]

theorem log_lt (a : GF256) : log a < 255 := by
  unfold log
  split <;> omega

/-! ## 3. The field -/

instance : Mul GF256 := ⟨fun a b => if a = 0 ∨ b = 0 then 0 else exp (log a + log b)⟩
instance : Neg GF256 := ⟨fun a => a⟩
instance : Inv GF256 := ⟨fun a => if a = 0 then 0 else exp (255 - log a)⟩

theorem mul_def (a b : GF256) : a * b = if a = 0 ∨ b = 0 then 0 else exp (log a + log b) := rfl

theorem inv_def (a : GF256) : a⁻¹ = if a = 0 then 0 else exp (255 - log a) := rfl

/-- **Multiplying by the `k`th power is doubling `k` times.** -/
theorem double_iterate_mul (k : Nat) (b : GF256) : exp k * b = double^[k] b := by
  by_cases hb : b = 0
  · rw [mul_def, if_pos (Or.inr hb), hb, double_iterate_zero]
  · have hk : ¬ (exp k = 0 ∨ b = 0) := by simp [exp_ne_zero, hb]
    calc exp k * b = exp (log (exp k) + log b) := by rw [mul_def, if_neg hk]
      _ = double^[log b] (exp (log (exp k))) := by rw [Nat.add_comm, exp_add]
      _ = exp (k + log b) := by rw [exp_log (exp_ne_zero k), Nat.add_comm k, exp_add]
      _ = double^[k] b := by rw [exp_add, exp_log hb]

theorem exp_mul_exp (i j : Nat) : exp i * exp j = exp (i + j) := by
  rw [double_iterate_mul, exp_add]

theorem zero_mul' (b : GF256) : 0 * b = 0 := by rw [mul_def, if_pos (Or.inl rfl)]

theorem mul_comm' (a b : GF256) : a * b = b * a := by
  rw [mul_def, mul_def, Nat.add_comm]
  simp only [or_comm]

theorem mul_add' (a b c : GF256) : a * (b + c) = a * b + a * c := by
  by_cases ha : a = 0
  · subst ha; simp only [zero_mul']; rfl
  · rw [← exp_log ha]
    simp only [double_iterate_mul, double_iterate_add]

theorem mul_assoc' (a b c : GF256) : a * b * c = a * (b * c) := by
  by_cases ha : a = 0
  · subst ha; simp only [zero_mul']
  by_cases hb : b = 0
  · subst hb; rw [mul_comm' a, zero_mul', zero_mul', mul_comm', zero_mul']
  rw [← exp_log ha, ← exp_log hb, exp_mul_exp, double_iterate_mul, double_iterate_mul,
    double_iterate_mul, Function.iterate_add_apply]

theorem add_self' (a : GF256) : a + a = 0 := by ext1; simp

instance : Field GF256 where
  add_assoc a b c := by ext1; simp [BitVec.xor_assoc]
  zero_add a := by ext1; simp
  add_zero a := by ext1; simp
  add_comm a b := by ext1; simp [BitVec.xor_comm]
  neg_add_cancel a := add_self' a
  nsmul := nsmulRec
  zsmul := zsmulRec
  mul_assoc := mul_assoc'
  mul_comm := mul_comm'
  zero_mul := zero_mul'
  mul_zero a := by rw [mul_comm', zero_mul']
  one_mul a := double_iterate_mul 0 a
  mul_one a := by rw [mul_comm']; exact double_iterate_mul 0 a
  left_distrib := mul_add'
  right_distrib a b c := by rw [mul_comm', mul_add', mul_comm' c a, mul_comm' c b]
  exists_pair_ne := ⟨0, 1, by decide⟩
  mul_inv_cancel a ha := by
    have hi : a⁻¹ = exp (255 - log a) := by rw [inv_def, if_neg ha]
    have hs : log a + (255 - log a) = 255 := by have := log_lt a; omega
    calc a * a⁻¹ = exp (log a) * exp (255 - log a) := by rw [hi, exp_log ha]
      _ = 1 := by rw [exp_mul_exp, hs, exp_255]
  inv_zero := rfl
  nnqsmul := _
  qsmul := _

theorem add_self (a : GF256) : a + a = 0 := add_self' a

theorem add_eq_zero_iff {a b : GF256} : a + b = 0 ↔ a = b := by
  constructor
  · intro h
    calc a = a + (a + b) := by rw [h, add_zero]
      _ = b := by rw [← add_assoc, add_self, zero_add]
  · rintro rfl
    exact add_self a

theorem exp_pow (k n : Nat) : exp k ^ n = exp (k * n) := by
  induction n with
  | zero => rfl
  | succ n ih => rw [pow_succ, ih, exp_mul_exp, Nat.mul_succ]

end GF256

end Galois

import Mathlib

/-!
# Bits as polynomials over `ZMod 2`

The low `w` bits of a number as the coefficients of a polynomial: exclusive or is the sum, doubling is the product with
`X`, and in the quotient by a monic polynomial of degree `w` a number of `w` bits is determined by its class.
-/

namespace BinaryPoly
open Polynomial

/-- The polynomial with the low `w` bits of `v` as its coefficients. -/
noncomputable def bits (w v : Nat) : (ZMod 2)[X] := ∑ i ∈ Finset.range w, if v.testBit i then X ^ i else 0

theorem coeff_bits (w v n : Nat) : (bits w v).coeff n = if n < w ∧ v.testBit n then 1 else 0 := by
  have hterm : ∀ i, (if v.testBit i then X ^ i else (0 : (ZMod 2)[X])).coeff n =
      if n = i then (if v.testBit n then 1 else 0) else 0 := by
    intro i
    by_cases hi : n = i
    · subst hi
      by_cases hb : v.testBit n <;> simp [hb]
    · by_cases hb : v.testBit i <;> simp [hb, hi, coeff_X_pow]
  rw [bits, finsetSum_coeff, Finset.sum_congr rfl fun i _ => hterm i, Finset.sum_ite_eq]
  by_cases hn : n < w <;> simp [hn]

theorem bits_succ (w v : Nat) : bits (w + 1) v = bits w v + if v.testBit w then X ^ w else 0 :=
  Finset.sum_range_succ _ _

theorem bits_xor (w x y : Nat) : bits w (x ^^^ y) = bits w x + bits w y := by
  ext n
  rw [coeff_add, coeff_bits, coeff_bits, coeff_bits, Nat.testBit_xor]
  by_cases hn : n < w
  · cases x.testBit n <;> cases y.testBit n <;> simp [hn]
    decide
  · simp [hn]

theorem bits_mod (w v : Nat) : bits w (v % 2 ^ w) = bits w v := by
  ext n
  rw [coeff_bits, coeff_bits, Nat.testBit_mod_two_pow]
  by_cases hn : n < w <;> simp [hn]

theorem bits_double (w v : Nat) : bits (w + 1) (2 * v) = X * bits w v := by
  ext n
  cases n with
  | zero => simp [coeff_bits, Nat.testBit_zero]
  | succ n => simp [coeff_bits, coeff_X_mul, Nat.testBit_succ]

theorem degree_bits_lt (w v : Nat) : (bits w v).degree < w := by
  rw [degree_lt_iff_coeff_zero]
  intro n hn
  rw [coeff_bits, if_neg fun h => absurd h.1 (Nat.not_lt.mpr hn)]

theorem bits_inj {w x y : Nat} (hx : x < 2 ^ w) (hy : y < 2 ^ w) (h : bits w x = bits w y) : x = y := by
  apply Nat.eq_of_testBit_eq
  intro n
  rcases Nat.lt_or_ge n w with hn | hn
  · have hcoeff := congrArg (fun p => coeff p n) h
    simp only [coeff_bits, hn, true_and] at hcoeff
    cases hbx : x.testBit n <;> cases hby : y.testBit n <;> simp [hbx, hby] at hcoeff ⊢
  · have hpow : 2 ^ w ≤ 2 ^ n := Nat.pow_le_pow_right (by decide) hn
    rw [Nat.testBit_lt_two_pow (hx.trans_le hpow), Nat.testBit_lt_two_pow (hy.trans_le hpow)]

/-- A number of `w` bits is determined by its class modulo a polynomial of degree `w`. -/
theorem mk_bits_inj {p : (ZMod 2)[X]} (hp : p.Monic) {w x y : Nat} (hdeg : p.natDegree = w) (hx : x < 2 ^ w)
    (hy : y < 2 ^ w) (h : AdjoinRoot.mk p (bits w x) = AdjoinRoot.mk p (bits w y)) : x = y := by
  have hlt : ∀ v, (bits w v).degree < p.degree := by
    intro v
    rw [degree_eq_natDegree hp.ne_zero, hdeg]
    exact degree_bits_lt w v
  have hmod := congrArg (AdjoinRoot.modByMonicHom hp) h
  rw [AdjoinRoot.modByMonicHom_mk, AdjoinRoot.modByMonicHom_mk, (modByMonic_eq_self_iff hp).mpr (hlt x),
    (modByMonic_eq_self_iff hp).mpr (hlt y)] at hmod
  exact bits_inj hx hy hmod

/-- Doubling a number of `w` bits, and adding `c` when the highest bit falls out, is the product with the class of `X`
modulo `X ^ w + c`. -/
theorem mk_bits_double {p : (ZMod 2)[X]} {w c v : Nat} (hp : p = X ^ (w + 1) + bits (w + 1) c) (hv : v < 2 ^ (w + 1)) :
    AdjoinRoot.mk p (bits (w + 1) (2 * v % 2 ^ (w + 1) ^^^ if 2 ^ w ≤ v then c else 0)) =
      AdjoinRoot.root p * AdjoinRoot.mk p (bits (w + 1) v) := by
  have htop : (2 * v).testBit (w + 1) = decide (2 ^ w ≤ v) := by
    rw [Nat.testBit_succ, show 2 * v / 2 = v by omega, Nat.testBit_eq_decide_div_mod_eq]
    rw [Nat.pow_succ] at hv
    have hdiv : v / 2 ^ w < 2 := Nat.div_lt_of_lt_mul (by omega)
    have hle : 1 ≤ v / 2 ^ w ↔ 2 ^ w ≤ v := by rw [Nat.le_div_iff_mul_le (Nat.two_pow_pos w), Nat.one_mul]
    rw [decide_eq_decide, ← hle]
    generalize v / 2 ^ w = q at hdiv
    omega
  have hreduce : AdjoinRoot.mk p (bits (w + 1) c) = AdjoinRoot.mk p (X ^ (w + 1)) := by
    have hsum : X ^ (w + 1) = p + bits (w + 1) c := by rw [hp, add_assoc, CharTwo.add_self_eq_zero, add_zero]
    rw [hsum, map_add, AdjoinRoot.mk_self, zero_add]
  have hdouble := bits_double (w + 1) v
  rw [bits_succ, htop] at hdouble
  rw [bits_xor, bits_mod, ← AdjoinRoot.mk_X, ← map_mul, ← hdouble, map_add, map_add]
  by_cases h : 2 ^ w ≤ v
  · simp only [h, if_true, decide_true, hreduce]
  · simp [h, bits]

end BinaryPoly

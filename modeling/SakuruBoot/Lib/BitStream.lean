import Mathlib.Data.List.Basic
import Mathlib.Data.Nat.Bitwise

/-!
# Numbers as streams of bits

The low bits of a number, the highest first. A wide number is the stream of its parts, so a stream can be cut into
digits of another width; the digits are determined by it up to less than one digit at the end (`digits_of_stream`).
-/

namespace BitStream

/-- The `n` low bits of `v`. -/
def bits : Nat → Nat → List Bool
  | 0, _ => []
  | n + 1, v => v.testBit n :: bits n v

@[simp] theorem length_bits (n v : Nat) : (bits n v).length = n := by
  induction n with
  | zero => rfl
  | succ n ih => rw [bits, List.length_cons, ih]

theorem bits_congr {n v w : Nat} (h : ∀ i < n, v.testBit i = w.testBit i) : bits n v = bits n w := by
  induction n with
  | zero => rfl
  | succ n ih => rw [bits, bits, h n (Nat.lt_succ_self n), ih fun i hi => h i (Nat.lt_succ_of_lt hi)]

theorem bits_mod {n m : Nat} (h : n ≤ m) (v : Nat) : bits n (v % 2 ^ m) = bits n v := by
  apply bits_congr
  intro i hi
  rw [Nat.testBit_mod_two_pow, decide_eq_true (Nat.lt_of_lt_of_le hi h), Bool.true_and]

theorem bits_split (m n v : Nat) : bits (m + n) v = bits m (v / 2 ^ n) ++ bits n v := by
  induction m with
  | zero => rw [Nat.zero_add, bits, List.nil_append]
  | succ m ih => rw [Nat.succ_add, bits, bits, ih, Nat.testBit_div_two_pow, List.cons_append]

theorem bits_append {m n a b : Nat} (hb : b < 2 ^ n) : bits m a ++ bits n b = bits (m + n) (a * 2 ^ n + b) := by
  have hhigh : (a * 2 ^ n + b) / 2 ^ n = a := by
    rw [Nat.mul_comm, Nat.mul_add_div (Nat.two_pow_pos n), Nat.div_eq_of_lt hb, Nat.add_zero]
  have hlow : bits n (a * 2 ^ n + b) = bits n b := by
    rw [← bits_mod (le_refl n), Nat.mul_comm, Nat.mul_add_mod, Nat.mod_eq_of_lt hb]
  rw [bits_split, hhigh, hlow]

theorem bits_append_append {m n a b : Nat} (hb : b < 2 ^ n) (rest : List Bool) :
    bits m a ++ (bits n b ++ rest) = bits (m + n) (a * 2 ^ n + b) ++ rest := by
  rw [← List.append_assoc, bits_append hb]

theorem bits_inj {n v w : Nat} (hv : v < 2 ^ n) (hw : w < 2 ^ n) (h : bits n v = bits n w) : v = w := by
  have htest : ∀ m ≤ n, bits m v = bits m w → ∀ i < m, v.testBit i = w.testBit i := by
    intro m
    induction m with
    | zero => exact fun _ _ i hi => absurd hi (Nat.not_lt_zero i)
    | succ m ih =>
      intro hm heq i hi
      rw [bits, bits, List.cons.injEq] at heq
      rcases Nat.lt_succ_iff_lt_or_eq.mp hi with hlt | rfl
      · exact ih (Nat.le_of_succ_le hm) heq.2 i hlt
      · exact heq.1
  apply Nat.eq_of_testBit_eq
  intro i
  rcases Nat.lt_or_ge i n with hlt | hge
  · exact htest n (le_refl n) h i hlt
  · have hpow : 2 ^ n ≤ 2 ^ i := Nat.pow_le_pow_right (by decide) hge
    rw [Nat.testBit_lt_two_pow (hv.trans_le hpow), Nat.testBit_lt_two_pow (hw.trans_le hpow)]

theorem length_stream (k : Nat) (l : List Nat) : (l.flatMap (bits k)).length = k * l.length := by
  induction l with
  | nil => rfl
  | cons x l ih => rw [List.flatMap_cons, List.length_append, length_bits, ih, List.length_cons, Nat.mul_succ, Nat.add_comm]

/-- A stream determines its digits, and how many there are, when less than a digit follows them. -/
theorem digits_of_stream {k : Nat} {xs ys : List Nat} (hxs : ∀ x ∈ xs, x < 2 ^ k) (hys : ∀ y ∈ ys, y < 2 ^ k)
    {r s : List Bool} (hr : r.length < k) (hs : s.length < k)
    (h : xs.flatMap (bits k) ++ r = ys.flatMap (bits k) ++ s) : xs = ys := by
  have hcount := congrArg List.length h
  rw [List.length_append, List.length_append, length_stream, length_stream] at hcount
  induction xs generalizing ys with
  | nil =>
    cases ys with
    | nil => rfl
    | cons y ys =>
      rw [List.length_cons, List.length_nil, Nat.mul_succ] at hcount
      omega
  | cons x xs ih =>
    cases ys with
    | nil =>
      rw [List.length_cons, List.length_nil, Nat.mul_succ] at hcount
      omega
    | cons y ys =>
      rw [List.flatMap_cons, List.flatMap_cons, List.append_assoc, List.append_assoc] at h
      obtain ⟨hfirst, hrest⟩ := List.append_inj h ((length_bits k x).trans (length_bits k y).symm)
      rw [List.length_cons, List.length_cons, Nat.mul_succ, Nat.mul_succ] at hcount
      rw [bits_inj (hxs x List.mem_cons_self) (hys y List.mem_cons_self) hfirst,
        ih (fun x hx => hxs x (List.mem_cons_of_mem _ hx)) (fun y hy => hys y (List.mem_cons_of_mem _ hy)) hrest (by omega)]

end BitStream

import Mathlib.Data.Nat.Basic
import Mathlib.Tactic.Ring

/-!
# Loops over blocks with a counter of fixed width

`for (; i + B <= len; i += B)` with a counter of `w` bits and a body that may fail. While the sum does not wrap, the
loop runs over the whole blocks of the `len` positions (`countedLoop_run`). Where it wraps, the check lets the loop go
on, and the body is run on a block that does not fit (`countedLoop_wraps`).
-/

namespace CountedLoop

variable {σ : Type} (w B len : Nat) (body : Nat → σ → Option σ)

/-- The loop, with the position where it stops and the state there; `none` when the body fails. -/
def countedLoop : Nat → Nat → σ → Option (Nat × σ)
  | 0, _, _ => none
  | fuel + 1, i, s =>
    if (i + B) % 2 ^ w ≤ len then (body i s).bind (countedLoop fuel ((i + B) % 2 ^ w)) else some (i, s)

variable {w B len body}

theorem countedLoop_succ {i : Nat} {s t : σ} (hle : i + B ≤ len) (hlen : len < 2 ^ w) (hbody : body i s = some t)
    (fuel : Nat) : countedLoop w B len body (fuel + 1) i s = countedLoop w B len body fuel (i + B) t := by
  have hmod : (i + B) % 2 ^ w = i + B := Nat.mod_eq_of_lt (by omega)
  rw [countedLoop, hmod, if_pos hle, hbody, Option.bind_some]

theorem countedLoop_mono {fuel fuel' i : Nat} {s : σ} {r : Nat × σ} (h : countedLoop w B len body fuel i s = some r)
    (hle : fuel ≤ fuel') : countedLoop w B len body fuel' i s = some r := by
  induction fuel generalizing fuel' i s with
  | zero => cases h
  | succ fuel ih =>
    obtain ⟨fuel', rfl⟩ : ∃ n, fuel' = n + 1 := ⟨fuel' - 1, by omega⟩
    rw [countedLoop] at h ⊢
    split_ifs at h ⊢ with hmore
    · obtain ⟨t, ht, hrest⟩ := Option.bind_eq_some_iff.mp h
      rw [ht, Option.bind_some]
      exact ih hrest (Nat.le_of_succ_le_succ hle)
    · exact h

/-- `n` blocks fit, and the counter holds the position behind them and one more block. -/
theorem countedLoop_run {n : Nat} (st : Nat → σ) {i : Nat} (hbody : ∀ k < n, body (i + k * B) (st k) = some (st (k + 1)))
    (hin : i + n * B ≤ len) (hout : len < i + (n + 1) * B) (hwrap : i + (n + 1) * B < 2 ^ w) :
    countedLoop w B len body (n + 1) i (st 0) = some (i + n * B, st n) := by
  induction n generalizing i st with
  | zero =>
    rw [Nat.zero_add, Nat.one_mul] at hout hwrap
    rw [countedLoop, Nat.mod_eq_of_lt hwrap, if_neg (Nat.not_le.mpr hout), Nat.zero_mul, Nat.add_zero]
  | succ n ih =>
    have hfirst : body i (st 0) = some (st 1) := by simpa using hbody 0 (Nat.succ_pos n)
    have hshift : ∀ k, i + (k + 1) * B = i + B + k * B := fun k => by ring
    have hrest := ih (fun k => st (k + 1)) (i := i + B)
      (fun k hk => by simpa only [hshift] using hbody (k + 1) (Nat.succ_lt_succ hk))
      (by rwa [← hshift]) (by rwa [← hshift]) (by rwa [← hshift])
    have hle : i + B ≤ len := by
      rw [hshift] at hin
      omega
    rw [countedLoop_succ hle (by omega) hfirst, hrest, hshift]

/-- Where the counter wraps behind `n` blocks the body is run once more; when it fails there, the loop does. -/
theorem countedLoop_wraps {n : Nat} (st : Nat → σ) {i : Nat}
    (hbody : ∀ k < n, body (i + k * B) (st k) = some (st (k + 1))) (hin : i + n * B ≤ len) (hlen : len < 2 ^ w)
    (hB : B ≤ 2 ^ w) (hwrap : 2 ^ w ≤ i + (n + 1) * B) (hfails : body (i + n * B) (st n) = none) (fuel : Nat) :
    countedLoop w B len body fuel i (st 0) = none := by
  induction n generalizing i st fuel with
  | zero =>
    cases fuel with
    | zero => rfl
    | succ fuel =>
      rw [Nat.zero_add, Nat.one_mul] at hwrap
      rw [Nat.zero_mul, Nat.add_zero] at hfails hin
      have hmod : (i + B) % 2 ^ w = i + B - 2 ^ w := by
        rw [Nat.mod_eq_sub_mod hwrap, Nat.mod_eq_of_lt (by omega)]
      rw [countedLoop, hmod, if_pos (by omega), hfails, Option.bind_none]
  | succ n ih =>
    cases fuel with
    | zero => rfl
    | succ fuel =>
      have hfirst : body i (st 0) = some (st 1) := by simpa using hbody 0 (Nat.succ_pos n)
      have hshift : ∀ k, i + (k + 1) * B = i + B + k * B := fun k => by ring
      have hle : i + B ≤ len := by
        rw [hshift] at hin
        omega
      rw [countedLoop_succ hle hlen hfirst]
      apply ih (fun k => st (k + 1)) (i := i + B)
      · intro k hk
        simpa only [hshift] using hbody (k + 1) (Nat.succ_lt_succ hk)
      · rwa [← hshift]
      · rwa [← hshift]
      · rwa [← hshift]

end CountedLoop

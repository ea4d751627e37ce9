import SakuruBoot.Crypto.Argon2Rfc

/-!
# `H_prime` on its output buffer

The function of `crypto/argon2.c` with its two 32-bit counters, driven by the bytes that remain. For every length it
ends and writes the variable-length hash of RFC 9106 and no byte more (`hPrime_writes`).
-/

namespace SakuruBoot
open CStr (Byte u32)
open Bytes

/-- `while (remaining > 64)` and the last block, at `out[written]`. -/
def hPrimeLoopRun : Nat → List Byte → List Byte → Nat → Nat → Option (List Byte)
  | 0, _, _, _, _ => none
  | fuel + 1, out, prev, written, remaining =>
    if 64 < remaining then
      let a := blake2b prev [] 64
      hPrimeLoopRun fuel (patch out written (a.take 32)) a (u32 (written + 32)) (u32 (remaining + 2 ^ 32 - 32))
    else some (patch out written (blake2b prev [] remaining))

/-- `H_prime`: the output buffer behind it. -/
def hPrimeRun (fuel : Nat) (input out : List Byte) (outLen : Nat) : Option (List Byte) :=
  let first := fun n => blake2bFinal (blake2bUpdate (blake2bUpdate (blake2bInit n []) (le 4 outLen)) input)
  if outLen ≤ 64 then some (patch out 0 (first outLen))
  else
    let a := first 64
    hPrimeLoopRun fuel (patch out 0 (a.take 32)) a 32 (outLen - 32)

theorem length_blake2b (prev : List Byte) {n : Nat} (hn : n ≤ 64) : (blake2b prev [] n).length = n := by
  rw [blake2b_rfc]
  exact length_hash hn prev

theorem hPrimeLoopRun_last {fuel : Nat} (hfuel : 0 < fuel) (done rest prev : List Byte) {remaining : Nat}
    (hshort : remaining ≤ 64) : hPrimeLoopRun fuel (done ++ rest) prev done.length remaining =
      some (done ++ blake2b prev [] remaining ++ rest.drop remaining) := by
  obtain ⟨fuel, rfl⟩ : ∃ f, fuel = f + 1 := ⟨fuel - 1, by omega⟩
  rw [hPrimeLoopRun, if_neg (Nat.not_lt.mpr hshort), patch_at_end, length_blake2b prev hshort]

/-- Every round but the last appends 32 bytes to what is done. -/
theorem hPrimeLoopRun_eq {n fuel : Nat} {done rest prev : List Byte} {remaining : Nat} (hn : remaining ≤ 64 + 32 * n)
    (hfuel : n < fuel) (hlen : done.length + remaining < 2 ^ 32) :
    hPrimeLoopRun fuel (done ++ rest) prev done.length remaining =
      some (done ++ hPrimeLoop n prev remaining ++ rest.drop remaining) := by
  induction n generalizing fuel done rest prev remaining with
  | zero => exact hPrimeLoopRun_last hfuel done rest prev (by omega)
  | succ n ih =>
    unfold hPrimeLoop
    split_ifs with hmore
    · obtain ⟨fuel, rfl⟩ : ∃ f, fuel = f + 1 := ⟨fuel - 1, by omega⟩
      have hlen64 : (blake2b prev [] 64).length = 64 := length_blake2b prev (le_refl 64)
      rw [hPrimeLoopRun, if_pos hmore]
      dsimp only
      generalize blake2b prev [] 64 = a at hlen64 ⊢
      have hhalf : (a.take 32).length = 32 := by
        rw [List.length_take, hlen64]
        decide
      have hdone : (done ++ a.take 32).length = done.length + 32 := by rw [List.length_append, hhalf]
      have hwritten : u32 (done.length + 32) = (done ++ a.take 32).length := by
        rw [hdone]
        exact Nat.mod_eq_of_lt (by omega)
      have hremaining : u32 (remaining + 2 ^ 32 - 32) = remaining - 32 := by
        unfold u32
        omega
      have hdrop : (rest.drop 32).drop (remaining - 32) = rest.drop remaining := by
        rw [List.drop_drop, Nat.add_sub_cancel' (by omega)]
      rw [patch_at_end, hhalf, hwritten, hremaining, ih (by omega) (by omega) (by omega), hdrop, List.append_assoc done]
    · exact hPrimeLoopRun_last (by omega) done rest prev (by omega)

/-- For every input and every length, which is a `u32`. -/
theorem hPrime_writes (input out : List Byte) {outLen : Nat} (hlen : outLen < 2 ^ 32) :
    (∃ n, ∀ fuel ≥ n, hPrimeRun fuel input out outLen = some (Rfc9106.hashVar outLen input ++ out.drop outLen)) ∧
      (Rfc9106.hashVar outLen input).length = outLen := by
  rw [← hPrime_rfc]
  unfold hPrimeRun hPrime
  simp only [hPrime_first]
  by_cases hshort : outLen ≤ 64
  · have hhash := length_hash hshort (le 4 outLen ++ input)
    rw [if_pos hshort]
    refine ⟨⟨0, fun fuel _ => ?_⟩, hhash⟩
    rw [if_pos hshort, patch_zero, hhash]
  · have hhash := length_hash (le_refl 64) (le 4 outLen ++ input)
    rw [if_neg hshort]
    generalize Rfc9106.hash 64 (le 4 outLen ++ input) = a at hhash ⊢
    have hhalf : (a.take 32).length = 32 := by
      rw [List.length_take, hhash]
      decide
    refine ⟨⟨outLen + 1, fun fuel hfuel => ?_⟩, ?_⟩
    · have hloop := @hPrimeLoopRun_eq outLen fuel (a.take 32) (out.drop 32) a (outLen - 32) (by omega) (by omega) (by omega)
      rw [hhalf, List.drop_drop, Nat.add_sub_cancel' (by omega)] at hloop
      rw [if_neg hshort, patch_zero, hhalf, hloop]
    · rw [List.length_append, hhalf, length_hPrimeLoop _ _ (by omega), Nat.add_sub_cancel' (by omega)]

/-- Three hashes for 100 bytes. -/
theorem hPrime_writes_hundred : 100 < 2 ^ 32 ∧
    ∃ n, ∀ fuel ≥ n, hPrimeRun fuel [0x61] (List.replicate 128 0) 100 =
      some (Rfc9106.hashVar 100 [0x61] ++ (List.replicate 128 0).drop 100) :=
  ⟨by decide, (hPrime_writes [0x61] (List.replicate 128 0) (by decide)).1⟩

end SakuruBoot

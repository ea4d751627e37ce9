import SakuruBoot.Crypto.CipherRun
import SakuruBoot.Lib.BinaryPoly

/-!
# XTS over GF(2^128)

A block is an element of the quotient of `(ZMod 2)[X]` by the polynomial of the standard, its bits the coefficients from
the lowest bit of the first byte on. `gf128_mul_x_le` multiplies by the class of `X` (`toGf_gf128MulX`), so the tweak of
block `j` is the first one times its `j`-th power. `xts_right_iff`: on every data unit of whole blocks but the longest
one the code computes XTS-AES and undoes it.
-/

namespace SakuruBoot
open CStr (Byte)
open Bytes BinaryPoly Polynomial

/-- The polynomial of the standard. -/
noncomputable def xtsModulus : (ZMod 2)[X] := X ^ 128 + X ^ 7 + X ^ 2 + X + 1

abbrev Gf128 : Type := AdjoinRoot xtsModulus

noncomputable def alpha : Gf128 := AdjoinRoot.root xtsModulus

noncomputable def Block.toGf (b : Block) : Gf128 := AdjoinRoot.mk xtsModulus (bits 128 (leVal b.toList))

theorem xtsModulus_monic : xtsModulus.Monic := by
  unfold xtsModulus
  monicity!

theorem natDegree_xtsModulus : xtsModulus.natDegree = 128 := by
  unfold xtsModulus
  compute_degree!

theorem Block.toGf_inj {a b : Block} (h : a.toGf = b.toGf) : a = b := by
  have hlt : ∀ c : Block, leVal c.toList < 2 ^ 128 := by
    intro c
    have h := leVal_lt c.toList
    rwa [length_toList_block] at h
  exact Block.toList_inj (mk_bits_inj xtsModulus_monic natDegree_xtsModulus (hlt a) (hlt b) h)

/-! ## The tweak -/

/-- The shift doubles the number, and the carry is its highest bit. -/
theorem gf128Shift_spec (ts : List Byte) {c : Byte} (hc : c.toNat ≤ 1) :
    (gf128Shift ts c).1.length = ts.length ∧ (gf128Shift ts c).2.toNat ≤ 1 ∧
      leVal (gf128Shift ts c).1 + 256 ^ ts.length * (gf128Shift ts c).2.toNat = 2 * leVal ts + c.toNat := by
  induction ts generalizing c with
  | nil => exact ⟨rfl, hc, by simp [gf128Shift, leVal]⟩
  | cons t ts ih =>
    have hcarry : ((t >>> 7) &&& 1).toNat = t.toNat / 128 := by
      revert t
      exact forall_byte (by decide +kernel)
    have hshift : ((t <<< 1) ||| c).toNat = 2 * t.toNat % 256 + c.toNat := by
      have hbit : c = 0 ∨ c = 1 := by
        rcases Nat.le_one_iff_eq_zero_or_eq_one.mp hc with h | h
        · exact .inl (UInt8.toNat_inj.mp h)
        · exact .inr (UInt8.toNat_inj.mp h)
      rcases hbit with rfl | rfl
      · revert t
        exact forall_byte (by decide +kernel)
      · revert t
        exact forall_byte (by decide +kernel)
    have ht : t.toNat < 256 := t.toNat_lt
    obtain ⟨hlen, hle, hval⟩ := ih (c := (t >>> 7) &&& 1) (by omega)
    rw [hcarry] at hval
    refine ⟨congrArg (· + 1) hlen, hle, ?_⟩
    simp only [gf128Shift, leVal, hshift, List.length_cons, Nat.pow_succ']
    rw [Nat.mul_assoc]
    omega

theorem leVal_gf128MulX (t : Block) : leVal (gf128MulX t).toList =
    2 * leVal t.toList % 2 ^ 128 ^^^ if 2 ^ 127 ≤ leVal t.toList then 0x87 else 0 := by
  obtain ⟨hlen, hle, hval⟩ := gf128Shift_spec t.toList (c := 0) (by decide)
  have hlt := leVal_lt (gf128Shift t.toList 0).1
  rw [length_toList_block] at hlen hval
  rw [hlen] at hlt
  unfold gf128MulX
  generalize gf128Shift t.toList 0 = r at hlen hle hval hlt ⊢
  obtain ⟨ts, c⟩ := r
  cases ts with
  | nil => cases hlen
  | cons t0 ts =>
    have hval' : leVal (t0 :: ts) + 2 ^ 128 * c.toNat = 2 * leVal t.toList := hval
    have hlt' : leVal (t0 :: ts) < 2 ^ 128 := hlt
    have hbytes : ∀ x : Byte, (Block.ofBytes (x :: ts)).toList = x :: ts := by
      intro x
      rw [toList_ofBytes (by simpa using hlen.ge), List.take_of_length_le (by simpa using hlen.le)]
    have hxor : leVal ((t0 ^^^ 0x87) :: ts) = leVal (t0 :: ts) ^^^ 0x87 := by
      have h := Words.xor_add_mul (n := 8) (a := t0.toNat) (b := 0x87) t0.toNat_lt (by decide) (leVal ts) 0
      rw [Nat.mul_zero, Nat.add_zero, Nat.xor_zero] at h
      exact h.symm
    dsimp only
    rw [hbytes]
    have hc : c = 0 ∨ c = 1 := by
      rcases Nat.le_one_iff_eq_zero_or_eq_one.mp hle with h | h
      · exact .inl (UInt8.toNat_inj.mp h)
      · exact .inr (UInt8.toNat_inj.mp h)
    rcases hc with rfl | rfl
    · have hsmall : leVal (t0 :: ts) = 2 * leVal t.toList := hval'
      rw [if_neg (by decide), if_neg (by omega), Nat.xor_zero]
      omega
    · have hlarge : leVal (t0 :: ts) + 2 ^ 128 = 2 * leVal t.toList := hval'
      rw [if_pos (by decide), if_pos (by omega), hxor]
      congr 1
      omega

/-- `gf128_mul_x_le` is the product with `alpha`. -/
theorem toGf_gf128MulX (t : Block) : (gf128MulX t).toGf = alpha * t.toGf := by
  have hv : leVal t.toList < 2 ^ 128 := by
    have h := leVal_lt t.toList
    rwa [length_toList_block] at h
  -- the overflow of the double is the class of `X ^ 128`
  have hdouble : bits 128 (2 * leVal t.toList) + (if 2 ^ 127 ≤ leVal t.toList then X ^ 128 else 0) =
      X * bits 128 (leVal t.toList) := by
    have htop : (2 * leVal t.toList).testBit 128 = decide (2 ^ 127 ≤ leVal t.toList) := by
      rw [Nat.testBit_eq_decide_div_mod_eq]
      by_cases h : 2 ^ 127 ≤ leVal t.toList
      · rw [decide_eq_true h, decide_eq_true_iff]
        omega
      · rw [decide_eq_false h, decide_eq_false_iff_not]
        omega
    rw [← bits_double, bits_succ 128, htop]
    simp only [decide_eq_true_iff]
  have hpoly : bits 128 0x87 = X ^ 7 + X ^ 2 + X + 1 := by
    ext n
    simp only [coeff_bits, coeff_add, coeff_X_pow, coeff_X, coeff_one]
    by_cases hn : n < 8
    · interval_cases n <;> decide
    · have hpow : 2 ^ 8 ≤ 2 ^ n := Nat.pow_le_pow_right (by decide) (by omega)
      have hbit : Nat.testBit 0x87 n = false := Nat.testBit_lt_two_pow (by omega)
      simp [hbit, show n ≠ 7 by omega, show n ≠ 2 by omega, show 1 ≠ n by omega, show n ≠ 0 by omega]
  have hreduce : AdjoinRoot.mk xtsModulus (bits 128 0x87) = AdjoinRoot.mk xtsModulus (X ^ 128) := by
    have htop : X ^ 128 = xtsModulus + bits 128 0x87 := by
      unfold xtsModulus
      rw [hpoly]
      generalize (X : (ZMod 2)[X]) ^ 128 = y
      rw [add_assoc y, add_assoc y, add_assoc y, add_assoc y, CharTwo.add_self_eq_zero, add_zero]
    rw [htop, map_add, AdjoinRoot.mk_self, zero_add]
  have hmk : alpha * t.toGf = AdjoinRoot.mk xtsModulus (X * bits 128 (leVal t.toList)) := by
    rw [map_mul, AdjoinRoot.mk_X]
    rfl
  have hbits : bits 128 (leVal (gf128MulX t).toList) = bits 128 (2 * leVal t.toList) +
      bits 128 (if 2 ^ 127 ≤ leVal t.toList then 0x87 else 0) := by
    rw [leVal_gf128MulX, bits_xor, bits_mod]
  have hoverflow : AdjoinRoot.mk xtsModulus (bits 128 (if 2 ^ 127 ≤ leVal t.toList then 0x87 else 0)) =
      AdjoinRoot.mk xtsModulus (if 2 ^ 127 ≤ leVal t.toList then X ^ 128 else 0) := by
    by_cases h : 2 ^ 127 ≤ leVal t.toList
    · rw [if_pos h, if_pos h, hreduce]
    · rw [if_neg h, if_neg h]
      simp [bits]
  calc (gf128MulX t).toGf = AdjoinRoot.mk xtsModulus (bits 128 (2 * leVal t.toList)) +
        AdjoinRoot.mk xtsModulus (bits 128 (if 2 ^ 127 ≤ leVal t.toList then 0x87 else 0)) := by
        rw [Block.toGf, hbits, map_add]
    _ = AdjoinRoot.mk xtsModulus (bits 128 (2 * leVal t.toList) + if 2 ^ 127 ≤ leVal t.toList then X ^ 128 else 0) := by
        rw [hoverflow, map_add]
    _ = alpha * t.toGf := by rw [hdouble, hmk]

/-- The tweak of block `k`. -/
theorem toGf_carried (ctx : XtsCtx) (decrypt : Bool) (t : Block) (data : List Byte) (k : Nat) :
    ((xtsChain ctx decrypt).carried t data k).toGf = t.toGf * alpha ^ k := by
  induction k with
  | zero => rw [pow_zero, mul_one]; rfl
  | succ k ih => rw [BlockMode.carried, xtsChain, toGf_gf128MulX, ← xtsChain, ih, pow_succ]; ring

/-! ## Data units -/

/-- A block of XTS-AES: the block cipher between two additions of the tweak, the first tweak times a power of `alpha`. -/
def XtsBlock (aes : Block → Block) (first : Block) (j : Nat) (x y : Block) : Prop :=
  ∃ tweak : Block, tweak.toGf = first.toGf * alpha ^ j ∧ y = xorBlock (aes (xorBlock x tweak)) tweak

/-- The sector number under the second half of the key. -/
def firstTweak (key : List Byte) (sector : Nat) : Block :=
  aesEncryptBlock (aesInitEnc (key.drop (key.length / 2)) (key.length / 2)) (Block.ofBytes (le 8 sector))

/-- The block cipher under the first half of the key. -/
def dataCipher (key : List Byte) (decrypt : Bool) : Block → Block :=
  if decrypt then aesDecryptBlock (aesInitDec key (key.length / 2)) else aesEncryptBlock (aesInitEnc key (key.length / 2))

section
variable (key : List Byte) (sector : Nat) (data : List Byte)

/-- The call on these buffers ends, and every block of the output is the one of XTS-AES. -/
def XtsComputes (decrypt : Bool) (bufs : CryptBufs) : Prop :=
  ∃ fuel bufs', xtsCryptRun fuel (xtsInit key key.length decrypt) sector bufs data.length decrypt = some bufs' ∧
    bufs'.output.length = data.length ∧ ∀ j < data.length / 16,
      XtsBlock (dataCipher key decrypt) (firstTweak key sector) j (blockNo data j) (blockNo bufs'.output j)

/-- Decrypting what the encryption left gives the data. -/
def XtsReturns (bufs : CryptBufs) : Prop :=
  ∃ fuel bufs', xtsCryptRun fuel (xtsInit key key.length false) sector bufs data.length false = some bufs' ∧
    ∀ back : CryptBufs, back.input = bufs'.output → back.output.length = data.length →
      ∃ fuel back', xtsCryptRun fuel (xtsInit key key.length true) sector back data.length true = some back' ∧
        back'.output = data

/-- In one buffer and in two, `xts_crypt` computes XTS-AES, and the decryption undoes the encryption. -/
def XtsRight : Prop :=
  ∀ bufs : CryptBufs, bufs.input = data → bufs.output.length = data.length →
    (∀ decrypt, XtsComputes key sector data decrypt bufs) ∧ XtsReturns key sector data bufs

variable {key sector data}

theorem blocks_lt_iff (hblocks : 16 ∣ data.length) (hlen : data.length < 2 ^ 32) :
    16 * (data.length / 16 + 1) < 2 ^ 32 ↔ data.length ≠ 2 ^ 32 - 16 := by
  omega

theorem xtsComputes_of_lt (hwrap : 16 * (data.length / 16 + 1) < 2 ^ 32) (hblocks : 16 ∣ data.length)
    {bufs : CryptBufs} (hin : bufs.input = data) (hout : bufs.output.length = data.length) (decrypt : Bool) :
    XtsComputes key sector data decrypt bufs := by
  have hwhole : 16 * (data.length / 16) = data.length := Nat.mul_div_cancel' hblocks
  have hrun : xtsCryptRun _ (xtsInit key key.length decrypt) sector bufs data.length decrypt = some _ :=
    xtsCryptRun_eq (by rw [hin]; exact hwhole.le) (by omega) _ sector decrypt hwrap
  have hwritten : xtsCrypt (xtsInit key key.length decrypt) sector bufs.input data.length decrypt =
      (xtsChain (xtsInit key key.length decrypt) decrypt).written (firstTweak key sector) data (data.length / 16) := by
    rw [xtsCrypt, xtsBlocks_eq, hin]
    rfl
  have hlength : (xtsCrypt (xtsInit key key.length decrypt) sector bufs.input data.length decrypt).length =
      data.length := by
    rw [hwritten, BlockMode.length_written, hwhole]
  refine ⟨_, _, hrun, ?_, fun j hj => ?_⟩
  · rw [CryptBufs.output_after, List.length_append, List.length_drop, hlength, hout, Nat.sub_self, Nat.add_zero]
  · refine ⟨(xtsChain (xtsInit key key.length decrypt) decrypt).carried (firstTweak key sector) data j,
      toGf_carried _ _ _ _ j, ?_⟩
    rw [CryptBufs.output_after, List.drop_of_length_le (by rw [hlength, hout]), List.append_nil, hwritten,
      BlockMode.blockNo_written _ _ _ hj]
    cases decrypt <;> rfl

theorem xtsReturns_of_lt (hwrap : 16 * (data.length / 16 + 1) < 2 ^ 32) (hblocks : 16 ∣ data.length)
    {bufs : CryptBufs} (hin : bufs.input = data) (hout : bufs.output.length = data.length) :
    XtsReturns key sector data bufs := by
  have hwhole : 16 * (data.length / 16) = data.length := Nat.mul_div_cancel' hblocks
  have hrun : xtsCryptRun _ (xtsInit key key.length false) sector bufs data.length false = some _ :=
    xtsCryptRun_eq (by rw [hin]; exact hwhole.le) (by omega) _ sector false hwrap
  have hlength : ∀ ctx input decrypt, (xtsCrypt ctx sector input data.length decrypt).length = data.length := by
    intro ctx input decrypt
    rw [xtsCrypt, length_xtsBlocks, hwhole]
  refine ⟨_, _, hrun, fun back hback hsize => ?_⟩
  rw [CryptBufs.output_after, List.drop_of_length_le (by rw [hlength, hout]), List.append_nil, hin] at hback
  have hsecond : xtsCryptRun _ (xtsInit key key.length true) sector back data.length true = some _ :=
    xtsCryptRun_eq (by rw [hback, hlength]; exact hwhole.le) (by omega) _ sector true hwrap
  refine ⟨_, _, hsecond, ?_⟩
  have hback' : xtsBlocks (xtsInit key key.length true) true (data.length / 16) (firstTweak key sector)
      (xtsBlocks (xtsInit key key.length false) false (data.length / 16) (firstTweak key sector) data ++ []) =
        data.take (16 * (data.length / 16)) :=
    xtsBlocks_undo false rfl (aesInitEnc_nr_pos _ _) _ _ hwhole.le []
  rw [List.append_nil, hwhole, List.take_length] at hback'
  rw [CryptBufs.output_after, List.drop_of_length_le (by rw [hlength, hsize]), List.append_nil, hback]
  exact hback'

theorem not_xtsRight (hlen : data.length < 2 ^ 32) (hwrap : 2 ^ 32 ≤ 16 * (data.length / 16 + 1)) :
    ¬ XtsRight key sector data := by
  intro hright
  obtain ⟨fuel, bufs', hrun, -⟩ := (hright (.same data) rfl rfl).1 false
  have hnone : xtsCryptRun fuel (xtsInit key key.length false) sector (.same data) data.length false = none :=
    @xtsCryptRun_wraps (.same data) data.length (Nat.mul_div_le _ _) (Nat.mul_div_le _ _) _ _ _ hlen rfl hwrap fuel
  rw [hnone] at hrun
  cases hrun

/-- On whole blocks `xts_crypt` is right on every data unit but the one of `2 ^ 32 - 16` bytes, where the check
of the loop wraps. -/
theorem xts_right_iff (hblocks : 16 ∣ data.length) (hlen : data.length < 2 ^ 32) :
    XtsRight key sector data ↔ data.length ≠ 2 ^ 32 - 16 := by
  rw [← blocks_lt_iff hblocks hlen]
  constructor
  · intro hright
    by_contra hwrap
    exact not_xtsRight hlen (Nat.not_lt.mp hwrap) hright
  · intro hwrap bufs hin hout
    exact ⟨fun decrypt => xtsComputes_of_lt hwrap hblocks hin hout decrypt, xtsReturns_of_lt hwrap hblocks hin hout⟩

end

/-- Two blocks under a key of 32 bytes. -/
theorem xts_right_two : XtsRight (List.replicate 32 7) 5 (List.replicate 32 1) :=
  (xts_right_iff (by decide) (by decide)).mpr (by decide)

/-- The longest data unit a 32-bit length can hold. -/
theorem xts_longest_wraps : ¬ XtsRight (List.replicate 32 0) 0 (List.replicate (2 ^ 32 - 16) 0) :=
  not_xtsRight (by rw [List.length_replicate]; decide) (by rw [List.length_replicate]; decide)

end SakuruBoot

import SakuruBoot.Crypto.Aes
import SakuruBoot.Crypto.Fips197

/-!
# The code's AES is that of FIPS 197

`gmul` is the product of the field (`mul_eq`), the two tables are the S-box and its inverse (`sbox_eq`, `invSbox_eq`), and
the steps on 16 bytes are those on the state of the standard. With the schedule words read as bytes, encryption and
decryption under a key of 16 or 32 bytes are `Cipher` and `InvCipher` (`aes_fips197`).
-/

namespace SakuruBoot
open CStr (Byte)
open Bytes BinaryPoly Polynomial
open Fips197 (element byteOf)

/-! ## The field -/

theorem fipsModulus_eq : Fips197.modulus = X ^ 8 + bits 8 0x1b := by
  have hbits : bits 8 0x1b = X ^ 4 + X ^ 3 + X + 1 := by
    ext n
    simp only [coeff_bits, coeff_add, coeff_X_pow, coeff_X, coeff_one]
    by_cases hn : n < 5
    · interval_cases n <;> decide
    · have hpow : 2 ^ 5 ≤ 2 ^ n := Nat.pow_le_pow_right (by decide) (by omega)
      have hbit : Nat.testBit 0x1b n = false := Nat.testBit_lt_two_pow (by omega)
      simp [hbit, show n ≠ 4 by omega, show n ≠ 3 by omega, show 1 ≠ n by omega, show n ≠ 0 by omega]
  rw [hbits, Fips197.modulus]
  ring

theorem fipsModulus_monic : Fips197.modulus.Monic := by
  unfold Fips197.modulus
  monicity!

theorem natDegree_fipsModulus : Fips197.modulus.natDegree = 8 := by
  unfold Fips197.modulus
  compute_degree!

theorem element_injective : Function.Injective element := fun a b h =>
  UInt8.toNat_inj.mp (mk_bits_inj fipsModulus_monic natDegree_fipsModulus a.toNat_lt b.toNat_lt h)

@[simp] theorem byteOf_element (b : Byte) : byteOf (element b) = b := Function.leftInverse_invFun element_injective b

@[simp] theorem element_zero : element 0 = 0 := by simp [element, bits]

theorem element_xor (a b : Byte) : element (a ^^^ b) = element a + element b := by
  rw [element, UInt8.toNat_xor, bits_xor, map_add]
  rfl

theorem element_one : element 1 = 1 := by
  have hbits : bits 8 1 = 1 := by
    ext n
    rw [coeff_bits, coeff_one]
    by_cases hn : n = 0
    · subst hn
      decide
    · have hbit : Nat.testBit 1 n = false :=
        Nat.testBit_lt_two_pow (Nat.one_lt_two_pow hn)
      simp [hbit, hn]
  rw [element, show (1 : Byte).toNat = 1 from rfl, hbits, map_one]

theorem element_xtime (b : Byte) : element (xtime b) = AdjoinRoot.root Fips197.modulus * element b := by
  have hval : (xtime b).toNat = 2 * b.toNat % 2 ^ 8 ^^^ if 2 ^ 7 ≤ b.toNat then 0x1b else 0 :=
    forall_byte (P := fun b => (xtime b).toNat = 2 * b.toNat % 2 ^ 8 ^^^ if 2 ^ 7 ≤ b.toNat then 0x1b else 0)
      (by decide +kernel) b
  rw [element, hval]
  exact mk_bits_double fipsModulus_eq b.toNat_lt

/-- The loop multiplies by the bits it has not looked at. -/
theorem element_gmulLoop (n : Nat) (p b : Byte) (hb : b.toNat < 2 ^ n) :
    element (gmulLoop n 0 p b) = element p * element b := by
  induction n generalizing p b with
  | zero =>
    have hzero : b = 0 := UInt8.toNat_inj.mp (by simpa using hb)
    rw [hzero, gmulLoop, element_zero, mul_zero]
  | succ n ih =>
    have hhalf : (b >>> 1).toNat = b.toNat / 2 :=
      forall_byte (P := fun b => (b >>> 1).toNat = b.toNat / 2) (by decide +kernel) b
    have hshift : (b >>> 1).toNat < 2 ^ n := by
      rw [hhalf]
      omega
    -- a byte is twice its upper bits and the lowest one
    have hsplit : b = xtime (b >>> 1) ^^^ (b &&& 1) :=
      forall_byte (P := fun b => b = xtime (b >>> 1) ^^^ (b &&& 1)) (by decide +kernel) b
    have hterm : element (gmulTerm p b) = element p * element (b &&& 1) := by
      rcases and_one_cases b with h | h
      · rw [gmulTerm, h, if_neg (by decide), element_zero, mul_zero]
      · rw [gmulTerm, h, if_pos (by decide), element_one, mul_one]
    calc element (gmulLoop (n + 1) 0 p b) = element p * element (b &&& 1) + element (xtime p) * element (b >>> 1) := by
          rw [gmulLoop_succ, element_xor, hterm, ih _ _ hshift]
      _ = element p * (element (xtime (b >>> 1)) + element (b &&& 1)) := by
          rw [element_xtime, element_xtime]
          ring
      _ = element p * element b := by rw [← element_xor, ← hsplit]

theorem element_gmul (a b : Byte) : element (gmul a b) = element a * element b := element_gmulLoop 8 a b b.toNat_lt

/-- `gmul` is the product of the field. -/
theorem mul_eq (a b : Byte) : Fips197.mul a b = gmul a b := by rw [Fips197.mul, ← element_gmul, byteOf_element]

/-! ## The S-boxes -/

/-- The inverse of the affine map. -/
def unaffineBit (b : Byte) (i : Nat) : Bool :=
  (b.toNat.testBit ((i + 2) % 8) ^^ b.toNat.testBit ((i + 5) % 8)) ^^
    (b.toNat.testBit ((i + 7) % 8) ^^ Nat.testBit 0x05 i)

def unaffine (b : Byte) : Byte := (((List.range 8).map fun i => if unaffineBit b i then 2 ^ i else 0).sum).toUInt8

/-- `y` is the affine image of the inverse of `b`. -/
def IsSboxEntry (b y : Byte) : Prop :=
  Fips197.affine (unaffine y) = y ∧ (b = 0 ∧ unaffine y = 0 ∨ gmul b (unaffine y) = 1)

instance (b y : Byte) : Decidable (IsSboxEntry b y) := inferInstanceAs (Decidable (_ ∧ _))

theorem isSboxEntry_table : ∀ p ∈ (List.range 256).zip sbox, IsSboxEntry p.1.toUInt8 p.2 := by decide +kernel

theorem isSboxEntry_sbox (b : Byte) : IsSboxEntry b (sbox.getD b.toNat 0) := by
  have hlen : sbox.length = 256 := by decide +kernel
  have hb : b.toNat < sbox.length := hlen ▸ b.toNat_lt
  have hmem : (b.toNat, sbox[b.toNat]) ∈ (List.range 256).zip sbox :=
    List.mem_iff_getElem.mpr ⟨b.toNat, by simp [hlen, b.toNat_lt], by simp⟩
  have h := isSboxEntry_table _ hmem
  rwa [show b.toNat.toUInt8 = b from UInt8.ofNat_toNat, ← List.getD_eq_getElem sbox 0 hb] at h

theorem inv_eq_of_gmul {a b : Byte} (h : gmul a b = 1) : Fips197.inv a = b := by
  have hmul : element a * element b = 1 := by rw [← element_gmul, h, element_one]
  have hunit : Ring.inverse (element a) = element b :=
    Ring.inverse_unit ⟨element a, element b, hmul, by rw [mul_comm, hmul]⟩
  rw [Fips197.inv, hunit, byteOf_element]

theorem sbox_eq (b : Byte) : Fips197.sbox b = sbox.getD b.toNat 0 := by
  obtain ⟨haffine, ⟨rfl, hzero⟩ | hinv⟩ := isSboxEntry_sbox b
  · rw [Fips197.sbox, Fips197.inv, element_zero, Ring.inverse_zero, ← element_zero, byteOf_element, ← haffine, hzero]
  · rw [Fips197.sbox, inv_eq_of_gmul hinv, haffine]

theorem sbox_injective : Function.Injective Fips197.sbox := fun x y h => by
  rw [sbox_eq, sbox_eq] at h
  rw [← rsbox_sbox x, ← rsbox_sbox y, h]

theorem invSbox_eq (b : Byte) : Fips197.invSbox b = rsbox.getD b.toNat 0 := by
  have hfin : Finite Byte := Finite.of_injective UInt8.toFin fun _ _ h => UInt8.toFin_inj.mp h
  obtain ⟨x, rfl⟩ := Finite.surjective_of_injective sbox_injective b
  rw [Fips197.invSbox, Function.leftInverse_invFun sbox_injective, sbox_eq, rsbox_sbox]

/-! ## The state -/

/-- The 16 bytes of a block by row and column. -/
def Block.state (b : Block) : Fips197.State := fun r c => b.getD (4 * c + r) 0

theorem state_subBytes (s : Block) : (subBytes s).state = Fips197.subBytes s.state := by
  funext r c
  have hlt : 4 * c.val + r.val < 16 := by omega
  simp [Block.state, subBytes, Fips197.subBytes, Vector.getD, hlt, sbox_eq]

theorem state_invSubBytes (s : Block) : (invSubBytes s).state = Fips197.invSubBytes s.state := by
  funext r c
  have hlt : 4 * c.val + r.val < 16 := by omega
  simp [Block.state, invSubBytes, Fips197.invSubBytes, Vector.getD, hlt, invSbox_eq]

theorem state_shiftRows (s : Block) : (shiftRows s).state = Fips197.shiftRows s.state := by
  funext r c
  fin_cases r <;> fin_cases c <;> simp [Block.state, shiftRows, Fips197.shiftRows, Vector.getD]

theorem state_invShiftRows (s : Block) : (invShiftRows s).state = Fips197.invShiftRows s.state := by
  funext r c
  fin_cases r <;> fin_cases c <;> simp [Block.state, invShiftRows, Fips197.invShiftRows, Vector.getD, Fin.neg_def]

theorem state_mapColumns (f : Byte → Byte → Byte → Byte → Nat → Byte) (s : Block) (r c : Fin 4) :
    (mapColumns f s).state r c = f (s.state 0 c) (s.state 1 c) (s.state 2 c) (s.state 3 c) r :=
  getD_mapColumns f s c r c.isLt r.isLt

theorem state_mixColumns (s : Block) : (mixColumns s).state = Fips197.mixColumns s.state := by
  funext r c
  rw [mixColumns, state_mapColumns, Fips197.mixColumns, Fips197.mixWith, Fin.sum_univ_four]
  generalize s.state 0 c = x0
  generalize s.state 1 c = x1
  generalize s.state 2 c = x2
  generalize s.state 3 c = x3
  have hone : ∀ x, element 1 * element x = element x := fun x => by rw [element_one, one_mul]
  have htwo : ∀ x, element 2 * element x = element (xtime x) := fun x => by rw [← element_gmul, xtime_eq]
  have hthree : ∀ x, element 3 * element x = element (xtime x ^^^ x) := fun x => by
    rw [show (3 : Byte) = 2 ^^^ 1 from rfl, element_xor, add_mul, htwo, hone, ← element_xor]
  fin_cases r <;>
    simp only [mixByte, Fin.reduceFinMk, Fin.isValue, Fin.reduceSub, Matrix.cons_val, hone, htwo, hthree, ← element_xor,
      byteOf_element] <;>
    ac_rfl

theorem state_invMixColumns (s : Block) : (invMixColumns s).state = Fips197.invMixColumns s.state := by
  funext r c
  rw [invMixColumns, state_mapColumns, Fips197.invMixColumns, Fips197.mixWith, Fin.sum_univ_four]
  fin_cases r <;>
    simp only [invMixByte, Fin.reduceFinMk, Fin.isValue, Fin.reduceSub, Matrix.cons_val, ← element_gmul, ← element_xor,
      byteOf_element]

/-! ## The key schedule -/

/-- The bytes of a word, the highest first. -/
def wordBytes (w : UInt32) : Fips197.Word := fun j => rkByte w j

theorem toNat_rkByte (w : UInt32) (j : Fin 4) : (rkByte w j).toNat = w.toNat / 2 ^ (24 - 8 * j.val) % 256 := by
  fin_cases j <;> simp [rkByte, Nat.shiftRight_eq_div_pow]

theorem wordBytes_xor (a b : UInt32) (j : Fin 4) : wordBytes (a ^^^ b) j = wordBytes a j ^^^ wordBytes b j := by
  apply UInt8.toNat_inj.mp
  rw [UInt8.toNat_xor, wordBytes, wordBytes, wordBytes, toNat_rkByte, toNat_rkByte, toNat_rkByte, UInt32.toNat_xor,
    show 256 = 2 ^ 8 from rfl, Nat.xor_div_two_pow, Nat.xor_mod_two_pow]

theorem wordBytes_or (a b : UInt32) (j : Fin 4) : wordBytes (a ||| b) j = wordBytes a j ||| wordBytes b j := by
  apply UInt8.toNat_inj.mp
  rw [UInt8.toNat_or, wordBytes, wordBytes, wordBytes, toNat_rkByte, toNat_rkByte, toNat_rkByte, UInt32.toNat_or,
    show 256 = 2 ^ 8 from rfl, Nat.or_div_two_pow, Nat.or_mod_two_pow]

theorem toNat_byte_shift (b : Byte) {k : Nat} (hk : k ≤ 24) : (b.toUInt32 <<< k.toUInt32).toNat = b.toNat * 2 ^ k := by
  have hb := b.toNat_lt
  have hk' : k.toUInt32.toNat = k := by
    rw [UInt32.toNat_ofNat']
    omega
  have hpow : 2 ^ k ≤ 2 ^ 24 := Nat.pow_le_pow_right (by decide) hk
  have hlt : b.toNat * 2 ^ k < 2 ^ 32 := lt_of_lt_of_le (Nat.mul_lt_mul_of_lt_of_le hb hpow (by positivity)) (by decide)
  rw [UInt32.toNat_shiftLeft, hk', Nat.shiftLeft_eq, UInt8.toNat_toUInt32, Nat.mod_eq_of_lt (by omega : k < 32),
    Nat.mod_eq_of_lt hlt]

theorem wordBytes_byte (b : Byte) (j : Fin 4) :
    wordBytes (b.toUInt32 <<< 24) j = ![b, 0, 0, 0] j ∧ wordBytes (b.toUInt32 <<< 16) j = ![0, b, 0, 0] j ∧
      wordBytes (b.toUInt32 <<< 8) j = ![0, 0, b, 0] j ∧ wordBytes (b.toUInt32 <<< 0) j = ![0, 0, 0, b] j := by
  have hb := b.toNat_lt
  have h24 := @toNat_byte_shift b 24 (by decide)
  have h16 := @toNat_byte_shift b 16 (by decide)
  have h8 := @toNat_byte_shift b 8 (by decide)
  have h0 := @toNat_byte_shift b 0 (by decide)
  refine ⟨?_, ?_, ?_, ?_⟩ <;> apply UInt8.toNat_inj.mp <;> rw [wordBytes, toNat_rkByte]
  · rw [show (24 : UInt32) = (24 : Nat).toUInt32 from rfl, h24]
    fin_cases j <;> simp <;> omega
  · rw [show (16 : UInt32) = (16 : Nat).toUInt32 from rfl, h16]
    fin_cases j <;> simp <;> omega
  · rw [show (8 : UInt32) = (8 : Nat).toUInt32 from rfl, h8]
    fin_cases j <;> simp <;> omega
  · rw [show (0 : UInt32) = (0 : Nat).toUInt32 from rfl, h0]
    fin_cases j <;> simp <;> omega

theorem wordBytes_subWord (w : UInt32) : wordBytes (subWord w) = Fips197.subWord (wordBytes w) := by
  funext j
  have hbyte : ∀ j : Fin 4, ((w >>> (24 - 8 * j.val).toUInt32) &&& 0xff).toNat = (wordBytes w j).toNat := by
    intro j
    rw [wordBytes, toNat_rkByte, UInt32.toNat_and, show (0xff : UInt32).toNat = 2 ^ 8 - 1 from rfl,
      Nat.and_two_pow_sub_one_eq_mod]
    fin_cases j <;> simp [Nat.shiftRight_eq_div_pow]
  have h0 : ((w >>> 24) &&& 0xff).toNat = (wordBytes w 0).toNat := hbyte 0
  have h1 : ((w >>> 16) &&& 0xff).toNat = (wordBytes w 1).toNat := hbyte 1
  have h2 : ((w >>> 8) &&& 0xff).toNat = (wordBytes w 2).toNat := hbyte 2
  have h3 : ((w >>> 0) &&& 0xff).toNat = (wordBytes w 3).toNat := hbyte 3
  rw [subWord, wordBytes_or, wordBytes_or, wordBytes_or, subByte, subByte, subByte, subByte, h0, h1, h2, h3,
    (wordBytes_byte _ j).1, (wordBytes_byte _ j).2.1, (wordBytes_byte _ j).2.2.1, (wordBytes_byte _ j).2.2.2,
    Fips197.subWord, sbox_eq]
  fin_cases j <;> simp

theorem wordBytes_rotWord (w : UInt32) : wordBytes (rotWord w) = Fips197.rotWord (wordBytes w) := by
  have hleft : ∀ j, wordBytes (w <<< 8) j = ![rkByte w 1, rkByte w 2, rkByte w 3, 0] j := by
    intro j
    apply UInt8.toNat_inj.mp
    have hw := w.toNat_lt
    rw [wordBytes, toNat_rkByte, UInt32.toNat_shiftLeft, Nat.shiftLeft_eq]
    fin_cases j
    · exact (toNat_rkByte w 1).symm ▸ by simp; omega
    · exact (toNat_rkByte w 2).symm ▸ by simp; omega
    · exact (toNat_rkByte w 3).symm ▸ by simp; omega
    · simp
  have hright : ∀ j, wordBytes (w >>> 24) j = ![0, 0, 0, rkByte w 0] j := by
    intro j
    apply UInt8.toNat_inj.mp
    have hw := w.toNat_lt
    rw [wordBytes, toNat_rkByte, UInt32.toNat_shiftRight, Nat.shiftRight_eq_div_pow]
    fin_cases j
    · simp; omega
    · simp; omega
    · simp; omega
    · exact (toNat_rkByte w 0).symm ▸ by simp
  funext j
  rw [rotWord, wordBytes_or, hleft, hright, Fips197.rotWord]
  fin_cases j <;> simp [wordBytes]

theorem wordBytes_bytesToWord (key : List Byte) (i : Nat) (j : Fin 4) :
    wordBytes (bytesToWord key i) j = key.getD (4 * i + j) 0 := by
  have hget : ∀ k < 4, (fit (key.drop (4 * i)) 4).getD k 0 = key.getD (4 * i + k) 0 := by
    intro k hk
    rw [fit, List.getD_eq_getElem?_getD, List.getD_eq_getElem?_getD, List.getElem?_append, List.length_take,
      List.length_drop, List.getElem?_take_of_lt hk, List.getElem?_drop, List.getElem?_replicate]
    by_cases hin : 4 * i + k < key.length
    · rw [if_pos (by omega)]
    · rw [if_neg (by omega), List.getElem?_eq_none (by omega)]
      split_ifs <;> rfl
  obtain ⟨a, b, c, d, habcd⟩ : ∃ a b c d, fit (key.drop (4 * i)) 4 = [a, b, c, d] :=
    List.length_eq_four.mp (length_fit _ _)
  rw [← hget j j.isLt, bytesToWord, habcd]
  apply UInt8.toNat_inj.mp
  rw [wordBytes, toNat_rkByte]
  have ha := a.toNat_lt
  have hb := b.toNat_lt
  have hc := c.toNat_lt
  have hd := d.toNat_lt
  fin_cases j <;> simp [beVal, leVal] <;> omega

/-- The words at `rk`, as the standard's words. -/
def scheduleWords (rk : List UInt32) (i : Nat) : Fips197.Word := wordBytes (rk.getD i 0)

theorem wordBytes_rcon {i : Nat} (hi : 0 < i) (hle : i ≤ 10) :
    wordBytes ((rcon.getD i 0).toUInt32 <<< 24) = Fips197.rcon i := by
  have hpow : ∀ k, element (xtime^[k] 1) = AdjoinRoot.root Fips197.modulus ^ k := by
    intro k
    induction k with
    | zero => rw [Function.iterate_zero, id, element_one, pow_zero]
    | succ k ih => rw [Function.iterate_succ_apply', element_xtime, ih, pow_succ']
  have htable : ∀ i ≤ 10, 0 < i → rcon.getD i 0 = xtime^[i - 1] 1 := by decide
  funext j
  rw [(wordBytes_byte _ j).1, Fips197.rcon, ← hpow, byteOf_element, htable i hle hi]

/-- Every word that is appended is the next one of the standard. -/
theorem wordBytes_nextWord {key : List Byte} {nk : Nat} (hnk : 0 < nk) {rk : List UInt32} {i : Nat} (hi : nk ≤ i)
    (hconst : i / nk ≤ 10) (hrk : ∀ k < i, scheduleWords rk k = Fips197.keyExpansion key nk k) :
    wordBytes (nextWord nk rk i) = Fips197.keyExpansion key nk i := by
  have hlast := hrk (i - 1) (by omega)
  have hback := hrk (i - nk) (by omega)
  have hpos : 0 < i / nk := Nat.div_pos hi hnk
  funext j
  rw [Fips197.keyExpansion, if_neg (by omega), nextWord, wordBytes_xor]
  unfold scheduleWords at hlast hback
  rw [hback]
  congr 1
  split_ifs with hmod hmod'
  · rw [wordBytes_xor, wordBytes_subWord, wordBytes_rotWord, hlast, wordBytes_rcon hpos hconst]
  · rw [wordBytes_subWord, hlast]
  · rw [hlast]

theorem scheduleWords_foldl {key : List Byte} {nk : Nat} (hnk : 0 < nk) {n : Nat} (hn : n ≤ 10 * nk) :
    ((List.range' nk n).foldl (fun rk i => rk ++ [nextWord nk rk i]) ((List.range nk).map (bytesToWord key))).length =
        nk + n ∧
      ∀ k < nk + n, scheduleWords ((List.range' nk n).foldl (fun rk i => rk ++ [nextWord nk rk i])
        ((List.range nk).map (bytesToWord key))) k = Fips197.keyExpansion key nk k := by
  induction n with
  | zero =>
    refine ⟨by simp, fun k hk => ?_⟩
    rw [Nat.add_zero] at hk
    funext j
    rw [Fips197.keyExpansion, if_pos (.inl hk)]
    simp only [scheduleWords, List.range'_zero, List.foldl_nil]
    rw [getD_map_range (bytesToWord key) hk, wordBytes_bytesToWord]
  | succ n ih =>
    obtain ⟨hlen, hwords⟩ := ih (by omega)
    rw [List.range'_concat, List.foldl_append, Nat.one_mul]
    generalize (List.range' nk n).foldl _ _ = rk at hlen hwords ⊢
    refine ⟨by simp [hlen]; omega, fun k hk => ?_⟩
    rcases Nat.lt_or_ge k (nk + n) with hlt | hge
    · rw [← hwords k hlt, scheduleWords, scheduleWords, List.foldl_cons, List.foldl_nil,
        List.getD_append _ _ _ _ (by omega)]
    · obtain rfl : k = nk + n := by omega
      have hconst : (nk + n) / nk < 11 := Nat.div_lt_of_lt_mul (by omega)
      rw [scheduleWords, List.foldl_cons, List.foldl_nil, List.getD_append_right _ _ _ _ (by omega), hlen, Nat.sub_self]
      exact wordBytes_nextWord hnk (by omega) (Nat.le_of_lt_succ hconst) hwords

/-! ## The cipher -/

variable {ctx : AesCtx} {nk : Nat} {key : List Byte}

/-- A context whose schedule is that of the standard. -/
structure FipsSchedule (key : List Byte) (nk : Nat) (ctx : AesCtx) : Prop where
  nr_eq : ctx.nr = Fips197.rounds nk
  words : ∀ k < 4 * (ctx.nr + 1), scheduleWords ctx.rk k = Fips197.keyExpansion key nk k

theorem fipsSchedule_aesInitEnc (hkey : key.length = 16 ∨ key.length = 32) :
    FipsSchedule key (key.length / 4) (aesInitEnc key key.length) := by
  rcases hkey with h | h
  · obtain ⟨-, hwords⟩ := @scheduleWords_foldl key 4 (by decide) 40 (by decide)
    rw [h]
    exact ⟨rfl, hwords⟩
  · obtain ⟨-, hwords⟩ := @scheduleWords_foldl key 8 (by decide) 52 (by decide)
    rw [h]
    exact ⟨rfl, hwords⟩

theorem FipsSchedule.state_addRk (h : FipsSchedule key nk ctx) {rd : Nat} (hrd : rd ≤ ctx.nr) (s : Block) :
    (addRk ctx.rk rd s).state = Fips197.addRoundKey (Fips197.keyExpansion key nk) rd s.state := by
  funext r c
  have hlt : 4 * c.val + r.val < 16 := by omega
  have hdiv : (4 * c.val + r.val) / 4 = c := by omega
  have hmod : (4 * c.val + r.val) % 4 = r := by omega
  rw [Fips197.addRoundKey, ← h.words _ (by omega)]
  simp [Block.state, addRk, Vector.getD, hlt, hdiv, hmod, scheduleWords, wordBytes]

theorem FipsSchedule.state_encState (h : FipsSchedule key nk ctx) (input : Block) {k : Nat} (hk : k ≤ ctx.nr) :
    (encState ctx input k).state = (List.range' 1 k).foldl (Fips197.cipherRound (Fips197.keyExpansion key nk))
      (Fips197.addRoundKey (Fips197.keyExpansion key nk) 0 input.state) := by
  induction k with
  | zero => exact h.state_addRk (Nat.zero_le _) input
  | succ k ih =>
    rw [List.range'_concat, List.foldl_append, ← ih (by omega), encState, h.state_addRk hk, state_mixColumns,
      state_shiftRows, state_subBytes, Nat.one_mul, Nat.add_comm 1 k]
    rfl

theorem FipsSchedule.encrypt (h : FipsSchedule key nk ctx) (input : Block) :
    (aesEncryptBlock ctx input).state =
      Fips197.cipher (Fips197.rounds nk) (Fips197.keyExpansion key nk) input.state := by
  have hnr : ctx.nr = nk + 5 + 1 := h.nr_eq
  rw [aesEncryptBlock_eq ctx input (nk + 5) hnr, h.state_addRk hnr.ge, state_shiftRows, state_subBytes,
    h.state_encState input (by omega)]
  rfl

/-- The state of the decryption above round `k`, and what is left of it. -/
theorem FipsSchedule.state_decRounds (h : FipsSchedule key nk ctx) (k : Nat) (hk : k ≤ ctx.nr) (s : Block) :
    ((List.range' 1 k).reverse.foldl (decRound ctx) s).state =
      (List.range' 1 k).reverse.foldl (Fips197.invCipherRound (Fips197.keyExpansion key nk)) s.state := by
  induction k generalizing s with
  | zero => rfl
  | succ k ih =>
    have hround : (decRound ctx s (k + 1)).state =
        Fips197.invCipherRound (Fips197.keyExpansion key nk) s.state (k + 1) := by
      rw [decRound, if_pos (Nat.succ_pos k), state_invMixColumns, h.state_addRk hk, state_invSubBytes, state_invShiftRows]
      rfl
    rw [List.range'_concat, List.reverse_append, List.reverse_singleton, List.singleton_append, List.foldl_cons,
      List.foldl_cons, Nat.one_mul, Nat.add_comm 1 k, ih (by omega), hround]

theorem FipsSchedule.decrypt (h : FipsSchedule key nk ctx) (input : Block) :
    (aesDecryptBlock ctx input).state =
      Fips197.invCipher (Fips197.rounds nk) (Fips197.keyExpansion key nk) input.state := by
  have hnr : ctx.nr = nk + 5 + 1 := h.nr_eq
  have hrange : (List.range (nk + 5 + 1)).reverse = (List.range' 1 (nk + 5)).reverse ++ [0] := by
    rw [List.range_succ_eq_map, List.reverse_cons, List.range'_eq_map_range]
    simp [Nat.add_comm]
  have hlast : ∀ s, (decRound ctx s 0).state =
      Fips197.addRoundKey (Fips197.keyExpansion key nk) 0 (Fips197.invSubBytes (Fips197.invShiftRows s.state)) := by
    intro s
    rw [decRound, if_neg (by decide), h.state_addRk (Nat.zero_le _), state_invSubBytes, state_invShiftRows]
  rw [aesDecryptBlock, hnr, hrange, List.foldl_append, List.foldl_cons, List.foldl_nil, hlast,
    h.state_decRounds _ (by omega), ← hnr, h.state_addRk (le_refl _), hnr]
  rfl

/-- For keys of 16 and 32 bytes encryption and decryption are those of the standard. -/
theorem aes_fips197 (hkey : key.length = 16 ∨ key.length = 32) (input : Block) :
    (aesEncryptBlock (aesInitEnc key key.length) input).state =
        Fips197.cipher (Fips197.rounds (key.length / 4)) (Fips197.keyExpansion key (key.length / 4)) input.state ∧
      (aesDecryptBlock (aesInitDec key key.length) input).state =
        Fips197.invCipher (Fips197.rounds (key.length / 4)) (Fips197.keyExpansion key (key.length / 4)) input.state :=
  ⟨(fipsSchedule_aesInitEnc hkey).encrypt input, (fipsSchedule_aesInitEnc hkey).decrypt input⟩

/-- The bytes 0, 1, 2, and so on. -/
def countingBytes (n : Nat) : List Byte := (List.range n).map Nat.toUInt8

/-- The AES-128 example of the standard: the bytes of the plaintext are the multiples of 17. -/
theorem aes_fips197_example : (countingBytes 16).length = 16 ∧
    Fips197.cipher 10 (Fips197.keyExpansion (countingBytes 16) 4)
        (Block.ofBytes ((List.range 16).map fun i => (17 * i).toUInt8)).state =
      (Block.ofBytes [0x69, 0xc4, 0xe0, 0xd8, 0x6a, 0x7b, 0x04, 0x30, 0xd8, 0xcd, 0xb7, 0x80,
        0x70, 0xb4, 0xc5, 0x5a]).state := by
  have hlen : (countingBytes 16).length = 16 := by decide
  have hrun : aesEncryptBlock (aesInitEnc (countingBytes 16) (countingBytes 16).length)
      (Block.ofBytes ((List.range 16).map fun i => (17 * i).toUInt8)) =
      Block.ofBytes [0x69, 0xc4, 0xe0, 0xd8, 0x6a, 0x7b, 0x04, 0x30, 0xd8, 0xcd, 0xb7, 0x80, 0x70, 0xb4, 0xc5, 0x5a] := by
    decide +kernel
  refine ⟨hlen, ?_⟩
  rw [← hrun]
  exact (aes_fips197 (.inl hlen) _).1.symm

end SakuruBoot

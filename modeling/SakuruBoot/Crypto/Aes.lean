import SakuruBoot.Lib.Bytes

/-!
# AES (`crypto/aes.c`)

Key schedule, encryption and decryption of one block, as the code computes them, and that decryption
undoes encryption under the same schedule (`decrypt_encrypt`).

The argument goes round by round. Every step of a round has its inverse: the two tables invert each
other, the two row shifts and the two column maps do, and adding a round key twice does nothing. The
column maps are linear over exclusive or (`gmul_xor`), so their composition is checked one byte at a
time.
-/

namespace SakuruBoot
open CStr (Byte)
open Bytes

abbrev Block := Vector Byte 16

/-- The 16 bytes at a pointer. -/
def Block.ofBytes (p : List Byte) : Block := Vector.ofFn fun i => p.getD i 0

def sbox : List Byte :=
  [0x63, 0x7c, 0x77, 0x7b, 0xf2, 0x6b, 0x6f, 0xc5, 0x30, 0x01, 0x67, 0x2b, 0xfe, 0xd7, 0xab, 0x76,
    0xca, 0x82, 0xc9, 0x7d, 0xfa, 0x59, 0x47, 0xf0, 0xad, 0xd4, 0xa2, 0xaf, 0x9c, 0xa4, 0x72, 0xc0,
    0xb7, 0xfd, 0x93, 0x26, 0x36, 0x3f, 0xf7, 0xcc, 0x34, 0xa5, 0xe5, 0xf1, 0x71, 0xd8, 0x31, 0x15,
    0x04, 0xc7, 0x23, 0xc3, 0x18, 0x96, 0x05, 0x9a, 0x07, 0x12, 0x80, 0xe2, 0xeb, 0x27, 0xb2, 0x75,
    0x09, 0x83, 0x2c, 0x1a, 0x1b, 0x6e, 0x5a, 0xa0, 0x52, 0x3b, 0xd6, 0xb3, 0x29, 0xe3, 0x2f, 0x84,
    0x53, 0xd1, 0x00, 0xed, 0x20, 0xfc, 0xb1, 0x5b, 0x6a, 0xcb, 0xbe, 0x39, 0x4a, 0x4c, 0x58, 0xcf,
    0xd0, 0xef, 0xaa, 0xfb, 0x43, 0x4d, 0x33, 0x85, 0x45, 0xf9, 0x02, 0x7f, 0x50, 0x3c, 0x9f, 0xa8,
    0x51, 0xa3, 0x40, 0x8f, 0x92, 0x9d, 0x38, 0xf5, 0xbc, 0xb6, 0xda, 0x21, 0x10, 0xff, 0xf3, 0xd2,
    0xcd, 0x0c, 0x13, 0xec, 0x5f, 0x97, 0x44, 0x17, 0xc4, 0xa7, 0x7e, 0x3d, 0x64, 0x5d, 0x19, 0x73,
    0x60, 0x81, 0x4f, 0xdc, 0x22, 0x2a, 0x90, 0x88, 0x46, 0xee, 0xb8, 0x14, 0xde, 0x5e, 0x0b, 0xdb,
    0xe0, 0x32, 0x3a, 0x0a, 0x49, 0x06, 0x24, 0x5c, 0xc2, 0xd3, 0xac, 0x62, 0x91, 0x95, 0xe4, 0x79,
    0xe7, 0xc8, 0x37, 0x6d, 0x8d, 0xd5, 0x4e, 0xa9, 0x6c, 0x56, 0xf4, 0xea, 0x65, 0x7a, 0xae, 0x08,
    0xba, 0x78, 0x25, 0x2e, 0x1c, 0xa6, 0xb4, 0xc6, 0xe8, 0xdd, 0x74, 0x1f, 0x4b, 0xbd, 0x8b, 0x8a,
    0x70, 0x3e, 0xb5, 0x66, 0x48, 0x03, 0xf6, 0x0e, 0x61, 0x35, 0x57, 0xb9, 0x86, 0xc1, 0x1d, 0x9e,
    0xe1, 0xf8, 0x98, 0x11, 0x69, 0xd9, 0x8e, 0x94, 0x9b, 0x1e, 0x87, 0xe9, 0xce, 0x55, 0x28, 0xdf,
    0x8c, 0xa1, 0x89, 0x0d, 0xbf, 0xe6, 0x42, 0x68, 0x41, 0x99, 0x2d, 0x0f, 0xb0, 0x54, 0xbb, 0x16]

def rsbox : List Byte :=
  [0x52, 0x09, 0x6a, 0xd5, 0x30, 0x36, 0xa5, 0x38, 0xbf, 0x40, 0xa3, 0x9e, 0x81, 0xf3, 0xd7, 0xfb,
    0x7c, 0xe3, 0x39, 0x82, 0x9b, 0x2f, 0xff, 0x87, 0x34, 0x8e, 0x43, 0x44, 0xc4, 0xde, 0xe9, 0xcb,
    0x54, 0x7b, 0x94, 0x32, 0xa6, 0xc2, 0x23, 0x3d, 0xee, 0x4c, 0x95, 0x0b, 0x42, 0xfa, 0xc3, 0x4e,
    0x08, 0x2e, 0xa1, 0x66, 0x28, 0xd9, 0x24, 0xb2, 0x76, 0x5b, 0xa2, 0x49, 0x6d, 0x8b, 0xd1, 0x25,
    0x72, 0xf8, 0xf6, 0x64, 0x86, 0x68, 0x98, 0x16, 0xd4, 0xa4, 0x5c, 0xcc, 0x5d, 0x65, 0xb6, 0x92,
    0x6c, 0x70, 0x48, 0x50, 0xfd, 0xed, 0xb9, 0xda, 0x5e, 0x15, 0x46, 0x57, 0xa7, 0x8d, 0x9d, 0x84,
    0x90, 0xd8, 0xab, 0x00, 0x8c, 0xbc, 0xd3, 0x0a, 0xf7, 0xe4, 0x58, 0x05, 0xb8, 0xb3, 0x45, 0x06,
    0xd0, 0x2c, 0x1e, 0x8f, 0xca, 0x3f, 0x0f, 0x02, 0xc1, 0xaf, 0xbd, 0x03, 0x01, 0x13, 0x8a, 0x6b,
    0x3a, 0x91, 0x11, 0x41, 0x4f, 0x67, 0xdc, 0xea, 0x97, 0xf2, 0xcf, 0xce, 0xf0, 0xb4, 0xe6, 0x73,
    0x96, 0xac, 0x74, 0x22, 0xe7, 0xad, 0x35, 0x85, 0xe2, 0xf9, 0x37, 0xe8, 0x1c, 0x75, 0xdf, 0x6e,
    0x47, 0xf1, 0x1a, 0x71, 0x1d, 0x29, 0xc5, 0x89, 0x6f, 0xb7, 0x62, 0x0e, 0xaa, 0x18, 0xbe, 0x1b,
    0xfc, 0x56, 0x3e, 0x4b, 0xc6, 0xd2, 0x79, 0x20, 0x9a, 0xdb, 0xc0, 0xfe, 0x78, 0xcd, 0x5a, 0xf4,
    0x1f, 0xdd, 0xa8, 0x33, 0x88, 0x07, 0xc7, 0x31, 0xb1, 0x12, 0x10, 0x59, 0x27, 0x80, 0xec, 0x5f,
    0x60, 0x51, 0x7f, 0xa9, 0x19, 0xb5, 0x4a, 0x0d, 0x2d, 0xe5, 0x7a, 0x9f, 0x93, 0xc9, 0x9c, 0xef,
    0xa0, 0xe0, 0x3b, 0x4d, 0xae, 0x2a, 0xf5, 0xb0, 0xc8, 0xeb, 0xbb, 0x3c, 0x83, 0x53, 0x99, 0x61,
    0x17, 0x2b, 0x04, 0x7e, 0xba, 0x77, 0xd6, 0x26, 0xe1, 0x69, 0x14, 0x63, 0x55, 0x21, 0x0c, 0x7d]

def rcon : List Byte := [0x00, 0x01, 0x02, 0x04, 0x08, 0x10, 0x20, 0x40, 0x80, 0x1b, 0x36]

def xtime (a : Byte) : Byte := (a <<< 1) ^^^ (if a >>> 7 != 0 then 0x1b else 0)

/-- The loop of `gmul` with `n` iterations left. -/
def gmulLoop : Nat → Byte → Byte → Byte → Byte
  | 0, r, _, _ => r
  | n + 1, r, p, b => gmulLoop n (if b &&& 1 != 0 then r ^^^ p else r) (xtime p) (b >>> 1)

def gmul (a b : Byte) : Byte := gmulLoop 8 0 a b

/-! ## Key schedule -/

def subByte (w : UInt32) (shift : UInt32) : UInt32 :=
  (sbox.getD ((w >>> shift) &&& 0xff).toNat 0).toUInt32 <<< shift

def subWord (w : UInt32) : UInt32 := subByte w 24 ||| subByte w 16 ||| subByte w 8 ||| subByte w 0
def rotWord (w : UInt32) : UInt32 := (w <<< 8) ||| (w >>> 24)
def bytesToWord (key : List Byte) (i : Nat) : UInt32 := (beVal (fit (key.drop (4 * i)) 4)).toUInt32

structure AesCtx where
  rk : List UInt32
  nr : Nat
  deriving DecidableEq

/-- The schedule word at position `i`, from the ones before it. -/
def nextWord (nk : Nat) (rk : List UInt32) (i : Nat) : UInt32 :=
  let t := rk.getD (i - 1) 0
  let t :=
    if i % nk = 0 then subWord (rotWord t) ^^^ ((rcon.getD (i / nk) 0).toUInt32 <<< 24)
    else if 6 < nk ∧ i % nk = 4 then subWord t
    else t
  rk.getD (i - nk) 0 ^^^ t

/-- The key schedule of the `keyLen` bytes at `key`. A length below four bytes makes the C code divide
by zero; here `i % 0` is `i`. -/
def aesInitEnc (key : List Byte) (keyLen : Nat) : AesCtx :=
  let nk := keyLen / 4
  let nr := if nk = 4 then 10 else 14
  let tot := (nr + 1) * 4
  { nr := nr
    rk := (List.range' nk (tot - nk)).foldl (fun rk i => rk ++ [nextWord nk rk i])
      ((List.range nk).map (bytesToWord key)) }

def aesInitDec (key : List Byte) (keyLen : Nat) : AesCtx := aesInitEnc key keyLen

/-! ## One block -/

def rkByte (w : UInt32) (j : Nat) : Byte := (w >>> (24 - 8 * j).toUInt32).toUInt8

/-- `add_rk(s, rk + 4 * rd)`. -/
def addRk (rk : List UInt32) (rd : Nat) (s : Block) : Block :=
  Vector.ofFn fun i => s[i] ^^^ rkByte (rk.getD (4 * rd + i / 4) 0) (i % 4)

def subBytes (s : Block) : Block := s.map fun b => sbox.getD b.toNat 0
def invSubBytes (s : Block) : Block := s.map fun b => rsbox.getD b.toNat 0

def shiftRows (s : Block) : Block :=
  #v[s[0], s[5], s[10], s[15], s[4], s[9], s[14], s[3], s[8], s[13], s[2], s[7], s[12], s[1], s[6],
    s[11]]

def invShiftRows (s : Block) : Block :=
  #v[s[0], s[13], s[10], s[7], s[4], s[1], s[14], s[11], s[8], s[5], s[2], s[15], s[12], s[9], s[6],
    s[3]]

/-- Entry `j` of the column `(a, b, c, d)` after `mix_columns`. -/
def mixByte (a b c d : Byte) : Nat → Byte
  | 0 => xtime a ^^^ xtime b ^^^ b ^^^ c ^^^ d
  | 1 => a ^^^ xtime b ^^^ xtime c ^^^ c ^^^ d
  | 2 => a ^^^ b ^^^ xtime c ^^^ xtime d ^^^ d
  | _ => xtime a ^^^ a ^^^ b ^^^ c ^^^ xtime d

/-- Entry `j` of the column after `inv_mix_columns`. -/
def invMixByte (a b c d : Byte) : Nat → Byte
  | 0 => gmul 0x0e a ^^^ gmul 0x0b b ^^^ gmul 0x0d c ^^^ gmul 0x09 d
  | 1 => gmul 0x09 a ^^^ gmul 0x0e b ^^^ gmul 0x0b c ^^^ gmul 0x0d d
  | 2 => gmul 0x0d a ^^^ gmul 0x09 b ^^^ gmul 0x0e c ^^^ gmul 0x0b d
  | _ => gmul 0x0b a ^^^ gmul 0x0d b ^^^ gmul 0x09 c ^^^ gmul 0x0e d

/-- Apply a map of columns to the four columns of the state. -/
def mapColumns (f : Byte → Byte → Byte → Byte → Nat → Byte) (s : Block) : Block :=
  Vector.ofFn fun i =>
    let q := 4 * (i.val / 4)
    f (s.getD q 0) (s.getD (q + 1) 0) (s.getD (q + 2) 0) (s.getD (q + 3) 0) (i.val % 4)

def mixColumns : Block → Block := mapColumns mixByte
def invMixColumns : Block → Block := mapColumns invMixByte

def encRound (ctx : AesCtx) (s : Block) (rd : Nat) : Block :=
  let s := shiftRows (subBytes s)
  addRk ctx.rk rd (if rd < ctx.nr then mixColumns s else s)

def aesEncryptBlock (ctx : AesCtx) (input : Block) : Block :=
  (List.range' 1 ctx.nr).foldl (encRound ctx) (addRk ctx.rk 0 input)

def decRound (ctx : AesCtx) (s : Block) (rd : Nat) : Block :=
  let s := addRk ctx.rk rd (invSubBytes (invShiftRows s))
  if 0 < rd then invMixColumns s else s

def aesDecryptBlock (ctx : AesCtx) (input : Block) : Block :=
  (List.range ctx.nr).reverse.foldl (decRound ctx) (addRk ctx.rk ctx.nr input)

/-! ## Each step has its inverse -/

theorem forall_byte {P : Byte → Prop} (h : ∀ n < 256, P n.toUInt8) (x : Byte) : P x := by
  have := h x.toNat x.toNat_lt
  rwa [show x.toNat.toUInt8 = x from UInt8.ofNat_toNat] at this

theorem sbox_inverse : sbox.map (fun y => rsbox.getD y.toNat 0) = (List.range 256).map Nat.toUInt8 := by
  decide +kernel

theorem rsbox_sbox (x : Byte) : rsbox.getD (sbox.getD x.toNat 0).toNat 0 = x := by
  have hx : x.toNat < 256 := x.toNat_lt
  have hlen : sbox.length = 256 := by decide +kernel
  have h := congrArg (fun l => l.getD x.toNat 0) sbox_inverse
  simpa [List.getD_eq_getElem?_getD, hx, hlen] using h

theorem invSubBytes_subBytes (s : Block) : invSubBytes (subBytes s) = s := by
  refine Vector.ext fun i hi => ?_
  simp only [invSubBytes, subBytes, Vector.getElem_map]
  exact rsbox_sbox _

theorem invShiftRows_shiftRows (s : Block) : invShiftRows (shiftRows s) = s := by
  refine Vector.ext fun i hi => ?_
  interval_cases i <;> rfl

theorem addRk_addRk (rk : List UInt32) (rd : Nat) (s : Block) : addRk rk rd (addRk rk rd s) = s := by
  refine Vector.ext fun i hi => ?_
  simp [addRk]

theorem gmulLoop_acc (n : Nat) (r p b : Byte) : gmulLoop n r p b = r ^^^ gmulLoop n 0 p b := by
  induction n generalizing r p b with
  | zero => simp [gmulLoop]
  | succ n ih =>
    rw [gmulLoop, gmulLoop, ih, ih (if b &&& 1 != 0 then 0 ^^^ p else 0)]
    split <;> simp [UInt8.xor_assoc]

theorem and_one_xor (b b' : Byte) : (b ^^^ b') &&& 1 = (b &&& 1) ^^^ (b' &&& 1) := by
  apply UInt8.toBitVec_inj.mp
  simp only [UInt8.toBitVec_and, UInt8.toBitVec_xor]
  ext i hi
  simp only [BitVec.getElem_and, BitVec.getElem_xor]
  exact Bool.and_xor_distrib_right _ _ _

theorem and_one_cases (b : Byte) : b &&& 1 = 0 ∨ b &&& 1 = 1 :=
  forall_byte (P := fun b => b &&& 1 = 0 ∨ b &&& 1 = 1) (by decide +kernel) b

/-- What one iteration adds to the product. -/
def gmulTerm (p b : Byte) : Byte := if b &&& 1 != 0 then p else 0

theorem gmulTerm_xor (p b b' : Byte) : gmulTerm p (b ^^^ b') = gmulTerm p b ^^^ gmulTerm p b' := by
  rw [gmulTerm, and_one_xor]
  rcases and_one_cases b with hb | hb <;> rcases and_one_cases b' with hb' | hb' <;>
    simp [gmulTerm, hb, hb']

theorem gmulLoop_succ (n : Nat) (p b : Byte) :
    gmulLoop (n + 1) 0 p b = gmulTerm p b ^^^ gmulLoop n 0 (xtime p) (b >>> 1) := by
  rw [gmulLoop, gmulLoop_acc, UInt8.zero_xor, gmulTerm]

theorem gmulLoop_xor (n : Nat) (p b b' : Byte) :
    gmulLoop n 0 p (b ^^^ b') = gmulLoop n 0 p b ^^^ gmulLoop n 0 p b' := by
  induction n generalizing p b b' with
  | zero => simp [gmulLoop]
  | succ n ih =>
    rw [gmulLoop_succ, gmulLoop_succ, gmulLoop_succ, UInt8.shiftRight_xor, ih, gmulTerm_xor]
    ac_rfl

theorem gmul_xor (c x y : Byte) : gmul c (x ^^^ y) = gmul c x ^^^ gmul c y := gmulLoop_xor 8 c x y

theorem xtime_eq (x : Byte) : xtime x = gmul 2 x :=
  forall_byte (P := fun x => xtime x = gmul 2 x) (by decide +kernel) x

theorem gmul_cancel (x : Byte) :
    gmul 0x0e (gmul 2 x) ^^^ gmul 0x0b x ^^^ gmul 0x0d x ^^^ (gmul 0x09 (gmul 2 x) ^^^ gmul 0x09 x) = x ∧
    gmul 0x0e (gmul 2 x) ^^^ gmul 0x0e x ^^^ gmul 0x0b (gmul 2 x) ^^^ gmul 0x0d x ^^^ gmul 0x09 x = 0 ∧
    gmul 0x0e x ^^^ (gmul 0x0b (gmul 2 x) ^^^ gmul 0x0b x) ^^^ gmul 0x0d (gmul 2 x) ^^^ gmul 0x09 x = 0 ∧
    gmul 0x0e x ^^^ gmul 0x0b x ^^^ (gmul 0x0d (gmul 2 x) ^^^ gmul 0x0d x) ^^^ gmul 0x09 (gmul 2 x) = 0 :=
  forall_byte (P := fun x =>
    gmul 0x0e (gmul 2 x) ^^^ gmul 0x0b x ^^^ gmul 0x0d x ^^^ (gmul 0x09 (gmul 2 x) ^^^ gmul 0x09 x) = x ∧
    gmul 0x0e (gmul 2 x) ^^^ gmul 0x0e x ^^^ gmul 0x0b (gmul 2 x) ^^^ gmul 0x0d x ^^^ gmul 0x09 x = 0 ∧
    gmul 0x0e x ^^^ (gmul 0x0b (gmul 2 x) ^^^ gmul 0x0b x) ^^^ gmul 0x0d (gmul 2 x) ^^^ gmul 0x09 x = 0 ∧
    gmul 0x0e x ^^^ gmul 0x0b x ^^^ (gmul 0x0d (gmul 2 x) ^^^ gmul 0x0d x) ^^^ gmul 0x09 (gmul 2 x) = 0)
    (by decide +kernel) x

/-- Four bytes of a column, with the coefficient sums of one row of the product of the two maps. -/
theorem invMixByte_mixByte (a b c d : Byte) (j : Nat) (hj : j < 4) :
    invMixByte (mixByte a b c d 0) (mixByte a b c d 1) (mixByte a b c d 2) (mixByte a b c d 3) j =
      [a, b, c, d].getD j 0 := by
  obtain ⟨ha1, ha2, ha3, ha4⟩ := gmul_cancel a
  obtain ⟨hb1, hb2, hb3, hb4⟩ := gmul_cancel b
  obtain ⟨hc1, hc2, hc3, hc4⟩ := gmul_cancel c
  obtain ⟨hd1, hd2, hd3, hd4⟩ := gmul_cancel d
  interval_cases j <;>
    simp only [invMixByte, mixByte, xtime_eq, gmul_xor, List.getD_cons_zero, List.getD_cons_succ]
  · refine Eq.trans ?_ (congrArg₂ (· ^^^ ·) (congrArg₂ (· ^^^ ·) ha1 hb2) (congrArg₂ (· ^^^ ·) hc3 hd4) |>.trans (by simp))
    ac_rfl
  · refine Eq.trans ?_ (congrArg₂ (· ^^^ ·) (congrArg₂ (· ^^^ ·) hb1 hc2) (congrArg₂ (· ^^^ ·) hd3 ha4) |>.trans (by simp))
    ac_rfl
  · refine Eq.trans ?_ (congrArg₂ (· ^^^ ·) (congrArg₂ (· ^^^ ·) hc1 hd2) (congrArg₂ (· ^^^ ·) ha3 hb4) |>.trans (by simp))
    ac_rfl
  · refine Eq.trans ?_ (congrArg₂ (· ^^^ ·) (congrArg₂ (· ^^^ ·) hd1 ha2) (congrArg₂ (· ^^^ ·) hb3 hc4) |>.trans (by simp))
    ac_rfl

theorem getD_mapColumns (f : Byte → Byte → Byte → Byte → Nat → Byte) (s : Block) (q j : Nat)
    (hq : q < 4) (hj : j < 4) : (mapColumns f s).getD (4 * q + j) 0 =
      f (s.getD (4 * q) 0) (s.getD (4 * q + 1) 0) (s.getD (4 * q + 2) 0) (s.getD (4 * q + 3) 0) j := by
  have hdiv : (4 * q + j) / 4 = q := by omega
  have hmod : (4 * q + j) % 4 = j := by omega
  simp [mapColumns, Vector.getD, hdiv, hmod, show 4 * q + j < 16 by omega]

theorem invMixColumns_mixColumns (s : Block) : invMixColumns (mixColumns s) = s := by
  refine Vector.ext fun i hi => ?_
  obtain ⟨q, j, hq, hj, rfl⟩ : ∃ q j, q < 4 ∧ j < 4 ∧ i = 4 * q + j :=
    ⟨i / 4, i % 4, by omega, by omega, by omega⟩
  have hget : ∀ t : Block, t[4 * q + j] = t.getD (4 * q + j) 0 := fun t => by simp [Vector.getD, hi]
  have hmix : ∀ j, j < 4 → (mapColumns mixByte s).getD (4 * q + j) 0 = _ :=
    fun j hj => getD_mapColumns mixByte s q j hq hj
  have h0 := hmix 0 (by decide)
  rw [Nat.add_zero] at h0
  rw [hget, hget, invMixColumns, mixColumns, getD_mapColumns _ _ q j hq hj, h0, hmix 1 (by decide),
    hmix 2 (by decide), hmix 3 (by decide), invMixByte_mixByte _ _ _ _ j hj]
  interval_cases j <;> rfl

/-! ## Decryption undoes encryption -/

/-- The state of the encryption after `k` full rounds. -/
def encState (ctx : AesCtx) (input : Block) : Nat → Block
  | 0 => addRk ctx.rk 0 input
  | k + 1 => addRk ctx.rk (k + 1) (mixColumns (shiftRows (subBytes (encState ctx input k))))

theorem foldl_encRound (ctx : AesCtx) (input : Block) (k : Nat) (hk : k < ctx.nr) :
    (List.range' 1 k).foldl (encRound ctx) (addRk ctx.rk 0 input) = encState ctx input k := by
  induction k with
  | zero => rfl
  | succ k ih =>
    rw [List.range'_concat, List.foldl_append, ih (by omega)]
    simp [encRound, encState, Nat.add_comm 1 k, hk]

theorem aesEncryptBlock_eq (ctx : AesCtx) (input : Block) (n : Nat) (hn : ctx.nr = n + 1) :
    aesEncryptBlock ctx input =
      addRk ctx.rk (n + 1) (shiftRows (subBytes (encState ctx input n))) := by
  rw [aesEncryptBlock, hn, List.range'_concat, List.foldl_append,
    foldl_encRound ctx input n (by omega)]
  simp [encRound, hn, Nat.add_comm 1 n]

/-- Going down the rounds, the state is the encryption's state before its row shift. -/
theorem foldl_decRound (ctx : AesCtx) (input : Block) (k : Nat) :
    (List.range (k + 1)).reverse.foldl (decRound ctx) (shiftRows (subBytes (encState ctx input k))) =
      input := by
  induction k with
  | zero => simp [decRound, encState, invShiftRows_shiftRows, invSubBytes_subBytes, addRk_addRk]
  | succ k ih =>
    rw [List.range_succ, List.reverse_append, List.reverse_singleton, List.singleton_append,
      List.foldl_cons]
    have hround : decRound ctx (shiftRows (subBytes (encState ctx input (k + 1)))) (k + 1) =
        shiftRows (subBytes (encState ctx input k)) := by
      simp [decRound, encState, invShiftRows_shiftRows, invSubBytes_subBytes, addRk_addRk,
        invMixColumns_mixColumns]
    rw [hround]
    exact ih

theorem decrypt_encrypt (ctx : AesCtx) (hnr : 0 < ctx.nr) (input : Block) :
    aesDecryptBlock ctx (aesEncryptBlock ctx input) = input := by
  obtain ⟨n, hn⟩ : ∃ n, ctx.nr = n + 1 := Nat.exists_eq_succ_of_ne_zero (by omega)
  rw [aesEncryptBlock_eq ctx input n hn, aesDecryptBlock, hn, addRk_addRk]
  exact foldl_decRound ctx input n

theorem aesInitEnc_nr_pos (key : List Byte) (keyLen : Nat) : 0 < (aesInitEnc key keyLen).nr := by
  unfold aesInitEnc
  dsimp only
  split <;> omega

theorem finite_block : Finite Block := by
  apply Finite.of_injective (fun (b : Block) (i : Fin 16) => b[i].toFin)
  intro a b h
  refine Vector.ext fun i hi => ?_
  exact UInt8.toFin_inj.mp (congrFun h ⟨i, hi⟩)

/-- Encryption undoes decryption: a left inverse on the finite set of blocks is a right inverse. -/
theorem encrypt_decrypt (ctx : AesCtx) (hnr : 0 < ctx.nr) (input : Block) :
    aesEncryptBlock ctx (aesDecryptBlock ctx input) = input := by
  have hleft : Function.LeftInverse (aesDecryptBlock ctx) (aesEncryptBlock ctx) := decrypt_encrypt ctx hnr
  have := finite_block
  have hsurj : Function.Surjective (aesEncryptBlock ctx) := Finite.surjective_of_injective hleft.injective
  exact hleft.rightInverse_of_surjective hsurj input

/-- A key opens what it closes, and closes what it opens. -/
theorem aes_inverse (key : List Byte) (keyLen : Nat) (input : Block) :
    aesDecryptBlock (aesInitDec key keyLen) (aesEncryptBlock (aesInitEnc key keyLen) input) = input ∧
      aesEncryptBlock (aesInitEnc key keyLen) (aesDecryptBlock (aesInitDec key keyLen) input) = input :=
  ⟨decrypt_encrypt _ (aesInitEnc_nr_pos key keyLen) input, encrypt_decrypt _ (aesInitEnc_nr_pos key keyLen) input⟩

end SakuruBoot

import Mathlib.Data.Nat.NthRoot.Defs
import Mathlib.Data.Nat.Prime.Basic
import SakuruBoot.Lib.MerkleDamgard

/-!
# SHA-1, SHA-256 and SHA-512 after FIPS 180-4

The hash functions of the standard on words of `w` bits. The round constants and initial values of the SHA-2 family are
given as the standard derives them, from the roots of the first primes. Padding and the fold over the blocks are those
of `MerkleDamgard.digest`; `zeroPad_least` is the standard's rule for the number of zero bits.
-/

namespace Fips180
open CStr (Byte)
open Bytes

variable {w : Nat}

/-! ## Functions -/

def ch (x y z : BitVec w) : BitVec w := (x &&& y) ^^^ (~~~x &&& z)
def parity (x y z : BitVec w) : BitVec w := x ^^^ y ^^^ z
def maj (x y z : BitVec w) : BitVec w := (x &&& y) ^^^ (x &&& z) ^^^ (y &&& z)

/-- The `t`-th word of a block, high byte first. -/
def blockWord (w : Nat) (blk : List Byte) (t : Nat) : BitVec w := BitVec.ofNat w (beVal (slice blk (w / 8 * t) (w / 8)))

/-- The words of the chaining value, high bytes first. -/
def putWords (h : List (BitVec w)) : List Byte := h.flatMap fun v => be (w / 8) v.toNat

/-! ## SHA-1 -/

namespace Sha1

def f (t : Nat) (x y z : BitVec 32) : BitVec 32 :=
  if t < 20 then ch x y z else if t < 40 then parity x y z else if t < 60 then maj x y z else parity x y z

def k (t : Nat) : BitVec 32 :=
  if t < 20 then 0x5a827999 else if t < 40 then 0x6ed9eba1 else if t < 60 then 0x8f1bbcdc else 0xca62c1d6

/-- The message schedule `W_t`. -/
def schedule (m : Nat → BitVec 32) (t : Nat) : BitVec 32 :=
  if t < 16 then m t
  else (schedule m (t - 3) ^^^ schedule m (t - 8) ^^^ schedule m (t - 14) ^^^ schedule m (t - 16)).rotateLeft 1

/-- The working variables. -/
structure Work where
  a : BitVec 32
  b : BitVec 32
  c : BitVec 32
  d : BitVec 32
  e : BitVec 32

def Work.ofList (h : List (BitVec 32)) : Work := ⟨h.getD 0 0, h.getD 1 0, h.getD 2 0, h.getD 3 0, h.getD 4 0⟩
def Work.toList (v : Work) : List (BitVec 32) := [v.a, v.b, v.c, v.d, v.e]

def step (m : Nat → BitVec 32) (v : Work) (t : Nat) : Work :=
  ⟨v.a.rotateLeft 5 + f t v.b v.c v.d + v.e + k t + schedule m t, v.a, v.b.rotateLeft 30, v.c, v.d⟩

def compress (h : List (BitVec 32)) (blk : List Byte) : List (BitVec 32) :=
  List.zipWith (· + ·) ((List.range 80).foldl (step (blockWord 32 blk)) (Work.ofList h)).toList h

end Sha1

theorem lenBytes64_pos : 0 < 8 := Nat.succ_pos 7
theorem lenBytes64_fits : 8 + 1 ≤ 64 := Nat.le_add_left 9 55
theorem lenBytes128_pos : 0 < 16 := Nat.succ_pos 15
theorem lenBytes128_fits : 16 + 1 ≤ 128 := Nat.le_add_left 17 111

def sha1 : MerkleDamgard.Scheme (List (BitVec 32)) where
  blockSize := 64
  lenBytes := 8
  iv := [0x67452301, 0xefcdab89, 0x98badcfe, 0x10325476, 0xc3d2e1f0]
  compress := Sha1.compress
  output := putWords
  lenBytes_pos := lenBytes64_pos
  fits := lenBytes64_fits

/-! ## SHA-2 -/

/-- The first `w` bits of the fractional part of the `r`-th root of `n`. -/
def fracRoot (r w n : Nat) : BitVec w := BitVec.ofNat w (Nat.nthRoot r (n * 2 ^ (r * w)))

/-- The primes among the first 410 numbers; these are 80. -/
def primes : List Nat := (List.range 410).filter fun p => Nat.Prime p

/-- The functions in which SHA-256 and SHA-512 differ, and the number of rounds. -/
structure Sha2 (w : Nat) where
  rounds : Nat
  bigSigma0 : BitVec w → BitVec w
  bigSigma1 : BitVec w → BitVec w
  smallSigma0 : BitVec w → BitVec w
  smallSigma1 : BitVec w → BitVec w

namespace Sha2

variable (p : Sha2 w)

def k (w t : Nat) : BitVec w := fracRoot 3 w (primes.getD t 0)

def schedule (m : Nat → BitVec w) (t : Nat) : BitVec w :=
  if t < 16 then m t
  else p.smallSigma1 (schedule m (t - 2)) + schedule m (t - 7) + p.smallSigma0 (schedule m (t - 15)) + schedule m (t - 16)

structure Work (w : Nat) where
  a : BitVec w
  b : BitVec w
  c : BitVec w
  d : BitVec w
  e : BitVec w
  f : BitVec w
  g : BitVec w
  h : BitVec w

def Work.ofList (h : List (BitVec w)) : Work w :=
  ⟨h.getD 0 0, h.getD 1 0, h.getD 2 0, h.getD 3 0, h.getD 4 0, h.getD 5 0, h.getD 6 0, h.getD 7 0⟩

def Work.toList (v : Work w) : List (BitVec w) := [v.a, v.b, v.c, v.d, v.e, v.f, v.g, v.h]

def step (m : Nat → BitVec w) (v : Work w) (t : Nat) : Work w :=
  let t1 := v.h + p.bigSigma1 v.e + ch v.e v.f v.g + k w t + p.schedule m t
  let t2 := p.bigSigma0 v.a + maj v.a v.b v.c
  ⟨t1 + t2, v.a, v.b, v.c, v.d + t1, v.e, v.f, v.g⟩

def compress (h : List (BitVec w)) (blk : List Byte) : List (BitVec w) :=
  List.zipWith (· + ·) ((List.range p.rounds).foldl (p.step (blockWord w blk)) (Work.ofList h)).toList h

def iv (w : Nat) : List (BitVec w) := (List.range 8).map fun i => fracRoot 2 w (primes.getD i 0)

end Sha2

def sha256Params : Sha2 32 where
  rounds := 64
  bigSigma0 x := x.rotateRight 2 ^^^ x.rotateRight 13 ^^^ x.rotateRight 22
  bigSigma1 x := x.rotateRight 6 ^^^ x.rotateRight 11 ^^^ x.rotateRight 25
  smallSigma0 x := x.rotateRight 7 ^^^ x.rotateRight 18 ^^^ (x >>> 3)
  smallSigma1 x := x.rotateRight 17 ^^^ x.rotateRight 19 ^^^ (x >>> 10)

def sha512Params : Sha2 64 where
  rounds := 80
  bigSigma0 x := x.rotateRight 28 ^^^ x.rotateRight 34 ^^^ x.rotateRight 39
  bigSigma1 x := x.rotateRight 14 ^^^ x.rotateRight 18 ^^^ x.rotateRight 41
  smallSigma0 x := x.rotateRight 1 ^^^ x.rotateRight 8 ^^^ (x >>> 7)
  smallSigma1 x := x.rotateRight 19 ^^^ x.rotateRight 61 ^^^ (x >>> 6)

def sha256 : MerkleDamgard.Scheme (List (BitVec 32)) where
  blockSize := 64
  lenBytes := 8
  iv := Sha2.iv 32
  compress := sha256Params.compress
  output := putWords
  lenBytes_pos := lenBytes64_pos
  fits := lenBytes64_fits

def sha512 : MerkleDamgard.Scheme (List (BitVec 64)) where
  blockSize := 128
  lenBytes := 16
  iv := Sha2.iv 64
  compress := sha512Params.compress
  output := putWords
  lenBytes_pos := lenBytes128_pos
  fits := lenBytes128_fits

/-! ## Padding -/

/-- Behind the `l` bits of the message stand a one and the least number of zeros, so that the length field ends a block. -/
theorem zeroPad_least {σ : Type} (H : MerkleDamgard.Scheme σ) (n : Nat) :
    IsLeast {k | (8 * n + 1 + k) % (8 * H.blockSize) = 8 * (H.blockSize - H.lenBytes)}
      (7 + 8 * MerkleDamgard.zeroPad H n) := by
  obtain ⟨hlt, hmod⟩ := MerkleDamgard.zeroPad_spec (H := H) n
  have hL := H.fits
  have hL0 := H.lenBytes_pos
  constructor
  · show (8 * n + 1 + (7 + 8 * MerkleDamgard.zeroPad H n)) % (8 * H.blockSize) = _
    have hsum : 8 * n + 1 + (7 + 8 * MerkleDamgard.zeroPad H n) = 8 * (n + 1 + MerkleDamgard.zeroPad H n) := by omega
    rw [hsum, Nat.mul_mod_mul_left, hmod]
  · intro k hk
    by_contra hless
    have hsum : 8 * n + 1 + k + (7 + 8 * MerkleDamgard.zeroPad H n - k) = 8 * (n + 1 + MerkleDamgard.zeroPad H n) := by
      omega
    -- a smaller number of zeros would differ by whole blocks, but the difference is less than a block
    have hsame : 8 * n + 1 + k ≡ 8 * n + 1 + k + (7 + 8 * MerkleDamgard.zeroPad H n - k) [MOD 8 * H.blockSize] := by
      rw [hsum, Nat.ModEq, Nat.mul_mod_mul_left, hmod]
      exact hk
    have hdvd := (Nat.modEq_iff_dvd' (Nat.le_add_right _ _)).mp hsame
    rw [Nat.add_sub_cancel_left] at hdvd
    have hle := Nat.le_of_dvd (by omega) hdvd
    omega

/-! ## The tables -/

theorem primes_eq : primes =
    [2, 3, 5, 7, 11, 13, 17, 19, 23, 29, 31, 37, 41, 43, 47, 53, 59, 61, 67, 71, 73, 79, 83, 89, 97, 101, 103, 107, 109,
      113, 127, 131, 137, 139, 149, 151, 157, 163, 167, 173, 179, 181, 191, 193, 197, 199, 211, 223, 227, 229, 233, 239,
      241, 251, 257, 263, 269, 271, 277, 281, 283, 293, 307, 311, 313, 317, 331, 337, 347, 349, 353, 359, 367, 373, 379,
      383, 389, 397, 401, 409] := by
  -- a number below 410 with a proper divisor has one up to 20
  have hprime : ∀ p ∈ List.range 410, decide (Nat.Prime p) =
      (decide (2 ≤ p) && (List.range' 2 19).all fun m => decide (Nat.sqrt p < m) || decide (p % m ≠ 0)) := by
    intro p hp
    have hsqrt : Nat.sqrt p < 21 := Nat.sqrt_lt'.mpr ((List.mem_range.mp hp).trans (by decide))
    rw [Bool.eq_iff_iff, decide_eq_true_iff, Nat.prime_def_le_sqrt, Bool.and_eq_true, decide_eq_true_iff, List.all_eq_true]
    apply and_congr_right
    intro _
    constructor
    · intro h m hm
      have hm := List.mem_range'_1.mp hm
      rcases Nat.lt_or_ge (Nat.sqrt p) m with hlt | hge
      · rw [decide_eq_true hlt, Bool.true_or]
      · have hne : p % m ≠ 0 := fun h0 => h m hm.1 hge (Nat.dvd_of_mod_eq_zero h0)
        rw [decide_eq_true hne, Bool.or_true]
    · intro h m h2 hle hdvd
      have hm := h m (List.mem_range'_1.mpr ⟨h2, by omega⟩)
      rw [decide_eq_false (Nat.not_lt.mpr hle), Bool.false_or, decide_eq_true_iff] at hm
      exact hm (Nat.mod_eq_zero_of_dvd hdvd)
  rw [primes, List.filter_congr hprime]
  decide +kernel

end Fips180

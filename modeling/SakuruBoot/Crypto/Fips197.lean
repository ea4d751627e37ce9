import SakuruBoot.Lib.BinaryPoly
import SakuruBoot.Lib.CStr

/-!
# AES after FIPS 197

The cipher of the standard. Bytes are elements of the quotient of `(ZMod 2)[X]` by the polynomial of section 4.2, the
S-box is the multiplicative inverse followed by the affine map of section 5.1.1, and the columns of the state are
polynomials over the field modulo `x^4 + 1`. States are addressed as in the standard, by row and column; indices are
modulo 4.
-/

namespace Fips197
open CStr (Byte)
open BinaryPoly Polynomial

/-! ## The field -/

/-- The polynomial of the standard. -/
noncomputable def modulus : (ZMod 2)[X] := X ^ 8 + X ^ 4 + X ^ 3 + X + 1

abbrev Gf256 : Type := AdjoinRoot modulus

/-- The element with the bits of a byte as its coefficients. -/
noncomputable def element (b : Byte) : Gf256 := AdjoinRoot.mk modulus (bits 8 b.toNat)

/-- The byte of an element. -/
noncomputable def byteOf (x : Gf256) : Byte := Function.invFun element x

/-- The product of two bytes. -/
noncomputable def mul (a b : Byte) : Byte := byteOf (element a * element b)

/-- The multiplicative inverse; zero is its own. -/
noncomputable def inv (b : Byte) : Byte := byteOf (Ring.inverse (element b))

/-! ## The S-box -/

/-- Bit `i` after the affine map. -/
def affineBit (b : Byte) (i : Nat) : Bool :=
  ((b.toNat.testBit i ^^ b.toNat.testBit ((i + 4) % 8)) ^^ (b.toNat.testBit ((i + 5) % 8) ^^ b.toNat.testBit ((i + 6) % 8)))
    ^^ (b.toNat.testBit ((i + 7) % 8) ^^ Nat.testBit 0x63 i)

def affine (b : Byte) : Byte := (((List.range 8).map fun i => if affineBit b i then 2 ^ i else 0).sum).toUInt8

noncomputable def sbox (b : Byte) : Byte := affine (inv b)

noncomputable def invSbox (b : Byte) : Byte := Function.invFun sbox b

/-! ## The state -/

/-- A byte for each row and column. -/
abbrev State : Type := Fin 4 → Fin 4 → Byte

abbrev Word : Type := Fin 4 → Byte

noncomputable def subBytes (s : State) : State := fun r c => sbox (s r c)
noncomputable def invSubBytes (s : State) : State := fun r c => invSbox (s r c)

/-- Row `r` moves `r` columns to the left. -/
def shiftRows (s : State) : State := fun r c => s r (c + r)
def invShiftRows (s : State) : State := fun r c => s r (c - r)

/-- Every column times the polynomial with the coefficients `a`, modulo `x^4 + 1`. -/
noncomputable def mixWith (a : Word) (s : State) : State := fun r c => byteOf (∑ j, element (a (r - j)) * element (s j c))

noncomputable def mixColumns (s : State) : State := mixWith ![0x02, 0x01, 0x01, 0x03] s
noncomputable def invMixColumns (s : State) : State := mixWith ![0x0e, 0x09, 0x0d, 0x0b] s

/-- The words `4 * round` to `4 * round + 3` of the key schedule are the columns that are added. -/
def addRoundKey (w : Nat → Word) (round : Nat) (s : State) : State := fun r c => s r c ^^^ w (4 * round + c) r

/-! ## The key schedule -/

def rotWord (w : Word) : Word := fun i => w (i + 1)
noncomputable def subWord (w : Word) : Word := fun i => sbox (w i)

/-- The round constant: a power of `x`, and three zero bytes. -/
noncomputable def rcon (i : Nat) : Word := ![byteOf (AdjoinRoot.root modulus ^ (i - 1)), 0, 0, 0]

/-- The words of the key schedule of a key of `nk` words. -/
noncomputable def keyExpansion (key : List Byte) (nk : Nat) (i : Nat) : Word :=
  if i < nk ∨ nk = 0 then fun j => key.getD (4 * i + j) 0
  else
    let temp := keyExpansion key nk (i - 1)
    let temp : Word :=
      if i % nk = 0 then fun j => subWord (rotWord temp) j ^^^ rcon (i / nk) j
      else if 6 < nk ∧ i % nk = 4 then subWord temp
      else temp
    fun j => keyExpansion key nk (i - nk) j ^^^ temp j
termination_by i
decreasing_by all_goals omega

/-! ## The cipher -/

/-- The number of rounds. -/
def rounds (nk : Nat) : Nat := nk + 6

noncomputable def cipherRound (w : Nat → Word) (s : State) (round : Nat) : State :=
  addRoundKey w round (mixColumns (shiftRows (subBytes s)))

noncomputable def cipher (nr : Nat) (w : Nat → Word) (input : State) : State :=
  addRoundKey w nr (shiftRows (subBytes ((List.range' 1 (nr - 1)).foldl (cipherRound w) (addRoundKey w 0 input))))

noncomputable def invCipherRound (w : Nat → Word) (s : State) (round : Nat) : State :=
  invMixColumns (addRoundKey w round (invSubBytes (invShiftRows s)))

noncomputable def invCipher (nr : Nat) (w : Nat → Word) (input : State) : State :=
  addRoundKey w 0 (invSubBytes (invShiftRows
    ((List.range' 1 (nr - 1)).reverse.foldl (invCipherRound w) (addRoundKey w nr input))))

end Fips197

import SakuruBoot.Crypto.Aes
import SakuruBoot.Crypto.Sha

/-!
# XTS and CBC (`crypto/cipher.c`)

The two disk-encryption modes over AES blocks, and CBC encryption as the format defines it. Block by block, the code's
decryption undoes it and it undoes the code's (`cbcBlocks_cbcEncryptBlocks`, `cbcEncryptBlocks_cbcBlocks`).
-/

namespace SakuruBoot
open CStr (Byte)
open Bytes

inductive CipherMode
  | xts
  | cbcPlain
  | cbcPlain64
  | cbcEssiv
  deriving DecidableEq, Repr

def cipherModeId (m : List Byte) : CipherMode :=
  if CStr.strStarts m (CStr.lit "xts") then .xts
  else if CStr.strStarts m (CStr.lit "cbc-essiv") then .cbcEssiv
  else if CStr.strStarts m (CStr.lit "cbc-plain64") then .cbcPlain64
  else if CStr.strStarts m (CStr.lit "cbc-plain") then .cbcPlain
  else .xts

def xorBlock (a b : Block) : Block := Vector.zipWith (· ^^^ ·) a b

/-! ## XTS -/

/-- The byte loop of `gf128_mul_x_le` with the carry into the next byte. -/
def gf128Shift : List Byte → Byte → List Byte × Byte
  | [], carry => ([], carry)
  | t :: ts, carry =>
    let r := gf128Shift ts ((t >>> 7) &&& 1)
    (((t <<< 1) ||| carry) :: r.1, r.2)

def gf128MulX (t : Block) : Block :=
  let r := gf128Shift t.toList 0
  match r.1 with
  | [] => t
  | t0 :: ts => Block.ofBytes ((if r.2 != 0 then t0 ^^^ 0x87 else t0) :: ts)

structure XtsCtx where
  data : AesCtx
  tweak : AesCtx
  deriving DecidableEq

/-- `key` is everything from the key pointer on: the tweak key is read at half the length given. -/
def xtsInit (key : List Byte) (keyLen : Nat) (decrypt : Bool) : XtsCtx :=
  let half := keyLen / 2
  { data := if decrypt then aesInitDec key half else aesInitEnc key half
    tweak := aesInitEnc (key.drop half) half }

/-- The block loop of `xts_crypt`. -/
def xtsBlocks (ctx : XtsCtx) (decrypt : Bool) : Nat → Block → List Byte → List Byte
  | 0, _, _ => []
  | n + 1, tweak, input =>
    let x := xorBlock (Block.ofBytes input) tweak
    let y := if decrypt then aesDecryptBlock ctx.data x else aesEncryptBlock ctx.data x
    (xorBlock y tweak).toList ++ xtsBlocks ctx decrypt n (gf128MulX tweak) (input.drop 16)

/-- The bytes `xts_crypt` writes: those of the whole blocks of the first `len` bytes. -/
def xtsCrypt (ctx : XtsCtx) (sector : Nat) (input : List Byte) (len : Nat) (decrypt : Bool) :
    List Byte :=
  xtsBlocks ctx decrypt (len / 16) (aesEncryptBlock ctx.tweak (Block.ofBytes (le 8 sector))) input

/-! ## CBC -/

structure CbcCtx where
  enc : AesCtx
  dec : AesCtx
  mode : CipherMode
  essiv : AesCtx
  deriving DecidableEq

/-- `essivHash` is the length passed with a non-null ESSIV pointer; without it the IV cipher keeps
what the context held before. -/
def cbcInit (old : AesCtx) (key : List Byte) (keyLen : Nat) (mode : CipherMode)
    (essivHash : Option Nat) : CbcCtx :=
  { enc := aesInitEnc key keyLen
    dec := aesInitDec key keyLen
    mode := mode
    essiv :=
      match essivHash with
      | some n =>
        if mode = .cbcEssiv ∧ 32 ≤ n then aesInitEnc (sha256 (key.take keyLen)) 32 else old
      | none => old }

def makeCbcIv (ctx : CbcCtx) (sector : Nat) : Block :=
  match ctx.mode with
  | .cbcPlain => Block.ofBytes (le 4 sector)
  | .cbcPlain64 => Block.ofBytes (le 8 sector)
  | .cbcEssiv => aesEncryptBlock ctx.essiv (Block.ofBytes (le 8 sector))
  | .xts => Block.ofBytes []

/-- The block loop of `cbc_decrypt_sector`. -/
def cbcBlocks (ctx : AesCtx) : Nat → Block → List Byte → List Byte
  | 0, _, _ => []
  | n + 1, iv, input =>
    let c := Block.ofBytes input
    (xorBlock (aesDecryptBlock ctx c) iv).toList ++ cbcBlocks ctx n c (input.drop 16)

/-- The bytes `cbc_decrypt_sector` writes: those of the whole blocks of the first `len` bytes. -/
def cbcDecryptSector (ctx : CbcCtx) (sector : Nat) (input : List Byte) (len : Nat) : List Byte :=
  cbcBlocks ctx.dec (len / 16) (makeCbcIv ctx sector) input

/-- CBC encryption: each block is chained to the ciphertext before it. -/
def cbcEncryptBlocks (ctx : AesCtx) : Nat → Block → List Byte → List Byte
  | 0, _, _ => []
  | n + 1, iv, input =>
    let c := aesEncryptBlock ctx (xorBlock (Block.ofBytes input) iv)
    c.toList ++ cbcEncryptBlocks ctx n c (input.drop 16)

/-! ## Lengths and inverses -/

@[simp] theorem length_toList_block (b : Block) : b.toList.length = 16 := by simp

theorem length_xtsBlocks (ctx : XtsCtx) (decrypt : Bool) (n : Nat) (tweak : Block) (input : List Byte) :
    (xtsBlocks ctx decrypt n tweak input).length = 16 * n := by
  induction n generalizing tweak input with
  | zero => rfl
  | succ n ih => simp only [xtsBlocks, List.length_append, length_toList_block, ih]; omega

theorem length_cbcBlocks (ctx : AesCtx) (n : Nat) (iv : Block) (input : List Byte) :
    (cbcBlocks ctx n iv input).length = 16 * n := by
  induction n generalizing iv input with
  | zero => rfl
  | succ n ih => simp only [cbcBlocks, List.length_append, length_toList_block, ih]; omega

theorem length_cbcEncryptBlocks (ctx : AesCtx) (n : Nat) (iv : Block) (input : List Byte) :
    (cbcEncryptBlocks ctx n iv input).length = 16 * n := by
  induction n generalizing iv input with
  | zero => rfl
  | succ n ih => simp only [cbcEncryptBlocks, List.length_append, length_toList_block, ih]; omega

theorem ofBytes_append (b : Block) (rest : List Byte) : Block.ofBytes (b.toList ++ rest) = b := by
  refine Vector.ext fun i hi => ?_
  simp [Block.ofBytes, List.getD_eq_getElem?_getD, List.getElem?_append]

theorem toList_ofBytes {p : List Byte} (hp : 16 ≤ p.length) : (Block.ofBytes p).toList = p.take 16 := by
  refine List.ext_getElem (by simp; omega) fun i h1 h2 => ?_
  have hi : i < p.length := by simp at h1; omega
  simp [Block.ofBytes, hi]

theorem xorBlock_cancel (a b : Block) : xorBlock (xorBlock a b) b = a := by
  refine Vector.ext fun i hi => ?_
  simp [xorBlock]

theorem xtsBlocks_undo (decrypt : Bool) {ctx back : XtsCtx} (hdata : back.data = ctx.data) (hnr : 0 < ctx.data.nr) (n : Nat)
    (t : Block) {input : List Byte} (hlen : 16 * n ≤ input.length) (rest : List Byte) :
    xtsBlocks back (!decrypt) n t (xtsBlocks ctx decrypt n t input ++ rest) = input.take (16 * n) := by
  induction n generalizing t input with
  | zero => simp [xtsBlocks]
  | succ n ih =>
    have hdrop : 16 * n ≤ (input.drop 16).length := by rw [List.length_drop]; omega
    have hblock : ∀ x,
      (if (!decrypt) = true then aesDecryptBlock ctx.data (if decrypt = true then aesDecryptBlock ctx.data x
        else aesEncryptBlock ctx.data x) else aesEncryptBlock ctx.data (if decrypt = true then aesDecryptBlock ctx.data x
        else aesEncryptBlock ctx.data x)) = x := by
      intro x
      cases decrypt with
      | false => exact decrypt_encrypt _ hnr x
      | true => exact encrypt_decrypt _ hnr x
    simp only [xtsBlocks]
    rw [List.append_assoc, ofBytes_append, List.drop_append_of_le_length (by simp), List.drop_of_length_le (by simp),
      List.nil_append, ih _ hdrop, xorBlock_cancel, hdata, hblock, xorBlock_cancel, toList_ofBytes (by omega), Nat.mul_succ,
      Nat.add_comm, List.take_add]

theorem cbcBlocks_cbcEncryptBlocks {ctx : AesCtx} (hnr : 0 < ctx.nr) (n : Nat) (iv : Block)
    (input : List Byte) (hlen : 16 * n ≤ input.length) (rest : List Byte) :
    cbcBlocks ctx n iv (cbcEncryptBlocks ctx n iv input ++ rest) = input.take (16 * n) := by
  induction n generalizing iv input with
  | zero => simp [cbcBlocks]
  | succ n ih =>
    have hdrop : 16 * n ≤ (input.drop 16).length := by rw [List.length_drop]; omega
    rw [cbcEncryptBlocks, cbcBlocks, List.append_assoc, ofBytes_append, List.drop_append_of_le_length (by simp),
      List.drop_of_length_le (by simp), List.nil_append, ih _ _ hdrop, decrypt_encrypt ctx hnr,
      xorBlock_cancel, toList_ofBytes (by omega), Nat.mul_succ, Nat.add_comm, List.take_add]

theorem cbcEncryptBlocks_cbcBlocks {ctx : AesCtx} (hnr : 0 < ctx.nr) (n : Nat) (iv : Block)
    (input : List Byte) (hlen : 16 * n ≤ input.length) (rest : List Byte) :
    cbcEncryptBlocks ctx n iv (cbcBlocks ctx n iv input ++ rest) = input.take (16 * n) := by
  induction n generalizing iv input with
  | zero => simp [cbcEncryptBlocks]
  | succ n ih =>
    have hdrop : 16 * n ≤ (input.drop 16).length := by rw [List.length_drop]; omega
    rw [cbcBlocks, cbcEncryptBlocks, List.append_assoc, ofBytes_append, xorBlock_cancel, encrypt_decrypt ctx hnr,
      List.drop_append_of_le_length (by simp), List.drop_of_length_le (by simp), List.nil_append, ih _ _ hdrop,
      toList_ofBytes (by omega), Nat.mul_succ, Nat.add_comm, List.take_add]

theorem cbcBlocks_iv (ctx : AesCtx) (n : Nat) (iv iv' : Block) (input : List Byte) :
    cbcBlocks ctx n iv' input =
      xorBytes (cbcBlocks ctx n iv input) ((xorBlock iv iv').toList ++ List.replicate (16 * n - 16) 0) := by
  cases n with
  | zero => rfl
  | succ n =>
    have hzero : ∀ l : List Byte, xorBytes l (List.replicate l.length 0) = l := by
      intro l
      induction l with
      | nil => rfl
      | cons x l ih => exact congrArg₂ List.cons UInt8.xor_zero ih
    have hrest := hzero (cbcBlocks ctx n (Block.ofBytes input) (input.drop 16))
    rw [length_cbcBlocks] at hrest
    have hblock : ∀ x : Block, xorBytes (xorBlock x iv).toList (xorBlock iv iv').toList = (xorBlock x iv').toList := by
      intro x
      refine List.ext_getElem (by simp) fun i h1 h2 => ?_
      simp [xorBytes, xorBlock, UInt8.xor_assoc]
    rw [cbcBlocks, cbcBlocks, show 16 * (n + 1) - 16 = 16 * n by omega, xorBytes, List.zipWith_append (by simp), ← xorBytes,
      ← xorBytes, hblock, hrest]

end SakuruBoot

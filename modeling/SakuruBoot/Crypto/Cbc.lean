import SakuruBoot.Crypto.CipherRun

/-!
# CBC over a sector

The initial vectors of the three modes, the encryption of a sector under them, and that `cbc_decrypt_sector` gives the
plaintext back on every sector of whole blocks but the longest one (`cbc_returns_iff`).
-/

namespace SakuruBoot
open CStr (Byte)
open Bytes

inductive CbcMode
  | plain
  | plain64
  | essiv

def CbcMode.mode : CbcMode → CipherMode
  | plain => .cbcPlain
  | plain64 => .cbcPlain64
  | essiv => .cbcEssiv

/-- The initial vector: the low 32 bits of the sector number, the whole number, or the number under the digest of the
key. -/
def sectorIv (mode : CbcMode) (key : List Byte) (sector : Nat) : Block :=
  match mode with
  | .plain => Block.ofBytes (le 16 (sector % 2 ^ 32))
  | .plain64 => Block.ofBytes (le 16 (sector % 2 ^ 64))
  | .essiv => aesEncryptBlock (aesInitEnc (hashDigest .sha256 key) 32) (Block.ofBytes (le 16 (sector % 2 ^ 64)))

/-- CBC encryption of the whole blocks of a sector. -/
def cbcEncrypt (mode : CbcMode) (key : List Byte) (sector : Nat) (plain : List Byte) : List Byte :=
  cbcEncryptBlocks (aesInitEnc key key.length) (plain.length / 16) (sectorIv mode key sector) plain

/-- `cbc_init` is told to key the IV cipher in the mode that needs it. -/
def EssivKeyed (mode : CbcMode) (essivHash : Option Nat) : Prop := mode.mode = .cbcEssiv → ∃ n, 32 ≤ n ∧ essivHash = some n

/-- Whatever the context and the output buffer hold, decrypting the encrypted sector into another buffer ends with the
plaintext there. -/
def CbcReturns (mode : CbcMode) (key : List Byte) (sector : Nat) (plain : List Byte) : Prop :=
  ∀ (old : AesCtx) (essivHash : Option Nat) (output : List Byte), EssivKeyed mode essivHash →
    output.length = plain.length → ∃ fuel,
      cbcDecryptRun fuel (cbcInit old key key.length mode.mode essivHash) sector
        (.apart (cbcEncrypt mode key sector plain) output) plain.length =
          some (.apart (cbcEncrypt mode key sector plain) plain)

section
variable {mode : CbcMode} {key : List Byte} {sector : Nat} {plain : List Byte}

theorem makeCbcIv_eq (old : AesCtx) {essivHash : Option Nat} (hessiv : EssivKeyed mode essivHash) :
    makeCbcIv (cbcInit old key key.length mode.mode essivHash) sector = sectorIv mode key sector := by
  have hnumber : Block.ofBytes (le 8 sector) = Block.ofBytes (le 16 (sector % 2 ^ 64)) := ofBytes_le (by decide) sector
  cases mode with
  | plain => exact ofBytes_le (by decide) sector
  | plain64 => exact hnumber
  | essiv =>
    obtain ⟨n, hn, rfl⟩ := hessiv rfl
    have hdigest : sha256 (key.take key.length) = hashDigest .sha256 key := by
      rw [List.take_length]
      exact hashCompute_eq .sha256 key
    simp only [makeCbcIv, cbcInit, CbcMode.mode, hn, and_self, if_true, hdigest, hnumber, sectorIv]

theorem length_cbcEncrypt (hblocks : 16 ∣ plain.length) : (cbcEncrypt mode key sector plain).length = plain.length := by
  rw [cbcEncrypt, length_cbcEncryptBlocks, Nat.mul_div_cancel' hblocks]

theorem cbcDecryptSector_cbcEncrypt (old : AesCtx) {essivHash : Option Nat} (hessiv : EssivKeyed mode essivHash)
    (hblocks : 16 ∣ plain.length) :
    cbcDecryptSector (cbcInit old key key.length mode.mode essivHash) sector (cbcEncrypt mode key sector plain)
      plain.length = plain := by
  have hwhole : 16 * (plain.length / 16) = plain.length := Nat.mul_div_cancel' hblocks
  have hchain := cbcBlocks_cbcEncryptBlocks (aesInitEnc_nr_pos key key.length) (plain.length / 16)
    (sectorIv mode key sector) plain hwhole.le []
  rw [List.append_nil, hwhole, List.take_length] at hchain
  rw [cbcDecryptSector, makeCbcIv_eq old hessiv]
  exact hchain

theorem not_cbcReturns (hblocks : 16 ∣ plain.length) (hlen : plain.length < 2 ^ 32)
    (hwrap : 2 ^ 32 ≤ 16 * (plain.length / 16 + 1)) : ¬ CbcReturns mode key sector plain := by
  intro hreturns
  obtain ⟨fuel, hrun⟩ := hreturns (aesInitEnc [] 0) (some 32) plain (fun _ => ⟨32, le_rfl, rfl⟩) rfl
  have hsize : (cbcEncrypt mode key sector plain).length = plain.length := length_cbcEncrypt hblocks
  rw [cbcDecryptRun_wraps (by rw [hsize]; exact Nat.mul_div_le _ _) (Nat.mul_div_le _ _) _ _ hlen hsize hwrap] at hrun
  cases hrun

/-- The sector comes back exactly when it is not the one of `2 ^ 32 - 16` bytes, where the check of the loop wraps. -/
theorem cbc_returns_iff (hblocks : 16 ∣ plain.length) (hlen : plain.length < 2 ^ 32) :
    CbcReturns mode key sector plain ↔ plain.length ≠ 2 ^ 32 - 16 := by
  have hlt : 16 * (plain.length / 16 + 1) < 2 ^ 32 ↔ plain.length ≠ 2 ^ 32 - 16 := by omega
  rw [← hlt]
  constructor
  · intro hreturns
    by_contra hwrap
    exact not_cbcReturns hblocks hlen (Nat.not_lt.mp hwrap) hreturns
  · intro hwrap old essivHash output hessiv hout
    have hwhole : 16 * (plain.length / 16) = plain.length := Nat.mul_div_cancel' hblocks
    have hrun : cbcDecryptRun _ (cbcInit old key key.length mode.mode essivHash) sector
        (.apart (cbcEncrypt mode key sector plain) output) plain.length = some _ :=
      cbcDecryptRun_eq (by rw [length_cbcEncrypt hblocks]; exact hwhole.le) (by omega) _ sector hwrap
    rw [cbcDecryptSector_cbcEncrypt old hessiv hblocks] at hrun
    refine ⟨_, hrun.trans ?_⟩
    rw [CryptBufs.after, List.drop_of_length_le hout.le, List.append_nil]

end

/-- Two blocks in the ESSIV mode. -/
theorem cbc_returns_two : CbcReturns .essiv (List.replicate 16 7) 5 (List.replicate 32 1) :=
  (cbc_returns_iff (by decide) (by decide)).mpr (by decide)

/-- The longest sector a 32-bit length can hold. -/
theorem cbc_longest_wraps : ¬ CbcReturns .plain (List.replicate 16 0) 0 (List.replicate (2 ^ 32 - 16) 0) :=
  not_cbcReturns (by rw [List.length_replicate]; decide) (by rw [List.length_replicate]; decide)
    (by rw [List.length_replicate]; decide)

end SakuruBoot

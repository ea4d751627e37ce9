import SakuruBoot.Luks.Luks1Format

/-!
# The key material of a LUKS1 slot

`decrypt_key_material` undoes an encryption of its own (`bootEncryptArea`): in XTS mode the whole slot key is the data
key and the bytes behind it are the tweak key, and the initial vectors of ESSIV come from the cipher context that the
stack happens to hold. Decryption and this encryption are inverse to each other (`decryptedArea_boot`,
`boot_decryptedArea`). With plain initial vectors it is the encryption of the format; with ESSIV the first block of every
sector comes out masked (`decryptedArea_essiv`).
-/

namespace SakuruBoot
open CStr (Byte u32)
open Bytes

namespace Luks1Format

/-- The encryption of a sector that the code undoes, with `tail` behind the slot key. -/
def bootEncryptSector (essiv : AesCtx) (tail : List Byte) (mode : CipherMode) (key : List Byte) (i : Nat)
    (sector : List Byte) : List Byte :=
  match mode with
  | .xts => encryptSector .xts (key ++ tail) i sector
  | .cbcEssiv =>
    cbcEncryptBlocks (aesInitEnc key key.length) 32 (aesEncryptBlock essiv (Block.ofBytes (le 8 i))) sector
  | mode => encryptSector mode key i sector

def bootEncryptArea (essiv : AesCtx) (tail : List Byte) (mode : CipherMode) (key plain : List Byte) : List Byte :=
  (List.range (plain.length / 512)).flatMap fun i =>
    bootEncryptSector essiv tail mode key i (slice plain (512 * i) 512)

/-- What the other context adds to each sector: the difference of the two initial vectors, to its first block. -/
def essivMask (essiv : AesCtx) (key : List Byte) (n : Nat) : List Byte :=
  (List.range n).flatMap fun i =>
    (xorBlock (aesEncryptBlock (aesInitEnc (sha256 key) 32) (Block.ofBytes (le 8 i)))
      (aesEncryptBlock essiv (Block.ofBytes (le 8 i)))).toList ++ List.replicate 496 0

end Luks1Format

open Luks1Format

/-! ## Keys at the start of a buffer -/

theorem aesInitEnc_congr {key key' : List Byte} {n : Nat}
    (h : ∀ i, 4 * i + 4 ≤ n → bytesToWord key i = bytesToWord key' i) :
    aesInitEnc key n = aesInitEnc key' n := by
  have hwords : (List.range (n / 4)).map (bytesToWord key) = (List.range (n / 4)).map (bytesToWord key') := by
    refine List.map_congr_left fun i hi => h i ?_
    have hi := List.mem_range.mp hi
    omega
  simp only [aesInitEnc, hwords]

theorem aesInitEnc_append {key : List Byte} {n : Nat} (h : n ≤ key.length) (rest : List Byte) :
    aesInitEnc (key ++ rest) n = aesInitEnc key n := by
  refine aesInitEnc_congr fun i hi => ?_
  have hle : 4 * i + 4 ≤ key.length := by omega
  rw [bytesToWord, bytesToWord, fit_slice (by rw [List.length_append]; omega), fit_slice hle, slice_append_left hle]

theorem aesInitEnc_fit (buf : List Byte) (n : Nat) : aesInitEnc (fit buf n) n = aesInitEnc buf n := by
  refine aesInitEnc_congr fun i hi => ?_
  have hfit : fit ((fit buf n).drop (4 * i)) 4 = fit (buf.drop (4 * i)) 4 := by
    refine List.ext_getElem (by simp) fun j h1 h2 => ?_
    have hj : j < 4 := by simpa using h1
    simp only [fit, List.getElem_take, List.getElem_append, List.getElem_replicate, List.length_take,
      List.length_drop, List.length_append, List.length_replicate, List.getElem_drop]
    split_ifs <;> first | rfl | omega
  rw [bytesToWord, bytesToWord, hfit]

/-- The contexts that `decrypt_key_material` makes of the slot key and the bytes behind it. -/
theorem xtsInit_slotKey (key rest : List Byte) (decrypt : Bool) : xtsInit (key ++ rest) (key.length * 2) decrypt =
    xtsInit (key ++ fit rest key.length) (key ++ fit rest key.length).length decrypt := by
  have hlen : (key ++ fit rest key.length).length = key.length * 2 := by
    rw [List.length_append, length_fit]
    omega
  have hhalf : key.length * 2 / 2 = key.length := by omega
  have hdata : ∀ buf, aesInitEnc (key ++ buf) key.length = aesInitEnc key key.length := aesInitEnc_append (le_refl _)
  have hdec : ∀ buf, aesInitDec (key ++ buf) key.length = aesInitEnc key key.length := hdata
  rw [hlen, xtsInit, xtsInit]
  simp only [hhalf, List.drop_left, hdata, hdec, aesInitEnc_fit]

/-! ## Sector by sector -/

/-- The plaintext of sector `i`. -/
def decryptedSector (mode : CipherMode) (xts : XtsCtx) (cbc : CbcCtx) (i : Nat) (sector : List Byte) : List Byte :=
  match mode with
  | .xts => xtsCrypt xts i sector 512 true
  | _ => cbcDecryptSector cbc i sector 512

theorem length_decryptedSector (mode : CipherMode) (xts : XtsCtx) (cbc : CbcCtx) (i : Nat) (sector : List Byte) :
    (decryptedSector mode xts cbc i sector).length = 512 := by
  cases mode <;> simp [decryptedSector, cbcDecryptSector, length_cbcBlocks, xtsCrypt, length_xtsBlocks]

theorem cbcBlocks_append (ctx : AesCtx) (n : Nat) (iv : Block) {a : List Byte} (h : 16 * n ≤ a.length)
    (rest : List Byte) : cbcBlocks ctx n iv (a ++ rest) = cbcBlocks ctx n iv a := by
  induction n generalizing iv a with
  | zero => rfl
  | succ n ih =>
    have hblock : Block.ofBytes (a ++ rest) = Block.ofBytes a := by
      refine Vector.ext fun i hi => ?_
      have hia : i < a.length := by omega
      simp [Block.ofBytes, List.getElem?_append, hia]
    rw [cbcBlocks, cbcBlocks, hblock, List.drop_append_of_le_length (by omega),
      ih _ (by rw [List.length_drop]; omega)]

theorem decryptSector_eq (mode : CipherMode) (xts : XtsCtx) (cbc : CbcCtx) {enc : List Byte} {total i : Nat}
    (hi : 512 * i + 512 ≤ total) (henc : total ≤ enc.length) :
    decryptSector mode xts cbc enc total i = decryptedSector mode xts cbc i (slice enc (512 * i) 512) := by
  have hchunk : min (total - 512 * i) 512 = 512 := by omega
  have hslice : (slice enc (512 * i) 512).length = 512 := by
    rw [length_slice]
    omega
  have hcbc : cbcDecryptSector cbc i (enc.drop (512 * i)) 512 = cbcDecryptSector cbc i (slice enc (512 * i) 512) 512 := by
    have hsplit : enc.drop (512 * i) = slice enc (512 * i) 512 ++ enc.drop (512 * i + 512) :=
      (slice_append_drop enc (512 * i) 512).symm
    rw [hsplit, cbcDecryptSector, cbcDecryptSector, cbcBlocks_append _ _ _ (by rw [hslice])]
  have hxts : (xtsCrypt xts i (slice enc (512 * i) 512) 512 true).take 512 =
      xtsCrypt xts i (slice enc (512 * i) 512) 512 true :=
    List.take_of_length_le (by rw [xtsCrypt, length_xtsBlocks])
  cases mode <;> simp only [decryptSector, decryptedSector, hchunk, hcbc, fit_of_length hslice, Nat.reduceAdd,
    Nat.reduceDiv, Nat.reduceMul, hxts]

/-- The plaintext of `n` sectors. -/
def decryptedArea (essiv : AesCtx) (mode : CipherMode) (buf : List Byte) (keyBytes n : Nat) (enc : List Byte) : List Byte :=
  (List.range n).flatMap fun i => decryptedSector mode (xtsInit buf (keyBytes * 2) true)
    (cbcInit essiv buf keyBytes mode none) i (slice enc (512 * i) 512)

section Area

variable (essiv : AesCtx) (mode : CipherMode) (key rest : List Byte)

theorem length_decryptedArea (buf : List Byte) (keyBytes n : Nat) (enc : List Byte) :
    (decryptedArea essiv mode buf keyBytes n enc).length = 512 * n := by
  rw [decryptedArea, length_flatMap_const fun i _ => length_decryptedSector _ _ _ _ _, List.length_range, Nat.mul_comm]

/-- Neither the bytes behind the key material nor those in the target buffer matter. -/
theorem decryptKeyMaterial_eq (buf : List Byte) (keyBytes : Nat) {n : Nat} {enc : List Byte} (henc : enc.length = 512 * n)
    (behind dec : List Byte) : decryptKeyMaterial essiv mode buf keyBytes (enc ++ behind) dec (512 * n) =
      decryptedArea essiv mode buf keyBytes n enc ++ dec.drop (512 * n) := by
  have hcount : sectorCount (512 * n) = n := by
    unfold sectorCount
    omega
  have harea : (List.range n).flatMap (decryptSector mode (xtsInit buf (keyBytes * 2) true)
      (cbcInit essiv buf keyBytes mode none) (enc ++ behind) (512 * n)) = decryptedArea essiv mode buf keyBytes n enc := by
    refine List.flatMap_congr fun i hi => ?_
    have hi := List.mem_range.mp hi
    rw [decryptSector_eq mode _ _ (by omega) (by rw [List.length_append]; omega), slice_append_left (by omega)]
  unfold decryptKeyMaterial
  dsimp only
  rw [hcount, harea, patch_zero, length_decryptedArea]

theorem length_bootEncryptSector (tail : List Byte) (i : Nat) (sector : List Byte) :
    (bootEncryptSector essiv tail mode key i sector).length = 512 := by
  cases mode with
  | xts => exact Luks1Volume.length_encryptSector .xts (key ++ tail) i sector
  | cbcEssiv => exact length_cbcEncryptBlocks _ 32 _ _
  | cbcPlain => exact Luks1Volume.length_encryptSector .cbcPlain key i sector
  | cbcPlain64 => exact Luks1Volume.length_encryptSector .cbcPlain64 key i sector

theorem decryptedSector_boot (i : Nat) {sector : List Byte} (hsector : sector.length = 512) :
    decryptedSector mode (xtsInit (key ++ rest) (key.length * 2) true) (cbcInit essiv (key ++ rest) key.length mode none) i
        (bootEncryptSector essiv (fit rest key.length) mode key i sector) = sector ∧
      bootEncryptSector essiv (fit rest key.length) mode key i (decryptedSector mode
        (xtsInit (key ++ rest) (key.length * 2) true) (cbcInit essiv (key ++ rest) key.length mode none) i sector) =
          sector := by
  have hlen : 16 * 32 ≤ sector.length := hsector.ge
  have hwhole : sector.take (16 * 32) = sector := List.take_of_length_le hsector.le
  have hctx : aesInitDec (key ++ rest) key.length = aesInitEnc key key.length := aesInitEnc_append (le_refl _) rest
  have hnr := aesInitEnc_nr_pos key key.length
  have hcbc : ∀ iv, cbcBlocks (aesInitEnc key key.length) 32 iv
        (cbcEncryptBlocks (aesInitEnc key key.length) 32 iv sector) = sector ∧
      cbcEncryptBlocks (aesInitEnc key key.length) 32 iv (cbcBlocks (aesInitEnc key key.length) 32 iv sector) =
        sector := by
    intro iv
    have hback := cbcBlocks_cbcEncryptBlocks hnr 32 iv sector hlen []
    have hforth := cbcEncryptBlocks_cbcBlocks hnr 32 iv sector hlen []
    rw [List.append_nil, hwhole] at hback hforth
    exact ⟨hback, hforth⟩
  cases mode with
  | xts =>
    have hundo : ∀ decrypt t,
      xtsBlocks (xtsInit (key ++ fit rest key.length) (key ++ fit rest key.length).length (!decrypt))
        (!decrypt) 32 t (xtsBlocks (xtsInit (key ++ fit rest key.length) (key ++ fit rest key.length).length decrypt)
          decrypt 32 t sector) = sector := by
      intro decrypt t
      have hback := @xtsBlocks_undo decrypt
        (xtsInit (key ++ fit rest key.length) (key ++ fit rest key.length).length decrypt)
        (xtsInit (key ++ fit rest key.length) (key ++ fit rest key.length).length (!decrypt))
        (by cases decrypt <;> rfl) (by cases decrypt <;> exact aesInitEnc_nr_pos _ _) 32 t sector hlen []
      rwa [List.append_nil, hwhole] at hback
    simp only [decryptedSector, bootEncryptSector, encryptSector, xtsInit_slotKey]
    exact ⟨hundo false _, hundo true _⟩
  | cbcPlain =>
    simp only [decryptedSector, bootEncryptSector, encryptSector, cbcDecryptSector, cbcInit, hctx, makeCbcIv]
    exact hcbc _
  | cbcPlain64 =>
    simp only [decryptedSector, bootEncryptSector, encryptSector, cbcDecryptSector, cbcInit, hctx, makeCbcIv]
    exact hcbc _
  | cbcEssiv =>
    simp only [decryptedSector, bootEncryptSector, cbcDecryptSector, cbcInit, hctx, makeCbcIv]
    exact hcbc _

theorem slice_bootEncryptArea (tail : List Byte) {plain : List Byte} {n i : Nat}
    (hn : plain.length = 512 * n) (hi : i < n) :
    slice (bootEncryptArea essiv tail mode key plain) (512 * i) 512 =
      bootEncryptSector essiv tail mode key i (slice plain (512 * i) 512) :=
  slice_flatMap_range (fun j _ => length_bootEncryptSector essiv mode key tail j _) (by omega)

theorem decryptedArea_boot {plain : List Byte} {n : Nat} (hn : plain.length = 512 * n) :
    decryptedArea essiv mode (key ++ rest) key.length n (bootEncryptArea essiv (fit rest key.length) mode key plain) =
      plain := by
  have hsectors : ∀ i ∈ List.range n, decryptedSector mode (xtsInit (key ++ rest) (key.length * 2) true)
      (cbcInit essiv (key ++ rest) key.length mode none) i
        (slice (bootEncryptArea essiv (fit rest key.length) mode key plain) (512 * i) 512) = slice plain (512 * i) 512 := by
    intro i hi
    have hi := List.mem_range.mp hi
    rw [slice_bootEncryptArea essiv mode key _ hn hi]
    refine (decryptedSector_boot essiv mode key rest i ?_).1
    rw [length_slice]
    omega
  rw [decryptedArea, List.flatMap_congr hsectors, flatMap_slice, ← hn, List.take_length]

theorem boot_decryptedArea {enc : List Byte} {n : Nat} (hn : enc.length = 512 * n) :
    bootEncryptArea essiv (fit rest key.length) mode key (decryptedArea essiv mode (key ++ rest) key.length n enc) =
      enc := by
  have hcount : (decryptedArea essiv mode (key ++ rest) key.length n enc).length / 512 = n := by
    rw [length_decryptedArea]
    omega
  have hsectors : ∀ i ∈ List.range n, bootEncryptSector essiv (fit rest key.length) mode key i
      (slice (decryptedArea essiv mode (key ++ rest) key.length n enc) (512 * i) 512) = slice enc (512 * i) 512 := by
    intro i hi
    have hi := List.mem_range.mp hi
    rw [decryptedArea, slice_flatMap_range (fun j _ => length_decryptedSector _ _ _ _ _) hi]
    refine (decryptedSector_boot essiv mode key rest i ?_).2
    rw [length_slice]
    omega
  rw [bootEncryptArea, hcount, List.flatMap_congr hsectors, flatMap_slice, ← hn, List.take_length]

end Area

/-! ## Against the format -/

theorem xorBytes_flatMap {f g : Nat → List Byte} {c n : Nat}
    (hf : ∀ i < n, (f i).length = c) (hg : ∀ i < n, (g i).length = c) :
    xorBytes ((List.range n).flatMap f) ((List.range n).flatMap g) =
      (List.range n).flatMap fun i => xorBytes (f i) (g i) := by
  induction n with
  | zero => rfl
  | succ n ih =>
    have hlen : ((List.range n).flatMap f).length = ((List.range n).flatMap g).length := by
      rw [length_flatMap_const fun i hi => hf i (by have := List.mem_range.mp hi; omega),
        length_flatMap_const fun i hi => hg i (by have := List.mem_range.mp hi; omega)]
    have hstep := ih (fun i hi => hf i (by omega)) fun i hi => hg i (by omega)
    rw [List.range_succ, List.flatMap_append, List.flatMap_append, List.flatMap_append, xorBytes,
      List.zipWith_append hlen, ← xorBytes, hstep]
    simp [xorBytes]

theorem length_essivMask (essiv : AesCtx) (key : List Byte) (n : Nat) : (essivMask essiv key n).length = 512 * n := by
  have hpiece : ∀ i ∈ List.range n, ((xorBlock (aesEncryptBlock (aesInitEnc (sha256 key) 32) (Block.ofBytes (le 8 i)))
      (aesEncryptBlock essiv (Block.ofBytes (le 8 i)))).toList ++ List.replicate 496 0).length = 512 := by
    intro i _
    rw [List.length_append, length_toList_block, List.length_replicate]
  rw [essivMask, length_flatMap_const hpiece, List.length_range]

/-- The initial vectors of the stack: every sector comes back with its mask. -/
theorem decryptedArea_essiv (essiv : AesCtx) (key rest : List Byte) {plain : List Byte} {n : Nat}
    (hn : plain.length = 512 * n) :
    decryptedArea essiv .cbcEssiv (key ++ rest) key.length n (encryptArea .cbcEssiv key plain) =
      xorBytes plain (essivMask essiv key n) := by
  have hctx : aesInitDec (key ++ rest) key.length = aesInitEnc key key.length := aesInitEnc_append (le_refl _) rest
  have hsectors : ∀ i ∈ List.range n, decryptedSector .cbcEssiv (xtsInit (key ++ rest) (key.length * 2) true)
      (cbcInit essiv (key ++ rest) key.length .cbcEssiv none) i (slice (encryptArea .cbcEssiv key plain) (512 * i) 512) =
        xorBytes (slice plain (512 * i) 512) ((xorBlock (aesEncryptBlock (aesInitEnc (sha256 key) 32)
          (Block.ofBytes (le 8 i))) (aesEncryptBlock essiv (Block.ofBytes (le 8 i)))).toList ++ List.replicate 496 0) := by
    intro i hi
    have hi := List.mem_range.mp hi
    have hlen : (slice plain (512 * i) 512).length = 16 * 32 := by
      rw [length_slice]
      omega
    have hstored : slice (encryptArea .cbcEssiv key plain) (512 * i) 512 =
        encryptSector .cbcEssiv key i (slice plain (512 * i) 512) :=
      slice_flatMap_range (fun j _ => Luks1Volume.length_encryptSector _ _ _ _) (by omega)
    have hback := cbcBlocks_cbcEncryptBlocks (aesInitEnc_nr_pos key key.length) 32
      (aesEncryptBlock (aesInitEnc (sha256 key) 32) (Block.ofBytes (le 8 i))) _ hlen.ge []
    rw [List.append_nil, List.take_of_length_le hlen.le] at hback
    rw [hstored]
    simp only [decryptedSector, encryptSector, cbcDecryptSector, cbcInit, hctx, makeCbcIv]
    rw [cbcBlocks_iv _ _ (aesEncryptBlock (aesInitEnc (sha256 key) 32) (Block.ofBytes (le 8 i))), hback]
  have hplain : (List.range n).flatMap (fun i => slice plain (512 * i) 512) = plain := by
    rw [flatMap_slice, ← hn, List.take_length]
  have hmask := @xorBytes_flatMap (fun i => slice plain (512 * i) 512) (fun i =>
    (xorBlock (aesEncryptBlock (aesInitEnc (sha256 key) 32) (Block.ofBytes (le 8 i)))
      (aesEncryptBlock essiv (Block.ofBytes (le 8 i)))).toList ++ List.replicate 496 0) 512 n
    (fun i hi => by rw [length_slice]; omega)
    (fun i _ => by rw [List.length_append, length_toList_block, List.length_replicate])
  rw [hplain] at hmask
  rw [decryptedArea, List.flatMap_congr hsectors, ← hmask, essivMask]

end SakuruBoot

import SakuruBoot.Luks.Luks1

/-!
# LUKS1 volumes

`Luks1Volume` is a device image formatted as the on-disk specification prescribes: the header, and for
each active slot the anti-forensic split of the master key, encrypted under the slot's PBKDF2 key. The
header is read as it was written (`Luks1Volume.read_header` and what follows it).
-/

namespace SakuruBoot
open CStr (Byte u32)
open Bytes

/-! ## The format -/

namespace Luks1Format

/-- The diffuser: every piece of the size of a digest is hashed behind its number. -/
def diffuse (id : HashId) (block : List Byte) : List Byte :=
  let size := hashDigestSize id
  (List.range ((block.length + size - 1) / size)).flatMap fun j =>
    let piece := slice block (size * j) size
    (hashDigest id (be 4 j ++ piece)).take piece.length

/-- The chain of diffused stripes that masks the key. -/
def afChain (id : HashId) (keyBytes : Nat) (noise : List (List Byte)) : List Byte :=
  noise.foldl (fun d stripe => diffuse id (xorBytes d stripe)) (List.replicate keyBytes 0)

/-- The stripes of a key: noise, and the key masked with the chain of the noise. -/
def afSplit (id : HashId) (key : List Byte) (noise : List (List Byte)) : List (List Byte) :=
  noise ++ [xorBytes (afChain id key.length noise) key]

def modeName : CipherMode → List Byte
  | .xts => CStr.lit "xts-plain64"
  | .cbcPlain => CStr.lit "cbc-plain"
  | .cbcPlain64 => CStr.lit "cbc-plain64"
  | .cbcEssiv => CStr.lit "cbc-essiv:sha256"

def hashName : HashId → List Byte
  | .sha1 => CStr.lit "sha1"
  | .sha256 => CStr.lit "sha256"
  | .sha512 => CStr.lit "sha512"

/-- Encryption of sector `i` under a key. XTS splits the key into its two halves. -/
def encryptSector (mode : CipherMode) (key : List Byte) (i : Nat) (sector : List Byte) : List Byte :=
  let cbc := cbcEncryptBlocks (aesInitEnc key key.length) 32
  match mode with
  | .xts => xtsCrypt (xtsInit key key.length false) i sector 512 false
  | .cbcPlain => cbc (Block.ofBytes (le 4 i)) sector
  | .cbcPlain64 => cbc (Block.ofBytes (le 8 i)) sector
  | .cbcEssiv => cbc (aesEncryptBlock (aesInitEnc (sha256 key) 32) (Block.ofBytes (le 8 i))) sector

def encryptArea (mode : CipherMode) (key plain : List Byte) : List Byte :=
  (List.range (plain.length / 512)).flatMap fun i =>
    encryptSector mode key i (slice plain (512 * i) 512)

def stripes : Nat := 4000

/-- An active slot: its passphrase and the noise of its split. -/
structure Slot where
  pass : List Byte
  noise : List (List Byte)

/-- Slot `k` of the image is in use and holds the split key. -/
def SlotStored (img : List Byte) (mode : CipherMode) (hash : HashId) (key : List Byte) (k : Nat)
    (s : Slot) : Prop :=
  slotActive img k = luks1KeyEnabled ∧ 1 ≤ slotIterations img k ∧ slotStripes img k = stripes ∧
    s.noise.length + 1 = stripes ∧ (∀ stripe ∈ s.noise, stripe.length = key.length) ∧
    slice img (512 * slotKmOffset img k) (stripes * key.length) =
      encryptArea mode
        (Rfc.pbkdf2 hash s.pass (slotSalt img k) (slotIterations img k) key.length)
        (afSplit hash key s.noise).flatten

end Luks1Format

open Luks1Format

structure Luks1Volume where
  img : List Byte
  mode : CipherMode
  hash : HashId
  masterKey : List Byte
  slots : Fin 8 → Option Slot
  keyLength : masterKey.length ∈ if mode = .xts then [32, 64] else [16, 32]
  size : 2048 ≤ img.length
  magic : luks1Probe img = true
  version : hdrVersion img = 1
  cipherName : CStr.str (slice img 8 32) = CStr.lit "aes"
  cipherMode : CStr.str (slice img 40 32) = modeName mode
  hashSpec : CStr.str (slice img 72 32) = hashName hash
  keyBytes : hdrKeyBytes img = masterKey.length
  digestIter : 1 ≤ hdrMkDigestIter img
  digest : hdrMkDigest img =
    Rfc.pbkdf2 hash masterKey (hdrMkDigestSalt img) (hdrMkDigestIter img) 20
  slot : ∀ k, match slots k with
    | none => slotActive img k = 0x0000DEAD
    | some s => SlotStored img mode hash masterKey k s

/-! ## The code reads the header as it was written -/

theorem eq_append_of_str {l s : List Byte} (h : CStr.str l = s) (hlt : s.length < l.length) :
    ∃ r, l = s ++ 0 :: r := by
  induction l generalizing s with
  | nil => simp at hlt
  | cons x l ih =>
    rw [CStr.str_cons] at h
    split at h
    · rename_i hx
      exact ⟨l, by rw [← h, hx]; rfl⟩
    · subst h
      obtain ⟨r, hr⟩ := ih rfl (by simpa using hlt)
      exact ⟨r, by rw [List.cons_append, ← hr]⟩

theorem cipherModeId_modeName (mode : CipherMode) (r : List Byte) :
    cipherModeId (modeName mode ++ 0 :: r) = mode := by
  cases mode <;> rfl

theorem hashId_hashName (id : HashId) (r : List Byte) : hashId (hashName id ++ 0 :: r) = some id := by
  cases id <;> rfl

namespace Luks1Volume

variable (V : Luks1Volume)

theorem keyLength_pos : 16 ≤ V.masterKey.length := by
  have h := V.keyLength
  split_ifs at h <;> simp only [List.mem_cons, List.not_mem_nil, or_false] at h <;> omega

/-- The header sectors the code reads. -/
def header : List Byte := slice V.img 0 2048

theorem read_header : (ReadFn.ofImage V.img).read 0 4 = some V.header := by
  rw [read_ofImage V.size, header]

theorem slice_header {off n : Nat} (h : off + n ≤ 2048) : slice V.header off n = slice V.img off n := by
  rw [header, slice_slice h, Nat.zero_add]

theorem string_header {off : Nat} {s : List Byte} (hoff : off + 32 ≤ 2048) (hs : s.length < 32)
    (h : CStr.str (slice V.img off 32) = s) : ∃ r, V.header.drop off = s ++ 0 :: r := by
  have hsize := V.size
  obtain ⟨r, hr⟩ := eq_append_of_str h (by rw [length_slice]; omega)
  refine ⟨r ++ V.header.drop (off + 32), ?_⟩
  rw [← slice_append_drop V.header off 32, V.slice_header hoff, hr]
  simp

theorem mode_header : cipherModeId (hdrCipherMode V.header) = V.mode := by
  obtain ⟨r, hr⟩ := V.string_header (by omega) (by cases V.mode <;> decide) V.cipherMode
  rw [hdrCipherMode, hr, cipherModeId_modeName]

theorem hash_header : hdrHash V.header = V.hash := by
  obtain ⟨r, hr⟩ := V.string_header (by omega) (by cases V.hash <;> decide) V.hashSpec
  rw [hdrHash, hdrHashSpec, hr, hashId_hashName, Option.getD_some]

theorem probe_header : luks1Probe V.header = true := by
  have h := V.magic
  rwa [luks1Probe, ← V.slice_header (by omega)] at h

theorem version_header : hdrVersion V.header = 1 := by
  rw [hdrVersion, V.slice_header (by omega)]
  exact V.version

theorem keyBytes_header : hdrKeyBytes V.header = V.masterKey.length := by
  rw [hdrKeyBytes, V.slice_header (by omega)]
  exact V.keyBytes

theorem payload_header : hdrPayloadOffset V.header = hdrPayloadOffset V.img := by
  rw [hdrPayloadOffset, V.slice_header (by omega), hdrPayloadOffset]

theorem digestMatches_header (key : List Byte) : digestMatches V.header key = true ↔
    Rfc.pbkdf2 V.hash key (hdrMkDigestSalt V.img) (hdrMkDigestIter V.img) 20 = hdrMkDigest V.img := by
  rw [digestMatches, V.hash_header, pbkdf2_eq, hdrMkDigestSalt, hdrMkDigestIter, hdrMkDigest,
    V.slice_header (by omega), V.slice_header (by omega), V.slice_header (by omega), beq_iff_eq]
  rfl

theorem slot_header (k : Fin 8) : slotActive V.header k = slotActive V.img k ∧
    slotIterations V.header k = slotIterations V.img k ∧ slotSalt V.header k = slotSalt V.img k ∧
    slotKmOffset V.header k = slotKmOffset V.img k ∧ slotStripes V.header k = slotStripes V.img k := by
  have hk := k.isLt
  simp only [slotActive, slotIterations, slotSalt, slotKmOffset, slotStripes, slotBase]
  refine ⟨?_, ?_, ?_, ?_, ?_⟩ <;> rw [V.slice_header (by omega)]

end Luks1Volume

/-! ## Lengths -/

theorem length_flatten_noise {n : Nat} {noise : List (List Byte)}
    (hnoise : ∀ stripe ∈ noise, stripe.length = n) : noise.flatten.length = noise.length * n := by
  rw [List.length_flatten, List.map_congr_left hnoise, List.map_const', List.sum_replicate, smul_eq_mul]

namespace Luks1Volume

theorem length_afChain (id : HashId) {n : Nat} {noise : List (List Byte)}
    (hnoise : ∀ stripe ∈ noise, stripe.length = n) : (afChain id n noise).length = n := by
  have hdiffuse : ∀ block : List Byte, (diffuse id block).length = block.length := by
    intro block
    have hpos := hashDigestSize_pos id
    have hpiece : ∀ j, ((hashDigest id (be 4 j ++ slice block (hashDigestSize id * j)
        (hashDigestSize id))).take (slice block (hashDigestSize id * j) (hashDigestSize id)).length).length =
        (slice block (hashDigestSize id * j) (hashDigestSize id)).length := by
      intro j
      rw [List.length_take, length_hashDigest, length_slice]
      omega
    have hsum : ∀ m, ((List.range m).flatMap fun j =>
        (hashDigest id (be 4 j ++ slice block (hashDigestSize id * j) (hashDigestSize id))).take
          (slice block (hashDigestSize id * j) (hashDigestSize id)).length).length =
        (block.take (hashDigestSize id * m)).length := by
      intro m
      rw [← flatMap_slice, List.length_flatMap, List.length_flatMap]
      simp only [hpiece]
    rw [diffuse]
    dsimp only
    rw [hsum, List.length_take, Nat.min_eq_right]
    have := Nat.div_add_mod (block.length + hashDigestSize id - 1) (hashDigestSize id)
    have := Nat.mod_lt (block.length + hashDigestSize id - 1) hpos
    omega
  have key : ∀ (l : List (List Byte)) (d : List Byte), (∀ x ∈ l, x.length = n) → d.length = n →
      (l.foldl (fun d stripe => diffuse id (xorBytes d stripe)) d).length = n := by
    intro l
    induction l with
    | nil => intro d _ hd; exact hd
    | cons x l ih =>
      intro d hl hd
      refine ih _ (fun y hy => hl y (by simp [hy])) ?_
      rw [hdiffuse, length_xorBytes, hd, hl x (by simp), Nat.min_self]
  exact key noise _ hnoise (by simp)

theorem length_afSplit (id : HashId) {key : List Byte} {noise : List (List Byte)}
    (hnoise : ∀ stripe ∈ noise, stripe.length = key.length) :
    (afSplit id key noise).flatten.length = (noise.length + 1) * key.length := by
  rw [length_flatten_noise, afSplit, List.length_append, List.length_singleton]
  intro x hx
  rw [afSplit, List.mem_append, List.mem_singleton] at hx
  rcases hx with hx | rfl
  · exact hnoise x hx
  · rw [length_xorBytes, length_afChain id hnoise, Nat.min_self]

theorem length_encryptSector (mode : CipherMode) (key : List Byte) (i : Nat) (sector : List Byte) :
    (encryptSector mode key i sector).length = 512 := by
  cases mode <;> simp [encryptSector, length_cbcEncryptBlocks, xtsCrypt, length_xtsBlocks]

end Luks1Volume

end SakuruBoot

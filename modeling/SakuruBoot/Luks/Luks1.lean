import SakuruBoot.Crypto.Cipher
import SakuruBoot.Crypto.Pbkdf2

/-!
# LUKS1 unlock (`luks/luks1.c`)

`luks1Unlock` on a block reader, a passphrase, the static buffers as earlier calls left them and the
caller's output variables. One key slot is `luks1Attempt`: derive the slot key, read the key material,
decrypt it, merge the stripes, compare the digest.

`luks1Unlock_cases` is what every caller needs: a call either fails with the outputs untouched, or
has found a slot whose candidate passes the digest check and has written exactly that candidate.
-/

namespace SakuruBoot
open CStr (Byte u32)
open Bytes

/-- A block device reader: a read of `n` sectors fails or gives `512 * n` bytes. -/
structure ReadFn where
  read : Nat → Nat → Option (List Byte)
  length_read : ∀ {lba n b}, read lba n = some b → b.length = 512 * n

/-- The reader of a device with the given content: reads past its end fail. -/
def ReadFn.ofImage (img : List Byte) : ReadFn where
  read lba n := if 512 * (lba + n) ≤ img.length then some (slice img (512 * lba) (512 * n)) else none
  length_read := by
    intro lba n b hb
    rw [Option.ite_none_right_eq_some, Option.some.injEq] at hb
    obtain ⟨hle, rfl⟩ := hb
    rw [length_slice]
    omega

theorem read_ofImage {img : List Byte} {lba n : Nat} (h : 512 * (lba + n) ≤ img.length) :
    (ReadFn.ofImage img).read lba n = some (slice img (512 * lba) (512 * n)) := if_pos h

/-- The variables the unlock functions write through their out-pointers. -/
structure LuksOut where
  masterKey : List Byte
  keyBytes : Nat
  payloadOffset : Nat
  cipherMode : CipherMode
  deriving DecidableEq

/-- The static buffers. `slotKey` is `s_slot_key` and the memory that follows it, which an XTS key of
twice the key length reaches into; `stackEssiv` is what the uninitialised CBC context holds. -/
structure Luks1Mem where
  kmEnc : List Byte
  kmDec : List Byte
  slotKey : List Byte
  stackEssiv : AesCtx

def luksMagic : List Byte := [0x4c, 0x55, 0x4b, 0x53, 0xba, 0xbe]

def luks1Probe (buf : List Byte) : Bool := slice buf 0 6 == luksMagic

/-! ## Header fields -/

def luks1KeyEnabled : Nat := 0x00AC71F3

def hdrVersion (h : List Byte) : Nat := beVal (slice h 6 2)
def hdrCipherMode (h : List Byte) : List Byte := h.drop 40
def hdrHashSpec (h : List Byte) : List Byte := h.drop 72
def hdrPayloadOffset (h : List Byte) : Nat := beVal (slice h 104 4)
def hdrKeyBytes (h : List Byte) : Nat := beVal (slice h 108 4)
def hdrMkDigest (h : List Byte) : List Byte := slice h 112 20
def hdrMkDigestSalt (h : List Byte) : List Byte := slice h 132 32
def hdrMkDigestIter (h : List Byte) : Nat := beVal (slice h 164 4)

def slotBase (slot : Nat) : Nat := 208 + 48 * slot
def slotActive (h : List Byte) (slot : Nat) : Nat := beVal (slice h (slotBase slot) 4)
def slotIterations (h : List Byte) (slot : Nat) : Nat := beVal (slice h (slotBase slot + 4) 4)
def slotSalt (h : List Byte) (slot : Nat) : List Byte := slice h (slotBase slot + 8) 32
def slotKmOffset (h : List Byte) (slot : Nat) : Nat := beVal (slice h (slotBase slot + 40) 4)
def slotStripes (h : List Byte) (slot : Nat) : Nat := beVal (slice h (slotBase slot + 44) 4)

/-- The hash the header names, SHA-1 when the name is unknown. -/
def hdrHash (h : List Byte) : HashId := (hashId (hdrHashSpec h)).getD .sha1

/-! ## Anti-forensic merge -/

/-- The `keyBytes` bytes of stripe `s`; bytes past the buffer read as zero. -/
def afStripe (split : List Byte) (s keyBytes : Nat) : List Byte :=
  fit (split.drop (u32 (s * keyBytes))) keyBytes

/-- A round of `af_merge` and of its copy in `luks2.c` on the 64-byte block: the exclusive or with a stripe as it is read,
then `af_hash_sector` in place. -/
def mergeRound (id : HashId) (keyBytes : Nat) (stripe : Nat → List Byte) (d : List Byte) (s : Nat) : List Byte :=
  let d := patch d 0 (xorBytes (d.take keyBytes) (stripe s))
  patch d 0 (hashCompute id (d.take keyBytes ++ be 4 s))

def mergeWith (id : HashId) (keyBytes : Nat) (stripe : Nat → List Byte) (rounds : Nat) : List Byte :=
  let d := (List.range rounds).foldl (mergeRound id keyBytes stripe) (List.replicate 64 0)
  xorBytes (d.take keyBytes) (stripe rounds)

def afMerge (id : HashId) (split : List Byte) (stripes keyBytes : Nat) : List Byte :=
  mergeWith id keyBytes (fun s => afStripe split s keyBytes) (u32 (stripes + 2 ^ 32 - 1))

/-! ## Decrypting key material -/

/-- The number of 512-byte sectors that cover `len` bytes. -/
def sectorCount (len : Nat) : Nat := (len + 511) / 512

/-- The plaintext of the sector at `512 * i` of the key material. -/
def decryptSector (mode : CipherMode) (xts : XtsCtx) (cbc : CbcCtx) (enc : List Byte)
    (totalLen i : Nat) : List Byte :=
  let off := 512 * i
  let chunk := min (totalLen - off) 512
  match mode with
  | .xts =>
    let aligned := (chunk + 15) / 16 * 16
    (xtsCrypt xts i (fit (slice enc off chunk) 512) aligned true).take chunk
  | _ => cbcDecryptSector cbc i (enc.drop off) chunk

/-- What `decrypt_key_material` leaves in the output buffer. The XTS key is twice `keyBytes` long. -/
def decryptKeyMaterial (stackEssiv : AesCtx) (mode : CipherMode) (slotKey : List Byte) (keyBytes : Nat)
    (enc dec : List Byte) (totalLen : Nat) : List Byte :=
  let xts := xtsInit slotKey (keyBytes * 2) true
  let cbc := cbcInit stackEssiv slotKey keyBytes mode none
  patch dec 0 ((List.range (sectorCount totalLen)).flatMap (decryptSector mode xts cbc enc totalLen))

/-! ## Unlock -/

def kmReadSectors : Nat := 256

/-- `PBKDF2(hash, mk, mk_digest_salt, mk_digest_iter, 20) == mk_digest`. -/
def digestMatches (h : List Byte) (key : List Byte) : Bool :=
  pbkdf2 (hdrHash h) key (hdrMkDigestSalt h) (hdrMkDigestIter h) 20 == hdrMkDigest h

/-- The candidate the code recovers from key material it has read. -/
def luks1Candidate (h : List Byte) (slot : Nat) (mem : Luks1Mem) : Luks1Mem × List Byte :=
  let keyBytes := hdrKeyBytes h
  let dec := decryptKeyMaterial mem.stackEssiv (cipherModeId (hdrCipherMode h)) mem.slotKey keyBytes
    mem.kmEnc mem.kmDec (u32 (keyBytes * slotStripes h slot))
  ({ mem with kmDec := dec }, afMerge (hdrHash h) dec (slotStripes h slot) keyBytes)

/-- One slot: the static buffers after it, and the candidate when it passes the digest check. -/
def luks1Attempt (dev : ReadFn) (pass h : List Byte) (mem : Luks1Mem) (slot : Nat) :
    Luks1Mem × Option (List Byte) :=
  if slotActive h slot ≠ luks1KeyEnabled then (mem, none)
  else
    let keyBytes := hdrKeyBytes h
    let kmLen := u32 (keyBytes * slotStripes h slot)
    let dk := pbkdf2 (hdrHash h) pass (slotSalt h slot) (slotIterations h slot) keyBytes
    let mem := { mem with slotKey := patch mem.slotKey 0 dk }
    let kmSectors := u32 (kmLen + 511) / 512
    if kmReadSectors < kmSectors then (mem, none)
    else
      match dev.read (slotKmOffset h slot) kmSectors with
      | none => (mem, none)
      | some km =>
        let r := luks1Candidate h slot { mem with kmEnc := patch mem.kmEnc 0 km }
        (r.1, if digestMatches h r.2 then some r.2 else none)

/-- The slot loop. -/
def luks1Slots (dev : ReadFn) (pass h : List Byte) : List Nat → Luks1Mem →
    Luks1Mem × Option (List Byte)
  | [], mem => (mem, none)
  | slot :: slots, mem =>
    match luks1Attempt dev pass h mem slot with
    | (mem, some key) => (mem, some key)
    | (mem, none) => luks1Slots dev pass h slots mem

/-- What a successful unlock writes. -/
def luks1Success (h key : List Byte) (out : LuksOut) : LuksOut :=
  { masterKey := patch out.masterKey 0 key
    keyBytes := hdrKeyBytes h
    payloadOffset := hdrPayloadOffset h
    cipherMode := cipherModeId (hdrCipherMode h) }

def luks1Unlock (dev : ReadFn) (pass : List Byte) (mem : Luks1Mem) (out : LuksOut) :
    Int × LuksOut × Luks1Mem :=
  match dev.read 0 4 with
  | none => (-1, out, mem)
  | some h =>
    if !luks1Probe h then (-1, out, mem)
    else if hdrVersion h ≠ 1 then (-1, out, mem)
    else if 64 < hdrKeyBytes h then (-1, out, mem)
    else
      match luks1Slots dev pass h (List.range 8) mem with
      | (mem, some key) => (0, luks1Success h key out, mem)
      | (mem, none) => (-1, out, mem)

/-! ## What a call can do -/

theorem length_afStripe (split : List Byte) (s keyBytes : Nat) :
    (afStripe split s keyBytes).length = keyBytes := length_fit _ _

theorem length_mergeRound (id : HashId) {keyBytes : Nat} (hkb : keyBytes ≤ 64) {stripe : Nat → List Byte}
    (hstripe : ∀ s, (stripe s).length = keyBytes) {d : List Byte} (hd : d.length = 64) (s : Nat) :
    (mergeRound id keyBytes stripe d s).length = 64 := by
  have hdigest : hashDigestSize id ≤ 64 := by cases id <;> decide
  unfold mergeRound
  dsimp only
  rw [length_patch_zero, length_patch_zero, hashCompute_eq, length_hashDigest, length_xorBytes, hstripe,
    List.length_take]
  omega

theorem length_mergeRounds (id : HashId) {keyBytes : Nat} (hkb : keyBytes ≤ 64) {stripe : Nat → List Byte}
    (hstripe : ∀ s, (stripe s).length = keyBytes) (l : List Nat) {d : List Byte} (hd : d.length = 64) :
    (l.foldl (mergeRound id keyBytes stripe) d).length = 64 := by
  induction l generalizing d with
  | nil => exact hd
  | cons s l ih => exact ih (length_mergeRound id hkb hstripe hd s)

theorem length_mergeWith (id : HashId) {keyBytes : Nat} (rounds : Nat) (hkb : keyBytes ≤ 64) {stripe : Nat → List Byte}
    (hstripe : ∀ s, (stripe s).length = keyBytes) : (mergeWith id keyBytes stripe rounds).length = keyBytes := by
  unfold mergeWith
  dsimp only
  rw [length_xorBytes, hstripe, List.length_take, length_mergeRounds id hkb hstripe _ List.length_replicate]
  omega

theorem length_afMerge (id : HashId) (split : List Byte) (stripes : Nat) {keyBytes : Nat}
    (hkb : keyBytes ≤ 64) : (afMerge id split stripes keyBytes).length = keyBytes :=
  length_mergeWith id _ hkb fun s => length_afStripe split s keyBytes

/-- A slot that is accepted has a candidate of the key's length that passes the digest check. -/
theorem luks1Attempt_some {dev : ReadFn} {pass h : List Byte} {mem mem' : Luks1Mem} {slot : Nat}
    {key : List Byte} (hkb : hdrKeyBytes h ≤ 64)
    (hsome : luks1Attempt dev pass h mem slot = (mem', some key)) :
    key.length = hdrKeyBytes h ∧ digestMatches h key = true := by
  unfold luks1Attempt at hsome
  dsimp only at hsome
  split at hsome
  · cases hsome
  · split at hsome
    · cases hsome
    · split at hsome
      · cases hsome
      · simp only [Prod.mk.injEq, Option.ite_none_right_eq_some, Option.some.injEq] at hsome
        obtain ⟨-, hmatch, rfl⟩ := hsome
        exact ⟨length_afMerge _ _ _ hkb, hmatch⟩

theorem luks1Slots_some {dev : ReadFn} {pass h : List Byte} {slots : List Nat} {mem mem' : Luks1Mem}
    {key : List Byte} (hkb : hdrKeyBytes h ≤ 64)
    (hsome : luks1Slots dev pass h slots mem = (mem', some key)) :
    key.length = hdrKeyBytes h ∧ digestMatches h key = true := by
  induction slots generalizing mem with
  | nil => cases hsome
  | cons slot slots ih =>
    rw [luks1Slots] at hsome
    split at hsome
    · rename_i mem₁ key₁ hattempt
      simp only [Prod.mk.injEq, Option.some.injEq] at hsome
      obtain ⟨-, rfl⟩ := hsome
      exact luks1Attempt_some hkb hattempt
    · exact ih hsome

theorem luks1Unlock_cases (dev : ReadFn) (pass : List Byte) (mem : Luks1Mem) (out : LuksOut) :
    ((luks1Unlock dev pass mem out).1 = -1 ∧ (luks1Unlock dev pass mem out).2.1 = out) ∨
    ((luks1Unlock dev pass mem out).1 = 0 ∧ ∃ h key, dev.read 0 4 = some h ∧ luks1Probe h = true ∧
      hdrVersion h = 1 ∧ hdrKeyBytes h ≤ 64 ∧ key.length = hdrKeyBytes h ∧
      digestMatches h key = true ∧ (luks1Slots dev pass h (List.range 8) mem).2 = some key ∧
      (luks1Unlock dev pass mem out).2.1 = luks1Success h key out) := by
  unfold luks1Unlock
  split
  · exact .inl ⟨rfl, rfl⟩
  · rename_i h hread
    split_ifs with hprobe hversion hkb
    · exact .inl ⟨rfl, rfl⟩
    · exact .inl ⟨rfl, rfl⟩
    · exact .inl ⟨rfl, rfl⟩
    · have hkb' : hdrKeyBytes h ≤ 64 := by omega
      split
      · rename_i mem' key hslots
        obtain ⟨hlen, hmatch⟩ := luks1Slots_some hkb' hslots
        exact .inr ⟨rfl, h, key, hread, by simpa using hprobe, by simpa using hversion, hkb', hlen,
          hmatch, by rw [hslots], rfl⟩
      · exact .inl ⟨rfl, rfl⟩

theorem luks1Unlock_of_slot {dev : ReadFn} {pass h km dk key : List Byte} {mem : Luks1Mem} (out : LuksOut)
    (hread : dev.read 0 4 = some h) (hhdr : luks1Probe h = true ∧ hdrVersion h = 1 ∧ hdrKeyBytes h ≤ 64)
    (hactive : slotActive h 0 = luks1KeyEnabled)
    (hdk : pbkdf2 (hdrHash h) pass (slotSalt h 0) (slotIterations h 0) (hdrKeyBytes h) = dk)
    (hsize : u32 (u32 (hdrKeyBytes h * slotStripes h 0) + 511) / 512 ≤ kmReadSectors)
    (hkm : dev.read (slotKmOffset h 0) (u32 (u32 (hdrKeyBytes h * slotStripes h 0) + 511) / 512) = some km)
    (hkey : (luks1Candidate h 0 { mem with slotKey := patch mem.slotKey 0 dk, kmEnc := patch mem.kmEnc 0 km }).2 = key)
    (hdigest : digestMatches h key = true) : (luks1Unlock dev pass mem out).1 = 0 := by
  obtain ⟨hprobe, hversion, hbytes⟩ := hhdr
  have hattempt : ∃ mem', luks1Attempt dev pass h mem 0 = (mem', some key) := by
    rw [luks1Attempt, if_neg (not_not.mpr hactive)]
    simp only [hdk, if_neg (Nat.not_lt.mpr hsize), hkm, hkey, hdigest, if_true]
    exact ⟨_, rfl⟩
  obtain ⟨mem', hattempt⟩ := hattempt
  have hslots : luks1Slots dev pass h (List.range 8) mem = (mem', some key) := by
    rw [List.range_succ_eq_map, luks1Slots, hattempt]
  unfold luks1Unlock
  simp only [hread, hprobe, hversion, hslots, if_neg (Nat.not_lt.mpr hbytes)]
  rfl

end SakuruBoot

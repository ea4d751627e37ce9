import SakuruBoot.Crypto.Sha1Eval
import SakuruBoot.Luks.Volume

/-!
# What the unlock functions promise, and which one runs

`unlock_writes_verified_key`: on every device, failing reads included, a successful unlock has
written a key whose PBKDF2 digest is the stored one, and a failed unlock has written nothing.

`luks_open` asks `luks2_probe` first. The two formats share their magic, so the probe accepts every
LUKS1 header and `luks1_unlock` is never reached (`luksOpen_eq_luks2`).
`luksOpen_dispatches_iff` says on which devices this makes no difference.
-/

namespace SakuruBoot
open CStr (Byte u32)
open Bytes

/-- The key an unlock function reported. -/
def LuksOut.key (out : LuksOut) : List Byte := out.masterKey.take out.keyBytes

theorem key_luks1Success {h key : List Byte} (hlen : key.length = hdrKeyBytes h) (out : LuksOut) :
    (luks1Success h key out).key = key := by
  simp only [LuksOut.key, luks1Success]
  rw [take_patch_zero _ _ _ hlen.ge, ← hlen, List.take_length]

theorem key_luks2Success {j key : List Byte} (hlen : key.length = luks2KeySize j) (out : LuksOut) :
    (luks2Success j key out).key = key := by
  simp only [LuksOut.key, luks2Success]
  rw [take_patch_zero _ _ _ hlen.ge, ← hlen, List.take_length]

/-- `out` carries a key of the header's length with the header's digest. -/
def Luks1Verified (h : List Byte) (out : LuksOut) : Prop :=
  luks1Probe h = true ∧ hdrVersion h = 1 ∧ out.keyBytes = hdrKeyBytes h ∧
    out.key.length = hdrKeyBytes h ∧
    Rfc.pbkdf2 (hdrHash h) out.key (hdrMkDigestSalt h) (hdrMkDigestIter h) 20 = hdrMkDigest h

/-- `out` carries a key of the length and with the digest that the JSON text gives. -/
def Luks2Verified (j : List Byte) (out : LuksOut) : Prop :=
  out.keyBytes = luks2KeySize j ∧ out.key.length = luks2KeySize j ∧
    Rfc.pbkdf2 (luks2Hash j) out.key (luks2DigestSalt j) (luks2DigestIters j)
        (hashDigestSize (luks2Hash j)) =
      (luks2Expected j).take (hashDigestSize (luks2Hash j))

theorem luks1Unlock_verified {dev : ReadFn} {pass : List Byte} {mem : Luks1Mem} {out : LuksOut}
    (hok : (luks1Unlock dev pass mem out).1 = 0) :
    ∃ h, dev.read 0 4 = some h ∧ Luks1Verified h (luks1Unlock dev pass mem out).2.1 := by
  rcases luks1Unlock_cases dev pass mem out with ⟨hfail, -⟩ | ⟨-, h, key, hread, hprobe, hver, -, hlen,
    hmatch, -, hout⟩
  · omega
  · refine ⟨h, hread, hprobe, hver, ?_, ?_, ?_⟩
    · rw [hout]; rfl
    · rw [hout, key_luks1Success hlen, hlen]
    · rw [hout, key_luks1Success hlen, ← pbkdf2_eq]
      exact eq_of_beq hmatch

theorem luks2Unlock_verified {dev : ReadFn} {alloc : Nat → Bool} {pass : List Byte} {mem : Luks2Mem}
    {out : LuksOut} (hok : (luks2Unlock dev alloc pass mem out).1 = 0) :
    ∃ hdr j, dev.read 0 8 = some hdr ∧ luks2Json dev hdr = some j ∧
      Luks2Verified j (luks2Unlock dev alloc pass mem out).2.1 := by
  rcases luks2Unlock_cases dev alloc pass mem out with ⟨hfail, -⟩ | ⟨-, hdr, j, key, hread, -, hjson,
    hlen, hmatch, hout⟩
  · omega
  · refine ⟨hdr, j, hread, hjson, ?_, ?_, ?_⟩
    · rw [hout]; rfl
    · rw [hout, key_luks2Success hlen, hlen]
    · rw [hout, key_luks2Success hlen, ← pbkdf2_eq]
      exact eq_of_beq hmatch

/-- Only verified keys leave the unlock functions, and a failed call leaves the outputs alone. -/
theorem unlock_writes_verified_key (dev : ReadFn) (alloc : Nat → Bool) (pass : List Byte)
    (mem : LuksMem) (out : LuksOut) :
    ((luks1Unlock dev pass mem.luks1 out).1 = 0 →
      ∃ h, dev.read 0 4 = some h ∧ Luks1Verified h (luks1Unlock dev pass mem.luks1 out).2.1) ∧
    ((luks2Unlock dev alloc pass mem.luks2 out).1 = 0 →
      ∃ hdr j, dev.read 0 8 = some hdr ∧ luks2Json dev hdr = some j ∧
        Luks2Verified j (luks2Unlock dev alloc pass mem.luks2 out).2.1) ∧
    ((luks1Unlock dev pass mem.luks1 out).1 = -1 → (luks1Unlock dev pass mem.luks1 out).2.1 = out) ∧
    ((luks2Unlock dev alloc pass mem.luks2 out).1 = -1 →
      (luks2Unlock dev alloc pass mem.luks2 out).2.1 = out) := by
  refine ⟨luks1Unlock_verified, luks2Unlock_verified, fun hfail => ?_, fun hfail => ?_⟩
  · rcases luks1Unlock_cases dev pass mem.luks1 out with ⟨-, hout⟩ | ⟨hok, -⟩
    · exact hout
    · omega
  · rcases luks2Unlock_cases dev alloc pass mem.luks2 out with ⟨-, hout⟩ | ⟨hok, -⟩
    · exact hout
    · omega

/-! ## Which unlock function runs -/

theorem luks2Probe_of_luks1Probe {h : List Byte} (hprobe : luks1Probe h = true) :
    luks2Probe h = true := by
  unfold luks1Probe at hprobe
  simp [luks2Probe, hprobe]

/-- The volume that the outcome of an unlock function stands for. -/
def unlockedVolume (dev : ReadFn) (ok : Int) (out : LuksOut) : Option LuksVol :=
  if ok = 0 then
    some (luksVolMake dev out.masterKey out.keyBytes out.payloadOffset out.cipherMode 512)
  else none

theorem openUnlocked_eq (alloc : Nat → Bool) (dev : ReadFn) (ok : Int) (out : LuksOut) :
    openUnlocked alloc dev ok out =
      if alloc luksVolSize then unlockedVolume dev ok out else none := by
  by_cases hok : ok = 0 <;> by_cases ha : alloc luksVolSize = true <;>
    simp [openUnlocked, luksVolOpen, unlockedVolume, hok, ha]

theorem luks2Unlock_of_not_probe {dev : ReadFn} (alloc : Nat → Bool) (pass : List Byte)
    (mem : Luks2Mem) (out : LuksOut) (hprobe : ∀ hdr, dev.read 0 8 = some hdr → luks2Probe hdr = false) :
    luks2Unlock dev alloc pass mem out = (-1, out, mem) := by
  unfold luks2Unlock
  split
  · rfl
  · rename_i hdr hread
    simp [hprobe hdr hread]

/-- The LUKS1 branch of `luks_open` is dead: its result is always that of `luks2_unlock`. -/
theorem luksOpen_eq_luks2 (alloc : Nat → Bool) (dev : ReadFn) (pass : List Byte) (mem : LuksMem)
    (stackKey : List Byte) :
    (luksOpen alloc dev pass mem stackKey).1 =
      let r := luks2Unlock dev alloc pass mem.luks2 (luksOpenOut stackKey)
      if alloc luksVolSize then unlockedVolume dev r.1 r.2.1 else none := by
  unfold luksOpen
  split
  · rename_i hread
    have hfail := luks2Unlock_of_not_probe alloc pass mem.luks2 (luksOpenOut stackKey)
      (fun hdr (h : dev.read 0 8 = some hdr) => by rw [hread] at h; cases h)
    simp [hfail, unlockedVolume]
  · rename_i probe hread
    by_cases h2 : luks2Probe probe = true
    · rw [if_pos h2]
      exact openUnlocked_eq _ _ _ _
    · have h1 : ¬ luks1Probe probe = true := fun h => h2 (luks2Probe_of_luks1Probe h)
      have hfail := luks2Unlock_of_not_probe alloc pass mem.luks2 (luksOpenOut stackKey)
        (fun hdr (h : dev.read 0 8 = some hdr) => by
          rw [hread, Option.some.injEq] at h
          simpa [← h] using h2)
      simp [h1, h2, hfail, unlockedVolume]

section Dispatch

variable (alloc : Nat → Bool) (img pass : List Byte) (mem : LuksMem) (stackKey : List Byte)

/-- The outcome of `luks1_unlock` on a device, as the volume it stands for. -/
def luks1Volume : Option LuksVol :=
  let r := luks1Unlock (.ofImage img) pass mem.luks1 (luksOpenOut stackKey)
  unlockedVolume (.ofImage img) r.1 r.2.1

/-- The outcome of `luks2_unlock` on a device, as the volume it stands for. -/
def luks2Volume : Option LuksVol :=
  let r := luks2Unlock (.ofImage img) alloc pass mem.luks2 (luksOpenOut stackKey)
  unlockedVolume (.ofImage img) r.1 r.2.1

/-- The device carries a LUKS header of the given version. -/
def HasVersion (v : Nat) : Prop := luks1Probe img = true ∧ hdrVersion img = v

/-- `luks_open` opens exactly what the unlock function of the header's version unlocks. -/
def Dispatches : Prop :=
  (HasVersion img 1 →
    (luksOpen alloc (.ofImage img) pass mem stackKey).1 = luks1Volume img pass mem stackKey) ∧
  (HasVersion img 2 →
    (luksOpen alloc (.ofImage img) pass mem stackKey).1 = luks2Volume alloc img pass mem stackKey)

theorem luksOpen_eq_luks2Volume : (luksOpen alloc (.ofImage img) pass mem stackKey).1 =
    if alloc luksVolSize then luks2Volume alloc img pass mem stackKey else none :=
  luksOpen_eq_luks2 alloc (.ofImage img) pass mem stackKey

variable {img}

theorem luks2Volume_of_zeros (hzero : slice img 32 8 = List.replicate 8 0) :
    luks2Volume alloc img pass mem stackKey = none := by
  have hsize : ∀ hdr, (ReadFn.ofImage img).read 0 8 = some hdr → luks2JsonSize hdr = 0 := by
    intro hdr hread
    rw [ReadFn.ofImage, Option.ite_none_right_eq_some, Option.some.injEq] at hread
    obtain ⟨-, rfl⟩ := hread
    have hfield : slice (slice img (512 * 0) (512 * 8)) 32 8 = slice img 32 8 := by
      simp [slice, List.drop_take, List.take_take]
    rw [luks2JsonSize, hfield, hzero]
    rfl
  rw [luks2Volume, luks2Unlock_of_jsonSize_zero hsize]
  rfl

theorem unlockedVolume_eq_none (dev : ReadFn) {ok : Int} {out : LuksOut} :
    unlockedVolume dev ok out = none ↔ ok ≠ 0 := by
  simp [unlockedVolume]

/-- `luks_open` dispatches as it should exactly when the header is not a LUKS1 one, or the two unlock
functions have the same outcome on it. With a cipher name of at most 24 bytes, as in every real
header, that is when `luks1_unlock` fails. -/
theorem luksOpen_dispatches_iff (img : List Byte) :
    (Dispatches alloc img pass mem stackKey ↔
      (HasVersion img 1 → luks1Volume img pass mem stackKey =
        if alloc luksVolSize then luks2Volume alloc img pass mem stackKey else none) ∧
      (HasVersion img 2 →
        alloc luksVolSize = true ∨ luks2Volume alloc img pass mem stackKey = none)) ∧
    (HasVersion img 1 ∧ slice img 32 8 = List.replicate 8 0 →
      (Dispatches alloc img pass mem stackKey ↔
        (luks1Unlock (.ofImage img) pass mem.luks1 (luksOpenOut stackKey)).1 ≠ 0)) := by
  have hgeneral : Dispatches alloc img pass mem stackKey ↔
      (HasVersion img 1 → luks1Volume img pass mem stackKey =
        if alloc luksVolSize then luks2Volume alloc img pass mem stackKey else none) ∧
      (HasVersion img 2 →
        alloc luksVolSize = true ∨ luks2Volume alloc img pass mem stackKey = none) := by
    unfold Dispatches
    rw [luksOpen_eq_luks2Volume]
    refine and_congr (imp_congr_right fun _ => eq_comm) (imp_congr_right fun _ => ?_)
    by_cases ha : alloc luksVolSize = true
    · simp [ha]
    · simp [ha, eq_comm]
  refine ⟨hgeneral, ?_⟩
  rintro ⟨hv1, hzero⟩
  have hnone := luks2Volume_of_zeros alloc pass mem stackKey hzero
  have hv2 : ¬ HasVersion img 2 := by
    rintro ⟨-, hver⟩
    have := hv1.2
    omega
  rw [hgeneral, hnone, ite_self, ← unlockedVolume_eq_none (.ofImage img)]
  exact ⟨fun h => h.1 hv1, fun h => ⟨fun _ => h, fun h2 => absurd h2 hv2⟩⟩

end Dispatch

/-- A LUKS1 device of eight sectors: `aes`, `cbc-plain`, `sha1`, a 16-byte key, and slot 0 with one
iteration and one stripe in sector 4. -/
def oneSlotImage : List Byte :=
  fit (List.flatten [luksMagic, be 2 1, fit (CStr.lit "aes") 32, fit (CStr.lit "cbc-plain") 32,
    fit (CStr.lit "sha1") 32, be 4 8, be 4 16,
    [222, 87, 78, 173, 139, 125, 46, 19, 254, 149, 139, 28, 97, 128, 87, 185, 40, 90, 248, 81],
    List.replicate 32 0, be 4 1, List.replicate 40 0,
    be 4 luks1KeyEnabled, be 4 1, List.replicate 32 0, be 4 4, be 4 1]) 4096

/-- `luks1_unlock` opens this device with the passphrase `pw`; `luks_open` returns no volume. -/
theorem luksOpen_misses_luks1 :
    (luks1Unlock (.ofImage oneSlotImage) (CStr.lit "pw") zeroMem.luks1 (luksOpenOut [])).1 = 0 ∧
      (luksOpen (fun _ => true) (.ofImage oneSlotImage) (CStr.lit "pw") zeroMem []).1.isNone ∧
      ¬ Dispatches (fun _ => true) oneSlotImage (CStr.lit "pw") zeroMem [] := by
  have hbytes : hdrKeyBytes (slice oneSlotImage 0 2048) = 16 := by decide
  have hhash : hdrHash (slice oneSlotImage 0 2048) = .sha1 := by decide
  have hstripes : slotStripes (slice oneSlotImage 0 2048) 0 = 1 := by decide
  have hsalt : slotSalt (slice oneSlotImage 0 2048) 0 = List.replicate 32 0 := by decide
  have hiter : slotIterations (slice oneSlotImage 0 2048) 0 = 1 := by decide
  have hoffset : slotKmOffset (slice oneSlotImage 0 2048) 0 = 4 := by decide
  have hdigest : hdrMkDigest (slice oneSlotImage 0 2048) =
      [222, 87, 78, 173, 139, 125, 46, 19, 254, 149, 139, 28, 97, 128, 87, 185, 40, 90, 248, 81] := by decide
  have hdigestSalt : hdrMkDigestSalt (slice oneSlotImage 0 2048) = List.replicate 32 0 := by decide
  have hdigestIter : hdrMkDigestIter (slice oneSlotImage 0 2048) = 1 := by decide
  have hderived : pbkdf2 (hdrHash (slice oneSlotImage 0 2048)) (CStr.lit "pw") (slotSalt (slice oneSlotImage 0 2048) 0)
      (slotIterations (slice oneSlotImage 0 2048) 0) (hdrKeyBytes (slice oneSlotImage 0 2048)) =
        [49, 61, 93, 110, 100, 112, 213, 87, 158, 114, 82, 90, 194, 69, 211, 130] := by
    rw [hbytes, hhash, hsalt, hiter]
    exact pbkdf2_of_hmacN (by decide) (by decide) (by decide +kernel)
  have hread : (ReadFn.ofImage oneSlotImage).read (slotKmOffset (slice oneSlotImage 0 2048) 0)
      (u32 (u32 (hdrKeyBytes (slice oneSlotImage 0 2048) * slotStripes (slice oneSlotImage 0 2048) 0) + 511) / 512) =
        some (List.replicate 512 0) := by
    rw [hbytes, hstripes, hoffset]
    exact (read_ofImage (by decide +kernel)).trans (by decide +kernel)
  -- the key material decrypts to a candidate that has the digest of the header
  have hmatches : digestMatches (slice oneSlotImage 0 2048)
      [145, 59, 188, 201, 26, 8, 81, 71, 190, 184, 166, 53, 46, 42, 31, 176] = true := by
    rw [digestMatches, hhash, hdigest, hdigestSalt, hdigestIter, beq_iff_eq]
    exact pbkdf2_of_hmacN (by decide) (by decide) (by decide +kernel)
  have hok : (luks1Unlock (.ofImage oneSlotImage) (CStr.lit "pw") zeroMem.luks1 (luksOpenOut [])).1 = 0 := by
    refine luks1Unlock_of_slot _ (read_ofImage (by decide +kernel)) ⟨by decide +kernel, by decide +kernel,
      hbytes.trans_le (by decide)⟩ (by decide) hderived ?_ hread ?_ hmatches
    · rw [hbytes, hstripes]
      decide
    · rw [luks1Candidate]
      simp only [hbytes, hhash, hstripes]
      decide +kernel
  have hv1 : HasVersion oneSlotImage 1 := ⟨by decide, by decide⟩
  have hzero : slice oneSlotImage 32 8 = List.replicate 8 0 := by decide
  have hnone := luks2Volume_of_zeros (fun _ => true) (CStr.lit "pw") zeroMem [] hzero
  have hopen : (luksOpen (fun _ => true) (.ofImage oneSlotImage) (CStr.lit "pw") zeroMem []).1 = none := by
    rw [luksOpen_eq_luks2Volume, hnone, ite_self]
  refine ⟨hok, by rw [hopen]; rfl, fun h => ?_⟩
  have := h.1 hv1
  rw [hopen, luks1Volume, eq_comm, unlockedVolume_eq_none] at this
  exact this hok

end SakuruBoot

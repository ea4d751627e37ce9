import SakuruBoot.Luks.Luks2

/-!
# The unlocked volume (`luks/luks_vol.c`)

`luksVolOpen` builds the cipher contexts from the unlocked key, `luksVolRead` delivers plaintext
sectors and `luksOpen` probes the header, unlocks and opens.

`luksVolRead_eq` is what a read on a device without errors does: the destination receives the
requested sectors one after the other, each cut out of the decrypted payload sector that holds it.
-/

namespace SakuruBoot
open CStr (Byte u32 u64)
open Bytes

structure LuksVol where
  dev : ReadFn
  payloadLba : Nat
  sectorSize : Nat
  cipherMode : CipherMode
  xts : XtsCtx
  cbc : CbcCtx

/-- `sizeof(LuksVol)`. -/
def luksVolSize : Nat := 5352

/-- A zeroed context. -/
def aesZero : AesCtx := { rk := List.replicate 60 0, nr := 0 }

/-- `luks_vol_open` after its allocation succeeded. -/
def luksVolMake (dev : ReadFn) (masterKey : List Byte) (keyBytes payloadOffset : Nat)
    (mode : CipherMode) (sectorSize : Nat) : LuksVol :=
  { dev := dev
    payloadLba := payloadOffset
    sectorSize := if 512 ≤ sectorSize then sectorSize else 512
    cipherMode := mode
    xts := if mode = .xts then xtsInit masterKey (keyBytes * 2) true else ⟨aesZero, aesZero⟩
    cbc :=
      if mode = .xts then ⟨aesZero, aesZero, .xts, aesZero⟩
      else cbcInit aesZero masterKey keyBytes mode (some keyBytes) }

def luksVolOpen (alloc : Nat → Bool) (dev : ReadFn) (masterKey : List Byte)
    (keyBytes payloadOffset : Nat) (mode : CipherMode) (sectorSize : Nat) : Option LuksVol :=
  if alloc luksVolSize then
    some (luksVolMake dev masterKey keyBytes payloadOffset mode sectorSize)
  else none

/-! ## Reading -/

def LuksVol.secsPerPayload (vol : LuksVol) : Nat :=
  if vol.sectorSize / 512 = 0 then 1 else vol.sectorSize / 512

/-- What `decrypt_buf` holds after payload sector `sec` was read and decrypted. -/
def LuksVol.payloadSector (vol : LuksVol) (sec : Nat) : Option (List Byte) :=
  let devSecs := if 4096 < vol.secsPerPayload * 512 then 8 else vol.secsPerPayload
  (vol.dev.read (u64 (vol.payloadLba + sec * vol.secsPerPayload)) devSecs).map fun enc =>
    if vol.cipherMode = .xts then xtsCrypt vol.xts sec enc vol.sectorSize true
    else cbcDecryptSector vol.cbc sec enc vol.sectorSize

/-- The copy loop: `copy` sectors of `src` to sectors `i`, `i + 1`, ... of `buf`. The byte index
`(i+j/512)*512+(j%512)` is 32-bit; only its sector part can wrap. -/
def copySectors (src : List Byte) (i copy : Nat) (buf : List Byte) : List Byte :=
  (List.range copy).foldl
    (fun buf k => patch buf (u32 ((i + k) * 512)) (slice src (512 * k) 512)) buf

/-- The loop of `luks_vol_read` from sector `i` of `count` on: the destination, and whether every
read succeeded. -/
def luksVolReadLoop (vol : LuksVol) (count : Nat) : Nat → Nat → Nat → List Byte → List Byte × Bool
  | 0, _, _, buf => (buf, true)
  | fuel + 1, i, lba, buf =>
    if count ≤ i then (buf, true)
    else
      let secOff := lba % vol.secsPerPayload
      match vol.payloadSector (lba / vol.secsPerPayload) with
      | none => (buf, false)
      | some dec =>
        let copy := min (count - i) (vol.secsPerPayload - secOff)
        luksVolReadLoop vol count fuel (i + copy) (u64 (lba + copy))
          (copySectors (dec.drop (secOff * 512)) i copy buf)

/-- `luks_vol_read`. A round copies at least one sector, so `count` rounds suffice. -/
def luksVolRead (vol : LuksVol) (lba count : Nat) (buf : List Byte) : List Byte × Bool :=
  luksVolReadLoop vol count count 0 lba buf

/-! ## What a read delivers -/

/-- The plaintext of payload sector `sec`, stored as `enc`. -/
def LuksVol.decryptPayload (vol : LuksVol) (sec : Nat) (enc : List Byte) : List Byte :=
  if vol.cipherMode = .xts then xtsCrypt vol.xts sec enc vol.sectorSize true
  else cbcDecryptSector vol.cbc sec enc vol.sectorSize

/-- What the device holds at the place of payload sector `sec`. -/
def LuksVol.stored (vol : LuksVol) (sec : Nat) : List Byte :=
  (vol.dev.read (vol.payloadLba + sec * vol.secsPerPayload) vol.secsPerPayload).getD []

/-- Sector `n` of the plaintext volume. -/
def LuksVol.plainSector (vol : LuksVol) (n : Nat) : List Byte :=
  slice (vol.decryptPayload (n / vol.secsPerPayload) (vol.stored (n / vol.secsPerPayload)))
    (512 * (n % vol.secsPerPayload)) 512

/-- The device can be read wherever a request needs it, below the end of the 64-bit addresses. -/
structure LuksVol.Readable (vol : LuksVol) (lba count : Nat) : Prop where
  addr : ∀ k < count,
    vol.payloadLba + (lba + k) / vol.secsPerPayload * vol.secsPerPayload + vol.secsPerPayload ≤ 2 ^ 64
  read : ∀ k < count, (vol.dev.read
    (vol.payloadLba + (lba + k) / vol.secsPerPayload * vol.secsPerPayload) vol.secsPerPayload).isSome

/-- The copy loop writes its sectors one behind the other. -/
theorem copySectors_eq {src : List Byte} {i copy : Nat} (hlen : 512 * copy ≤ src.length)
    (hwrap : 512 * (i + copy) ≤ 2 ^ 32) (buf : List Byte) :
    copySectors src i copy buf = patch buf (512 * i) (src.take (512 * copy)) := by
  induction copy with
  | zero => simp [copySectors, patch]
  | succ copy ih =>
    have hlen' : 512 * copy ≤ src.length := by omega
    have hwrap' : 512 * (i + copy) < 2 ^ 32 := by omega
    have hprev := ih hlen' hwrap'.le
    have hoff : u32 ((i + copy) * 512) = 512 * i + (src.take (512 * copy)).length := by
      rw [List.length_take, Nat.mul_comm, u32, Nat.mod_eq_of_lt hwrap', Nat.min_eq_left hlen', Nat.mul_add]
    rw [copySectors, List.range_succ, List.foldl_append, List.foldl_cons, List.foldl_nil]
    rw [← copySectors, hprev, hoff, patch_append, slice, ← List.take_add, Nat.mul_succ]

theorem length_decryptPayload (vol : LuksVol) (sec : Nat) (enc : List Byte) :
    (vol.decryptPayload sec enc).length = 16 * (vol.sectorSize / 16) := by
  unfold LuksVol.decryptPayload
  split_ifs
  · rw [xtsCrypt, length_xtsBlocks]
  · rw [cbcDecryptSector, length_cbcBlocks]

section Read

variable {vol : LuksVol} {spp : Nat}

theorem secsPerPayload_eq (hsize : vol.sectorSize = 512 * spp) (hpos : 0 < spp) :
    vol.secsPerPayload = spp := by
  have hdiv : vol.sectorSize / 512 = spp := by omega
  rw [LuksVol.secsPerPayload, hdiv, if_neg (by omega)]

theorem payloadSector_eq (hsize : vol.sectorSize = 512 * spp) (hpos : 0 < spp) (hle : spp ≤ 8)
    {sec : Nat} (haddr : vol.payloadLba + sec * spp < 2 ^ 64)
    (hread : (vol.dev.read (vol.payloadLba + sec * spp) spp).isSome) :
    vol.payloadSector sec = some (vol.decryptPayload sec (vol.stored sec)) := by
  obtain ⟨enc, henc⟩ := Option.isSome_iff_exists.mp hread
  rw [LuksVol.payloadSector, LuksVol.stored, secsPerPayload_eq hsize hpos, if_neg (by omega), u64,
    Nat.mod_eq_of_lt haddr, henc, Option.map_some, Option.getD_some, LuksVol.decryptPayload]

/-- The sectors of one payload sector are those from `n` on that one round of the loop copies. -/
theorem take_decryptPayload (hsize : vol.sectorSize = 512 * spp) (hpos : 0 < spp) {n copy : Nat}
    (hcopy : n % spp + copy ≤ spp) :
    ((vol.decryptPayload (n / spp) (vol.stored (n / spp))).drop (n % spp * 512)).take (512 * copy) =
      (List.range copy).flatMap fun j => vol.plainSector (n + j) := by
  rw [← flatMap_slice]
  refine List.flatMap_congr fun j hj => ?_
  have hlt : n % spp + j < spp := by have := List.mem_range.mp hj; omega
  have hdiv : (n + j) / spp = n / spp := by
    rw [← Nat.div_add_mod n spp, Nat.add_assoc, Nat.mul_add_div hpos, Nat.div_eq_of_lt hlt,
      Nat.mul_add_div hpos, Nat.div_eq_of_lt (Nat.mod_lt n hpos)]
  have hmod : (n + j) % spp = n % spp + j := by
    rw [← Nat.mod_add_mod, Nat.mod_eq_of_lt hlt]
  rw [LuksVol.plainSector, secsPerPayload_eq hsize hpos, hdiv, hmod, slice, slice, List.drop_drop]
  congr 2
  omega

theorem luksVolReadLoop_eq (hsize : vol.sectorSize = 512 * spp) (hpos : 0 < spp) (hle : spp ≤ 8)
    {lba count : Nat} (hcount : 512 * count ≤ 2 ^ 32) (hdev : vol.Readable lba count)
    {fuel i : Nat} (hfuel : count ≤ i + fuel) (buf : List Byte) :
    luksVolReadLoop vol count fuel i (u64 (lba + i)) buf =
      (patch buf (512 * i) ((List.range (count - i)).flatMap fun j => vol.plainSector (lba + i + j)),
        true) := by
  induction fuel generalizing i buf with
  | zero =>
    rw [luksVolReadLoop, Nat.sub_eq_zero_of_le (by omega)]
    simp [patch]
  | succ fuel ih =>
    rw [luksVolReadLoop]
    split_ifs with hi
    · rw [Nat.sub_eq_zero_of_le hi]
      simp [patch]
    · have hk : i < count := by omega
      have haddr := hdev.addr i hk
      have hread := hdev.read i hk
      rw [secsPerPayload_eq hsize hpos] at haddr hread
      have hdivmod : (lba + i) / spp * spp + (lba + i) % spp = lba + i := Nat.div_add_mod' (lba + i) spp
      have hmod : (lba + i) % spp < spp := Nat.mod_lt _ hpos
      have hlba : u64 (lba + i) = lba + i := Nat.mod_eq_of_lt (by omega)
      have hsector := payloadSector_eq hsize hpos hle (by omega) hread
      obtain ⟨copy, hcopy⟩ : ∃ copy, copy = min (count - i) (spp - (lba + i) % spp) := ⟨_, rfl⟩
      have hin : (lba + i) % spp + copy ≤ spp := by omega
      have hround := take_decryptPayload hsize hpos hin
      have hlen : 512 * copy ≤
          ((vol.decryptPayload ((lba + i) / spp) (vol.stored ((lba + i) / spp))).drop
            ((lba + i) % spp * 512)).length := by
        rw [List.length_drop, length_decryptPayload, hsize]
        omega
      have hsum : count - i = copy + (count - (i + copy)) := by omega
      rw [hlba, secsPerPayload_eq hsize hpos, hsector]
      dsimp only
      rw [← hcopy, Nat.add_assoc, ih (by omega), copySectors_eq hlen (by omega), hround, hsum,
        List.range_add, List.flatMap_append]
      have hwritten : ((List.range copy).flatMap fun j => vol.plainSector (lba + i + j)).length =
          512 * copy := by
        rw [← hround, List.length_take, Nat.min_eq_left hlen]
      have hrest : ((List.range (count - (i + copy))).map (copy + ·)).flatMap
            (fun j => vol.plainSector (lba + i + j)) =
          (List.range (count - (i + copy))).flatMap fun j => vol.plainSector (lba + (i + copy) + j) := by
        rw [List.flatMap_map]
        refine List.flatMap_congr fun j _ => ?_
        rw [← Nat.add_assoc (lba + i), ← Nat.add_assoc lba]
      rw [hrest, ← patch_append, hwritten, Nat.mul_add]

theorem luksVolRead_eq (hsize : vol.sectorSize = 512 * spp) (hpos : 0 < spp) (hle : spp ≤ 8)
    {lba count : Nat} (hcount : 512 * count ≤ 2 ^ 32) (hdev : vol.Readable lba count) (buf : List Byte) :
    luksVolRead vol (u64 lba) count buf =
      (patch buf 0 ((List.range count).flatMap fun k => vol.plainSector (lba + k)), true) :=
  luksVolReadLoop_eq hsize hpos hle hcount hdev (Nat.le_of_eq (Nat.zero_add _).symm) buf

theorem LuksVol.Readable.left {lba a b : Nat} (h : vol.Readable lba (a + b)) : vol.Readable lba a where
  addr k hk := h.addr k (by omega)
  read k hk := h.read k (by omega)

theorem LuksVol.Readable.right {lba a b : Nat} (h : vol.Readable lba (a + b)) : vol.Readable (lba + a) b where
  addr k hk := by
    rw [Nat.add_assoc lba]
    exact h.addr (a + k) (by omega)
  read k hk := by
    rw [Nat.add_assoc lba]
    exact h.read (a + k) (by omega)

theorem length_plainSector (hsize : vol.sectorSize = 512 * spp) (hpos : 0 < spp) (n : Nat) :
    (vol.plainSector n).length = 512 := by
  have hmod : n % spp < spp := Nat.mod_lt _ hpos
  rw [LuksVol.plainSector, length_slice, length_decryptPayload, secsPerPayload_eq hsize hpos, hsize]
  omega

theorem length_plainSectors (hsize : vol.sectorSize = 512 * spp) (hpos : 0 < spp) (lba n : Nat) :
    ((List.range n).flatMap fun k => vol.plainSector (lba + k)).length = 512 * n := by
  rw [length_flatMap_const fun i _ => length_plainSector hsize hpos (lba + i), List.length_range]

theorem luksVolRead_add (hsize : vol.sectorSize = 512 * spp) (hpos : 0 < spp) (hle : spp ≤ 8)
    {lba a b : Nat} (hcount : 512 * (a + b) ≤ 2 ^ 32) (hdev : vol.Readable lba (a + b)) (buf : List Byte)
    {first second : List Byte × Bool} (hfirst : first = luksVolRead vol (u64 lba) a buf)
    (hsecond : second = luksVolRead vol (u64 (lba + a)) b (first.1.drop (512 * a))) :
    first.2 = true ∧ second.2 = true ∧
      luksVolRead vol (u64 lba) (a + b) buf = (first.1.take (512 * a) ++ second.1, true) := by
  have hlen := length_plainSectors hsize hpos lba a
  rw [luksVolRead_eq hsize hpos hle (by omega) hdev.left, patch_zero, hlen] at hfirst
  rw [hfirst, List.drop_left' hlen, luksVolRead_eq hsize hpos hle (by omega) hdev.right, patch_zero,
    length_plainSectors hsize hpos, List.drop_drop] at hsecond
  rw [hfirst, hsecond, List.take_left' hlen, luksVolRead_eq hsize hpos hle hcount hdev]
  refine ⟨rfl, rfl, ?_⟩
  simp only [Nat.add_assoc]
  rw [patch_zero, length_plainSectors hsize hpos, List.range_add, List.flatMap_append, List.flatMap_map,
    List.append_assoc, Nat.mul_add]

/-- Sector `k` of a read is its slice of its payload sector, and a read can be cut in two anywhere. -/
theorem luksVolRead_sectors (hsize : vol.sectorSize = 512 * spp) (hpos : 0 < spp) (hle : vol.sectorSize ≤ 4096)
    {lba count : Nat} (hlba : lba < 2 ^ 64) (hcount : count < 2 ^ 23) (hdev : vol.Readable lba count)
    (buf : List Byte) :
    (luksVolRead vol lba count buf).2 = true ∧
    (∀ k < count, slice (luksVolRead vol lba count buf).1 (512 * k) 512 =
      slice (vol.decryptPayload ((lba + k) / spp) (vol.stored ((lba + k) / spp))) (512 * ((lba + k) % spp)) 512) ∧
    ∀ a b, a + b = count → ∀ first second, first = luksVolRead vol lba a buf →
      second = luksVolRead vol (u64 (lba + a)) b (first.1.drop (512 * a)) →
      first.2 = true ∧ second.2 = true ∧
        luksVolRead vol lba count buf = (first.1.take (512 * a) ++ second.1, true) := by
  have hu64 : u64 lba = lba := Nat.mod_eq_of_lt hlba
  have hspp : spp ≤ 8 := by omega
  have hread := luksVolRead_eq hsize hpos hspp (by omega) hdev buf
  rw [hu64] at hread
  refine ⟨?_, ?_, ?_⟩
  · rw [hread]
  · intro k hk
    have hfits : 512 * k + 512 ≤ 512 * count := by omega
    rw [hread, patch_zero, slice_append_left (by rwa [length_plainSectors hsize hpos]),
      slice_flatMap_range (fun i _ => length_plainSector hsize hpos (lba + i)) hk, LuksVol.plainSector,
      secsPerPayload_eq hsize hpos]
  · rintro a b rfl first second hfirst hsecond
    have hadd := luksVolRead_add hsize hpos hspp (by omega) hdev buf (by rwa [hu64]) hsecond
    rwa [hu64] at hadd

/-- Payload sectors of 1024 bytes on a device of eight sectors. -/
def pairVolume : LuksVol :=
  luksVolMake (ReadFn.ofImage (List.replicate 4096 0)) (List.replicate 64 0) 32 2 .xts 1024

theorem pairVolume_readable : pairVolume.Readable 1 2 where
  addr := by decide
  read := by
    intro k hk
    show ((ReadFn.ofImage (List.replicate 4096 0)).read (2 + (1 + k) / 2 * 2) 2).isSome = true
    rw [read_ofImage (by rw [List.length_replicate]; omega)]
    rfl

/-- A request that starts in the middle of a payload sector and ends in the next one. -/
theorem luksVolRead_pairVolume :
    slice (luksVolRead pairVolume 1 2 (List.replicate 1024 0)).1 512 512 =
      slice (pairVolume.decryptPayload 1 (pairVolume.stored 1)) 0 512 :=
  (luksVolRead_sectors rfl (by decide : 0 < 2) (by decide) (by decide) (by decide) pairVolume_readable
    (List.replicate 1024 0)).2.1 1 (by decide)

end Read

/-! ## Probing and opening -/

structure LuksMem where
  luks1 : Luks1Mem
  luks2 : Luks2Mem

def zeroMem : LuksMem := { luks1 := ⟨[], [], [], aesZero⟩, luks2 := ⟨[], [], []⟩ }

/-- The output variables as `luks_open` declares them; `masterKey` is its stack array. -/
def luksOpenOut (masterKey : List Byte) : LuksOut :=
  { masterKey := masterKey, keyBytes := 0, payloadOffset := 0, cipherMode := .xts }

/-- The volume `luks_open` opens on what an unlock function left in its variables. -/
def openUnlocked (alloc : Nat → Bool) (dev : ReadFn) (ok : Int) (out : LuksOut) : Option LuksVol :=
  if ok ≠ 0 then none
  else luksVolOpen alloc dev out.masterKey out.keyBytes out.payloadOffset out.cipherMode 512

def luksOpen (alloc : Nat → Bool) (dev : ReadFn) (pass : List Byte) (mem : LuksMem)
    (stackKey : List Byte) : Option LuksVol × LuksMem :=
  match dev.read 0 8 with
  | none => (none, mem)
  | some probe =>
    if luks2Probe probe then
      let r := luks2Unlock dev alloc pass mem.luks2 (luksOpenOut stackKey)
      (openUnlocked alloc dev r.1 r.2.1, { mem with luks2 := r.2.2 })
    else if luks1Probe probe then
      let r := luks1Unlock dev pass mem.luks1 (luksOpenOut stackKey)
      (openUnlocked alloc dev r.1 r.2.1, { mem with luks1 := r.2.2 })
    else (none, mem)

end SakuruBoot

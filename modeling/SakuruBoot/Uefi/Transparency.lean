import SakuruBoot.Crypto.Xts
import SakuruBoot.Uefi.Ext4Ref
import SakuruBoot.Uefi.Partition

/-!
# Encrypted and plain volumes (`uefi/ext4.c` over `luks/luks_vol.c`)

A volume holds an image when its decrypted sectors are the image and its device ends with them (`LuksVol.Holds`);
`sealedVolume` is one for every image. `read_bytes` gets from it what it gets from a partition with the image
(`readBytes_luks`, `readBytes_plain`). The ext4 reader gets at a volume through `read_bytes` alone, so its operations
have equal results over volumes with equal reads (`ext4Ops_of_sameReads`).
-/

namespace SakuruBoot
open CStr (Byte u32 u64)
open Bytes

/-- The decrypted sectors of the volume are `image`, and reads behind them fail. -/
structure LuksVol.Holds (vol : LuksVol) (image : List Byte) : Prop where
  size_eq : vol.sectorSize = 512 * vol.secsPerPayload
  size_le : vol.sectorSize ≤ 4096
  whole : 512 * vol.secsPerPayload ∣ image.length
  plain : ∀ n, 512 * n < image.length → vol.plainSector n = slice image (512 * n) 512
  lba_le : vol.payloadLba ≤ 2 ^ 63
  read_iff : ∀ sec, (vol.dev.read (vol.payloadLba + sec * vol.secsPerPayload) vol.secsPerPayload).isSome ↔
    512 * vol.secsPerPayload * sec < image.length

theorem LuksVol.secsPerPayload_pos (vol : LuksVol) : 0 < vol.secsPerPayload := by
  rw [LuksVol.secsPerPayload]
  split_ifs with h
  · exact Nat.one_pos
  · exact Nat.pos_of_ne_zero h

/-! ## The image sealed with a key -/

section Sealed

variable (masterKey : List Byte) (keyBytes : Nat) (image : List Byte)

/-- The image, encrypted sector by sector. -/
def sealSectors : List Byte :=
  (List.range (image.length / 512)).flatMap fun n =>
    xtsCrypt (xtsInit masterKey (keyBytes * 2) false) n (slice image (512 * n) 512) 512 false

/-- The volume that `luks_vol_open` makes of the sealed image. -/
def sealedVolume : LuksVol :=
  luksVolMake (ReadFn.ofImage (sealSectors masterKey keyBytes image)) masterKey keyBytes 0 .xts 512

theorem length_sealSectors : (sealSectors masterKey keyBytes image).length = 512 * (image.length / 512) := by
  rw [sealSectors, length_flatMap_const (c := 512), List.length_range]
  intro n _
  rw [xtsCrypt, length_xtsBlocks]

theorem sectorSize_sealedVolume : (sealedVolume masterKey keyBytes image).sectorSize = 512 := by
  rw [sealedVolume, luksVolMake, if_pos (Nat.le_refl 512)]

theorem secsPerPayload_sealedVolume : (sealedVolume masterKey keyBytes image).secsPerPayload = 1 :=
  secsPerPayload_eq (show _ = 512 * 1 from sectorSize_sealedVolume masterKey keyBytes image) Nat.one_pos

theorem plainSector_sealedVolume {n : Nat} (hn : 512 * n + 512 ≤ image.length) :
    (sealedVolume masterKey keyBytes image).plainSector n = slice image (512 * n) 512 := by
  have hstored : (sealedVolume masterKey keyBytes image).stored n =
      xtsCrypt (xtsInit masterKey (keyBytes * 2) false) n (slice image (512 * n) 512) 512 false := by
    rw [LuksVol.stored, secsPerPayload_sealedVolume]
    show ((ReadFn.ofImage (sealSectors masterKey keyBytes image)).read (0 + n * 1) 1).getD [] = _
    rw [read_ofImage (by rw [length_sealSectors]; omega), Option.getD_some, Nat.zero_add, Nat.mul_one, sealSectors]
    apply slice_flatMap_range
    · intro i _
      rw [xtsCrypt, length_xtsBlocks]
    · omega
  have hround : xtsCrypt (xtsInit masterKey (keyBytes * 2) true) n
      (xtsCrypt (xtsInit masterKey (keyBytes * 2) false) n (slice image (512 * n) 512) 512 false) 512 true =
        slice image (512 * n) 512 := by
    have hlen : (slice image (512 * n) 512).length = 512 := by rw [length_slice]; omega
    have hdata : (xtsInit masterKey (keyBytes * 2) true).data = (xtsInit masterKey (keyBytes * 2) false).data := rfl
    have h := xtsBlocks_undo false hdata (aesInitEnc_nr_pos _ _) 32
      (aesEncryptBlock (aesInitEnc (masterKey.drop (keyBytes * 2 / 2)) (keyBytes * 2 / 2)) (Block.ofBytes (le 8 n)))
      hlen.ge []
    rwa [List.append_nil, List.take_of_length_le hlen.le] at h
  have hpayload : (sealedVolume masterKey keyBytes image).decryptPayload n
      ((sealedVolume masterKey keyBytes image).stored n) = slice image (512 * n) 512 := by
    rw [LuksVol.decryptPayload, if_pos (show (sealedVolume masterKey keyBytes image).cipherMode = .xts from rfl),
      sectorSize_sealedVolume, hstored]
    exact hround
  rw [LuksVol.plainSector, secsPerPayload_sealedVolume, Nat.div_one, Nat.mod_one, hpayload, slice_slice (by omega)]
  rfl

theorem sealedVolume_holds (hwhole : 512 ∣ image.length) : (sealedVolume masterKey keyBytes image).Holds image where
  size_eq := by rw [sectorSize_sealedVolume, secsPerPayload_sealedVolume]
  size_le := by
    rw [sectorSize_sealedVolume]
    omega
  whole := by rwa [secsPerPayload_sealedVolume]
  plain n hn := plainSector_sealedVolume masterKey keyBytes image (by omega)
  lba_le := Nat.zero_le _
  read_iff sec := by
    rw [secsPerPayload_sealedVolume]
    show (if 512 * (0 + sec * 1 + 1) ≤ (sealSectors masterKey keyBytes image).length then some _ else none).isSome ↔
      512 * 1 * sec < _
    rw [length_sealSectors]
    split_ifs with h
    · simp only [Option.isSome_some, true_iff]
      omega
    · simp only [Option.isSome_none, Bool.false_eq_true, false_iff]
      omega

end Sealed

/-! ## Reads through the decryption -/

section Luks

variable {vol : LuksVol} {image : List Byte} (h : vol.Holds image) (hlen : image.length < 2 ^ 64)
include h hlen

theorem LuksVol.Holds.readable {lba count : Nat} (hin : 512 * (lba + count) ≤ image.length) :
    vol.Readable lba count where
  addr k hk := by
    have hle := Nat.div_mul_le_self (lba + k) vol.secsPerPayload
    have hlba := h.lba_le
    have hsize := h.size_le
    rw [h.size_eq] at hsize
    omega
  read k hk := by
    have hle := Nat.div_mul_le_self (lba + k) vol.secsPerPayload
    rw [h.read_iff, Nat.mul_assoc, Nat.mul_comm vol.secsPerPayload]
    omega

theorem luksVolRead_holds {lba count : Nat} (hcount : 512 * count ≤ 2 ^ 32) (hin : 512 * (lba + count) ≤ image.length)
    (buf : List Byte) :
    luksVolRead vol lba count buf = (patch buf 0 (slice image (512 * lba) (512 * count)), true) := by
  have hle : vol.secsPerPayload ≤ 8 := by
    have hsize := h.size_le
    rw [h.size_eq] at hsize
    omega
  have hread := luksVolRead_eq h.size_eq vol.secsPerPayload_pos hle hcount (h.readable hlen hin) buf
  have hlba : u64 lba = lba := Nat.mod_eq_of_lt (by omega)
  have hplain : ((List.range count).flatMap fun k => vol.plainSector (lba + k)) =
      slice image (512 * lba) (512 * count) := by
    rw [slice, ← flatMap_slice]
    refine List.flatMap_congr fun k hk => ?_
    have hk := List.mem_range.mp hk
    rw [h.plain _ (by omega), slice, slice, List.drop_drop, Nat.mul_add]
  rwa [hlba, hplain] at hread

theorem luksVolReadLoop_past {count fuel i lba : Nat} (hi : i < count) (hfuel : count ≤ i + fuel) (hlba : lba ≤ 2 ^ 55)
    (hpast : image.length < 512 * (lba + (count - i))) (buf : List Byte) :
    (luksVolReadLoop vol count fuel i lba buf).2 = false := by
  induction fuel generalizing i lba buf with
  | zero => omega
  | succ fuel ih =>
    have hpos := vol.secsPerPayload_pos
    have hsize := h.size_le
    have hlba63 := h.lba_le
    have hdivmod := Nat.div_add_mod' lba vol.secsPerPayload
    have hmod := Nat.mod_lt lba hpos
    have haddr : u64 (vol.payloadLba + lba / vol.secsPerPayload * vol.secsPerPayload) =
        vol.payloadLba + lba / vol.secsPerPayload * vol.secsPerPayload := Nat.mod_eq_of_lt (by omega)
    rw [h.size_eq] at hsize
    rw [luksVolReadLoop, if_neg (by omega), LuksVol.payloadSector, if_neg (by omega), haddr]
    cases hread : vol.dev.read (vol.payloadLba + lba / vol.secsPerPayload * vol.secsPerPayload) vol.secsPerPayload with
    | none => rfl
    | some enc =>
      have hin := (h.read_iff (lba / vol.secsPerPayload)).mp (by rw [hread]; rfl)
      obtain ⟨m, hm⟩ := h.whole
      have hsec : lba / vol.secsPerPayload < m := by
        rw [hm] at hin
        exact Nat.lt_of_mul_lt_mul_left hin
      have hend : (lba / vol.secsPerPayload + 1) * vol.secsPerPayload ≤ m * vol.secsPerPayload :=
        Nat.mul_le_mul_right _ hsec
      rw [Nat.succ_mul] at hend
      rw [Nat.mul_assoc, Nat.mul_comm vol.secsPerPayload] at hm
      have hnext : u64 (lba + min (count - i) (vol.secsPerPayload - lba % vol.secsPerPayload)) =
          lba + min (count - i) (vol.secsPerPayload - lba % vol.secsPerPayload) := Nat.mod_eq_of_lt (by omega)
      dsimp only [Option.map_some]
      rw [hnext]
      apply ih
      · omega
      · omega
      · omega
      · omega

end Luks

/-! ## The three branches of `read_bytes` -/

section Branches

variable {off n : Nat}

/-- The sectors a range touches are few enough for their bytes to be counted in 32 bits. -/
def SectorsFit (off n : Nat) : Prop := 512 * ((off + n - 1) / 512 - off / 512 + 1) ≤ 2 ^ 32

theorem imageRead_past {image : List Byte} (h : image.length < off + n) : imageRead image off n = (false, []) :=
  if_neg (by omega)

theorem readBytes_luks (pool : AmplePool) {vol : LuksVol} {image : List Byte} (h : vol.Holds image)
    (hlen : image.length < 2 ^ 64) {v : Ext4Vol} (hv : v.luksVol = some vol) (hn : 0 < n) (hoff : off < 2 ^ 64)
    (hfit : SectorsFit off n) : readBytes pool.toPool v off n = imageRead image off n := by
  unfold SectorsFit at hfit
  have hcount : u32 (unitSpan 512 off n).2 = (off + n - 1) / 512 - off / 512 + 1 := by
    simp only [unitSpan, u32, u64]
    omega
  by_cases hin : off + n ≤ image.length
  · have hend := span_end 512 off hn
    have hwhole : 512 ∣ image.length := (Nat.dvd_mul_right 512 _).trans h.whole
    have hle : ((off + n - 1) / 512 + 1) * 512 ≤ image.length := by omega
    have hunits : 512 * (off / 512 + ((off + n - 1) / 512 - off / 512 + 1)) ≤ image.length := by omega
    have hread := luksVolRead_holds h hlen hfit hunits (pool.mem (u64 ((unitSpan 512 off n).2 * 512)))
    rw [readBytes, hv, imageRead_eq hin]
    dsimp only
    rw [pool.alloc_eq, hcount, show (unitSpan 512 off n).1 = off / 512 from rfl, hread, patch_zero,
      Nat.mul_comm 512 (off / 512), Nat.mul_comm 512 (_ + 1), fit_units (by omega) hn hle]
    rfl
  · have hpast : (luksVolRead vol (off / 512) ((off + n - 1) / 512 - off / 512 + 1)
        (pool.mem (u64 ((unitSpan 512 off n).2 * 512)))).2 = false := by
      apply luksVolReadLoop_past h hlen (Nat.succ_pos _)
      · omega
      · omega
      · omega
    rw [readBytes, hv, imageRead_past (by omega)]
    dsimp only
    rw [pool.alloc_eq, hcount, show (unitSpan 512 off n).1 = off / 512 from rfl, hpast]
    rfl

/-- Whole blocks around a range that goes past the image go past it too, also where the end of the range wraps. -/
theorem unitSpan_past {size len : Nat} (hsize : 0 < size) (hsmall : n + 2 * size ≤ 2 ^ 63) (hn : 0 < n)
    (hoff : off < 2 ^ 64) (hlen : len < 2 ^ 64) (hpast : len < off + n) :
    len < off / size * size + u64 ((unitSpan size off n).2 * size) := by
  have hfirst := Nat.div_add_mod' off size
  have hmod := Nat.mod_lt off hsize
  by_cases hwrap : off + n ≤ 2 ^ 64
  · have hend := span_end size off hn
    have hlt := lt_span_end off n hsize
    have hlast : ((off + n - 1) / size + 1) * size ≤ off + n - 1 + size := by
      rw [Nat.succ_mul]
      exact Nat.add_le_add_right (Nat.div_mul_le_self _ _) _
    have hunits := Nat.le_mul_of_pos_right ((off + n - 1) / size - off / size + 1) hsize
    have hfirstLe : off / size ≤ (off + n - 1) / size := Nat.div_le_div_right (by omega)
    have hcount : (unitSpan size off n).2 = (off + n - 1) / size - off / size + 1 := by
      rw [unitSpan, show u64 (off + n + 2 ^ 64 - 1) = off + n - 1 by rw [u64]; omega]
      dsimp only
      rw [u64]
      omega
    rw [hcount, u64, Nat.mod_eq_of_lt (by omega)]
    omega
  · obtain ⟨r, hr⟩ : ∃ r, r = off + n - 1 - 2 ^ 64 := ⟨_, rfl⟩
    have hu64 : u64 (off + n + 2 ^ 64 - 1) = r := by
      rw [u64]
      omega
    have hlast : (r / size + 1) * size ≤ r + size := by
      rw [Nat.succ_mul]
      exact Nat.add_le_add_right (Nat.div_mul_le_self _ _) _
    have hlt : r / size + 1 < off / size := Nat.lt_of_mul_lt_mul_right (a := size) (by omega)
    have hfirstLe := Nat.div_le_self off size
    have hcount : (unitSpan size off n).2 = 2 ^ 64 - (off / size - (r / size + 1)) := by
      rw [unitSpan, hu64]
      dsimp only
      rw [u64]
      generalize r / size = last at hlt ⊢
      generalize off / size = first at hlt hfirstLe ⊢
      omega
    have hdist : (off / size - (r / size + 1)) * size = off / size * size - (r / size + 1) * size := Nat.sub_mul _ _ _
    -- the count is 2^64 less the distance, so the bytes are 2^64 less those of the distance
    have htotal : u64 ((unitSpan size off n).2 * size) = 2 ^ 64 - (off / size - (r / size + 1)) * size := by
      have hsplit : (2 ^ 64 - (off / size - (r / size + 1))) * size =
          2 ^ 64 * (size - 1) + (2 ^ 64 - (off / size - (r / size + 1)) * size) := by
        rw [Nat.sub_mul, Nat.mul_sub_one]
        omega
      rw [hcount, hsplit, u64, Nat.mul_add_mod, Nat.mod_eq_of_lt]
      have := Nat.mul_le_mul_right size hlt
      rw [Nat.succ_mul] at this
      omega
    rw [htotal]
    omega

theorem readBytes_plain (pool : AmplePool) (part : Partition) (hblock : part.media.blockSize < 2 ^ 32) {v : Ext4Vol}
    (hluks : v.luksVol = none) (hdio : v.dio = part.dio) (hbio : v.bio = some part.bio)
    (hphys : v.physBlkSz = part.media.blockSize) (hn : 0 < n) (hsmall : n ≤ 2 ^ 32) (hoff : off < 2 ^ 64) :
    readBytes pool.toPool v off n = imageRead part.image off n := by
  by_cases hin : off + n ≤ part.image.length
  · rw [delivers_plain pool part hluks hdio hbio hphys off n hn hin, imageRead_eq hin]
  · rw [readBytes, hluks, hdio, hbio, hphys, Partition.dio]
    cases part.hasDio with
    | true => rfl
    | false =>
      have hpast : part.image.length < off / part.media.blockSize * part.media.blockSize +
          u64 ((unitSpan part.media.blockSize off n).2 * part.media.blockSize) :=
        unitSpan_past part.blockSize_pos (by omega) hn hoff part.length_lt (by omega)
      have hread := imageRead_past hpast
      rw [imageRead_past (by omega)]
      simp only [Bool.false_eq_true, if_false, pool.alloc_eq, Bool.not_true, Partition.bio, FwRead.blockIo]
      simp only [show (unitSpan part.media.blockSize off n).1 = off / part.media.blockSize from rfl, hread,
        Bool.false_eq_true, if_false]

/-! A volume whose block size the shift has lost is read in blocks of no bytes. -/

theorem fit_zero (buf : List Byte) : fit buf 0 = [] := by
  rw [fit, List.take_zero, Nat.zero_sub]
  rfl

theorem readBytes_luks_zero (pool : AmplePool) {vol : LuksVol} {v : Ext4Vol} (hv : v.luksVol = some vol) :
    readBytes pool.toPool v 0 0 = (true, []) := by
  rw [readBytes, hv]
  dsimp only
  rw [pool.alloc_eq, show u32 (unitSpan 512 0 0).2 = 0 from rfl, luksVolRead, luksVolReadLoop, fit_zero]
  rfl

theorem readBytes_plain_zero (pool : AmplePool) (part : Partition) {v : Ext4Vol} (hluks : v.luksVol = none)
    (hdio : v.dio = part.dio) (hbio : v.bio = some part.bio) (hphys : v.physBlkSz = part.media.blockSize) :
    readBytes pool.toPool v 0 0 = (true, []) := by
  have hpos := part.blockSize_pos
  have hlt := part.length_lt
  have hlen := part.length_eq
  rw [Nat.succ_mul] at hlen
  rw [readBytes, hluks, hdio, hbio, hphys, Partition.dio]
  cases part.hasDio with
  | true => rfl
  | false =>
    have hdivmod := Nat.div_add_mod' (2 ^ 64 - 1) part.media.blockSize
    have hmod := Nat.mod_lt (2 ^ 64 - 1) hpos
    -- the blocks counted are those up to the end of the addresses, so their bytes wrap to less than one block
    have htotal : u64 ((unitSpan part.media.blockSize 0 0).2 * part.media.blockSize) < part.media.blockSize := by
      have hcount : (unitSpan part.media.blockSize 0 0).2 = u64 ((2 ^ 64 - 1) / part.media.blockSize + 1) := by
        rw [unitSpan, Nat.zero_div]
        dsimp only
        rw [show u64 (0 + 0 + 2 ^ 64 - 1) = 2 ^ 64 - 1 from rfl, u64, u64]
        generalize (2 ^ 64 - 1) / part.media.blockSize = q
        omega
      rw [hcount, u64, u64, Nat.mod_mul_mod, Nat.succ_mul]
      omega
    have hin : 0 + u64 ((unitSpan part.media.blockSize 0 0).2 * part.media.blockSize) ≤ part.image.length := by omega
    have hread := imageRead_eq hin
    simp only [Bool.false_eq_true, if_false, pool.alloc_eq, Bool.not_true, Partition.bio, FwRead.blockIo]
    simp only [show (unitSpan part.media.blockSize 0 0).1 = 0 from Nat.zero_div _, Nat.zero_mul, hread, if_true, fit_zero]

end Branches

/-! ## Operations over equal reads -/

/-- The volume with another backing and the fields of its superblock. -/
def Ext4Vol.withBacking (v : Ext4Vol) (luksVol : Option LuksVol) (dio bio : Option FwRead) (physBlkSz : Nat) : Ext4Vol :=
  { v with luksVol := luksVol, dio := dio, bio := bio, physBlkSz := physBlkSz }

section Operations

variable {pool : Pool} {v : Ext4Vol} {luksVol : Option LuksVol} {dio bio : Option FwRead} {physBlkSz : Nat}

/-- Descriptors, inodes and blocks are read alike with either backing. -/
structure Ext4Vol.SameReads (pool : Pool) (v w : Ext4Vol) : Prop where
  desc : ∀ off < 2 ^ 64, readBytes pool v off v.descSize = readBytes pool w off v.descSize
  inode : ∀ off < 2 ^ 64, readBytes pool v off v.inodeSize = readBytes pool w off v.inodeSize
  block : ∀ off < 2 ^ 64, (v.blockSize = 0 → off = 0) →
    readBytes pool v off v.blockSize = readBytes pool w off v.blockSize

variable (h : v.SameReads pool (v.withBacking luksVol dio bio physBlkSz))
include h

theorem blkRead_withBacking (blkNo : Nat) :
    blkRead pool (v.withBacking luksVol dio bio physBlkSz) blkNo = blkRead pool v blkNo := by
  refine (h.block _ (Nat.mod_lt _ (by decide)) fun h0 => ?_).symm
  show u64 (blkNo * v.blockSize) = 0
  rw [h0, Nat.mul_zero]
  rfl

theorem inodeRead_withBacking (ino : Nat) (buf : List Byte) :
    inodeRead pool (v.withBacking luksVol dio bio physBlkSz) ino buf = inodeRead pool v ino buf := by
  have hlt (n : Nat) : u64 n < 2 ^ 64 := Nat.mod_lt _ (by decide)
  have hdesc (n : Nat) := h.desc (u64 n) (hlt n)
  have hinode (n : Nat) := h.inode (u64 n) (hlt n)
  simp only [inodeRead, hdesc, hinode]
  rfl

theorem extentPhys_withBacking (eh : List Byte) (lblock scratch : Nat) (blocks : List Byte) :
    extentPhys pool (v.withBacking luksVol dio bio physBlkSz) eh lblock scratch blocks =
      extentPhys pool v eh lblock scratch blocks := by
  simp only [extentPhys, blkRead_withBacking h]

theorem readLblock_withBacking (inode : List Byte) (lblock out scratch : Nat) (blocks : List Byte) :
    readLblock pool (v.withBacking luksVol dio bio physBlkSz) inode lblock out scratch blocks =
      readLblock pool v inode lblock out scratch blocks := by
  simp only [readLblock, extentPhys_withBacking h, blkRead_withBacking h]
  rfl

theorem dirSearch_withBacking (inode name : List Byte) (n blk : Nat) (blocks : List Byte) :
    dirSearch pool (v.withBacking luksVol dio bio physBlkSz) inode name n blk blocks =
      dirSearch pool v inode name n blk blocks := by
  induction n generalizing blk blocks with
  | zero => rfl
  | succ n ih =>
    simp only [dirSearch, readLblock_withBacking h, ih]
    rfl

theorem dirLookupComp_withBacking (dirIno : Nat) (name : List Byte) (bufs : Ext4Bufs) :
    dirLookupComp pool (v.withBacking luksVol dio bio physBlkSz) dirIno name bufs =
      dirLookupComp pool v dirIno name bufs := by
  simp only [dirLookupComp, inodeRead_withBacking h, dirSearch_withBacking h]
  rfl

theorem pathLoop_withBacking (n ino : Nat) (p : List Byte) (bufs : Ext4Bufs) :
    pathLoop pool (v.withBacking luksVol dio bio physBlkSz) n ino p bufs = pathLoop pool v n ino p bufs := by
  induction n generalizing ino p bufs with
  | zero => rfl
  | succ n ih => simp only [pathLoop, dirLookupComp_withBacking h, ih]

theorem openPath_withBacking (path : List Byte) :
    openPath pool (v.withBacking luksVol dio bio physBlkSz) path = openPath pool v path := by
  simp only [openPath, pathLookup, pathLoop_withBacking h, inodeRead_withBacking h]
  rfl

theorem fileLoop_withBacking (inode : List Byte) (fsize n blk : Nat) (blocks buf : List Byte) :
    fileLoop pool (v.withBacking luksVol dio bio physBlkSz) inode fsize n blk blocks buf =
      fileLoop pool v inode fsize n blk blocks buf := by
  induction n generalizing blk blocks buf with
  | zero => rfl
  | succ n ih =>
    simp only [fileLoop, readLblock_withBacking h, ih]
    rfl

theorem readdirLoop_withBacking (inode : List Byte) (n blk : Nat) (blocks : List Byte) :
    readdirLoop pool (v.withBacking luksVol dio bio physBlkSz) inode n blk blocks =
      readdirLoop pool v inode n blk blocks := by
  induction n generalizing blk blocks with
  | zero => rfl
  | succ n ih =>
    simp only [readdirLoop, readLblock_withBacking h, ih]
    rfl

theorem ext4Ops_of_sameReads (path : List Byte) :
    ext4Stat pool (v.withBacking luksVol dio bio physBlkSz) path = ext4Stat pool v path ∧
      ext4ReadFile pool (v.withBacking luksVol dio bio physBlkSz) path = ext4ReadFile pool v path ∧
      ext4Readdir pool (v.withBacking luksVol dio bio physBlkSz) path = ext4Readdir pool v path := by
  refine ⟨?_, ?_, ?_⟩
  · simp only [ext4Stat, openPath_withBacking h]
  · simp only [ext4ReadFile, openPath_withBacking h, fileLoop_withBacking h]
    rfl
  · simp only [ext4Readdir, openPath_withBacking h, readdirLoop_withBacking h]
    rfl

end Operations

/-! ## Mounting -/

theorem decodeSuperblock_append {sb : List Byte} (hlen : 256 ≤ sb.length) (rest : List Byte) (v : Ext4Vol) :
    decodeSuperblock (sb ++ rest) v = decodeSuperblock sb v := by
  have h16 (off : Nat) (h : off + 2 ≤ 256) := r16_append (show off + 2 ≤ sb.length by omega) rest
  have h32 (off : Nat) (h : off + 4 ≤ 256) := r32_append (show off + 4 ≤ sb.length by omega) rest
  rw [decodeSuperblock, decodeSuperblock, h32 24 (by omega), h16 88 (by omega), h32 40 (by omega), h32 20 (by omega),
    h32 96 (by omega), h16 254 (by omega)]

/-- A block size is a power of two up to 2 GiB, or the shift has lost it. -/
theorem blockSize_decodeSuperblock (sb : List Byte) (v : Ext4Vol) :
    (decodeSuperblock sb v).blockSize = 0 ∨
      0 < (decodeSuperblock sb v).blockSize ∧ (decodeSuperblock sb v).blockSize ≤ 2 ^ 31 := by
  show u32 (1024 * 2 ^ (r32 sb 24 % 32)) = 0 ∨
    0 < u32 (1024 * 2 ^ (r32 sb 24 % 32)) ∧ u32 (1024 * 2 ^ (r32 sb 24 % 32)) ≤ 2 ^ 31
  generalize r32 sb 24 % 32 = k
  by_cases hk : k ≤ 21
  · have hle : 1024 * 2 ^ k ≤ 2 ^ 31 := Nat.mul_le_mul_left 1024 (Nat.pow_le_pow_right (by decide) hk)
    have hpos : 0 < 1024 * 2 ^ k := by positivity
    rw [u32, Nat.mod_eq_of_lt (by omega)]
    exact .inr ⟨hpos, hle⟩
  · obtain ⟨j, rfl⟩ := Nat.exists_eq_add_of_le (show 22 ≤ k by omega)
    left
    rw [u32, Nat.pow_add, ← Nat.mul_assoc]
    exact Nat.mul_mod_right (2 ^ 32) (2 ^ j)

theorem inodeSize_decodeSuperblock (sb : List Byte) (v : Ext4Vol) :
    0 < (decodeSuperblock sb v).inodeSize ∧ (decodeSuperblock sb v).inodeSize < 2 ^ 16 := by
  have hlt := r16_lt sb 88
  show 0 < (if r16 sb 88 < 128 then 128 else r16 sb 88) ∧ (if r16 sb 88 < 128 then 128 else r16 sb 88) < 2 ^ 16
  split_ifs <;> omega

theorem descSize_decodeSuperblock (sb : List Byte) (v : Ext4Vol) :
    (decodeSuperblock sb v).descSize = 32 ∨ (decodeSuperblock sb v).descSize = 64 := by
  show (if _ then 64 else 32) = 32 ∨ (if _ then 64 else 32) = 64
  split_ifs
  · exact .inr rfl
  · exact .inl rfl

section Mounted

variable (pool : AmplePool) {part : Partition} {vol : LuksVol} (h : vol.Holds part.image)
include h

theorem ext4MountLuks_eq (hlen : 1536 ≤ part.image.length) (stack : List Byte) :
    ext4MountLuks pool.toPool stack vol =
      if r16 (slice part.image 1024 512) 56 ≠ ext4SuperMagic then none
      else some (decodeSuperblock (slice part.image 1024 512) (blankVol (some vol) none none 512)) := by
  have hread := luksVolRead_holds h part.length_lt (show 512 * 3 ≤ 2 ^ 32 by omega)
    (show 512 * (0 + 3) ≤ part.image.length by omega) stack
  have hsector : (slice part.image 1024 512).length = 512 := by
    rw [length_slice]
    omega
  obtain ⟨rest, hsb⟩ : ∃ rest, (patch stack 0 (slice part.image (512 * 0) (512 * 3))).drop 1024 =
      slice part.image 1024 512 ++ rest := by
    refine ⟨stack.drop 1536, ?_⟩
    have hlen3 : (slice part.image (512 * 0) (512 * 3)).length = 1536 := by
      rw [length_slice]
      omega
    rw [patch_zero, hlen3, List.drop_append_of_le_length (by omega), slice, slice, List.drop_take, List.drop_drop]
  rw [ext4MountLuks, hread]
  dsimp only
  rw [hsb, r16_append (by omega), decodeSuperblock_append (by omega), pool.alloc_eq]
  rfl

theorem mount_eq_mountLuks (hmedia : mediaOk part.media = true) (hlen : 2048 ≤ part.image.length) (stack : List Byte) :
    part.mount pool.toPool = (ext4MountLuks pool.toPool stack vol).map fun v =>
      v.withBacking none part.dio (some part.bio) part.media.blockSize := by
  have hsector : (slice part.image 1024 512).length = 512 := by
    rw [length_slice]
    omega
  have hsb : slice part.image 1024 1024 = slice part.image 1024 512 ++ slice part.image 1536 512 :=
    (slice_append_slice part.image 1024 512 512).symm
  rw [mount_eq pool part hmedia hlen, ext4MountLuks_eq pool h (by omega), hsb, r16_append (by omega),
    decodeSuperblock_append (by omega)]
  split_ifs
  · rfl
  · rfl

theorem sameReads_mounted (hblock : part.media.blockSize < 2 ^ 32) (hlen : 1536 ≤ part.image.length) {stack : List Byte}
    {v : Ext4Vol} (hv : ext4MountLuks pool.toPool stack vol = some v) :
    v.SameReads pool.toPool (v.withBacking none part.dio (some part.bio) part.media.blockSize) := by
  rw [ext4MountLuks_eq pool h hlen] at hv
  split_ifs at hv with hmagic
  obtain rfl := Option.some.inj hv
  generalize hsb : slice part.image 1024 512 = sb
  have hreads : ∀ off n, 0 < n → n ≤ 2 ^ 31 → off < 2 ^ 64 →
      readBytes pool.toPool (decodeSuperblock sb (blankVol (some vol) none none 512)) off n =
        readBytes pool.toPool ((decodeSuperblock sb (blankVol (some vol) none none 512)).withBacking none part.dio
          (some part.bio) part.media.blockSize) off n := by
    intro off n hn hle hoff
    rw [readBytes_luks pool h part.length_lt rfl hn hoff (by rw [SectorsFit]; omega),
      readBytes_plain pool part hblock rfl rfl rfl rfl hn (by omega) hoff]
  have hinode := inodeSize_decodeSuperblock sb (blankVol (some vol) none none 512)
  refine ⟨fun off hoff => ?_, fun off hoff => ?_, fun off hoff hzero => ?_⟩
  · rcases descSize_decodeSuperblock sb (blankVol (some vol) none none 512) with hd | hd
    · exact hreads off _ (by omega) (by omega) hoff
    · exact hreads off _ (by omega) (by omega) hoff
  · exact hreads off _ hinode.1 (by omega) hoff
  · rcases blockSize_decodeSuperblock sb (blankVol (some vol) none none 512) with h0 | ⟨hpos, hle⟩
    · rw [hzero h0, h0]
      rw [readBytes_luks_zero pool (show _ = some vol from rfl), readBytes_plain_zero pool part rfl rfl rfl rfl]
    · exact hreads off _ hpos hle hoff

end Mounted

/-! ## Transparency -/

/-- The magic number of a superblock where it stands in a partition, up to the end of its sector and `n` bytes more. -/
def magicImage (n : Nat) : List Byte := List.replicate 1080 0 ++ [0x53, 0xEF] ++ List.replicate (454 + n) 0

theorem length_magicImage (n : Nat) : (magicImage n).length = 1536 + n := by
  rw [magicImage, List.length_append, List.length_append, List.length_replicate, List.length_replicate]
  show 1080 + 2 + (454 + n) = 1536 + n
  omega

theorem magicImage_magic (n : Nat) : r16 (slice (magicImage n) 1024 512) 56 = ext4SuperMagic := by
  have himage : magicImage n = magicImage 0 ++ List.replicate n 0 := by
    rw [magicImage, magicImage, List.replicate_add, ← List.append_assoc]
  rw [himage, slice_append_left (by rw [length_magicImage])]
  decide +kernel

section Transparency

variable (pool : AmplePool) (part : Partition) (vol : LuksVol)

/-- Each of the three branches of `read_bytes` delivers the range. -/
structure BranchesDeliver (off n : Nat) : Prop where
  luks : ∀ v : Ext4Vol, v.luksVol = some vol → readBytes pool.toPool v off n = (true, slice part.image off n)
  diskIo : ∀ v : Ext4Vol, v.luksVol = none → v.dio = some (FwRead.diskIo part.image) →
    readBytes pool.toPool v off n = (true, slice part.image off n)
  blockIo : ∀ v : Ext4Vol, v.luksVol = none → v.dio = none → v.bio = some part.bio →
    v.physBlkSz = part.media.blockSize → readBytes pool.toPool v off n = (true, slice part.image off n)

/-- Mounting takes the same fields from the superblock, or fails both times. -/
def MountsAlike (stack : List Byte) : Prop :=
  part.mount pool.toPool = (ext4MountLuks pool.toPool stack vol).map fun v =>
    v.withBacking none part.dio (some part.bio) part.media.blockSize

/-- The operations on the two mounted volumes have equal results. -/
def OperatesAlike (stack : List Byte) : Prop :=
  ∀ v w, ext4MountLuks pool.toPool stack vol = some v → part.mount pool.toPool = some w → ∀ path,
    ext4Stat pool.toPool w path = ext4Stat pool.toPool v path ∧
      ext4ReadFile pool.toPool w path = ext4ReadFile pool.toPool v path ∧
      ext4Readdir pool.toPool w path = ext4Readdir pool.toPool v path

variable {part vol}

theorem branchesDeliver (h : vol.Holds part.image) {off n : Nat} (hn : 0 < n) (hin : off + n ≤ part.image.length)
    (hfit : SectorsFit off n) : BranchesDeliver pool part vol off n where
  luks v hv := by
    have hlen := part.length_lt
    rw [readBytes_luks pool h hlen hv hn (by omega) hfit, imageRead_eq hin]
  diskIo v hluks hdio := by
    rw [readBytes, hluks, hdio]
    exact imageRead_eq hin
  blockIo v hluks hdio hbio hphys :=
    delivers_plain pool { part with hasDio := false } hluks hdio hbio hphys off n hn hin

/-- A partition and an encrypted volume with the same content cannot be told apart by reads of up to 4 GiB, by mounting
from 2048 bytes on, and by the operations of a mounted volume. -/
theorem luks_transparent (hblock : part.media.blockSize < 2 ^ 32) (h : vol.Holds part.image) :
    (∀ off n, 1 ≤ n → off + n ≤ part.image.length → SectorsFit off n → BranchesDeliver pool part vol off n) ∧
      (mediaOk part.media = true → 2048 ≤ part.image.length → ∀ stack,
        MountsAlike pool part vol stack ∧ OperatesAlike pool part vol stack) := by
  refine ⟨fun off n hn hin hfit => branchesDeliver pool h hn hin hfit, fun hmedia hlen stack => ?_⟩
  have hmount := mount_eq_mountLuks pool h hmedia hlen stack
  refine ⟨hmount, fun v w hv hw path => ?_⟩
  rw [hmount, hv, Option.map_some, Option.some.injEq] at hw
  subst hw
  exact ext4Ops_of_sameReads (sameReads_mounted pool h hblock (by omega) hv) path

theorem luks_transparent_small : ∃ (pool : AmplePool) (part : Partition) (vol : LuksVol),
    vol.Holds part.image ∧ (ext4MountLuks pool.toPool [] vol).isSome ∧ MountsAlike pool part vol [] ∧
      OperatesAlike pool part vol [] ∧ BranchesDeliver pool part vol 1500 300 := by
  have hlen := length_magicImage 512
  let pool : AmplePool := { zeroPool with alloc_eq := fun _ => rfl }
  let part : Partition := ⟨magicImage 512, ⟨true, true, 512, 3⟩, false, by omega, by decide, by omega⟩
  have h : (sealedVolume [] 32 (magicImage 512)).Holds part.image := sealedVolume_holds [] 32 (magicImage 512) (by omega)
  have hmount := ext4MountLuks_eq pool h (show 1536 ≤ (magicImage 512).length by omega) []
  rw [if_neg (not_not.mpr (magicImage_magic 512))] at hmount
  obtain ⟨hreads, hops⟩ := luks_transparent pool (show part.media.blockSize < 2 ^ 32 from (by decide : 512 < 2 ^ 32)) h
  obtain ⟨hmounts, hoperates⟩ := hops rfl hlen.ge []
  refine ⟨pool, part, sealedVolume [] 32 (magicImage 512), h, by rw [hmount]; rfl, hmounts, hoperates, ?_⟩
  exact hreads 1500 300 (by decide) (show 1800 ≤ (magicImage 512).length by omega) (by rw [SectorsFit]; decide)

/-! ## The two limits -/

theorem luksVolRead_wraps {image : List Byte} (h : vol.Holds image) (hspp : vol.secsPerPayload = 1)
    (hlen : image.length = 512 * (2 ^ 23 + 1)) (buf : List Byte) :
    (luksVolRead vol 0 (2 ^ 23 + 1) buf).1.take 512 = slice image (2 ^ 32) 512 := by
  have hsize : vol.sectorSize = 512 * 1 := by rw [h.size_eq, hspp]
  have hread := h.readable (by omega) (show 512 * (0 + (2 ^ 23 + 1)) ≤ image.length by omega)
  have hrounds : ∀ fuel i buf, i ≤ 2 ^ 23 → 2 ^ 23 + 1 ≤ i + fuel →
      (luksVolReadLoop vol (2 ^ 23 + 1) fuel i i buf).1.take 512 = slice image (2 ^ 32) 512 := by
    intro fuel
    induction fuel with
    | zero => omega
    | succ fuel ih =>
      intro i buf hi hfuel
      have haddr := hread.addr i (by omega)
      have hsome := hread.read i (by omega)
      rw [hspp, Nat.zero_add, Nat.div_one] at haddr hsome
      have hcopy : min (2 ^ 23 + 1 - i) (1 - 0) = 1 := by omega
      rw [luksVolReadLoop, if_neg (by omega), hspp, Nat.div_one, Nat.mod_one,
        payloadSector_eq hsize Nat.one_pos (by omega) (by omega) hsome]
      dsimp only
      rw [hcopy, show u64 (i + 1) = i + 1 from Nat.mod_eq_of_lt (by omega)]
      by_cases hlast : i = 2 ^ 23
      · have hplain := h.plain i (by omega)
        rw [LuksVol.plainSector, hspp, Nat.div_one, Nat.mod_one] at hplain
        have hwritten : copySectors ((vol.decryptPayload i (vol.stored i)).drop (0 * 512)) i 1 buf =
            patch buf 0 (slice image (2 ^ 32) 512) := by
          have hpos : u32 ((i + 0) * 512) = 0 := by rw [hlast]; rfl
          show patch buf (u32 ((i + 0) * 512)) (slice _ (512 * 0) 512) = _
          rw [hpos, Nat.zero_mul, List.drop_zero, hplain, hlast, show 512 * 2 ^ 23 = 2 ^ 32 by norm_num]
        have hdone : luksVolReadLoop vol (2 ^ 23 + 1) fuel (i + 1) (i + 1) (patch buf 0 (slice image (2 ^ 32) 512)) =
            (patch buf 0 (slice image (2 ^ 32) 512), true) := by
          cases fuel with
          | zero => rfl
          | succ fuel => rw [luksVolReadLoop, if_pos (by omega)]
        have hlen512 : (slice image (2 ^ 32) 512).length = 512 := by
          rw [length_slice]
          omega
        rw [hwritten, hdone, take_patch_zero _ _ _ (by omega), List.take_of_length_le (by omega)]
      · exact ih (i + 1) _ (by omega) (by omega)
  exact hrounds (2 ^ 23 + 1) 0 buf (by omega) (by omega)

theorem not_branchesDeliver_long (h : vol.Holds part.image) (hspp : vol.secsPerPayload = 1)
    (hlen : part.image.length = 512 * (2 ^ 23 + 1)) (hne : slice part.image (2 ^ 32) 512 ≠ slice part.image 0 512) :
    ¬ BranchesDeliver pool part vol 0 (2 ^ 32 + 512) := by
  intro hdeliver
  have hread := hdeliver.luks (blankVol (some vol) none none 512) rfl
  have hwraps := luksVolRead_wraps h hspp hlen (pool.mem (u64 ((unitSpan 512 0 (2 ^ 32 + 512)).2 * 512)))
  rw [readBytes] at hread
  dsimp only [blankVol] at hread
  rw [pool.alloc_eq, show (unitSpan 512 0 (2 ^ 32 + 512)).1 = 0 from rfl,
    show u32 (unitSpan 512 0 (2 ^ 32 + 512)).2 = 2 ^ 23 + 1 from rfl] at hread
  generalize luksVolRead vol 0 (2 ^ 23 + 1) (pool.mem (u64 ((unitSpan 512 0 (2 ^ 32 + 512)).2 * 512))) = r at hread hwraps
  obtain ⟨buf, _ | _⟩ := r
  · cases hread
  · have hbytes : fit buf (2 ^ 32 + 512) = slice part.image 0 (2 ^ 32 + 512) := (Prod.mk.inj hread).2
    have hfirst := congrArg (List.take 512) hbytes
    have hbuf : 512 ≤ buf.length := by
      have hlen512 := congrArg List.length hwraps
      rw [List.length_take, length_slice] at hlen512
      dsimp only at hlen512
      omega
    rw [fit, List.take_append_of_le_length (by rw [List.length_take]; omega), List.take_take, slice, List.take_take,
      show min 512 (2 ^ 32 + 512) = 512 from rfl] at hfirst
    exact hne (hwraps.symm.trans hfirst)

variable (part)

theorem mount_short (hblock : part.media.blockSize < 2 ^ 32) (hlen : part.image.length < 2048) :
    part.mount pool.toPool = none := by
  have hread : readBytes pool.toPool { blankVol none part.dio (some part.bio) part.media.blockSize with
      blockSize := part.media.blockSize } 1024 1024 = imageRead part.image 1024 1024 :=
    readBytes_plain pool part hblock rfl rfl rfl rfl (by omega) (by omega) (by omega)
  rw [imageRead_past (by omega)] at hread
  rw [Partition.mount, ext4Mount]
  dsimp only
  rw [ext4SuperblockOffset, hread]
  exact ite_self none

end Transparency

def longImage : List Byte := List.replicate (512 * 2 ^ 23) 0 ++ List.replicate 512 1

theorem length_longImage : longImage.length = 512 * (2 ^ 23 + 1) := by
  rw [longImage, List.length_append, List.length_replicate, List.length_replicate, Nat.mul_succ]

theorem longImage_ends : slice longImage (2 ^ 32) 512 ≠ slice longImage 0 512 := by
  have hlast : slice longImage (2 ^ 32) 512 = List.replicate 512 1 := by
    rw [slice, longImage, List.drop_left' (by rw [List.length_replicate]; rfl),
      List.take_of_length_le (List.length_replicate ..).le]
  have hfirst : slice longImage 0 512 = List.replicate 512 0 := by
    rw [longImage, slice_append_left (by rw [List.length_replicate]; omega), slice, List.drop_zero, List.take_replicate]
    rfl
  rw [hlast, hfirst]
  intro h
  cases congrArg List.head? h

/-- Over a partition of three sectors only the encrypted superblock is read, and a read of more than 4 GiB goes wrong. -/
theorem luks_transparent_limits : ∃ (pool : AmplePool) (short long : Partition) (a b : LuksVol),
    a.Holds short.image ∧ b.Holds long.image ∧ mediaOk short.media = true ∧ short.media.blockSize = 512 ∧
      long.media.blockSize = 512 ∧ ¬ MountsAlike pool short a [] ∧
      ¬ BranchesDeliver pool long b 0 (2 ^ 32 + 512) := by
  have hshort := length_magicImage 0
  have hlong := length_longImage
  let pool : AmplePool := { zeroPool with alloc_eq := fun _ => rfl }
  let short : Partition := ⟨magicImage 0, ⟨true, true, 512, 2⟩, false, by omega, by decide, by omega⟩
  let long : Partition := ⟨longImage, ⟨true, true, 512, 2 ^ 23⟩, false, by omega, by decide, by dsimp only; omega⟩
  have ha : (sealedVolume [] 32 (magicImage 0)).Holds short.image := sealedVolume_holds [] 32 (magicImage 0) (by omega)
  have hb : (sealedVolume [] 32 longImage).Holds long.image := sealedVolume_holds [] 32 longImage (by omega)
  have hmount := mount_short pool short (show 512 < 2 ^ 32 by decide) (show (magicImage 0).length < 2048 by omega)
  have hluks := ext4MountLuks_eq pool ha hshort.ge []
  refine ⟨pool, short, long, sealedVolume [] 32 (magicImage 0), sealedVolume [] 32 longImage, ha, hb, rfl, rfl, rfl, ?_,
    ?_⟩
  · intro halike
    rw [MountsAlike, hmount, hluks, if_neg (not_not.mpr (magicImage_magic 0))] at halike
    cases halike
  · exact not_branchesDeliver_long pool hb (secsPerPayload_sealedVolume [] 32 longImage) hlong longImage_ends

end SakuruBoot

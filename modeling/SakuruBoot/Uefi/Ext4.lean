import SakuruBoot.Luks.Volume

/-!
# The ext4 reader (`uefi/ext4.c`)

Mounting, block reads through the three backings, inode and extent lookup, directory search, and the
three public operations `ext4Stat`, `ext4ReadFile` and `ext4Readdir`.

Pool buffers are lists that go on past the size asked for, as the memory behind a buffer does: a
corrupt block makes the code read there. The two blocks of scratch memory are one buffer, addressed by
offset, because a read past the first block sees the second.
-/

namespace SakuruBoot
open CStr (Byte u8 u32 u64)
open Bytes

/-! ## Firmware services -/

/-- A read protocol: whether the call succeeded, and the bytes it wrote. -/
structure FwRead where
  read : Nat → Nat → Bool × List Byte
  length_read : ∀ {off n}, (read off n).1 = true → (read off n).2.length = n

/-- The bytes `[off, off + n)` of a device that holds `image`. -/
def imageRead (image : List Byte) (off n : Nat) : Bool × List Byte :=
  if off + n ≤ image.length then (true, slice image off n) else (false, [])

theorem length_imageRead {image : List Byte} {off n : Nat} (h : (imageRead image off n).1 = true) :
    (imageRead image off n).2.length = n := by
  unfold imageRead at h ⊢
  split_ifs at h ⊢ with hin
  dsimp only
  rw [length_slice]
  omega

/-- `ReadDisk` over a device that holds `image`. -/
def FwRead.diskIo (image : List Byte) : FwRead := ⟨imageRead image, length_imageRead⟩

/-- `ReadBlocks` over a device that holds `image`, in blocks of `size` bytes. -/
def FwRead.blockIo (image : List Byte) (size : Nat) : FwRead :=
  ⟨fun lba n => imageRead image (lba * size) n, length_imageRead⟩

/-- The pool allocator: which sizes it can serve, and what fresh memory holds. -/
structure Pool where
  alloc : Nat → Bool
  mem : Nat → List Byte
  length_mem : ∀ n, n ≤ (mem n).length

structure Media where
  mediaPresent : Bool
  logicalPartition : Bool
  blockSize : Nat
  lastBlock : Nat

/-! ## Fields -/

def r16 (p : List Byte) (off : Nat) : Nat := leVal (fit (p.drop off) 2)
def r32 (p : List Byte) (off : Nat) : Nat := leVal (fit (p.drop off) 4)

def ext4SuperMagic : Nat := 0xEF53
def ext4SuperblockOffset : Nat := 1024
def ext4RootIno : Nat := 2
def ext4ExtentHeaderMagic : Nat := 0xF30A

/-- `flags & EXT4_EXTENTS_FL`. -/
def hasExtents (inode : List Byte) : Bool := (r32 inode 32).testBit 19

structure Ext4Vol where
  luksVol : Option LuksVol
  dio : Option FwRead
  bio : Option FwRead
  physBlkSz : Nat
  blockSize : Nat
  inodesPerGroup : Nat
  inodeSize : Nat
  firstDataBlock : Nat
  bgdtOff : Nat
  descSize : Nat

/-! ## Reading -/

/-- The first unit of `size` bytes that holds byte `off`, and how many units the `n` bytes from there
on touch. -/
def unitSpan (size off n : Nat) : Nat × Nat :=
  let first := off / size
  let last := u64 (off + n + 2 ^ 64 - 1) / size
  (first, u64 (last + 2 ^ 64 - first + 1))

/-- `read_bytes`: whether it succeeded, and what it wrote to the start of the caller's buffer. -/
def readBytes (pool : Pool) (v : Ext4Vol) (off n : Nat) : Bool × List Byte :=
  match v.luksVol with
  | some vol =>
    let (firstSec, nsecs) := unitSpan 512 off n
    let total := u64 (nsecs * 512)
    if !pool.alloc total then (false, [])
    else
      let r := luksVolRead vol firstSec (u32 nsecs) (pool.mem total)
      if r.2 then (true, fit (r.1.drop (off - firstSec * 512)) n) else (false, [])
  | none =>
    match v.dio with
    | some dio => dio.read off n
    | none =>
      match v.bio with
      | none => (false, [])
      | some bio =>
        let (firstLba, lbaCount) := unitSpan v.physBlkSz off n
        let total := u64 (lbaCount * v.physBlkSz)
        if !pool.alloc total then (false, [])
        else
          let r := bio.read firstLba total
          if r.1 then (true, fit ((patch (pool.mem total) 0 r.2).drop (off - firstLba * v.physBlkSz)) n)
          else (false, [])

def blkRead (pool : Pool) (v : Ext4Vol) (blkNo : Nat) : Bool × List Byte :=
  readBytes pool v (u64 (blkNo * v.blockSize)) v.blockSize

/-! ## Mounting -/

/-- The volume fields computed from a superblock. `1024u << n` shifts by `n` modulo 32. -/
def decodeSuperblock (sb : List Byte) (v : Ext4Vol) : Ext4Vol :=
  let blockSize := u32 (1024 * 2 ^ (r32 sb 24 % 32))
  let inodeSize := r16 sb 88
  { v with
    blockSize := blockSize
    inodesPerGroup := r32 sb 40
    firstDataBlock := r32 sb 20
    inodeSize := if inodeSize < 128 then 128 else inodeSize
    bgdtOff := u32 (r32 sb 20 + 1) * blockSize
    descSize := if (r32 sb 96).testBit 7 ∧ 64 ≤ r16 sb 254 then 64 else 32 }

/-- The fields a fresh volume starts with. -/
def blankVol (luksVol : Option LuksVol) (dio bio : Option FwRead) (physBlkSz : Nat) : Ext4Vol :=
  { luksVol := luksVol, dio := dio, bio := bio, physBlkSz := physBlkSz, blockSize := 0,
    inodesPerGroup := 0, inodeSize := 0, firstDataBlock := 0, bgdtOff := 0, descSize := 0 }

/-- `sizeof(Ext4Vol)`. -/
def ext4VolSize : Nat := 72

/-- The checks `ext4_mount` makes before it reads. -/
def mediaOk (m : Media) : Bool :=
  m.mediaPresent && m.blockSize != 0 && m.logicalPartition && 2 ≤ m.lastBlock && m.blockSize != 2048

def ext4Mount (pool : Pool) (bio : Option (FwRead × Media)) (dio : Option FwRead) : Option Ext4Vol :=
  match bio with
  | none => none
  | some (bio, media) =>
    if !mediaOk media then none
    else
      let v := blankVol none dio (some bio) media.blockSize
      let sb := readBytes pool { v with blockSize := media.blockSize } ext4SuperblockOffset 1024
      if !sb.1 then none
      else if r16 sb.2 56 ≠ ext4SuperMagic then none
      else if !pool.alloc ext4VolSize then none
      else some (decodeSuperblock sb.2 v)

/-- `stack` is what `sb_buf` holds before the read. -/
def ext4MountLuks (pool : Pool) (stack : List Byte) (vol : LuksVol) : Option Ext4Vol :=
  let r := luksVolRead vol 0 3 stack
  if !r.2 then none
  else
    let sb := r.1.drop 1024
    if r16 sb 56 ≠ ext4SuperMagic then none
    else if !pool.alloc ext4VolSize then none
    else some (decodeSuperblock sb (blankVol (some vol) none none 512))

/-! ## Inodes -/

/-- Fill `buf` with inode `ino`. -/
def inodeRead (pool : Pool) (v : Ext4Vol) (ino : Nat) (buf : List Byte) : Bool × List Byte :=
  if ino = 0 then (false, buf)
  else
    let grp := (ino - 1) / v.inodesPerGroup
    let slot := (ino - 1) % v.inodesPerGroup
    let bgd := readBytes pool v (u64 (v.bgdtOff + grp * v.descSize)) v.descSize
    if !bgd.1 then (false, buf)
    else
      let itHi := if 64 ≤ v.descSize then r32 bgd.2 40 else 0
      let it := r32 bgd.2 8 + 2 ^ 32 * itHi
      let r := readBytes pool v (u64 (it * v.blockSize + slot * v.inodeSize)) v.inodeSize
      (r.1, patch buf 0 r.2)

/-! ## Extents -/

/-- Entry `i` behind an extent header. -/
def extentEntry (eh : List Byte) (i : Nat) : List Byte := eh.drop (12 + 12 * i)

/-- The index loop: the last entry before the first one that starts behind `lblock`. -/
def bestIndex (eh : List Byte) (lblock : Nat) : Nat → Nat → Option (List Byte) → Option (List Byte)
  | 0, _, best => best
  | n + 1, i, best =>
    let ei := extentEntry eh i
    if lblock < r32 ei 0 then best else bestIndex eh lblock n (i + 1) (some ei)

def extentStart (ex : List Byte) : Nat := r32 ex 8 + 2 ^ 32 * r16 ex 6
def indexLeaf (ei : List Byte) : Nat := r32 ei 4 + 2 ^ 32 * r16 ei 8

/-- The leaf loop over the entries from `i` on. -/
def leafScan (eh : List Byte) (lblock : Nat) : Nat → Nat → Nat
  | 0, _ => 0
  | n + 1, i =>
    let ex := extentEntry eh i
    if r32 ex 0 ≤ lblock ∧ lblock < u32 (r32 ex 0 + r16 ex 4) then
      extentStart ex + (lblock - r32 ex 0)
    else leafScan eh lblock n (i + 1)

/-- `extent_phys` with its scratch block at offset `scratch` of `blocks`. -/
def extentPhys (pool : Pool) (v : Ext4Vol) (eh : List Byte) (lblock scratch : Nat)
    (blocks : List Byte) : Nat × List Byte :=
  if r16 eh 0 ≠ ext4ExtentHeaderMagic then (0, blocks)
  else if 0 < r16 eh 6 then
    match bestIndex eh lblock (r16 eh 2) 0 none with
    | none => (0, blocks)
    | some best =>
      let r := blkRead pool v (indexLeaf best)
      let blocks := patch blocks scratch r.2
      if !r.1 then (0, blocks)
      else
        let eh := blocks.drop scratch
        if r16 eh 0 ≠ ext4ExtentHeaderMagic then (0, blocks)
        else (leafScan eh lblock (r16 eh 2) 0, blocks)
  else (leafScan eh lblock (r16 eh 2) 0, blocks)

/-- `read_lblock` into offset `out` of `blocks`. -/
def readLblock (pool : Pool) (v : Ext4Vol) (inode : List Byte) (lblock out scratch : Nat)
    (blocks : List Byte) : Bool × List Byte :=
  let (phys, blocks) :=
    if hasExtents inode then extentPhys pool v (inode.drop 40) lblock scratch blocks
    else (if lblock < 12 then r32 (inode.drop 40) (lblock * 4) else 0, blocks)
  if phys = 0 then (true, patch blocks out (List.replicate v.blockSize 0))
  else
    let r := blkRead pool v phys
    (r.1, patch blocks out r.2)

/-! ## Directories -/

/-- How far the entries of block `blk` of a directory go. -/
def dirLimit (v : Ext4Vol) (size nblk blk : Nat) : Nat :=
  if blk + 1 = nblk ∧ size % v.blockSize ≠ 0 then size % v.blockSize else v.blockSize

/-- `(size + block_size - 1) / block_size` in 32 bits; the block size is not zero. -/
def dirBlocks (v : Ext4Vol) (size : Nat) : Nat := u32 (size + v.blockSize - 1) / v.blockSize

/-- The entry loop of `dir_lookup_comp` on the block at the start of `mem`; zero when nothing in it
matches. An entry is at least one byte long, so `limit` rounds suffice. -/
def dirWalk (mem : List Byte) (limit : Nat) (name : List Byte) : Nat → Nat → Nat
  | 0, _ => 0
  | fuel + 1, pos =>
    if limit < pos + 8 then 0
    else
      let de := mem.drop pos
      if r16 de 4 = 0 then 0
      else if r32 de 0 ≠ 0 ∧ (de.getD 6 0).toNat = u8 name.length ∧
          fit (de.drop 8) name.length = name then r32 de 0
      else dirWalk mem limit name fuel (pos + r16 de 4)

/-- The block loop from block `blk` on, with `n` blocks left. -/
def dirSearch (pool : Pool) (v : Ext4Vol) (inode : List Byte) (name : List Byte) :
    Nat → Nat → List Byte → Nat × List Byte
  | 0, _, blocks => (0, blocks)
  | n + 1, blk, blocks =>
    let size := r32 inode 4
    let r := readLblock pool v inode blk 0 v.blockSize blocks
    if !r.1 then (0, r.2)
    else
      let limit := dirLimit v size (dirBlocks v size) blk
      let ino := dirWalk r.2 limit name limit 0
      if ino ≠ 0 then (ino, r.2) else dirSearch pool v inode name n (blk + 1) r.2

/-- The two pool buffers of an operation. -/
structure Ext4Bufs where
  inode : List Byte
  blocks : List Byte

def dirLookupComp (pool : Pool) (v : Ext4Vol) (dirIno : Nat) (name : List Byte) (bufs : Ext4Bufs) :
    Nat × Ext4Bufs :=
  let r := inodeRead pool v dirIno bufs.inode
  if !r.1 then (0, { bufs with inode := r.2 })
  else
    let s := dirSearch pool v r.2 name (dirBlocks v (r32 r.2 4)) 0 bufs.blocks
    (s.1, { inode := r.2, blocks := s.2 })

def skipSlashes (p : List Byte) : List Byte := p.dropWhile (· == 47)

/-- The component loop of `path_lookup`. A component has at least one byte. -/
def pathLoop (pool : Pool) (v : Ext4Vol) : Nat → Nat → List Byte → Ext4Bufs → Nat × Ext4Bufs
  | 0, ino, _, bufs => (ino, bufs)
  | fuel + 1, ino, p, bufs =>
    if CStr.deref p = 0 then (ino, bufs)
    else
      let r := dirLookupComp pool v ino (CStr.takeC (· != 47) p) bufs
      if r.1 = 0 then (0, r.2)
      else pathLoop pool v fuel r.1 (skipSlashes (CStr.dropC (· != 47) p)) r.2

def pathLookup (pool : Pool) (v : Ext4Vol) (path : List Byte) (bufs : Ext4Bufs) : Nat × Ext4Bufs :=
  let p := skipSlashes path
  pathLoop pool v p.length ext4RootIno p bufs

/-! ## Public operations -/

/-- The buffers every public operation allocates first. -/
def allocBufs (pool : Pool) (v : Ext4Vol) : Option Ext4Bufs :=
  if pool.alloc v.inodeSize ∧ pool.alloc (u32 (v.blockSize * 2)) then
    some { inode := pool.mem v.inodeSize, blocks := pool.mem (u32 (v.blockSize * 2)) }
  else none

/-- The inode a path leads to, and the buffers after reading it. -/
def openPath (pool : Pool) (v : Ext4Vol) (path : List Byte) : Option Ext4Bufs :=
  match allocBufs pool v with
  | none => none
  | some bufs =>
    let r := pathLookup pool v path bufs
    if r.1 = 0 then none
    else
      let q := inodeRead pool v r.1 r.2.inode
      if !q.1 then none else some { r.2 with inode := q.2 }

def ext4Stat (pool : Pool) (v : Ext4Vol) (path : List Byte) : Nat :=
  match openPath pool v path with
  | none => 0
  | some bufs => r32 bufs.inode 4

def ext4MaxFile : Nat := 128 * 1024 * 1024

/-- The copy loop of `ext4_read_file` from block `blk` on, with `n` blocks left. -/
def fileLoop (pool : Pool) (v : Ext4Vol) (inode : List Byte) (fsize : Nat) :
    Nat → Nat → List Byte → List Byte → Option (List Byte)
  | 0, _, _, buf => some buf
  | n + 1, blk, blocks, buf =>
    let r := readLblock pool v inode blk v.blockSize 0 blocks
    if !r.1 then none
    else
      let dst := blk * v.blockSize
      let len := min (fsize - dst) v.blockSize
      fileLoop pool v inode fsize n (blk + 1) r.2 (patch buf dst (fit (r.2.drop v.blockSize) len))

def fileSize (inode : List Byte) : Nat := r32 inode 4 + 2 ^ 32 * r32 inode 108

/-- The result buffer and `*out_size`. -/
def ext4ReadFile (pool : Pool) (v : Ext4Vol) (path : List Byte) : Option (List Byte × Nat) :=
  match openPath pool v path with
  | none => none
  | some bufs =>
    let fsize := fileSize bufs.inode
    if fsize = 0 ∨ ext4MaxFile < fsize then none
    else if !pool.alloc (fsize + 1) then none
    else
      let buf := patch (pool.mem (fsize + 1)) fsize [0]
      let nblk := u32 ((fsize + v.blockSize - 1) / v.blockSize)
      (fileLoop pool v bufs.inode fsize nblk 0 bufs.blocks buf).map fun buf => (buf, fsize)

/-- A call of the directory callback: the name and whether it is a directory. -/
structure DirEvent where
  name : List Byte
  isDir : Bool
  deriving DecidableEq, Repr

/-- The name test of `ext4_readdir`: `.` and `..` as C strings. -/
def isDotName (fname : List Byte) : Bool :=
  fname.getD 0 0 == 46 && (fname.getD 1 0 == 0 || (fname.getD 1 0 == 46 && fname.getD 2 0 == 0))

def readdirEvent (de : List Byte) : List DirEvent :=
  let nl := (de.getD 6 0).toNat
  let ftype := de.getD 7 0
  if r32 de 0 ≠ 0 ∧ 0 < nl ∧ nl < 255 ∧ (ftype = 1 ∨ ftype = 2) then
    let fname := fit (de.drop 8) nl
    if isDotName fname then [] else [{ name := fname, isDir := ftype == 2 }]
  else []

/-- The entry loop of `ext4_readdir` on the block at the start of `mem`. -/
def readdirWalk (mem : List Byte) (limit : Nat) : Nat → Nat → List DirEvent
  | 0, _ => []
  | fuel + 1, pos =>
    if limit < pos + 8 then []
    else
      let de := mem.drop pos
      if r16 de 4 = 0 then []
      else readdirEvent de ++ readdirWalk mem limit fuel (pos + r16 de 4)

/-- The block loop of `ext4_readdir`; its data block is the second one. -/
def readdirLoop (pool : Pool) (v : Ext4Vol) (inode : List Byte) :
    Nat → Nat → List Byte → List DirEvent
  | 0, _, _ => []
  | n + 1, blk, blocks =>
    let size := r32 inode 4
    let r := readLblock pool v inode blk v.blockSize 0 blocks
    if !r.1 then []
    else
      let limit := dirLimit v size (dirBlocks v size) blk
      readdirWalk (r.2.drop v.blockSize) limit limit 0 ++ readdirLoop pool v inode n (blk + 1) r.2

def ext4Readdir (pool : Pool) (v : Ext4Vol) (path : List Byte) : List DirEvent :=
  match openPath pool v path with
  | none => []
  | some bufs => readdirLoop pool v bufs.inode (dirBlocks v (r32 bufs.inode 4)) 0 bufs.blocks

end SakuruBoot

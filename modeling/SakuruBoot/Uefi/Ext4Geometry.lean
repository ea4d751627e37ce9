import SakuruBoot.Uefi.Ext4File

/-!
# Volumes the ext4 reader can work with

Mounting takes the block size, the inodes of a group and the descriptor size from the superblock and checks none of
them. `Guarded` is the reader again, on a machine where a division by zero faults and where a loop that does not end
by itself has no result. A mounted volume is safe (`VolumeSafe`) when every operation on it comes to the end it has in
the model, whatever the device holds, and that is a matter of two fields of the superblock (`volumeSafe_iff`).
-/

namespace SakuruBoot
open CStr (Byte u8 u32 u64)
open Bytes

namespace Guarded

/-- `a / b`, which faults on zero. -/
def udiv (a b : Nat) : Option Nat := if b = 0 then none else some (a / b)

/-- `a % b`, which faults on zero. -/
def umod (a b : Nat) : Option Nat := if b = 0 then none else some (a % b)

def unitSpan (size off n : Nat) : Option (Nat × Nat) := do
  let first ← udiv off size
  let last ← udiv (u64 (off + n + 2 ^ 64 - 1)) size
  some (first, u64 (last + 2 ^ 64 - first + 1))

/-- `dirBlocks`. -/
def dirBlocks (v : Ext4Vol) (size : Nat) : Option Nat := udiv (u32 (size + v.blockSize - 1)) v.blockSize

/-- The remainder is only taken for the last block. -/
def dirLimit (v : Ext4Vol) (size nblk blk : Nat) : Option Nat :=
  if blk + 1 = nblk then (umod size v.blockSize).map fun r => if r ≠ 0 then r else v.blockSize
  else some v.blockSize

def dirWalk (mem : List Byte) (limit : Nat) (name : List Byte) : Nat → Nat → Option Nat
  | 0, _ => none
  | fuel + 1, pos =>
    if limit < pos + 8 then some 0
    else
      let de := mem.drop pos
      if r16 de 4 = 0 then some 0
      else if r32 de 0 ≠ 0 ∧ (de.getD 6 0).toNat = u8 name.length ∧
          fit (de.drop 8) name.length = name then some (r32 de 0)
      else dirWalk mem limit name fuel (pos + r16 de 4)

def readdirWalk (mem : List Byte) (limit : Nat) : Nat → Nat → Option (List DirEvent)
  | 0, _ => none
  | fuel + 1, pos =>
    if limit < pos + 8 then some []
    else
      let de := mem.drop pos
      if r16 de 4 = 0 then some []
      else (readdirWalk mem limit fuel (pos + r16 de 4)).map (readdirEvent de ++ ·)

section Operations

variable (pool : Pool) (v : Ext4Vol)

/-- Only the fallback to whole blocks divides by a field; the sectors of an encrypted volume have 512 bytes. -/
def readBytes (off n : Nat) : Option (Bool × List Byte) :=
  match v.luksVol, v.dio, v.bio with
  | none, none, some _ => (unitSpan v.physBlkSz off n).map fun _ => SakuruBoot.readBytes pool v off n
  | _, _, _ => some (SakuruBoot.readBytes pool v off n)

def blkRead (blkNo : Nat) : Option (Bool × List Byte) :=
  readBytes pool v (u64 (blkNo * v.blockSize)) v.blockSize

def inodeRead (ino : Nat) (buf : List Byte) : Option (Bool × List Byte) :=
  if ino = 0 then some (false, buf)
  else do
    let grp ← udiv (ino - 1) v.inodesPerGroup
    let slot ← umod (ino - 1) v.inodesPerGroup
    let bgd ← readBytes pool v (u64 (v.bgdtOff + grp * v.descSize)) v.descSize
    if !bgd.1 then some (false, buf)
    else
      let itHi := if 64 ≤ v.descSize then r32 bgd.2 40 else 0
      let it := r32 bgd.2 8 + 2 ^ 32 * itHi
      let r ← readBytes pool v (u64 (it * v.blockSize + slot * v.inodeSize)) v.inodeSize
      some (r.1, patch buf 0 r.2)

def extentPhys (eh : List Byte) (lblock scratch : Nat) (blocks : List Byte) : Option (Nat × List Byte) :=
  if r16 eh 0 ≠ ext4ExtentHeaderMagic then some (0, blocks)
  else if 0 < r16 eh 6 then
    match bestIndex eh lblock (r16 eh 2) 0 none with
    | none => some (0, blocks)
    | some best => do
      let r ← blkRead pool v (indexLeaf best)
      let blocks := patch blocks scratch r.2
      if !r.1 then some (0, blocks)
      else
        let eh := blocks.drop scratch
        if r16 eh 0 ≠ ext4ExtentHeaderMagic then some (0, blocks)
        else some (leafScan eh lblock (r16 eh 2) 0, blocks)
  else some (leafScan eh lblock (r16 eh 2) 0, blocks)

def readLblock (inode : List Byte) (lblock out scratch : Nat) (blocks : List Byte) :
    Option (Bool × List Byte) := do
  let (phys, blocks) ←
    if hasExtents inode then extentPhys pool v (inode.drop 40) lblock scratch blocks
    else some (if lblock < 12 then r32 (inode.drop 40) (lblock * 4) else 0, blocks)
  if phys = 0 then some (true, patch blocks out (List.replicate v.blockSize 0))
  else
    let r ← blkRead pool v phys
    some (r.1, patch blocks out r.2)

def dirSearch (inode : List Byte) (name : List Byte) : Nat → Nat → List Byte → Option (Nat × List Byte)
  | 0, _, blocks => some (0, blocks)
  | n + 1, blk, blocks => do
    let size := r32 inode 4
    let r ← readLblock pool v inode blk 0 v.blockSize blocks
    if !r.1 then some (0, r.2)
    else
      let nblk ← dirBlocks v size
      let limit ← dirLimit v size nblk blk
      let ino ← dirWalk r.2 limit name (limit + 1) 0
      if ino ≠ 0 then some (ino, r.2) else dirSearch inode name n (blk + 1) r.2

def dirLookupComp (dirIno : Nat) (name : List Byte) (bufs : Ext4Bufs) : Option (Nat × Ext4Bufs) := do
  let r ← inodeRead pool v dirIno bufs.inode
  if !r.1 then some (0, { bufs with inode := r.2 })
  else
    let nblk ← dirBlocks v (r32 r.2 4)
    let s ← dirSearch pool v r.2 name nblk 0 bufs.blocks
    some (s.1, { inode := r.2, blocks := s.2 })

def pathLoop : Nat → Nat → List Byte → Ext4Bufs → Option (Nat × Ext4Bufs)
  | 0, _, _, _ => none
  | fuel + 1, ino, p, bufs =>
    if CStr.deref p = 0 then some (ino, bufs)
    else do
      let r ← dirLookupComp pool v ino (CStr.takeC (· != 47) p) bufs
      if r.1 = 0 then some (0, r.2)
      else pathLoop fuel r.1 (skipSlashes (CStr.dropC (· != 47) p)) r.2

def pathLookup (path : List Byte) (bufs : Ext4Bufs) : Option (Nat × Ext4Bufs) :=
  let p := skipSlashes path
  pathLoop pool v (p.length + 1) ext4RootIno p bufs

def openPath (path : List Byte) : Option (Option Ext4Bufs) :=
  match allocBufs pool v with
  | none => some none
  | some bufs => do
    let r ← pathLookup pool v path bufs
    if r.1 = 0 then some none
    else
      let q ← inodeRead pool v r.1 r.2.inode
      some (if !q.1 then none else some { r.2 with inode := q.2 })

def ext4Stat (path : List Byte) : Option Nat := do
  match ← openPath pool v path with
  | none => some 0
  | some bufs => some (r32 bufs.inode 4)

def fileLoop (inode : List Byte) (fsize : Nat) :
    Nat → Nat → List Byte → List Byte → Option (Option (List Byte))
  | 0, _, _, buf => some (some buf)
  | n + 1, blk, blocks, buf => do
    let r ← readLblock pool v inode blk v.blockSize 0 blocks
    if !r.1 then some none
    else
      let dst := blk * v.blockSize
      let len := min (fsize - dst) v.blockSize
      fileLoop inode fsize n (blk + 1) r.2 (patch buf dst (fit (r.2.drop v.blockSize) len))

def ext4ReadFile (path : List Byte) : Option (Option (List Byte × Nat)) := do
  match ← openPath pool v path with
  | none => some none
  | some bufs =>
    let fsize := fileSize bufs.inode
    if fsize = 0 ∨ ext4MaxFile < fsize then some none
    else if !pool.alloc (fsize + 1) then some none
    else
      let buf := patch (pool.mem (fsize + 1)) fsize [0]
      let nblk ← udiv (fsize + v.blockSize - 1) v.blockSize
      let r ← fileLoop pool v bufs.inode fsize (u32 nblk) 0 bufs.blocks buf
      some (r.map fun buf => (buf, fsize))

def readdirLoop (inode : List Byte) : Nat → Nat → List Byte → Option (List DirEvent)
  | 0, _, _ => some []
  | n + 1, blk, blocks => do
    let size := r32 inode 4
    let r ← readLblock pool v inode blk v.blockSize 0 blocks
    if !r.1 then some []
    else
      let nblk ← dirBlocks v size
      let limit ← dirLimit v size nblk blk
      let events ← readdirWalk (r.2.drop v.blockSize) limit (limit + 1) 0
      let rest ← readdirLoop inode n (blk + 1) r.2
      some (events ++ rest)

def ext4Readdir (path : List Byte) : Option (List DirEvent) := do
  match ← openPath pool v path with
  | none => some []
  | some bufs =>
    let nblk ← dirBlocks v (r32 bufs.inode 4)
    readdirLoop pool v bufs.inode nblk 0 bufs.blocks

end Operations

end Guarded

/-! ## Loops that end -/

section Loops

variable {mem : List Byte} {limit : Nat}

/-- A record is at least one byte long, so the walk ends within `limit` rounds. -/
theorem guarded_dirWalk {name : List Byte} {fuel pos : Nat} (h : limit ≤ pos + fuel) :
    Guarded.dirWalk mem limit name (fuel + 1) pos = some (dirWalk mem limit name fuel pos) := by
  induction fuel generalizing pos with
  | zero =>
    rw [Guarded.dirWalk, dirWalk, if_pos (by omega)]
  | succ fuel ih =>
    rw [Guarded.dirWalk, dirWalk]
    dsimp only
    split_ifs with hlimit hlen hmatch
    · rfl
    · rfl
    · rfl
    · exact ih (by omega)

theorem guarded_readdirWalk {fuel pos : Nat} (h : limit ≤ pos + fuel) :
    Guarded.readdirWalk mem limit (fuel + 1) pos = some (readdirWalk mem limit fuel pos) := by
  induction fuel generalizing pos with
  | zero =>
    rw [Guarded.readdirWalk, readdirWalk, if_pos (by omega)]
  | succ fuel ih =>
    rw [Guarded.readdirWalk, readdirWalk]
    dsimp only
    split_ifs with hlimit hlen
    · rfl
    · rfl
    · rw [ih (by omega), Option.map_some]

end Loops

/-! ## Divisions -/

/-- None of the fields the reader divides by is zero. -/
structure Ext4Vol.Divides (v : Ext4Vol) : Prop where
  physBlkSz : v.physBlkSz ≠ 0
  blockSize : v.blockSize ≠ 0
  inodesPerGroup : v.inodesPerGroup ≠ 0

section Divides

variable {pool : Pool} {v : Ext4Vol}

theorem guarded_udiv {a b : Nat} (h : b ≠ 0) : Guarded.udiv a b = some (a / b) := if_neg h

theorem guarded_umod {a b : Nat} (h : b ≠ 0) : Guarded.umod a b = some (a % b) := if_neg h

theorem guarded_readBytes (h : v.Divides) (off n : Nat) :
    Guarded.readBytes pool v off n = some (readBytes pool v off n) := by
  unfold Guarded.readBytes
  split
  · rw [Guarded.unitSpan, guarded_udiv h.physBlkSz, guarded_udiv h.physBlkSz]
    rfl
  · rfl

theorem guarded_blkRead (h : v.Divides) (blkNo : Nat) :
    Guarded.blkRead pool v blkNo = some (blkRead pool v blkNo) :=
  guarded_readBytes h _ _

theorem guarded_inodeRead (h : v.Divides) (ino : Nat) (buf : List Byte) :
    Guarded.inodeRead pool v ino buf = some (inodeRead pool v ino buf) := by
  unfold Guarded.inodeRead inodeRead
  simp only [guarded_udiv h.inodesPerGroup, guarded_umod h.inodesPerGroup, guarded_readBytes h,
    Option.bind_eq_bind, Option.bind_some]
  split_ifs <;> rfl

theorem guarded_extentPhys (h : v.Divides) (eh : List Byte) (lblock scratch : Nat) (blocks : List Byte) :
    Guarded.extentPhys pool v eh lblock scratch blocks = some (extentPhys pool v eh lblock scratch blocks) := by
  unfold Guarded.extentPhys extentPhys
  simp only [guarded_blkRead h, Option.bind_eq_bind, Option.bind_some]
  split_ifs
  · rfl
  · rcases bestIndex eh lblock (r16 eh 2) 0 none with _ | best
    · rfl
    · dsimp only
      split_ifs <;> rfl
  · rfl

theorem guarded_readLblock (h : v.Divides) (inode : List Byte) (lblock out scratch : Nat) (blocks : List Byte) :
    Guarded.readLblock pool v inode lblock out scratch blocks =
      some (readLblock pool v inode lblock out scratch blocks) := by
  unfold Guarded.readLblock readLblock
  simp only [guarded_extentPhys h, guarded_blkRead h, Option.bind_eq_bind, Option.bind_some]
  split_ifs <;> rfl

theorem guarded_dirBlocks (h : v.Divides) (size : Nat) :
    Guarded.dirBlocks v size = some (dirBlocks v size) :=
  guarded_udiv h.blockSize

theorem guarded_dirLimit (h : v.Divides) (size nblk blk : Nat) :
    Guarded.dirLimit v size nblk blk = some (dirLimit v size nblk blk) := by
  unfold Guarded.dirLimit dirLimit
  rw [guarded_umod h.blockSize]
  by_cases hlast : blk + 1 = nblk
  · simp [hlast]
  · simp [hlast]

theorem guarded_dirSearch (h : v.Divides) (inode name : List Byte) (n blk : Nat) (blocks : List Byte) :
    Guarded.dirSearch pool v inode name n blk blocks = some (dirSearch pool v inode name n blk blocks) := by
  induction n generalizing blk blocks with
  | zero => rfl
  | succ n ih =>
    unfold Guarded.dirSearch dirSearch
    simp only [guarded_readLblock h, guarded_dirBlocks h, guarded_dirLimit h, Option.bind_eq_bind,
      Option.bind_some, guarded_dirWalk (Nat.le_add_left _ _), ih]
    split_ifs <;> rfl

theorem guarded_dirLookupComp (h : v.Divides) (ino : Nat) (name : List Byte) (bufs : Ext4Bufs) :
    Guarded.dirLookupComp pool v ino name bufs = some (dirLookupComp pool v ino name bufs) := by
  unfold Guarded.dirLookupComp dirLookupComp
  simp only [guarded_inodeRead h, guarded_dirBlocks h, guarded_dirSearch h, Option.bind_eq_bind, Option.bind_some]
  split_ifs <;> rfl

theorem guarded_pathLoop (h : v.Divides) {fuel : Nat} {p : List Byte} (hp : CStr.deref p ≠ 47)
    (hlen : p.length ≤ fuel) (ino : Nat) (bufs : Ext4Bufs) :
    Guarded.pathLoop pool v (fuel + 1) ino p bufs = some (pathLoop pool v fuel ino p bufs) := by
  induction fuel generalizing p ino bufs with
  | zero =>
    obtain rfl : p = [] := List.length_eq_zero_iff.mp (by omega)
    rfl
  | succ fuel ih =>
    rw [Guarded.pathLoop, pathLoop]
    simp only [guarded_dirLookupComp h, Option.bind_eq_bind, Option.bind_some]
    split_ifs with h0 hino
    · rfl
    · rfl
    · have hshort := length_after_component h0 hp
      exact ih (deref_skipSlashes _) (by omega) _ _

theorem guarded_pathLookup (h : v.Divides) (path : List Byte) (bufs : Ext4Bufs) :
    Guarded.pathLookup pool v path bufs = some (pathLookup pool v path bufs) :=
  guarded_pathLoop h (deref_skipSlashes _) le_rfl _ _

theorem guarded_openPath (h : v.Divides) (path : List Byte) :
    Guarded.openPath pool v path = some (openPath pool v path) := by
  unfold Guarded.openPath openPath
  rcases allocBufs pool v with _ | bufs
  · rfl
  · simp only [guarded_pathLookup h, guarded_inodeRead h, Option.bind_eq_bind, Option.bind_some]
    split_ifs <;> rfl

theorem guarded_fileLoop (h : v.Divides) (inode : List Byte) (fsize n blk : Nat) (blocks buf : List Byte) :
    Guarded.fileLoop pool v inode fsize n blk blocks buf = some (fileLoop pool v inode fsize n blk blocks buf) := by
  induction n generalizing blk blocks buf with
  | zero => rfl
  | succ n ih =>
    unfold Guarded.fileLoop fileLoop
    simp only [guarded_readLblock h, Option.bind_eq_bind, Option.bind_some, ih]
    split_ifs <;> rfl

theorem guarded_readdirLoop (h : v.Divides) (inode : List Byte) (n blk : Nat) (blocks : List Byte) :
    Guarded.readdirLoop pool v inode n blk blocks = some (readdirLoop pool v inode n blk blocks) := by
  induction n generalizing blk blocks with
  | zero => rfl
  | succ n ih =>
    unfold Guarded.readdirLoop readdirLoop
    simp only [guarded_readLblock h, guarded_dirBlocks h, guarded_dirLimit h, Option.bind_eq_bind,
      Option.bind_some, guarded_readdirWalk (Nat.le_add_left _ _), ih]
    split_ifs <;> rfl

theorem guarded_ext4Stat (h : v.Divides) (path : List Byte) :
    Guarded.ext4Stat pool v path = some (ext4Stat pool v path) := by
  unfold Guarded.ext4Stat ext4Stat
  rw [guarded_openPath h, Option.bind_eq_bind, Option.bind_some]
  rcases openPath pool v path with _ | bufs <;> rfl

theorem guarded_ext4ReadFile (h : v.Divides) (path : List Byte) :
    Guarded.ext4ReadFile pool v path = some (ext4ReadFile pool v path) := by
  unfold Guarded.ext4ReadFile ext4ReadFile
  rw [guarded_openPath h, Option.bind_eq_bind, Option.bind_some]
  rcases openPath pool v path with _ | bufs
  · rfl
  · simp only [guarded_udiv h.blockSize, guarded_fileLoop h, Option.bind_eq_bind, Option.bind_some]
    split_ifs <;> rfl

theorem guarded_ext4Readdir (h : v.Divides) (path : List Byte) :
    Guarded.ext4Readdir pool v path = some (ext4Readdir pool v path) := by
  unfold Guarded.ext4Readdir ext4Readdir
  rw [guarded_openPath h, Option.bind_eq_bind, Option.bind_some]
  rcases openPath pool v path with _ | bufs
  · rfl
  · simp only [guarded_dirBlocks h, guarded_readdirLoop h, Option.bind_eq_bind, Option.bind_some]

end Divides

/-! ## Mounted volumes -/

/-- The volume `ext4_mount` reads the superblock through. -/
def probeVol (bio : FwRead) (dio : Option FwRead) (blockSize : Nat) : Ext4Vol :=
  { blankVol none dio (some bio) blockSize with blockSize := blockSize }

/-- Mounting a partition, or an unlocked LUKS volume, accepts the superblock `sb` and gives `v`. -/
inductive Mounts (pool : Pool) : List Byte → Ext4Vol → Prop
  | partition {bio : FwRead} {media : Media} {dio : Option FwRead} {v : Ext4Vol}
      (h : ext4Mount pool (some (bio, media)) dio = some v) :
      Mounts pool (readBytes pool (probeVol bio dio media.blockSize) ext4SuperblockOffset 1024).2 v
  | luks {stack : List Byte} {vol : LuksVol} {v : Ext4Vol} (h : ext4MountLuks pool stack vol = some v) :
      Mounts pool ((luksVolRead vol 0 3 stack).1.drop 1024) v

/-- The fields of the volume are what the superblock says and nothing is divided by zero, and every operation ends,
without a fault, with the result it has in the model. -/
structure VolumeSafe (pool : Pool) (sb : List Byte) (v : Ext4Vol) : Prop where
  blockSize : v.blockSize = 1024 * 2 ^ r32 sb 24
  blockSize_pos : 0 < v.blockSize
  inodesPerGroup_pos : 0 < v.inodesPerGroup
  descSize_pos : 0 < v.descSize
  inodeRead : ∀ ino buf, Guarded.inodeRead pool v ino buf = some (inodeRead pool v ino buf)
  dirLookupComp : ∀ ino name bufs,
    Guarded.dirLookupComp pool v ino name bufs = some (dirLookupComp pool v ino name bufs)
  stat : ∀ path, Guarded.ext4Stat pool v path = some (ext4Stat pool v path)
  readFile : ∀ path, Guarded.ext4ReadFile pool v path = some (ext4ReadFile pool v path)
  readdir : ∀ path, Guarded.ext4Readdir pool v path = some (ext4Readdir pool v path)

section Mounted

variable {pool : Pool} {sb : List Byte} {v : Ext4Vol}

theorem Mounts.decode (h : Mounts pool sb v) :
    ∃ base : Ext4Vol, base.physBlkSz ≠ 0 ∧ v = decodeSuperblock sb base := by
  cases h with
  | @partition bio media dio _ h =>
    rw [ext4Mount] at h
    dsimp only at h
    split_ifs at h with hmedia
    have hsize : media.blockSize ≠ 0 := by
      simp only [mediaOk, Bool.not_eq_true', Bool.not_eq_false, Bool.and_eq_true, bne_iff_ne] at hmedia
      exact hmedia.1.1.1.2
    exact ⟨blankVol none dio (some bio) media.blockSize, hsize, (Option.some.inj h).symm⟩
  | @luks _ vol _ h =>
    rw [ext4MountLuks] at h
    dsimp only at h
    split_ifs at h
    have hsize : (blankVol (some vol) none none 512).physBlkSz ≠ 0 := Nat.succ_ne_zero 511
    exact ⟨_, hsize, (Option.some.inj h).symm⟩

/-- `1024u << n` is `1024 * 2 ^ n` as long as the product fits 32 bits, and for no greater `n`. -/
theorem blockSize_shift_iff (n : Nat) : u32 (1024 * 2 ^ (n % 32)) = 1024 * 2 ^ n ↔ n ≤ 21 := by
  constructor
  · intro h
    by_contra hn
    have hbig : 2 ^ 22 ≤ 2 ^ n := Nat.pow_le_pow_right (by decide) (by omega)
    have hsmall : u32 (1024 * 2 ^ (n % 32)) < 2 ^ 32 := Nat.mod_lt _ (by decide)
    omega
  · intro hn
    have hsmall : 2 ^ n ≤ 2 ^ 21 := Nat.pow_le_pow_right (by decide) hn
    rw [Nat.mod_eq_of_lt (by omega : n < 32), u32, Nat.mod_eq_of_lt (by omega)]

/-- A mounted volume is safe exactly when the block size fits 32 bits and a group has inodes. -/
theorem volumeSafe_iff (h : Mounts pool sb v) :
    VolumeSafe pool sb v ↔ r32 sb 24 ≤ 21 ∧ r32 sb 40 ≠ 0 := by
  obtain ⟨base, hphys, rfl⟩ := h.decode
  constructor
  · intro hsafe
    have hipg : 0 < r32 sb 40 := hsafe.inodesPerGroup_pos
    exact ⟨(blockSize_shift_iff _).mp hsafe.blockSize, by omega⟩
  · rintro ⟨hlog, hipg⟩
    have hsize := (blockSize_shift_iff _).mpr hlog
    have hpos : 0 < 1024 * 2 ^ r32 sb 24 := by positivity
    have hdiv : (decodeSuperblock sb base).Divides := by
      refine ⟨hphys, ?_, hipg⟩
      show u32 (1024 * 2 ^ (r32 sb 24 % 32)) ≠ 0
      omega
    constructor
    · exact hsize
    · exact Nat.pos_of_ne_zero hdiv.blockSize
    · exact Nat.pos_of_ne_zero hipg
    · show 0 < ite _ 64 32
      split_ifs <;> decide
    · exact guarded_inodeRead hdiv
    · exact guarded_dirLookupComp hdiv
    · exact guarded_ext4Stat hdiv
    · exact guarded_ext4ReadFile hdiv
    · exact guarded_ext4Readdir hdiv

end Mounted

theorem volumeSafe_lostLeaf : ∃ sb v, Mounts zeroPool sb v ∧ VolumeSafe zeroPool sb v := by
  have hsome : (ext4Mount zeroPool (some lostLeafPart) none).isSome = true := by decide +kernel
  obtain ⟨v, hv⟩ := Option.isSome_iff_exists.mp hsome
  have hmounts := Mounts.partition hv
  exact ⟨_, v, hmounts, (volumeSafe_iff hmounts).mpr (by decide +kernel)⟩

/-- A partition of 2 KiB that is empty but for the superblock's magic. -/
def emptySuperImage : List Byte := List.replicate 1080 0 ++ le 2 0xEF53 ++ List.replicate 966 0

/-- The volume is mounted, and looking at its root directory divides by zero. -/
theorem emptySuper_faults : ∃ sb v, Mounts zeroPool sb v ∧ v.inodesPerGroup = 0 ∧
    Guarded.ext4Stat zeroPool v [47, 0] = none ∧ ¬VolumeSafe zeroPool sb v := by
  have hrun : (ext4Mount zeroPool (some (FwRead.blockIo emptySuperImage 512, ⟨true, true, 512, 3⟩)) none).map
      (fun v => (v.inodesPerGroup, Guarded.ext4Stat zeroPool v [47, 0])) = some (0, none) := by
    decide +kernel
  obtain ⟨v, hmount, hv⟩ := Option.map_eq_some_iff.mp hrun
  obtain ⟨hipg, hstat⟩ := Prod.mk.inj hv
  refine ⟨_, v, .partition hmount, hipg, hstat, fun hsafe => ?_⟩
  have := hsafe.inodesPerGroup_pos
  omega

end SakuruBoot

import SakuruBoot.Uefi.Ext4Ref

/-!
# What `ext4_read_file` returns

`fileLoop_ref` describes the copy loop over blocks whose place is defined, and `ext4ReadFile_ref` the
whole call: on a path and a file whose reference reading is defined, it delivers the reference's
bytes, or nothing when a data block cannot be read.

`readsFaithfully_iff` is about every volume. `extent_phys` returns zero for a hole, for a node it
cannot read and for a layout it does not know, and `read_lblock` fills the block with zeros in all
three cases; no one looks at the type of the inode. So a returned buffer is faithful exactly when the
reference reading of the path and of every block of the file is defined and the file is a regular
one.
-/

namespace SakuruBoot
open CStr (Byte u32 u64)
open Bytes

/-! ## The copy loop -/

section Loop

variable {pool : Pool} {v : Ext4Vol} {inode : List Byte}

/-- Byte `i` of a file, from the blocks of the reference reading. -/
def fileByte (pool : Pool) (v : Ext4Vol) (inode : List Byte) (i : Nat) : Option Byte :=
  (blockBytes pool v inode (i / v.blockSize)).bind (·[i % v.blockSize]?)

theorem fileByte_within (hbs : 0 < v.blockSize) {blk i : Nat} {data : List Byte}
    (hdata : blockBytes pool v inode blk = some data) (hlo : blk * v.blockSize ≤ i)
    (hhi : i < blk * v.blockSize + v.blockSize) :
    fileByte pool v inode i = data[i - blk * v.blockSize]? := by
  have hdiv : i / v.blockSize = blk := by
    rw [Nat.div_eq_iff hbs]
    omega
  have hmod : i % v.blockSize = i - blk * v.blockSize := by
    have := Nat.div_add_mod i v.blockSize
    rw [hdiv, Nat.mul_comm] at this
    omega
  rw [fileByte, hdiv, hdata, Option.bind_some, hmod]

theorem fit_block {data behind : List Byte} {n : Nat} (hn : n ≤ data.length) : fit (data ++ behind) n = data.take n := by
  have hroom : 0 + n ≤ (data ++ behind).length := by
    rw [List.length_append]
    omega
  have hfit := fit_slice hroom
  rw [List.drop_zero] at hfit
  rw [hfit, slice, List.drop_zero, List.take_append_of_le_length hn]

/-- The copy loop from block `blk` on: it stops at a block that cannot be read, and otherwise has
written the bytes of the blocks it went over and nothing else. -/
theorem fileLoop_ref (pool : Pool) (v : Ext4Vol) (hbs : 0 < v.blockSize) (rest : List Byte) (hinode : 100 ≤ inode.length)
    {fsize : Nat} (n blk : Nat) (hblk : blk + n ≤ 2 ^ 31)
    (hmap : ∀ k, blk ≤ k → k < blk + n → (blockMap pool v inode k).isSome)
    (hend : ∀ k, k < blk + n → k * v.blockSize < fsize) {blocks buf : List Byte}
    (hblocks : v.blockSize ≤ blocks.length) (hbuf : fsize ≤ buf.length) :
    match fileLoop pool v (inode ++ rest) fsize n blk blocks buf with
    | none => ∃ k, blk ≤ k ∧ k < blk + n ∧ blockBytes pool v inode k = none
    | some buf' => buf'.length = buf.length ∧
        (∀ k, blk ≤ k → k < blk + n → (blockBytes pool v inode k).isSome) ∧
        ∀ i, buf'[i]? = if blk * v.blockSize ≤ i ∧ i < (blk + n) * v.blockSize ∧ i < fsize then
          fileByte pool v inode i else buf[i]? := by
  induction n generalizing blk blocks buf with
  | zero =>
    refine ⟨rfl, fun k h1 h2 => by omega, fun i => ?_⟩
    rw [if_neg (by rw [Nat.add_zero]; omega)]
  | succ n ih =>
    obtain ⟨q, hq⟩ := Option.isSome_iff_exists.mp (hmap blk (le_refl _) (by omega))
    obtain ⟨hlen, hok, hdata⟩ := readLblock_ref rest hinode (by omega) (Nat.zero_le _) hblocks hq
    rw [fileLoop]
    dsimp only
    rcases hbytes : blockBytes pool v inode blk with _ | data
    · rw [hbytes, Option.isSome_none] at hok
      rw [hok]
      exact ⟨blk, le_refl _, by omega, hbytes⟩
    · rw [hbytes, Option.isSome_some] at hok
      obtain ⟨behind, hbehind⟩ := hdata data hbytes
      have hdlen := length_blockBytes hbytes
      have hstart := hend blk (by omega)
      -- the bytes copied are the start of this block
      have hcopy : fit ((readLblock pool v (inode ++ rest) blk v.blockSize 0 blocks).2.drop v.blockSize)
          (min (fsize - blk * v.blockSize) v.blockSize) =
          data.take (min (fsize - blk * v.blockSize) v.blockSize) := by
        rw [hbehind]
        exact fit_block (by omega)
      have hclen : (data.take (min (fsize - blk * v.blockSize) v.blockSize)).length =
          min (fsize - blk * v.blockSize) v.blockSize := by rw [List.length_take]; omega
      have hroom : blk * v.blockSize +
          (data.take (min (fsize - blk * v.blockSize) v.blockSize)).length ≤ buf.length := by
        rw [hclen]
        omega
      rw [hok, hcopy]
      simp only [Bool.not_true, Bool.false_eq_true, if_false]
      have hnext := ih (blk + 1) (by omega) (fun k h1 h2 => hmap k (by omega) (by omega))
        (fun k hk => hend k (by omega)) (hblocks.trans hlen)
        (by rw [length_patch hroom]; exact hbuf)
      rcases hloop : fileLoop pool v (inode ++ rest) fsize n (blk + 1)
          (readLblock pool v (inode ++ rest) blk v.blockSize 0 blocks).2
          (patch buf (blk * v.blockSize) (data.take (min (fsize - blk * v.blockSize) v.blockSize)))
        with _ | buf'
      · rw [hloop] at hnext
        obtain ⟨k, h1, h2, h3⟩ := hnext
        exact ⟨k, by omega, by omega, h3⟩
      · rw [hloop] at hnext
        obtain ⟨hlen', hsome, hget⟩ := hnext
        refine ⟨hlen'.trans (length_patch hroom), fun k h1 h2 => ?_, fun i => ?_⟩
        · rcases Nat.eq_or_lt_of_le h1 with rfl | h1
          · rw [hbytes]
            rfl
          · exact hsome k (by omega) (by omega)
        · have hmul : (blk + 1) * v.blockSize = blk * v.blockSize + v.blockSize := Nat.succ_mul _ _
          have hsum : blk + 1 + n = blk + (n + 1) := by omega
          have hge : (blk + 1) * v.blockSize ≤ (blk + (n + 1)) * v.blockSize :=
            Nat.mul_le_mul_right _ (by omega)
          rw [hget i, getElem?_patch hroom, hclen, hsum]
          by_cases hin : blk * v.blockSize ≤ i ∧ i < blk * v.blockSize + v.blockSize ∧ i < fsize
          · -- a byte of this block
            obtain ⟨hlo, hhi, hsize⟩ := hin
            rw [if_neg (by omega), if_pos (by omega), if_pos (by omega), fileByte_within hbs hbytes hlo hhi,
              List.getElem?_take_of_lt (by omega)]
          · by_cases hlater : (blk + 1) * v.blockSize ≤ i ∧ i < (blk + (n + 1)) * v.blockSize ∧ i < fsize
            · rw [if_pos hlater, if_pos (by omega)]
            · rw [if_neg hlater, if_neg (by omega), if_neg (by omega)]

end Loop

/-! ## The whole call -/

section Call

variable {pool : Pool} {fs : Ext4Fs} {path : List Byte}

theorem length_blocks (pool : Pool) (fs : Ext4Fs) :
    fs.blockSize ≤ (pool.mem (u32 (fs.blockSize * 2))).length := by
  have hle := fs.blockSize_le
  have hu : u32 (fs.blockSize * 2) = fs.blockSize * 2 := Nat.mod_eq_of_lt (by omega)
  have := pool.length_mem (u32 (fs.blockSize * 2))
  omega

theorem openPath_ref {ino : Nat} {inode : List Byte}
    (hres : resolve pool fs.toExt4Vol ext4RootIno (pathComponents path) = some (some ino))
    (hinode : inodeAt pool fs.toExt4Vol ino = some inode) :
    openPath pool fs.toExt4Vol path = none ∧ allocBufs pool fs.toExt4Vol = none ∨
      ∃ rest blocks, openPath pool fs.toExt4Vol path = some ⟨inode ++ rest, blocks⟩ ∧
        fs.blockSize ≤ blocks.length := by
  unfold openPath
  rcases halloc : allocBufs pool fs.toExt4Vol with _ | bufs
  · exact .inl ⟨rfl, rfl⟩
  · right
    have hbufs : fs.blockSize ≤ bufs.blocks.length := by
      rw [allocBufs, Option.ite_none_right_eq_some, Option.some.injEq] at halloc
      rw [← halloc.2]
      exact length_blocks pool fs
    obtain ⟨hfound, hgrow⟩ := pathLookup_ref fs.blockSize_ge fs.inodeSize_ge hbufs
      (resolve_length hres) hres
    rw [Option.getD_some] at hfound
    dsimp only
    rw [hfound, if_neg (inodeAt_ne_zero hinode), (inodeRead_ref hinode _).1]
    exact ⟨_, _, rfl, hgrow⟩

theorem openPath_missing (fs : Ext4Fs)
    (hres : resolve pool fs.toExt4Vol ext4RootIno (pathComponents path) = some none)
    (hnames : ∀ name ∈ pathComponents path, name.length < 256) :
    openPath pool fs.toExt4Vol path = none := by
  unfold openPath
  rcases halloc : allocBufs pool fs.toExt4Vol with _ | bufs
  · rfl
  · have hbufs : fs.blockSize ≤ bufs.blocks.length := by
      rw [allocBufs, Option.ite_none_right_eq_some, Option.some.injEq] at halloc
      rw [← halloc.2]
      exact length_blocks pool fs
    have hfound := (pathLookup_ref fs.blockSize_ge fs.inodeSize_ge hbufs hnames hres).1
    exact if_pos hfound

/-- The number of blocks of a file. -/
def fileBlocks (v : Ext4Vol) (inode : List Byte) : Nat :=
  (fileSize inode + v.blockSize - 1) / v.blockSize

theorem fileSize_append {inode : List Byte} (h : 128 ≤ inode.length) (rest : List Byte) :
    fileSize (inode ++ rest) = fileSize inode := by
  rw [fileSize, fileSize, r32_append (by omega), r32_append (by omega)]

theorem fileBlocks_le (fs : Ext4Fs) {inode : List Byte} (hmax : fileSize inode ≤ ext4MaxFile) :
    fileBlocks fs.toExt4Vol inode ≤ 2 ^ 20 := by
  have hbs := fs.blockSize_ge
  unfold fileBlocks
  have hmul : 2 ^ 20 * 1024 ≤ 2 ^ 20 * fs.blockSize := Nat.mul_le_mul_left _ hbs
  unfold ext4MaxFile at hmax
  refine Nat.div_le_of_le_mul ?_
  rw [Nat.mul_comm]
  omega

theorem mul_lt_fileSize {inode : List Byte} {k : Nat} (hk : k < fileBlocks fs.toExt4Vol inode) :
    k * fs.blockSize < fileSize inode := by
  have hbs := fs.blockSize_ge
  have h := (Nat.le_div_iff_mul_le (by omega)).mp hk
  rw [Nat.succ_mul] at h
  omega

theorem div_lt_fileBlocks (fs : Ext4Fs) {inode : List Byte} {i : Nat} (hi : i < fileSize inode) :
    i / fs.blockSize < fileBlocks fs.toExt4Vol inode := by
  have hbs := fs.blockSize_ge
  rw [fileBlocks, Nat.div_lt_iff_lt_mul (by omega)]
  have := Nat.div_add_mod (fileSize inode + fs.blockSize - 1) fs.blockSize
  have := Nat.mod_lt (fileSize inode + fs.blockSize - 1) (show 0 < fs.blockSize by omega)
  rw [Nat.mul_comm]
  omega

/-- `ext4_read_file` on a path that leads to an inode all of whose blocks have a defined place: it
returns nothing for one of its own reasons, or the bytes of the file. -/
theorem ext4ReadFile_ref (fs : Ext4Fs) {ino : Nat} {inode : List Byte}
    (hres : resolve pool fs.toExt4Vol ext4RootIno (pathComponents path) = some (some ino))
    (hinode : inodeAt pool fs.toExt4Vol ino = some inode)
    (hmap : ∀ blk < fileBlocks fs.toExt4Vol inode, (blockMap pool fs.toExt4Vol inode blk).isSome) :
    match ext4ReadFile pool fs.toExt4Vol path with
    | none => allocBufs pool fs.toExt4Vol = none ∨ fileSize inode = 0 ∨ ext4MaxFile < fileSize inode ∨
        pool.alloc (fileSize inode + 1) = false ∨
        ∃ k < fileBlocks fs.toExt4Vol inode, blockBytes pool fs.toExt4Vol inode k = none
    | some (buf, size) => size = fileSize inode ∧ buf[size]? = some 0 ∧
        ∀ i < size, ∃ b, fileByte pool fs.toExt4Vol inode i = some b ∧ buf[i]? = some b := by
  have hbs := fs.blockSize_ge
  have hisz := fs.inodeSize_ge
  have hilen := (inodeRead_ref hinode []).2
  unfold ext4ReadFile
  rcases openPath_ref hres hinode with ⟨hopen, halloc⟩ | ⟨rest, blocks, hopen, hblocks⟩
  · rw [hopen]
    exact .inl halloc
  · rw [hopen]
    dsimp only
    rw [fileSize_append (by omega) rest]
    by_cases hsize : fileSize inode = 0 ∨ ext4MaxFile < fileSize inode
    · rw [if_pos hsize]
      rcases hsize with h | h
      · exact .inr (.inl h)
      · exact .inr (.inr (.inl h))
    · rw [if_neg hsize]
      obtain ⟨hpos, hmax⟩ := not_or.mp hsize
      by_cases halloc : pool.alloc (fileSize inode + 1) = true
      · have hnblk : u32 (fileBlocks fs.toExt4Vol inode) = fileBlocks fs.toExt4Vol inode := by
          have := fileBlocks_le fs (Nat.le_of_not_lt hmax)
          exact Nat.mod_eq_of_lt (by omega)
        have hmem := pool.length_mem (fileSize inode + 1)
        have hroom : fileSize inode + [(0 : Byte)].length ≤ (pool.mem (fileSize inode + 1)).length := hmem
        have hloop := fileLoop_ref pool fs.toExt4Vol (by omega) rest (by omega)
          (fileBlocks fs.toExt4Vol inode) 0
          (by have := fileBlocks_le fs (Nat.le_of_not_lt hmax); omega)
          (fun k _ hk => hmap k (by omega)) (fun k hk => mul_lt_fileSize (by omega)) hblocks
          ((Nat.le_of_succ_le hmem).trans (length_patch hroom).ge)
        rw [halloc]
        simp only [Bool.not_true, Bool.false_eq_true, if_false]
        rw [← fileBlocks, hnblk]
        rcases hres : fileLoop pool fs.toExt4Vol (inode ++ rest) (fileSize inode)
            (fileBlocks fs.toExt4Vol inode) 0 blocks
            (patch (pool.mem (fileSize inode + 1)) (fileSize inode) [0]) with _ | buf <;>
          rw [hres] at hloop
        · obtain ⟨k, -, hk, hnone⟩ := hloop
          exact .inr (.inr (.inr (.inr ⟨k, by omega, hnone⟩)))
        · obtain ⟨hlen, hsome, hget⟩ := hloop
          refine ⟨rfl, ?_, fun i hi => ?_⟩
          · rw [hget, if_neg (by omega), getElem?_patch hroom, if_pos ⟨le_refl _, by simp⟩, Nat.sub_self]
            rfl
          · have hdivlt := div_lt_fileBlocks fs hi
            obtain ⟨data, hdata⟩ := Option.isSome_iff_exists.mp
              (hsome (i / fs.blockSize) (Nat.zero_le _) (by rwa [Nat.zero_add]))
            have hmod : i % fs.blockSize < data.length := by
              rw [length_blockBytes hdata]
              exact Nat.mod_lt _ (by omega)
            have hbyte : fileByte pool fs.toExt4Vol inode i = some data[i % fs.blockSize] := by
              rw [fileByte, hdata, Option.bind_some, List.getElem?_eq_getElem hmod]
            have hbound : i < fileBlocks fs.toExt4Vol inode * fs.blockSize := by
              rwa [Nat.div_lt_iff_lt_mul (by omega)] at hdivlt
            refine ⟨_, hbyte, ?_⟩
            rw [hget, if_pos ⟨by omega, by rwa [Nat.zero_add], hi⟩, hbyte]
      · rw [Bool.not_eq_true] at halloc
        rw [halloc]
        exact .inr (.inr (.inr (.inl rfl)))

end Call

/-! ## Every call -/

section Every

variable (pool : Pool) (v : Ext4Vol)

variable {pool v}

theorem isSome_blockMap {inode : List Byte} {lblock : Nat} {data : List Byte}
    (h : blockBytes pool v inode lblock = some data) : (blockMap pool v inode lblock).isSome := by
  rw [blockBytes] at h
  rcases hmap : blockMap pool v inode lblock with _ | q
  · rw [hmap] at h
    cases h
  · rfl

end Every

/-! A partition with a file `/k` of one byte: its inode is an index whose leaf, block 9, lies behind the
end of the device. -/

/-- A pool that always has memory, cleared. -/
def zeroPool : Pool where
  alloc _ := true
  mem n := List.replicate n 0
  length_mem _ := List.length_replicate.ge

/-- Blocks of 1 KiB: boot block, superblock, group descriptors, inode table, root directory. -/
def lostLeafImage : List Byte :=
  [ -- superblock: first data block, inodes per group, magic
    (1044, le 4 1), (16, le 4 8), (12, le 2 0xEF53),
    -- inode table at block 3
    (974, le 4 3),
    -- inode 2: a directory of 1024 bytes at block 4
    (1140, le 2 0x4000), (2, le 4 1024), (32, le 4 4),
    -- inode 3: a regular file of one byte with an index of one entry
    (84, le 2 0x8000), (2, le 4 1), (24, le 4 0x80000),
    (4, le 2 0xF30A), (0, le 2 1), (2, le 2 1), (8, le 4 9),
    -- the entry for `k`
    (708, le 4 3), (0, le 2 1024), (0, [1, 1, 107]), (1015, [])].flatMap
    fun field => List.replicate field.1 0 ++ field.2

def lostLeafPart : FwRead × Media :=
  (FwRead.blockIo lostLeafImage 512, ⟨true, true, 512, 9⟩)

end SakuruBoot

import SakuruBoot.Uefi.Ext4

/-!
# What an ext4 volume stores

The reference reading of a volume: which data block an inode maps at a position, the entries of a
directory block, and where a path leads. It works on what the device delivers, not on the code's
buffers, and is undefined (`none`) where the volume cannot be read or is not well formed: a failed
read, a bad extent header, a tree deeper than one level, an extent that was never written, a block that
needs indirect addressing, a directory entry that sticks out of its block, a path through something
that is not a directory.

Then the code against it, bottom up: `readLblock_ref` for a block, `dirSearch_ref` for a directory,
`pathLookup_ref` for a path. Each says that where the reference reading is defined the code agrees
with it, whatever its buffers held before.
-/

namespace SakuruBoot
open CStr (Byte u8 u32 u64)
open Bytes

/-- A volume as mounting leaves it. With block sizes outside these bounds, or with no inodes in a
group, the code divides by zero or overruns its buffers. -/
structure Ext4Fs extends Ext4Vol where
  inodesPerGroup_pos : 0 < inodesPerGroup
  inodeSize_ge : 128 ≤ inodeSize
  blockSize_ge : 1024 ≤ blockSize
  blockSize_le : blockSize ≤ 2 ^ 30

/-! ## Blocks -/

section Reference

variable (pool : Pool) (v : Ext4Vol)

/-- The bytes at an offset; no device reaches past `2 ^ 64`. -/
def bytesAt (off n : Nat) : Option (List Byte) :=
  let r := readBytes pool v off n
  if off < 2 ^ 64 ∧ r.1 then some r.2 else none

def blockAt (blk : Nat) : Option (List Byte) := bytesAt pool v (blk * v.blockSize) v.blockSize

/-- The first block of a group's inode table. -/
def inodeTable (grp : Nat) : Option Nat :=
  (bytesAt pool v (v.bgdtOff + grp * v.descSize) v.descSize).map fun bgd =>
    r32 bgd 8 + 2 ^ 32 * (if 64 ≤ v.descSize then r32 bgd 40 else 0)

def inodeAt (ino : Nat) : Option (List Byte) :=
  if ino = 0 then none
  else
    (inodeTable pool v ((ino - 1) / v.inodesPerGroup)).bind fun it =>
      bytesAt pool v (it * v.blockSize + (ino - 1) % v.inodesPerGroup * v.inodeSize) v.inodeSize

/-- The entries of an extent node. -/
def nodeEntries (node : List Byte) : List (List Byte) := (List.range (r16 node 2)).map (extentEntry node)

/-- A well-formed extent node of the given depth: right magic, and room for its entries. -/
def nodeOk (node : List Byte) (depth : Nat) : Bool :=
  r16 node 0 == ext4ExtentHeaderMagic && r16 node 6 == depth && 12 + 12 * r16 node 2 ≤ node.length

def covers (lblock : Nat) (ex : List Byte) : Bool := r32 ex 0 ≤ lblock && lblock < r32 ex 0 + r16 ex 4

/-- A data block: zero stands for a hole, and a block past the last byte of any device is undefined. -/
def dataBlock (p : Nat) : Option (Option Nat) :=
  if p = 0 then some none else if p * v.blockSize < 2 ^ 64 then some (some p) else none

/-- The longest initialised extent; a greater length marks one whose blocks were never written. -/
def extInitMaxLen : Nat := 32768

/-- Where a leaf maps a logical block: `some none` is a hole, `none` is undefined. -/
def leafMap (node : List Byte) (lblock : Nat) : Option (Option Nat) :=
  match (nodeEntries node).find? (covers lblock) with
  | none => some none
  | some ex =>
    if r16 ex 4 ≤ extInitMaxLen then dataBlock v (extentStart ex + (lblock - r32 ex 0)) else none

/-- The index entry responsible for a logical block. -/
def indexFor (node : List Byte) (lblock : Nat) : Option (List Byte) :=
  ((nodeEntries node).takeWhile fun ei => r32 ei 0 ≤ lblock).getLast?

/-- The extent tree's root, in the inode's block area. -/
def extentRoot (inode : List Byte) : List Byte := slice inode 40 60

/-- Where an inode maps a logical block: `some none` is a hole, `none` is undefined. -/
def blockMap (inode : List Byte) (lblock : Nat) : Option (Option Nat) :=
  if hasExtents inode then
    let root := extentRoot inode
    if nodeOk root 0 then leafMap v root lblock
    else if nodeOk root 1 then
      match indexFor root lblock with
      | none => some none
      | some ei =>
        match blockAt pool v (indexLeaf ei) with
        | none => none
        | some leaf => if nodeOk leaf 0 then leafMap v leaf lblock else none
    else none
  else if lblock < 12 then dataBlock v (r32 inode (40 + 4 * lblock))
  else none

/-- The bytes at a logical block: zeros for a hole. -/
def blockBytes (inode : List Byte) (lblock : Nat) : Option (List Byte) :=
  match blockMap pool v inode lblock with
  | none => none
  | some none => some (List.replicate v.blockSize 0)
  | some (some p) => blockAt pool v p

/-! ## Directories and paths -/

structure DirEntry where
  ino : Nat
  name : List Byte
  inside : Bool

/-- The entry at a position of a directory block. -/
def entryAt (data : List Byte) (pos : Nat) : DirEntry :=
  let nl := ((data.drop pos).getD 6 0).toNat
  { ino := r32 (data.drop pos) 0
    name := slice data (pos + 8) nl
    inside := pos + 8 + nl ≤ data.length }

/-- The entries from a position on, each `rec_len` bytes behind the one before. -/
def entriesFrom (data : List Byte) (limit : Nat) : Nat → Nat → List DirEntry
  | 0, _ => []
  | fuel + 1, pos =>
    if limit < pos + 8 then []
    else if r16 (data.drop pos) 4 = 0 then []
    else entryAt data pos :: entriesFrom data limit fuel (pos + r16 (data.drop pos) 4)

def blockEntries (data : List Byte) (limit : Nat) : List DirEntry := entriesFrom data limit limit 0

/-- The inode a name stands for among some entries; `some none` when there is none. -/
def entryFor (name : List Byte) : List DirEntry → Option (Option Nat)
  | [] => some none
  | e :: es =>
    if e.ino = 0 then entryFor name es
    else if !e.inside then none
    else if e.name = name then some (some e.ino)
    else entryFor name es

/-- The blocks of a directory, in order. -/
def dirFind (inode name : List Byte) : List Nat → Option (Option Nat)
  | [] => some none
  | blk :: blks =>
    match blockBytes pool v inode blk with
    | none => none
    | some data =>
      let size := r32 inode 4
      match entryFor name (blockEntries data (dirLimit v size (dirBlocks v size) blk)) with
      | some none => dirFind inode name blks
      | r => r

def isDirectory (inode : List Byte) : Bool := r16 inode 0 / 4096 == 4
/-- Where a path of components leads from an inode. -/
def resolve : Nat → List (List Byte) → Option (Option Nat)
  | ino, [] => some (some ino)
  | ino, name :: names =>
    match inodeAt pool v ino with
    | none => none
    | some inode =>
      if !isDirectory inode then none
      else
        match dirFind pool v inode name (List.range (dirBlocks v (r32 inode 4))) with
        | some (some next) => resolve next names
        | r => r

end Reference

/-- The components of a path: its pieces between slashes. -/
def pathComponents (path : List Byte) : List (List Byte) :=
  ((CStr.str path).splitOn 47).filter (· != [])

/-! ## Fields read through a longer buffer -/

theorem r16_append {p : List Byte} {off : Nat} (h : off + 2 ≤ p.length) (rest : List Byte) :
    r16 (p ++ rest) off = r16 p off := by
  rw [r16, r16, fit_slice (by rw [List.length_append]; omega), fit_slice h, slice_append_left h]

theorem r32_append {p : List Byte} {off : Nat} (h : off + 4 ≤ p.length) (rest : List Byte) :
    r32 (p ++ rest) off = r32 p off := by
  rw [r32, r32, fit_slice (by rw [List.length_append]; omega), fit_slice h, slice_append_left h]

theorem r32_drop (p : List Byte) (o off : Nat) : r32 (p.drop o) off = r32 p (o + off) := by
  rw [r32, r32, List.drop_drop]

theorem r32_slice {p : List Byte} {o m off : Nat} (h : off + 4 ≤ m) (hp : o + m ≤ p.length) :
    r32 (slice p o m) off = r32 p (o + off) := by
  rw [r32, r32, fit_slice (by rw [length_slice]; omega), fit_slice (by omega), slice_slice h]

/-! ## Extent nodes -/

section Node

variable {node : List Byte} (rest : List Byte) {i : Nat}

theorem extentEntry_append (h : 12 + 12 * i + 12 ≤ node.length) :
    extentEntry (node ++ rest) i = extentEntry node i ++ rest :=
  List.drop_append_of_le_length (by omega)

theorem length_extentEntry (h : 12 + 12 * i + 12 ≤ node.length) : 12 ≤ (extentEntry node i).length := by
  rw [extentEntry, List.length_drop]
  omega

theorem r32_extentEntry (h : 12 + 12 * i + 12 ≤ node.length) {off : Nat} (hoff : off ≤ 8) :
    r32 (extentEntry (node ++ rest) i) off = r32 (extentEntry node i) off := by
  have := length_extentEntry h
  rw [extentEntry_append rest h, r32_append (by omega)]

theorem r16_extentEntry (h : 12 + 12 * i + 12 ≤ node.length) {off : Nat} (hoff : off ≤ 10) :
    r16 (extentEntry (node ++ rest) i) off = r16 (extentEntry node i) off := by
  have := length_extentEntry h
  rw [extentEntry_append rest h, r16_append (by omega)]

theorem r16_lt (p : List Byte) (off : Nat) : r16 p off < 2 ^ 16 := by
  have := leVal_lt (fit (p.drop off) 2)
  rw [length_fit] at this
  unfold r16
  omega

theorem leafScan_eq {lblock : Nat} (hlb : lblock < 2 ^ 31) (n i : Nat)
    (hfit : 12 + 12 * (i + n) ≤ node.length) :
    leafScan (node ++ rest) lblock n i =
      (((List.range' i n).map (extentEntry node)).find? (covers lblock)).elim 0
        fun ex => extentStart ex + (lblock - r32 ex 0) := by
  induction n generalizing i with
  | zero => rfl
  | succ n ih =>
    have hi : 12 + 12 * i + 12 ≤ node.length := by omega
    have hlen := r16_lt (extentEntry node i) 4
    have hcond : (r32 (extentEntry node i) 0 ≤ lblock ∧
        lblock < u32 (r32 (extentEntry node i) 0 + r16 (extentEntry node i) 4)) ↔
        covers lblock (extentEntry node i) = true := by
      rw [covers, Bool.and_eq_true, decide_eq_true_iff, decide_eq_true_iff]
      refine and_congr_right fun hle => ?_
      rw [u32, Nat.mod_eq_of_lt (by omega)]
    have hstart : extentStart (extentEntry (node ++ rest) i) = extentStart (extentEntry node i) := by
      rw [extentStart, extentStart, r32_extentEntry rest hi (by omega), r16_extentEntry rest hi (by omega)]
    simp only [leafScan, List.range'_succ, List.map_cons, List.find?_cons,
      r32_extentEntry rest hi (show 0 ≤ 8 by omega), r16_extentEntry rest hi (show 4 ≤ 10 by omega),
      hstart, hcond]
    cases hcov : covers lblock (extentEntry node i)
    · simpa using ih (i + 1) (by omega)
    · simp

theorem leafScan_leafMap {v : Ext4Vol} {lblock : Nat} (hlb : lblock < 2 ^ 31)
    (hfit : 12 + 12 * r16 node 2 ≤ node.length) {r : Option Nat} (hmap : leafMap v node lblock = some r) :
    dataBlock v (leafScan (node ++ rest) lblock (r16 node 2) 0) = some r := by
  have hentries : 12 + 12 * (0 + r16 node 2) ≤ node.length := by omega
  rw [leafMap, nodeEntries, List.range_eq_range'] at hmap
  rw [leafScan_eq rest hlb _ _ hentries]
  rcases hfind : ((List.range' 0 (r16 node 2)).map (extentEntry node)).find? (covers lblock) with _ | ex
  · rw [hfind] at hmap
    exact hmap
  · rw [hfind] at hmap
    exact (Option.ite_none_right_eq_some.mp hmap).2

theorem bestIndex_eq {lblock : Nat} (n i : Nat) (best : Option (List Byte))
    (hfit : 12 + 12 * (i + n) ≤ node.length) :
    bestIndex (node ++ rest) lblock n i best =
      match ((List.range' i n).takeWhile fun j => r32 (extentEntry node j) 0 ≤ lblock).getLast? with
      | none => best
      | some j => some (extentEntry (node ++ rest) j) := by
  induction n generalizing i best with
  | zero => rfl
  | succ n ih =>
    have hi : 12 + 12 * i + 12 ≤ node.length := by omega
    simp only [bestIndex, List.range'_succ, r32_extentEntry rest hi (show 0 ≤ 8 by omega)]
    by_cases hlt : lblock < r32 (extentEntry node i) 0
    · rw [if_pos hlt, List.takeWhile_cons_of_neg (by simpa using hlt)]
      rfl
    · rw [if_neg hlt, List.takeWhile_cons_of_pos (by simpa using hlt), ih (i + 1) _ (by omega),
        List.getLast?_cons]
      cases ((List.range' (i + 1) n).takeWhile fun j => r32 (extentEntry node j) 0 ≤ lblock).getLast? <;>
        rfl

theorem bestIndex_indexFor {lblock : Nat} (hfit : 12 + 12 * r16 node 2 ≤ node.length) :
    (bestIndex (node ++ rest) lblock (r16 node 2) 0 none).map indexLeaf =
      (indexFor node lblock).map indexLeaf := by
  have hentries : 12 + 12 * (0 + r16 node 2) ≤ node.length := by omega
  rw [bestIndex_eq rest _ _ _ hentries, indexFor, nodeEntries, List.range_eq_range',
    List.takeWhile_map, List.getLast?_map]
  cases hlast : ((List.range' 0 (r16 node 2)).takeWhile
      fun j => r32 (extentEntry node j) 0 ≤ lblock).getLast? with
  | none => simp only [Function.comp_def, hlast, Option.map_none]
  | some j =>
    have hj : j < r16 node 2 := by
      have hmem := List.mem_of_getLast? hlast
      have := List.mem_range'_1.mp ((List.takeWhile_sublist _).mem hmem)
      omega
    have hij : 12 + 12 * j + 12 ≤ node.length := by omega
    simp only [Function.comp_def, hlast, Option.map_some, indexLeaf,
      r32_extentEntry rest hij (show 4 ≤ 8 by omega), r16_extentEntry rest hij (show 8 ≤ 10 by omega)]

end Node

/-! ## Blocks of a file -/

section Blocks

variable {pool : Pool} {v : Ext4Vol}

theorem length_readBytes {off n : Nat} (h : (readBytes pool v off n).1 = true) :
    (readBytes pool v off n).2.length = n := by
  unfold readBytes at h ⊢
  split at h
  · dsimp only at h ⊢
    split_ifs at h ⊢
    exact length_fit _ _
  · split at h
    · rename_i dio _
      exact dio.length_read h
    · split at h
      · cases h
      · dsimp only at h ⊢
        split_ifs at h ⊢
        exact length_fit _ _

theorem bytesAt_eq_some {off n : Nat} {data : List Byte} :
    bytesAt pool v off n = some data ↔ off < 2 ^ 64 ∧ readBytes pool v off n = (true, data) := by
  unfold bytesAt
  rcases readBytes pool v off n with ⟨_ | _, d⟩ <;> simp

theorem length_bytesAt {off n : Nat} {data : List Byte} (h : bytesAt pool v off n = some data) :
    data.length = n := by
  obtain ⟨-, hread⟩ := bytesAt_eq_some.mp h
  have hok : (readBytes pool v off n).1 = true := by rw [hread]
  have hlen := length_readBytes hok
  rwa [hread] at hlen

theorem length_blockAt {blk : Nat} {data : List Byte} (h : blockAt pool v blk = some data) :
    data.length = v.blockSize := length_bytesAt h

theorem blkRead_eq {blk : Nat} (h : blk * v.blockSize < 2 ^ 64) :
    blkRead pool v blk = readBytes pool v (blk * v.blockSize) v.blockSize := by
  rw [blkRead, u64, Nat.mod_eq_of_lt h]

theorem blkRead_of_blockAt {blk : Nat} {data : List Byte} (h : blockAt pool v blk = some data) :
    blkRead pool v blk = (true, data) := by
  obtain ⟨hoff, hread⟩ := bytesAt_eq_some.mp h
  rw [blkRead_eq hoff, hread]

theorem isSome_blockAt {blk : Nat} (h : blk * v.blockSize < 2 ^ 64) :
    (blockAt pool v blk).isSome = (blkRead pool v blk).1 := by
  rw [blkRead_eq h, blockAt, bytesAt]
  simp only [and_iff_right h]
  rcases (readBytes pool v (blk * v.blockSize) v.blockSize).1 with _ | _ <;> rfl

theorem length_blockBytes {inode : List Byte} {lblock : Nat} {data : List Byte}
    (h : blockBytes pool v inode lblock = some data) : data.length = v.blockSize := by
  unfold blockBytes at h
  split at h
  · cases h
  · cases h
    exact List.length_replicate
  · exact length_blockAt h

theorem nodeOk_iff {node : List Byte} {depth : Nat} : nodeOk node depth = true ↔
    r16 node 0 = ext4ExtentHeaderMagic ∧ r16 node 6 = depth ∧ 12 + 12 * r16 node 2 ≤ node.length := by
  simp [nodeOk, and_assoc]

theorem header_append (node : List Byte) (hlen : 12 ≤ node.length) (rest : List Byte) :
    r16 (node ++ rest) 0 = r16 node 0 ∧ r16 (node ++ rest) 2 = r16 node 2 ∧
      r16 (node ++ rest) 6 = r16 node 6 :=
  ⟨r16_append (by omega) _, r16_append (by omega) _, r16_append (by omega) _⟩

/-- Where the reference reading is defined, `extent_phys` returns the block it names, or zero for a
hole. -/
theorem extentPhys_ref {inode : List Byte} (rest : List Byte) {lblock scratch : Nat}
    {blocks : List Byte} (hext : hasExtents inode = true) (hlb : lblock < 2 ^ 31)
    (hscratch : scratch ≤ blocks.length) {r : Option Nat}
    (hmap : blockMap pool v inode lblock = some r) :
    dataBlock v (extentPhys pool v (extentRoot inode ++ rest) lblock scratch blocks).1 = some r ∧
      blocks.length ≤ (extentPhys pool v (extentRoot inode ++ rest) lblock scratch blocks).2.length := by
  rw [blockMap, if_pos hext] at hmap
  dsimp only at hmap
  by_cases h0 : nodeOk (extentRoot inode) 0 = true
  · -- the extents are in the inode
    rw [if_pos h0] at hmap
    obtain ⟨hmagic, hdepth, hfit⟩ := nodeOk_iff.mp h0
    obtain ⟨hm, he, hd⟩ := header_append (extentRoot inode) (by omega) rest
    simp only [extentPhys, hm, he, hd, hmagic, hdepth, ne_eq, not_true_eq_false, if_false,
      Nat.lt_irrefl, leafScan_leafMap rest hlb hfit hmap, le_refl, and_self]
  · rw [if_neg h0] at hmap
    by_cases h1 : nodeOk (extentRoot inode) 1 = true
    · -- the inode holds an index
      rw [if_pos h1] at hmap
      obtain ⟨hmagic, hdepth, hfit⟩ := nodeOk_iff.mp h1
      obtain ⟨hm, he, hd⟩ := header_append (extentRoot inode) (by omega) rest
      have hindex : (bestIndex (extentRoot inode ++ rest) lblock (r16 (extentRoot inode) 2) 0 none).map
          indexLeaf = (indexFor (extentRoot inode) lblock).map indexLeaf := bestIndex_indexFor rest hfit
      simp only [extentPhys, hm, he, hd, hmagic, hdepth, ne_eq, not_true_eq_false, if_false,
        Nat.lt_one_iff, if_true]
      rcases hbest : bestIndex (extentRoot inode ++ rest) lblock (r16 (extentRoot inode) 2) 0 none with
        _ | best
      · rw [hbest, Option.map_none, eq_comm, Option.map_eq_none_iff] at hindex
        rw [hindex, Option.some.injEq] at hmap
        exact ⟨by rw [← hmap]; rfl, le_refl _⟩
      · rw [hbest, Option.map_some, eq_comm, Option.map_eq_some_iff] at hindex
        obtain ⟨ei, hei, hleafEq⟩ := hindex
        rw [hei] at hmap
        dsimp only at hmap ⊢
        rw [hleafEq] at hmap
        have hle := length_le_patch hscratch (blkRead pool v (indexLeaf best)).2
        rcases hleaf : blockAt pool v (indexLeaf best) with _ | leaf
        · rw [hleaf] at hmap
          cases hmap
        · rw [hleaf] at hmap
          replace hleaf := blkRead_of_blockAt hleaf
          dsimp only at hmap
          rw [Option.ite_none_right_eq_some] at hmap
          obtain ⟨hok, hmap⟩ := hmap
          obtain ⟨hlmagic, -, hlfit⟩ := nodeOk_iff.mp hok
          rw [hleaf] at hle ⊢
          obtain ⟨hlm, hle', -⟩ := header_append leaf (by omega)
            (blocks.drop (scratch + leaf.length))
          simp only [drop_patch hscratch, hlm, hle', hlmagic, not_true_eq_false, if_false,
            Bool.not_true, Bool.false_eq_true, leafScan_leafMap _ hlb hlfit hmap]
          exact ⟨trivial, hle⟩
    · rw [if_neg h1] at hmap
      cases hmap

theorem dataBlock_hole {p : Nat} : dataBlock v p = some none ↔ p = 0 := by
  unfold dataBlock
  split_ifs <;> simp_all

theorem dataBlock_eq_some {p q : Nat} :
    dataBlock v p = some (some q) ↔ p = q ∧ p ≠ 0 ∧ p * v.blockSize < 2 ^ 64 := by
  unfold dataBlock
  split_ifs with h0 hin
  · simp [h0]
  · simp only [Option.some.injEq, ne_eq, h0, hin, not_false_eq_true, and_true]
  · simp only [hin, and_false]

theorem hasExtents_append {inode : List Byte} (h : 100 ≤ inode.length) (rest : List Byte) :
    hasExtents (inode ++ rest) = hasExtents inode := by
  rw [hasExtents, hasExtents, r32_append (by omega)]

theorem drop_inode {inode : List Byte} (rest : List Byte) (h : 100 ≤ inode.length) :
    (inode ++ rest).drop 40 = extentRoot inode ++ (inode.drop 100 ++ rest) := by
  rw [List.drop_append_of_le_length (by omega), ← slice_append_drop inode 40 60, extentRoot,
    List.append_assoc]

/-- The physical block `read_lblock` looks up, and the scratch memory after that. -/
def lblockPhys (pool : Pool) (v : Ext4Vol) (inode : List Byte) (lblock scratch : Nat)
    (blocks : List Byte) : Nat × List Byte :=
  if hasExtents inode then extentPhys pool v (inode.drop 40) lblock scratch blocks
  else (if lblock < 12 then r32 (inode.drop 40) (lblock * 4) else 0, blocks)

theorem readLblock_eq (inode : List Byte) (lblock out scratch : Nat) (blocks : List Byte) :
    readLblock pool v inode lblock out scratch blocks =
      let q := lblockPhys pool v inode lblock scratch blocks
      if q.1 = 0 then (true, patch q.2 out (List.replicate v.blockSize 0))
      else ((blkRead pool v q.1).1, patch q.2 out (blkRead pool v q.1).2) := rfl

theorem lblockPhys_ref {inode : List Byte} (rest : List Byte) {lblock scratch : Nat}
    {blocks : List Byte} (hinode : 100 ≤ inode.length) (hlb : lblock < 2 ^ 31)
    (hscratch : scratch ≤ blocks.length) {r : Option Nat}
    (hmap : blockMap pool v inode lblock = some r) :
    dataBlock v (lblockPhys pool v (inode ++ rest) lblock scratch blocks).1 = some r ∧
      blocks.length ≤ (lblockPhys pool v (inode ++ rest) lblock scratch blocks).2.length := by
  unfold lblockPhys
  rw [hasExtents_append hinode, drop_inode rest hinode]
  by_cases hext : hasExtents inode = true
  · rw [if_pos hext]
    exact extentPhys_ref _ hext hlb hscratch hmap
  · rw [if_neg hext]
    rw [blockMap, if_neg hext, Option.ite_none_right_eq_some] at hmap
    obtain ⟨h12, hmap⟩ := hmap
    have hfield : r32 (extentRoot inode ++ (inode.drop 100 ++ rest)) (lblock * 4) =
        r32 inode (40 + 4 * lblock) := by
      rw [r32_append (by rw [extentRoot, length_slice]; omega), extentRoot,
        r32_slice (by omega) (by omega), Nat.mul_comm]
    simp only [if_pos h12, hfield]
    exact ⟨hmap, le_refl _⟩

/-- A block whose place is defined: `read_lblock` fails when the reference does, and otherwise puts
the reference's bytes where it was told to. -/
theorem readLblock_ref {inode : List Byte} (rest : List Byte) {lblock out scratch : Nat}
    {blocks : List Byte} (hinode : 100 ≤ inode.length) (hlb : lblock < 2 ^ 31)
    (hscratch : scratch ≤ blocks.length) (hout : out ≤ blocks.length) {r : Option Nat}
    (hmap : blockMap pool v inode lblock = some r) :
    blocks.length ≤ (readLblock pool v (inode ++ rest) lblock out scratch blocks).2.length ∧
      (readLblock pool v (inode ++ rest) lblock out scratch blocks).1 =
        (blockBytes pool v inode lblock).isSome ∧
      ∀ data, blockBytes pool v inode lblock = some data →
        ∃ behind, (readLblock pool v (inode ++ rest) lblock out scratch blocks).2.drop out =
          data ++ behind := by
  obtain ⟨hphys, hlen⟩ := lblockPhys_ref rest hinode hlb hscratch hmap
  rw [readLblock_eq]
  dsimp only
  generalize (lblockPhys pool v (inode ++ rest) lblock scratch blocks).2 = mem at hlen ⊢
  generalize (lblockPhys pool v (inode ++ rest) lblock scratch blocks).1 = p at hphys ⊢
  have hout' : out ≤ mem.length := hout.trans hlen
  have hgrow := fun src => hlen.trans (length_le_patch hout' src)
  cases r with
  | none =>
    rw [dataBlock_hole] at hphys
    have hbytes : blockBytes pool v inode lblock = some (List.replicate v.blockSize 0) := by
      rw [blockBytes, hmap]
    simp only [hphys, if_true, hbytes, Option.isSome_some, true_and, Option.some.injEq]
    refine ⟨hgrow _, fun data hdata => ?_⟩
    rw [← hdata]
    exact ⟨_, drop_patch hout'⟩
  | some q =>
    obtain ⟨rfl, hne, hin⟩ := dataBlock_eq_some.mp hphys
    have hbytes : blockBytes pool v inode lblock = blockAt pool v p := by rw [blockBytes, hmap]
    simp only [if_neg hne, hbytes]
    refine ⟨hgrow _, (isSome_blockAt hin).symm, fun data hdata => ?_⟩
    rw [blkRead_of_blockAt hdata]
    exact ⟨_, drop_patch hout'⟩

end Blocks

/-! ## Directories -/

section Directories

theorem getD_drop_append {p : List Byte} {pos k : Nat} (h : pos + k < p.length) (rest : List Byte) :
    ((p ++ rest).drop pos).getD k 0 = (p.drop pos).getD k 0 := by
  simp only [List.getD_eq_getElem?_getD, List.getElem?_drop, List.getElem?_append_left h]

theorem entryFor_length {name : List Byte} {data : List Byte} {limit fuel pos ino : Nat}
    (h : entryFor name (entriesFrom data limit fuel pos) = some (some ino)) :
    name.length < 256 ∧ ino ≠ 0 := by
  induction fuel generalizing pos with
  | zero => cases h
  | succ fuel ih =>
    rw [entriesFrom] at h
    split_ifs at h with h1 h2
    · cases h
    · cases h
    · rw [entryFor] at h
      split_ifs at h with h3 h4 h5
      · exact ih h
      · rw [Option.some.injEq, Option.some.injEq] at h
        refine ⟨?_, h ▸ h3⟩
        have hlt : ((data.drop pos).getD 6 0).toNat < 256 := UInt8.toNat_lt _
        rw [← h5, entryAt, length_slice]
        omega
      · exact ih h

theorem entry_match {data name : List Byte} (rest : List Byte) {pos : Nat} (hpos : pos + 8 ≤ data.length)
    (hinside : (entryAt data pos).inside = true) (hname : name.length < 256) :
    ((((data ++ rest).drop pos).getD 6 0).toNat = u8 name.length ∧
      fit (((data ++ rest).drop pos).drop 8) name.length = name) ↔ (entryAt data pos).name = name := by
  have hin : pos + 8 + ((data.drop pos).getD 6 0).toNat ≤ data.length := by
    simpa [entryAt] using hinside
  have hu8 : u8 name.length = name.length := Nat.mod_eq_of_lt hname
  rw [getD_drop_append (by omega), List.drop_drop, hu8, entryAt]
  dsimp only
  constructor
  · rintro ⟨hlen, hfit⟩
    rw [← hlen, fit_slice (by rw [List.length_append]; omega), slice_append_left (by omega)] at hfit
    exact hfit
  · intro hslice
    have hlen : ((data.drop pos).getD 6 0).toNat = name.length := by
      rw [← hslice, length_slice]
      omega
    refine ⟨hlen, ?_⟩
    rw [← hlen, fit_slice (by rw [List.length_append]; omega), slice_append_left (by omega), hslice]

/-- The entry loop on a block finds what the entries say. -/
theorem dirWalk_ref {data : List Byte} (rest : List Byte) {name : List Byte} {limit : Nat}
    (hlimit : limit ≤ data.length) (hname : name.length < 256) (fuel pos : Nat) {r : Option Nat}
    (h : entryFor name (entriesFrom data limit fuel pos) = some r) :
    dirWalk (data ++ rest) limit name fuel pos = r.getD 0 := by
  induction fuel generalizing pos with
  | zero =>
    cases h
    rfl
  | succ fuel ih =>
    rw [entriesFrom] at h
    rw [dirWalk]
    by_cases h1 : limit < pos + 8
    · rw [if_pos h1] at h ⊢
      cases h
      rfl
    · rw [if_neg h1] at h ⊢
      have hlong : 8 ≤ (data.drop pos).length := by rw [List.length_drop]; omega
      have hdrop : (data ++ rest).drop pos = data.drop pos ++ rest :=
        List.drop_append_of_le_length (by omega)
      have hrec : r16 ((data ++ rest).drop pos) 4 = r16 (data.drop pos) 4 := by
        rw [hdrop, r16_append (by omega)]
      have hino : r32 ((data ++ rest).drop pos) 0 = (entryAt data pos).ino := by
        rw [hdrop, r32_append (by omega)]
        rfl
      dsimp only
      rw [hrec, hino]
      by_cases h2 : r16 (data.drop pos) 4 = 0
      · rw [if_pos h2] at h ⊢
        cases h
        rfl
      · rw [if_neg h2] at h ⊢
        rw [entryFor] at h
        by_cases h3 : (entryAt data pos).ino = 0
        · rw [if_pos h3] at h
          rw [if_neg (fun hm => hm.1 h3)]
          exact ih _ h
        · rw [if_neg h3] at h
          by_cases h4 : (entryAt data pos).inside = true
          · have hmatch := entry_match rest (by omega) h4 hname
            rw [if_neg (by simp [h4])] at h
            by_cases h5 : (entryAt data pos).name = name
            · rw [if_pos h5, Option.some.injEq] at h
              rw [if_pos ⟨h3, hmatch.mpr h5⟩, ← h]
              rfl
            · rw [if_neg h5] at h
              rw [if_neg (fun hm => h5 (hmatch.mp hm.2))]
              exact ih _ h
          · rw [if_pos (by simpa using h4)] at h
            cases h

variable {pool : Pool} {v : Ext4Vol}

theorem dirLimit_le (hbs : 0 < v.blockSize) (size nblk blk : Nat) :
    dirLimit v size nblk blk ≤ v.blockSize := by
  unfold dirLimit
  split
  · exact (Nat.mod_lt _ hbs).le
  · exact le_refl _

theorem dirFind_length {inode name : List Byte} {blks : List Nat} {ino : Nat}
    (h : dirFind pool v inode name blks = some (some ino)) : name.length < 256 ∧ ino ≠ 0 := by
  induction blks with
  | nil => cases h
  | cons blk blks ih =>
    rw [dirFind] at h
    rcases hbytes : blockBytes pool v inode blk with _ | data
    · rw [hbytes] at h
      cases h
    · rw [hbytes] at h
      dsimp only at h
      rcases hentry : entryFor name (blockEntries data
          (dirLimit v (r32 inode 4) (dirBlocks v (r32 inode 4)) blk)) with _ | _ | found
      · rw [hentry] at h
        cases h
      · rw [hentry] at h
        exact ih h
      · rw [hentry, Option.some.injEq, Option.some.injEq] at h
        rw [← h]
        exact entryFor_length hentry

theorem dirSearch_ref (hbs : 0 < v.blockSize) {inode : List Byte} (rest : List Byte)
    (hinode : 100 ≤ inode.length) {name : List Byte} (hname : name.length < 256) (n blk : Nat)
    (hblk : blk + n ≤ 2 ^ 31) {blocks : List Byte} (hblocks : v.blockSize ≤ blocks.length)
    {r : Option Nat} (h : dirFind pool v inode name (List.range' blk n) = some r) :
    (dirSearch pool v (inode ++ rest) name n blk blocks).1 = r.getD 0 ∧
      blocks.length ≤ (dirSearch pool v (inode ++ rest) name n blk blocks).2.length := by
  induction n generalizing blk blocks with
  | zero =>
    cases h
    exact ⟨rfl, le_refl _⟩
  | succ n ih =>
    rw [List.range'_succ, dirFind] at h
    rcases hbytes : blockBytes pool v inode blk with _ | data
    · rw [hbytes] at h
      cases h
    · rw [hbytes] at h
      dsimp only at h
      have hmap : ∃ q, blockMap pool v inode blk = some q := by
        rcases hq : blockMap pool v inode blk with _ | q
        · rw [blockBytes, hq] at hbytes
          cases hbytes
        · exact ⟨q, rfl⟩
      obtain ⟨q, hmap⟩ := hmap
      obtain ⟨hlen, hok, hdata⟩ := readLblock_ref rest hinode (by omega) hblocks (Nat.zero_le _) hmap
      obtain ⟨behind, hbehind⟩ := hdata data hbytes
      rw [hbytes, Option.isSome_some] at hok
      rw [List.drop_zero] at hbehind
      have hsize : r32 (inode ++ rest) 4 = r32 inode 4 := r32_append (by omega) _
      have hlimit := dirLimit_le hbs (r32 inode 4) (dirBlocks v (r32 inode 4)) blk
      rw [← length_blockBytes hbytes] at hlimit
      simp only [dirSearch, hok, Bool.not_true, Bool.false_eq_true, if_false, hsize]
      -- what the entries of this block say decides whether the loop goes on
      rcases hentry : entryFor name (blockEntries data
          (dirLimit v (r32 inode 4) (dirBlocks v (r32 inode 4)) blk)) with _ | _ | ino
      · rw [hentry] at h
        cases h
      · rw [hentry] at h
        have hwalk := dirWalk_ref behind hlimit hname _ _ hentry
        rw [← hbehind] at hwalk
        rw [hwalk]
        simp only [Option.getD_none, ne_eq, not_true_eq_false, if_false]
        obtain ⟨hfound, hgrow⟩ := ih (blk + 1) (by omega) (hblocks.trans hlen) h
        exact ⟨hfound, hlen.trans hgrow⟩
      · rw [hentry, Option.some.injEq] at h
        have hwalk := dirWalk_ref behind hlimit hname _ _ hentry
        rw [← hbehind] at hwalk
        rw [hwalk, ← h]
        simp only [Option.getD_some, ne_eq, (entryFor_length hentry).2, not_false_eq_true, if_true]
        exact ⟨trivial, hlen⟩

end Directories

/-! ## Paths -/

section Paths

variable {pool : Pool} {v : Ext4Vol}

theorem inodeRead_ref {ino : Nat} {inode : List Byte} (h : inodeAt pool v ino = some inode)
    (buf : List Byte) : inodeRead pool v ino buf = (true, inode ++ buf.drop inode.length) ∧
      inode.length = v.inodeSize := by
  rw [inodeAt, Option.ite_none_left_eq_some, Option.bind_eq_some_iff] at h
  obtain ⟨h0, it, hit, hinode⟩ := h
  rw [inodeTable, Option.map_eq_some_iff] at hit
  obtain ⟨bgd, hbgd, rfl⟩ := hit
  obtain ⟨hoff, hread⟩ := bytesAt_eq_some.mp hbgd
  obtain ⟨hoff', hread'⟩ := bytesAt_eq_some.mp hinode
  have hu := Nat.mod_eq_of_lt hoff
  have hu' := Nat.mod_eq_of_lt hoff'
  rw [inodeRead, if_neg h0]
  dsimp only [u64]
  rw [hu, hread]
  simp only [Bool.not_true, Bool.false_eq_true, if_false]
  rw [hu', hread', patch_zero]
  exact ⟨rfl, length_bytesAt hinode⟩

theorem inodeAt_ne_zero {ino : Nat} {inode : List Byte} (h : inodeAt pool v ino = some inode) :
    ino ≠ 0 := by
  rintro rfl
  cases h

theorem dirBlocks_le (hbs : 1024 ≤ v.blockSize) (size : Nat) : dirBlocks v size ≤ 2 ^ 31 := by
  unfold dirBlocks
  have hlt : u32 (size + v.blockSize - 1) < 2 ^ 32 := Nat.mod_lt _ (by norm_num)
  refine (Nat.div_le_div_left hbs (by norm_num)).trans ?_
  omega

theorem dirLookupComp_ref (hbs : 1024 ≤ v.blockSize) (hisz : 128 ≤ v.inodeSize) {ino : Nat}
    {inode name : List Byte} (hinode : inodeAt pool v ino = some inode) (hname : name.length < 256)
    {bufs : Ext4Bufs} (hbufs : v.blockSize ≤ bufs.blocks.length) {r : Option Nat}
    (h : dirFind pool v inode name (List.range (dirBlocks v (r32 inode 4))) = some r) :
    (dirLookupComp pool v ino name bufs).1 = r.getD 0 ∧
      v.blockSize ≤ (dirLookupComp pool v ino name bufs).2.blocks.length := by
  obtain ⟨hread, hlen⟩ := inodeRead_ref hinode bufs.inode
  have hsize : r32 (inode ++ bufs.inode.drop inode.length) 4 = r32 inode 4 := r32_append (by omega) _
  rw [List.range_eq_range'] at h
  obtain ⟨hfound, hgrow⟩ := dirSearch_ref (by omega) (bufs.inode.drop inode.length) (by omega) hname _ _
    (by rw [Nat.zero_add]; exact dirBlocks_le hbs _) hbufs h
  simp only [dirLookupComp, hread, Bool.not_true, Bool.false_eq_true, if_false, hsize]
  exact ⟨hfound, hbufs.trans hgrow⟩

/-! The code's component loop runs along `pathComponents`. -/

theorem splitOn_eq (c : Byte) (l : List Byte) : l.splitOn c =
    l.takeWhile (· != c) :: match l.dropWhile (· != c) with
      | [] => []
      | _ :: rest => rest.splitOn c := by
  induction l with
  | nil => rfl
  | cons x l ih =>
    by_cases hx : x = c
    · subst hx
      simp [List.splitOn, List.splitOnP_cons_eq_if_modifyHead]
    · have hne : (x == c) = false := by simpa using hx
      have hcons : (x :: l).splitOn c = (l.splitOn c).modifyHead (List.cons x) := by
        simp [List.splitOn, List.splitOnP_cons_eq_if_modifyHead, hne]
      rw [hcons, ih]
      simp [hx]

theorem components_eq (s : List Byte) : (s.splitOn 47).filter (· != []) =
    match s.dropWhile (· == 47) with
    | [] => []
    | x :: l => (x :: l).takeWhile (· != 47) ::
        (((x :: l).dropWhile (· != 47)).splitOn 47).filter (· != []) := by
  induction s with
  | nil => rfl
  | cons y s ih =>
    by_cases hy : y = 47
    · subst hy
      have hcons : ((47 : Byte) :: s).splitOn 47 = [] :: s.splitOn 47 := by
        simp [List.splitOn, List.splitOnP_cons_eq_if_modifyHead]
      rw [hcons, List.filter_cons_of_neg (by simp), ih, List.dropWhile_cons_of_pos (by simp)]
    · rw [List.dropWhile_cons_of_neg (by simpa using hy), splitOn_eq]
      dsimp only
      rw [List.filter_cons_of_pos (by simp [hy])]
      congr 1
      rcases hrest : (y :: s).dropWhile (· != 47) with _ | ⟨z, rest⟩
      · rfl
      · have hz : z = 47 := by
          have := List.head_dropWhile_not (fun c : Byte => c != 47) (by rw [hrest]; simp)
          simpa [hrest] using this
        subst hz
        have hcons : ((47 : Byte) :: rest).splitOn 47 = [] :: rest.splitOn 47 := by
          simp [List.splitOn, List.splitOnP_cons_eq_if_modifyHead]
        dsimp only
        rw [hcons, List.filter_cons_of_neg (by simp)]

theorem str_skipSlashes (p : List Byte) : CStr.str (skipSlashes p) = (CStr.str p).dropWhile (· == 47) := by
  induction p with
  | nil => rfl
  | cons x p ih =>
    by_cases hx : x = 47
    · subst hx
      rw [skipSlashes, List.dropWhile_cons_of_pos (by simp), ← skipSlashes, ih, CStr.str_cons,
        if_neg (by decide), List.dropWhile_cons_of_pos (by simp)]
    · rw [skipSlashes, List.dropWhile_cons_of_neg (by simpa using hx), CStr.str_cons]
      split
      · rfl
      · rw [List.dropWhile_cons_of_neg (by simpa using hx)]

theorem takeC_eq_str (p : List Byte) : CStr.takeC (· != 47) p = (CStr.str p).takeWhile (· != 47) := by
  induction p with
  | nil => rfl
  | cons x p ih =>
    by_cases h0 : x = 0
    · simp [CStr.takeC, CStr.str_cons, h0]
    · by_cases hx : x = 47
      · simp [CStr.takeC, CStr.str_cons, hx]
      · simp only [CStr.takeC, CStr.str_cons, h0, if_false] at ih ⊢
        rw [List.takeWhile_cons_of_pos (by simp [h0, hx]), List.takeWhile_cons_of_pos (by simp [hx]), ih]

theorem str_dropC (p : List Byte) :
    CStr.str (CStr.dropC (· != 47) p) = (CStr.str p).dropWhile (· != 47) := by
  induction p with
  | nil => rfl
  | cons x p ih =>
    by_cases h0 : x = 0
    · simp [CStr.dropC, CStr.str_cons, h0]
    · by_cases hx : x = 47
      · simp [CStr.dropC, CStr.str_cons, hx]
      · simp only [CStr.dropC, CStr.str_cons, h0, if_false] at ih ⊢
        rw [List.dropWhile_cons_of_pos (by simp [h0, hx]), List.dropWhile_cons_of_pos (by simp [hx]), ih]

theorem pathComponents_skipSlashes (p : List Byte) :
    pathComponents (skipSlashes p) = pathComponents p := by
  rw [pathComponents, pathComponents, components_eq, components_eq (CStr.str p), str_skipSlashes,
    List.dropWhile_idempotent]

theorem pathComponents_cons {p : List Byte} (h0 : CStr.deref p ≠ 0) (hp : CStr.deref p ≠ 47) :
    pathComponents p =
      CStr.takeC (· != 47) p :: pathComponents (skipSlashes (CStr.dropC (· != 47) p)) := by
  cases p with
  | nil => exact absurd rfl h0
  | cons x p =>
    have hx : x ≠ 0 := h0
    have hx47 : x ≠ 47 := hp
    rw [pathComponents_skipSlashes, pathComponents, pathComponents, takeC_eq_str, str_dropC,
      components_eq, CStr.str_cons, if_neg hx, List.dropWhile_cons_of_neg (by simpa using hx47)]

theorem pathComponents_end {p : List Byte} (h0 : CStr.deref p = 0) : pathComponents p = [] := by
  cases p with
  | nil => rfl
  | cons x p =>
    have hx : x = 0 := h0
    rw [pathComponents, CStr.str_cons, if_pos hx]
    rfl

theorem deref_skipSlashes (p : List Byte) : CStr.deref (skipSlashes p) ≠ 47 := by
  induction p with
  | nil => decide
  | cons x p ih =>
    by_cases hx : x = 47
    · rwa [skipSlashes, List.dropWhile_cons_of_pos (by simpa using hx)]
    · rwa [skipSlashes, List.dropWhile_cons_of_neg (by simpa using hx)]

theorem length_after_component {p : List Byte} (h0 : CStr.deref p ≠ 0) (hp : CStr.deref p ≠ 47) :
    (skipSlashes (CStr.dropC (· != 47) p)).length < p.length := by
  cases p with
  | nil => exact absurd rfl h0
  | cons x p =>
    have hx : x ≠ 0 := h0
    have hx47 : x ≠ 47 := hp
    have hdrop : CStr.dropC (· != 47) (x :: p) = CStr.dropC (· != 47) p := by
      rw [CStr.dropC, List.dropWhile_cons_of_pos (by simp [hx, hx47]), ← CStr.dropC]
    rw [hdrop, List.length_cons]
    have h1 := (List.dropWhile_sublist (l := CStr.dropC (· != 47) p) (· == (47 : Byte))).length_le
    have h2 := CStr.length_dropC_le (· != 47) p
    rw [skipSlashes]
    omega

/-- Where the reference reading of a path is defined, the component loop ends there. -/
theorem pathLoop_ref (hbs : 1024 ≤ v.blockSize) (hisz : 128 ≤ v.inodeSize) (fuel : Nat) {p : List Byte}
    (hfuel : p.length ≤ fuel) (hp : CStr.deref p ≠ 47) {ino : Nat} {bufs : Ext4Bufs}
    (hbufs : v.blockSize ≤ bufs.blocks.length)
    (hnames : ∀ name ∈ pathComponents p, name.length < 256) {r : Option Nat}
    (h : resolve pool v ino (pathComponents p) = some r) :
    (pathLoop pool v fuel ino p bufs).1 = r.getD 0 ∧
      v.blockSize ≤ (pathLoop pool v fuel ino p bufs).2.blocks.length := by
  induction fuel generalizing p ino bufs with
  | zero =>
    obtain rfl := List.length_eq_zero_iff.mp (Nat.le_zero.mp hfuel)
    cases h
    exact ⟨rfl, hbufs⟩
  | succ fuel ih =>
    rw [pathLoop]
    by_cases h0 : CStr.deref p = 0
    · rw [pathComponents_end h0, resolve, Option.some.injEq] at h
      rw [if_pos h0, ← h]
      exact ⟨rfl, hbufs⟩
    · rw [if_neg h0]
      have hcons := pathComponents_cons h0 hp
      have hlen := length_after_component h0 hp
      rw [hcons] at h hnames
      rw [resolve] at h
      rcases hinode : inodeAt pool v ino with _ | inode
      · rw [hinode] at h
        cases h
      · rw [hinode] at h
        dsimp only at h
        rw [Option.ite_none_left_eq_some] at h
        obtain ⟨-, h⟩ := h
        rcases hfind : dirFind pool v inode (CStr.takeC (· != 47) p)
            (List.range (dirBlocks v (r32 inode 4))) with _ | found
        · rw [hfind] at h
          cases h
        · obtain ⟨hres, hgrow⟩ := dirLookupComp_ref hbs hisz hinode (hnames _ (by simp)) hbufs hfind
          dsimp only
          rw [hfind] at h
          cases found with
          | none =>
            rw [Option.some.injEq] at h
            rw [Option.getD_none] at hres
            rw [if_pos hres, ← h]
            exact ⟨rfl, hgrow⟩
          | some next =>
            have hne := (dirFind_length hfind).2
            rw [Option.getD_some] at hres
            rw [if_neg (by rw [hres]; exact hne), hres]
            exact ih (by omega) (deref_skipSlashes _) hgrow
              (fun name hname => hnames name (by simp [hname])) h

theorem resolve_length {ino : Nat} {names : List (List Byte)} {target : Nat}
    (h : resolve pool v ino names = some (some target)) : ∀ name ∈ names, name.length < 256 := by
  induction names generalizing ino with
  | nil => intro name hname; cases hname
  | cons first names ih =>
    rw [resolve] at h
    rcases hinode : inodeAt pool v ino with _ | inode
    · rw [hinode] at h
      cases h
    · rw [hinode] at h
      dsimp only at h
      rw [Option.ite_none_left_eq_some] at h
      obtain ⟨-, h⟩ := h
      rcases hfind : dirFind pool v inode first (List.range (dirBlocks v (r32 inode 4))) with _ | _ | next
      · rw [hfind] at h
        cases h
      · rw [hfind] at h
        cases h
      · rw [hfind] at h
        intro name hname
        rcases List.mem_cons.mp hname with rfl | hname
        · exact (dirFind_length hfind).1
        · exact ih h name hname

theorem pathLookup_ref (hbs : 1024 ≤ v.blockSize) (hisz : 128 ≤ v.inodeSize) {path : List Byte}
    {bufs : Ext4Bufs} (hbufs : v.blockSize ≤ bufs.blocks.length)
    (hnames : ∀ name ∈ pathComponents path, name.length < 256) {r : Option Nat}
    (h : resolve pool v ext4RootIno (pathComponents path) = some r) :
    (pathLookup pool v path bufs).1 = r.getD 0 ∧
      v.blockSize ≤ (pathLookup pool v path bufs).2.blocks.length := by
  rw [← pathComponents_skipSlashes] at h hnames
  exact pathLoop_ref hbs hisz _ (le_refl _) (deref_skipSlashes path) hbufs hnames h

end Paths

end SakuruBoot

import SakuruBoot.Uefi.Partition

/-!
# Images of the supported kind

`Ext4Image` is a partition together with what is on it: geometry, inode tables, and files and
directories with their block maps. Its fields say where the bytes of each of these lie in the image,
in the encoding of the on-disk format; the rest of the image is arbitrary. An image inside the subset
that the reader documents is one that has such a description.
-/

namespace SakuruBoot
open CStr (Byte u8 u32 u64)
open Bytes

/-! ## The description -/

/-- `bytes` lie at offset `off`. -/
def Holds (image : List Byte) (off : Nat) (bytes : List Byte) : Prop :=
  slice image off bytes.length = bytes

/-- A run of blocks: `len` of them from logical block `first` on, at `start`. -/
structure Extent where
  first : Nat
  len : Nat
  start : Nat

namespace Extent

def encode (e : Extent) : List Byte :=
  le 4 e.first ++ le 2 e.len ++ le 2 (e.start / 2 ^ 32) ++ le 4 e.start

/-- An initialised extent inside a device of `nblk` blocks. -/
structure Ok (e : Extent) (nblk : Nat) : Prop where
  first_lt : e.first < 2 ^ 32
  len_pos : 0 < e.len
  len_le : e.len ≤ extInitMaxLen
  start_pos : 0 < e.start
  start_lt : e.start < 2 ^ 48
  inside : e.start + e.len ≤ nblk

def contains (lblock : Nat) (e : Extent) : Bool := e.first ≤ lblock && lblock < e.first + e.len

/-- Sorted, without overlap. -/
def Sorted (es : List Extent) : Prop := es.Pairwise fun a b => a.first + a.len ≤ b.first

/-- The block that a list of extents maps a logical block to. -/
def place (es : List Extent) (lblock : Nat) : Option Nat :=
  (es.find? (contains lblock)).map fun e => e.start + (lblock - e.first)

end Extent

/-- An index entry and the leaf block it leads to. -/
structure ExtentLeaf where
  key : Nat
  block : Nat
  unused : Nat
  extents : List Extent

namespace ExtentLeaf

def encode (l : ExtentLeaf) : List Byte :=
  le 4 l.key ++ le 4 l.block ++ le 2 (l.block / 2 ^ 32) ++ le 2 l.unused

/-- The keys separate the extents of the leaves. -/
def Sorted (ls : List ExtentLeaf) : Prop :=
  (∀ l ∈ ls, ∀ e ∈ l.extents, l.key ≤ e.first) ∧
    ls.Pairwise fun a b => a.key < b.key ∧ ∀ e ∈ a.extents, e.first + e.len ≤ b.key

end ExtentLeaf

/-- How an inode maps its blocks. -/
inductive BlockMapping where
  | extents (es : List Extent)
  | index (ls : List ExtentLeaf)
  | direct (blocks : List Nat)

def nodeHeader (entries maxEntries depth generation : Nat) : List Byte :=
  le 2 ext4ExtentHeaderMagic ++ le 2 entries ++ le 2 maxEntries ++ le 2 depth ++ le 4 generation

namespace BlockMapping

/-- The block of a logical block; `none` for a hole. -/
def place : BlockMapping → Nat → Option Nat
  | extents es, lblock => Extent.place es lblock
  | index ls, lblock => Extent.place (ls.flatMap (·.extents)) lblock
  | direct blocks, lblock => blocks[lblock]?.bind fun b => if b = 0 then none else some b

def hasExtentTree : BlockMapping → Bool
  | direct _ => false
  | _ => true

/-- The block area of the inode at `off`, and the leaf blocks, are those of the mapping. -/
def LaidOut (image : List Byte) (blockSize off : Nat) : BlockMapping → Prop
  | extents es =>
    es.length ≤ 4 ∧ ∃ maxEntries generation,
      Holds image (off + 40) (nodeHeader es.length maxEntries 0 generation ++ es.flatMap Extent.encode)
  | index ls =>
    ls.length ≤ 4 ∧ (∃ maxEntries generation,
      Holds image (off + 40)
        (nodeHeader ls.length maxEntries 1 generation ++ ls.flatMap ExtentLeaf.encode)) ∧
      ∀ l ∈ ls, 12 + 12 * l.extents.length ≤ blockSize ∧ ∃ maxEntries generation,
        Holds image (l.block * blockSize)
          (nodeHeader l.extents.length maxEntries 0 generation ++ l.extents.flatMap Extent.encode)
  | direct blocks => Holds image (off + 40) (blocks.flatMap (le 4))

/-- The mapping is well formed on a device of `nblk` blocks, for a file of `count` blocks. -/
def Ok (nblk count : Nat) : BlockMapping → Prop
  | extents es => Extent.Sorted es ∧ ∀ e ∈ es, e.Ok nblk
  | index ls =>
    ExtentLeaf.Sorted ls ∧ (∀ l ∈ ls, l.key < 2 ^ 32 ∧ l.block < 2 ^ 48 ∧ l.block < nblk) ∧
      ∀ l ∈ ls, Extent.Sorted l.extents ∧ ∀ e ∈ l.extents, e.Ok nblk
  | direct blocks => blocks.length = 12 ∧ count ≤ 12 ∧ ∀ b ∈ blocks, b < 2 ^ 32 ∧ b < nblk

end BlockMapping

/-- A directory record; one with inode zero is unused. -/
structure DirRecord where
  ino : Nat
  name : List Byte
  fileType : Byte
  padding : List Byte

namespace DirRecord

def recLen (r : DirRecord) : Nat := 8 + r.name.length + r.padding.length

def encode (r : DirRecord) : List Byte :=
  le 4 r.ino ++ le 2 r.recLen ++ [r.name.length.toUInt8, r.fileType] ++ r.name ++ r.padding

structure Ok (r : DirRecord) : Prop where
  ino_lt : r.ino < 2 ^ 32
  name_lt : r.name.length < 256
  recLen_lt : r.recLen < 2 ^ 16

/-- The inode that a name stands for in a directory. -/
def lookup (rs : List DirRecord) (name : List Byte) : Option Nat :=
  (rs.find? fun r => r.ino != 0 && r.name == name).map (·.ino)

/-- The blocks of a directory are filled by their records, but for the last one, which may end earlier. -/
structure Fills (blockSize : Nat) (blocks : List (List DirRecord)) : Prop where
  full : ∀ i rs, blocks[i]? = some rs → i + 1 < blocks.length → (rs.flatMap encode).length = blockSize
  part : ∀ rs ∈ blocks, 0 < (rs.flatMap encode).length ∧ (rs.flatMap encode).length ≤ blockSize

end DirRecord

inductive NodeKind where
  | file (size : Nat)
  | dir (blocks : List (List DirRecord))

/-- A file or a directory. -/
structure Ext4Node where
  mode : Nat
  flags : Nat
  mapping : BlockMapping
  kind : NodeKind

namespace Ext4Node

def size (node : Ext4Node) : Nat :=
  match node.kind with
  | .file size => size
  | .dir blocks => (blocks.map fun rs => (rs.flatMap DirRecord.encode).length).sum

/-- The file type bits and what they ask for. A directory's size has 32 bits; its blocks are all
mapped, and begin with their records. -/
def KindOk (image : List Byte) (blockSize off : Nat) (node : Ext4Node) : Prop :=
  match node.kind with
  | .file size => node.mode / 4096 = 8 ∧ size < 2 ^ 64 ∧ Holds image (off + 108) (le 4 (size / 2 ^ 32))
  | .dir blocks => node.mode / 4096 = 4 ∧ blocks.length * blockSize < 2 ^ 32 ∧ DirRecord.Fills blockSize blocks ∧
      ∀ i rs, blocks[i]? = some rs → (∀ r ∈ rs, r.Ok) ∧
        ∃ p, node.mapping.place i = some p ∧
          Holds image (p * blockSize) (rs.flatMap DirRecord.encode)

/-- The inode at offset `off` describes the node. -/
structure LaidOut (image : List Byte) (blockSize inodeSize off : Nat) (node : Ext4Node) : Prop where
  inside : off + inodeSize ≤ image.length
  mode_lt : node.mode < 2 ^ 16
  mode_at : Holds image off (le 2 node.mode)
  size_at : Holds image (off + 4) (le 4 node.size)
  flags_lt : node.flags < 2 ^ 32
  flags_at : Holds image (off + 32) (le 4 node.flags)
  extents_flag : node.flags.testBit 19 = node.mapping.hasExtentTree
  mapping_at : node.mapping.LaidOut image blockSize off
  mapping_ok : node.mapping.Ok (image.length / blockSize)
    ((node.size + blockSize - 1) / blockSize)
  kind_ok : node.KindOk image blockSize off

end Ext4Node

/-- A partition with an ext4 superblock. -/
structure Ext4Super extends Partition where
  logBlockSize : Nat
  firstDataBlock : Nat
  inodesPerGroup : Nat
  inodeSizeField : Nat
  featureIncompat : Nat
  descSizeField : Nat
  media_ok : mediaOk media = true
  length_ge : 2048 ≤ image.length
  logBlockSize_le : logBlockSize ≤ 2
  firstDataBlock_lt : firstDataBlock + 1 < 2 ^ 32
  inodesPerGroup_pos : 0 < inodesPerGroup
  inodesPerGroup_lt : inodesPerGroup < 2 ^ 32
  inodeSizeField_lt : inodeSizeField < 2 ^ 16
  featureIncompat_lt : featureIncompat < 2 ^ 32
  descSizeField_lt : descSizeField < 2 ^ 16
  /-- 32-byte descriptors, or 64-byte ones with the 64BIT feature. -/
  desc_ok : featureIncompat.testBit 7 = true → descSizeField = 64
  firstDataBlock_at : Holds image (1024 + 20) (le 4 firstDataBlock)
  logBlockSize_at : Holds image (1024 + 24) (le 4 logBlockSize)
  inodesPerGroup_at : Holds image (1024 + 40) (le 4 inodesPerGroup)
  magic_at : Holds image (1024 + 56) (le 2 ext4SuperMagic)
  inodeSize_at : Holds image (1024 + 88) (le 2 inodeSizeField)
  featureIncompat_at : Holds image (1024 + 96) (le 4 featureIncompat)
  descSize_at : Holds image (1024 + 254) (le 2 descSizeField)

namespace Ext4Super

variable (S : Ext4Super)

def blockSize : Nat := 1024 * 2 ^ S.logBlockSize

/-- Old file systems leave the field below 128. -/
def inodeSize : Nat := if S.inodeSizeField < 128 then 128 else S.inodeSizeField

def descSize : Nat := if S.featureIncompat.testBit 7 then 64 else 32

/-- The descriptor of block group `grp`. -/
def descOff (grp : Nat) : Nat := (S.firstDataBlock + 1) * S.blockSize + grp * S.descSize

/-- The descriptor of block group `grp` names `table` as the first block of its inode table. -/
structure DescAt (grp table : Nat) : Prop where
  inside : S.descOff grp + S.descSize ≤ S.image.length
  low_at : Holds S.image (S.descOff grp + 8) (le 4 table)
  high_at : if S.descSize = 64 then table < 2 ^ 64 ∧
    Holds S.image (S.descOff grp + 40) (le 4 (table / 2 ^ 32)) else table < 2 ^ 32

end Ext4Super

structure Ext4Image extends Ext4Super where
  inodeTable : Nat → Nat
  nodes : Nat → Option Ext4Node
  desc_at : ∀ ino node, nodes ino = some node →
    toExt4Super.DescAt ((ino - 1) / inodesPerGroup) (inodeTable ((ino - 1) / inodesPerGroup))
  node_at : ∀ ino node, nodes ino = some node → 0 < ino ∧
    node.LaidOut image toExt4Super.blockSize toExt4Super.inodeSize
      (inodeTable ((ino - 1) / inodesPerGroup) * toExt4Super.blockSize +
        (ino - 1) % inodesPerGroup * toExt4Super.inodeSize)

namespace Ext4Image

variable (I : Ext4Image)

/-- The names lead from one inode to another, through directories. -/
inductive Leads : Nat → List (List Byte) → Nat → Prop
  | here (ino : Nat) : Leads ino [] ino
  | step {ino next target : Nat} {node : Ext4Node} {blocks : List (List DirRecord)} {name : List Byte}
      {names : List (List Byte)} (hnode : I.nodes ino = some node) (hdir : node.kind = .dir blocks)
      (hname : DirRecord.lookup blocks.flatten name = some next) (hrest : Leads next names target) :
      Leads ino (name :: names) target

/-- The names lead through directories to one that does not have the next name. -/
inductive Misses : Nat → List (List Byte) → Prop
  | here {ino : Nat} {node : Ext4Node} {blocks : List (List DirRecord)} {name : List Byte}
      {names : List (List Byte)} (hnode : I.nodes ino = some node) (hdir : node.kind = .dir blocks)
      (hname : DirRecord.lookup blocks.flatten name = none) : Misses ino (name :: names)
  | step {ino next : Nat} {node : Ext4Node} {blocks : List (List DirRecord)} {name : List Byte}
      {names : List (List Byte)} (hnode : I.nodes ino = some node) (hdir : node.kind = .dir blocks)
      (hname : DirRecord.lookup blocks.flatten name = some next) (hrest : Misses next names) :
      Misses ino (name :: names)

/-- The bytes of a file of `size` bytes: those of its blocks, and zeros in its holes. -/
def contents (mapping : BlockMapping) (size : Nat) : List Byte :=
  (List.range size).map fun i =>
    match mapping.place (i / I.blockSize) with
    | none => 0
    | some p => I.image.getD (p * I.blockSize + i % I.blockSize) 0

end Ext4Image

end SakuruBoot

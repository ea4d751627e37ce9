import SakuruBoot.Uefi.Ext4File

/-!
# A partition that holds an image

`Partition` is what the firmware shows of a partition: its bytes, its media record, and whether it has
`EFI_DISK_IO_PROTOCOL`. `delivers_plain` says that `read_bytes` gets every range of the image through
either protocol, whatever the physical block size; `mount_eq` says what mounting does with it.
-/

namespace SakuruBoot
open CStr (Byte u32 u64)
open Bytes

/-- A pool that never runs out. -/
structure AmplePool extends Pool where
  alloc_eq : ∀ n, alloc n = true

structure Partition where
  image : List Byte
  media : Media
  hasDio : Bool
  length_lt : image.length < 2 ^ 64
  blockSize_pos : 0 < media.blockSize
  length_eq : image.length = (media.lastBlock + 1) * media.blockSize

namespace Partition

variable (part : Partition)

def bio : FwRead := FwRead.blockIo part.image part.media.blockSize

def dio : Option FwRead := if part.hasDio then some (FwRead.diskIo part.image) else none

/-- `ext4_mount` on the partition. -/
def mount (pool : Pool) : Option Ext4Vol := ext4Mount pool (some (part.bio, part.media)) part.dio

end Partition

/-! ## Ranges in whole blocks -/

section Span

variable {size off n : Nat}

theorem unitSpan_eq (hn : 0 < n) (hend : off + n < 2 ^ 64) :
    unitSpan size off n = (off / size, (off + n - 1) / size - off / size + 1) := by
  have hlast : u64 (off + n + 2 ^ 64 - 1) = off + n - 1 := by
    unfold u64
    omega
  have hle : off / size ≤ (off + n - 1) / size := Nat.div_le_div_right (by omega)
  have hlt : (off + n - 1) / size ≤ off + n - 1 := Nat.div_le_self _ _
  rw [unitSpan, hlast, Prod.mk.injEq]
  refine ⟨rfl, ?_⟩
  unfold u64
  generalize off / size = first at hle ⊢
  generalize (off + n - 1) / size = last at hle hlt ⊢
  omega

theorem span_end (size off : Nat) (hn : 0 < n) : off / size * size + ((off + n - 1) / size - off / size + 1) * size =
    ((off + n - 1) / size + 1) * size := by
  have hle : off / size ≤ (off + n - 1) / size := Nat.div_le_div_right (by omega)
  rw [← Nat.add_mul]
  congr 1
  omega

theorem lt_span_end (off n : Nat) (hsize : 0 < size) : off + n ≤ ((off + n - 1) / size + 1) * size := by
  have := Nat.div_add_mod (off + n - 1) size
  have := Nat.mod_lt (off + n - 1) hsize
  rw [Nat.succ_mul, Nat.mul_comm]
  omega

theorem span_end_le {k : Nat} (hsize : 0 < size) (hn : 0 < n) (hin : off + n ≤ k * size) :
    ((off + n - 1) / size + 1) * size ≤ k * size := by
  refine Nat.mul_le_mul_right _ ?_
  rw [Nat.succ_le_iff, Nat.div_lt_iff_lt_mul hsize]
  omega

theorem fit_units {image mem : List Byte} (hsize : 0 < size) (hn : 0 < n)
    (hin : ((off + n - 1) / size + 1) * size ≤ image.length) :
    fit ((slice image (off / size * size) (((off + n - 1) / size - off / size + 1) * size) ++
      mem).drop (off - off / size * size)) n = slice image off n := by
  have hend := span_end size off hn
  have hlt := lt_span_end off n hsize
  have hle := Nat.div_mul_le_self off size
  have hlen : (slice image (off / size * size) (((off + n - 1) / size - off / size + 1) * size)).length =
      ((off + n - 1) / size - off / size + 1) * size := by
    rw [length_slice]
    omega
  rw [fit_slice (by rw [List.length_append, hlen]; omega), slice_append_left (by rw [hlen]; omega),
    slice_slice (by omega), Nat.add_sub_cancel' hle]

end Span

/-! ## Both protocols deliver the image -/

/-- Every range of the image is read. -/
def Delivers (pool : Pool) (v : Ext4Vol) (image : List Byte) : Prop :=
  ∀ off n, 0 < n → off + n ≤ image.length → readBytes pool v off n = (true, slice image off n)

theorem imageRead_eq {image : List Byte} {off n : Nat} (h : off + n ≤ image.length) :
    imageRead image off n = (true, slice image off n) := if_pos h

theorem delivers_plain (pool : AmplePool) (part : Partition) {v : Ext4Vol} (hluks : v.luksVol = none)
    (hdio : v.dio = part.dio) (hbio : v.bio = some part.bio)
    (hphys : v.physBlkSz = part.media.blockSize) : Delivers pool.toPool v part.image := by
  intro off n hn hin
  have hlen := part.length_lt
  rw [readBytes, hluks, hdio, hbio, hphys, Partition.dio]
  cases part.hasDio with
  | true => exact imageRead_eq hin
  | false =>
    have hpos := part.blockSize_pos
    have hend := span_end part.media.blockSize off hn
    have hle := span_end_le hpos hn (part.length_eq ▸ hin)
    rw [← part.length_eq] at hle
    have htotal : u64 (((off + n - 1) / part.media.blockSize - off / part.media.blockSize + 1) *
        part.media.blockSize) =
        ((off + n - 1) / part.media.blockSize - off / part.media.blockSize + 1) *
          part.media.blockSize := Nat.mod_eq_of_lt (by omega)
    simp only [Bool.false_eq_true, if_false, unitSpan_eq hn (show off + n < 2 ^ 64 by omega), htotal,
      pool.alloc_eq, Bool.not_true, Partition.bio, FwRead.blockIo]
    rw [imageRead_eq (by omega), patch_zero, fit_units hpos hn hle]
    rfl

/-! ## Mounting -/

theorem mount_eq (pool : AmplePool) (part : Partition) (hmedia : mediaOk part.media = true)
    (hlen : 2048 ≤ part.image.length) :
    part.mount pool.toPool =
      if r16 (slice part.image 1024 1024) 56 ≠ ext4SuperMagic then none
      else some (decodeSuperblock (slice part.image 1024 1024)
        (blankVol none part.dio (some part.bio) part.media.blockSize)) := by
  have hsb := delivers_plain pool part
    (v := { blankVol none part.dio (some part.bio) part.media.blockSize with
      blockSize := part.media.blockSize }) rfl rfl rfl rfl 1024 1024 (by omega) (by omega)
  rw [Partition.mount, ext4Mount]
  dsimp only
  rw [hmedia, ext4SuperblockOffset, hsb, pool.alloc_eq]
  rfl

end SakuruBoot

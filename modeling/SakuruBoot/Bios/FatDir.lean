import SakuruBoot.Bios.Fat

/-!
# Directories of a FAT32 volume

The buffers are filled before they are read, so lookups do not depend on what they held: `findInDir` searches the
entries of the directory's clusters one after the other (`findInDir_fst`), and which entry a path leads to is a
function of the volume (`lookupPath_fst`).
-/

namespace SakuruBoot.Fat
open CStr Bytes

theorem length_diskRead (d : Disk) (lba count : Nat) : (diskRead d lba count).length = 512 * count := by
  rw [diskRead, length_flatMap_const fun i _ => d.length_sector (lba + i), List.length_range]

theorem isCluster_iff {c : Nat} : isCluster c = true ↔ 2 ≤ c ∧ c < fat32Eoc := by
  rw [isCluster, Bool.and_eq_true, decide_eq_true_eq, decide_eq_true_eq]

theorem slice_patch_zero {buf src : List Byte} {off n : Nat} (h : off + n ≤ src.length) :
    slice (patch buf 0 src) off n = slice src off n := by
  rw [patch_zero, slice_append_left h]

namespace FatVol

variable (vol : FatVol)

theorem length_clusterData (cluster : Nat) : (vol.clusterData cluster).length = vol.spc * 512 := by
  rw [clusterData, length_diskRead, Nat.mul_comm]

/-- The FAT's entry for a cluster, where the driver looks for it. -/
def next (cluster : Nat) : Nat :=
  field (diskRead vol.disk (u32 (vol.fatStart + u32 (cluster * 4) / 512)) 1) (u32 (cluster * 4) % 512) 4 % 2 ^ 28

theorem nextCluster_fst (cluster : Nat) (b : Bufs) : (vol.nextCluster cluster b).1 = vol.next cluster := by
  have hin : u32 (cluster * 4) % 512 + 4 ≤ (diskRead vol.disk (u32 (vol.fatStart + u32 (cluster * 4) / 512)) 1).length := by
    rw [length_diskRead, u32]
    omega
  rw [nextCluster, next, field, slice_patch_zero hin]
  rfl

/-- The entries of a cluster. -/
def clusterEntries (cluster : Nat) : List DirEntry :=
  (List.range (vol.spc * 512 / 32)).map (entryAt (vol.clusterData cluster))

/-- The entries of a directory, over `n` clusters at most. -/
def dirEntries : Nat → Nat → List DirEntry
  | 0, _ => []
  | n + 1, cluster => if isCluster cluster then vol.clusterEntries cluster ++ dirEntries n (vol.next cluster) else []

/-- The directory that starts at a cluster, as far as the driver reads it. -/
def directory (cluster : Nat) : List DirEntry := vol.dirEntries vol.clusterLimit cluster

theorem entryAt_patch (buf : List Byte) (cluster : Nat) {i : Nat} (hi : i < vol.spc * 512 / 32) :
    entryAt (patch buf 0 (vol.clusterData cluster)) i = entryAt (vol.clusterData cluster) i := by
  apply slice_patch_zero
  rw [length_clusterData]
  omega

theorem map_entryAt_patch (buf : List Byte) (cluster : Nat) :
    (List.range (vol.spc * 512 / 32)).map (entryAt (patch buf 0 (vol.clusterData cluster))) =
      vol.clusterEntries cluster :=
  List.map_congr_left fun _ hi => vol.entryAt_patch buf cluster (List.mem_range.mp hi)

end FatVol

/-! ## Lookup in the entries of a directory -/

/-- What a lookup that went over all entries returns. -/
def Lookup.result : Lookup → Option DirEntry
  | .done r => r
  | .more _ => none

theorem findEntries_append (target : List Byte) (es es' : List DirEntry) (s : LfnState) :
    findEntries target (es ++ es') s =
      match findEntries target es s with
      | .done r => .done r
      | .more s => findEntries target es' s := by
  induction es generalizing s with
  | nil => rfl
  | cons e es ih =>
    rw [List.cons_append, findEntries, findEntries]
    cases findStep target s e with
    | done r => rfl
    | more s => exact ih s

namespace FatVol

variable (vol : FatVol)

theorem findClusters_fst (target : List Byte) (n cluster : Nat) (s : LfnState) (b : Bufs) :
    (vol.findClusters target n cluster s b).1 = (findEntries target (vol.dirEntries n cluster) s).result := by
  induction n generalizing cluster s b with
  | zero => rfl
  | succ n ih =>
    rw [findClusters, dirEntries]
    split
    · dsimp only
      rw [map_entryAt_patch, findEntries_append]
      cases findEntries target (vol.clusterEntries cluster) s with
      | done r => rfl
      | more s =>
        dsimp only
        rw [ih, nextCluster_fst]
    · rfl

theorem findInDir_fst (dirCluster : Nat) (target junk : List Byte) (b : Bufs) :
    (vol.findInDir dirCluster target junk b).1 =
      (findEntries target (vol.directory dirCluster) { buf := junk, len := false }).result :=
  vol.findClusters_fst target _ dirCluster _ b

theorem walk_fst (junk : Nat → List Byte) (n cluster : Nat) (p : List Byte) (b b' : Bufs) :
    (vol.walk junk n cluster p b).1 = (vol.walk junk n cluster p b').1 := by
  induction n generalizing cluster p b b' with
  | zero => rfl
  | succ n ih =>
    rw [walk, walk]
    split
    · rfl
    · dsimp only
      have hfind : (vol.findInDir cluster (nextComponent p).1 (junk n) b).1 =
          (vol.findInDir cluster (nextComponent p).1 (junk n) b').1 := by
        rw [findInDir_fst, findInDir_fst]
      generalize vol.findInDir cluster (nextComponent p).1 (junk n) b = r at hfind ⊢
      generalize vol.findInDir cluster (nextComponent p).1 (junk n) b' = r' at hfind ⊢
      obtain ⟨found, b₁⟩ := r
      obtain ⟨found', b₂⟩ := r'
      obtain rfl : found = found' := hfind
      cases found with
      | none => rfl
      | some e =>
        dsimp only
        split
        · rfl
        · split
          · exact ih _ _ b₁ b₂
          · rfl

theorem lookupPath_fst (junk : Nat → List Byte) (path : List Byte) (b b' : Bufs) :
    (vol.lookupPath junk path b).1 = (vol.lookupPath junk path b').1 :=
  vol.walk_fst junk _ _ _ b b'

end FatVol

end SakuruBoot.Fat

import SakuruBoot.Bios.FatHandles

/-!
# Reading along any cluster chain

`fat_read` stops without a word where the chain leaves the data clusters. For every FAT content: which bytes a read of a
whole file delivers, and that it delivers all of them exactly when the chain goes on for as long as the file (`Reaches`).
-/

namespace SakuruBoot.Fat
open CStr Bytes

namespace FatVol
variable (vol : FatVol)

/-- The bytes of a cluster. -/
def clusterSz : Nat := vol.spc * 512

/-- The `i`-th cluster from `first` on, as the FAT has it. -/
def chainAt (first i : Nat) : Nat := vol.next^[i] first

/-- Byte `i` of the file that starts at `first`. -/
def fileByte (first i : Nat) : Byte :=
  (vol.clusterData (vol.chainAt first (i / vol.clusterSz))).getD (i % vol.clusterSz) 0

/-- The chain has data clusters for the first `i + 1` bytes. -/
def Covers (first i : Nat) : Prop := ∀ j ≤ i / vol.clusterSz, isCluster (vol.chainAt first j) = true

/-- The chain has data clusters for a file of the given size. -/
def Reaches (first size : Nat) : Prop := ∀ i < size, vol.Covers first i

/-- The buffer after a file was read to it: what the chain does not cover is what was there before. -/
noncomputable def staged (e : DirEntry) (buf : Nat → Byte) (i : Nat) : Byte :=
  open Classical in if i < e.fileSize ∧ vol.Covers e.firstCluster i then vol.fileByte e.firstCluster i else buf i

theorem chainAt_succ (first i : Nat) : vol.chainAt first (i + 1) = vol.next (vol.chainAt first i) :=
  Function.iterate_succ_apply' _ _ _

end FatVol

variable {vol : FatVol}

/-- The bytes a read from byte `o` on delivers. -/
structure ReadFrom (vol : FatVol) (first o len : Nat) (bytes : List Byte) : Prop where
  length : ∀ k, k < bytes.length ↔ k < len ∧
    ∀ j, o / vol.clusterSz ≤ j → j ≤ (o + k) / vol.clusterSz → isCluster (vol.chainAt first j) = true
  byte : ∀ k < bytes.length, bytes.getD k 0 = vol.fileByte first (o + k)

theorem ReadFrom.zero (first o : Nat) : ReadFrom vol first o 0 [] :=
  ⟨fun k => by simp, fun k hk => absurd hk (Nat.not_lt_zero k)⟩

theorem ReadFrom.ended {first o len : Nat} (h : isCluster (vol.chainAt first (o / vol.clusterSz)) = false) :
    ReadFrom vol first o len [] := by
  refine ⟨fun k => ⟨fun hk => absurd hk (Nat.not_lt_zero k), fun hk => ?_⟩, fun k hk => absurd hk (Nat.not_lt_zero k)⟩
  have hcluster := hk.2 (o / vol.clusterSz) le_rfl (Nat.div_le_div_right (Nat.le_add_right o k))
  rw [h] at hcluster
  cases hcluster

theorem ReadFrom.piece (hpos : 0 < vol.clusterSz) {first o len k : Nat} {rest : List Byte}
    (hcluster : isCluster (vol.chainAt first (o / vol.clusterSz)) = true)
    (hk : k = min (vol.clusterSz - o % vol.clusterSz) len) (hlen : 0 < len)
    (hrest : ReadFrom vol first (o + k) (len - k) rest) :
    ReadFrom vol first o len
      (slice (vol.clusterData (vol.chainAt first (o / vol.clusterSz))) (o % vol.clusterSz) k ++ rest) := by
  have hmod := Nat.mod_lt o hpos
  have hdiv := Nat.div_add_mod o vol.clusterSz
  have hkPos : 0 < k := by omega
  obtain ⟨hend, hmid⟩ := div_add_in_cluster hpos hkPos (show o % vol.clusterSz + k ≤ vol.clusterSz by omega)
  have hdata : (vol.clusterData (vol.chainAt first (o / vol.clusterSz))).length = vol.clusterSz :=
    vol.length_clusterData _
  have hpiece : (slice (vol.clusterData (vol.chainAt first (o / vol.clusterSz))) (o % vol.clusterSz) k).length = k := by
    rw [length_slice, hdata]
    omega
  -- a position of the piece is in the cluster of its first byte
  have hsame : ∀ i < k, (o + i) / vol.clusterSz = o / vol.clusterSz ∧
      (o + i) % vol.clusterSz = o % vol.clusterSz + i := by
    intro i hi
    have hsum : o + i = o % vol.clusterSz + i + vol.clusterSz * (o / vol.clusterSz) := by omega
    rw [hsum, Nat.add_mul_div_left _ _ hpos, Nat.add_mul_mod_self_left, Nat.div_eq_of_lt (by omega),
      Nat.mod_eq_of_lt (by omega)]
    exact ⟨Nat.zero_add _, rfl⟩
  refine ⟨fun i => ?_, fun i hi => ?_⟩
  · rw [List.length_append, hpiece]
    by_cases hi : i < k
    · refine iff_of_true (by omega) ⟨by omega, fun j hlo hhi => ?_⟩
      rw [(hsame i hi).1] at hhi
      rwa [Nat.le_antisymm hhi hlo]
    · obtain ⟨i, rfl⟩ := Nat.exists_eq_add_of_le (Nat.le_of_not_lt hi)
      rw [Nat.add_lt_add_iff_left, hrest.length, Nat.add_assoc]
      constructor
      · rintro ⟨hlt, hall⟩
        refine ⟨by omega, fun j hlo hhi => ?_⟩
        by_cases hj : j = o / vol.clusterSz
        · rwa [hj]
        · refine hall j ?_ hhi
          by_cases hb : (o + k) % vol.clusterSz = 0
          · rw [hend hb]
            omega
          · rw [hmid hb]
            exact hlo
      · rintro ⟨hlt, hall⟩
        refine ⟨by omega, fun j hlo hhi => hall j (le_trans ?_ hlo) hhi⟩
        exact Nat.div_le_div_right (Nat.le_add_right o k)
  · by_cases hik : i < k
    · rw [List.getD_append _ _ _ _ (by omega), FatVol.fileByte, (hsame i hik).1, (hsame i hik).2,
        List.getD_eq_getElem?_getD, List.getD_eq_getElem?_getD, slice, List.getElem?_take_of_lt hik, List.getElem?_drop]
    · obtain ⟨i, rfl⟩ := Nat.exists_eq_add_of_le (Nat.le_of_not_lt hik)
      rw [List.length_append, hpiece] at hi
      rw [List.getD_append_right _ _ _ _ (by omega), hpiece, Nat.add_sub_cancel_left, hrest.byte i (by omega),
        Nat.add_assoc]

theorem readLoop_readFrom (hpos : 0 < vol.clusterSz) (first n : Nat) : ∀ {f : FatFile} {len : Nat} {b : Bufs}, len ≤ n →
    f.curCluster = vol.chainAt first (f.offset / vol.clusterSz) →
      ReadFrom vol first f.offset len (vol.readLoop n f len b).1 := by
  induction n with
  | zero =>
    intro f len b hlen _
    obtain rfl : len = 0 := by omega
    exact .zero _ _
  | succ n ih =>
    intro f len b hlen hcur
    have hcs : vol.spc * 512 = vol.clusterSz := rfl
    rw [FatVol.readLoop]
    rcases Nat.eq_zero_or_pos len with rfl | hlenPos
    · exact .zero _ _
    · by_cases hcluster : isCluster f.curCluster = true
      · rw [if_pos (by simp [hlenPos, hcluster])]
        dsimp only
        rw [hcs]
        have hmod := Nat.mod_lt f.offset hpos
        generalize hk : min (vol.clusterSz - f.offset % vol.clusterSz) len = k
        have hkPos : 0 < k := by omega
        have hkIn : f.offset % vol.clusterSz + k ≤ vol.clusterSz := by omega
        obtain ⟨hend, hmid⟩ := div_add_in_cluster hpos hkPos hkIn
        have hpiece : ∀ rest, ReadFrom vol first (f.offset + k) (len - k) rest →
            ReadFrom vol first f.offset len
              (slice (vol.clusterData f.curCluster) (f.offset % vol.clusterSz) k ++ rest) := by
          intro rest hrest
          rw [hcur]
          exact .piece hpos (by rwa [← hcur]) hk.symm hlenPos hrest
        rw [slice_patch_zero (by rw [FatVol.length_clusterData, hcs]; exact hkIn)]
        apply hpiece
        by_cases hboundary : (f.offset + k) % vol.clusterSz = 0
        · rw [if_pos hboundary]
          -- the next cluster of the chain, or the end of it
          refine ih (f := { f with offset := f.offset + k, curCluster := (vol.nextCluster f.curCluster _).1 })
            (show len - k ≤ n by omega) ?_
          dsimp only
          rw [FatVol.nextCluster_fst, hend hboundary, FatVol.chainAt_succ, hcur]
        · rw [if_neg hboundary]
          refine ih (f := { f with offset := f.offset + k }) (show len - k ≤ n by omega) ?_
          dsimp only
          rw [hmid hboundary]
          exact hcur
      · rw [Bool.not_eq_true] at hcluster
        rw [if_neg (by simp [hcluster])]
        exact .ended (by rwa [← hcur])

/-- The bytes a read of the whole file delivers. -/
def ReadOf (vol : FatVol) (e : DirEntry) (bytes : List Byte) : Prop := ReadFrom vol e.firstCluster 0 e.fileSize bytes

theorem ReadOf.length_iff {e : DirEntry} {bytes : List Byte} (h : ReadOf vol e bytes) (k : Nat) :
    k < bytes.length ↔ k < e.fileSize ∧ vol.Covers e.firstCluster k := by
  have hlen := h.length k
  rw [Nat.zero_div, Nat.zero_add] at hlen
  exact hlen.trans (and_congr_right fun _ => forall_congr' fun j => ⟨fun hj => hj (Nat.zero_le j), fun hj _ => hj⟩)

theorem ReadOf.overlay_eq {e : DirEntry} {bytes : List Byte} (h : ReadOf vol e bytes) (buf : Nat → Byte) (i : Nat) :
    bytes.getD i (buf i) = vol.staged e buf i := by
  rw [FatVol.staged]
  by_cases hi : i < bytes.length
  · have hbyte := h.byte i hi
    rw [if_pos ((h.length_iff i).mp hi), ← Nat.zero_add i, ← hbyte, Nat.zero_add, List.getD_eq_getElem _ _ hi,
      List.getD_eq_getElem _ _ hi]
  · rw [if_neg ((h.length_iff i).not.mp hi), List.getD_eq_default _ _ (Nat.le_of_not_lt hi)]

theorem ReadOf.all_iff {e : DirEntry} {bytes : List Byte} (h : ReadOf vol e bytes) :
    bytes.length = e.fileSize ↔ vol.Reaches e.firstCluster e.fileSize := by
  constructor
  · intro hlen i hi
    exact ((h.length_iff i).mp (by omega)).2
  · intro hreach
    have hle : bytes.length ≤ e.fileSize := by
      by_contra hgt
      have := ((h.length_iff e.fileSize).mp (by omega)).1
      omega
    have hge : e.fileSize ≤ bytes.length := by
      by_contra hlt
      have := (h.length_iff bytes.length).mpr ⟨by omega, hreach _ (by omega)⟩
      omega
    omega

/-- The handle `fat_open` makes for an entry. -/
def freshFile (e : DirEntry) : FatFile :=
  { firstCluster := e.firstCluster, fileSize := e.fileSize, curCluster := e.firstCluster, offset := 0, isDir := e.isDir }

theorem fatRead_readOf (hpos : 0 < vol.clusterSz) {s : FatState} {h : FatHandle} {e : DirEntry}
    (hf : s.pool h = freshFile e) : ReadOf vol e (vol.fatRead s (some h) e.fileSize).1 := by
  rw [FatVol.fatRead]
  dsimp only
  rw [hf]
  by_cases hz : e.fileSize = 0
  · rw [if_pos (by rw [freshFile, hz])]
    show ReadFrom vol e.firstCluster 0 e.fileSize []
    rw [hz]
    exact .zero _ _
  · have hlt : ¬(freshFile e).fileSize ≤ (freshFile e).offset := by
      show ¬e.fileSize ≤ 0
      omega
    have hlen : min e.fileSize ((freshFile e).fileSize - (freshFile e).offset) = e.fileSize := Nat.min_self _
    rw [if_neg hlt, hlen]
    exact readLoop_readFrom hpos e.firstCluster e.fileSize (f := freshFile e) le_rfl
      (by rw [show (freshFile e).offset = 0 from rfl, Nat.zero_div]; rfl)

theorem fatRead_used (vol : FatVol) (s : FatState) (h : FatHandle) (len : Nat) :
    (vol.fatRead s (some h) len).2.used = s.used := by
  rw [FatVol.fatRead]
  dsimp only
  split
  · rfl
  · rfl

theorem open_read_close (hpos : 0 < vol.clusterSz) (s : FatState) (junk : Nat → List Byte) (path : List Byte) :
    (∃ s', vol.fatOpen s junk path = (none, s') ∧ s'.used = s.used ∧
      (vol.resolve junk path = none ∨ ∀ i, s.used i = true)) ∨
    ∃ h e s', vol.fatOpen s junk path = (some h, s') ∧ vol.resolve junk path = some e ∧ s.used h = false ∧
      fatFileSize s' (some h) = e.fileSize ∧ ReadOf vol e (vol.fatRead s' (some h) e.fileSize).1 ∧
      (fatClose s' (some h)).used = s.used ∧ (fatClose (vol.fatRead s' (some h) e.fileSize).2 (some h)).used = s.used := by
  rcases fatOpen_cases vol s junk path with ⟨b, hopen, hreason⟩ | ⟨i, e, b, hres, hfree, hopen⟩
  · exact .inl ⟨_, hopen, rfl, hreason⟩
  · have hpool : Function.update s.pool i (freshFile e) i = freshFile e := Function.update_self ..
    have hused : Function.update (Function.update s.used i true) i false = s.used := by
      rw [Function.update_idem, ← hfree, Function.update_eq_self]
    refine .inr ⟨i, e, _, hopen, hres, hfree, ?_, fatRead_readOf hpos hpool, hused, ?_⟩
    · show (Function.update s.pool i (freshFile e) i).fileSize = e.fileSize
      rw [hpool]
      rfl
    · show Function.update (vol.fatRead _ (some i) e.fileSize).2.used i false = s.used
      rw [fatRead_used]
      exact hused

end SakuruBoot.Fat

import Mathlib.Data.Finset.Card
import Mathlib.Order.Interval.Finset.Nat
import SakuruBoot.Bios.FatRun

/-!
# The limit on visited clusters

The limit of the directory loops is the number of clusters of the volume and two, computed in 32 bits. It has to be large
enough for every directory that is well formed, and small enough for the 32-bit counter to exceed it. `directories_iff`
says for which sizes both hold: for all but volumes of one sector per cluster and `0xFFFFFFFD` sectors or more.
-/

namespace SakuruBoot.Fat
open CStr Bytes

/-! ## Data clusters -/

section format

variable (d : Disk) (part : Nat)

def totalSectors : Nat := field (d.sector part) 32 4

/-- How many clusters lie behind the FATs. -/
def dataClusters : Nat := (totalSectors d part - (dataLba d part - part)) / sectorsPerCluster d part

def fat32Bad : Nat := 0x0FFFFFF7

/-- A cluster of the volume; the numbers from the bad-cluster mark on have other meanings. -/
def DataCluster (c : Nat) : Prop := 2 ≤ c ∧ c < fat32Bad ∧ c < dataClusters d part + 2

instance (c : Nat) : Decidable (DataCluster d part c) := inferInstanceAs (Decidable (_ ∧ _ ∧ _))

end format

/-- The clusters from `first` on, up to an end mark. -/
inductive Chained (vol : FatVol) : Nat → List Nat → Prop
  | last {c : Nat} (h : fat32Eoc ≤ vol.next c) : Chained vol c [c]
  | link {c : Nat} {cs : List Nat} (h : Chained vol (vol.next c) cs) : Chained vol c (c :: cs)

/-- A well-formed chain: data clusters, none of them twice. -/
structure WellChained (d : Disk) (part : Nat) (vol : FatVol) (first : Nat) (cs : List Nat) : Prop where
  chained : Chained vol first cs
  nodup : cs.Nodup
  data : ∀ c ∈ cs, DataCluster d part c

variable {d : Disk} {part : Nat} {vol : FatVol}

theorem fatInit_fields (h : fatInit d part = some vol) :
    vol.totalSectors32 = totalSectors d part ∧ vol.spc = sectorsPerCluster d part ∧ totalSectors d part < 2 ^ 32 := by
  simp only [fatInit, diskRead_one] at h
  split_ifs at h
  obtain rfl := Option.some.inj h
  refine ⟨rfl, rfl, (leVal_lt _).trans_le ?_⟩
  rw [length_slice]
  exact Nat.pow_le_pow_right (by decide) (Nat.min_le_left 4 _)

theorem DataCluster.isCluster {c : Nat} (h : DataCluster d part c) : isCluster c = true := by
  obtain ⟨hlo, hbad, -⟩ := h
  have heoc : fat32Bad < fat32Eoc := by decide
  exact isCluster_iff.mpr ⟨hlo, by omega⟩

theorem WellChained.length_le {first : Nat} {cs : List Nat} (h : WellChained d part vol first cs) :
    cs.length ≤ totalSectors d part / sectorsPerCluster d part := by
  have hsub : cs.toFinset ⊆ Finset.Ico 2 (dataClusters d part + 2) := by
    intro c hc
    obtain ⟨hlo, -, hhi⟩ := h.data c (List.mem_toFinset.mp hc)
    exact Finset.mem_Ico.mpr ⟨hlo, hhi⟩
  have hcard := Finset.card_le_card hsub
  rw [List.toFinset_card_of_nodup h.nodup, Nat.card_Ico] at hcard
  have hdiv : dataClusters d part ≤ totalSectors d part / sectorsPerCluster d part :=
    Nat.div_le_div_right (Nat.sub_le _ _)
  omega

/-! ## Scanning a chain -/

theorem dirEntries_chained {first n : Nat} {cs : List Nat} (h : Chained vol first cs) (hdata : ∀ c ∈ cs, isCluster c = true)
    (hn : cs.length ≤ n) : vol.dirEntries n first = cs.flatMap vol.clusterEntries := by
  induction h generalizing n with
  | @last c h =>
    obtain ⟨n, rfl⟩ : ∃ k, n = k + 1 := ⟨n - 1, by rw [List.length_singleton] at hn; omega⟩
    have hend : isCluster (vol.next c) = false := by
      rw [← Bool.not_eq_true, isCluster_iff]
      omega
    rw [FatVol.dirEntries, if_pos (hdata c (by simp)), List.flatMap_singleton]
    cases n with
    | zero => exact List.append_nil _
    | succ n =>
      rw [FatVol.dirEntries, hend]
      exact List.append_nil _
  | link h ih =>
    obtain ⟨n, rfl⟩ : ∃ k, n = k + 1 := ⟨n - 1, by rw [List.length_cons] at hn; omega⟩
    rw [List.length_cons, Nat.add_le_add_iff_right] at hn
    rw [FatVol.dirEntries, if_pos (hdata _ (by simp)), List.flatMap_cons, ih (fun c hc => hdata c (by simp [hc])) hn]

/-- What a listing of entries hands to the callback, and the state behind them; `none` behind an end mark. -/
def listAll : List DirEntry → LfnState → Option LfnState × List (List Byte × Bool)
  | [], s => (some s, [])
  | e :: es, s =>
    match listStep s e with
    | .stop => (none, [])
    | .skip s => listAll es s
    | .entry name s => ((listAll es s).1, (name, e.isDir) :: (listAll es s).2)

theorem listAll_append (es es' : List DirEntry) (s : LfnState) :
    listAll (es ++ es') s =
      match listAll es s with
      | (none, l) => (none, l)
      | (some s, l) => ((listAll es' s).1, l ++ (listAll es' s).2) := by
  induction es generalizing s with
  | nil => rfl
  | cons e es ih =>
    rw [List.cons_append, listAll, listAll]
    cases listStep s e with
    | stop => rfl
    | skip s => exact ih s
    | entry name s =>
      dsimp only
      rw [ih s]
      rcases listAll es s with ⟨_ | s, l⟩ <;> rfl

section listing

variable {σ : Type} (cb : List Byte → Bool → σ → σ)

/-- A callback that leaves the driver's buffers alone. -/
def plainCb (name : List Byte) (isDir : Bool) (st : Bufs × σ) : Bufs × σ := (st.1, cb name isDir st.2)

/-- The calls of the callback, one after the other. -/
def calls (names : List (List Byte × Bool)) (x : σ) : σ := names.foldl (fun x q => cb q.1 q.2 x) x

theorem listEntries_eq (is : List Nat) (s : LfnState) (st : Bufs × σ) :
    listEntries (plainCb cb) is s st =
      ((listAll (is.map (entryAt st.1.enum)) s).1, st.1, calls cb (listAll (is.map (entryAt st.1.enum)) s).2 st.2) := by
  induction is generalizing s st with
  | nil => rfl
  | cons i is ih =>
    rw [listEntries, List.map_cons, listAll]
    cases listStep s (entryAt st.1.enum i) with
    | stop => rfl
    | skip s => exact ih s st
    | entry name s => exact ih s _

theorem listClusters_snd (n cluster : Nat) (s : LfnState) (st : Bufs × σ) :
    (listClusters vol (plainCb cb) n cluster s st).2 = calls cb (listAll (vol.dirEntries n cluster) s).2 st.2 := by
  induction n generalizing cluster s st with
  | zero => rfl
  | succ n ih =>
    rw [listClusters, FatVol.dirEntries]
    split
    · dsimp only
      rw [listEntries_eq, FatVol.map_entryAt_patch, listAll_append]
      rcases listAll (vol.clusterEntries cluster) s with ⟨_ | s, l⟩
      · rfl
      · dsimp only
        rw [ih, FatVol.nextCluster_fst, calls, calls, calls, List.foldl_append]
    · rfl

end listing

/-! ## Which limits are right -/

namespace FatVol

/-- Every lookup, every opening and every listing ends, whatever the buffers and the stack hold. -/
structure Ends (vol : FatVol) : Prop where
  find : ∀ cluster target junk b, ∃ fuel, (vol.findInDirRun fuel cluster target junk b).val.isSome = true
  fopen : ∀ s junk path, ∃ fuel, (vol.fatOpenRun fuel s junk path).val.isSome = true
  readdir : ∀ (σ : Type) (cb : List Byte → Bool → Bufs × σ → Bufs × σ) junk lfnJunk path st,
    ∃ fuel, (fatReaddirRun vol cb fuel junk lfnJunk path st).val.isSome = true

/-- Lookups and listings of directories with well-formed chains go over the entries of all clusters. -/
structure ScansAll (d : Disk) (part : Nat) (vol : FatVol) : Prop where
  find : ∀ first cs, WellChained d part vol first cs → ∀ target junk b, ∃ fuel b',
    (vol.findInDirRun fuel first target junk b).val =
      some ((findEntries target (cs.flatMap vol.clusterEntries) ⟨junk, false⟩).result, b')
  list : ∀ first cs, WellChained d part vol first cs →
    ∀ (σ : Type) (cb : List Byte → Bool → σ → σ) lfnJunk b x, ∃ fuel b',
      (listDirRun vol (plainCb cb) fuel first lfnJunk (b, x)).val =
        some (b', calls cb (listAll (cs.flatMap vol.clusterEntries) ⟨lfnJunk, false⟩).2 x)

theorem ends_of_limit (hlimit : vol.clusterLimit < 2 ^ 32 - 1) : vol.Ends where
  find cluster target junk b :=
    ⟨vol.clusterLimit + 1, by rw [vol.findInDirRun_val hlimit (Nat.lt_succ_self _)]; rfl⟩
  fopen s junk path := ⟨vol.clusterLimit + 1, by rw [vol.fatOpenRun_val hlimit (Nat.lt_succ_self _)]; rfl⟩
  readdir σ cb junk lfnJunk path st :=
    ⟨vol.clusterLimit + 1, by rw [fatReaddirRun_val hlimit (Nat.lt_succ_self _)]; rfl⟩

theorem scansAll_of_limit (hlimit : vol.clusterLimit < 2 ^ 32 - 1)
    (hlong : ∀ first cs, WellChained d part vol first cs → cs.length ≤ vol.clusterLimit) : vol.ScansAll d part where
  find first cs hcs target junk b := by
    have hdir := dirEntries_chained hcs.chained (fun c hc => (hcs.data c hc).isCluster) (hlong first cs hcs)
    refine ⟨vol.clusterLimit + 1, (vol.findInDir first target junk b).2, ?_⟩
    rw [vol.findInDirRun_val hlimit (Nat.lt_succ_self _), ← hdir]
    exact congrArg some (Prod.ext (vol.findInDir_fst first target junk b) rfl)
  list first cs hcs σ cb lfnJunk b x := by
    have hdir := dirEntries_chained hcs.chained (fun c hc => (hcs.data c hc).isCluster) (hlong first cs hcs)
    refine ⟨vol.clusterLimit + 1, (listClusters vol (plainCb cb) vol.clusterLimit first ⟨lfnJunk, false⟩ (b, x)).1, ?_⟩
    rw [listDirRun_val hlimit (Nat.lt_succ_self _), ← hdir]
    exact congrArg some (Prod.ext rfl (listClusters_snd cb _ first _ (b, x)))

end FatVol

/-- The sizes for which the limit is a number of clusters and two, and not the largest 32-bit number. -/
def LimitFits (total spc : Nat) : Prop := ¬(spc = 1 ∧ 0xFFFFFFFD ≤ total)

theorem clusterLimit_of_fits (htotal : vol.totalSectors32 < 2 ^ 32) (hfits : LimitFits vol.totalSectors32 vol.spc) :
    vol.clusterLimit < 2 ^ 32 - 1 ∧ vol.totalSectors32 / vol.spc ≤ vol.clusterLimit := by
  have hle : vol.spc ≠ 0 → vol.totalSectors32 / vol.spc + 2 < 2 ^ 32 - 1 := by
    intro h0
    by_cases h1 : vol.spc = 1
    · have hlt : vol.totalSectors32 < 0xFFFFFFFD := Nat.lt_of_not_le fun h => hfits ⟨h1, h⟩
      rw [h1, Nat.div_one]
      omega
    · have hdiv : vol.totalSectors32 / vol.spc ≤ vol.totalSectors32 / 2 := Nat.div_le_div_left (by omega) (by decide)
      omega
  rw [FatVol.clusterLimit]
  by_cases h0 : vol.spc = 0
  · rw [if_neg (not_not.mpr h0), h0, Nat.div_zero]
    decide
  · have hlt := hle h0
    rw [if_pos h0, u32, Nat.mod_eq_of_lt (by omega)]
    omega

/-! The failing sizes: a volume whose root directory has a cluster of deleted entries, behind which the FAT has the
cluster `next`. -/

def edgeBoot (total : Nat) : List Byte :=
  List.replicate 11 0 ++ le 2 512 ++ [1] ++ le 2 1 ++ [1] ++ List.replicate 15 0 ++ le 4 total ++ le 4 1 ++
    List.replicate 4 0 ++ le 4 2

def edgeDisk (total next : Nat) : Disk := .ofSectors
  [edgeBoot total, le 4 0x0FFFFFF8 ++ le 4 0x0FFFFFFF ++ le 4 next ++ le 4 0x0FFFFFFF, List.replicate 512 0xE5,
    lit "A          " ++ [0x20] ++ List.replicate 14 0 ++ le 2 3 ++ le 4 5]

/-- What `fat_init` makes of a disk with this boot sector. -/
def bootVol (d : Disk) (total : Nat) : FatVol :=
  { disk := d, totalSectors32 := total, fatStart := 1, dataStart := 2, rootCluster := 2, spc := 1 }

def edgeVol (total next : Nat) : FatVol := bootVol (edgeDisk total next) total

/-- The fields of the boot sector that `fat_init` reads. -/
def edgeFields (total : Nat) : List Nat :=
  [(11, 2), (36, 4), (14, 2), (16, 1), (32, 4), (44, 4), (13, 1)].map fun q => field (fit (edgeBoot total) 512) q.1 q.2

theorem fatInit_edge {d : Disk} {total : Nat} (hsector : d.sector 0 = fit (edgeBoot total) 512)
    (h : edgeFields total = [512, 1, 1, 1, total, 2, 1]) : fatInit d 0 = some (bootVol d total) := by
  simp only [edgeFields, List.map_cons, List.map_nil, List.cons.injEq] at h
  obtain ⟨h11, h36, h14, h16, h32, h44, h13, -⟩ := h
  simp [fatInit, diskRead_one, hsector, h11, h36, h14, h16, h32, h44, h13, bootVol, u32]

theorem findEntries_deleted (target : List Byte) {es : List DirEntry} (h : ∀ e ∈ es, e.first = 0xE5) (s : LfnState) :
    ∃ s', findEntries target es s = .more s' := by
  induction es generalizing s with
  | nil => exact ⟨s, rfl⟩
  | cons e es ih =>
    have hstep : findStep target s e = .more { s with len := false } := by
      rw [findStep, h e (by simp)]
      rfl
    rw [findEntries, hstep]
    exact ih (fun e' he' => h e' (by simp [he'])) _

theorem findInDirRun_cycle (hlimit : vol.clusterLimit = 2 ^ 32 - 1) {c : Nat} (hc : isCluster c = true)
    (hnext : vol.next c = c) (hdel : ∀ e ∈ vol.clusterEntries c, e.first = 0xE5) (fuel : Nat) (target junk : List Byte)
    (b : Bufs) : (vol.findInDirRun fuel c target junk b).val = none := by
  have hround : ∀ st, ∃ st', (vol.findRound target c st).val = .more c st' := by
    intro st
    obtain ⟨s', hmore⟩ := findEntries_deleted target hdel st.1
    simp only [FatVol.findRound, Traced.val_bind, findEntriesTr_val, FatVol.map_entryAt_patch, hmore,
      FatVol.nextCluster_fst, hnext]
    exact ⟨_, rfl⟩
  rw [FatVol.findInDirRun]
  generalize (0 : Nat) = visited
  generalize (({ buf := junk, len := false } : LfnState), b) = st
  induction fuel generalizing visited st with
  | zero => rfl
  | succ fuel ih =>
    have hlt : u32 (visited + 1) < 2 ^ 32 := Nat.mod_lt _ (by decide)
    obtain ⟨st', hmore⟩ := hround st
    rw [clusterLoop_succ_val, if_pos hc, if_neg (by omega), hmore]
    exact ih _ _

/-- The loop of a directory that is a cycle, on a volume of `0xFFFFFFFD` sectors. -/
theorem findInDirRun_endless : ∃ (d : Disk) (vol : FatVol), fatInit d 0 = some vol ∧ vol.totalSectors32 = 0xFFFFFFFD ∧
    vol.spc = 1 ∧ ∀ (target junk : List Byte) (b : Bufs) (fuel : Nat),
      (vol.findInDirRun fuel vol.rootCluster target junk b).val = none := by
  refine ⟨_, _, fatInit_edge (d := edgeDisk 0xFFFFFFFD 2) rfl (by decide), rfl, rfl, fun target junk b fuel => ?_⟩
  exact findInDirRun_cycle (by decide) (by decide) (by decide +kernel) (by decide +kernel) fuel target junk b

theorem edge_not_scanned {total : Nat} (hlimit : (edgeVol total 3).clusterLimit < 2 ^ 32 - 1)
    (hchain : WellChained (edgeDisk total 3) 0 (edgeVol total 3) 2 [2, 3])
    (hmissed : ((edgeVol total 3).findInDir 2 (lit "A") [] zeroBufs).1 = none)
    (hthere : (findEntries (lit "A") ([2, 3].flatMap (edgeVol total 3).clusterEntries) ⟨[], false⟩).result ≠ none) :
    ¬(edgeVol total 3).ScansAll (edgeDisk total 3) 0 := by
  intro hscans
  obtain ⟨fuel, b, hval⟩ := hscans.find 2 [2, 3] hchain (lit "A") [] zeroBufs
  have hmore := clusterLoop_mono (Nat.le_max_left fuel ((edgeVol total 3).clusterLimit + 1)) hval
  have hrun := (edgeVol total 3).findInDirRun_val hlimit
    (Nat.lt_of_succ_le (Nat.le_max_right fuel ((edgeVol total 3).clusterLimit + 1))) 2 (lit "A") [] zeroBufs
  have hsame := Option.some.inj (hmore.symm.trans hrun)
  exact hthere ((congrArg Prod.fst hsame).trans hmissed)

theorem edge_wellChained {total : Nat} (hnext : (edgeVol total 3).next 2 = 3) (hend : fat32Eoc ≤ (edgeVol total 3).next 3)
    (h2 : DataCluster (edgeDisk total 3) 0 2) (h3 : DataCluster (edgeDisk total 3) 0 3) :
    WellChained (edgeDisk total 3) 0 (edgeVol total 3) 2 [2, 3] where
  chained := .link (hnext.symm ▸ .last hend)
  nodup := by decide
  data c hc := by
    rcases List.mem_pair.mp hc with rfl | rfl
    · exact h2
    · exact h3

/-- The directories end and are scanned exactly for the sizes for which the limit is right. -/
theorem directories_iff {total spc : Nat} (htotal : total < 2 ^ 32) :
    (∀ d part vol, fatInit d part = some vol → vol.totalSectors32 = total → vol.spc = spc →
      vol.Ends ∧ vol.ScansAll d part) ↔ LimitFits total spc := by
  constructor
  · rintro hall ⟨rfl, hge⟩
    obtain rfl | rfl | rfl : total = 0xFFFFFFFD ∨ total = 0xFFFFFFFE ∨ total = 0xFFFFFFFF := by omega
    · -- the limit is the largest number, and the counter wraps
      have hends : (edgeVol 0xFFFFFFFD 2).Ends :=
        (hall _ _ _ (fatInit_edge (d := edgeDisk 0xFFFFFFFD 2) rfl (by decide)) rfl rfl).1
      obtain ⟨fuel, hfuel⟩ := hends.find 2 [] [] zeroBufs
      have hnone : ((edgeVol 0xFFFFFFFD 2).findInDirRun fuel 2 [] [] zeroBufs).val = none :=
        findInDirRun_cycle (by decide) (by decide) (by decide +kernel) (by decide +kernel) fuel [] [] zeroBufs
      rw [hnone] at hfuel
      cases hfuel
    · -- the limit wraps to 0
      have hscans := (hall _ _ _ (fatInit_edge (d := edgeDisk 0xFFFFFFFE 3) rfl (by decide)) rfl rfl).2
      refine edge_not_scanned (by decide) ?_ (by decide +kernel) (by decide +kernel) hscans
      exact edge_wellChained (by decide) (by decide) (by decide) (by decide)
    · -- the limit wraps to 1
      have hscans := (hall _ _ _ (fatInit_edge (d := edgeDisk 0xFFFFFFFF 3) rfl (by decide)) rfl rfl).2
      refine edge_not_scanned (by decide) ?_ (by decide +kernel) (by decide +kernel) hscans
      exact edge_wellChained (by decide) (by decide) (by decide) (by decide)
  · rintro hfits d part vol hinit rfl rfl
    obtain ⟨hsectors, hspc, -⟩ := fatInit_fields hinit
    obtain ⟨hlimit, hlong⟩ := clusterLimit_of_fits htotal hfits
    refine ⟨FatVol.ends_of_limit hlimit, FatVol.scansAll_of_limit hlimit fun first cs hcs => ?_⟩
    have hlen := hcs.length_le
    rw [← hsectors, ← hspc] at hlen
    exact hlen.trans hlong

/-- The root directory of a volume of eight sectors. -/
theorem directories_small : smallVol.Ends ∧ smallVol.ScansAll smallDisk 0 :=
  (directories_iff (show 8 < 2 ^ 32 by decide)).mpr (fun h => absurd h.2 (by decide)) smallDisk 0 smallVol
    smallVol_valid.init_eq rfl rfl

end SakuruBoot.Fat

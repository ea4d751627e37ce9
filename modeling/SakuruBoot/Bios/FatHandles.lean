import SakuruBoot.Bios.FatDir
import SakuruBoot.Lib.Runs

/-!
# File handles

What a file's content is, from the disk alone: `fatEntry` and `clusterBytes` say where the FAT and the clusters of a
volume are, `chain` follows the FAT from a file's first cluster, and `fileContent` are the first bytes of the
clusters of the chain.

Calls on handles are recorded beside the driver's state: for each open handle the entry it was opened for and the
bytes read through it so far (`Session.log`). `Open` ties the two together, and `Session.Ok` keeps that for all
eight slots. One call keeps it (`call_ok`), so it holds along every run, and with it every call answers as it should
(`callRight_of_ok`).
-/

namespace SakuruBoot.Fat
open CStr Bytes

/-! ## Files on the disk -/

section format

variable (d : Disk) (part : Nat)

/-- First sector of the first FAT. -/
def fatLba : Nat := part + field (d.sector part) 14 2

def fatSectors : Nat := field (d.sector part) 36 4

/-- First sector of cluster 2, behind all FATs. -/
def dataLba : Nat := fatLba d part + field (d.sector part) 16 1 * fatSectors d part

def sectorsPerCluster : Nat := field (d.sector part) 13 1

/-- The 28 bits of the FAT's entry for a cluster. -/
def fatEntry (cluster : Nat) : Nat := field (d.sector (fatLba d part + 4 * cluster / 512)) (4 * cluster % 512) 4 % 2 ^ 28

def clusterBytes (cluster : Nat) : List Byte :=
  diskRead d (dataLba d part + (cluster - 2) * sectorsPerCluster d part) (sectorsPerCluster d part)

/-- The `i`-th cluster of the file that starts at `first`. -/
def chain (first i : Nat) : Nat := (fatEntry d part)^[i] first

/-- The bytes of a cluster. -/
def clusterSize : Nat := sectorsPerCluster d part * 512

def fileContent (first size : Nat) : List Byte :=
  ((List.range ((size + clusterSize d part - 1) / clusterSize d part)).flatMap fun i =>
    clusterBytes d part (chain d part first i)).take size

/-- The chain has a cluster of the volume for every byte of the file. -/
def ChainOk (first size : Nat) : Prop :=
  ∀ i, clusterSize d part * i < size →
    isCluster (chain d part first i) = true ∧ chain d part first i < 128 * fatSectors d part

end format

/-- A volume as `fat_init` accepts it, with clusters the buffers can hold and its tables where 32 bits reach. -/
structure ValidVolume (d : Disk) (part : Nat) (vol : FatVol) : Prop where
  init_eq : fatInit d part = some vol
  spc_pos : 1 ≤ sectorsPerCluster d part
  spc_le : sectorsPerCluster d part ≤ 64
  fat_below : fatLba d part + fatSectors d part ≤ 2 ^ 32
  data_below : dataLba d part < 2 ^ 32

variable {d : Disk} {part : Nat} {vol : FatVol}

theorem diskRead_one (d : Disk) (lba : Nat) : diskRead d lba 1 = d.sector lba := by
  simp [diskRead]

theorem ValidVolume.globals (h : ValidVolume d part vol) :
    vol.disk = d ∧ vol.fatStart = fatLba d part ∧ vol.dataStart = dataLba d part ∧
      vol.spc = sectorsPerCluster d part := by
  have hinit := h.init_eq
  have hfat := h.fat_below
  have hdata := h.data_below
  simp only [fatInit, diskRead_one] at hinit
  split_ifs at hinit with hbytes hsize
  obtain rfl := Option.some.inj hinit
  have hpos : 0 < fatSectors d part := Nat.pos_of_ne_zero hsize
  refine ⟨rfl, ?_, ?_, rfl⟩
  · have hlt : fatLba d part < 2 ^ 32 := by omega
    exact Nat.mod_eq_of_lt hlt
  · exact Nat.mod_eq_of_lt hdata

theorem ValidVolume.clusterSize_pos (h : ValidVolume d part vol) : 0 < clusterSize d part := by
  have := h.spc_pos
  rw [clusterSize]
  omega

theorem ValidVolume.clusterData_eq (h : ValidVolume d part vol) (cluster : Nat) :
    vol.clusterData cluster = clusterBytes d part cluster := by
  obtain ⟨hdisk, -, hdata, hspc⟩ := h.globals
  rw [FatVol.clusterData, FatVol.clusterToLba, hdisk, hdata, hspc, clusterBytes]

/-- The driver finds the FAT's entry of every cluster of the volume. -/
theorem ValidVolume.next_eq (h : ValidVolume d part vol) {cluster : Nat} (hc : isCluster cluster = true)
    (hlt : cluster < 128 * fatSectors d part) : vol.next cluster = fatEntry d part cluster := by
  obtain ⟨hdisk, hfat, -, -⟩ := h.globals
  have hbelow := h.fat_below
  have heoc : cluster < 0x0FFFFFF8 := (isCluster_iff.mp hc).2
  have hoff : u32 (cluster * 4) = 4 * cluster := by
    rw [u32, Nat.mod_eq_of_lt (by omega), Nat.mul_comm]
  have hsector : u32 (fatLba d part + 4 * cluster / 512) = fatLba d part + 4 * cluster / 512 := by
    rw [u32, Nat.mod_eq_of_lt (by omega)]
  rw [FatVol.next, hdisk, hfat, hoff, hsector, diskRead_one, fatEntry]

theorem chain_succ (first i : Nat) : chain d part first (i + 1) = fatEntry d part (chain d part first i) :=
  Function.iterate_succ_apply' _ _ _

theorem length_clusterBytes (cluster : Nat) : (clusterBytes d part cluster).length = clusterSize d part := by
  rw [clusterBytes, length_diskRead, clusterSize, Nat.mul_comm]

theorem length_fileContent (h : ValidVolume d part vol) (first size : Nat) :
    (fileContent d part first size).length = size := by
  have hpos := h.clusterSize_pos
  rw [fileContent, List.length_take, length_flatMap_const fun i _ => length_clusterBytes _, List.length_range]
  have hdiv := Nat.div_add_mod (size + clusterSize d part - 1) (clusterSize d part)
  have hmod := Nat.mod_lt (size + clusterSize d part - 1) hpos
  omega

theorem slice_fileContent (h : ValidVolume d part vol) {first size off n : Nat} (hn : 0 < n)
    (hin : off % clusterSize d part + n ≤ clusterSize d part) (hsize : off + n ≤ size) :
    slice (fileContent d part first size) off n =
      slice (clusterBytes d part (chain d part first (off / clusterSize d part))) (off % clusterSize d part) n := by
  have hpos := h.clusterSize_pos
  have hdiv := Nat.div_add_mod off (clusterSize d part)
  have hi : off / clusterSize d part < (size + clusterSize d part - 1) / clusterSize d part := by
    rw [Nat.div_lt_iff_lt_mul hpos, Nat.mul_comm]
    have hdiv' := Nat.div_add_mod (size + clusterSize d part - 1) (clusterSize d part)
    have hmod' := Nat.mod_lt (size + clusterSize d part - 1) hpos
    omega
  have hpiece := slice_flatMap_range (f := fun i => clusterBytes d part (chain d part first i))
    (fun i _ => length_clusterBytes _) hi
  rw [fileContent, slice_take hsize, ← hpiece, slice_slice hin, hdiv]

/-! ## Reading -/

/-- The handle stands at byte `o` of the file. At the end of the file its cluster is of no use any more. -/
structure StandsAt (d : Disk) (part : Nat) (e : DirEntry) (f : FatFile) (o : Nat) : Prop where
  offset_eq : f.offset = o
  fileSize_eq : f.fileSize = e.fileSize
  curCluster_eq : o < e.fileSize → f.curCluster = chain d part e.firstCluster (o / clusterSize d part)

/-- The content of the file of a directory entry. -/
def content (d : Disk) (part : Nat) (e : DirEntry) : List Byte := fileContent d part e.firstCluster e.fileSize

theorem div_add_in_cluster {o k c : Nat} (hc : 0 < c) (hk : 0 < k) (hin : o % c + k ≤ c) :
    ((o + k) % c = 0 → (o + k) / c = o / c + 1) ∧ ((o + k) % c ≠ 0 → (o + k) / c = o / c) := by
  have hdiv := Nat.div_add_mod o c
  have hsum : o + k = o % c + k + c * (o / c) := by omega
  rw [hsum, Nat.add_mul_mod_self_left, Nat.add_mul_div_left _ _ hc]
  rcases Nat.lt_or_eq_of_le hin with hlt | heq
  · rw [Nat.mod_eq_of_lt hlt, Nat.div_eq_of_lt hlt]
    omega
  · rw [heq, Nat.mod_self, Nat.div_self hc]
    omega

theorem readLoop_spec (hvol : ValidVolume d part vol) {e : DirEntry} (hchain : ChainOk d part e.firstCluster e.fileSize)
    (n : Nat) : ∀ {f : FatFile} {len o : Nat} {b : Bufs}, len ≤ n → o + len ≤ e.fileSize → StandsAt d part e f o →
      ∃ f' b', vol.readLoop n f len b = (slice (content d part e) o len, f', b') ∧
        StandsAt d part e f' (o + len) := by
  obtain ⟨-, -, -, hspc⟩ := hvol.globals
  have hpos := hvol.clusterSize_pos
  have hcs : vol.spc * 512 = clusterSize d part := by rw [hspc, clusterSize]
  induction n with
  | zero =>
    intro f len o b hlen _ hf
    obtain rfl : len = 0 := by omega
    exact ⟨f, b, by simp [FatVol.readLoop, slice], hf⟩
  | succ n ih =>
    intro f len o b hlen hsize hf
    rw [FatVol.readLoop]
    rcases Nat.eq_zero_or_pos len with rfl | hlenPos
    · exact ⟨f, b, by simp [slice], hf⟩
    · -- the cluster the handle is in
      have hcur := hf.curCluster_eq (by omega)
      have hdiv := Nat.div_add_mod o (clusterSize d part)
      have hmod := Nat.mod_lt o hpos
      obtain ⟨hisCluster, hlt⟩ := hchain (o / clusterSize d part) (by omega)
      rw [← hcur] at hisCluster hlt
      rw [if_pos (by simp [hlenPos, hisCluster])]
      dsimp only
      rw [hcs, hf.offset_eq]
      generalize hk : min (clusterSize d part - o % clusterSize d part) len = k
      have hkPos : 0 < k := by omega
      have hkIn : o % clusterSize d part + k ≤ clusterSize d part := by omega
      have hbytes : slice (patch b.clust 0 (vol.clusterData f.curCluster)) (o % clusterSize d part) k =
          slice (content d part e) o k := by
        rw [slice_patch_zero (by rw [FatVol.length_clusterData, hcs]; exact hkIn), hvol.clusterData_eq, hcur,
          content, slice_fileContent hvol hkPos hkIn (by omega)]
      obtain ⟨hend, hmid⟩ := div_add_in_cluster hpos hkPos hkIn
      rw [hbytes]
      by_cases hboundary : (o + k) % clusterSize d part = 0
      · rw [if_pos hboundary]
        dsimp only
        -- the cluster is used up: on to the next one
        have hnext : (vol.nextCluster f.curCluster
            { b with clust := patch b.clust 0 (vol.clusterData f.curCluster) }).1 =
              chain d part e.firstCluster ((o + k) / clusterSize d part) := by
          rw [FatVol.nextCluster_fst, hvol.next_eq hisCluster hlt, hend hboundary, chain_succ, hcur]
        have hf' : StandsAt d part e
            { f with
              offset := o + k
              curCluster := (vol.nextCluster f.curCluster
                { b with clust := patch b.clust 0 (vol.clusterData f.curCluster) }).1 } (o + k) :=
          ⟨rfl, hf.fileSize_eq, fun _ => hnext⟩
        obtain ⟨f'', b'', hrun, hf''⟩ := ih (b := (vol.nextCluster f.curCluster
          { b with clust := patch b.clust 0 (vol.clusterData f.curCluster) }).2) (by omega : len - k ≤ n)
          (by omega) hf'
        refine ⟨f'', b'', ?_, by rwa [show o + k + (len - k) = o + len by omega] at hf''⟩
        rw [hrun, slice_append_slice, show k + (len - k) = len by omega]
      · rw [if_neg hboundary]
        dsimp only
        have hf' : StandsAt d part e { f with offset := o + k } (o + k) :=
          ⟨rfl, hf.fileSize_eq, fun _ => by rw [hmid hboundary]; exact hcur⟩
        obtain ⟨f'', b'', hrun, hf''⟩ := ih (b := { b with clust := patch b.clust 0 (vol.clusterData f.curCluster) })
          (by omega : len - k ≤ n) (by omega) hf'
        refine ⟨f'', b'', ?_, by rwa [show o + k + (len - k) = o + len by omega] at hf''⟩
        rw [hrun, slice_append_slice, show k + (len - k) = len by omega]

/-! ## Calls -/

/-- A call to the driver; `junk` is what its lookups find on the stack. -/
inductive FatCall
  | fopen (path : List Byte) (junk : Nat → List Byte)
  | read (h : FatHandle) (len : Nat)
  | close (h : FatHandle)

/-- The driver, and for each handle that is open the entry it was opened for and the bytes read through it. -/
structure Session where
  state : FatState
  log : FatHandle → Option (DirEntry × List Byte)

namespace FatVol

variable (vol : FatVol)

/-- The entry a path leads to. -/
def resolve (junk : Nat → List Byte) (path : List Byte) : Option DirEntry :=
  (vol.lookupPath junk path { sector := [], dir := [], clust := [], enum := [] }).1

def call (x : Session) : FatCall → Session
  | .fopen path junk =>
    match vol.fatOpen x.state junk path, vol.resolve junk path with
    | (some h, s), some e => { state := s, log := Function.update x.log h (some (e, [])) }
    | (_, s), _ => { x with state := s }
  | .read h len =>
    let (bytes, s) := vol.fatRead x.state (some h) len
    { state := s, log := Function.update x.log h ((x.log h).map fun l => (l.1, l.2 ++ bytes)) }
  | .close h => { state := fatClose x.state (some h), log := Function.update x.log h none }

def runCalls (x : Session) (calls : List FatCall) : Session := calls.foldl vol.call x

end FatVol

/-- Reads and closes are of handles that are open. -/
def Session.Allows (x : Session) : FatCall → Prop
  | .fopen .. => True
  | .read h _ => (x.log h).isSome
  | .close h => (x.log h).isSome

/-- What a call has to answer. -/
def CallRight (d : Disk) (part : Nat) (vol : FatVol) (x : Session) : FatCall → Prop
  | .fopen path junk =>
    match (vol.fatOpen x.state junk path).1 with
    | some h => x.log h = none
    | none => (vol.resolve junk path).isSome → ∀ h, (x.log h).isSome
  | .read h len => ∀ e got, x.log h = some (e, got) →
    (vol.fatRead x.state (some h) len).1.length = min len (e.fileSize - got.length) ∧
      got ++ (vol.fatRead x.state (some h) len).1 <+: content d part e
  | .close _ => True

/-- An open handle stands behind the bytes read through it, and those are the first of its file. -/
structure Open (d : Disk) (part : Nat) (e : DirEntry) (got : List Byte) (f : FatFile) : Prop where
  stands : StandsAt d part e f got.length
  got_starts : got <+: content d part e
  chain_ok : ChainOk d part e.firstCluster e.fileSize

/-- The used slots are the open handles. -/
structure Session.Ok (d : Disk) (part : Nat) (x : Session) : Prop where
  used_iff : ∀ h, x.state.used h = true ↔ (x.log h).isSome
  handle : ∀ h e got, x.log h = some (e, got) → Open d part e got (x.state.pool h)

theorem fatRead_spec (hvol : ValidVolume d part vol) {s : FatState} {h : FatHandle} {e : DirEntry} {got : List Byte}
    (hopen : Open d part e got (s.pool h)) (len : Nat) :
    ∃ f' b', vol.fatRead s (some h) len =
        (slice (content d part e) got.length (min len (e.fileSize - got.length)),
          { s with pool := Function.update s.pool h f', bufs := b' }) ∧
      StandsAt d part e f' (got.length + min len (e.fileSize - got.length)) := by
  have hoffset := hopen.stands.offset_eq
  have hsize := hopen.stands.fileSize_eq
  rw [FatVol.fatRead, hoffset, hsize]
  by_cases hend : e.fileSize ≤ got.length
  · -- the end of the file
    have hzero : min len (e.fileSize - got.length) = 0 := by omega
    refine ⟨s.pool h, s.bufs, ?_, ?_⟩
    · rw [if_pos hend, hzero, Function.update_eq_self, slice, List.take_zero]
    · rw [hzero]
      exact hopen.stands
  · obtain ⟨f', b', hrun, hf'⟩ := readLoop_spec hvol hopen.chain_ok (min len (e.fileSize - got.length))
      (b := s.bufs) (le_refl _) (by omega) hopen.stands
    refine ⟨f', b', ?_, hf'⟩
    rw [if_neg hend]
    dsimp only
    rw [hrun]

theorem length_content (hvol : ValidVolume d part vol) (e : DirEntry) : (content d part e).length = e.fileSize :=
  length_fileContent hvol _ _

theorem append_slice_prefix {got text : List Byte} (h : got <+: text) (n : Nat) :
    got ++ slice text got.length n <+: text := by
  obtain ⟨rest, rfl⟩ := h
  rw [slice, List.drop_left]
  exact (List.prefix_append_right_inj got).mpr (List.take_prefix n rest)

theorem read_open (hvol : ValidVolume d part vol) {s : FatState} {h : FatHandle} {e : DirEntry} {got : List Byte}
    (hopen : Open d part e got (s.pool h)) (len : Nat) :
    (vol.fatRead s (some h) len).1.length = min len (e.fileSize - got.length) ∧
      got ++ (vol.fatRead s (some h) len).1 <+: content d part e := by
  obtain ⟨f', b', hread, -⟩ := fatRead_spec hvol hopen len
  rw [hread]
  dsimp only
  refine ⟨?_, append_slice_prefix hopen.got_starts _⟩
  rw [length_slice, length_content hvol]
  omega

/-- `fat_open` fails, because the path leads nowhere or all slots are used, or takes a free slot. -/
theorem fatOpen_cases (vol : FatVol) (s : FatState) (junk : Nat → List Byte) (path : List Byte) :
    (∃ b, vol.fatOpen s junk path = (none, { s with bufs := b }) ∧
      (vol.resolve junk path = none ∨ ∀ i, s.used i = true)) ∨
    ∃ i e b, vol.resolve junk path = some e ∧ s.used i = false ∧
      vol.fatOpen s junk path = (some i,
        { pool := Function.update s.pool i
            { firstCluster := e.firstCluster, fileSize := e.fileSize, curCluster := e.firstCluster, offset := 0,
              isDir := e.isDir }
          used := Function.update s.used i true
          bufs := b }) := by
  have hres : vol.resolve junk path = (vol.lookupPath junk path s.bufs).1 := vol.lookupPath_fst junk path _ _
  rw [hres, FatVol.fatOpen]
  generalize vol.lookupPath junk path s.bufs = r
  obtain ⟨found, b⟩ := r
  cases found with
  | none => exact .inl ⟨b, rfl, .inl rfl⟩
  | some e =>
    dsimp only
    cases hfree : (List.finRange maxOpenFiles).find? fun i => !s.used i with
    | none =>
      refine .inl ⟨b, rfl, .inr fun i => ?_⟩
      simpa using List.find?_eq_none.mp hfree i (List.mem_finRange i)
    | some i =>
      have hi : s.used i = false := by simpa using List.find?_some hfree
      exact .inr ⟨i, e, b, rfl, hi, rfl⟩

theorem callRight_of_ok (hvol : ValidVolume d part vol) {x : Session} (hx : x.Ok d part) (c : FatCall) :
    CallRight d part vol x c := by
  cases c with
  | fopen path junk =>
    simp only [CallRight]
    obtain ⟨b, hopen, hwhy⟩ | ⟨i, e, b, -, hfree, hopen⟩ := fatOpen_cases vol x.state junk path
    · rw [hopen]
      intro hsome h
      rcases hwhy with hnone | hall
      · rw [hnone] at hsome
        cases hsome
      · exact (hx.used_iff h).mp (hall h)
    · rw [hopen]
      show x.log i = none
      by_contra hlog
      have hused := (hx.used_iff i).mpr (Option.isSome_iff_ne_none.mpr hlog)
      rw [hfree] at hused
      cases hused
  | read h len =>
    intro e got hlog
    exact read_open hvol (hx.handle h e got hlog) len
  | close h => trivial

/-- The files a call opens have chains as long as they are. -/
def FilesOk (d : Disk) (part : Nat) (vol : FatVol) : FatCall → Prop
  | .fopen path junk => ∀ e, vol.resolve junk path = some e → ChainOk d part e.firstCluster e.fileSize
  | _ => True

theorem call_ok (hvol : ValidVolume d part vol) {x : Session} (hx : x.Ok d part) {c : FatCall} (hallow : x.Allows c)
    (hfiles : FilesOk d part vol c) : (vol.call x c).Ok d part := by
  cases c with
  | fopen path junk =>
    rw [FatVol.call]
    obtain ⟨b, hopen, -⟩ | ⟨i, e, b, hres, -, hopen⟩ := fatOpen_cases vol x.state junk path
    · rw [hopen]
      exact ⟨hx.used_iff, hx.handle⟩
    · rw [hopen, hres]
      refine ⟨fun h => ?_, fun h e' got hlog => ?_⟩
      · by_cases hh : h = i
        · subst hh
          simp
        · simpa [Function.update_of_ne hh] using hx.used_iff h
      · by_cases hh : h = i
        · -- the new handle stands at the start of its file
          subst hh
          simp only [Function.update_self, Option.some.injEq, Prod.mk.injEq] at hlog ⊢
          obtain ⟨rfl, rfl⟩ := hlog
          refine ⟨⟨rfl, rfl, fun _ => ?_⟩, List.nil_prefix, hfiles e hres⟩
          rw [List.length_nil, Nat.zero_div]
          rfl
        · simp only [Function.update_of_ne hh] at hlog ⊢
          exact hx.handle h e' got hlog
  | read h len =>
    rw [FatVol.call]
    obtain ⟨⟨e, got⟩, hlog⟩ := Option.isSome_iff_exists.mp hallow
    have hopen := hx.handle h e got hlog
    obtain ⟨hlen, hpre⟩ := read_open hvol hopen len
    obtain ⟨f', b', hread, hf'⟩ := fatRead_spec hvol hopen len
    rw [hread] at hlen hpre ⊢
    dsimp only at hlen hpre ⊢
    rw [hlog, Option.map_some]
    refine ⟨fun h' => ?_, fun h' e' got' hlog' => ?_⟩
    · by_cases hh : h' = h
      · subst hh
        simpa [hlog] using hx.used_iff h'
      · simpa [Function.update_of_ne hh] using hx.used_iff h'
    · by_cases hh : h' = h
      · subst hh
        simp only [Function.update_self, Option.some.injEq, Prod.mk.injEq] at hlog' ⊢
        obtain ⟨rfl, rfl⟩ := hlog'
        refine ⟨?_, hpre, hopen.chain_ok⟩
        rw [List.length_append, hlen]
        exact hf'
      · simp only [Function.update_of_ne hh] at hlog' ⊢
        exact hx.handle h' e' got' hlog'
  | close h =>
    rw [FatVol.call]
    refine ⟨fun h' => ?_, fun h' e' got' hlog' => ?_⟩
    · by_cases hh : h' = h
      · subst hh
        simp [fatClose]
      · simpa [fatClose, Function.update_of_ne hh] using hx.used_iff h'
    · by_cases hh : h' = h
      · subst hh
        simp at hlog'
      · simp only [Function.update_of_ne hh] at hlog'
        exact hx.handle h' e' got' hlog'

/-- Before the first call no slot is used; what the pool and the buffers hold does not matter. -/
def startSession (pool : FatHandle → FatFile) (bufs : Bufs) : Session :=
  { state := { pool := pool, used := fun _ => false, bufs := bufs }, log := fun _ => none }

/-- Along every run of calls each one answers as it should, and through every open handle the first bytes of its
file have been read. -/
theorem runCalls_right (hvol : ValidVolume d part vol) (pool : FatHandle → FatFile) (bufs : Bufs)
    (calls : List FatCall)
    (hallow : ∀ pre c, pre ++ [c] <+: calls → (vol.runCalls (startSession pool bufs) pre).Allows c)
    (hfiles : ∀ c ∈ calls, FilesOk d part vol c) :
    (∀ pre c, pre ++ [c] <+: calls → CallRight d part vol (vol.runCalls (startSession pool bufs) pre) c) ∧
      ∀ pre, pre <+: calls → ∀ h e got, (vol.runCalls (startSession pool bufs) pre).log h = some (e, got) →
        got <+: content d part e := by
  have hok : ∀ pre, pre <+: calls → (vol.runCalls (startSession pool bufs) pre).Ok d part := by
    have hstart : (startSession pool bufs).Ok d part := by
      refine ⟨fun h => ?_, fun h e got hlog => ?_⟩
      · simp [startSession]
      · cases hlog
    have hstep : ∀ (x : Session) (c : FatCall), x.Ok d part → (x.Allows c ∧ FilesOk d part vol c) →
        (vol.call x c).Ok d part := fun x c hx hc => call_ok hvol hx hc.1 hc.2
    refine Runs.forall_prefix hstep hstart fun pre c hpre => ?_
    exact ⟨hallow pre c hpre, hfiles c (hpre.subset (by simp))⟩
  refine ⟨fun pre c hpre => ?_, fun pre hpre h e got hlog => ?_⟩
  · exact callRight_of_ok hvol (hok pre ((List.prefix_append pre [c]).trans hpre)) c
  · exact ((hok pre hpre).handle h e got hlog).got_starts

/-- A disk with the given sectors, padded with zeros. -/
def Disk.ofSectors (sectors : List (List Byte)) : Disk :=
  ⟨fun lba => fit (sectors.getD lba []) 512, fun _ => length_fit _ _⟩

/-- A volume of eight sectors: the boot sector, the FAT, the root directory with one file `A` of five bytes, and the
file. -/
def smallDisk : Disk := .ofSectors
  [List.replicate 11 0 ++ le 2 512 ++ [1] ++ le 2 1 ++ [1] ++ List.replicate 15 0 ++ le 4 8 ++ le 4 1 ++
      List.replicate 4 0 ++ le 4 2,
    le 4 0x0FFFFFF8 ++ le 4 0x0FFFFFFF ++ le 4 0x0FFFFFFF ++ le 4 0x0FFFFFFF,
    lit "A          " ++ [0x20] ++ List.replicate 14 0 ++ le 2 3 ++ le 4 5,
    lit "hello"]

def smallVol : FatVol :=
  { disk := smallDisk, totalSectors32 := 8, fatStart := 1, dataStart := 2, rootCluster := 2, spc := 1 }

theorem smallVol_valid : ValidVolume smallDisk 0 smallVol := by
  have hinit : fatInit smallDisk 0 = some smallVol := by
    have h11 : field (smallDisk.sector 0) 11 2 = 512 := by decide
    have h36 : field (smallDisk.sector 0) 36 4 = 1 := by decide
    have h14 : field (smallDisk.sector 0) 14 2 = 1 := by decide
    have h16 : field (smallDisk.sector 0) 16 1 = 1 := by decide
    have h32 : field (smallDisk.sector 0) 32 4 = 8 := by decide
    have h44 : field (smallDisk.sector 0) 44 4 = 2 := by decide
    have h13 : field (smallDisk.sector 0) 13 1 = 1 := by decide
    simp [fatInit, diskRead_one, h11, h36, h14, h16, h32, h44, h13, smallVol, u32]
  exact ⟨hinit, by decide, by decide, by decide, by decide⟩

def firstSlot : FatHandle := ⟨0, Nat.zero_lt_succ 7⟩

/-- Opening `/A` and reading three bytes and then the rest. -/
def smallCalls : List FatCall := [.fopen (lit "/A") fun _ => [], .read firstSlot 3, .read firstSlot 9]

def zeroFile : FatFile := { firstCluster := 0, fileSize := 0, curCluster := 0, offset := 0, isDir := false }

def zeroBufs : Bufs := { sector := [], dir := [], clust := [], enum := [] }

theorem runCalls_right_small :
    (∀ pre c, pre ++ [c] <+: smallCalls →
        CallRight smallDisk 0 smallVol (smallVol.runCalls (startSession (fun _ => zeroFile) zeroBufs) pre) c) ∧
      ∀ pre, pre <+: smallCalls → ∀ h e got,
        (smallVol.runCalls (startSession (fun _ => zeroFile) zeroBufs) pre).log h = some (e, got) →
        got <+: content smallDisk 0 e := by
  have hres : smallVol.resolve (fun _ => []) (lit "/A") =
      some (lit "A          " ++ [0x20] ++ List.replicate 14 0 ++ le 2 3 ++ le 4 5) := by decide
  refine runCalls_right smallVol_valid _ _ smallCalls ?_ ?_
  · -- the first handle is open after the first call
    intro pre c hpre
    have hlog1 :
        ((smallVol.runCalls (startSession (fun _ => zeroFile) zeroBufs) (smallCalls.take 1)).log firstSlot).isSome := by
      decide
    have hlog2 :
        ((smallVol.runCalls (startSession (fun _ => zeroFile) zeroBufs) (smallCalls.take 2)).log firstSlot).isSome := by
      decide
    have htake := List.prefix_iff_eq_take.mp hpre
    have hlen := hpre.length_le
    rw [List.length_append, List.length_singleton] at htake hlen
    have hle : pre.length ≤ 2 := Nat.le_of_lt_succ hlen
    have hpre' := List.prefix_iff_eq_take.mp ((List.prefix_append pre [c]).trans hpre)
    generalize pre.length = n at htake hle hpre'
    subst hpre'
    interval_cases n
    · obtain rfl : c = .fopen (lit "/A") fun _ => [] := by simpa [smallCalls] using htake
      trivial
    · obtain rfl : c = .read firstSlot 3 := by simpa [smallCalls] using htake
      exact hlog1
    · obtain rfl : c = .read firstSlot 9 := by simpa [smallCalls] using htake
      exact hlog2
  · intro c hc
    rcases List.mem_cons.mp hc with rfl | hc
    · intro e he
      rw [hres] at he
      obtain rfl := Option.some.inj he
      intro i hi
      have hsize : clusterSize smallDisk 0 = 512 := by decide
      have hfive : DirEntry.fileSize (lit "A          " ++ [0x20] ++ List.replicate 14 0 ++ le 2 3 ++ le 4 5) = 5 := by
        decide
      rw [hsize, hfive] at hi
      obtain rfl : i = 0 := by omega
      decide
    · fin_cases hc <;> trivial

end SakuruBoot.Fat

import SakuruBoot.Bios.FatNames
import SakuruBoot.Common.KernelTable

/-!
# Kernel discovery of stage 2 (`bios/stage2/main.c`)

`scanDir` enumerates a directory with `scanCb` as the callback of `fat_readdir`. The callback enumerates subdirectories
and probes for initrds in the middle of the enumeration that calls it, and that one goes on with what `enum_buf` then
holds. So a listing is a run over the entries of a cluster (`listEntries_quiet`) only if its callback leaves `enum_buf`
alone.
-/

namespace SakuruBoot.Fat
open CStr Bytes

/-- What the stack holds when the driver is called: where `find_in_dir` has its `lfn_buf`, one lookup after the other, and
where `fat_readdir` has another. -/
structure Stack where
  lookup : Nat → List Byte
  list : List Byte

/-- A call of `scan_cb`, with the directory and the depth of its context. -/
structure ScanCall where
  dir : List Byte
  depth : Nat
  name : List Byte
  isDir : Bool
  deriving DecidableEq, Repr

/-- The handles and the boot table. `clock` counts the calls of the driver, and `calls` is the record of those of
`scan_cb`. -/
structure Scan where
  pool : FatHandle → FatFile
  used : FatHandle → Bool
  cfg : BootConfig
  clock : Nat
  calls : List ScanCall

def fatMaxPath : Nat := 256

/-- `out` after `path_join`. -/
def pathJoin (parent child : List Byte) (max : Nat) : List Byte := (str parent ++ 47 :: str child).take (max - 1)

def scanCandidates : List (List Byte) := ["initrd.img", "initramfs.img", "initrd", "initramfs"].map lit

section Model

variable (vol : FatVol) (stack : Nat → Stack)

/-- `initrd_path` after the loop over the candidates. -/
def probeInitrd (dir : List Byte) : List (List Byte) → Bufs × Scan → List Byte × Bufs × Scan
  | [], st => ([], st)
  | candidate :: candidates, st =>
    let tryPath := pathJoin dir candidate maxStrLen
    let opened := vol.fatOpen ⟨st.2.pool, st.2.used, st.1⟩ (stack st.2.clock).lookup tryPath
    let closed := fatClose opened.2 opened.1
    let st := (closed.bufs, { st.2 with pool := closed.pool, used := closed.used, clock := st.2.clock + 1 })
    if opened.1.isSome then (tryPath, st) else probeInitrd dir candidates st

/-- What `scan_cb` does with a file. -/
def scanKernel (dir name : List Byte) (st : Bufs × Scan) : Bufs × Scan :=
  let type := configGuessType name
  if type = .unknown then st
  else
    let kernelPath := pathJoin dir name maxStrLen
    let (initrd, st) := if type = .linux then probeInitrd vol stack dir scanCandidates st else ([], st)
    let displayName := configMakeName dir name type maxStrLen
    let initrd := if deref initrd != 0 then some initrd else none
    (st.1, { st.2 with cfg := (configAddKernel st.2.cfg displayName type kernelPath initrd).2 })

/-- `scan_cb` in the context of a directory and a depth; `scan` is the `scan_dir` it calls. -/
def scanCb (scan : List Byte → Nat → Bufs × Scan → Bufs × Scan) (dir : List Byte) (depth : Nat) (name : List Byte)
    (isDir : Bool) (st : Bufs × Scan) : Bufs × Scan :=
  let st := (st.1, { st.2 with calls := st.2.calls ++ [⟨dir, depth, name, isDir⟩] })
  if isDir then if 1 ≤ depth then st else scan (pathJoin dir name fatMaxPath) (depth + 1) st
  else scanKernel vol stack dir name st

/-- `scan_dir`, for at most `n` levels. -/
def scanDir : Nat → List Byte → Nat → Bufs × Scan → Bufs × Scan
  | 0, _, _, st => st
  | n + 1, dirPath, depth, st =>
    let dir := strCopy dirPath fatMaxPath
    let here := stack st.2.clock
    let st := (st.1, { st.2 with clock := st.2.clock + 1 })
    (fatReaddir vol (scanCb vol stack (scanDir n) dir depth) here.lookup here.list dirPath st).2

/-- Two levels are all there are. -/
theorem scanDir_levels (n : Nat) (dirPath : List Byte) :
    scanDir vol stack (n + 2) dirPath 0 = scanDir vol stack 2 dirPath 0 := by
  have hsub (m : Nat) (path : List Byte) : scanDir vol stack (m + 1) path 1 = scanDir vol stack 1 path 1 := by
    have hcb (dir : List Byte) : scanCb vol stack (scanDir vol stack m) dir 1 =
        scanCb vol stack (scanDir vol stack 0) dir 1 := by
      funext name isDir st
      cases isDir <;> rfl
    funext st
    rw [scanDir, scanDir, hcb]
  have hcb (dir : List Byte) : scanCb vol stack (scanDir vol stack (n + 1)) dir 0 =
      scanCb vol stack (scanDir vol stack 1) dir 0 := by
    funext name isDir st
    cases isDir with
    | false => rfl
    | true => exact congrFun (hsub n (pathJoin dir name fatMaxPath)) _
  funext st
  rw [scanDir, hcb, ← scanDir]

end Model

/-! ## What the callback leaves alone -/

section Quiet

variable (vol : FatVol) (stack : Nat → Stack)

theorem nextCluster_enum (c : Nat) (b : Bufs) : (vol.nextCluster c b).2.enum = b.enum := rfl

theorem findClusters_enum (target : List Byte) (n c : Nat) (s : LfnState) (b : Bufs) :
    (vol.findClusters target n c s b).2.enum = b.enum := by
  induction n generalizing c s b with
  | zero => rfl
  | succ n ih =>
    rw [FatVol.findClusters]
    split
    · dsimp only
      cases findEntries target _ s with
      | done r => rfl
      | more s => exact ih _ _ _
    · rfl

theorem findInDir_enum (c : Nat) (target junk : List Byte) (b : Bufs) :
    (vol.findInDir c target junk b).2.enum = b.enum :=
  findClusters_enum vol _ _ _ _ _

theorem walk_enum (junk : Nat → List Byte) (n c : Nat) (p : List Byte) (b : Bufs) :
    (vol.walk junk n c p b).2.enum = b.enum := by
  induction n generalizing c p b with
  | zero => rfl
  | succ n ih =>
    rw [FatVol.walk]
    split
    · rfl
    · dsimp only
      have hfind := findInDir_enum vol c (FatVol.nextComponent p).1 (junk n) b
      generalize vol.findInDir c (FatVol.nextComponent p).1 (junk n) b = r at hfind ⊢
      obtain ⟨_ | e, b'⟩ := r
      · exact hfind
      · dsimp only
        split_ifs
        · exact hfind
        · rw [ih]
          exact hfind
        · exact hfind

theorem walkDir_enum (junk : Nat → List Byte) (n c : Nat) (p : List Byte) (b : Bufs) :
    (walkDir vol junk n c p b).2.enum = b.enum := by
  induction n generalizing c p b with
  | zero => rfl
  | succ n ih =>
    rw [walkDir]
    split
    · rfl
    · dsimp only
      split
      · exact ih _ _ _
      · have hfind := findInDir_enum vol c (FatVol.nextComponent p).1 (junk n) b
        generalize vol.findInDir c (FatVol.nextComponent p).1 (junk n) b = r at hfind ⊢
        obtain ⟨_ | e, b'⟩ := r
        · exact hfind
        · dsimp only
          split_ifs
          · rw [ih]
            exact hfind
          · exact hfind

theorem fatOpen_enum (s : FatState) (junk : Nat → List Byte) (path : List Byte) :
    (vol.fatOpen s junk path).2.bufs.enum = s.bufs.enum := by
  have hwalk : (vol.lookupPath junk path s.bufs).2.enum = s.bufs.enum := walk_enum vol _ _ _ _ _
  rw [FatVol.fatOpen]
  generalize vol.lookupPath junk path s.bufs = r at hwalk ⊢
  obtain ⟨_ | e, b⟩ := r
  · exact hwalk
  · dsimp only
    cases (List.finRange maxOpenFiles).find? fun i => !s.used i with
    | none => exact hwalk
    | some i => exact hwalk

theorem fatClose_bufs (s : FatState) (h : Option FatHandle) : (fatClose s h).bufs = s.bufs := by
  cases h <;> rfl

theorem probeInitrd_frame (dir : List Byte) (candidates : List (List Byte)) (st : Bufs × Scan) :
    (probeInitrd vol stack dir candidates st).2.1.enum = st.1.enum ∧
      (probeInitrd vol stack dir candidates st).2.2.cfg = st.2.cfg ∧
        (probeInitrd vol stack dir candidates st).2.2.calls = st.2.calls := by
  induction candidates generalizing st with
  | nil => exact ⟨rfl, rfl, rfl⟩
  | cons candidate candidates ih =>
    have henum := fatOpen_enum vol ⟨st.2.pool, st.2.used, st.1⟩ (stack st.2.clock).lookup
      (pathJoin dir candidate maxStrLen)
    rw [← fatClose_bufs _ (vol.fatOpen ⟨st.2.pool, st.2.used, st.1⟩ (stack st.2.clock).lookup
      (pathJoin dir candidate maxStrLen)).1] at henum
    rw [probeInitrd]
    dsimp only
    split_ifs
    · exact ⟨henum, rfl, rfl⟩
    · obtain ⟨h1, h2, h3⟩ := ih _
      exact ⟨h1.trans henum, h2, h3⟩

theorem length_pathJoin_le (parent child : List Byte) (max : Nat) : (pathJoin parent child max).length ≤ max - 1 :=
  List.length_take_le _ _

theorem length_probeInitrd_le (dir : List Byte) (candidates : List (List Byte)) (st : Bufs × Scan) :
    (probeInitrd vol stack dir candidates st).1.length ≤ 255 := by
  induction candidates generalizing st with
  | nil => exact Nat.zero_le _
  | cons candidate candidates ih =>
    rw [probeInitrd]
    dsimp only
    split_ifs
    · exact length_pathJoin_le dir candidate maxStrLen
    · exact ih _

/-- The request that `scan_cb` makes for a kernel with an initrd. -/
def kernelRequest (dir name : List Byte) (initrd : Option (List Byte)) : KernelRequest where
  name := configMakeName dir name (configGuessType name) maxStrLen
  type := configGuessType name
  kernel := pathJoin dir name maxStrLen
  initrd := initrd

theorem scanKernel_frame (dir name : List Byte) (st : Bufs × Scan) :
    (scanKernel vol stack dir name st).1.enum = st.1.enum ∧
      (scanKernel vol stack dir name st).2.calls = st.2.calls := by
  rw [scanKernel]
  dsimp only
  by_cases hunknown : configGuessType name = .unknown
  · rw [if_pos hunknown]
    exact ⟨rfl, rfl⟩
  · rw [if_neg hunknown]
    by_cases hlinux : configGuessType name = .linux
    · obtain ⟨h1, -, h3⟩ := probeInitrd_frame vol stack dir scanCandidates st
      rw [if_pos hlinux]
      exact ⟨h1, h3⟩
    · rw [if_neg hlinux]
      exact ⟨rfl, rfl⟩

theorem scanKernel_cfg (dir name : List Byte) (st : Bufs × Scan) :
    ∃ initrd : Option (List Byte), (∀ p ∈ initrd, p.length ≤ 255) ∧
      (scanKernel vol stack dir name st).2.cfg =
        (addKernels st.2.cfg (if configGuessType name = .unknown then [] else [kernelRequest dir name initrd])).2 := by
  rw [scanKernel]
  dsimp only
  by_cases hunknown : configGuessType name = .unknown
  · simp only [if_pos hunknown]
    exact ⟨none, fun p hp => absurd hp (Option.not_mem_none p), rfl⟩
  · simp only [if_neg hunknown]
    by_cases hlinux : configGuessType name = .linux
    · obtain ⟨-, h2, -⟩ := probeInitrd_frame vol stack dir scanCandidates st
      have hlen := length_probeInitrd_le vol stack dir scanCandidates st
      rw [if_pos hlinux]
      generalize probeInitrd vol stack dir scanCandidates st = r at h2 hlen
      refine ⟨if deref r.1 != 0 then some r.1 else none, fun p hp => ?_, ?_⟩
      · split at hp
        · obtain rfl := Option.some.inj hp
          exact hlen
        · cases hp
      · rw [← h2]
        rfl
    · rw [if_neg hlinux]
      exact ⟨none, fun p hp => absurd hp (Option.not_mem_none p), rfl⟩

/-- A callback that is recorded as one call, and leaves `enum_buf` alone. -/
structure Quiet (cb : List Byte → Bool → Bufs × Scan → Bufs × Scan) (dir : List Byte) (depth : Nat) : Prop where
  enum : ∀ name isDir st, (cb name isDir st).1.enum = st.1.enum
  calls : ∀ name isDir st, (cb name isDir st).2.calls = st.2.calls ++ [⟨dir, depth, name, isDir⟩]

theorem scanCb_file_enum (scan : List Byte → Nat → Bufs × Scan → Bufs × Scan) (dir : List Byte) (depth : Nat)
    (name : List Byte) (st : Bufs × Scan) : (scanCb vol stack scan dir depth name false st).1.enum = st.1.enum :=
  (scanKernel_frame vol stack dir name _).1

theorem scanCb_quiet (scan : List Byte → Nat → Bufs × Scan → Bufs × Scan) (dir : List Byte) :
    Quiet (scanCb vol stack scan dir 1) dir 1 := by
  constructor
  · intro name isDir st
    cases isDir with
    | false => exact scanCb_file_enum vol stack scan dir 1 name st
    | true => rfl
  · intro name isDir st
    cases isDir with
    | false => exact (scanKernel_frame vol stack dir name _).2
    | true => rfl

end Quiet

/-! ## Listing with a quiet callback -/

/-- What each callback does to the caller's state, a listing does. -/
theorem fatReaddir_rel {σ : Type} {R : σ → σ → Prop} (hrefl : ∀ x, R x x) (htrans : ∀ x y z, R x y → R y z → R x z)
    {vol : FatVol} {cb : List Byte → Bool → Bufs × σ → Bufs × σ} (hcb : ∀ name isDir st, R st.2 (cb name isDir st).2)
    (junk : Nat → List Byte) (lfnJunk path : List Byte) (st : Bufs × σ) :
    R st.2 (fatReaddir vol cb junk lfnJunk path st).2.2 := by
  have hentries (is : List Nat) (s : LfnState) (st : Bufs × σ) : R st.2 (listEntries cb is s st).2.2 := by
    induction is generalizing s st with
    | nil => exact hrefl _
    | cons i is ih =>
      rw [listEntries]
      cases listStep s (entryAt st.1.enum i) with
      | stop => exact hrefl _
      | skip s => exact ih s st
      | entry name s => exact htrans _ _ _ (hcb _ _ st) (ih s _)
  have hclusters (n c : Nat) (s : LfnState) (st : Bufs × σ) : R st.2 (listClusters vol cb n c s st).2 := by
    induction n generalizing c s st with
    | zero => exact hrefl _
    | succ n ih =>
      rw [listClusters]
      split
      · dsimp only
        have hrun := hentries (List.range (vol.spc * 512 / 32)) s
          ({ st.1 with enum := patch st.1.enum 0 (vol.clusterData c) }, st.2)
        generalize listEntries cb (List.range (vol.spc * 512 / 32)) s _ = r at hrun ⊢
        obtain ⟨_ | s', st'⟩ := r
        · exact hrun
        · exact htrans _ st'.2 _ hrun (ih _ s' ((vol.nextCluster c st'.1).2, st'.2))
      · exact hrefl _
  rw [fatReaddir]
  generalize walkDir vol junk _ vol.rootCluster _ st.1 = r
  obtain ⟨_ | c, b⟩ := r
  · exact hrefl _
  · exact hclusters _ c _ (b, st.2)

section Listing

variable (vol : FatVol) {cb : List Byte → Bool → Bufs × Scan → Bufs × Scan} {dir : List Byte} {depth : Nat}

/-- The calls for the names of a listing. -/
def callsAt (dir : List Byte) (depth : Nat) (names : List (List Byte × Bool)) : List ScanCall :=
  names.map fun q => ⟨dir, depth, q.1, q.2⟩

theorem listEntries_quiet (h : Quiet cb dir depth) (is : List Nat) (s : LfnState) (st : Bufs × Scan) :
    (listEntries cb is s st).1 = (listAll (is.map (entryAt st.1.enum)) s).1 ∧
      (listEntries cb is s st).2.1.enum = st.1.enum ∧
        (listEntries cb is s st).2.2.calls =
          st.2.calls ++ callsAt dir depth (listAll (is.map (entryAt st.1.enum)) s).2 := by
  induction is generalizing s st with
  | nil => exact ⟨rfl, rfl, (List.append_nil _).symm⟩
  | cons i is ih =>
    rw [listEntries, List.map_cons, listAll]
    cases listStep s (entryAt st.1.enum i) with
    | stop => exact ⟨rfl, rfl, (List.append_nil _).symm⟩
    | skip s => exact ih s st
    | entry name s =>
      obtain ⟨h1, h2, h3⟩ := ih s (cb name (entryAt st.1.enum i).isDir st)
      rw [h.enum] at h1 h2 h3
      rw [h.calls, List.append_assoc] at h3
      exact ⟨h1, h2, h3⟩

/-- The last cluster that a listing reads: the first one with an end mark, or the last of the chain. -/
def FatVol.lastRead (vol : FatVol) : Nat → Nat → Option Nat
  | 0, _ => none
  | n + 1, c =>
    if isCluster c then
      if (vol.clusterEntries c).any fun e => e.first == 0 then some c
      else some ((vol.lastRead n (vol.next c)).getD c)
    else none

/-- What a listing leaves in `enum_buf`. -/
structure EnumAfter (vol : FatVol) (n c : Nat) (before after : Bufs) : Prop where
  untouched : vol.lastRead n c = none → after.enum = before.enum
  filled : ∀ l, vol.lastRead n c = some l →
    (List.range (vol.spc * 512 / 32)).map (entryAt after.enum) = vol.clusterEntries l

/-- What becomes of an entry does not depend on the long name read so far, but for its text. -/
theorem listStep_cases (s : LfnState) (e : DirEntry) :
    e.first = 0 ∧ listStep s e = .stop ∨
      e.first ≠ 0 ∧ ((∃ s', listStep s e = .skip s') ∨ ∃ name s', listStep s e = .entry name s') := by
  by_cases h0 : e.first = 0
  · exact .inl ⟨h0, if_pos h0⟩
  · refine .inr ⟨h0, ?_⟩
    rw [listStep, if_neg h0]
    dsimp only
    split_ifs
    all_goals first
      | exact .inl ⟨_, rfl⟩
      | exact .inr ⟨_, _, rfl⟩

theorem listAll_fst_eq_none_iff (es : List DirEntry) (s : LfnState) :
    (listAll es s).1 = none ↔ (es.any fun e => e.first == 0) = true := by
  induction es generalizing s with
  | nil => simp [listAll]
  | cons e es ih =>
    rw [listAll, List.any_cons]
    rcases listStep_cases s e with ⟨h0, hstep⟩ | ⟨h0, ⟨s', hstep⟩ | ⟨name, s', hstep⟩⟩
    · simp [hstep, h0]
    · simp [hstep, h0, ih]
    · simp [hstep, h0, ih]

theorem listClusters_quiet (h : Quiet cb dir depth) (n c : Nat) (s : LfnState) (st : Bufs × Scan) :
    (listClusters vol cb n c s st).2.calls = st.2.calls ++ callsAt dir depth (listAll (vol.dirEntries n c) s).2 ∧
      EnumAfter vol n c st.1 (listClusters vol cb n c s st).1 := by
  induction n generalizing c s st with
  | zero => exact ⟨(List.append_nil _).symm, fun _ => rfl, fun L hL => by cases hL⟩
  | succ n ih =>
    rw [listClusters, FatVol.dirEntries]
    by_cases hc : isCluster c = true
    · rw [if_pos hc, if_pos hc]
      dsimp only
      generalize hst : (({ st.1 with enum := patch st.1.enum 0 (vol.clusterData c) }, st.2) : Bufs × Scan) = st'
      have hread : (List.range (vol.spc * 512 / 32)).map (entryAt st'.1.enum) = vol.clusterEntries c := by
        rw [← hst]
        exact vol.map_entryAt_patch _ c
      have hcalls : st'.2.calls = st.2.calls := by rw [← hst]
      obtain ⟨h1, h2, h3⟩ := listEntries_quiet h (List.range (vol.spc * 512 / 32)) s st'
      rw [hread] at h1 h3
      rw [hcalls] at h3
      generalize listEntries cb (List.range (vol.spc * 512 / 32)) s st' = r at h1 h2 h3
      obtain ⟨r, st₁⟩ := r
      dsimp only at h1 h2 h3
      rw [listAll_append]
      have hend := listAll_fst_eq_none_iff (vol.clusterEntries c) s
      rw [← h1] at hend
      generalize listAll (vol.clusterEntries c) s = l at h1 h3 ⊢
      obtain ⟨l, names⟩ := l
      obtain rfl : r = l := h1
      cases r with
      | none =>
        have hlast : vol.lastRead (n + 1) c = some c := by
          rw [FatVol.lastRead, if_pos hc, if_pos (hend.mp rfl)]
        refine ⟨h3, fun hnone => ?_, fun L hL => ?_⟩
        · rw [hlast] at hnone
          cases hnone
        · obtain rfl := Option.some.inj (hlast.symm.trans hL)
          rw [h2, hread]
      | some s' =>
        have hlast : vol.lastRead (n + 1) c = some ((vol.lastRead n (vol.next c)).getD c) := by
          rw [FatVol.lastRead, if_pos hc, if_neg fun h => Option.some_ne_none s' (hend.mpr h)]
        obtain ⟨ih1, ih2⟩ := ih (vol.nextCluster c st₁.1).1 s' ((vol.nextCluster c st₁.1).2, st₁.2)
        rw [FatVol.nextCluster_fst] at ih1 ih2
        dsimp only at ih1 ih2 ⊢
        rw [FatVol.nextCluster_fst]
        refine ⟨?_, fun hnone => ?_, fun L hL => ?_⟩
        · rw [ih1, h3, List.append_assoc, callsAt, callsAt, callsAt, List.map_append]
        · rw [hlast] at hnone
          cases hnone
        · obtain rfl := Option.some.inj (hlast.symm.trans hL)
          cases hrest : vol.lastRead n (vol.next c) with
          | none => rw [ih2.untouched hrest, nextCluster_enum, h2, hread, Option.getD_none]
          | some L => rw [ih2.filled L hrest, Option.getD_some]
    · rw [if_neg hc, if_neg hc]
      have hlast : vol.lastRead (n + 1) c = none := by rw [FatVol.lastRead, if_neg hc]
      refine ⟨(List.append_nil _).symm, fun _ => rfl, fun L hL => ?_⟩
      rw [hlast] at hL
      cases hL

end Listing

end SakuruBoot.Fat

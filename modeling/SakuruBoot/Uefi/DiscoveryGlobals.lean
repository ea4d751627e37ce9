import SakuruBoot.Uefi.DiscoveryFacts

/-!
# Which `sakuru.cfg` sets the globals

`scan_all_filesystems` parses a `sakuru.cfg` in full while the table is empty and merges it otherwise, and a merge keeps
the globals. So the file that decides is the last one met before the table has an entry, `governingCfg`, and not the
first one there is: entries of an earlier volume turn the first file into a merge, and a first file on a volume without
entries is replaced by the next. `globals_scanAllFilesystems` is the value, `globals_first_iff` when it is the first file's.
-/

namespace SakuruBoot
open CStr

variable {s t : ScanState} {vol : FatVolume}

/-! ## The table after a scan depends on the table before it only -/

theorem addKernel_cfg (s : ScanState) (name : List Byte) (type : OSType) (kernelPath : List Byte)
    (initrdPath : Option (List Byte)) (ctx : FsCtx) (origin : Origin) :
    (addKernel s name type kernelPath initrdPath ctx origin).cfg =
      (configAddKernel s.cfg name type kernelPath initrdPath).2 := by
  unfold addKernel
  dsimp only
  split <;> rfl

theorem configAddKernel_entries {a b : BootConfig} (h : a.entries = b.entries) (name : List Byte) (type : OSType)
    (kernelPath : List Byte) (initrdPath : Option (List Byte)) :
    (configAddKernel a name type kernelPath initrdPath).2.entries =
      (configAddKernel b name type kernelPath initrdPath).2.entries := by
  unfold configAddKernel BootConfig.numEntries
  rw [h]
  split
  · exact h
  · split
    · exact h
    · rfl

/-- The two tables are equal. -/
def SameEntries (s t : ScanState) : Prop := s.cfg.entries = t.cfg.entries

theorem sameEntries_addKernel (h : SameEntries s t) (name : List Byte) (type : OSType) (kernelPath : List Byte)
    (initrdPath : Option (List Byte)) (ctx ctx' : FsCtx) (origin : Origin) :
    SameEntries (addKernel s name type kernelPath initrdPath ctx origin)
      (addKernel t name type kernelPath initrdPath ctx' origin) := by
  rw [SameEntries, addKernel_cfg, addKernel_cfg]
  exact configAddKernel_entries h name type kernelPath initrdPath

theorem sameEntries_scanFile (allowEfi : Bool) (dirPath name : List Byte) (h : SameEntries s t) :
    SameEntries (scanFile vol allowEfi dirPath s name) (scanFile vol allowEfi dirPath t name) := by
  unfold scanFile
  dsimp only
  generalize (if configGuessType name = .unknown ∧ allowEfi = true ∧ isEfiName name = true then OSType.linux
    else configGuessType name) = type
  split
  · exact h
  · exact sameEntries_addKernel h _ _ _ _ _ _ _

theorem sameEntries_scanLoaderInfo (info : FileInfo) (h : SameEntries s t) :
    SameEntries (scanLoaderInfo vol s info) (scanLoaderInfo vol t info) := by
  unfold scanLoaderInfo
  dsimp only
  split
  · exact h
  split
  · exact h
  split
  · exact h
  rename_i cbuf _ _
  generalize (if (scanConf cbuf).title = [] then strCopy (ucs2ToAscii info.name 256) 256
    else (scanConf cbuf).title) = title
  have hadd := sameEntries_addKernel h title .linux (scanConf cbuf).linuxPath (scanConf cbuf).initrds.head? vol.ctx
    vol.ctx (.loaderConf vol.ctx info.name)
  generalize addKernel s title .linux (scanConf cbuf).linuxPath (scanConf cbuf).initrds.head? vol.ctx
    (.loaderConf vol.ctx info.name) = s' at hadd ⊢
  generalize addKernel t title .linux (scanConf cbuf).linuxPath (scanConf cbuf).initrds.head? vol.ctx
    (.loaderConf vol.ctx info.name) = t' at hadd ⊢
  unfold SameEntries at h hadd
  unfold BootConfig.numEntries
  rw [h, hadd]
  by_cases hlt : t.cfg.entries.length < t'.cfg.entries.length
  · rw [if_pos hlt, if_pos hlt]
    rfl
  · rw [if_neg hlt, if_neg hlt]
    exact hadd

/-- What a volume adds to an empty table is always the same. -/
theorem scanVolume_entries_of_empty (hs : s.cfg.entries = []) (ht : t.cfg.entries = []) :
    (scanVolume vol s).cfg.entries = (scanVolume vol t).cfg.entries := by
  have hcfg : SameEntries (readSakuruCfg vol { s with currentSfs := some vol.sfs })
      (readSakuruCfg vol { t with currentSfs := some vol.sfs }) := by
    unfold readSakuruCfg SameEntries
    split
    · exact hs.trans ht.symm
    · have hzero : ∀ c : BootConfig, c.entries = [] → c.numEntries = 0 := fun c hc => by
        rw [BootConfig.numEntries, hc, List.length_nil]
      simp only [if_pos (hzero _ hs), if_pos (hzero _ ht)]
      rfl
  have hfile : ∀ (allowEfi : Bool) (s t : ScanState) (d name : List Byte), vol.Lists d name → SameEntries s t →
      SameEntries (scanFile vol allowEfi d s name) (scanFile vol allowEfi d t name) :=
    fun allowEfi s t d name _ h => sameEntries_scanFile allowEfi d name h
  have hloader := scanLoaderEntries_rel vol (fun s t info h => sameEntries_scanLoaderInfo info h) hcfg
  have hboot := scanDirUefi_rel (hfile false) (lit "/boot") hloader
  have hefi := scanDirUefi_rel (hfile true) (lit "/EFI/Linux") hboot
  exact scanDirUefi_rel (hfile false) (lit "/") hefi

/-! ## The globals after a scan -/

/-- The globals are `g`, and the table is within its limit. -/
def KeepsGlobals (g : UInt32 × UInt8 × UInt8) (n : Nat) (s : ScanState) : Prop :=
  s.cfg.globals = g ∧ n ≤ s.cfg.numEntries ∧ s.cfg.numEntries ≤ maxEntries

variable {g : UInt32 × UInt8 × UInt8} {n : Nat}

theorem keepsGlobals_push {e : BootEntry} {ctx : FsCtx} {origin : Origin} (h : KeepsGlobals g n s)
    (hroom : s.cfg.numEntries < maxEntries) : KeepsGlobals g n (s.push e ctx origin) := by
  refine ⟨h.1, ?_, ?_⟩
  · rw [push_numEntries]
    exact Nat.le_succ_of_le h.2.1
  · rw [push_numEntries]
    exact hroom

theorem keepsGlobals_scans (h : KeepsGlobals g n s) :
    KeepsGlobals g n (scanDirUefi vol (lit "/") false (scanDirUefi vol (lit "/EFI/Linux") true
      (scanDirUefi vol (lit "/boot") false (scanLoaderEntries vol s)))) := by
  have hdir : ∀ (dirPath : List Byte) (allowEfi : Bool) (s : ScanState), KeepsGlobals g n s →
      KeepsGlobals g n (scanDirUefi vol dirPath allowEfi s) := by
    intro dirPath allowEfi s hs
    refine scanDirUefi_invariant (I := KeepsGlobals g n) (fun s d name _ hs => ?_) dirPath hs
    rcases scanFile_cases vol allowEfi d s name with hc | ⟨hroom, hc⟩
    · rwa [hc]
    · rw [hc]
      exact keepsGlobals_push hs hroom
  have hloader : KeepsGlobals g n (scanLoaderEntries vol s) := by
    refine scanLoaderEntries_invariant (I := KeepsGlobals g n) (fun s _ info _ _ hs => ?_) h
    rcases scanLoaderInfo_cases vol s info with hc | ⟨hroom, cbuf, -, hc⟩
    · rwa [hc]
    · rw [hc]
      exact keepsGlobals_push hs hroom
  exact hdir _ _ _ (hdir _ _ _ (hdir _ _ _ hloader))

theorem scanVolume_nonempty (vol : FatVolume) (hpos : 0 < s.cfg.numEntries) (hmax : s.cfg.numEntries ≤ maxEntries) :
    KeepsGlobals s.cfg.globals 1 (scanVolume vol s) := by
  refine keepsGlobals_scans ?_
  unfold readSakuruCfg
  split
  · exact ⟨rfl, hpos, hmax⟩
  · rename_i buf _
    have hne : ¬s.cfg.numEntries = 0 := by omega
    simp only [if_neg hne]
    obtain ⟨hglobals, hpre⟩ := configParseMerge_keeps hmax buf
    exact ⟨hglobals, le_trans hpos hpre.length_le, doParse_numEntries_le buf true hmax⟩

/-- The globals a file sets, or the built-in ones. -/
def globalsOf : Option (List Byte) → UInt32 × UInt8 × UInt8
  | none => startScan.cfg.globals
  | some buf => (configParse buf startScan.cfg).2.globals

theorem scanVolume_empty (vol : FatVolume) (h0 : s.cfg.entries = []) :
    KeepsGlobals (match vol.file (lit "/sakuru.cfg") with
      | none => s.cfg.globals
      | some buf => globalsOf (some buf)) 0 (scanVolume vol s) := by
  have hnum : s.cfg.numEntries = 0 := by rw [BootConfig.numEntries, h0, List.length_nil]
  refine keepsGlobals_scans ?_
  unfold readSakuruCfg
  cases vol.file (lit "/sakuru.cfg") with
  | none =>
    refine ⟨rfl, Nat.zero_le _, ?_⟩
    show s.cfg.numEntries ≤ maxEntries
    omega
  | some buf =>
    simp only [if_pos hnum]
    exact ⟨rfl, Nat.zero_le _, doParse_numEntries_le buf false (by rw [hnum]; exact Nat.zero_le _)⟩

/-! ## All volumes -/

/-- The volume gives an empty table an entry. -/
def FatVolume.yields (vol : FatVolume) : Bool := 0 < (scanVolume vol startScan).cfg.numEntries

/-- The last `sakuru.cfg` on the volumes up to and including the first that yields an entry. -/
def governingCfg : List FatVolume → Option (List Byte)
  | [] => none
  | vol :: rest =>
    if vol.yields then vol.file (lit "/sakuru.cfg")
    else (governingCfg rest).or (vol.file (lit "/sakuru.cfg"))

/-- The first `sakuru.cfg` of all. -/
def firstCfg (vols : List FatVolume) : Option (List Byte) := vols.findSome? fun vol => vol.file (lit "/sakuru.cfg")

/-- The volumes that are scanned, in order. -/
def scannedVolumes (bootSfs : Option Handle) (vols : List FatVolume) : List FatVolume :=
  (bootFirst bootSfs vols).filter (·.mounted)

theorem scanAllFilesystems_eq (bootSfs : Option Handle) (vols : List FatVolume) (s : ScanState) :
    scanAllFilesystems bootSfs vols s = (scannedVolumes bootSfs vols).foldl (fun s vol => scanVolume vol s) s := by
  rw [scanAllFilesystems, scannedVolumes, List.foldl_filter]

theorem globals_foldl_nonempty (vs : List FatVolume) (hpos : 0 < s.cfg.numEntries)
    (hmax : s.cfg.numEntries ≤ maxEntries) :
    (vs.foldl (fun s vol => scanVolume vol s) s).cfg.globals = s.cfg.globals := by
  induction vs generalizing s with
  | nil => rfl
  | cons vol vs ih =>
    obtain ⟨hglobals, hpos', hmax'⟩ := scanVolume_nonempty vol hpos hmax
    rw [List.foldl_cons, ih hpos' hmax', hglobals]

theorem globals_foldl_empty (vs : List FatVolume) (h0 : s.cfg.entries = []) :
    (vs.foldl (fun s vol => scanVolume vol s) s).cfg.globals =
      match governingCfg vs with
      | none => s.cfg.globals
      | some buf => globalsOf (some buf) := by
  induction vs generalizing s with
  | nil => rfl
  | cons vol vs ih =>
    have hentries : (scanVolume vol s).cfg.entries = (scanVolume vol startScan).cfg.entries :=
      scanVolume_entries_of_empty h0 rfl
    obtain ⟨hglobals, -, hmax⟩ := scanVolume_empty vol h0
    rw [List.foldl_cons, governingCfg]
    by_cases hy : vol.yields = true
    · have hpos : 0 < (scanVolume vol s).cfg.numEntries := by
        rw [BootConfig.numEntries, hentries]
        exact of_decide_eq_true hy
      rw [globals_foldl_nonempty vs hpos hmax, hglobals, if_pos hy]
    · have hnil : (scanVolume vol s).cfg.entries = [] := by
        rw [hentries, ← List.length_eq_zero_iff]
        exact Nat.eq_zero_of_not_pos fun h => hy (decide_eq_true h)
      rw [ih hnil, hglobals, if_neg hy]
      cases governingCfg vs <;> rfl

/-- The globals in effect are the governing file's. -/
theorem globals_scanAllFilesystems (bootSfs : Option Handle) (vols : List FatVolume) :
    (scanAllFilesystems bootSfs vols startScan).cfg.globals =
      globalsOf (governingCfg (scannedVolumes bootSfs vols)) := by
  rw [scanAllFilesystems_eq, globals_foldl_empty _ rfl]
  cases governingCfg (scannedVolumes bootSfs vols) <;> rfl

/-- They are those of the first `sakuru.cfg` exactly when the governing file sets the same ones. -/
theorem globals_first_iff (bootSfs : Option Handle) (vols : List FatVolume) :
    (scanAllFilesystems bootSfs vols startScan).cfg.globals = globalsOf (firstCfg (scannedVolumes bootSfs vols)) ↔
      globalsOf (governingCfg (scannedVolumes bootSfs vols)) = globalsOf (firstCfg (scannedVolumes bootSfs vols)) := by
  rw [globals_scanAllFilesystems]

/-! A kernel on the boot volume turns the only `sakuru.cfg`, on the second volume, into a merge. -/

def kernelVolume : FatVolume where
  sfs := 1
  root := 11
  dir := fun path => if path = lit "/boot" then some [⟨(lit "vmlinuz").map (·.toUInt16), false⟩] else none
  file := fun _ => none
  opens := fun _ => false
  entryFile := fun _ => none

def cfgVolume : FatVolume where
  sfs := 2
  root := 12
  dir := fun _ => none
  file := fun path =>
    if path = lit "/sakuru.cfg" then some (lit "timeout = 9\n[entry:A]\nkernel=/a\n") else none
  opens := fun _ => false
  entryFile := fun _ => none

theorem cfgVolume_globals_lost :
    (scanAllFilesystems (some 1) [kernelVolume, cfgVolume] startScan).cfg.globals = (5, 5, 14) ∧
      globalsOf (firstCfg (scannedVolumes (some 1) [kernelVolume, cfgVolume])) = (9, 5, 14) ∧
      (scanAllFilesystems (some 1) [kernelVolume, cfgVolume] startScan).cfg.globals ≠
        globalsOf (firstCfg (scannedVolumes (some 1) [kernelVolume, cfgVolume])) := by
  have hdefault : (scanAllFilesystems (some 1) [kernelVolume, cfgVolume] startScan).cfg.globals = (5, 5, 14) := by
    decide
  have hfirst : globalsOf (firstCfg (scannedVolumes (some 1) [kernelVolume, cfgVolume])) = (9, 5, 14) := by
    decide
  refine ⟨hdefault, hfirst, ?_⟩
  rw [hdefault, hfirst]
  decide

end SakuruBoot

import SakuruBoot.Uefi.DiscoveryGlobals

/-!
# Loader entries that are read twice

The `.conf` files of the boot volume are read by `scan_loader_entries`, when the volume is scanned, and again by
`loader_entry_scan`. The first does not add a kernel path that is in the table, the second adds whatever names a kernel
until the table is full. `confFiles` are the files behind the entries, one for each entry; `confFiles_once_iff` says when
no file is there twice.
-/

namespace SakuruBoot
open CStr

variable {s : ScanState} {vol : FatVolume}

/-! ## The files behind the entries -/

/-- A loader entry's file: the volume's handle and the file name. -/
def Origin.confFile? : Origin → Option (Handle × List UInt16)
  | .loaderConf (.fat _ (some sfs)) file => some (sfs, file)
  | _ => none

def confFiles (s : ScanState) : List (Handle × List UInt16) := s.origins.filterMap Origin.confFile?

/-- The number of entries a file has given. -/
def contributions (s : ScanState) (file : Handle × List UInt16) : Nat := (confFiles s).count file

/-- The names in `/loader/entries`. -/
def FatVolume.confNames (vol : FatVolume) : List (List UInt16) :=
  match vol.dir (lit "/loader/entries") with
  | none => []
  | some infos => infos.map FileInfo.name

/-- Every entry has an origin, and the table is within its limit. -/
def Counted (s : ScanState) : Prop := s.origins.length = s.cfg.numEntries ∧ s.cfg.numEntries ≤ maxEntries

theorem counted_push {e : BootEntry} {ctx : FsCtx} {origin : Origin} (h : Counted s)
    (hroom : s.cfg.numEntries < maxEntries) : Counted (s.push e ctx origin) := by
  refine ⟨?_, ?_⟩
  · rw [push_numEntries, ← h.1]
    simp [ScanState.push]
  · rw [push_numEntries]
    exact hroom

/-- The files so far, of a table that is in order. -/
def HasFiles (files : List (Handle × List UInt16)) (s : ScanState) : Prop := Counted s ∧ confFiles s = files

variable {files : List (Handle × List UInt16)}

theorem hasFiles_push_kernel {e : BootEntry} {ctx v : FsCtx} {path : List Byte} (h : HasFiles files s)
    (hroom : s.cfg.numEntries < maxEntries) : HasFiles files (s.push e ctx (.kernelFile v path)) := by
  refine ⟨counted_push h.1 hroom, ?_⟩
  have hfiles : confFiles (s.push e ctx (.kernelFile v path)) = confFiles s ++ [] :=
    List.filterMap_append
  rw [hfiles, List.append_nil, h.2]

theorem hasFiles_assignCtx {cfg : BootConfig} {ctx : FsCtx} (h : HasFiles files s)
    (hgrow : s.cfg.entries <+: cfg.entries) (hmax : cfg.numEntries ≤ maxEntries) :
    HasFiles files (assignCtx s s.cfg.numEntries cfg ctx (.sakuruCfg ctx)) := by
  have hle : s.cfg.numEntries ≤ cfg.numEntries := hgrow.length_le
  have horigins : (assignCtx s s.cfg.numEntries cfg ctx (.sakuruCfg ctx)).origins =
      s.origins ++ List.replicate (cfg.numEntries - s.cfg.numEntries) (.sakuruCfg ctx) := by
    show s.origins.take s.cfg.numEntries ++ _ = _
    rw [← h.1.1, List.take_length]
  refine ⟨⟨?_, hmax⟩, ?_⟩
  · rw [horigins, List.length_append, List.length_replicate, h.1.1]
    show s.cfg.numEntries + (cfg.numEntries - s.cfg.numEntries) = cfg.numEntries
    omega
  · rw [confFiles, horigins, List.filterMap_append, List.filterMap_replicate_of_none rfl, List.append_nil]
    exact h.2

theorem hasFiles_readSakuruCfg (h : HasFiles files s) : HasFiles files (readSakuruCfg vol s) := by
  unfold readSakuruCfg
  split
  · exact h
  · rename_i buf _
    refine hasFiles_assignCtx h ?_ ?_
    · split_ifs with h0
      · rw [List.length_eq_zero_iff.mp h0]
        exact List.nil_prefix
      · exact (configParseMerge_keeps h.1.2 buf).2
    · split_ifs
      · exact doParse_numEntries_le buf false h.1.2
      · exact doParse_numEntries_le buf true h.1.2

theorem hasFiles_scanDirUefi (dirPath : List Byte) (allowEfi : Bool) (h : HasFiles files s) :
    HasFiles files (scanDirUefi vol dirPath allowEfi s) := by
  refine scanDirUefi_invariant (I := HasFiles files) (fun s d name _ hs => ?_) dirPath h
  rcases scanFile_cases vol allowEfi d s name with hc | ⟨hroom, hc⟩
  · rwa [hc]
  · rw [hc]
    exact hasFiles_push_kernel hs hroom

theorem hasFiles_scanLoaderEntries (vol : FatVolume) (h : HasFiles files s) :
    ∃ names : List (List UInt16), names.Sublist vol.confNames ∧
      HasFiles (files ++ names.map fun name => (vol.sfs, name)) (scanLoaderEntries vol s) := by
  unfold scanLoaderEntries FatVolume.confNames
  cases vol.dir (lit "/loader/entries") with
  | none => exact ⟨[], List.nil_sublist _, by simpa using h⟩
  | some infos =>
    dsimp only
    have hfold : ∀ (infos : List FileInfo) (s : ScanState) (files : List (Handle × List UInt16)), HasFiles files s →
        ∃ names : List (List UInt16), names.Sublist (infos.map FileInfo.name) ∧
          HasFiles (files ++ names.map fun name => (vol.sfs, name)) (infos.foldl (scanLoaderInfo vol) s) := by
      intro infos
      induction infos with
      | nil =>
        intro s files hs
        exact ⟨[], .slnil, by simpa using hs⟩
      | cons info infos ih =>
        intro s files hs
        rw [List.foldl_cons, List.map_cons]
        rcases scanLoaderInfo_cases vol s info with hc | ⟨hroom, cbuf, -, hc⟩
        · rw [hc]
          obtain ⟨names, hsub, hnames⟩ := ih s files hs
          exact ⟨names, hsub.cons _, hnames⟩
        · rw [hc]
          have hpush : HasFiles (files ++ [(vol.sfs, info.name)])
              (s.push (confEntry info.name cbuf) vol.ctx (.loaderConf vol.ctx info.name)) := by
            refine ⟨counted_push hs.1 hroom, ?_⟩
            have hfiles : confFiles (s.push (confEntry info.name cbuf) vol.ctx (.loaderConf vol.ctx info.name)) =
                confFiles s ++ [(vol.sfs, info.name)] := List.filterMap_append
            rw [hfiles, hs.2]
          obtain ⟨names, hsub, hnames⟩ := ih _ _ hpush
          refine ⟨info.name :: names, hsub.cons_cons _, ?_⟩
          rwa [List.append_assoc] at hnames
    obtain ⟨names, hsub, hnames⟩ := hfold (delivered 600 infos) s files h
    exact ⟨names, hsub.trans ((List.takeWhile_sublist _).map _), hnames⟩

theorem hasFiles_scanVolume (vol : FatVolume) (h : HasFiles files s) :
    ∃ names : List (List UInt16), names.Sublist vol.confNames ∧
      HasFiles (files ++ names.map fun name => (vol.sfs, name)) (scanVolume vol s) := by
  have hstart : HasFiles files { s with currentSfs := some vol.sfs } := ⟨h.1, h.2⟩
  obtain ⟨names, hsub, hnames⟩ := hasFiles_scanLoaderEntries vol (hasFiles_readSakuruCfg hstart)
  refine ⟨names, hsub, ?_⟩
  exact hasFiles_scanDirUefi _ _ (hasFiles_scanDirUefi _ _ (hasFiles_scanDirUefi _ _ hnames))

/-- Over all volumes no file is there twice. -/
theorem hasFiles_volumes {vs : List FatVolume} (hsfs : (vs.map FatVolume.sfs).Nodup)
    (hnames : ∀ v ∈ vs, v.confNames.Nodup) (h : HasFiles files s) (hnodup : files.Nodup)
    (hfresh : ∀ f ∈ files, f.1 ∉ vs.map FatVolume.sfs) :
    ∃ files', files'.Nodup ∧ HasFiles files' (vs.foldl (fun s vol => scanVolume vol s) s) := by
  induction vs generalizing s files with
  | nil => exact ⟨files, hnodup, h⟩
  | cons v vs ih =>
    obtain ⟨names, hsub, hv⟩ := hasFiles_scanVolume v h
    rw [List.map_cons, List.nodup_cons] at hsfs
    refine ih hsfs.2 (fun w hw => hnames w (by simp [hw])) hv ?_ ?_
    · have hnew : (names.map fun name => (v.sfs, name)).Nodup :=
        ((hnames v (by simp)).sublist hsub).map fun a b hab => (Prod.mk.inj hab).2
      refine List.nodup_append.mpr ⟨hnodup, hnew, ?_⟩
      rintro f hf g hg rfl
      obtain ⟨name, -, rfl⟩ := List.mem_map.mp hg
      exact hfresh _ hf (by simp)
    · intro f hf
      rcases List.mem_append.mp hf with hf | hf
      · exact fun hmem => hfresh f hf (List.mem_cons_of_mem _ hmem)
      · obtain ⟨name, -, rfl⟩ := List.mem_map.mp hf
        exact hsfs.1

theorem hasFiles_scanAllExt4 (vols : List Ext4Volume) (h : HasFiles files s) :
    HasFiles files (scanAllExt4 vols s) := by
  refine List.foldlRecOn _ _ h fun s hs vol _ => ?_
  have hcb : ∀ (dir : List Byte) (s : ScanState), HasFiles files s →
      HasFiles files ((vol.readdir dir).foldl (ext4ScanCb vol dir) s) := by
    intro dir s hs
    refine List.foldlRecOn _ _ hs fun s hs item _ => ?_
    rcases ext4ScanCb_cases vol dir s item with hc | ⟨hroom, kname, type, initrd, hc⟩
    · rwa [hc]
    · rw [hc]
      exact hasFiles_push_kernel hs hroom
  exact hcb _ _ (hcb _ _ hs)

theorem hasFiles_rescanBoot (boot : FatVolume) (h : HasFiles files s) : HasFiles files (rescanBoot boot s) := by
  unfold rescanBoot
  dsimp only
  generalize hs' : ite (s.cfg.numEntries = 0) _ s = s'
  have hcfg : HasFiles files s' := by
    rw [← hs']
    split_ifs with h0
    · split
      · exact h
      · rename_i buf _
        have hempty : s.cfg.entries <+: (configParse buf s.cfg).2.entries := by
          rw [List.length_eq_zero_iff.mp h0]
          exact List.nil_prefix
        have hassign : HasFiles files (assignCtx s s.cfg.numEntries (configParse buf s.cfg).2 boot.ctx
            (.sakuruCfg boot.ctx)) :=
          hasFiles_assignCtx h hempty (doParse_numEntries_le buf false h.1.2)
        rwa [h0] at hassign
    · exact h
  have hstart : HasFiles files { s' with currentSfs := some boot.sfs } := ⟨hcfg.1, hcfg.2⟩
  exact hasFiles_scanDirUefi _ true (hasFiles_scanDirUefi _ false hstart)

theorem hasFiles_addShell (h : HasFiles files s) : HasFiles files (addShell s) := by
  unfold addShell
  split_ifs with hroom
  · refine ⟨⟨?_, ?_⟩, ?_⟩
    · simpa [BootConfig.numEntries] using h.1.1
    · simpa [BootConfig.numEntries] using hroom
    · have hfiles : (s.origins ++ [Origin.shell]).filterMap Origin.confFile? = confFiles s ++ [] :=
        List.filterMap_append
      show (s.origins ++ [Origin.shell]).filterMap Origin.confFile? = files
      rw [hfiles, List.append_nil, h.2]
  · exact h

/-! ## The second scan -/

/-- The files `loader_entry_scan` adds: those that name a kernel, as many as there is room for. -/
def pendingConfs (root : FatVolume) (s : ScanState) : List FileInfo :=
  match root.dir (lit "/loader/entries/") with
  | none => []
  | some infos => ((delivered 592 infos).filter fun info => (entryOfFile root info).isSome).take
      (maxEntries - s.cfg.numEntries)

theorem confFiles_loaderEntryScan (root : FatVolume) (s : ScanState) :
    confFiles (loaderEntryScan root s) =
      confFiles s ++ (pendingConfs root s).map fun info => (root.sfs, info.name) := by
  unfold loaderEntryScan pendingConfs
  cases root.dir (lit "/loader/entries/") with
  | none => simp
  | some infos =>
    dsimp only
    generalize delivered 592 infos = infos
    induction infos generalizing s with
    | nil => simp
    | cons info infos ih =>
      rw [List.foldl_cons, List.filter_cons]
      by_cases hroom : s.cfg.numEntries < maxEntries
      · rw [if_pos hroom]
        cases he : entryOfFile root info with
        | none =>
          dsimp only
          rw [ih, Option.isSome_none, if_neg (by decide)]
        | some e =>
          dsimp only
          obtain ⟨k, hk⟩ : ∃ k, maxEntries - s.cfg.numEntries = k + 1 :=
            ⟨maxEntries - s.cfg.numEntries - 1, by omega⟩
          have hk' : maxEntries - (s.cfg.entries ++ [e]).length = k := by
            rw [List.length_append, List.length_singleton]
            have : s.cfg.numEntries = s.cfg.entries.length := rfl
            omega
          rw [ih, Option.isSome_some, if_pos rfl, hk, List.take_succ_cons, List.map_cons]
          show (s.origins ++ [_]).filterMap Origin.confFile? ++ _ = _
          rw [List.filterMap_append, BootConfig.numEntries]
          dsimp only
          rw [hk', List.append_assoc]
          rfl
      · have hfull : maxEntries - s.cfg.numEntries = 0 := by omega
        rw [if_neg hroom, ih, hfull, List.take_zero, List.take_zero]

/-- Whatever the table held before, no `.conf` file gives two entries exactly when no file that `loader_entry_scan`
still has room for is behind an entry already. -/
theorem confFiles_once_iff (root : FatVolume) (vols : List FatVolume) (ext4s : List Ext4Volume) (start : ScanState)
    (hstart : HasFiles [] start) (hsfs : (vols.map FatVolume.sfs).Nodup) (hnames : ∀ v ∈ vols, v.confNames.Nodup)
    (hroot : ∀ infos, root.dir (lit "/loader/entries/") = some infos → (infos.map FileInfo.name).Nodup) :
    (∀ file, contributions (discover (some root) vols ext4s start) file ≤ 1) ↔
      ∀ info ∈ pendingConfs root (addShell (scanVolumes (some root) vols ext4s start)),
        (root.sfs, info.name) ∉ confFiles (addShell (scanVolumes (some root) vols ext4s start)) := by
  -- the first scans leave every file at most once
  have hscanned : ((scannedVolumes (some root.sfs) vols).map FatVolume.sfs).Nodup := by
    refine List.Nodup.sublist (List.filter_sublist.map _) ?_
    exact ((bootFirst_perm (some root.sfs) vols).map _).nodup_iff.mpr hsfs
  have hnames' : ∀ v ∈ scannedVolumes (some root.sfs) vols, v.confNames.Nodup := fun v hv =>
    hnames v ((bootFirst_perm _ vols).mem_iff.mp (List.mem_of_mem_filter hv))
  obtain ⟨files, hnodup, hfiles⟩ := hasFiles_volumes hscanned hnames' hstart List.nodup_nil nofun
  rw [← scanAllFilesystems_eq] at hfiles
  have hbefore : HasFiles files (addShell (scanVolumes (some root) vols ext4s start)) :=
    hasFiles_addShell (hasFiles_rescanBoot root (hasFiles_scanAllExt4 ext4s hfiles))
  have hdiscover : discover (some root) vols ext4s start =
      loaderEntryScan root (addShell (scanVolumes (some root) vols ext4s start)) := rfl
  unfold contributions
  rw [← List.nodup_iff_count_le_one, hdiscover, confFiles_loaderEntryScan]
  generalize addShell (scanVolumes (some root) vols ext4s start) = s at hbefore
  have hpending : ((pendingConfs root s).map fun info => (root.sfs, info.name)).Nodup := by
    unfold pendingConfs
    cases hdir : root.dir (lit "/loader/entries/") with
    | none => simp
    | some infos =>
      dsimp only
      have hsub : (((delivered 592 infos).filter fun info => (entryOfFile root info).isSome).take
          (maxEntries - s.cfg.numEntries)).Sublist infos :=
        (List.take_sublist _ _).trans (List.filter_sublist.trans (List.takeWhile_sublist _))
      have hname := (hroot infos hdir).sublist (hsub.map FileInfo.name)
      have hpair := hname.map (f := fun name => (root.sfs, name)) fun a b hab => (Prod.mk.inj hab).2
      rwa [List.map_map] at hpair
  rw [List.nodup_append, hbefore.2]
  constructor
  · rintro ⟨-, -, hdisjoint⟩ info hinfo hmem
    exact hdisjoint _ hmem _ (List.mem_map.mpr ⟨info, hinfo, rfl⟩) rfl
  · intro hall
    refine ⟨hnodup, hpending, ?_⟩
    rintro f hf g hg rfl
    obtain ⟨info, hinfo, rfl⟩ := List.mem_map.mp hg
    exact hall info hinfo hf

/-! One loader entry on the boot volume: it is added by both scans. -/

def archConf : List UInt16 := (lit "arch.conf").map (·.toUInt16)

def confVolume : FatVolume where
  sfs := 3
  root := 13
  dir := fun path =>
    if path = lit "/loader/entries" ∨ path = lit "/loader/entries/" then some [⟨archConf, false⟩] else none
  file := fun path =>
    if path = lit "/loader/entries/arch.conf" then some (lit "title Arch\nlinux /vmlinuz\n") else none
  opens := fun _ => false
  entryFile := fun name => if name = archConf then some (lit "title Arch\nlinux /vmlinuz\n") else none

theorem hasFiles_start : HasFiles [] startScan := ⟨⟨rfl, Nat.zero_le _⟩, rfl⟩

theorem confFiles_once_arch :
    (∀ file, contributions (discover (some confVolume) [confVolume] [] startScan) file ≤ 1) ↔
      ∀ info ∈ pendingConfs confVolume (addShell (scanVolumes (some confVolume) [confVolume] [] startScan)),
        (confVolume.sfs, info.name) ∉
          confFiles (addShell (scanVolumes (some confVolume) [confVolume] [] startScan)) := by
  refine confFiles_once_iff confVolume [confVolume] [] startScan hasFiles_start (by decide) ?_ ?_
  · intro v hv
    rw [List.mem_singleton.mp hv]
    decide
  · intro infos hinfos
    have hone : infos = [⟨archConf, false⟩] := by
      have hdir : confVolume.dir (lit "/loader/entries/") = some [⟨archConf, false⟩] := by decide
      exact (Option.some.inj (hdir.symm.trans hinfos)).symm
    rw [hone]
    decide

theorem archConf_twice :
    contributions (discover (some confVolume) [confVolume] [] startScan) (3, archConf) = 2 ∧
      ¬∀ file, contributions (discover (some confVolume) [confVolume] [] startScan) file ≤ 1 := by
  have htwo : contributions (discover (some confVolume) [confVolume] [] startScan) (3, archConf) = 2 := by
    decide
  refine ⟨htwo, fun h => ?_⟩
  have hone := h (3, archConf)
  omega

end SakuruBoot

import SakuruBoot.Bios.Stage2

/-!
# Cold boots

From the bytes of a disk to the call of `loader->boot`. With nobody at the keyboard the default entry of `/sakuru.cfg` is
loaded when its countdown ends: the Linux loader gets the kernel file and the initrd file whole, and its `boot` is called
with the 64-bit entry point (`stage2_unattended`). In memory that is apart from the loader's buffers the files and the
command line are then where the boot protocol has them (`unattended_image`). A Windows entry has the boot record of the
first active Windows partition, or of the first one when none is active, stored at 0x7C00 (`stage2_windows`).
-/

namespace SakuruBoot
open CStr Bytes Memory Fat

variable {x : Stage2} {vol : FatVol}

/-! ## The boot table -/

theorem discover_table (hmax : (x.readConfig vol).1.numEntries ≤ maxEntries) : ∃ more, (x.discover vol).1 =
    { (x.readConfig vol).1 with entries := (x.readConfig vol).1.entries ++ more } := by
  obtain ⟨cs, rs, -, hcfg, hfits, -⟩ := scanDir_offers vol x.stack 2 bootDir 0 ((x.readConfig vol).2.bufs,
    { pool := (x.readConfig vol).2.pool, used := (x.readConfig vol).2.used, cfg := (x.readConfig vol).1, clock := 0,
      calls := [] })
  rw [addKernels_table _ hfits, Table.foldl_add (fun r _ => path_entry r) hmax] at hcfg
  exact ⟨_, hcfg⟩

/-- The table that the first 4095 bytes of a file make. -/
def Stage2.tableOf (x : Stage2) (e : DirEntry) : BootConfig :=
  (configParse ((content x.disk (findFat32Partition x.disk) e).take 4095) (initialConfig x.theme x.accent)).2

theorem readConfig_content (hvol : ValidVolume x.disk (findFat32Partition x.disk) vol) {e : DirEntry}
    (hres : vol.resolve x.cfgJunk Stage2.configFile = some e)
    (hchain : ChainOk x.disk (findFat32Partition x.disk) e.firstCluster e.fileSize) :
    (x.readConfig vol).1 = x.tableOf e := by
  obtain ⟨h, s', hopen, -, hread, -, -⟩ := open_content hvol (s := x.fat) hres hchain ⟨⟨0, Nat.zero_lt_succ 7⟩, rfl⟩
  rw [Stage2.readConfig, hopen]
  dsimp only
  rw [hread, Stage2.tableOf]

theorem readConfig_numEntries_le : (x.readConfig vol).1.numEntries ≤ maxEntries := by
  rw [Stage2.readConfig]
  rcases vol.fatOpen x.fat x.cfgJunk Stage2.configFile with ⟨_ | h, s'⟩
  · exact Nat.zero_le _
  · exact doParse_numEntries_le _ false (Nat.zero_le _)

/-! ## Behind the menu -/

theorem stage2Main_chosen (hpart : findFat32Partition x.disk ≠ 0)
    (hinit : fatInit x.disk (findFat32Partition x.disk) = some vol)
    {sel n : Nat} {entry : BootEntry} (hentry : (x.discover vol).1.entries[sel]? = some entry)
    (hmenu : (menuRun (x.discover vol).1 biosMenuOps (readKeys x.polls n 0).1).2 = some (sel : Int)) :
    ∃ screen, stage2Main x n = some (x.bootEntry vol (x.discover vol).2 entry screen) := by
  obtain ⟨hlt, hget⟩ := List.getElem?_eq_some_iff.mp hentry
  have hne : ¬(x.discover vol).1.numEntries = 0 := fun h => by
    have : (x.discover vol).1.entries.length = 0 := h
    omega
  have hchosen : x.entry (x.discover vol).1 (sel : Int) = entry := by
    rw [Stage2.entry, if_pos (Int.natCast_nonneg sel), Int.toNat_natCast, List.getD_eq_getElem _ _ hlt, hget]
  unfold stage2Main
  dsimp only
  rw [if_neg hpart, hinit]
  dsimp only
  rw [if_neg hne, hmenu, Option.map_some, hchosen]
  exact ⟨_, rfl⟩

/-- A Linux entry whose files are on the volume. -/
structure LinuxOnDisk (x : Stage2) (vol : FatVol) (entry : BootEntry) (kernel : DirEntry) : Prop where
  type : entry.type = .linux
  found : vol.resolve x.kernelJunk entry.kernel = some kernel
  chain : ChainOk x.disk (findFat32Partition x.disk) kernel.firstCluster kernel.fileSize
  bootable : BootableKernel (content x.disk (findFat32Partition x.disk) kernel)
  initrd : ∀ e, vol.resolve x.initrdJunk entry.initrd = some e →
    ChainOk x.disk (findFat32Partition x.disk) e.firstCluster e.fileSize

/-- The Linux loader's `boot` is called with the 64-bit entry point, and the loader had the files of the entry to load it
from. -/
structure CallsLinux (x : Stage2) (vol : FatVol) (entry : BootEntry) (kernel : DirEntry) (out : Stage2Out) : Prop where
  call : out.result = .callsBoot .linux entry 0x100200
  files : ∃ f, (linuxReadFiles vol x.kernelJunk x.initrdJunk
      { fat := (x.discover vol).2, kernelBuf := x.linuxKernel, initrdBuf := x.linuxInitrd } entry).1 = some f ∧
    HoldsFiles (content x.disk (findFat32Partition x.disk) kernel)
      (initrdOf x.disk (findFat32Partition x.disk) vol x.initrdJunk entry.initrd) f

theorem bootEntry_linux (hvol : ValidVolume x.disk (findFat32Partition x.disk) vol) {entry : BootEntry} {kernel : DirEntry}
    (h : LinuxOnDisk x vol entry kernel) (screen : List MenuEvent) :
    CallsLinux x vol entry kernel (x.bootEntry vol (x.discover vol).2 entry screen) ∧
      LinuxImage (bytesOf (content x.disk (findFat32Partition x.disk) kernel)) kernel.fileSize
        (setupOf (content x.disk (findFat32Partition x.disk) kernel))
        (initrdOf x.disk (findFat32Partition x.disk) vol x.initrdJunk entry.initrd) (strCopy entry.cmdline 2048)
        (x.bootEntry vol (x.discover vol).2 entry screen).machine.mem := by
  have hloader : findLoader entry = some .linux := findLoader_eq_some_iff.mpr (decide_eq_true h.type)
  obtain ⟨f, st', hfiles, hhas, hload, himage⟩ := @linuxLoad_image x.disk (findFat32Partition x.disk) vol hvol x.kernelJunk
    x.initrdJunk { fat := (x.discover vol).2, kernelBuf := x.linuxKernel, initrdBuf := x.linuxInitrd } entry kernel
    ⟨⟨0, Nat.zero_lt_succ 7⟩, congrFun (discover_used x vol) _⟩ h.found h.chain h.bootable h.initrd x.mem
  have hret : (x.load vol (x.discover vol).2 entry .linux).1 = 0x100200 := congrArg (fun r => r.1.ret) hload
  have hmem : (x.load vol (x.discover vol).2 entry .linux).2.1 = (linuxSetup f entry.cmdline x.machine).mem :=
    congrArg (fun r => r.1.mem) hload
  unfold Stage2.bootEntry
  rw [hloader]
  dsimp only
  rw [hret, if_neg (by decide), hmem]
  exact ⟨⟨rfl, f, congrArg Prod.fst hfiles, hhas⟩, himage⟩

/-! ## Nobody at the keyboard -/

theorem readKeys_quiet {polls : Nat → Poll} {n pos : Nat}
    (hquiet : ∀ i, pos ≤ i → i < pos + n * kbdPolls → (polls i).key = none) :
    (readKeys polls n pos).1 = List.replicate n (-1) := by
  induction n generalizing pos with
  | zero => rfl
  | succ n ih =>
    rw [Nat.succ_mul] at hquiet
    rcases @kbdLoop_spec polls kbdPolls pos with ⟨i, key, hle, hlt, -, hpress, -⟩ | ⟨-, hresult⟩
    · rw [hquiet i hle (by omega)] at hpress
      cases hpress
    · rw [readKeys, kbdReadKey, hresult, List.replicate_succ]
      dsimp only
      rw [ih fun i hle hlt => hquiet i (by omega) (by omega)]

/-- The default entry of `/sakuru.cfg` is a Linux entry on the disk, and its timeout counts. -/
structure DefaultLinux (x : Stage2) (vol : FatVol)
    (config : DirEntry) (entry : BootEntry) (kernel : DirEntry) (timeout : Nat) :
    Prop where
  part : findFat32Partition x.disk ≠ 0
  valid : ValidVolume x.disk (findFat32Partition x.disk) vol
  file : vol.resolve x.cfgJunk Stage2.configFile = some config
  chain : ChainOk x.disk (findFat32Partition x.disk) config.firstCluster config.fileSize
  timeout : i32 (x.tableOf config).timeout.toNat = (timeout + 1 : Nat)
  default : (x.tableOf config).entries[(x.tableOf config).defaultEntry.toNat]? = some entry
  linux : LinuxOnDisk x vol entry kernel

/-- With no key pressed before the countdown ends, stage 2 takes the default entry of the table on the disk. -/
theorem stage2Main_default {config kernel : DirEntry} {entry : BootEntry} {timeout : Nat}
    (h : DefaultLinux x vol config entry kernel timeout)
    (hquiet : ∀ i < (timeout + 1) * kbdPolls, (x.polls i).key = none) :
    ∃ screen, stage2Main x (timeout + 1) = some (x.bootEntry vol (x.discover vol).2 entry screen) := by
  have hread := readConfig_content h.valid h.file h.chain
  have hmax := @readConfig_numEntries_le x vol
  obtain ⟨more, htable⟩ := discover_table hmax
  have htimeout := h.timeout
  have hdefault := h.default
  rw [← hread] at htimeout hdefault
  generalize x.readConfig vol = c at htable htimeout hdefault hmax
  obtain ⟨hlt, hget⟩ := List.getElem?_eq_some_iff.mp hdefault
  -- the table discovery leaves has the same default, at the same place
  have hentry : (x.discover vol).1.entries[c.1.defaultEntry.toNat]? = some entry := by
    rw [htable, List.getElem?_append_left hlt]
    exact hdefault
  have hne : (x.discover vol).1.numEntries ≠ 0 := by
    have hlt' := (List.getElem?_eq_some_iff.mp hentry).1
    intro hzero
    have : (x.discover vol).1.entries.length = 0 := hzero
    omega
  have hmenu : (menuRun (x.discover vol).1 biosMenuOps (readKeys x.polls (timeout + 1) 0).1).2 =
      some (c.1.defaultEntry.toNat : Int) := by
    have hcount : (timeout + 1 : Nat) = i32 (x.discover vol).1.timeout.toNat := by
      rw [htable]
      exact htimeout.symm
    have hwidth : i32 (x.discover vol).1.defaultEntry.toNat = c.1.defaultEntry.toNat := by
      have hsmall : c.1.entries.length ≤ 16 := hmax
      rw [htable]
      have hbound : c.1.defaultEntry.toNat < 2 ^ 31 := by omega
      exact i32_of_bounds (Int.le_trans (by decide) (Int.natCast_nonneg _)) (Int.ofNat_lt.mpr hbound)
    rw [readKeys_quiet fun i _ hi => hquiet i (by omega), menuRun_timeout hne hcount, hwidth]
  exact stage2Main_chosen h.part h.valid.init_eq hentry hmenu

/-- With no key pressed before the countdown ends, stage 2 loads the default entry of the table on the disk and calls the
`boot` of the Linux loader. -/
theorem stage2_unattended {config kernel : DirEntry} {entry : BootEntry} {timeout : Nat}
    (h : DefaultLinux x vol config entry kernel timeout)
    (hquiet : ∀ i < (timeout + 1) * kbdPolls, (x.polls i).key = none) :
    ∃ out, stage2Main x (timeout + 1) = some out ∧ CallsLinux x vol entry kernel out := by
  obtain ⟨screen, hmain⟩ := stage2Main_default h hquiet
  exact ⟨_, hmain, (bootEntry_linux h.valid h.linux screen).1⟩

/-- In memory that is apart from the loader's buffers, `linux_load` has left an image of the files. -/
theorem unattended_image {config kernel : DirEntry} {entry : BootEntry} {timeout : Nat}
    (h : DefaultLinux x vol config entry kernel timeout)
    (hquiet : ∀ i < (timeout + 1) * kbdPolls, (x.polls i).key = none) :
    ∃ out, stage2Main x (timeout + 1) = some out ∧
      LinuxImage (bytesOf (content x.disk (findFat32Partition x.disk) kernel)) kernel.fileSize
        (setupOf (content x.disk (findFat32Partition x.disk) kernel))
        (initrdOf x.disk (findFat32Partition x.disk) vol x.initrdJunk entry.initrd) (strCopy entry.cmdline 2048)
        out.machine.mem := by
  obtain ⟨screen, hmain⟩ := stage2Main_default h hquiet
  exact ⟨_, hmain, (bootEntry_linux h.valid h.linux screen).2⟩

/-! The volume of `coldDisk`, whose default entry is a Linux one. -/

def configEntry : DirEntry := coldFile "SAKURU  CFG" 3 64
def kernelFile : DirEntry := coldFile "K          " 4 1024

def idle : Nat → Poll := fun _ => ⟨0, 0⟩

theorem tableOf_cold (polls : Nat → Poll) :
    (coldStart polls).tableOf configEntry = (configParse coldText (initialConfig 0 0)).2 := by
  have hcontent : (content coldDisk 1 configEntry).take 4095 = coldText := by decide
  show (configParse ((content coldDisk (findFat32Partition coldDisk) configEntry).take 4095) _).2 = _
  rw [coldDisk_part, hcontent]
  rfl

theorem chainOk_cold {first size : Nat} (hsize : size ≤ 1024) (hfirst : isCluster first = true ∧ first < 128) :
    ChainOk coldDisk 1 first size := by
  intro i hi
  have hcluster : clusterSize coldDisk 1 = 1024 := by decide
  have hfat : fatSectors coldDisk 1 = 1 := by decide
  rw [hcluster] at hi
  obtain rfl : i = 0 := by omega
  rw [hfat]
  exact hfirst

theorem bootableKernel_cold : BootableKernel (content coldDisk 1 kernelFile) := by
  have hsetup : setupOf (content coldDisk 1 kernelFile) = 1024 := by decide +kernel
  have hlen : (content coldDisk 1 kernelFile).length = 1024 := by decide +kernel
  exact ⟨by omega, by omega, by decide +kernel⟩

theorem defaultLinux_cold : DefaultLinux (coldStart idle) coldVol configEntry linuxChoice kernelFile 0 := by
  have htable := tableOf_cold idle
  have hpart : findFat32Partition (coldStart idle).disk = 1 := coldDisk_part
  refine ⟨by rw [hpart]; decide, hpart ▸ coldVol_valid, by decide,
    hpart ▸ chainOk_cold (by decide) (by decide), ?_, ?_,
    ⟨rfl, by decide, hpart ▸ chainOk_cold (by decide) (by decide), hpart ▸ bootableKernel_cold, nofun⟩⟩
  · rw [htable]
    decide
  · have hentries : (configParse coldText (initialConfig 0 0)).2.entries = [linuxChoice, windowsChoice] := by
      decide
    have hdefault : (configParse coldText (initialConfig 0 0)).2.defaultEntry = 0 := by decide
    rw [htable, hentries, hdefault]
    rfl

theorem stage2_unattended_cold : ∃ out, stage2Main (coldStart idle) 1 = some out ∧
    CallsLinux (coldStart idle) coldVol linuxChoice kernelFile out :=
  stage2_unattended defaultLinux_cold fun _ _ => show (Poll.mk 0 0).key = none by decide

/-! ## The Windows entry -/

/-- For a chosen Windows entry the boot record of the target is stored at 0x7C00, nothing else is, and the `boot` of the
Windows loader is called with that address. The run halts, with the memory as it was, when no Windows partition has an LBA
or the target's sector is not a boot record. -/
theorem stage2_windows (hpart : findFat32Partition x.disk ≠ 0)
    (hinit : fatInit x.disk (findFat32Partition x.disk) = some vol)
    {sel n : Nat} {entry : BootEntry} (hentry : (x.discover vol).1.entries[sel]? = some entry)
    (hmenu : (menuRun (x.discover vol).1 biosMenuOps (readKeys x.polls n 0).1).2 = some (sel : Int))
    (hwindows : entry.type = .windows) :
    ∃ out, stage2Main x n = some out ∧
      (∀ vbr, winRecord x.disk = some vbr →
        out.result = .callsBoot .windows entry vbrLoadAddr ∧ out.machine.mem = withRecord vbr x.mem) ∧
      (winRecord x.disk = none →
        out.result = .halt (lit "ERROR: Kernel load failed\r\n") ∧ out.machine.mem = x.mem) := by
  obtain ⟨screen, hmain⟩ := stage2Main_chosen hpart hinit hentry hmenu
  have hloader : findLoader entry = some .windows := findLoader_eq_some_iff.mpr (decide_eq_true hwindows)
  refine ⟨_, hmain, fun vbr hrecord => ?_, fun hrecord => ?_⟩
  · obtain ⟨hret, hmem⟩ := windowsLoad_of_record hrecord x.machine
    unfold Stage2.bootEntry
    rw [hloader]
    dsimp only [Stage2.load]
    rw [hret, if_neg (by decide)]
    exact ⟨rfl, hmem⟩
  · unfold Stage2.bootEntry
    rw [hloader]
    dsimp only [Stage2.load]
    rw [windowsLoad_of_none hrecord, if_pos rfl]
    exact ⟨rfl, rfl⟩

/-- The volume itself is an active partition of a Windows type, and its boot sector a boot record. -/
theorem stage2_windows_cold : (winRecord coldDisk).isSome ∧ ∃ out, stage2Main (coldStart pollDown) 2 = some out ∧
    (∀ vbr, winRecord coldDisk = some vbr →
      out.result = .callsBoot .windows windowsChoice vbrLoadAddr ∧ out.machine.mem = withRecord vbr fun _ => 0) ∧
    (winRecord coldDisk = none →
      out.result = .halt (lit "ERROR: Kernel load failed\r\n") ∧ out.machine.mem = fun _ => 0) :=
  ⟨by decide +kernel, stage2_windows (coldDisk_part.symm ▸ Nat.one_ne_zero)
    (coldDisk_part.symm ▸ coldVol_valid.init_eq) (by rw [discover_cold]; rfl) menuRun_cold rfl⟩

end SakuruBoot

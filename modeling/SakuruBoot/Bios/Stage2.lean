import SakuruBoot.Bios.Keyboard
import SakuruBoot.Bios.MenuScreen
import SakuruBoot.Bios.ScanRun
import SakuruBoot.Common.Selection
import SakuruBoot.Os.BiosLoad
import SakuruBoot.Os.LinuxHandoff
import SakuruBoot.Os.OsLoader

/-!
# Stage 2 from the disk to the kernel (`stage2_main`)

`stage2Main` is a run of stage 2 on a disk and a keyboard: it finds the FAT32 partition, makes the boot table of
`/sakuru.cfg` and of what lies under `/boot`, runs the menu, loads the entry chosen and calls its loader's `boot`. Every
file it opens it closes (`stage2_closes_files`), so it never runs out of handles.
-/

namespace SakuruBoot
open CStr Bytes Memory Fat

/-! ## The FAT32 partition -/

def findFat32Partition (d : Disk) : Nat :=
  let mbr := diskRead d 0 1
  match (List.range 4).find? fun i => partType mbr i == 0x0B || partType mbr i == 0x0C with
  | some i => partLba mbr i
  | none => 0

/-! ## The run -/

/-- What stage 2 starts from: the disk and the keyboard, the memory and the static buffers, and what is in the memory that
it reads without having written it (the stack, the colours of the table, and what lies behind the table). -/
structure Stage2 where
  disk : Disk
  polls : Nat → Poll
  mem : Nat → Byte
  pool : FatHandle → FatFile
  bufs : Bufs
  kernelBuf : KernelBuf
  linuxKernel : Staging
  linuxInitrd : Staging
  theme : UInt8
  accent : UInt8
  stale : Int → BootEntry
  /-- The lookups of `fat_open`, for the table, the kernel and the initrd, and those of discovery. -/
  cfgJunk : Nat → List Byte
  kernelJunk : Nat → List Byte
  initrdJunk : Nat → List Byte
  stack : Nat → Stack

/-- How a run ends: in the halt loop, or with the call of `loader->boot`, which is not followed any further. -/
inductive Stage2End
  | halt (message : List Byte)
  | callsBoot (loader : Loader) (entry : BootEntry) (entryPoint : Nat)

/-- `machine` is what the loader has stored outside its own static data. -/
structure Stage2Out where
  screen : List MenuEvent
  fat : FatState
  machine : Machine
  result : Stage2End

namespace Stage2

variable (x : Stage2)

/-- No file is open. -/
def fat : FatState := { pool := x.pool, used := fun _ => false, bufs := x.bufs }

def machine : Machine := ⟨x.mem, [], []⟩

def configFile : List Byte := lit "/sakuru.cfg"

/-- "Read sakuru.cfg if present". -/
def readConfig (vol : FatVol) : BootConfig × FatState :=
  match vol.fatOpen x.fat x.cfgJunk configFile with
  | (none, s) => (initialConfig x.theme x.accent, s)
  | (some cf, s) =>
    let r := vol.fatRead s (some cf) 4095
    ((configParse r.1 (initialConfig x.theme x.accent)).2, fatClose r.2 (some cf))

/-- The boot table and the driver behind "Auto-discover kernels under /boot/". -/
def discover (vol : FatVol) : BootConfig × FatState :=
  let c := x.readConfig vol
  let r := scanDir vol x.stack 2 bootDir 0
    (c.2.bufs, { pool := c.2.pool, used := c.2.used, cfg := c.1, clock := 0, calls := [] })
  (r.2.cfg, { pool := r.2.pool, used := r.2.used, bufs := r.1 })

/-- `&config.entries[sel]`. -/
def entry (cfg : BootConfig) (sel : Int) : BootEntry :=
  if 0 ≤ sel then cfg.entries.getD sel.toNat (x.stale sel) else x.stale sel

/-- `loader->load`. -/
def load (vol : FatVol) (fat : FatState) (entry : BootEntry) : Loader → Nat × Machine × FatState
  | .vios =>
    let r := viosLoad vol x.kernelJunk fat entry x.kernelBuf x.mem
    (r.1.1, r.1.2, r.2)
  | .linux =>
    let r := linuxLoad vol x.kernelJunk x.initrdJunk
      { fat := fat, kernelBuf := x.linuxKernel, initrdBuf := x.linuxInitrd } entry x.machine
    (r.1.ret, r.1.mem, r.2.fat)
  | .windows => ((windowsLoad x.disk x.machine).1, (windowsLoad x.disk x.machine).2, fat)

/-- Behind the menu. -/
def bootEntry (vol : FatVol) (fat : FatState) (entry : BootEntry) (screen : List MenuEvent) : Stage2Out :=
  let screen := screen ++ [.print (lit "\r\nLoading: "), .print entry.name, .print (lit "\r\n")]
  match findLoader entry with
  | none => ⟨screen, fat, x.machine, .halt (lit "ERROR: No loader for this kernel type\r\n")⟩
  | some loader =>
    let r := x.load vol fat entry loader
    if r.1 = 0 then ⟨screen, r.2.2, r.2.1, .halt (lit "ERROR: Kernel load failed\r\n")⟩
    else ⟨screen, r.2.2, r.2.1, .callsBoot loader entry r.1⟩

def greeting : List MenuEvent :=
  [.clear, .print (lit "SakuruBoot Stage 2 " ++ [0xE2, 0x80, 0x94] ++ lit " BIOS Edition\r\n")]

end Stage2

/-- `stage2_main`, when the menu returns on one of the first `n` keys and timeouts. -/
def stage2Main (x : Stage2) (n : Nat) : Option Stage2Out :=
  let part := findFat32Partition x.disk
  if part = 0 then some ⟨Stage2.greeting, x.fat, x.machine, .halt (lit "ERROR: No FAT32 partition found\r\n")⟩
  else
    match fatInit x.disk part with
    | none => some ⟨Stage2.greeting, x.fat, x.machine, .halt (lit "ERROR: FAT32 init failed\r\n")⟩
    | some vol =>
      let c := x.discover vol
      if c.1.numEntries = 0 then some ⟨Stage2.greeting, c.2, x.machine, .halt (lit "ERROR: No boot entries found\r\n")⟩
      else
        let menu := menuRun c.1 biosMenuOps (readKeys x.polls n 0).1
        menu.2.map fun sel => x.bootEntry vol c.2 (x.entry c.1 sel) (Stage2.greeting ++ menu.1.out)

/-! ## Handles -/

section Handles

variable (vol : FatVol) (stack : Nat → Stack)

theorem open_close_used (s : FatState) (junk : Nat → List Byte) (path : List Byte) :
    (fatClose (vol.fatOpen s junk path).2 (vol.fatOpen s junk path).1).used = s.used := by
  rcases fatOpen_cases vol s junk path with ⟨b, hopen, -⟩ | ⟨i, e, b, -, hfree, hopen⟩
  · rw [hopen]
    rfl
  · rw [hopen]
    show Function.update (Function.update s.used i true) i false = s.used
    rw [Function.update_idem, ← hfree, Function.update_eq_self]

theorem open_read_close_used {s s' : FatState} {junk : Nat → List Byte} {path : List Byte} {h : FatHandle}
    (hopen : vol.fatOpen s junk path = (some h, s')) (len : Nat) :
    (fatClose (vol.fatRead s' (some h) len).2 (some h)).used = s.used := by
  have hclosed := open_close_used vol s junk path
  rw [hopen] at hclosed
  show Function.update (vol.fatRead s' (some h) len).2.used h false = s.used
  rw [fatRead_used]
  exact hclosed

theorem probeInitrd_used (dir : List Byte) (candidates : List (List Byte)) (st : Bufs × Scan) :
    (probeInitrd vol stack dir candidates st).2.2.used = st.2.used := by
  induction candidates generalizing st with
  | nil => rfl
  | cons candidate candidates ih =>
    have hused := open_close_used vol ⟨st.2.pool, st.2.used, st.1⟩ (stack st.2.clock).lookup
      (pathJoin dir candidate maxStrLen)
    rw [probeInitrd]
    dsimp only
    split_ifs
    · exact hused
    · exact (ih _).trans hused

theorem scanKernel_used (dir name : List Byte) (st : Bufs × Scan) :
    (scanKernel vol stack dir name st).2.used = st.2.used := by
  rw [scanKernel]
  dsimp only
  by_cases hunknown : configGuessType name = .unknown
  · rw [if_pos hunknown]
  · rw [if_neg hunknown]
    by_cases hlinux : configGuessType name = .linux
    · rw [if_pos hlinux]
      exact probeInitrd_used vol stack dir scanCandidates st
    · rw [if_neg hlinux]

theorem scanDir_used (n : Nat) (path : List Byte) (depth : Nat) (st : Bufs × Scan) :
    (scanDir vol stack n path depth st).2.used = st.2.used := by
  induction n generalizing path depth st with
  | zero => rfl
  | succ n ih =>
    rw [scanDir]
    dsimp only
    refine fatReaddir_rel (R := fun x y : Scan => y.used = x.used) (fun _ => rfl) (fun _ _ _ h h' => h'.trans h)
      (fun name isDir st => ?_) _ _ path (st.1, { st.2 with clock := st.2.clock + 1 })
    cases isDir with
    | false => exact scanKernel_used vol stack _ name _
    | true =>
      rw [scanCb, if_pos rfl]
      split_ifs
      · rfl
      · exact ih _ _ _

theorem linuxReadInitrd_used (junk : Nat → List Byte) (st : LinuxState) (initrd : List Byte) :
    (linuxReadInitrd vol junk st initrd).2.fat.used = st.fat.used := by
  rw [linuxReadInitrd]
  split
  · rfl
  · have hclosed := open_close_used vol st.fat junk initrd
    have hread := fun h s' hopen => @open_read_close_used vol st.fat s' junk initrd h hopen
    rcases hopen : vol.fatOpen st.fat junk initrd with ⟨_ | h, s'⟩
    · rw [hopen] at hclosed
      exact hclosed
    · rw [hopen] at hclosed
      dsimp only
      split
      · exact hread h s' hopen _
      · exact hclosed

theorem linuxLoad_used (junk junk' : Nat → List Byte) (st : LinuxState) (entry : BootEntry) (m : Machine) :
    (linuxLoad vol junk junk' st entry m).2.fat.used = st.fat.used := by
  have hfiles : (linuxReadFiles vol junk junk' st entry).2.fat.used = st.fat.used := by
    rw [linuxReadFiles_eq]
    have hclosed := open_close_used vol st.fat junk entry.kernel
    rcases hopen : vol.fatOpen st.fat junk entry.kernel with ⟨_ | h, s'⟩
    · rw [hopen] at hclosed
      exact hclosed
    · rw [hopen] at hclosed
      dsimp only
      split
      · exact hclosed
      · rw [linuxReadInitrd_used]
        exact open_read_close_used vol hopen _
  rw [linuxLoad]
  rcases hread : linuxReadFiles vol junk junk' st entry with ⟨_ | f, st'⟩
  · rw [hread] at hfiles
    exact hfiles
  · rw [hread] at hfiles
    dsimp only
    split <;> exact hfiles

theorem viosLoad_used (junk : Nat → List Byte) (s : FatState) (entry : BootEntry) (k : KernelBuf) (mem : Nat → Byte) :
    (viosLoad vol junk s entry k mem).2.used = s.used := by
  have hfile : (readKernelBios vol junk s entry.kernel).2.used = s.used := by
    rw [readKernelBios]
    have hclosed := open_close_used vol s junk entry.kernel
    rcases hopen : vol.fatOpen s junk entry.kernel with ⟨_ | h, s'⟩
    · rw [hopen] at hclosed
      exact hclosed
    · rw [hopen] at hclosed
      dsimp only
      split
      · exact open_read_close_used vol hopen _
      · exact hclosed
  rw [viosLoad]
  rcases hread : readKernelBios vol junk s entry.kernel with ⟨_ | f, s'⟩
  · rw [hread] at hfile
    exact hfile
  · rw [hread] at hfile
    dsimp only
    split <;> exact hfile

end Handles

/-! ## Every file is closed again -/

variable (x : Stage2)

theorem readConfig_used (vol : FatVol) : (x.readConfig vol).2.used = fun _ => false := by
  have hclosed := open_close_used vol x.fat x.cfgJunk Stage2.configFile
  rw [Stage2.readConfig]
  rcases hopen : vol.fatOpen x.fat x.cfgJunk Stage2.configFile with ⟨_ | h, s'⟩
  · rw [hopen] at hclosed
    exact hclosed
  · exact open_read_close_used vol hopen _

theorem discover_used (vol : FatVol) : (x.discover vol).2.used = fun _ => false :=
  (scanDir_used vol x.stack 2 bootDir 0 _).trans (readConfig_used x vol)

theorem load_used (vol : FatVol) (fat : FatState) (entry : BootEntry) (loader : Loader) :
    (x.load vol fat entry loader).2.2.used = fat.used := by
  cases loader with
  | vios => exact viosLoad_used vol _ _ _ _ _
  | linux => exact linuxLoad_used vol _ _ _ _ _
  | windows => rfl

theorem bootEntry_used (vol : FatVol) (fat : FatState) (entry : BootEntry) (screen : List MenuEvent) :
    (x.bootEntry vol fat entry screen).fat.used = fat.used := by
  unfold Stage2.bootEntry
  dsimp only
  cases findLoader entry with
  | none => rfl
  | some loader =>
    dsimp only
    split <;> exact load_used x vol fat entry loader

/-- However a run of stage 2 ends, no file is open: when the table is read, when a loader opens its files, and at the end
all eight handles are free. -/
theorem stage2_closes_files (n : Nat) :
    (∀ vol, fatInit x.disk (findFat32Partition x.disk) = some vol →
      (x.readConfig vol).2.used = (fun _ => false) ∧ (x.discover vol).2.used = fun _ => false) ∧
    ∀ out, stage2Main x n = some out → out.fat.used = fun _ => false := by
  refine ⟨fun vol _ => ⟨readConfig_used x vol, discover_used x vol⟩, fun out hout => ?_⟩
  unfold stage2Main at hout
  dsimp only at hout
  split at hout
  · rw [← Option.some.inj hout]
    rfl
  · cases hinit : fatInit x.disk (findFat32Partition x.disk) with
    | none =>
      rw [hinit] at hout
      rw [← Option.some.inj hout]
      rfl
    | some vol =>
      rw [hinit] at hout
      dsimp only at hout
      split at hout
      · rw [← Option.some.inj hout]
        exact discover_used x vol
      · obtain ⟨sel, -, rfl⟩ := Option.map_eq_some_iff.mp hout
        exact (bootEntry_used x vol _ _ _).trans (discover_used x vol)

/-! A boot sector in front of a volume with `/sakuru.cfg` and the kernel `/K`. -/

def coldText : List Byte := lit "timeout=1\n[entry:A]\ntype=linux\nkernel=/K\n[entry:B]\ntype=windows\n"

def coldFile (name : String) (cluster size : Nat) : DirEntry :=
  lit name ++ [0x20] ++ List.replicate 14 0 ++ le 2 cluster ++ le 4 size

def coldDisk : Disk := .ofSectors
  [List.replicate 446 0 ++ [0x80, 0, 0, 0, 0x0C, 0, 0, 0] ++ le 4 1 ++ le 4 16,
    List.replicate 11 0 ++ le 2 512 ++ [2] ++ le 2 1 ++ [1] ++ List.replicate 15 0 ++ le 4 16 ++ le 4 1 ++
      List.replicate 4 0 ++ le 4 2 ++ List.replicate 462 0 ++ [0x55, 0xAA],
    le 4 0x0FFFFFF8 ++ le 4 0x0FFFFFFF ++ le 4 0x0FFFFFFF ++ le 4 0x0FFFFFFF ++ le 4 0x0FFFFFFF,
    coldFile "SAKURU  CFG" 3 64 ++ coldFile "K          " 4 1024, [], coldText, [],
    (bzImage 1).take 512, (bzImage 1).drop 512]

def coldVol : FatVol :=
  { disk := coldDisk, totalSectors32 := 16, fatStart := 2, dataStart := 3, rootCluster := 2, spc := 2 }

def coldStart (polls : Nat → Poll) : Stage2 where
  disk := coldDisk
  polls := polls
  mem := fun _ => 0
  pool := fun _ => zeroFile
  bufs := zeroBufs
  kernelBuf := ⟨0, by decide⟩
  linuxKernel := fun _ => 0
  linuxInitrd := fun _ => 0
  theme := 0
  accent := 0
  stale := fun _ => {}
  cfgJunk := fun _ => []
  kernelJunk := fun _ => []
  initrdJunk := fun _ => []
  stack := fun _ => ⟨fun _ => [], []⟩

theorem coldVol_valid : ValidVolume coldDisk 1 coldVol := by
  have hinit : fatInit coldDisk 1 = some coldVol := by
    have h11 : field (coldDisk.sector 1) 11 2 = 512 := by decide
    have h36 : field (coldDisk.sector 1) 36 4 = 1 := by decide
    have h14 : field (coldDisk.sector 1) 14 2 = 1 := by decide
    have h16 : field (coldDisk.sector 1) 16 1 = 1 := by decide
    have h32 : field (coldDisk.sector 1) 32 4 = 16 := by decide
    have h44 : field (coldDisk.sector 1) 44 4 = 2 := by decide
    have h13 : field (coldDisk.sector 1) 13 1 = 2 := by decide
    simp [fatInit, diskRead_one, h11, h36, h14, h16, h32, h44, h13, coldVol, u32]
  exact ⟨hinit, by decide, by decide, by decide, by decide⟩

theorem coldDisk_part : findFat32Partition coldDisk = 1 := by decide

/-- The down arrow and then Enter. -/
def pollDown : Nat → Poll
  | 0 => ⟨1, 0x50⟩
  | _ => ⟨1, 0x1c⟩

def linuxChoice : BootEntry := { name := lit "A", type := .linux, luksTries := 3, kernel := lit "/K" }
def windowsChoice : BootEntry := { name := lit "B", type := .windows, luksTries := 3 }

theorem discover_cold : ((coldStart pollDown).discover coldVol).1.entries = [linuxChoice, windowsChoice] := by decide

theorem menuRun_cold :
    (menuRun ((coldStart pollDown).discover coldVol).1 biosMenuOps (readKeys pollDown 2 0).1).2 = some 1 := by decide

theorem stage2Main_cold : (stage2Main (coldStart pollDown) 2).isSome = true := by
  have hpart : findFat32Partition (coldStart pollDown).disk = 1 := coldDisk_part
  have hnum : ((coldStart pollDown).discover coldVol).1.numEntries = 2 := congrArg List.length discover_cold
  have hkeys : (coldStart pollDown).polls = pollDown := rfl
  have hinit : fatInit (coldStart pollDown).disk 1 = some coldVol := coldVol_valid.init_eq
  unfold stage2Main
  dsimp only
  rw [hpart, if_neg Nat.one_ne_zero, hinit]
  dsimp only
  rw [hnum, if_neg (by decide), hkeys, menuRun_cold]
  rfl

/-- A run over a table with two entries that ends in a boot: all handles are free after the table is read, after discovery
and at the end. -/
theorem stage2_closes_files_cold : ((coldStart pollDown).readConfig coldVol).2.used = (fun _ => false) ∧
    ((coldStart pollDown).discover coldVol).2.used = (fun _ => false) ∧
      ∃ out, stage2Main (coldStart pollDown) 2 = some out ∧ out.fat.used = fun _ => false := by
  have hparts := stage2_closes_files (coldStart pollDown) 2
  obtain ⟨out, hout⟩ := Option.isSome_iff_exists.mp stage2Main_cold
  obtain ⟨hread, hfound⟩ := hparts.1 coldVol (coldDisk_part.symm ▸ coldVol_valid.init_eq)
  exact ⟨hread, hfound, out, hout, hparts.2 out hout⟩

end SakuruBoot

import SakuruBoot.Bios.FatHandles
import SakuruBoot.Common.Config
import SakuruBoot.Lib.Memory

/-!
# The Linux loader of the BIOS build (`os/linux.c`)

`linux_load` reads the kernel and the initrd into static buffers and then writes the boot parameters, the command line,
the kernel and the initrd to fixed addresses. The first part is `linuxReadFiles`, the second `linuxSetup`. A static buffer
is the bytes at and behind its first one, so that a read past its end is one like any other; `kreads` records where the
copy loops read the kernel buffer. Where the linker puts the static buffers is not part of the model: they are apart from
the memory the second part writes.
-/

namespace SakuruBoot
open CStr Bytes Memory Fat

def bootParamsAddr : Nat := 0x90000
def cmdlineAddr : Nat := 0x91000
def kernelAddr : Nat := 0x100000
def initrdAddr : Nat := 0x2000000
/-- "HdrS". -/
def linuxMagic : Nat := 0x53726448

/-- A static buffer. -/
abbrev Staging := Nat → Byte

/-- The buffer behind a read of `bytes` to its start. -/
def Staging.overlay (bytes : List Byte) (buf : Staging) : Staging := fun i => bytes.getD i (buf i)

/-- The driver and `linux_kernel_buf`, `linux_initrd_buf`. -/
structure LinuxState where
  fat : FatState
  kernelBuf : Staging
  initrdBuf : Staging

/-- `kbuf`, `ksize`, `ibuf` and `isize`. `kread` and `iread` are what `fat_read` copied. -/
structure LinuxFiles where
  kbuf : Staging
  ksize : Nat
  kread : List Byte
  ibuf : Option Staging
  isize : Nat
  iread : List Byte

section read
variable (vol : FatVol)

def linuxReadInitrd (junk : Nat → List Byte) (st : LinuxState) (initrd : List Byte) :
    (Option Staging × Nat × List Byte) × LinuxState :=
  if deref initrd = 0 then ((none, 0, []), st)
  else
    match vol.fatOpen st.fat junk initrd with
    | (none, s) => ((none, 0, []), { st with fat := s })
    | (some rf, s) =>
      let isize := fatFileSize s (some rf)
      if isize ≤ 32 * 1024 * 1024 then
        let (bytes, s) := vol.fatRead s (some rf) isize
        let buf := st.initrdBuf.overlay bytes
        ((some buf, isize, bytes), { st with fat := fatClose s (some rf), initrdBuf := buf })
      else ((none, isize, []), { st with fat := fatClose s (some rf) })

/-- The file reads at the start of `linux_load`. `junk` and `junk'` are what the lookups of `fat_open` find on the stack. -/
def linuxReadFiles (junk junk' : Nat → List Byte) (st : LinuxState) (entry : BootEntry) : Option LinuxFiles × LinuxState :=
  match vol.fatOpen st.fat junk entry.kernel with
  | (none, s) => (none, { st with fat := s })
  | (some kf, s) =>
    let ksize := fatFileSize s (some kf)
    if 16 * 1024 * 1024 < ksize then (none, { st with fat := fatClose s (some kf) })
    else
      let (bytes, s) := vol.fatRead s (some kf) ksize
      let kbuf := st.kernelBuf.overlay bytes
      let st := { st with fat := fatClose s (some kf), kernelBuf := kbuf }
      let ((ibuf, isize, iread), st) := linuxReadInitrd vol junk' st entry.initrd
      (some { kbuf := kbuf, ksize := ksize, kread := bytes, ibuf := ibuf, isize := isize, iread := iread }, st)

end read

namespace LinuxFiles
variable (f : LinuxFiles)

/-- `hdr->header`. -/
def header : Nat := word f.kbuf 0x202 4

def setupSects : Nat := if f.kbuf 0x1F1 = 0 then 4 else (f.kbuf 0x1F1).toNat

def setupSize : Nat := u32 ((f.setupSects + 1) * 512)

/-- `(u32)(ksize - pm_offset)`. -/
def pmSize : Nat := u32 (u64 (f.ksize + 2 ^ 64 - f.setupSize))

end LinuxFiles

/-- The zero page: the setup code, the fields of the header, and the command line behind it. -/
def writeBootParams (f : LinuxFiles) (cmdline : List Byte) (m : Machine) : Machine :=
  let m := m.set bootParamsAddr 0 4096
  let m := m.fill bootParamsAddr f.kbuf (min f.setupSize f.ksize)
  let m := m.wr (bootParamsAddr + 0x210) 0xFF
  let m := m.wr (bootParamsAddr + 0x211) (m.mem (bootParamsAddr + 0x211) ||| 0x80)
  let m := m.wrInt (bootParamsAddr + 0x224) 2 0xFE00
  let m := m.wr (bootParamsAddr + 0x226) 0
  let text := strCopy cmdline 2048
  let m := m.fill cmdlineAddr (fun i => text.getD i 0) (text.length + 1)
  m.wrInt (bootParamsAddr + 0x228) 4 cmdlineAddr

/-- "Load protected-mode kernel at 1 MB". The index of the buffer is a `u32`. -/
def copyKernel (f : LinuxFiles) (m : Machine) : Machine :=
  m.fill kernelAddr (fun i => f.kbuf (u32 (f.setupSize + i))) f.pmSize

def copyInitrd (f : LinuxFiles) (m : Machine) : Machine :=
  match f.ibuf with
  | none => m
  | some ibuf =>
    if f.isize = 0 then m
    else
      let m := m.fill initrdAddr ibuf f.isize
      let m := m.wrInt (bootParamsAddr + 0x218) 4 initrdAddr
      m.wrInt (bootParamsAddr + 0x21C) 4 (u32 f.isize)

/-- What `linux_load` returns and does; `ramdisk` is what is stored in `info`. -/
structure LinuxOut where
  ret : Nat
  mem : Machine
  kreads : List Nat
  ramdisk : Option (Nat × Nat)

/-- The part behind the header check. -/
def linuxSetup (f : LinuxFiles) (cmdline : List Byte) (m : Machine) : LinuxOut where
  ret := kernelAddr + 0x200
  mem := copyInitrd f (copyKernel f (writeBootParams f cmdline m))
  kreads := List.range (min f.setupSize f.ksize) ++ (List.range f.pmSize).map fun i => u32 (f.setupSize + i)
  ramdisk := if f.ibuf.isSome && f.isize != 0 then some (initrdAddr, f.isize) else none

def linuxLoad (vol : FatVol) (junk junk' : Nat → List Byte) (st : LinuxState) (entry : BootEntry) (m : Machine) :
    LinuxOut × LinuxState :=
  match linuxReadFiles vol junk junk' st entry with
  | (none, st) => ({ ret := 0, mem := m, kreads := [], ramdisk := none }, st)
  | (some f, st) =>
    if f.ksize < 512 ∨ f.header ≠ linuxMagic then ({ ret := 0, mem := m, kreads := [], ramdisk := none }, st)
    else (linuxSetup f entry.cmdline m, st)

/-! ## The files -/

theorem linuxReadFiles_eq (vol : FatVol) (junk junk' : Nat → List Byte) (st : LinuxState) (entry : BootEntry) :
    linuxReadFiles vol junk junk' st entry =
      match vol.fatOpen st.fat junk entry.kernel with
      | (none, s) => (none, { st with fat := s })
      | (some kf, s) =>
        if 16 * 1024 * 1024 < fatFileSize s (some kf) then (none, { st with fat := fatClose s (some kf) })
        else
          let r := vol.fatRead s (some kf) (fatFileSize s (some kf))
          let st' : LinuxState :=
            { st with fat := fatClose r.2 (some kf), kernelBuf := st.kernelBuf.overlay r.1 }
          let i := linuxReadInitrd vol junk' st' entry.initrd
          (some
            { kbuf := st.kernelBuf.overlay r.1, ksize := fatFileSize s (some kf), kread := r.1, ibuf := i.1.1,
              isize := i.1.2.1, iread := i.1.2.2 }, i.2) := rfl

theorem linuxReadInitrd_size {vol : FatVol} {junk : Nat → List Byte} {st : LinuxState} {initrd : List Byte}
    (h : (linuxReadInitrd vol junk st initrd).1.1.isSome) :
    (linuxReadInitrd vol junk st initrd).1.2.1 ≤ 32 * 1024 * 1024 := by
  rw [linuxReadInitrd] at h ⊢
  split
  · exact Nat.zero_le _
  · rw [if_neg ‹_›] at h
    generalize vol.fatOpen st.fat junk initrd = r at h ⊢
    obtain ⟨rf, s⟩ := r
    cases rf with
    | none => exact Nat.zero_le _
    | some rf =>
      dsimp only at h ⊢
      split
      · assumption
      · rw [if_neg ‹_›] at h
        cases h

theorem linuxReadFiles_size {vol : FatVol} {junk junk' : Nat → List Byte} {st : LinuxState} {entry : BootEntry}
    {f : LinuxFiles} (hf : (linuxReadFiles vol junk junk' st entry).1 = some f) :
    f.ksize ≤ 16 * 1024 * 1024 ∧ (f.ibuf.isSome → f.isize ≤ 32 * 1024 * 1024) := by
  rw [linuxReadFiles_eq] at hf
  generalize vol.fatOpen st.fat junk entry.kernel = r at hf
  obtain ⟨kf, s⟩ := r
  cases kf with
  | none => cases hf
  | some kf =>
    dsimp only at hf
    split at hf
    · cases hf
    · obtain rfl := Option.some.inj hf
      exact ⟨Nat.le_of_not_lt ‹_›, fun h => linuxReadInitrd_size h⟩

/-! ## Where the kernel goes -/

theorem LinuxFiles.setupSize_eq (f : LinuxFiles) : f.setupSize = (f.setupSects + 1) * 512 ∧ f.setupSize ≤ 0x20000 := by
  have hsects : f.setupSects ≤ 255 := by
    rw [LinuxFiles.setupSects]
    split
    · decide
    · exact Nat.le_of_lt_succ (f.kbuf 0x1F1).toNat_lt
  have hsmall : f.setupSize = (f.setupSects + 1) * 512 := Nat.mod_eq_of_lt (by omega)
  omega

theorem LinuxFiles.pmSize_eq {f : LinuxFiles} (hsize : f.ksize ≤ 16 * 1024 * 1024) (hle : f.setupSize ≤ f.ksize) :
    f.pmSize = f.ksize - f.setupSize := by
  have hwrap : f.ksize + 2 ^ 64 - f.setupSize = f.ksize - f.setupSize + 2 ^ 64 := by omega
  rw [LinuxFiles.pmSize, hwrap, u64, Nat.add_mod_right, Nat.mod_eq_of_lt (by omega), u32, Nat.mod_eq_of_lt (by omega)]

theorem mem_wr_writes {m : Machine} {a b : Nat} {v : Byte} : b ∈ (m.wr a v).writes ↔ b ∈ m.writes ∨ InRange a 1 b := by
  rw [wr_writes, List.mem_append, List.mem_singleton, inRange_succ]
  exact or_congr_right ⟨.inr, fun h => h.resolve_left inRange_zero⟩

theorem writeBootParams_writes (f : LinuxFiles) (cmdline : List Byte) (m : Machine) {a : Nat}
    (ha : a ∈ (writeBootParams f cmdline m).writes) : a ∈ m.writes ∨ a < kernelAddr := by
  have hlow : ∀ start n, start + n ≤ kernelAddr → ∀ b, InRange start n b → b < kernelAddr := by
    intro start n hn b hb
    have hk : kernelAddr ≤ 2 ^ 64 := by decide
    rw [inRange_iff (by omega)] at hb
    omega
  have htext : (strCopy cmdline 2048).length ≤ 2047 := by
    rw [strCopy, List.length_take]
    omega
  have hsetup := f.setupSize_eq.2
  have hk : kernelAddr = 0x100000 := rfl
  have hb : bootParamsAddr = 0x90000 := rfl
  have hc : cmdlineAddr = 0x91000 := rfl
  simp only [writeBootParams, Machine.wrInt, Machine.set, mem_fill_writes, mem_wr_writes] at ha
  rcases ha with (((((((ha | ha) | ha) | ha) | ha) | ha) | ha) | ha) | ha
  · exact .inl ha
  all_goals exact .inr (hlow _ _ (by omega) a ha)

theorem not_inRange_bootParams {a off : Nat} (hk : kernelAddr ≤ a) (hoff : off + 4 ≤ 4096) :
    ¬InRange (bootParamsAddr + off) 4 a := by
  intro h
  rw [bootParamsAddr, inRange_iff (by omega)] at h
  rw [kernelAddr] at hk
  omega

theorem copyInitrd_writes (f : LinuxFiles) (m : Machine) (hsize : f.ibuf.isSome → f.isize ≤ 32 * 1024 * 1024) {a : Nat}
    (hk : kernelAddr ≤ a) : a ∈ (copyInitrd f m).writes ↔
      a ∈ m.writes ∨ (f.ibuf.isSome ∧ initrdAddr ≤ a ∧ a < initrdAddr + f.isize) := by
  rw [copyInitrd]
  cases hi : f.ibuf with
  | none => simp
  | some ibuf =>
    dsimp only
    split
    · simp only [Option.isSome_some, true_and]
      exact ⟨.inl, fun h => h.resolve_right (by omega)⟩
    · have hle := hsize (by rw [hi]; rfl)
      have hfit : initrdAddr + f.isize ≤ 2 ^ 64 := by
        rw [initrdAddr]
        omega
      simp only [Machine.wrInt, mem_fill_writes, inRange_iff hfit, Option.isSome_some, true_and]
      have hlow {off : Nat} (hoff : off + 4 ≤ 4096) := not_inRange_bootParams hk hoff
      exact ⟨fun h => (h.resolve_right (hlow (by decide))).resolve_right (hlow (by decide)), fun h => .inl (.inl h)⟩

theorem copyInitrd_mem (f : LinuxFiles) (m : Machine) (hsize : f.ibuf.isSome → f.isize ≤ 32 * 1024 * 1024) {a : Nat}
    (hk : kernelAddr ≤ a) (hi : a < initrdAddr) : (copyInitrd f m).mem a = m.mem a := by
  rw [copyInitrd]
  cases hbuf : f.ibuf with
  | none => rfl
  | some ibuf =>
    dsimp only
    split
    · rfl
    · have hle := hsize (by rw [hbuf]; rfl)
      rw [Machine.wrInt, fill_mem_other (not_inRange_bootParams hk (by decide)), Machine.wrInt,
        fill_mem_other (not_inRange_bootParams hk (by decide)), fill_mem_other]
      intro h
      rw [initrdAddr] at h hi
      rw [inRange_iff (by omega)] at h
      omega

/-- What loading a kernel comes to: the file holds all of the setup code, exactly the rest of it is at 1 MB, and the copy
loops stay inside the file. -/
structure KernelPlaced (f : LinuxFiles) (out : LinuxOut) : Prop where
  fits : out.ret ≠ 0 → f.setupSize ≤ f.ksize
  bytes : ∀ i, f.setupSize + i < f.ksize → out.mem.mem (kernelAddr + i) = f.kbuf (f.setupSize + i)
  writes : ∀ a, kernelAddr ≤ a → (a ∈ out.mem.writes ↔ a < kernelAddr + (f.ksize - f.setupSize) ∨
    (f.ibuf.isSome ∧ initrdAddr ≤ a ∧ a < initrdAddr + f.isize))
  reads : ∀ i ∈ out.kreads, i < f.ksize
  short : f.ksize < f.setupSize → out.ret = 0

theorem linuxLoad_eq {vol : FatVol} {junk junk' : Nat → List Byte} {st : LinuxState} {entry : BootEntry}
    {f : LinuxFiles} (hf : (linuxReadFiles vol junk junk' st entry).1 = some f) (m : Machine) :
    (linuxLoad vol junk junk' st entry m).1 =
      if f.ksize < 512 ∨ f.header ≠ linuxMagic then { ret := 0, mem := m, kreads := [], ramdisk := none }
      else linuxSetup f entry.cmdline m := by
  rw [linuxLoad]
  generalize linuxReadFiles vol junk junk' st entry = r at hf
  obtain ⟨found, st'⟩ := r
  obtain rfl : found = some f := hf
  dsimp only
  split
  · rfl
  · rfl

/-- The kernel is placed right exactly when the file is no shorter than its setup area. -/
theorem linuxLoad_kernelPlaced_iff (vol : FatVol) (junk junk' : Nat → List Byte) (st : LinuxState) (entry : BootEntry)
    (mem : Nat → Byte) (f : LinuxFiles) (hf : (linuxReadFiles vol junk junk' st entry).1 = some f)
    (hsize : 512 ≤ f.ksize) (hmagic : f.header = linuxMagic) :
    KernelPlaced f (linuxLoad vol junk junk' st entry ⟨mem, [], []⟩).1 ↔ f.setupSize ≤ f.ksize := by
  obtain ⟨hmax, hinitrd⟩ := linuxReadFiles_size hf
  rw [linuxLoad_eq hf, if_neg (by rintro (h | h); exacts [by omega, h hmagic])]
  constructor
  · exact fun h => h.fits (show kernelAddr + 0x200 ≠ 0 by decide)
  · intro hle
    have hpm := f.pmSize_eq hmax hle
    have hk : kernelAddr = 0x100000 := rfl
    have hi : initrdAddr = 0x2000000 := rfl
    have hfit : kernelAddr + f.pmSize ≤ 2 ^ 64 := by omega
    refine ⟨fun _ => hle, fun i hlt => ?_, fun a ha => ?_, fun i hi => ?_, fun hlt => absurd hle (by omega)⟩
    · show (copyInitrd f (copyKernel f (writeBootParams f entry.cmdline ⟨mem, [], []⟩))).mem (kernelAddr + i) = _
      rw [copyInitrd_mem f _ hinitrd (by omega) (by omega), copyKernel]
      have hbyte : ((writeBootParams f entry.cmdline ⟨mem, [], []⟩).fill kernelAddr
          (fun i => f.kbuf (u32 (f.setupSize + i))) f.pmSize).mem (u64 (kernelAddr + i)) =
            f.kbuf (u32 (f.setupSize + i)) := fill_mem (by omega) (by omega)
      rw [u64, Nat.mod_eq_of_lt (by omega)] at hbyte
      rw [hbyte, u32, Nat.mod_eq_of_lt (by omega)]
    · show a ∈ (copyInitrd f (copyKernel f (writeBootParams f entry.cmdline ⟨mem, [], []⟩))).writes ↔ _
      rw [copyInitrd_writes f _ hinitrd ha, copyKernel, mem_fill_writes, inRange_iff hfit, ← hpm]
      refine or_congr_left ⟨fun h => ?_, fun h => .inr ⟨ha, h⟩⟩
      rcases h with h | h
      · rcases writeBootParams_writes f entry.cmdline ⟨mem, [], []⟩ h with h | h
        · exact absurd h List.not_mem_nil
        · omega
      · exact h.2
    · rcases List.mem_append.mp hi with h | h
      · have := List.mem_range.mp h
        omega
      · obtain ⟨j, hj, rfl⟩ := List.mem_map.mp h
        have := List.mem_range.mp hj
        rw [u32, Nat.mod_eq_of_lt (by omega)]
        omega

/-! A volume with clusters of four sectors and one file `K` of the given size in cluster 3. -/

def kernelDisk (size : Nat) (data : List Byte) : Disk := .ofSectors
  [List.replicate 11 0 ++ le 2 512 ++ [4] ++ le 2 1 ++ [1] ++ List.replicate 15 0 ++ le 4 16 ++ le 4 1 ++
      List.replicate 4 0 ++ le 4 2,
    le 4 0x0FFFFFF8 ++ le 4 0x0FFFFFFF ++ le 4 0x0FFFFFFF ++ le 4 0x0FFFFFFF,
    lit "K          " ++ [0x20] ++ List.replicate 14 0 ++ le 2 3 ++ le 4 size, [], [], [],
    data.take 512, data.drop 512]

def kernelVol (size : Nat) (data : List Byte) : FatVol :=
  { disk := kernelDisk size data, totalSectors32 := 16, fatStart := 1, dataStart := 2, rootCluster := 2, spc := 4 }

/-- The start of a bzImage with `sects` setup sectors. -/
def bzImage (sects : Byte) : List Byte := List.replicate 0x1F1 0 ++ [sects] ++ List.replicate 16 0 ++ le 4 linuxMagic

def linuxStart (kernelBuf : Staging) : LinuxState :=
  { fat := { pool := fun _ => zeroFile, used := fun _ => false, bufs := zeroBufs }
    kernelBuf := kernelBuf, initrdBuf := fun _ => 0 }

def bareEntry : BootEntry := { kernel := lit "/K" }

/-- What is read of the file `K` of 2048 bytes. -/
def smallKernel (sects : Byte) : Option LinuxFiles :=
  (linuxReadFiles (kernelVol 2048 (bzImage sects)) (fun _ => []) (fun _ => []) (linuxStart fun _ => 0) bareEntry).1

theorem smallKernel_read : ∃ f, smallKernel 1 = some f ∧ f.ksize = 2048 ∧ f.header = linuxMagic ∧ f.setupSize = 1024 := by
  have h : (smallKernel 1).map (fun f => (f.ksize, f.header, f.setupSize)) = some (2048, linuxMagic, 1024) := by
    decide +kernel
  obtain ⟨f, hf, h⟩ := Option.map_eq_some_iff.mp h
  exact ⟨f, hf, congrArg Prod.fst h, congrArg (fun p => p.2.1) h, congrArg (fun p => p.2.2) h⟩

/-- One setup sector: half of the file is the kernel. -/
theorem smallKernel_placed : ∃ f, smallKernel 1 = some f ∧
    KernelPlaced f (linuxLoad (kernelVol 2048 (bzImage 1)) (fun _ => []) (fun _ => []) (linuxStart fun _ => 0) bareEntry
      ⟨fun _ => 0, [], []⟩).1 := by
  obtain ⟨f, hf, hsize, hmagic, hsetup⟩ := smallKernel_read
  refine ⟨f, hf, ?_⟩
  rw [linuxLoad_kernelPlaced_iff _ _ _ _ _ _ f hf (by omega) hmagic]
  omega

/-- No number of setup sectors means four of them, and with the boot sector these are more than the file has. -/
theorem shortKernel_not_placed : ∃ f, smallKernel 0 = some f ∧ 512 ≤ f.ksize ∧ f.header = linuxMagic ∧
    f.ksize < f.setupSize ∧
    ¬KernelPlaced f (linuxLoad (kernelVol 2048 (bzImage 0)) (fun _ => []) (fun _ => []) (linuxStart fun _ => 0) bareEntry
      ⟨fun _ => 0, [], []⟩).1 := by
  have h : (smallKernel 0).map (fun f => (f.ksize, f.header, f.setupSize)) = some (2048, linuxMagic, 2560) := by
    decide +kernel
  obtain ⟨f, hf, h⟩ := Option.map_eq_some_iff.mp h
  have hsize : f.ksize = 2048 := congrArg Prod.fst h
  have hmagic : f.header = linuxMagic := congrArg (fun p => p.2.1) h
  have hsetup : f.setupSize = 2560 := congrArg (fun p => p.2.2) h
  refine ⟨f, hf, by omega, hmagic, by omega, ?_⟩
  rw [linuxLoad_eq hf, if_neg (by rintro (h | h); exacts [by omega, h hmagic])]
  intro hplaced
  exact absurd (hplaced.short (by omega)) (show kernelAddr + 0x200 ≠ 0 by decide)

end SakuruBoot

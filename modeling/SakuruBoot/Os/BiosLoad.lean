import SakuruBoot.Bios.FatChain
import SakuruBoot.Os.LinuxBios
import SakuruBoot.Os.Vios

/-!
# Kernels read from FAT

The BIOS loaders read a file into a static buffer and go on with the size that is recorded in the directory. Neither
looks at how much `fat_read` delivered. `ReadInFull` is what they rely on; a read comes to that exactly when the cluster
chain is long enough for the recorded size, and otherwise the rest of the buffer is what an earlier load left there.
-/

namespace SakuruBoot
open CStr Bytes Memory Fat

/-! ## The ViOS loader -/

/-- What `read_kernel_bios` returns, and what `fat_read` copied. -/
structure ViosFile where
  bytes : List Byte
  size : Nat
  small : size ≤ 8 * 1024 * 1024

def readKernelBios (vol : FatVol) (junk : Nat → List Byte) (s : FatState) (kernel : List Byte) :
    Option ViosFile × FatState :=
  match vol.fatOpen s junk kernel with
  | (none, s) => (none, s)
  | (some f, s) =>
    if h : fatFileSize s (some f) ≤ 8 * 1024 * 1024 then
      let r := vol.fatRead s (some f) (fatFileSize s (some f))
      (some { bytes := r.1, size := fatFileSize s (some f), small := h }, fatClose r.2 (some f))
    else (none, fatClose s (some f))

/-- Where `kernel_buf` is. -/
structure KernelBuf where
  base : Nat
  fits : base + 8 * 1024 * 1024 ≤ 2 ^ 64

namespace KernelBuf
variable (k : KernelBuf)

theorem fits_of_le {size : Nat} (h : size ≤ 8 * 1024 * 1024) : k.base + size ≤ 2 ^ 64 :=
  (Nat.add_le_add_left h _).trans k.fits

/-- The image in the buffer. -/
def elf (size : Nat) (h : size ≤ 8 * 1024 * 1024) : ElfBuf := { base := k.base, size := size, fits := k.fits_of_le h }

/-- The buffer, as bytes from its start on. -/
def staging (mem : Nat → Byte) : Staging := fun i => mem (k.base + i)

/-- The memory with the buffer replaced. -/
def store (mem : Nat → Byte) (buf : Staging) : Nat → Byte := fun a => if a < k.base then mem a else buf (a - k.base)

end KernelBuf

def viosLoad (vol : FatVol) (junk : Nat → List Byte) (s : FatState) (entry : BootEntry) (k : KernelBuf)
    (mem : Nat → Byte) : (Nat × Machine) × FatState :=
  match readKernelBios vol junk s entry.kernel with
  | (none, s) => ((0, ⟨mem, [], []⟩), s)
  | (some f, s) =>
    let mem := k.store mem ((k.staging mem).overlay f.bytes)
    if f.size = 0 then ((0, ⟨mem, [], []⟩), s)
    else (elf64Load .x86_64 (k.elf f.size f.small) ⟨mem, [], []⟩, s)

/-! ## Files that are read in full -/

variable {vol : FatVol}

/-- Every byte of the file, by its recorded size, was read and is in the buffer. -/
structure ReadInFull (vol : FatVol) (e : DirEntry) (buf : Staging) (read : List Byte) : Prop where
  all : read.length = e.fileSize
  bytes : ∀ i < e.fileSize, buf i = vol.fileByte e.firstCluster i

theorem overlay_eq_staged {e : DirEntry} {bytes : List Byte} (h : ReadOf vol e bytes) (buf : Staging) :
    buf.overlay bytes = vol.staged e buf := funext fun i => h.overlay_eq buf i

theorem readInFull_iff {e : DirEntry} {bytes : List Byte} (h : ReadOf vol e bytes) (buf : Staging) :
    ReadInFull vol e (buf.overlay bytes) bytes ↔ vol.Reaches e.firstCluster e.fileSize := by
  refine ⟨fun hr => h.all_iff.mp hr.all, fun hr => ⟨h.all_iff.mpr hr, fun i hi => ?_⟩⟩
  rw [overlay_eq_staged h, FatVol.staged, if_pos ⟨hi, hr i hi⟩]

/-! ## Linux -/

/-- The kernel is found, has a size the loader takes, and passes the header check with what is then in the buffer. -/
structure LinuxStarts (vol : FatVol) (junk : Nat → List Byte) (st : LinuxState) (entry : BootEntry) (e : DirEntry) : Prop
    where
  found : vol.resolve junk entry.kernel = some e
  slot : ∃ i, st.fat.used i = false
  size : 512 ≤ e.fileSize ∧ e.fileSize ≤ 16 * 1024 * 1024
  header : word (vol.staged e st.kernelBuf) 0x202 4 = linuxMagic

/-- The initrd is found and used: `ramdisk_size` is set for it. -/
structure LinuxRamdisk (vol : FatVol) (junk : Nat → List Byte) (entry : BootEntry) (e : DirEntry) : Prop where
  named : deref entry.initrd ≠ 0
  found : vol.resolve junk entry.initrd = some e
  size : e.fileSize ≠ 0 ∧ e.fileSize ≤ 32 * 1024 * 1024

/-- A kernel that is started was read in full, and so was the initrd it is given. -/
def LinuxDelivers (vol : FatVol) (junk junk' : Nat → List Byte) (st : LinuxState) (entry : BootEntry)
    (mem : Nat → Byte) : Prop :=
  (linuxLoad vol junk junk' st entry ⟨mem, [], []⟩).1.ret ≠ 0 →
    ∃ e f, vol.resolve junk entry.kernel = some e ∧ (linuxReadFiles vol junk junk' st entry).1 = some f ∧
      f.ksize = e.fileSize ∧ ReadInFull vol e f.kbuf f.kread ∧
      ((linuxLoad vol junk junk' st entry ⟨mem, [], []⟩).1.ramdisk.isSome →
        ∃ e' ibuf, vol.resolve junk' entry.initrd = some e' ∧ f.ibuf = some ibuf ∧ f.isize = e'.fileSize ∧
          ReadInFull vol e' ibuf f.iread)

theorem linuxReadInitrd_spec (hpos : 0 < vol.clusterSz) (junk : Nat → List Byte) (st : LinuxState) (entry : BootEntry)
    (hslot : ∃ i, st.fat.used i = false) :
    (∃ e ibuf, LinuxRamdisk vol junk entry e ∧ (linuxReadInitrd vol junk st entry.initrd).1.1 = some ibuf ∧
      (linuxReadInitrd vol junk st entry.initrd).1.2.1 = e.fileSize ∧
      (ReadInFull vol e ibuf (linuxReadInitrd vol junk st entry.initrd).1.2.2 ↔
        vol.Reaches e.firstCluster e.fileSize)) ∨
    ((∀ e, ¬LinuxRamdisk vol junk entry e) ∧
      ((linuxReadInitrd vol junk st entry.initrd).1.1 = none ∨ (linuxReadInitrd vol junk st entry.initrd).1.2.1 = 0)) := by
  rw [linuxReadInitrd]
  by_cases hname : deref entry.initrd = 0
  · rw [if_pos hname]
    exact .inr ⟨fun e h => h.named hname, .inl rfl⟩
  · rw [if_neg hname]
    rcases open_read_close hpos st.fat junk entry.initrd with ⟨s', hopen, -, hreason⟩ |
      ⟨h, e, s', hopen, hres, -, hsz, hread, -, -⟩
    · rw [hopen]
      refine .inr ⟨fun e h => ?_, .inl rfl⟩
      rcases hreason with hnone | hfull
      · have hfound := h.found
        rw [hnone] at hfound
        cases hfound
      · obtain ⟨i, hi⟩ := hslot
        exact Bool.noConfusion (hi.symm.trans (hfull i))
    · rw [hopen]
      dsimp only
      rw [hsz]
      by_cases hle : e.fileSize ≤ 32 * 1024 * 1024
      · rw [if_pos hle]
        by_cases hz : e.fileSize = 0
        · refine .inr ⟨fun e' h' => h'.size.1 ?_, .inr hz⟩
          rw [← Option.some.inj (hres.symm.trans h'.found), hz]
        · exact .inl ⟨e, _, ⟨hname, hres, hz, hle⟩, rfl, rfl, readInFull_iff hread _⟩
      · rw [if_neg hle]
        refine .inr ⟨fun e' h' => hle ?_, .inl rfl⟩
        rw [Option.some.inj (hres.symm.trans h'.found)]
        exact h'.size.2

theorem linuxReadFiles_spec (hpos : 0 < vol.clusterSz) (junk junk' : Nat → List Byte) (st : LinuxState)
    (entry : BootEntry) :
    ((linuxReadFiles vol junk junk' st entry).1 = none ∧ ∀ e, ¬LinuxStarts vol junk st entry e) ∨
    ∃ e f st', (linuxReadFiles vol junk junk' st entry).1 = some f ∧ vol.resolve junk entry.kernel = some e ∧
      (∃ i, st.fat.used i = false) ∧ e.fileSize ≤ 16 * 1024 * 1024 ∧ f.ksize = e.fileSize ∧
      f.kbuf = vol.staged e st.kernelBuf ∧
      (ReadInFull vol e f.kbuf f.kread ↔ vol.Reaches e.firstCluster e.fileSize) ∧
      st'.fat.used = st.fat.used ∧ (linuxReadInitrd vol junk' st' entry.initrd).1 = (f.ibuf, f.isize, f.iread) := by
  rw [linuxReadFiles_eq]
  rcases open_read_close hpos st.fat junk entry.kernel with
    ⟨s', hopen, -, hreason⟩ | ⟨h, e, s', hopen, hres, hfree, hsz, hread, -, hused⟩
  · rw [hopen]
    refine .inl ⟨rfl, fun e hs => ?_⟩
    rcases hreason with hnone | hfull
    · have hfound := hs.found
      rw [hnone] at hfound
      cases hfound
    · obtain ⟨i, hi⟩ := hs.slot
      exact Bool.noConfusion (hi.symm.trans (hfull i))
  · rw [hopen]
    dsimp only
    rw [hsz]
    by_cases hle : 16 * 1024 * 1024 < e.fileSize
    · rw [if_pos hle]
      refine .inl ⟨rfl, fun e' hs => ?_⟩
      have hsize := hs.size.2
      rw [← Option.some.inj (hres.symm.trans hs.found)] at hsize
      omega
    · rw [if_neg hle]
      refine .inr ⟨e, _, _, rfl, hres, ⟨h, hfree⟩, Nat.le_of_not_lt hle, rfl, overlay_eq_staged hread _,
        readInFull_iff hread _, hused, rfl⟩

/-- The initrds that are used are read in full exactly when their chains are long enough. -/
theorem linuxRamdisk_iff (hpos : 0 < vol.clusterSz) {junk : Nat → List Byte} {st : LinuxState} {entry : BootEntry}
    (hslot : ∃ i, st.fat.used i = false) {f : LinuxFiles}
    (hinitrd : (linuxReadInitrd vol junk st entry.initrd).1 = (f.ibuf, f.isize, f.iread)) :
    (∀ e, LinuxRamdisk vol junk entry e → vol.Reaches e.firstCluster e.fileSize) ↔
      (f.ibuf.isSome ∧ f.isize ≠ 0 → ∃ e ibuf, vol.resolve junk entry.initrd = some e ∧ f.ibuf = some ibuf ∧
        f.isize = e.fileSize ∧ ReadInFull vol e ibuf f.iread) := by
  rcases linuxReadInitrd_spec hpos junk st entry hslot with ⟨e, ibuf, hr, hib, his, hfull⟩ | ⟨hnone, hunused⟩
  · rw [hinitrd] at hib his hfull
    dsimp only at hib his hfull
    have huniq : ∀ e', vol.resolve junk entry.initrd = some e' → e' = e :=
      fun e' h => (Option.some.inj (hr.found.symm.trans h)).symm
    constructor
    · exact fun h _ => ⟨e, ibuf, hr.found, hib, his, hfull.mpr (h e hr)⟩
    · intro h e' hr'
      obtain ⟨e₁, ibuf₁, hres₁, hib₁, -, hread₁⟩ := h ⟨by rw [hib]; rfl, by rw [his]; exact hr.size.1⟩
      rw [huniq e' hr'.found]
      rw [huniq e₁ hres₁, ← Option.some.inj (hib.symm.trans hib₁)] at hread₁
      exact hfull.mp hread₁
  · rw [hinitrd] at hunused
    refine ⟨fun _ h => ?_, fun _ e hr => absurd hr (hnone e)⟩
    rcases hunused with hn | hz
    · rw [show f.ibuf = none from hn] at h
      cases h.1
    · exact absurd hz h.2

theorem linuxDelivers_iff (hpos : 0 < vol.clusterSz) (junk junk' : Nat → List Byte) (st : LinuxState)
    (entry : BootEntry) (mem : Nat → Byte) : LinuxDelivers vol junk junk' st entry mem ↔
      ∀ e, LinuxStarts vol junk st entry e → vol.Reaches e.firstCluster e.fileSize ∧
        ∀ e', LinuxRamdisk vol junk' entry e' → vol.Reaches e'.firstCluster e'.fileSize := by
  rcases linuxReadFiles_spec hpos junk junk' st entry with
    ⟨hnone, hnot⟩ | ⟨e, f, st', hf, hres, hslot, hle, hksize, hkbuf, hkernel, hused, hinitrd⟩
  · have hret : (linuxLoad vol junk junk' st entry ⟨mem, [], []⟩).1.ret = 0 := by
      rw [linuxLoad]
      generalize linuxReadFiles vol junk junk' st entry = r at hnone
      obtain ⟨found, st'⟩ := r
      obtain rfl : found = none := hnone
      rfl
    exact ⟨fun _ e hs => absurd hs (hnot e), fun _ h => absurd hret h⟩
  · have hone : ∀ e', vol.resolve junk entry.kernel = some e' → e' = e :=
      fun e' h => (Option.some.inj (hres.symm.trans h)).symm
    by_cases hstart : 512 ≤ f.ksize ∧ f.header = linuxMagic
    · -- the loader gets to its end
      have hload := linuxLoad_eq hf ⟨mem, [], []⟩
      rw [if_neg (by rintro (h | h); exacts [by omega, h hstart.2])] at hload
      have hs : LinuxStarts vol junk st entry e :=
        ⟨hres, hslot, ⟨hksize ▸ hstart.1, hle⟩, by rw [← hkbuf]; exact hstart.2⟩
      have hram : (linuxLoad vol junk junk' st entry ⟨mem, [], []⟩).1.ramdisk.isSome ↔
          f.ibuf.isSome ∧ f.isize ≠ 0 := by
        rw [hload, linuxSetup]
        dsimp only
        by_cases hc : f.ibuf.isSome ∧ f.isize ≠ 0
        · simp [hc]
        · rw [if_neg (by simpa using hc)]
          simpa using hc
      have hslot' : ∃ i, st'.fat.used i = false := by rwa [hused]
      have hboth := linuxRamdisk_iff hpos hslot' hinitrd
      have hret : (linuxLoad vol junk junk' st entry ⟨mem, [], []⟩).1.ret ≠ 0 := by
        rw [hload]
        exact show kernelAddr + 0x200 ≠ 0 by decide
      constructor
      · intro hd e' hs'
        obtain ⟨e₁, f₁, hres₁, hf₁, -, hread₁, hram₁⟩ := hd hret
        obtain rfl := Option.some.inj (hf.symm.trans hf₁)
        rw [hone e₁ hres₁] at hread₁
        rw [hone e' hs'.found]
        refine ⟨hkernel.mp hread₁, hboth.mpr fun h => hram₁ (hram.mpr h)⟩
      · intro hcond _
        obtain ⟨hreach, hrest⟩ := hcond e hs
        exact ⟨e, f, hres, hf, hksize, hkernel.mpr hreach, fun h => hboth.mp hrest (hram.mp h)⟩
    · -- it stops at the header
      have hret : (linuxLoad vol junk junk' st entry ⟨mem, [], []⟩).1.ret = 0 := by
        rw [linuxLoad_eq hf, if_pos]
        by_contra hc
        rw [not_or, not_not] at hc
        exact hstart ⟨by omega, hc.2⟩
      refine ⟨fun _ e' hs => absurd ?_ hstart, fun _ h => absurd hret h⟩
      have hs' := hs
      rw [hone e' hs.found] at hs'
      refine ⟨by rw [hksize]; exact hs'.size.1, ?_⟩
      rw [LinuxFiles.header, hkbuf]
      exact hs'.header

/-! ## ViOS -/

/-- The memory behind the read of the file of `e`. -/
noncomputable def KernelBuf.staged (k : KernelBuf) (vol : FatVol) (e : DirEntry) (mem : Nat → Byte) : Nat → Byte :=
  k.store mem (vol.staged e (k.staging mem))

/-- The kernel is found, fits the buffer, and passes `elf64_valid` with what is then in it. -/
structure ViosStarts (vol : FatVol) (junk : Nat → List Byte) (s : FatState) (entry : BootEntry) (k : KernelBuf)
    (mem : Nat → Byte) (e : DirEntry) : Prop where
  found : vol.resolve junk entry.kernel = some e
  slot : ∃ i, s.used i = false
  size : e.fileSize ≠ 0
  small : e.fileSize ≤ 8 * 1024 * 1024
  valid : (k.elf e.fileSize small).valid (k.staged vol e mem) .x86_64 = true

/-- A kernel that is started was read in full. -/
def ViosDelivers (vol : FatVol) (junk : Nat → List Byte) (s : FatState) (entry : BootEntry) (k : KernelBuf)
    (mem : Nat → Byte) : Prop :=
  (viosLoad vol junk s entry k mem).1.1 ≠ 0 →
    ∃ e f, vol.resolve junk entry.kernel = some e ∧ (readKernelBios vol junk s entry.kernel).1 = some f ∧
      f.size = e.fileSize ∧ ReadInFull vol e ((k.staging mem).overlay f.bytes) f.bytes

theorem readKernelBios_spec (hpos : 0 < vol.clusterSz) (junk : Nat → List Byte) (s : FatState) (kernel : List Byte) :
    ((readKernelBios vol junk s kernel).1 = none ∧
      ∀ e, vol.resolve junk kernel = some e → (∃ i, s.used i = false) → ¬e.fileSize ≤ 8 * 1024 * 1024) ∨
    ∃ e f, (readKernelBios vol junk s kernel).1 = some f ∧ vol.resolve junk kernel = some e ∧
      (∃ i, s.used i = false) ∧ f.size = e.fileSize ∧ ReadOf vol e f.bytes := by
  rw [readKernelBios]
  rcases open_read_close hpos s junk kernel with ⟨s', hopen, -, hreason⟩ | ⟨h, e, s', hopen, hres, hfree, hsz, hread, -, -⟩
  · rw [hopen]
    refine .inl ⟨rfl, fun e he hslot => ?_⟩
    rcases hreason with hnone | hfull
    · rw [hnone] at he
      cases he
    · obtain ⟨i, hi⟩ := hslot
      exact Bool.noConfusion (hi.symm.trans (hfull i))
  · rw [hopen]
    dsimp only
    by_cases hle : fatFileSize s' (some h) ≤ 8 * 1024 * 1024
    · rw [dif_pos hle]
      refine .inr ⟨e, _, rfl, hres, ⟨h, hfree⟩, hsz, ?_⟩
      dsimp only
      rw [hsz]
      exact hread
    · rw [dif_neg hle]
      refine .inl ⟨rfl, fun e' he' _ => ?_⟩
      rw [← Option.some.inj (hres.symm.trans he'), ← hsz]
      exact hle

theorem viosLoad_ret {junk : Nat → List Byte} {s : FatState} {entry : BootEntry} (k : KernelBuf) (mem : Nat → Byte)
    {e : DirEntry} {f : ViosFile} (hf : (readKernelBios vol junk s entry.kernel).1 = some f)
    (hread : ReadOf vol e f.bytes) : (viosLoad vol junk s entry k mem).1.1 =
      if f.size = 0 then 0
      else (elf64Load .x86_64 (k.elf f.size f.small) ⟨k.staged vol e mem, [], []⟩).1 := by
  rw [viosLoad]
  generalize readKernelBios vol junk s entry.kernel = r at hf
  obtain ⟨found, s'⟩ := r
  obtain rfl : found = some f := hf
  dsimp only
  rw [overlay_eq_staged hread]
  split
  · rfl
  · rfl

/-- The loader delivers what it starts if the chains of the files it would start are long enough, or the image has no
entry point; and it delivers nothing else, images that overwrite their own headers apart. -/
theorem viosDelivers_iff (hpos : 0 < vol.clusterSz) (junk : Nat → List Byte) (s : FatState) (entry : BootEntry)
    (k : KernelBuf) (mem : Nat → Byte) :
    ((∀ e, (h : ViosStarts vol junk s entry k mem e) → vol.Reaches e.firstCluster e.fileSize ∨
        ((k.elf e.fileSize h.small).entry (k.staged vol e mem) = 0 ∧
          OffHeaders (k.elf e.fileSize h.small) (k.staged vol e mem))) → ViosDelivers vol junk s entry k mem) ∧
      (ViosDelivers vol junk s entry k mem → ∀ e, (h : ViosStarts vol junk s entry k mem e) →
        vol.Reaches e.firstCluster e.fileSize ∨ (k.elf e.fileSize h.small).entry (k.staged vol e mem) = 0 ∨
          ¬OffHeaders (k.elf e.fileSize h.small) (k.staged vol e mem)) := by
  rcases readKernelBios_spec hpos junk s entry.kernel with ⟨hnone, hnot⟩ | ⟨e, f, hf, hres, hslot, hsize, hread⟩
  · have hret : (viosLoad vol junk s entry k mem).1.1 = 0 := by
      rw [viosLoad]
      generalize readKernelBios vol junk s entry.kernel = r at hnone
      obtain ⟨found, s'⟩ := r
      obtain rfl : found = none := hnone
      rfl
    exact ⟨fun _ h => absurd hret h, fun _ e h => absurd h.small (hnot e h.found h.slot)⟩
  · have hret := viosLoad_ret k mem hf hread
    have hone : ∀ e', vol.resolve junk entry.kernel = some e' → e' = e :=
      fun e' h => (Option.some.inj (hres.symm.trans h)).symm
    obtain ⟨bytes, size, small⟩ := f
    obtain rfl : size = e.fileSize := hsize
    constructor
    · intro hcond hne
      rw [hret] at hne
      have hz : e.fileSize ≠ 0 := fun hz => hne (if_pos hz)
      rw [if_neg hz] at hne
      have hvalid : (k.elf e.fileSize small).valid (k.staged vol e mem) .x86_64 = true := by
        by_contra hv
        rw [Bool.not_eq_true] at hv
        have hval := (elf64Valid_spec .x86_64 (k.elf e.fileSize small) ⟨k.staged vol e mem, [], []⟩).1
        rw [elf64Load_eq, hval, hv] at hne
        exact hne rfl
      refine ⟨e, _, hres, hf, rfl, (readInFull_iff hread _).mpr ?_⟩
      rcases hcond e ⟨hres, hslot, hz, small, hvalid⟩ with hreach | ⟨hentry, hoff⟩
      · exact hreach
      · exact absurd ((elf64Load_wrote hvalid hoff).1.trans hentry) hne
    · intro hd e' hs
      obtain rfl := hone e' hs.found
      by_contra hnot
      rw [not_or, not_or, not_not] at hnot
      obtain ⟨hreach, hentry, hoff⟩ := hnot
      have hne : (viosLoad vol junk s entry k mem).1.1 ≠ 0 := by
        rw [hret, if_neg hs.size, (elf64Load_wrote hs.valid hoff).1]
        exact hentry
      obtain ⟨e₁, f₁, hres₁, hf₁, -, hread₁⟩ := hd hne
      obtain rfl := hone e₁ hres₁
      obtain rfl := Option.some.inj (hf.symm.trans hf₁)
      exact hreach ((readInFull_iff hread _).mp hread₁)

/-- Both loaders, on a volume with any FAT content. -/
theorem biosLoads_deliver (vol : FatVol) (hspc : 0 < vol.spc) (junk junk' : Nat → List Byte) (st : LinuxState)
    (s : FatState) (entry : BootEntry) (k : KernelBuf) (mem : Nat → Byte) :
    (LinuxDelivers vol junk junk' st entry mem ↔
      ∀ e, LinuxStarts vol junk st entry e → vol.Reaches e.firstCluster e.fileSize ∧
        ∀ e', LinuxRamdisk vol junk' entry e' → vol.Reaches e'.firstCluster e'.fileSize) ∧
    ((∀ e, (h : ViosStarts vol junk s entry k mem e) → vol.Reaches e.firstCluster e.fileSize ∨
        ((k.elf e.fileSize h.small).entry (k.staged vol e mem) = 0 ∧
          OffHeaders (k.elf e.fileSize h.small) (k.staged vol e mem))) → ViosDelivers vol junk s entry k mem) ∧
      (ViosDelivers vol junk s entry k mem → ∀ e, (h : ViosStarts vol junk s entry k mem e) →
        vol.Reaches e.firstCluster e.fileSize ∨ (k.elf e.fileSize h.small).entry (k.staged vol e mem) = 0 ∨
          ¬OffHeaders (k.elf e.fileSize h.small) (k.staged vol e mem)) := by
  have hpos : 0 < vol.clusterSz := Nat.mul_pos hspc (by decide)
  exact ⟨linuxDelivers_iff hpos junk junk' st entry mem, viosDelivers_iff hpos junk s entry k mem⟩

/-- A kernel of one cluster, and no initrd. -/
theorem smallKernel_delivered : LinuxDelivers (kernelVol 2048 (bzImage 1)) (fun _ => []) (fun _ => [])
    (linuxStart fun _ => 0) bareEntry fun _ => 0 := by
  apply (biosLoads_deliver (kernelVol 2048 (bzImage 1)) (by decide) (fun _ => []) (fun _ => []) (linuxStart fun _ => 0)
    (linuxStart fun _ => 0).fat bareEntry ⟨0, by decide⟩ fun _ => 0).1.mpr
  intro e hs
  have hentry : ((kernelVol 2048 (bzImage 1)).resolve (fun _ => []) bareEntry.kernel).map
      (fun e => (e.firstCluster, e.fileSize)) = some (3, 2048) := by decide
  rw [hs.found, Option.map_some] at hentry
  have hfirst : e.firstCluster = 3 := congrArg Prod.fst (Option.some.inj hentry)
  have hsize : e.fileSize = 2048 := congrArg Prod.snd (Option.some.inj hentry)
  refine ⟨fun i hi j hj => ?_, fun e' hr => absurd rfl hr.named⟩
  have hcs : (kernelVol 2048 (bzImage 1)).clusterSz = 2048 := rfl
  rw [hcs, Nat.div_eq_of_lt (by omega)] at hj
  obtain rfl : j = 0 := Nat.le_zero.mp hj
  show isCluster e.firstCluster = true
  rw [hfirst]
  decide

/-- A recorded size of two clusters, and a chain of one. -/
theorem shortChain_not_delivered : ¬LinuxDelivers (kernelVol 4096 (bzImage 1)) (fun _ => []) (fun _ => [])
    (linuxStart fun _ => 7) bareEntry fun _ => 0 := by
  have hfiles : (linuxReadFiles (kernelVol 4096 (bzImage 1)) (fun _ => []) (fun _ => []) (linuxStart fun _ => 7)
      bareEntry).1.map (fun f => (f.ksize, f.header, f.kread.length)) = some (4096, linuxMagic, 2048) := by
    decide +kernel
  obtain ⟨f, hf, hfields⟩ := Option.map_eq_some_iff.mp hfiles
  have hksize : f.ksize = 4096 := congrArg Prod.fst hfields
  have hmagic : f.header = linuxMagic := congrArg (fun p => p.2.1) hfields
  have hread : f.kread.length = 2048 := congrArg (fun p => p.2.2) hfields
  intro hd
  have hret : (linuxLoad (kernelVol 4096 (bzImage 1)) (fun _ => []) (fun _ => []) (linuxStart fun _ => 7) bareEntry
      ⟨fun _ => 0, [], []⟩).1.ret ≠ 0 := by
    rw [linuxLoad_eq hf, if_neg (by rintro (h | h); exacts [by omega, h hmagic])]
    exact show kernelAddr + 0x200 ≠ 0 by decide
  obtain ⟨e, f', -, hf', hsize, hfull, -⟩ := hd hret
  obtain rfl := Option.some.inj (hf.symm.trans hf')
  have hall := hfull.all
  omega

end SakuruBoot

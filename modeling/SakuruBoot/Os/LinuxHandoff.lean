import SakuruBoot.Bios.FatChain
import SakuruBoot.Os.LinuxImage

/-!
# Linux from the files of a volume

On a valid volume the BIOS loader has the kernel file and the initrd file whole in its buffers (`linuxReadFiles_content`),
and from them it puts an image in memory (`linuxLoad_image`). The image is one of the bytes on the disk: the handles, the
cluster buffers and the static buffers they went through do not show in it. As everywhere in the model of this loader, the
memory it fills is apart from its buffers.
-/

namespace SakuruBoot.Fat
open CStr Bytes

variable {d : Disk} {part : Nat} {vol : FatVol}

/-- Opening a file of the volume with a slot free: what any read from its start delivers, and that closing it frees the
slot. -/
theorem open_content (hvol : ValidVolume d part vol) {s : FatState} {junk : Nat → List Byte} {path : List Byte}
    {e : DirEntry} (hres : vol.resolve junk path = some e) (hchain : ChainOk d part e.firstCluster e.fileSize)
    (hslot : ∃ i, s.used i = false) : ∃ h s', vol.fatOpen s junk path = (some h, s') ∧
      fatFileSize s' (some h) = e.fileSize ∧ (∀ len, (vol.fatRead s' (some h) len).1 = (content d part e).take len) ∧
      (fatClose s' (some h)).used = s.used ∧ ∀ len, (fatClose (vol.fatRead s' (some h) len).2 (some h)).used = s.used := by
  rcases fatOpen_cases vol s junk path with ⟨b, -, hnone | hfull⟩ | ⟨i, e', b, hres', hfree, hopen⟩
  · rw [hnone] at hres
    cases hres
  · obtain ⟨i, hi⟩ := hslot
    exact Bool.noConfusion (hi.symm.trans (hfull i))
  · obtain rfl : e' = e := Option.some.inj (hres'.symm.trans hres)
    have hpool : Function.update s.pool i (freshFile e') i = freshFile e' := Function.update_self ..
    have hused : Function.update (Function.update s.used i true) i false = s.used := by
      rw [Function.update_idem, ← hfree, Function.update_eq_self]
    have hstart : Open d part e' [] (Function.update s.pool i (freshFile e') i) := by
      rw [hpool]
      refine ⟨⟨rfl, rfl, fun _ => ?_⟩, List.nil_prefix, hchain⟩
      rw [List.length_nil, Nat.zero_div]
      rfl
    refine ⟨i, _, hopen, ?_, fun len => ?_, hused, fun len => ?_⟩
    · show (Function.update s.pool i (freshFile e') i).fileSize = e'.fileSize
      rw [hpool]
      rfl
    · obtain ⟨f', b', hread, -⟩ := @fatRead_spec d part vol hvol
        { pool := Function.update s.pool i (freshFile e'), used := Function.update s.used i true, bufs := b }
          i e' [] hstart len
      have hlen := length_content hvol e'
      have hslice : slice (content d part e') 0 (min len (e'.fileSize - 0)) = (content d part e').take len := by
        rw [slice, List.drop_zero, Nat.sub_zero, ← hlen, List.take_eq_take_iff]
        omega
      exact (congrArg Prod.fst hread).trans hslice
    · show Function.update (vol.fatRead _ (some i) len).2.used i false = s.used
      rw [fatRead_used]
      exact hused

end SakuruBoot.Fat

namespace SakuruBoot
open CStr Bytes Memory Fat

/-- The bytes of a file, and zeros behind them. -/
def bytesOf (bytes : List Byte) (i : Nat) : Byte := bytes.getD i 0

/-- The setup area of a kernel: its sectors, four when it says none, and the boot sector. -/
def setupOf (kernel : List Byte) : Nat := ((if bytesOf kernel 0x1F1 = 0 then 4 else (bytesOf kernel 0x1F1).toNat) + 1) * 512

/-- A kernel the loader starts. -/
structure BootableKernel (kernel : List Byte) : Prop where
  size : kernel.length ≤ 16 * 1024 * 1024
  setup : setupOf kernel ≤ kernel.length
  magic : word (bytesOf kernel) 0x202 4 = linuxMagic

section
variable {d : Disk} {part : Nat} {vol : FatVol}

/-- The initrd of an entry: it is named, on the volume, not empty, and fits its buffer. -/
def initrdOf (d : Disk) (part : Nat) (vol : FatVol) (junk : Nat → List Byte) (initrd : List Byte) :
    Option (Nat × (Nat → Byte)) :=
  if deref initrd = 0 then none
  else (vol.resolve junk initrd).bind fun e =>
    if e.fileSize = 0 ∨ 32 * 1024 * 1024 < e.fileSize then none else some (e.fileSize, bytesOf (content d part e))

theorem setupOf_ge (kernel : List Byte) : 1024 ≤ setupOf kernel := by
  have hsects : 1 ≤ if bytesOf kernel 0x1F1 = 0 then 4 else (bytesOf kernel 0x1F1).toNat := by
    split
    · decide
    · rename_i hne
      have hpos : (bytesOf kernel 0x1F1).toNat ≠ 0 := fun h => hne (UInt8.toNat_inj.mp h)
      omega
  rw [setupOf]
  omega

theorem overlay_bytesOf (buf : Staging) {bytes : List Byte} {i : Nat} (hi : i < bytes.length) :
    buf.overlay bytes i = bytesOf bytes i := by
  rw [Staging.overlay, bytesOf, List.getD_eq_getElem _ _ hi, List.getD_eq_getElem _ _ hi]

theorem LinuxImage.congr {kernel kernel' : Nat → Byte} {ksize setup : Nat} {ramdisk ramdisk' : Option (Nat × (Nat → Byte))}
    {text : List Byte} {mem : Nat → Byte} (h : LinuxImage kernel ksize setup ramdisk text mem) (hle : setup ≤ ksize)
    (hsetup : 1024 ≤ setup) (hkernel : ∀ i < ksize, kernel i = kernel' i)
    (hnone : ramdisk' = none → ramdisk = none) (hsome : ∀ size bytes, ramdisk' = some (size, bytes) →
      ∃ bytes', ramdisk = some (size, bytes') ∧ ∀ i < size, bytes' i = bytes i) :
    LinuxImage kernel' ksize setup ramdisk' text mem where
  high i hi := (h.high i hi).trans (hkernel _ hi)
  header off hoff hin hout := (h.header off hoff hin hout).trans (hkernel _ (by omega))
  zeroPage := h.zeroPage
  typeOfLoader := h.typeOfLoader
  loadflags := by rw [h.loadflags, hkernel 0x211 (by omega)]
  heapEnd := h.heapEnd
  cmdLinePtr := h.cmdLinePtr
  cmdline := h.cmdline
  ramdiskFields size bytes hram := by
    obtain ⟨bytes', hram', -⟩ := hsome size bytes hram
    exact h.ramdiskFields size bytes' hram'
  ramdiskBytes size bytes hram i hi := by
    obtain ⟨bytes', hram', hbytes⟩ := hsome size bytes hram
    exact (h.ramdiskBytes size bytes' hram' i hi).trans (hbytes i hi)
  noRamdisk hram off hlo hhi := (h.noRamdisk (hnone hram) off hlo hhi).trans (hkernel _ (by omega))

theorem linuxReadInitrd_content (hvol : ValidVolume d part vol) {junk : Nat → List Byte} {st : LinuxState}
    {initrd : List Byte} (hslot : ∃ i, st.fat.used i = false)
    (hchain : ∀ e, vol.resolve junk initrd = some e → ChainOk d part e.firstCluster e.fileSize) :
    ∃ ibuf isize iread st', linuxReadInitrd vol junk st initrd = ((ibuf, isize, iread), st') ∧
      st'.fat.used = st.fat.used ∧ (initrdOf d part vol junk initrd = none → ibuf = none ∨ isize = 0) ∧
      ∀ size bytes, initrdOf d part vol junk initrd = some (size, bytes) → isize = size ∧ size ≠ 0 ∧
        ∃ buf, ibuf = some buf ∧ ∀ i < size, buf i = bytes i := by
  unfold linuxReadInitrd initrdOf
  by_cases hname : deref initrd = 0
  · rw [if_pos hname, if_pos hname]
    exact ⟨none, 0, [], st, rfl, rfl, fun _ => .inl rfl, nofun⟩
  · rw [if_neg hname, if_neg hname]
    cases hres : vol.resolve junk initrd with
    | none =>
      rcases fatOpen_cases vol st.fat junk initrd with ⟨b, hopen, -⟩ | ⟨i, e, b, hres', -⟩
      · rw [hopen]
        exact ⟨none, 0, [], _, rfl, rfl, fun _ => .inl rfl, nofun⟩
      · rw [hres] at hres'
        cases hres'
    | some e =>
      obtain ⟨h, s', hopen, hsize, hread, hclosed, hclosed'⟩ := open_content hvol hres (hchain e hres) hslot
      have hlen := length_content hvol e
      rw [hopen, Option.bind_some]
      dsimp only
      rw [hsize]
      by_cases hle : e.fileSize ≤ 32 * 1024 * 1024
      · rw [if_pos hle]
        refine ⟨_, _, _, _, rfl, hclosed' _, fun hnone => .inr ?_, fun size bytes hsome => ?_⟩
        · by_contra hz
          rw [if_neg (by omega)] at hnone
          cases hnone
        · split_ifs at hsome with hbad
          obtain ⟨rfl, rfl⟩ := Prod.mk.inj (Option.some.inj hsome)
          refine ⟨rfl, by omega, _, rfl, fun i hi => ?_⟩
          rw [hread, List.take_of_length_le hlen.le]
          exact overlay_bytesOf _ (by omega)
      · rw [if_neg hle]
        refine ⟨none, _, _, _, rfl, hclosed, fun _ => .inl rfl, fun size bytes hsome => ?_⟩
        rw [if_pos (by omega)] at hsome
        cases hsome

/-- The loader has the files: all bytes of the kernel, and all bytes of the initrd if there is one. -/
structure HoldsFiles (kernel : List Byte) (ramdisk : Option (Nat × (Nat → Byte))) (f : LinuxFiles) : Prop where
  size : f.ksize = kernel.length
  bytes : ∀ i < kernel.length, f.kbuf i = bytesOf kernel i
  noRamdisk : ramdisk = none → f.ramdisk = none
  ramdisk : ∀ size bytes, ramdisk = some (size, bytes) →
    ∃ bytes', f.ramdisk = some (size, bytes') ∧ ∀ i < size, bytes' i = bytes i

theorem linuxReadFiles_content (hvol : ValidVolume d part vol) {junk junk' : Nat → List Byte} {st : LinuxState}
    {entry : BootEntry} {e : DirEntry} (hslot : ∃ i, st.fat.used i = false)
    (hres : vol.resolve junk entry.kernel = some e) (hchain : ChainOk d part e.firstCluster e.fileSize)
    (hsize : e.fileSize ≤ 16 * 1024 * 1024)
    (hinitrd : ∀ e', vol.resolve junk' entry.initrd = some e' → ChainOk d part e'.firstCluster e'.fileSize) :
    ∃ f st', linuxReadFiles vol junk junk' st entry = (some f, st') ∧ st'.fat.used = st.fat.used ∧
      HoldsFiles (content d part e) (initrdOf d part vol junk' entry.initrd) f := by
  have hlen := length_content hvol e
  obtain ⟨h, s', hopen, hfsize, hread, -, hclosed⟩ := open_content hvol hres hchain hslot
  have hwhole : (vol.fatRead s' (some h) e.fileSize).1 = content d part e := by
    rw [hread, List.take_of_length_le hlen.le]
  -- the state the initrd is read in
  let st' : LinuxState := { st with
    fat := fatClose (vol.fatRead s' (some h) e.fileSize).2 (some h)
    kernelBuf := st.kernelBuf.overlay (content d part e) }
  obtain ⟨ibuf, isize, iread, st'', hinit, hused, hnone, hsome⟩ := @linuxReadInitrd_content d part vol hvol junk' st'
    entry.initrd (by rw [show st'.fat.used = st.fat.used from hclosed _]; exact hslot) hinitrd
  let f : LinuxFiles :=
    { kbuf := st.kernelBuf.overlay (content d part e)
      ksize := e.fileSize
      kread := content d part e
      ibuf := ibuf
      isize := isize
      iread := iread }
  have hfiles : linuxReadFiles vol junk junk' st entry = (some f, st'') := by
    rw [linuxReadFiles_eq, hopen]
    dsimp only
    rw [hfsize, if_neg (by omega), hwhole, hinit]
  refine ⟨f, st'', hfiles, hused.trans (hclosed _), hlen.symm, fun i hi => overlay_bytesOf _ hi, fun h => ?_,
    fun size bytes h => ?_⟩
  · show ibuf.bind _ = none
    rcases hnone h with rfl | hz
    · rfl
    · cases ibuf with
      | none => rfl
      | some buf => exact if_pos hz
  · obtain ⟨hsz, hpos, buf, hbuf, heq⟩ := hsome size bytes h
    refine ⟨buf, ?_, heq⟩
    show ibuf.bind _ = _
    rw [hbuf, Option.bind_some]
    show (if isize = 0 then none else some (isize, buf)) = _
    rw [if_neg (by omega), hsz]

theorem HoldsFiles.setup {kernel : List Byte} {ramdisk : Option (Nat × (Nat → Byte))} {f : LinuxFiles}
    (h : HoldsFiles kernel ramdisk f) (hkernel : BootableKernel kernel) :
    f.setupSize = setupOf kernel ∧ ¬(f.ksize < 512 ∨ f.header ≠ linuxMagic) := by
  have hge := setupOf_ge kernel
  have hsetup := hkernel.setup
  have hsize := h.size
  constructor
  · rw [LinuxFiles.setupSize_eq f |>.1, LinuxFiles.setupSects, h.bytes 0x1F1 (by omega), setupOf]
  · rintro (hsmall | hbad)
    · omega
    · refine hbad ?_
      rw [← hkernel.magic, LinuxFiles.header]
      refine word_congr fun b hb => h.bytes b ?_
      rw [inRange_iff (by norm_num)] at hb
      omega

/-- The loader on a bootable kernel of the volume. -/
theorem linuxLoad_image (hvol : ValidVolume d part vol) {junk junk' : Nat → List Byte} {st : LinuxState} {entry : BootEntry}
    {e : DirEntry} (hslot : ∃ i, st.fat.used i = false) (hres : vol.resolve junk entry.kernel = some e)
    (hchain : ChainOk d part e.firstCluster e.fileSize) (hkernel : BootableKernel (content d part e))
    (hinitrd : ∀ e', vol.resolve junk' entry.initrd = some e' → ChainOk d part e'.firstCluster e'.fileSize)
    (mem : Nat → Byte) : ∃ f st', linuxReadFiles vol junk junk' st entry = (some f, st') ∧
      HoldsFiles (content d part e) (initrdOf d part vol junk' entry.initrd) f ∧
      linuxLoad vol junk junk' st entry ⟨mem, [], []⟩ = (linuxSetup f entry.cmdline ⟨mem, [], []⟩, st') ∧
      LinuxImage (bytesOf (content d part e)) e.fileSize (setupOf (content d part e))
        (initrdOf d part vol junk' entry.initrd) (strCopy entry.cmdline 2048)
        (linuxSetup f entry.cmdline ⟨mem, [], []⟩).mem.mem := by
  have hlen := length_content hvol e
  have hsize := hkernel.size
  obtain ⟨f, st', hfiles, -, hhas⟩ := linuxReadFiles_content hvol hslot hres hchain (by omega) hinitrd
  obtain ⟨hfsetup, hgo⟩ := hhas.setup hkernel
  have hksize : f.ksize = e.fileSize := hhas.size.trans hlen
  have hfits : LinuxFits f := by
    refine ⟨by omega, ?_, (linuxReadFiles_size (congrArg Prod.fst hfiles)).2⟩
    rw [hfsetup, hhas.size]
    exact hkernel.setup
  have himage := linuxSetup_image hfits entry.cmdline ⟨mem, [], []⟩
  rw [hfsetup, hksize] at himage
  refine ⟨f, st', hfiles, hhas, ?_, himage.congr (hkernel.setup.trans hlen.le) (setupOf_ge _)
    (fun i hi => hhas.bytes i (by omega)) hhas.noRamdisk hhas.ramdisk⟩
  rw [linuxLoad, hfiles]
  dsimp only
  rw [if_neg hgo]

end

end SakuruBoot

import SakuruBoot.Uefi.LoaderConf

/-!
# Kernel discovery (`uefi/uefi_loader.c`)

The scans that fill the boot table in `uefi_main`: `sakuru.cfg`, loader entries and kernel files of every FAT volume
(`scanAllFilesystems`), the kernels of every ext4 volume (`scanAllExt4`), the second scan of the boot volume
(`rescanBoot`), the shell entry and `loaderEntryScan` of `common/loader_entry.c`.

Firmware and drivers stand behind two records of functions, `FatVolume` and `Ext4Volume`: what opening a path, reading
a directory or reading a file gives. The state is the table together with the array `g_entry_ctx` and
`g_current_sfs_handle`; `origins` is not in the program, it records for each entry of the table what it was made from.
-/

namespace SakuruBoot
open CStr

/-- A pointer or handle of the firmware. -/
abbrev Handle := Nat

/-- `EFI_FILE_INFO`, with the file name up to its NUL. -/
structure FileInfo where
  name : List UInt16
  isDir : Bool
  deriving DecidableEq, Repr

def FileInfo.size (info : FileInfo) : Nat := 80 + 2 * (info.name.length + 1)

/-- What successive `Read` calls with a buffer of the given size deliver: up to the first record that does not fit. -/
def delivered (bufSize : Nat) (infos : List FileInfo) : List FileInfo :=
  infos.takeWhile fun info => info.size ≤ bufSize

/-- A volume behind `EFI_SIMPLE_FILE_SYSTEM_PROTOCOL`, as opened at its root. -/
structure FatVolume where
  sfs : Handle
  root : Handle
  /-- `HandleProtocol` and `OpenVolume` succeed. -/
  mounted : Bool := true
  /-- The records of the directory a path opens. -/
  dir : List Byte → Option (List FileInfo)
  /-- `read_file`. -/
  file : List Byte → Option (List Byte)
  /-- `open_path` succeeds. -/
  opens : List Byte → Bool
  /-- What is read from a file of `/loader/entries` opened by its own name. -/
  entryFile : List UInt16 → Option (List Byte)

/-- A mounted ext4 volume. -/
structure Ext4Volume where
  handle : Handle
  /-- The names `ext4_readdir` calls back with, and whether they are directories. -/
  readdir : List Byte → List (List Byte × Bool)
  /-- `ext4_stat`. -/
  stat : List Byte → Int

inductive FsCtx
  | fat (root : Handle) (sfs : Option Handle)
  | ext4 (vol : Handle)
  deriving DecidableEq, Repr

def FatVolume.ctx (vol : FatVolume) : FsCtx := .fat vol.root (some vol.sfs)

def Ext4Volume.ctx (vol : Ext4Volume) : FsCtx := .ext4 vol.handle

/-- What an entry was made from. -/
inductive Origin
  | sakuruCfg (volume : FsCtx)
  | loaderConf (volume : FsCtx) (file : List UInt16)
  | kernelFile (volume : FsCtx) (path : List Byte)
  | shell
  deriving DecidableEq, Repr

def Origin.volume? : Origin → Option FsCtx
  | sakuruCfg v | loaderConf v _ | kernelFile v _ => some v
  | shell => none

structure ScanState where
  cfg : BootConfig
  entryCtx : Nat → Option FsCtx := fun _ => none
  currentSfs : Option Handle := none
  origins : List Origin := []

/-! ## Strings -/

def ucs2ToAscii (src : List UInt16) (max : Nat) : List Byte :=
  str ((src.take (max - 1)).map fun c => (c &&& 0x7f).toUInt8)

def efiPathJoin (parent child : List Byte) (max : Nat) : List Byte :=
  let out := (str parent).take (max - 1)
  let out := if out ≠ [] ∧ out.getLast? ≠ some 47 ∧ out.length + 1 < max then out ++ [47] else out
  (out ++ (str child).dropWhile (· == 47)).take (max - 1)

/-- `sl_cat` on a buffer of `max` bytes. -/
def slCat (d : List Byte) (max : Nat) (s : List Byte) : List Byte := d ++ (str s).take (max - 1 - d.length)

/-! ## Adding entries -/

/-- `config_add_kernel`, and the context of the new entry when there is one. -/
def addKernel (s : ScanState) (name : List Byte) (type : OSType) (kernelPath : List Byte)
    (initrdPath : Option (List Byte)) (ctx : FsCtx) (origin : Origin) : ScanState :=
  let cfg := (configAddKernel s.cfg name type kernelPath initrdPath).2
  if s.cfg.numEntries < cfg.numEntries then
    { s with
      cfg := cfg
      entryCtx := Function.update s.entryCtx (cfg.numEntries - 1) (some ctx)
      origins := s.origins ++ [origin] }
  else { s with cfg := cfg }

/-- The loop over the entries a `sakuru.cfg` added. -/
def assignCtx (s : ScanState) (entriesBefore : Nat) (cfg : BootConfig) (ctx : FsCtx) (origin : Origin) : ScanState :=
  { s with
    cfg := cfg
    entryCtx := fun j =>
      if entriesBefore ≤ j ∧ j < cfg.numEntries ∧ s.entryCtx j = none then some ctx else s.entryCtx j
    origins := s.origins.take entriesBefore ++ List.replicate (cfg.numEntries - entriesBefore) origin }

/-! ## Kernel files on FAT -/

/-- The initrd names tried beside a kernel, in order. The first two need a `vmlinuz-` suffix, and the list ends at the
first one that is missing. (A suffix of 57 bytes or more makes the second name too long for its buffer of 80; what
the bytes behind the buffer do is not modelled.) -/
def initrdCandidates (name : List Byte) : List (List Byte) :=
  let suffix := if strStarts name (lit "vmlinuz-") then (name.drop 8).take 63 else []
  if suffix = [] then []
  else [lit "initramfs-" ++ suffix.take 64 ++ lit ".img", lit "initramfs-" ++ suffix.take 60 ++ lit "-fallback.img",
    lit "initramfs-linux.img", lit "initramfs-linux-fallback.img", lit "initrd.img", lit "initramfs.img",
    lit "initrd", lit "initramfs"]

/-- A unified kernel image by its extension. -/
def isEfiName (name : List Byte) : Bool :=
  4 < name.length && (name.drop (name.length - 4)).map toLower == lit ".efi"

/-- One file of a scanned directory. -/
def scanFile (vol : FatVolume) (allowEfi : Bool) (dirPath : List Byte) (s : ScanState) (name : List Byte) : ScanState :=
  let type := configGuessType name
  let type := if type = .unknown ∧ allowEfi ∧ isEfiName name then .linux else type
  if type = .unknown then s
  else
    let kernelPath := efiPathJoin dirPath name 256
    let initrd := if type = .linux ∧ !allowEfi then
        ((initrdCandidates name).map fun c => efiPathJoin dirPath c 256).find? vol.opens
      else none
    addKernel s (configMakeName dirPath name type 256) type kernelPath
      (initrd.bind fun p => if p = [] then none else some p)
      (.fat vol.root s.currentSfs) (.kernelFile vol.ctx kernelPath)

/-- The records of a directory: `sub` scans a subdirectory. -/
def scanInfos (vol : FatVolume) (allowEfi : Bool) (sub : List Byte → ScanState → ScanState) (dirPath : List Byte)
    (s : ScanState) : ScanState :=
  match vol.dir dirPath with
  | none => s
  | some infos => (delivered 512 infos).foldl (fun s info =>
      let name := ucs2ToAscii info.name 256
      if name = lit "." ∨ name = lit ".." then s
      else if info.isDir then sub (efiPathJoin dirPath name 256) s
      else scanFile vol allowEfi dirPath s name) s

/-- `scan_dir_uefi` at depth 0; a subdirectory is scanned without its own subdirectories. -/
def scanDirUefi (vol : FatVolume) (dirPath : List Byte) (allowEfi : Bool) (s : ScanState) : ScanState :=
  scanInfos vol allowEfi (fun sub s => scanInfos vol allowEfi (fun _ s => s) sub s) dirPath s

/-! ## Loader entries -/

/-- The command line: the options, then every initrd with backslashes. -/
def loaderCmdline (f : ConfFields) : List Byte :=
  f.initrds.foldl (fun cmdline initrd =>
    if initrd = [] then cmdline
    else
      let cmdline := if cmdline = [] then cmdline else slCat cmdline 256 (lit " ")
      let cmdline := slCat cmdline 256 (lit "initrd=")
      slCat cmdline 256 (initrd.map fun c => if c == 47 then 92 else c)) (strCopy f.options 256)

def endsWithConf (fname : List Byte) : Bool := 6 ≤ fname.length && fname.drop (fname.length - 5) == lit ".conf"

/-- One record of `/loader/entries`. -/
def scanLoaderInfo (vol : FatVolume) (s : ScanState) (info : FileInfo) : ScanState :=
  let fname := ucs2ToAscii info.name 256
  if info.isDir || !endsWithConf fname then s
  else
    match vol.file (efiPathJoin (lit "/loader/entries") fname 256) with
    | none => s
    | some cbuf =>
      let f := scanConf cbuf
      if f.linuxPath = [] then s
      else
        let title := if f.title = [] then strCopy fname 256 else f.title
        let s' := addKernel s title .linux f.linuxPath f.initrds.head? vol.ctx (.loaderConf vol.ctx info.name)
        if s.cfg.numEntries < s'.cfg.numEntries then
          let entries := s'.cfg.entries.modify (s'.cfg.numEntries - 1) fun e =>
            { e with cmdline := strCopy (loaderCmdline f) 256 }
          { s' with cfg := { s'.cfg with entries := entries } }
        else s'

def scanLoaderEntries (vol : FatVolume) (s : ScanState) : ScanState :=
  match vol.dir (lit "/loader/entries") with
  | none => s
  | some infos => (delivered 600 infos).foldl (scanLoaderInfo vol) s

/-! ## All volumes -/

/-- `sakuru.cfg`: a full parse on an empty table, a merge otherwise. -/
def readSakuruCfg (vol : FatVolume) (s : ScanState) : ScanState :=
  match vol.file (lit "/sakuru.cfg") with
  | none => s
  | some buf =>
    let cfg := if s.cfg.numEntries = 0 then (configParse buf s.cfg).2 else (configParseMerge buf s.cfg).2
    assignCtx s s.cfg.numEntries cfg vol.ctx (.sakuruCfg vol.ctx)

def scanVolume (vol : FatVolume) (s : ScanState) : ScanState :=
  let s := readSakuruCfg vol { s with currentSfs := some vol.sfs }
  let s := scanLoaderEntries vol s
  let s := scanDirUefi vol (lit "/boot") false s
  let s := scanDirUefi vol (lit "/EFI/Linux") true s
  scanDirUefi vol (lit "/") false s

/-- The boot volume is swapped to the front. -/
def bootFirst (bootSfs : Option Handle) (vols : List FatVolume) : List FatVolume :=
  match bootSfs with
  | none => vols
  | some h =>
    match vols with
    | [] => []
    | first :: rest =>
      match rest.findIdx? fun vol => vol.sfs == h with
      | none => vols
      | some i => rest.getD i first :: rest.set i first

def scanAllFilesystems (bootSfs : Option Handle) (vols : List FatVolume) (s : ScanState) : ScanState :=
  (bootFirst bootSfs vols).foldl (fun s vol => if vol.mounted then scanVolume vol s else s) s

/-- `ext4_scan_cb`. -/
def ext4ScanCb (vol : Ext4Volume) (dir : List Byte) (s : ScanState) (item : List Byte × Bool) : ScanState :=
  let name := item.1
  let type := configGuessType name
  if item.2 || type = .unknown then s
  else
    let kernelPath := efiPathJoin dir name 256
    let candidates := [lit "initramfs.img", lit "initrd.img", lit "initramfs", lit "initrd",
      lit "initramfs-linux.img", lit "initramfs-linux-fallback.img"]
    let initrd := if type = .linux then
        (candidates.map fun c => efiPathJoin dir c 256).find? fun p => 0 < vol.stat p
      else none
    addKernel s (configMakeName dir name type 256) type kernelPath
      (initrd.bind fun p => if p = [] then none else some p) vol.ctx (.kernelFile vol.ctx kernelPath)

def scanExt4 (s : ScanState) (vol : Ext4Volume) : ScanState :=
  let s := (vol.readdir (lit "/")).foldl (ext4ScanCb vol (lit "/")) s
  (vol.readdir (lit "/boot")).foldl (ext4ScanCb vol (lit "/boot")) s

def scanAllExt4 (vols : List Ext4Volume) (s : ScanState) : ScanState := vols.foldl scanExt4 s

/-- The second scan of the boot volume in `uefi_main`. -/
def rescanBoot (boot : FatVolume) (s : ScanState) : ScanState :=
  let s :=
    if s.cfg.numEntries = 0 then
      match boot.file (lit "/sakuru.cfg") with
      | none => s
      | some buf => assignCtx s 0 (configParse buf s.cfg).2 boot.ctx (.sakuruCfg boot.ctx)
    else s
  let s := { s with currentSfs := some boot.sfs }
  let s := scanDirUefi boot (lit "/boot") false s
  scanDirUefi boot (lit "/EFI/Linux") true s

/-! ## The shell entry and the second loader-entry scan -/

/-- The entry always offered at the end; fields `uefi_main` does not set have their initial values here. -/
def addShell (s : ScanState) : ScanState :=
  if s.cfg.numEntries < maxEntries then
    { s with
      cfg := { s.cfg with entries := s.cfg.entries ++ [{ name := lit "UEFI Shell", type := .uefiShell }] }
      origins := s.origins ++ [.shell] }
  else s

/-- `ucs2_ends_with_conf`: the extension in any case. -/
def ucs2EndsWithConf (name : List UInt16) : Bool :=
  5 ≤ name.length &&
    match name.drop (name.length - 5) with
    | [dot, c, o, n, f] => dot == 46 && (c ||| 0x20) == 99 && (o ||| 0x20) == 111 && (n ||| 0x20) == 110 &&
      (f ||| 0x20) == 102
    | _ => false

/-- The entry a file of the directory gives, when it names a kernel. -/
def entryOfFile (root : FatVolume) (info : FileInfo) : Option BootEntry :=
  if info.isDir || !ucs2EndsWithConf info.name then none
  else
    match root.entryFile info.name with
    | none => none
    | some fbuf =>
      let e := parseEntryConf (fbuf.take 4095)
        { name := (ucs2ToAscii info.name maxStrLen).takeWhile (· != 46) }
      if e.kernel = [] then none else some e

/-- `loader_entry_scan`. -/
def loaderEntryScan (root : FatVolume) (s : ScanState) : ScanState :=
  match root.dir (lit "/loader/entries/") with
  | none => s
  | some infos => (delivered 592 infos).foldl (fun s info =>
      if s.cfg.numEntries < maxEntries then
        match entryOfFile root info with
        | none => s
        | some e =>
          { s with
            cfg := { s.cfg with entries := s.cfg.entries ++ [e] }
            origins := s.origins ++ [.loaderConf root.ctx info.name] }
      else s) s

/-! ## `uefi_main` -/

/-- The three scans that record where entries come from. -/
def scanVolumes (boot : Option FatVolume) (vols : List FatVolume) (ext4s : List Ext4Volume) (s : ScanState) :
    ScanState :=
  let s := scanAllFilesystems (boot.map FatVolume.sfs) vols s
  let s := scanAllExt4 ext4s s
  match boot with
  | none => s
  | some boot => rescanBoot boot s

/-- The whole discovery. -/
def discover (boot : Option FatVolume) (vols : List FatVolume) (ext4s : List Ext4Volume) (s : ScanState) : ScanState :=
  let s := addShell (scanVolumes boot vols ext4s s)
  match boot with
  | none => s
  | some root => loaderEntryScan root s

/-- The state discovery starts from. -/
def startScan : ScanState where
  cfg := { timeout := defaultTimeout, defaultEntry := 0, entries := [], themeColor := 5, accentColor := 14 }

end SakuruBoot

import SakuruBoot.Lib.Bytes

/-!
# The FAT32 driver of stage 2 (`bios/stage2/fat.c`)

`fatInit` reads the boot sector into the driver's globals (`FatVol`). `findInDir` looks a name up in one directory,
`fatOpen`, `fatRead` and `fatClose` work on a pool of eight handles, and `fatReaddir` hands the entries of a
directory to a callback.

The disk is a function from sector numbers to sectors, so `disk_read` delivers what it is asked for. The static
buffers of the driver are state (`Bufs`), with what earlier calls left in them; the bytes that `find_in_dir` and
`fat_readdir` find in their uninitialised `lfn_buf` are an argument.
-/

namespace SakuruBoot.Fat
open CStr Bytes

structure Disk where
  sector : Nat → List Byte
  length_sector : ∀ lba, (sector lba).length = 512

/-- `disk_read`. -/
def diskRead (d : Disk) (lba count : Nat) : List Byte := (List.range count).flatMap fun i => d.sector (lba + i)

/-- The driver's globals after `fat_init`. -/
structure FatVol where
  disk : Disk
  totalSectors32 : Nat
  fatStart : Nat
  dataStart : Nat
  rootCluster : Nat
  spc : Nat

/-- Little-endian field of `n` bytes at `off`. -/
def field (buf : List Byte) (off n : Nat) : Nat := leVal (slice buf off n)

def fatInit (d : Disk) (partLba : Nat) : Option FatVol :=
  let bpb := diskRead d partLba 1
  if field bpb 11 2 ≠ 512 then none
  else if field bpb 36 4 = 0 then none
  else
    let reserved := field bpb 14 2
    let fatSize := field bpb 36 4
    let numFats := field bpb 16 1
    some
      { disk := d
        totalSectors32 := field bpb 32 4
        fatStart := u32 (partLba + reserved)
        dataStart := u32 (partLba + reserved + numFats * fatSize)
        rootCluster := field bpb 44 4
        spc := field bpb 13 1 }

/-- The static buffers: `g_sector_buf` and the cluster buffers of `find_in_dir`, `fat_read` and `fat_readdir`. -/
structure Bufs where
  sector : List Byte
  dir : List Byte
  clust : List Byte
  enum : List Byte

def fat32Eoc : Nat := 0x0FFFFFF8

/-- `cluster >= 2 && cluster < FAT32_EOC`. -/
def isCluster (c : Nat) : Bool := 2 ≤ c && c < fat32Eoc

namespace FatVol

variable (vol : FatVol)

def clusterToLba (cluster : Nat) : Nat := vol.dataStart + (cluster - 2) * vol.spc

/-- The bytes of a cluster on the disk. -/
def clusterData (cluster : Nat) : List Byte := diskRead vol.disk (vol.clusterToLba cluster) vol.spc

def nextCluster (cluster : Nat) (b : Bufs) : Nat × Bufs :=
  let fatOffset := u32 (cluster * 4)
  let fatSector := u32 (vol.fatStart + fatOffset / 512)
  let sector := patch b.sector 0 (diskRead vol.disk fatSector 1)
  (field sector (fatOffset % 512) 4 % 2 ^ 28, { b with sector := sector })

/-- How many clusters a directory may have before its chain counts as corrupted. -/
def clusterLimit : Nat := if vol.spc ≠ 0 then u32 (vol.totalSectors32 / vol.spc + 2) else 0x100000

end FatVol

/-! ## Directory entries

An entry is its 32 bytes, read as a `FAT32_DirEntry` or, when the attribute says so, as a `FAT32_LFN`. -/

abbrev DirEntry := List Byte

namespace DirEntry

variable (e : DirEntry)

def name : List Byte := slice e 0 8
def ext : List Byte := slice e 8 3
def attr : Nat := field e 11 1
def firstCluster : Nat := 2 ^ 16 * field e 20 2 + field e 26 2
def fileSize : Nat := field e 28 4
def isDir : Bool := e.attr &&& 0x10 != 0
def isVolumeId : Bool := e.attr &&& 0x08 != 0
def isLfn : Bool := e.attr == 0x0F
/-- The first byte: 0 ends a directory, 0xE5 marks a deleted entry, and it is `ord` of a long-name entry. -/
def first : Nat := field e 0 1

/-- The low bytes of `name1`, `name2` and `name3`. -/
def lfnChars : List Byte :=
  [1, 3, 5, 7, 9, 14, 16, 18, 20, 22, 24, 28, 30].map fun off => deref (e.drop off)

end DirEntry

/-- `out` after `fat83_to_str`. -/
def fat83ToStr (name ext : List Byte) : List Byte :=
  let base := name.rdropWhile (· == 32)
  let ext := ext.rdropWhile (· == 32)
  if ext.isEmpty then base else base ++ 46 :: ext

def fatToUpper (c : Byte) : Byte := if 97 ≤ c && c ≤ 122 then c - 32 else c

def nameMatch : List Byte → List Byte → Bool
  | [], b => deref b == 0
  | x :: _, [] => x == 0
  | x :: a, y :: b =>
    if x != 0 && y != 0 then
      if fatToUpper x != fatToUpper y then false else nameMatch a b
    else x == 0 && y == 0

/-- The entries of a cluster in a buffer. -/
def entryAt (buf : List Byte) (i : Nat) : DirEntry := slice buf (32 * i) 32

/-- `lfn_buf` and `lfn_len` (0 or 1). -/
structure LfnState where
  buf : List Byte
  len : Bool

/-- The long name a loop compares or lists: `lfn_buf[255]` is always the NUL. -/
def LfnState.text (s : LfnState) : List Byte := str (s.buf.take 255)

/-- Bytes written to `lfn_buf` from position `13 * ord`, those below index 255. -/
def placeLfn (buf : List Byte) (ord : Nat) (bytes : List Byte) : List Byte :=
  patch buf (13 * ord) (bytes.take (255 - 13 * ord))

/-! ## Lookup -/

/-- What one entry does to a lookup: it ends, or goes on. -/
inductive Lookup
  | done (result : Option DirEntry)
  | more (s : LfnState)

/-- One iteration of the inner loop of `find_in_dir`. The characters of a long-name entry are written up to the
first NUL. An `ord` of 0 gives a negative position, below the buffer: nothing of `lfn_buf` is written. -/
def findStep (target : List Byte) (s : LfnState) (e : DirEntry) : Lookup :=
  if e.first = 0 then .done none
  else if e.first = 0xE5 then .more { s with len := false }
  else if e.isLfn then
    let ord := e.first % 64
    if ord = 0 then .more { s with len := true }
    else .more { buf := placeLfn s.buf (ord - 1) (str e.lfnChars), len := true }
  else if s.len && nameMatch s.text target then .done (some e)
  else if nameMatch (fat83ToStr e.name e.ext) target then .done (some e)
  else .more { s with len := false }

def findEntries (target : List Byte) : List DirEntry → LfnState → Lookup
  | [], s => .more s
  | e :: es, s =>
    match findStep target s e with
    | .done r => .done r
    | .more s => findEntries target es s

namespace FatVol

variable (vol : FatVol)

/-- The outer loop of `find_in_dir`, for at most `n` more clusters. -/
def findClusters (target : List Byte) : Nat → Nat → LfnState → Bufs → Option DirEntry × Bufs
  | 0, _, _, b => (none, b)
  | n + 1, cluster, s, b =>
    if isCluster cluster then
      let b := { b with dir := patch b.dir 0 (vol.clusterData cluster) }
      match findEntries target ((List.range (vol.spc * 512 / 32)).map (entryAt b.dir)) s with
      | .done r => (r, b)
      | .more s =>
        let (next, b) := vol.nextCluster cluster b
        findClusters target n next s b
    else (none, b)

/-- `junk` is what the stack holds where `lfn_buf` is. -/
def findInDir (dirCluster : Nat) (target : List Byte) (junk : List Byte) (b : Bufs) : Option DirEntry × Bufs :=
  vol.findClusters target vol.clusterLimit dirCluster { buf := junk, len := false } b

/-- The next component of a path, of 255 bytes at most, and the path behind it. -/
def nextComponent (p : List Byte) : List Byte × List Byte :=
  let component := (takeC (· != 47) p).take 255
  let p := p.drop component.length
  (component, if deref p == 47 then p.tail else p)

/-- The walk of `fat_open`: the entry of the last component. `junk i` is for the `i`-th lookup from the end. -/
def walk (junk : Nat → List Byte) : Nat → Nat → List Byte → Bufs → Option DirEntry × Bufs
  | 0, _, _, b => (none, b)
  | n + 1, cluster, p, b =>
    if deref p == 0 then (none, b)
    else
      let (component, p) := nextComponent p
      match vol.findInDir cluster component (junk n) b with
      | (none, b) => (none, b)
      | (some e, b) =>
        if deref p == 0 then (some e, b)
        else if e.isDir then walk junk n e.firstCluster p b
        else (none, b)

/-- The entry `fat_open` finds, one lookup for each component. -/
def lookupPath (junk : Nat → List Byte) (path : List Byte) (b : Bufs) : Option DirEntry × Bufs :=
  let p := if deref path == 47 then path.tail else path
  vol.walk junk p.length vol.rootCluster p b

end FatVol

/-! ## Handles -/

def maxOpenFiles : Nat := 8

structure FatFile where
  firstCluster : Nat
  fileSize : Nat
  curCluster : Nat
  offset : Nat
  isDir : Bool

/-- A handle is a slot of `g_file_pool`. -/
abbrev FatHandle := Fin maxOpenFiles

structure FatState where
  pool : FatHandle → FatFile
  used : FatHandle → Bool
  bufs : Bufs

namespace FatVol

variable (vol : FatVol)

def fatOpen (s : FatState) (junk : Nat → List Byte) (path : List Byte) : Option FatHandle × FatState :=
  match vol.lookupPath junk path s.bufs with
  | (none, b) => (none, { s with bufs := b })
  | (some e, b) =>
    match (List.finRange maxOpenFiles).find? fun i => !s.used i with
    | none => (none, { s with bufs := b })
    | some i =>
      let f : FatFile :=
        { firstCluster := e.firstCluster, fileSize := e.fileSize, curCluster := e.firstCluster, offset := 0,
          isDir := e.isDir }
      (some i, { pool := Function.update s.pool i f, used := Function.update s.used i true, bufs := b })

/-- The loop of `fat_read`, with `len` bytes left to read. -/
def readLoop : Nat → FatFile → Nat → Bufs → List Byte × FatFile × Bufs
  | 0, f, _, b => ([], f, b)
  | n + 1, f, len, b =>
    if 0 < len && isCluster f.curCluster then
      let clustSz := vol.spc * 512
      let clustOff := f.offset % clustSz
      let inClust := min (clustSz - clustOff) len
      let b := { b with clust := patch b.clust 0 (vol.clusterData f.curCluster) }
      let bytes := slice b.clust clustOff inClust
      let f := { f with offset := f.offset + inClust }
      let (f, b) :=
        if f.offset % clustSz = 0 then
          let (next, b) := vol.nextCluster f.curCluster b
          ({ f with curCluster := next }, b)
        else (f, b)
      let (rest, f, b) := readLoop n f (len - inClust) b
      (bytes ++ rest, f, b)
    else ([], f, b)

/-- `fat_read`: what it copies to the caller's buffer. Each round reads a byte or more. -/
def fatRead (s : FatState) (h : Option FatHandle) (len : Nat) : List Byte × FatState :=
  match h with
  | none => ([], s)
  | some i =>
    let f := s.pool i
    if f.fileSize ≤ f.offset then ([], s)
    else
      let len := min len (f.fileSize - f.offset)
      let (bytes, f, b) := vol.readLoop len f len s.bufs
      (bytes, { s with pool := Function.update s.pool i f, bufs := b })

end FatVol

def fatClose (s : FatState) (h : Option FatHandle) : FatState :=
  match h with
  | none => s
  | some i => { s with used := Function.update s.used i false }

def fatFileSize (s : FatState) (h : Option FatHandle) : Nat :=
  match h with
  | none => 0
  | some i => (s.pool i).fileSize

/-! ## Listing -/

/-- What one entry does to a listing. -/
inductive Listing
  | stop
  | skip (s : LfnState)
  | entry (name : List Byte) (s : LfnState)

/-- One iteration of the inner loop of `fat_readdir`, up to the callback. -/
def listStep (s : LfnState) (e : DirEntry) : Listing :=
  if e.first = 0 then .stop
  else if e.first = 0xE5 then .skip { s with len := false }
  else if e.first = 46 then .skip { s with len := false }
  else if e.isVolumeId && !e.isLfn then .skip { s with len := false }
  else if e.isLfn then
    let ord := e.first % 64
    if ord = 0 || 20 < ord then .skip { s with len := false }
    else .skip { buf := placeLfn s.buf (ord - 1) e.lfnChars, len := true }
  else if s.len then .entry s.text { s with len := false }
  else
    let name := str (fat83ToStr e.name e.ext)
    if name.isEmpty then .skip s else .entry name s

section listing

variable {σ : Type} (vol : FatVol) (cb : List Byte → Bool → Bufs × σ → Bufs × σ)

/-- The inner loop: entry `i` is read from `enum_buf` when its turn comes. `none` is the end of the directory. -/
def listEntries : List Nat → LfnState → Bufs × σ → Option LfnState × Bufs × σ
  | [], s, st => (some s, st)
  | i :: is, s, st =>
    let e := entryAt st.1.enum i
    match listStep s e with
    | .stop => (none, st)
    | .skip s => listEntries is s st
    -- `is_dir` is read before the callback runs
    | .entry name s => listEntries is s (cb name e.isDir st)

def listClusters : Nat → Nat → LfnState → Bufs × σ → Bufs × σ
  | 0, _, _, st => st
  | n + 1, cluster, s, st =>
    if isCluster cluster then
      let st := ({ st.1 with enum := patch st.1.enum 0 (vol.clusterData cluster) }, st.2)
      match listEntries cb (List.range (vol.spc * 512 / 32)) s st with
      | (none, st) => st
      | (some s, st) =>
        let (next, b) := vol.nextCluster cluster st.1
        listClusters n next s (b, st.2)
    else st

/-- The walk of `fat_readdir`, which passes over empty components: the directory's first cluster. -/
def walkDir (junk : Nat → List Byte) : Nat → Nat → List Byte → Bufs → Option Nat × Bufs
  | 0, cluster, _, b => (some cluster, b)
  | n + 1, cluster, p, b =>
    if deref p == 0 then (some cluster, b)
    else
      let (component, p) := FatVol.nextComponent p
      if component.isEmpty then walkDir junk n cluster p b
      else
        match vol.findInDir cluster component (junk n) b with
        | (none, b) => (none, b)
        | (some e, b) => if e.isDir then walkDir junk n e.firstCluster p b else (none, b)

/-- Whether the directory was found, and what the callbacks made of the state. -/
def fatReaddir (junk : Nat → List Byte) (lfnJunk : List Byte) (dirPath : List Byte) (st : Bufs × σ) :
    Bool × Bufs × σ :=
  let p := if deref dirPath == 47 then dirPath.tail else dirPath
  match walkDir vol junk p.length vol.rootCluster p st.1 with
  | (none, b) => (false, b, st.2)
  | (some cluster, b) =>
    (true, listClusters vol cb vol.clusterLimit cluster { buf := lfnJunk, len := false } (b, st.2))

end listing

end SakuruBoot.Fat

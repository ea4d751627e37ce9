import SakuruBoot.Common.ConfigBuffers
import SakuruBoot.Common.Selection
import SakuruBoot.Uefi.Discovery

/-!
# The boot table in memory, over whole runs

The parser of loader entries on memory (`common/loader_entry.c`), beside that of `ConfigBuffers`, and runs of all
the operations that fill the table. `parse_entry_conf` keeps lengths in an `int`; its caller reads at most 4095
bytes of a file, and up to `INT_MAX` bytes the parser does what `parseEntryConf` does (`parseEntryConfMem_spec`).

`TableOp.applyMem` is an operation on the memory and `TableOp.apply` the same operation on what the memory stands
for; `runTableMem_spec` says that the first keeps to its buffers and follows the second, along every run.
-/

namespace SakuruBoot
open CStr

/-! ## The parser of loader entries -/

/-- `KEY_IS`: the length is an `int`. -/
def keyIs (key : List Byte) (word : String) : Bool :=
  i32 key.length == (lit word).length && key.take (lit word).length == lit word

/-- The length of a value without the blanks behind it. -/
def valLen (val : List Byte) : Int :=
  let n := i32 val.length
  if 0 < n then Buffer.trimEnd isSpace val n.toNat else n

/-- `memcpy` of at most 255 bytes, and the NUL. A negative length is a huge `size_t`. -/
def fieldMem (dst : Buffer Byte maxStrLen) (val : List Byte) : Option (Buffer Byte maxStrLen) := do
  let n := if valLen val < 255 then valLen val else 255
  let dst ← Buffer.copyN (n % 2 ^ 64).toNat dst 0 val
  dst.writeInt n 0

def setLoaderKeyMem (e : EntryMem) (key val : List Byte) : Option EntryMem :=
  if keyIs key "title" then do
    let name ← fieldMem e.name val
    some { e with name := name }
  else if keyIs key "linux" then do
    let kernel ← fieldMem e.kernel val
    some { e with kernel := kernel }
  else if keyIs key "initrd" then do
    let initrd ← fieldMem e.initrd val
    some { e with initrd := initrd }
  else if keyIs key "options" then do
    let cmdline ← fieldMem e.cmdline val
    some { e with cmdline := cmdline }
  else some e

/-- One iteration of the main loop, on an entry or on none after a write past it. -/
def entryConfStepMem (p : List Byte) (e : Option EntryMem) : List Byte × Option EntryMem :=
  let p := p.dropWhile isSpace
  match p with
  | [] => (skipLine p, e)
  | c :: _ =>
    if c == 35 || c == 10 || c == 13 then (skipLine p, e)
    else
      let inKey := fun c => !isSpace c && c != 10
      let key := p.takeWhile inKey
      let p := (p.dropWhile inKey).dropWhile isSpace
      let val := p.takeWhile fun c => !isNewline c
      (skipLine (p.dropWhile fun c => !isNewline c), e.bind fun e => setLoaderKeyMem e key val)

def parseEntryConfMem (buf : List Byte) (e : EntryMem) : Option EntryMem := do
  let e ← Lines.readText entryConfStepMem buf (some e)
  some { e with type := .linux, luksTries := if e.luksTries = 0 then 3 else e.luksTries }

theorem keyIs_iff {key : List Byte} (hlen : key.length < 2 ^ 31) (word : String) :
    keyIs key word = true ↔ key = lit word := by
  have hi : i32 key.length = key.length := i32_of_bounds (by omega) (by omega)
  rw [keyIs, hi, Bool.and_eq_true, beq_iff_eq, beq_iff_eq, Nat.cast_inj]
  constructor
  · rintro ⟨heq, htake⟩
    rwa [← heq, List.take_length] at htake
  · rintro rfl
    exact ⟨rfl, List.take_length⟩

theorem valLen_eq {val : List Byte} (hlen : val.length < 2 ^ 31) :
    valLen val = (val.rdropWhile isSpace).length := by
  have hi : i32 val.length = val.length := i32_of_bounds (by omega) (by omega)
  rw [valLen, hi]
  split
  · rw [Int.toNat_natCast, Buffer.trimEnd_spec isSpace List.prefix_rfl]
  · have hnil : val = [] := List.length_eq_zero_iff.mp (by omega)
    rw [hnil]
    rfl

theorem fieldMem_spec {val : List Byte} (hlen : val.length < 2 ^ 31) (dst : Buffer Byte maxStrLen) :
    ∃ dst', fieldMem dst val = some dst' ∧ dst'.Holds (fieldOf (val.rdropWhile isSpace)) := by
  have hpre := List.rdropWhile_prefix isSpace val
  have hle := hpre.length_le
  -- the number of bytes copied
  have hn : (if valLen val < 255 then valLen val else 255) =
      (((val.rdropWhile isSpace).take 255).length : Int) := by
    rw [valLen_eq hlen, List.length_take]
    split <;> omega
  have hcount : (((((val.rdropWhile isSpace).take 255).length : Int) % 2 ^ 64).toNat) =
      ((val.rdropWhile isSpace).take 255).length := by
    rw [List.length_take]
    omega
  have htake : val.take ((val.rdropWhile isSpace).take 255).length = (val.rdropWhile isSpace).take 255 :=
    (List.prefix_iff_eq_take.mp ((List.take_prefix 255 _).trans hpre)).symm
  have hshort : ((val.rdropWhile isSpace).take 255).length < maxStrLen := by
    rw [List.length_take]
    exact lt_of_le_of_lt (Nat.min_le_left _ _) (by decide)
  have hsrc : ((val.rdropWhile isSpace).take 255).length ≤ val.length := by
    rw [List.length_take]
    omega
  obtain ⟨dst₁, hcopy, hdst₁⟩ := Buffer.copyN_spec _ (b := dst) (s := []) List.nil_prefix hsrc
    (by simpa using hshort.le)
  rw [List.nil_append, htake] at hdst₁
  obtain ⟨dst₂, hwrite, hholds⟩ := Buffer.write_nul_str hdst₁ hshort
  refine ⟨dst₂, ?_, hholds⟩
  rw [List.length_nil] at hcopy
  simp only [fieldMem, hn, hcount, hcopy, Option.bind_eq_bind, Option.bind_some, Buffer.writeInt, Int.toNat_natCast]
  rw [if_pos (Int.natCast_nonneg _), hwrite]

theorem setLoaderKeyMem_spec {key val : List Byte} (hkey : key.length < 2 ^ 31) (hval : val.length < 2 ^ 31)
    (m : EntryMem) :
    ∃ m', setLoaderKeyMem m key val = some m' ∧
      ∀ e, m.Holds e → m'.Holds (setLoaderKey e key (val.rdropWhile isSpace)) := by
  unfold setLoaderKeyMem setLoaderKey
  simp only [keyIs_iff hkey]
  split_ifs
  · obtain ⟨dst', hdst, hholds⟩ := fieldMem_spec hval m.name
    rw [hdst]
    exact ⟨_, rfl, fun e h => { h with name := hholds }⟩
  · obtain ⟨dst', hdst, hholds⟩ := fieldMem_spec hval m.kernel
    rw [hdst]
    exact ⟨_, rfl, fun e h => { h with kernel := hholds }⟩
  · obtain ⟨dst', hdst, hholds⟩ := fieldMem_spec hval m.initrd
    rw [hdst]
    exact ⟨_, rfl, fun e h => { h with initrd := hholds }⟩
  · obtain ⟨dst', hdst, hholds⟩ := fieldMem_spec hval m.cmdline
    rw [hdst]
    exact ⟨_, rfl, fun e h => { h with cmdline := hholds }⟩
  · exact ⟨m, rfl, fun e h => h⟩

theorem length_skipLine_le (p : List Byte) : (skipLine p).length ≤ p.length := by
  rw [skipLine, List.length_tail]
  exact le_trans (Nat.sub_le _ _) (List.dropWhile_sublist _).length_le

/-- The iteration on memory reads the same line and does the same to an entry the memory stands for (`H`: that it
stands for one). -/
theorem entryConfStepMem_spec {H : Prop} {p : List Byte} (hlen : p.length < 2 ^ 31) {m : Option EntryMem}
    {e : BootEntry} (h : ∃ m', m = some m' ∧ (H → m'.Holds e)) :
    (entryConfStepMem p m).1 = (entryConfStep p e).1 ∧ (entryConfStepMem p m).1.length < 2 ^ 31 ∧
      ∃ m', (entryConfStepMem p m).2 = some m' ∧ (H → m'.Holds (entryConfStep p e).2) := by
  have hdrop : ∀ (f : Byte → Bool) (l : List Byte), (l.dropWhile f).length ≤ l.length :=
    fun f l => (List.dropWhile_sublist f).length_le
  have htake : ∀ (f : Byte → Bool) (l : List Byte), (l.takeWhile f).length ≤ l.length :=
    fun f l => (List.takeWhile_sublist f).length_le
  have hp := hdrop isSpace p
  unfold entryConfStepMem entryConfStep
  dsimp only
  generalize p.dropWhile isSpace = q at hp ⊢
  cases q with
  | nil => exact ⟨rfl, by simp [skipLine], h⟩
  | cons c q =>
    dsimp only
    have hline := length_skipLine_le (c :: q)
    by_cases hskip : (c == 35 || c == 10 || c == 13) = true
    · rw [if_pos hskip, if_pos hskip]
      exact ⟨rfl, by simp only; omega, h⟩
    · rw [if_neg hskip, if_neg hskip]
      obtain ⟨m', rfl, hm'⟩ := h
      have h₁ := hdrop (fun c => !isSpace c && c != 10) (c :: q)
      have h₂ := hdrop isSpace ((c :: q).dropWhile fun c => !isSpace c && c != 10)
      have h₃ := hdrop (fun c => !isNewline c) (((c :: q).dropWhile fun c => !isSpace c && c != 10).dropWhile isSpace)
      have h₄ := length_skipLine_le ((((c :: q).dropWhile fun c => !isSpace c && c != 10).dropWhile isSpace).dropWhile
        fun c => !isNewline c)
      have hkey := htake (fun c => !isSpace c && c != 10) (c :: q)
      have hval := htake (fun c => !isNewline c)
        (((c :: q).dropWhile fun c => !isSpace c && c != 10).dropWhile isSpace)
      obtain ⟨m'', hset, hm''⟩ := setLoaderKeyMem_spec (lt_of_le_of_lt hkey (by omega))
        (lt_of_le_of_lt hval (by omega)) m'
      rw [Option.bind_some, hset]
      exact ⟨rfl, by simp only; omega, m'', rfl, fun hH => hm'' e (hm' hH)⟩

theorem parseEntryConfMem_spec {buf : List Byte} (hlen : buf.length < 2 ^ 31) (m : EntryMem) (e : BootEntry) :
    ∃ m', parseEntryConfMem buf m = some m' ∧ (m.Holds e → m'.Holds (parseEntryConf buf e)) := by
  have hloop : ∃ m', Lines.readText entryConfStepMem buf (some m) = some m' ∧
      (m.Holds e → m'.Holds (Lines.readText entryConfStep buf e)) :=
    Lines.readText_rel (P := fun rest => rest.length < 2 ^ 31)
      (R := fun (m' : Option EntryMem) e' => ∃ m'', m' = some m'' ∧ (m.Holds e → m''.Holds e'))
      (fun _ _ _ hrest h => entryConfStepMem_spec hrest h) hlen ⟨m, rfl, id⟩
  obtain ⟨m₁, hread, hm₁⟩ := hloop
  refine ⟨_, by rw [parseEntryConfMem, hread]; rfl, fun h => ?_⟩
  obtain ⟨hname, htype, hkernel, hinitrd, hcmdline, henc, hkeyfile, htries⟩ := hm₁ h
  exact ⟨hname, rfl, hkernel, hinitrd, hcmdline, henc, hkeyfile, by rw [parseEntryConf, htries]⟩

/-! ## A file of `/loader/entries` -/

/-- `ucs2_to_ascii_n`. -/
def ucs2ToAsciiMem {n : Nat} (max : Nat) : Buffer Byte n → Nat → List UInt16 → Option (Buffer Byte n)
  | dst, i, [] => dst.write i 0
  | dst, i, c :: src =>
    if c != 0 && decide (i + 1 < max) then do
      let dst ← dst.write i (c &&& 0x7f).toUInt8
      ucs2ToAsciiMem max dst (i + 1) src
    else dst.write i 0

/-- The body of `loader_entry_scan` for a file that was opened: the slot behind the table is cleared, named after
the file and filled; it counts when it names a kernel. `fbuf` holds 4095 bytes of the file. -/
def loaderEntryMem (cfg : ConfigMem) (fname : List UInt16) (fbuf : List Byte) (ascii : Buffer Byte maxStrLen) :
    Option ConfigMem :=
  if cfg.numEntries < maxEntries then do
    let ascii ← ucs2ToAsciiMem maxStrLen ascii 0 fname
    let nlen := (takeC (· != 46) ascii.data).length
    let name ← Buffer.copyN nlen EntryMem.zero.name 0 ascii.data
    let name ← name.write nlen 0
    let e ← parseEntryConfMem (fbuf.take 4095) { EntryMem.zero with name := name }
    let entries ← cfg.entries.write cfg.numEntries e
    some { cfg with
      entries := entries
      numEntries := if deref e.kernel.data != 0 then cfg.numEntries + 1 else cfg.numEntries }
  else some cfg

/-- The same on what the memory stands for. -/
def loaderEntry (cfg : BootConfig) (fname : List UInt16) (fbuf : List Byte) : BootConfig :=
  if cfg.numEntries < maxEntries then
    let e := parseEntryConf (fbuf.take 4095) { name := (ucs2ToAscii fname maxStrLen).takeWhile (· != 46) }
    if e.kernel = [] then cfg else { cfg with entries := cfg.entries ++ [e] }
  else cfg

theorem ucs2ToAsciiMem_spec {n max : Nat} (hmax : max ≤ n) (src : List UInt16) :
    ∀ {b : Buffer Byte n} {s : List Byte}, s <+: b.data → s.length < max →
      ∃ b', ucs2ToAsciiMem max b s.length src = some b' ∧
        b'.Holds (str (s ++ (src.take (max - 1 - s.length)).map fun c => (c &&& 0x7f).toUInt8)) := by
  induction src with
  | nil =>
    intro b s hs hlt
    rw [ucs2ToAsciiMem, List.take_nil, List.map_nil, List.append_nil]
    exact Buffer.write_nul_str hs (by omega)
  | cons c src ih =>
    intro b s hs hlt
    have hend := Buffer.write_nul_str hs (lt_of_lt_of_le hlt hmax)
    rw [ucs2ToAsciiMem]
    by_cases hroom : s.length + 1 < max
    · obtain ⟨k, hk⟩ : ∃ k, max - 1 - s.length = k + 1 := ⟨max - 1 - s.length - 1, by omega⟩
      rw [hk, List.take_succ_cons, List.map_cons]
      by_cases hc : c = 0
      · -- the rest is behind a NUL
        subst hc
        have hzero : ((0 : UInt16) &&& 0x7f).toUInt8 = 0 := rfl
        rw [if_neg (by simp), hzero, str, takeC_nul]
        exact hend
      · obtain ⟨b₁, hb₁, hs₁⟩ := Buffer.write_next hs (by omega) (c &&& 0x7f).toUInt8
        obtain ⟨b', hrun, hholds⟩ := ih hs₁ (by simpa using hroom)
        rw [List.length_append, List.length_singleton] at hrun hholds
        refine ⟨b', ?_, ?_⟩
        · rw [if_pos (by simp [hc, hroom]), hb₁]
          exact hrun
        · rw [List.append_assoc, List.singleton_append, show max - 1 - (s.length + 1) = k by omega] at hholds
          exact hholds
    · rw [if_neg (by simp [hroom]), show max - 1 - s.length = 0 by omega, List.take_zero, List.map_nil,
        List.append_nil]
      exact hend

theorem ConfigMem.Holds.write_free {m : ConfigMem} {cfg : BootConfig} (h : m.Holds cfg) {i : Nat}
    (hi : cfg.numEntries ≤ i) {em : EntryMem} {entries : Buffer EntryMem maxEntries}
    (hwrite : m.entries.write i em = some entries) : { m with entries := entries }.Holds cfg := by
  obtain ⟨ht, hd, hn, hmax, hth, hac, hentry⟩ := h
  refine ⟨ht, hd, hn, hmax, hth, hac, ?_⟩
  intro j e hj
  have hlt : j < cfg.numEntries := (List.getElem?_eq_some_iff.mp hj).1
  rw [Buffer.read_write hwrite, if_neg (by omega)]
  exact hentry j e hj

theorem loaderEntryMem_spec {m : ConfigMem} {cfg : BootConfig} (h : m.Holds cfg) (fname : List UInt16)
    (fbuf : List Byte) (ascii : Buffer Byte maxStrLen) :
    ∃ m', loaderEntryMem m fname fbuf ascii = some m' ∧ m'.Holds (loaderEntry cfg fname fbuf) := by
  unfold loaderEntryMem loaderEntry
  rw [h.numEntries_eq]
  split
  case isFalse => exact ⟨m, rfl, h⟩
  case isTrue hroom =>
    -- the name
    obtain ⟨ascii₁, hascii, hasciiHolds⟩ := ucs2ToAsciiMem_spec (le_refl maxStrLen) fname (b := ascii) (s := [])
      List.nil_prefix (by decide)
    rw [List.nil_append, List.length_nil, Nat.sub_zero] at hasciiHolds
    have hasciiHolds : ascii₁.Holds (ucs2ToAscii fname maxStrLen) := hasciiHolds
    rw [List.length_nil] at hascii
    obtain ⟨junk, hjunk⟩ := hasciiHolds.exists_data
    have hrun : takeC (· != 46) ascii₁.data = (ucs2ToAscii fname maxStrLen).takeWhile (· != 46) := by
      rw [hjunk, takeC_nul]
      refine takeWhile_congr fun c hc => ?_
      simp [hasciiHolds.no_nul c hc]
    have hpre : takeC (· != 46) ascii₁.data <+: ascii₁.data := List.takeWhile_prefix _
    have hlen : (takeC (· != 46) ascii₁.data).length < maxStrLen := by
      rw [hrun]
      exact lt_of_le_of_lt (List.takeWhile_sublist _).length_le hasciiHolds.length_lt
    obtain ⟨name₁, hcopy, hname₁⟩ := Buffer.copyN_spec _ (b := EntryMem.zero.name) (s := []) List.nil_prefix
      hpre.length_le (by simpa using hlen.le)
    rw [List.nil_append, ← List.prefix_iff_eq_take.mp hpre] at hname₁
    obtain ⟨name₂, hwriteName, hname₂⟩ := Buffer.write_nul hname₁ (fun c hc => (mem_takeC hc).1) hlen
    rw [hrun] at hname₂
    rw [List.length_nil] at hcopy
    -- the settings of the file
    obtain ⟨-, -, hkernel, hinitrd, hcmdline, henc, hkeyfile, htries⟩ := EntryMem.zero_holds
    have hshort : (fbuf.take 4095).length < 2 ^ 31 := by
      rw [List.length_take]
      omega
    obtain ⟨em, hparse, hem⟩ := parseEntryConfMem_spec hshort { EntryMem.zero with name := name₂ }
      { name := (ucs2ToAscii fname maxStrLen).takeWhile (· != 46) }
    have hem := hem ⟨hname₂, rfl, hkernel, hinitrd, hcmdline, henc, hkeyfile, htries⟩
    obtain ⟨entries, hwrite, hholds⟩ := h.append hroom hem
    rw [h.numEntries_eq] at hwrite hholds
    simp only [hascii, hcopy, hwriteName, hparse, hwrite, Option.bind_eq_bind, Option.bind_some]
    refine ⟨_, rfl, ?_⟩
    rw [deref_holds hem.kernel]
    generalize parseEntryConf (fbuf.take 4095) { name := (ucs2ToAscii fname maxStrLen).takeWhile (· != 46) } = e
      at hem hholds ⊢
    by_cases hempty : e.kernel = []
    · rw [if_pos hempty, hempty, if_neg (by decide), ← h.numEntries_eq]
      exact h.write_free (le_refl _) hwrite
    · have hne : deref e.kernel ≠ 0 := by
        obtain ⟨c, rest, hcons⟩ := List.exists_cons_of_ne_nil hempty
        rw [hcons]
        exact hem.kernel.no_nul c (by simp [hcons])
      rw [if_neg hempty, if_pos (by simpa using hne)]
      exact hholds

/-! ## Runs -/

/-- An operation on the table, with what it finds in its local buffers. -/
inductive TableOp
  | parse (buf : List Byte) (stack : ParseStack)
  | parseMerge (buf : List Byte) (stack : ParseStack)
  | addKernel (name : List Byte) (type : OSType) (kernelPath : List Byte) (initrdPath : Option (List Byte))
  | entryConf (slot : Fin maxEntries) (buf : List Byte)
  | loaderEntry (fname : List UInt16) (fbuf : List Byte) (ascii : Buffer Byte maxStrLen)

/-- `parse_entry_conf` is only called on texts whose length is an `int`: 4095 bytes at most. -/
def TableOp.LengthOk : TableOp → Prop
  | .entryConf _ buf => buf.length < 2 ^ 31
  | _ => True

def TableOp.applyMem (cfg : ConfigMem) : TableOp → Option ConfigMem
  | .parse buf stack => (doParseMem buf cfg false stack).map Prod.snd
  | .parseMerge buf stack => (doParseMem buf cfg true stack).map Prod.snd
  | .addKernel name type kernelPath initrdPath =>
    (configAddKernelMem cfg name type kernelPath initrdPath).map Prod.snd
  | .entryConf slot buf => do
    let e ← cfg.entries.read slot
    let e ← parseEntryConfMem buf e
    let entries ← cfg.entries.write slot e
    some { cfg with entries := entries }
  | .loaderEntry fname fbuf ascii => loaderEntryMem cfg fname fbuf ascii

/-- The same on what the memory stands for; a slot past the count is not part of it. -/
def TableOp.apply (cfg : BootConfig) : TableOp → BootConfig
  | .parse buf _ => (configParse buf cfg).2
  | .parseMerge buf _ => (configParseMerge buf cfg).2
  | .addKernel name type kernelPath initrdPath => (configAddKernel cfg name type kernelPath initrdPath).2
  | .entryConf slot buf => { cfg with entries := cfg.entries.modify slot (parseEntryConf buf) }
  | .loaderEntry fname fbuf _ => SakuruBoot.loaderEntry cfg fname fbuf

def runTableMem (cfg : ConfigMem) (ops : List TableOp) : Option ConfigMem := ops.foldlM TableOp.applyMem cfg

/-- The configuration on `uefi_main`'s stack: the table is not initialised. -/
def initialConfigMem (entries : Buffer EntryMem maxEntries) : ConfigMem :=
  { timeout := defaultTimeout, defaultEntry := 0, numEntries := 0, themeColor := 5, accentColor := 14,
    entries := entries }

theorem initialConfigMem_holds (entries : Buffer EntryMem maxEntries) :
    (initialConfigMem entries).Holds (initialConfig 5 14) :=
  ⟨rfl, rfl, rfl, Nat.zero_le _, rfl, rfl, by simp [initialConfig]⟩

theorem applyMem_spec {m : ConfigMem} {cfg : BootConfig} (h : m.Holds cfg) {op : TableOp} (hop : op.LengthOk) :
    ∃ m', op.applyMem m = some m' ∧ m'.Holds (op.apply cfg) := by
  cases op with
  | parse buf stack =>
    obtain ⟨m', hparse, hm'⟩ := doParseMem_spec buf false stack h
    exact ⟨m', by rw [TableOp.applyMem, hparse]; rfl, hm'⟩
  | parseMerge buf stack =>
    obtain ⟨m', hparse, hm'⟩ := doParseMem_spec buf true stack h
    exact ⟨m', by rw [TableOp.applyMem, hparse]; rfl, hm'⟩
  | addKernel name type kernelPath initrdPath =>
    obtain ⟨m', hadd, hm'⟩ := configAddKernelMem_spec h name type kernelPath initrdPath
    exact ⟨m', by rw [TableOp.applyMem, hadd]; rfl, hm'⟩
  | loaderEntry fname fbuf ascii => exact loaderEntryMem_spec h fname fbuf ascii
  | entryConf slot buf =>
    have hslot : (slot : Nat) < m.entries.data.length := by
      rw [m.entries.length_eq]
      exact slot.isLt
    have hread : m.entries.read slot = some m.entries.data[slot] := List.getElem?_eq_getElem hslot
    rcases Nat.lt_or_ge slot cfg.numEntries with hlt | hge
    · -- an entry of the table
      obtain ⟨em, hread', hem⟩ := h.entry slot cfg.entries[slot] (List.getElem?_eq_getElem hlt)
      obtain ⟨em', hparse, hem'⟩ := parseEntryConfMem_spec hop em cfg.entries[slot]
      have hchanged : ∀ e, cfg.entries[(slot : Nat)]? = some e → em'.Holds (parseEntryConf buf e) := by
        intro e he
        rw [List.getElem?_eq_getElem hlt] at he
        exact Option.some.inj he ▸ hem' hem
      obtain ⟨entries, hwrite, hholds⟩ := h.modify hlt (parseEntryConf buf) hchanged
      refine ⟨_, ?_, hholds⟩
      simp only [TableOp.applyMem, hread', hparse, hwrite, Option.bind_eq_bind, Option.bind_some]
    · -- a slot behind it
      obtain ⟨em', hparse, -⟩ := parseEntryConfMem_spec hop m.entries.data[slot] {}
      obtain ⟨entries, hwrite, -⟩ := Buffer.write_of_lt (b := m.entries) slot.isLt em'
      have hsame : cfg.entries.modify slot (parseEntryConf buf) = cfg.entries := by
        refine List.ext_getElem? fun j => ?_
        by_cases hj : j = slot
        · rw [hj, List.getElem?_eq_none (by simpa using hge), List.getElem?_eq_none hge]
        · rw [List.getElem?_modify_ne _ _ (Ne.symm hj)]
      refine ⟨{ m with entries := entries }, ?_, ?_⟩
      · simp only [TableOp.applyMem, hread, hparse, hwrite, Option.bind_eq_bind, Option.bind_some]
      · rw [TableOp.apply, hsame]
        exact h.write_free hge hwrite

/-- Along a run no write leaves its buffer, and the memory stands for what the operations make. -/
theorem runTableMem_spec (ops : List TableOp) (hops : ∀ op ∈ ops, op.LengthOk) {m : ConfigMem} {cfg : BootConfig}
    (h : m.Holds cfg) : ∃ m', runTableMem m ops = some m' ∧ m'.Holds (ops.foldl TableOp.apply cfg) := by
  induction ops generalizing m cfg with
  | nil => exact ⟨m, rfl, h⟩
  | cons op ops ih =>
    obtain ⟨m₁, happly, h₁⟩ := applyMem_spec h (hops op (by simp))
    obtain ⟨m', hrun, hm'⟩ := ih (fun op hop => hops op (by simp [hop])) h₁
    refine ⟨m', ?_, hm'⟩
    rw [runTableMem, List.foldlM_cons, happly]
    exact hrun

/-! ## Colours -/

/-- The ranges `config.h` gives for the two colours. -/
structure ColorsOk (cfg : BootConfig) : Prop where
  theme_le : cfg.themeColor ≤ 7
  accent_le : cfg.accentColor ≤ 15

theorem configParseColor_le (name : List Byte) : configParseColor name ≤ 15 := by
  have htable : ∀ c ∈ colorTable, c.2 ≤ 15 := by decide
  unfold configParseColor
  split
  · rename_i c hfind
    exact htable c (List.mem_of_find?_eq_some hfind)
  · decide

theorem toUInt8_le {c : Int} {b : Nat} (hc : c ≤ b) (hb : b < 256) : c.toNat.toUInt8 ≤ b.toUInt8 := by
  rw [UInt8.le_iff_toNat_le, Nat.toUInt8_eq, Nat.toUInt8_eq, UInt8.toNat_ofNat', UInt8.toNat_ofNat']
  omega

theorem setGlobal_colorsOk {cfg : BootConfig} (h : ColorsOk cfg) (key val : List Byte) :
    ColorsOk (setGlobal cfg key val) := by
  unfold setGlobal
  dsimp only
  split_ifs with _ _ _ _ _ htheme
  · exact ⟨h.theme_le, h.accent_le⟩
  · exact ⟨h.theme_le, h.accent_le⟩
  · exact ⟨h.theme_le, toUInt8_le (b := 15) (configParseColor_le val) (by decide)⟩
  · exact h
  · refine ⟨toUInt8_le (b := 7) ?_ (by decide), h.accent_le⟩
    simp only [Bool.and_eq_true, decide_eq_true_eq] at htheme
    exact htheme.2
  · exact h
  · exact h

theorem doParse_colorsOk {cfg : BootConfig} (h : ColorsOk cfg) (buf : List Byte) (merge : Bool) :
    ColorsOk (doParse buf cfg merge).2 := by
  have hclamp : ∀ {c : BootConfig}, ColorsOk c → ColorsOk (clampDefault c) := by
    intro c hc
    unfold clampDefault
    split
    · exact ⟨hc.theme_le, hc.accent_le⟩
    · exact hc
  have hstart : ColorsOk (if merge then cfg else resetConfig cfg) := by
    cases merge with
    | true => exact h
    | false => exact ⟨show (5 : UInt8) ≤ 7 by decide, show (14 : UInt8) ≤ 15 by decide⟩
  refine hclamp (parseLoop_invariant (P := fun s => ColorsOk s.cfg) ?_ _ hstart)
  intro s hs
  obtain ⟨hc, -⟩ | ⟨-, -, e, hc⟩ | ⟨-, key, val, hc⟩ := parseStep_cases merge s
  · rw [hc]
    exact hs
  · rw [hc]
    exact ⟨hs.theme_le, hs.accent_le⟩
  · rw [hc]
    unfold applySetting
    split
    · cases merge with
      | true => exact hs
      | false => exact setGlobal_colorsOk hs key val
    · exact ⟨hs.theme_le, hs.accent_le⟩

theorem apply_colorsOk {cfg : BootConfig} (h : ColorsOk cfg) (op : TableOp) : ColorsOk (op.apply cfg) := by
  cases op with
  | parse buf => exact doParse_colorsOk h buf false
  | parseMerge buf => exact doParse_colorsOk h buf true
  | addKernel name type kernelPath initrdPath =>
    rcases configAddKernel_cases cfg name type kernelPath initrdPath with hc | ⟨-, e, hc⟩
    · rw [TableOp.apply, hc]
      exact h
    · rw [TableOp.apply, hc]
      exact ⟨h.theme_le, h.accent_le⟩
  | entryConf slot buf => exact ⟨h.theme_le, h.accent_le⟩
  | loaderEntry fname fbuf ascii =>
    unfold TableOp.apply loaderEntry
    dsimp only
    split_ifs
    · exact h
    · exact ⟨h.theme_le, h.accent_le⟩
    · exact h

/-! ## Well-formed memory -/

/-- Every string field has a NUL among its 256 bytes. -/
structure EntryMem.Terminated (m : EntryMem) : Prop where
  name : (0 : Byte) ∈ m.name.data
  kernel : (0 : Byte) ∈ m.kernel.data
  initrd : (0 : Byte) ∈ m.initrd.data
  cmdline : (0 : Byte) ∈ m.cmdline.data
  luksKeyfile : (0 : Byte) ∈ m.luksKeyfile.data

structure ConfigMem.WellFormed (m : ConfigMem) : Prop where
  numEntries_le : m.numEntries ≤ maxEntries
  terminated : ∀ i < m.numEntries, ∃ e, m.entries.read i = some e ∧ e.Terminated
  theme_le : m.themeColor ≤ 7
  accent_le : m.accentColor ≤ 15

theorem EntryMem.Holds.terminated {m : EntryMem} {e : BootEntry} (h : m.Holds e) : m.Terminated :=
  ⟨h.name.nul_mem, h.kernel.nul_mem, h.initrd.nul_mem, h.cmdline.nul_mem, h.luksKeyfile.nul_mem⟩

theorem ConfigMem.Holds.wellFormed {m : ConfigMem} {cfg : BootConfig} (h : m.Holds cfg) (hcolors : ColorsOk cfg) :
    m.WellFormed := by
  refine ⟨h.numEntries_eq ▸ h.numEntries_le, ?_, h.themeColor_eq ▸ hcolors.theme_le,
    h.accentColor_eq ▸ hcolors.accent_le⟩
  intro i hi
  rw [h.numEntries_eq] at hi
  obtain ⟨em, hread, hem⟩ := h.entry i cfg.entries[i] (List.getElem?_eq_getElem hi)
  exact ⟨em, hread, hem.terminated⟩

/-- From `uefi_main`'s configuration, every run of the operations keeps to its buffers and leaves a well-formed
table. -/
theorem runTableMem_wellFormed (entries : Buffer EntryMem maxEntries) (ops : List TableOp)
    (hops : ∀ op ∈ ops, op.LengthOk) :
    ∃ m, runTableMem (initialConfigMem entries) ops = some m ∧ m.WellFormed := by
  obtain ⟨m, hrun, hm⟩ := runTableMem_spec ops hops (initialConfigMem_holds entries)
  have hcolors : ColorsOk (ops.foldl TableOp.apply (initialConfig 5 14)) :=
    List.foldlRecOn (motive := ColorsOk) ops _ ⟨by decide, by decide⟩ fun _ hcfg op _ => apply_colorsOk hcfg op
  exact ⟨m, hrun, hm.wellFormed hcolors⟩

/-- A parse, a discovered kernel, a loader entry, and one parsed into the first slot. -/
theorem runTableMem_wellFormed_four :
    ∃ m, runTableMem (initialConfigMem (.fill _ EntryMem.zero))
        [.parse (lit "theme=white\n[entry:A]\nkernel=/a\n") ⟨.fill _ 255, .fill _ 255, .fill _ 255⟩,
          .addKernel (lit "Linux") .linux (lit "/boot/vmlinuz") none,
          .loaderEntry [97, 46, 99, 111, 110, 102] (lit "linux /b\n") (.fill _ 255),
          .entryConf ⟨0, Nat.zero_lt_succ 15⟩ (lit "title T\n")] = some m ∧ m.WellFormed := by
  refine runTableMem_wellFormed (.fill _ EntryMem.zero) _ fun op hop => ?_
  fin_cases hop
  · trivial
  · trivial
  · trivial
  · show (lit "title T\n").length < 2 ^ 31
    decide

end SakuruBoot

import SakuruBoot.Common.ConfigFacts
import SakuruBoot.Lib.Buffer

/-!
# The configuration parser in memory (`common/config.c`)

The functions of `Config` once more, on the memory the C code has: a table of sixteen entries, each with string
fields of 256 bytes, and the parser's own buffers for a line, a key and a value. Every write is checked, so a
function here returns `none` when the C code would write past a buffer.

`EntryMem.Holds` and `ConfigMem.Holds` say which entry and which configuration the memory stands for. The functions
here keep to their buffers and do what those of `Config` do on what the memory stands for (`doParseMem_spec`,
`configAddKernelMem_spec`).
-/

namespace SakuruBoot
open CStr

/-- A `BootEntry` in memory. -/
structure EntryMem where
  name : Buffer Byte maxStrLen
  type : OSType
  kernel : Buffer Byte maxStrLen
  initrd : Buffer Byte maxStrLen
  cmdline : Buffer Byte maxStrLen
  encrypted : Int
  luksKeyfile : Buffer Byte maxStrLen
  luksTries : Int

/-- A `BootConfig` in memory. -/
structure ConfigMem where
  timeout : UInt32
  defaultEntry : UInt32
  numEntries : Nat
  themeColor : UInt8
  accentColor : UInt8
  entries : Buffer EntryMem maxEntries

/-- An entry with all its bytes zero. -/
def EntryMem.zero : EntryMem :=
  { name := .fill _ 0, type := .elf64, kernel := .fill _ 0, initrd := .fill _ 0, cmdline := .fill _ 0,
    encrypted := 0, luksKeyfile := .fill _ 0, luksTries := 0 }

/-! ## The functions -/

def strCopyMem {n : Nat} (dst : Buffer Byte n) (src : List Byte) (max : Nat) : Option (Buffer Byte n) := do
  let (dst, i, _) ← Buffer.copyWhile (fun _ => true) max dst 0 src
  dst.write i 0

/-- The result and the two buffers; a line that is not `key = value` leaves what was written so far. -/
def parseKvMem {kmax vmax : Nat} (line : List Byte) (key : Buffer Byte kmax) (val : Buffer Byte vmax) :
    Option (Bool × Buffer Byte kmax × Buffer Byte vmax) := do
  let (key, ki, p) ←
    Buffer.appendWhile (fun c => !isSpace c && c != 61 && !isNewline c) kmax key 0 (skipSpaces line)
  let key ← key.write ki 0
  if ki = 0 then some (false, key, val)
  else
    let p := skipSpaces p
    if deref p != 61 then some (false, key, val)
    else
      let (val, vi, _) ← Buffer.appendWhile (fun c => !isNewline c) vmax val 0 (skipSpaces p.tail)
      let val ← val.write (Buffer.trimEnd isSpace val.data vi) 0
      some (true, key, val)

def setGlobalMem (cfg : ConfigMem) (key val : List Byte) : ConfigMem :=
  if strEq key (lit "timeout") then { cfg with timeout := parseU32 val }
  else if strEq key (lit "default") then { cfg with defaultEntry := parseU32 val }
  else if strEq key (lit "accent") then
    let c := configParseColor val
    if 0 ≤ c then { cfg with accentColor := c.toNat.toUInt8 } else cfg
  else if strEq key (lit "theme") then
    let c := configParseColor val
    if 0 ≤ c && c ≤ 7 then { cfg with themeColor := c.toNat.toUInt8 } else cfg
  else cfg

def setEntryMem (e : EntryMem) (key val : List Byte) : Option EntryMem :=
  if strEq key (lit "type") then some { e with type := configParseType val }
  else if strEq key (lit "kernel") then do
    let kernel ← strCopyMem e.kernel val maxStrLen
    some { e with kernel := kernel }
  else if strEq key (lit "initrd") then do
    let initrd ← strCopyMem e.initrd val maxStrLen
    some { e with initrd := initrd }
  else if strEq key (lit "cmdline") then do
    let cmdline ← strCopyMem e.cmdline val maxStrLen
    some { e with cmdline := cmdline }
  else if strEq key (lit "encrypted") then
    let c := deref val
    some { e with encrypted := if c == 49 || c == 121 || c == 116 then 1 else 0 }
  else if strEq key (lit "luks_keyfile") then do
    let luksKeyfile ← strCopyMem e.luksKeyfile val maxStrLen
    some { e with luksKeyfile := luksKeyfile }
  else if strEq key (lit "luks_tries") then
    let t := parseI32 val
    some { e with luksTries := if 0 < t then t else 3 }
  else some e

def applySettingMem (merge : Bool) (cfg : ConfigMem) (cur : Option Nat) (key val : List Byte) :
    Option ConfigMem :=
  match cur with
  | none => some (if merge then cfg else setGlobalMem cfg key val)
  | some i => do
    let e ← cfg.entries.read i
    let e ← setEntryMem e key val
    let entries ← cfg.entries.write i e
    some { cfg with entries := entries }

/-- The parser's locals: the text left, the current entry and the three buffers. -/
structure ParseMem where
  rest : List Byte
  cfg : ConfigMem
  cur : Option Nat
  line : Buffer Byte (maxStrLen * 2)
  key : Buffer Byte 64
  val : Buffer Byte maxStrLen

def parseSectionMem (p : List Byte) (s : ParseMem) : Option ParseMem :=
  let skipBracket := fun p : List Byte =>
    let p := dropC (· != 93) p
    if deref p == 93 then p.tail else p
  if strStarts p (lit "entry:") then
    let p := p.drop 6
    if s.cfg.numEntries < maxEntries then do
      let e := { EntryMem.zero with type := .elf64, luksTries := 3 }
      let (name, ni, p) ← Buffer.appendWhile (fun c => c != 93 && !isNewline c) maxStrLen e.name 0 p
      let name ← name.write ni 0
      let entries ← s.cfg.entries.write s.cfg.numEntries { e with name := name }
      some { s with
        rest := skipBracket p
        cfg := { s.cfg with entries := entries, numEntries := s.cfg.numEntries + 1 }
        cur := some s.cfg.numEntries }
    else some { s with rest := skipBracket p }
  else some { s with rest := skipBracket p }

def parseLineMem (merge : Bool) (p : List Byte) (s : ParseMem) : Option ParseMem := do
  let (line, li, rest) ← Buffer.copyWhile (fun c => !isNewline c) (maxStrLen * 2) s.line 0 p
  let line ← line.write li 0
  let (ok, key, val) ← parseKvMem line.data s.key s.val
  let s := { s with rest := rest, line := line, key := key, val := val }
  if ok then do
    let cfg ← applySettingMem merge s.cfg s.cur key.data val.data
    some { s with cfg := cfg }
  else some s

def parseStepMem (merge : Bool) (s : ParseMem) : Option ParseMem :=
  let p := dropC (fun c => isSpace c || isNewline c) s.rest
  if deref p == 0 then some { s with rest := p }
  else if deref p == 35 || deref p == 59 then some { s with rest := dropC (fun c => !isNewline c) p }
  else if deref p == 91 then parseSectionMem p.tail s
  else parseLineMem merge p s

def parseLoopMem (merge : Bool) : Nat → ParseMem → Option ParseMem
  | 0, s => some s
  | n + 1, s => if deref s.rest == 0 then some s else do
      let s ← parseStepMem merge s
      parseLoopMem merge n s

def resetConfigMem (cfg : ConfigMem) : ConfigMem :=
  { cfg with timeout := defaultTimeout, defaultEntry := 0, numEntries := 0, themeColor := 5, accentColor := 14 }

def clampDefaultMem (cfg : ConfigMem) : ConfigMem :=
  if cfg.numEntries ≤ cfg.defaultEntry.toNat ∧ 0 < cfg.numEntries then { cfg with defaultEntry := 0 } else cfg

/-- What is on the stack before the parser's buffers are written. -/
structure ParseStack where
  line : Buffer Byte (maxStrLen * 2)
  key : Buffer Byte 64
  val : Buffer Byte maxStrLen

def doParseMem (buf : List Byte) (cfg : ConfigMem) (merge : Bool) (stack : ParseStack) :
    Option (Int × ConfigMem) := do
  let cfg := if merge then cfg else resetConfigMem cfg
  let s ← parseLoopMem merge buf.length
    { rest := buf, cfg := cfg, cur := none, line := stack.line, key := stack.key, val := stack.val }
  let cfg := clampDefaultMem s.cfg
  some (if 0 < cfg.numEntries then 0 else -1, cfg)

def configAddKernelMem (cfg : ConfigMem) (name : List Byte) (type : OSType) (kernelPath : List Byte)
    (initrdPath : Option (List Byte)) : Option (Int × ConfigMem) :=
  if (cfg.entries.data.take cfg.numEntries).any fun e => strEq e.kernel.data kernelPath then some (0, cfg)
  else if maxEntries ≤ cfg.numEntries then some (-1, cfg)
  else do
    let e := { EntryMem.zero with type := type }
    let nameBuf ← strCopyMem e.name name maxStrLen
    let kernel ← strCopyMem e.kernel kernelPath maxStrLen
    let initrd ← match initrdPath with
      | some p => if deref p != 0 then strCopyMem e.initrd p maxStrLen else some e.initrd
      | none => some e.initrd
    let entries ← cfg.entries.write cfg.numEntries { e with name := nameBuf, kernel := kernel, initrd := initrd }
    some (0, { cfg with entries := entries, numEntries := cfg.numEntries + 1 })

/-! ## What the memory stands for -/

structure EntryMem.Holds (m : EntryMem) (e : BootEntry) : Prop where
  name : m.name.Holds e.name
  type_eq : m.type = e.type
  kernel : m.kernel.Holds e.kernel
  initrd : m.initrd.Holds e.initrd
  cmdline : m.cmdline.Holds e.cmdline
  encrypted_eq : m.encrypted = e.encrypted
  luksKeyfile : m.luksKeyfile.Holds e.luksKeyfile
  luksTries_eq : m.luksTries = e.luksTries

/-- Entries past the count stand for nothing, whatever their bytes are. -/
structure ConfigMem.Holds (m : ConfigMem) (cfg : BootConfig) : Prop where
  timeout_eq : m.timeout = cfg.timeout
  defaultEntry_eq : m.defaultEntry = cfg.defaultEntry
  numEntries_eq : m.numEntries = cfg.numEntries
  numEntries_le : cfg.numEntries ≤ maxEntries
  themeColor_eq : m.themeColor = cfg.themeColor
  accentColor_eq : m.accentColor = cfg.accentColor
  entry : ∀ i e, cfg.entries[i]? = some e → ∃ em, m.entries.read i = some em ∧ em.Holds e

theorem EntryMem.zero_holds : EntryMem.zero.Holds {} := by
  have hfill : (Buffer.fill maxStrLen (0 : Byte)).Holds [] := Buffer.holds_fill (by decide)
  exact ⟨hfill, rfl, hfill, hfill, hfill, rfl, hfill, rfl⟩

/-! ## Reading a buffer as the string it holds -/

section reading

variable {n : Nat} {b : Buffer Byte n} {s : List Byte} (h : b.Holds s)
include h

theorem strEq_holds (x : List Byte) : strEq b.data x = strEq s x := by
  rw [Bool.eq_iff_iff, strEq_iff, strEq_iff, h.str_data, str_of_no_nul h.no_nul]

theorem takeWhile_isDigit_holds : b.data.takeWhile isDigit = s.takeWhile isDigit := by
  have hdigit : isDigit = fun c => c != 0 && isDigit c := by
    funext c
    by_cases hc : c = 0
    · rw [hc]; rfl
    · simp [hc]
  obtain ⟨junk, hjunk⟩ := h.exists_data
  rw [hdigit, hjunk]
  exact takeC_nul isDigit s junk

theorem parseU32_holds : parseU32 b.data = parseU32 s := by
  rw [parseU32, parseU32, takeWhile_isDigit_holds h]

theorem parseI32_holds : parseI32 b.data = parseI32 s := by
  rw [parseI32, parseI32, takeWhile_isDigit_holds h]

theorem configParseColor_holds : configParseColor b.data = configParseColor s := by
  simp only [configParseColor, strEq_holds h]

theorem configParseType_holds : configParseType b.data = configParseType s := by
  simp only [configParseType, strEq_holds h]

theorem deref_holds : deref b.data = deref s := by
  obtain ⟨junk, hjunk⟩ := h.exists_data
  rw [hjunk, deref_nul]

theorem strCopy_holds (max : Nat) : strCopy b.data max = strCopy s max := by
  rw [strCopy, strCopy, h.str_data, str_of_no_nul h.no_nul]

end reading

/-! ## Copying and splitting -/

theorem strCopyMem_spec {n max : Nat} (hmax : max ≤ n) (hpos : 0 < max) (dst : Buffer Byte n) (src : List Byte) :
    ∃ dst', strCopyMem dst src max = some dst' ∧ dst'.Holds (strCopy src max) := by
  obtain ⟨b, t, hrun, ht, hb⟩ :=
    Buffer.copyWhile_spec (f := fun _ => true) hmax src (b := dst) (s := []) List.nil_prefix
  rw [List.nil_append] at hrun hb
  have htCopy : t = strCopy src max := by rw [ht, List.length_nil, Nat.sub_zero]; rfl
  have hlen : t.length ≤ max - 1 := htCopy ▸ length_strCopy_le src max
  have hno : ∀ c ∈ t, c ≠ 0 := by
    intro c hc
    rw [ht] at hc
    exact (mem_takeC (List.mem_of_mem_take hc)).1
  obtain ⟨dst', hwrite, hholds⟩ := Buffer.write_nul hb hno (by omega)
  refine ⟨dst', ?_, htCopy ▸ hholds⟩
  rw [List.length_nil] at hrun
  rw [strCopyMem, hrun, Option.bind_eq_bind, Option.bind_some]
  exact hwrite

theorem appendMem_spec {n : Nat} (f : Byte → Bool) (b : Buffer Byte n) (p : List Byte) :
    ∃ b', Buffer.appendWhile f n b 0 p = some (b', ((takeC f p).take (n - 1)).length, dropC f p) ∧
      (takeC f p).take (n - 1) <+: b'.data := by
  obtain ⟨b', t, hrun, ht, hb'⟩ := Buffer.appendWhile_spec (f := f) (le_refl n) p (b := b) (s := []) List.nil_prefix
  rw [List.nil_append, List.length_nil] at hrun
  rw [List.nil_append] at hb'
  rw [List.length_nil, Nat.sub_zero] at ht
  exact ⟨b', ht ▸ hrun, ht ▸ hb'⟩

theorem no_nul_take_takeC {f : Byte → Bool} {p : List Byte} {k : Nat} : ∀ c ∈ (takeC f p).take k, c ≠ 0 :=
  fun _ hc => (mem_takeC (List.mem_of_mem_take hc)).1

theorem parseKvMem_spec {n kmax vmax : Nat} (hk : 0 < kmax) (hv : 0 < vmax) {line : Buffer Byte n} {l : List Byte}
    (h : line.Holds l) (key : Buffer Byte kmax) (val : Buffer Byte vmax) :
    ∃ ok key' val', parseKvMem line.data key val = some (ok, key', val') ∧
      ((ok = false ∧ parseKv l kmax vmax = none) ∨
        (ok = true ∧ ∃ k v, parseKv l kmax vmax = some (k, v) ∧ key'.Holds k ∧ val'.Holds v)) := by
  obtain ⟨junk, hjunk⟩ := h.exists_data
  have hskip : ∀ s : List Byte, skipSpaces (s ++ 0 :: junk) = skipSpaces s ++ 0 :: junk :=
    fun s => dropC_nul isSpace s junk
  -- the key
  obtain ⟨key₁, hkey, hkey₁⟩ := appendMem_spec (fun c => !isSpace c && c != 61 && !isNewline c) key
    (skipSpaces line.data)
  rw [hjunk, hskip, takeC_nul, dropC_nul] at hkey
  rw [hjunk, hskip, takeC_nul] at hkey₁
  have hno : ∀ c ∈ (takeC (fun c => !isSpace c && c != 61 && !isNewline c) (skipSpaces l)).take (kmax - 1), c ≠ 0 :=
    no_nul_take_takeC
  have hlen : ((takeC (fun c => !isSpace c && c != 61 && !isNewline c) (skipSpaces l)).take (kmax - 1)).length < kmax := by
    rw [List.length_take]; omega
  unfold parseKvMem parseKv
  rw [hjunk, hskip, hkey, Option.bind_eq_bind, Option.bind_some]
  dsimp only
  rw [hskip, deref_nul]
  generalize (takeC (fun c => !isSpace c && c != 61 && !isNewline c) (skipSpaces l)).take (kmax - 1) = k at *
  generalize skipSpaces (dropC (fun c => !isSpace c && c != 61 && !isNewline c) (skipSpaces l)) = rest
  obtain ⟨key₂, hkeyWrite, hkey₂⟩ := Buffer.write_nul hkey₁ hno hlen
  rw [hkeyWrite, Option.bind_eq_bind, Option.bind_some]
  cases k with
  | nil => exact ⟨_, _, _, rfl, .inl ⟨rfl, rfl⟩⟩
  | cons k₀ k =>
    have hcons : ¬(k₀ :: k).length = 0 := Nat.succ_ne_zero _
    have hcons' : ¬(k₀ :: k).isEmpty = true := nofun
    rw [if_neg hcons, if_neg hcons']
    cases rest with
    | nil => exact ⟨_, _, _, rfl, .inl ⟨rfl, rfl⟩⟩
    | cons x rest =>
      by_cases heq : x = 61
      · -- the value, trimmed
        obtain ⟨val₁, hval, hval₁⟩ := appendMem_spec (fun c => !isNewline c) val (skipSpaces (rest ++ 0 :: junk))
        rw [hskip, takeC_nul, dropC_nul] at hval
        rw [hskip, takeC_nul] at hval₁
        have htrim := Buffer.trimEnd_spec isSpace hval₁
        have hpre := List.rdropWhile_prefix isSpace
          ((takeC (fun c => !isNewline c) (skipSpaces rest)).take (vmax - 1))
        obtain ⟨val₂, hvalWrite, hval₂⟩ := Buffer.write_nul (hpre.trans hval₁)
          (fun c hc => no_nul_take_takeC c (hpre.subset hc))
          (by have := hpre.length_le; rw [List.length_take] at this; omega)
        rw [heq, List.cons_append, List.tail_cons, hskip, hval, Option.bind_eq_bind, Option.bind_some]
        dsimp only
        rw [htrim, hvalWrite]
        exact ⟨_, _, _, rfl, .inr ⟨rfl, _, _, rfl, hkey₂, hval₂⟩⟩
      · have hne : (deref (x :: rest) != 61) = true := bne_iff_ne.mpr heq
        rw [if_pos hne, if_pos hne]
        exact ⟨_, _, _, rfl, .inl ⟨rfl, rfl⟩⟩

/-! ## One setting -/

section setting

variable {kmax vmax : Nat} {key : Buffer Byte kmax} {val : Buffer Byte vmax} {k v : List Byte}
  (hkey : key.Holds k) (hval : val.Holds v)
include hkey hval

theorem setGlobalMem_spec {m : ConfigMem} {cfg : BootConfig} (h : m.Holds cfg) :
    (setGlobalMem m key.data val.data).Holds (setGlobal cfg k v) := by
  obtain ⟨ht, hd, hn, hmax, hth, hac, hentry⟩ := h
  unfold setGlobalMem setGlobal
  simp only [strEq_holds hkey, parseU32_holds hval, configParseColor_holds hval]
  split_ifs
  · exact ⟨rfl, hd, hn, hmax, hth, hac, hentry⟩
  · exact ⟨ht, rfl, hn, hmax, hth, hac, hentry⟩
  · exact ⟨ht, hd, hn, hmax, hth, rfl, hentry⟩
  · exact ⟨ht, hd, hn, hmax, hth, hac, hentry⟩
  · exact ⟨ht, hd, hn, hmax, rfl, hac, hentry⟩
  · exact ⟨ht, hd, hn, hmax, hth, hac, hentry⟩
  · exact ⟨ht, hd, hn, hmax, hth, hac, hentry⟩

theorem setEntryMem_spec {m : EntryMem} {e : BootEntry} (h : m.Holds e) :
    ∃ m', setEntryMem m key.data val.data = some m' ∧ m'.Holds (setEntry e k v) := by
  obtain ⟨hname, htype, hkernel, hinitrd, hcmdline, henc, hkeyfile, htries⟩ := h
  have hcopy : ∀ dst : Buffer Byte maxStrLen,
      ∃ dst', strCopyMem dst val.data maxStrLen = some dst' ∧ dst'.Holds (strCopy v maxStrLen) := by
    intro dst
    rw [← strCopy_holds hval]
    exact strCopyMem_spec (le_refl _) (by decide) dst val.data
  unfold setEntryMem setEntry
  simp only [strEq_holds hkey, parseI32_holds hval, configParseType_holds hval, deref_holds hval]
  split_ifs
  · exact ⟨_, rfl, hname, rfl, hkernel, hinitrd, hcmdline, henc, hkeyfile, htries⟩
  · obtain ⟨dst', hdst, hholds⟩ := hcopy m.kernel
    rw [hdst]
    exact ⟨_, rfl, hname, htype, hholds, hinitrd, hcmdline, henc, hkeyfile, htries⟩
  · obtain ⟨dst', hdst, hholds⟩ := hcopy m.initrd
    rw [hdst]
    exact ⟨_, rfl, hname, htype, hkernel, hholds, hcmdline, henc, hkeyfile, htries⟩
  · obtain ⟨dst', hdst, hholds⟩ := hcopy m.cmdline
    rw [hdst]
    exact ⟨_, rfl, hname, htype, hkernel, hinitrd, hholds, henc, hkeyfile, htries⟩
  · exact ⟨_, rfl, hname, htype, hkernel, hinitrd, hcmdline, rfl, hkeyfile, htries⟩
  · exact ⟨_, rfl, hname, htype, hkernel, hinitrd, hcmdline, rfl, hkeyfile, htries⟩
  · obtain ⟨dst', hdst, hholds⟩ := hcopy m.luksKeyfile
    rw [hdst]
    exact ⟨_, rfl, hname, htype, hkernel, hinitrd, hcmdline, henc, hholds, htries⟩
  · exact ⟨_, rfl, hname, htype, hkernel, hinitrd, hcmdline, henc, hkeyfile, rfl⟩
  · exact ⟨_, rfl, hname, htype, hkernel, hinitrd, hcmdline, henc, hkeyfile, rfl⟩
  · exact ⟨_, rfl, hname, htype, hkernel, hinitrd, hcmdline, henc, hkeyfile, htries⟩

end setting

/-! ## The table -/

theorem ConfigMem.Holds.modify {m : ConfigMem} {cfg : BootConfig} (h : m.Holds cfg) {i : Nat} {em : EntryMem}
    (hi : i < cfg.numEntries) (f : BootEntry → BootEntry) (hem : ∀ e, cfg.entries[i]? = some e → em.Holds (f e)) :
    ∃ entries, m.entries.write i em = some entries ∧
      { m with entries := entries }.Holds { cfg with entries := cfg.entries.modify i f } := by
  obtain ⟨ht, hd, hn, hmax, hth, hac, hentry⟩ := h
  obtain ⟨entries, hwrite, -⟩ := Buffer.write_of_lt (b := m.entries) (lt_of_lt_of_le hi hmax) em
  refine ⟨entries, hwrite, ht, hd, ?_, ?_, hth, hac, ?_⟩
  · simpa [BootConfig.numEntries] using hn
  · simpa [BootConfig.numEntries] using hmax
  · intro j e hj
    rw [Buffer.read_write hwrite]
    by_cases hji : j = i
    · subst hji
      rw [if_pos rfl]
      rw [List.getElem?_modify_eq, Option.map_eq_map, Option.map_eq_some_iff] at hj
      obtain ⟨e₀, he₀, rfl⟩ := hj
      exact ⟨em, rfl, hem e₀ he₀⟩
    · rw [if_neg hji]
      rw [List.getElem?_modify_ne f _ (Ne.symm hji)] at hj
      exact hentry j e hj

theorem ConfigMem.Holds.append {m : ConfigMem} {cfg : BootConfig} (h : m.Holds cfg)
    (hroom : cfg.numEntries < maxEntries) {em : EntryMem} {e : BootEntry} (hem : em.Holds e) :
    ∃ entries, m.entries.write m.numEntries em = some entries ∧
      { m with entries := entries, numEntries := m.numEntries + 1 }.Holds
        { cfg with entries := cfg.entries ++ [e] } := by
  obtain ⟨ht, hd, hn, hmax, hth, hac, hentry⟩ := h
  obtain ⟨entries, hwrite, -⟩ := Buffer.write_of_lt (b := m.entries) (hn ▸ hroom) em
  refine ⟨entries, hwrite, ht, hd, ?_, ?_, hth, hac, ?_⟩
  · simpa [BootConfig.numEntries] using hn
  · simpa [BootConfig.numEntries] using hroom
  · intro j e' hj
    rw [Buffer.read_write hwrite, hn]
    by_cases hjn : j = cfg.numEntries
    · rw [if_pos hjn]
      have hlast : (cfg.entries ++ [e])[j]? = some e := by simp [hjn]
      rw [hlast] at hj
      obtain rfl := Option.some.inj hj
      exact ⟨em, rfl, hem⟩
    · rw [if_neg hjn]
      have hlen := (List.getElem?_eq_some_iff.mp hj).1
      have hlt : j < cfg.entries.length := by
        rw [List.length_append, List.length_singleton] at hlen
        exact lt_of_le_of_ne (Nat.le_of_lt_succ hlen) hjn
      rw [List.getElem?_append_left hlt] at hj
      exact hentry j e' hj

theorem applySettingMem_spec {kmax vmax : Nat} {key : Buffer Byte kmax} {val : Buffer Byte vmax} {k v : List Byte}
    (hkey : key.Holds k) (hval : val.Holds v) (merge : Bool) {m : ConfigMem} {cfg : BootConfig} (h : m.Holds cfg)
    {cur : Option Nat} (hcur : ∀ i, cur = some i → i < cfg.numEntries) :
    ∃ m', applySettingMem merge m cur key.data val.data = some m' ∧ m'.Holds (applySetting merge cfg cur k v) := by
  cases cur with
  | none =>
    refine ⟨_, rfl, ?_⟩
    cases merge with
    | true => exact h
    | false => exact setGlobalMem_spec hkey hval h
  | some i =>
    have hi := hcur i rfl
    obtain ⟨em, hread, hem⟩ := h.entry i cfg.entries[i] (List.getElem?_eq_getElem hi)
    obtain ⟨em', hset, hem'⟩ := setEntryMem_spec hkey hval hem
    have hchanged : ∀ e, cfg.entries[i]? = some e → em'.Holds (setEntry e k v) := by
      intro e he
      rw [List.getElem?_eq_getElem hi] at he
      exact Option.some.inj he ▸ hem'
    obtain ⟨entries, hwrite, hholds⟩ := h.modify hi (fun e => setEntry e k v) hchanged
    refine ⟨_, ?_, hholds⟩
    simp only [applySettingMem, hread, hset, hwrite, Option.bind_eq_bind, Option.bind_some]

/-! ## The parser -/

/-- The parser in memory is where the parser of `Config` is. -/
structure ParseMem.Holds (m : ParseMem) (s : ParseState) : Prop where
  rest_eq : m.rest = s.rest
  cfg : m.cfg.Holds s.cfg
  cur_eq : m.cur = s.cur
  cur_lt : ∀ i, s.cur = some i → i < s.cfg.numEntries

theorem parseSectionMem_spec {m : ParseMem} {s : ParseState} (h : m.Holds s) (p : List Byte) :
    ∃ m', parseSectionMem p m = some m' ∧ m'.Holds (parseSection p s.cfg s.cur) := by
  obtain ⟨-, hcfg, hcur, hlt⟩ := h
  have hn : m.cfg.numEntries = s.cfg.numEntries := hcfg.numEntries_eq
  unfold parseSectionMem parseSection
  dsimp only
  split
  · by_cases hroom : s.cfg.numEntries < maxEntries
    · obtain ⟨name₁, hname, hname₁⟩ := appendMem_spec (fun c => c != 93 && !isNewline c) EntryMem.zero.name (p.drop 6)
      obtain ⟨name₂, hwriteName, hname₂⟩ := Buffer.write_nul hname₁ no_nul_take_takeC
        (by rw [List.length_take]; exact lt_of_le_of_lt (Nat.min_le_left _ _) (by decide))
      obtain ⟨-, -, hkernel, hinitrd, hcmdline, henc, hkeyfile, -⟩ := EntryMem.zero_holds
      have hem : EntryMem.Holds { EntryMem.zero with type := .elf64, luksTries := 3, name := name₂ }
          { type := .elf64, luksTries := 3,
            name := (takeC (fun c => c != 93 && !isNewline c) (p.drop 6)).take (maxStrLen - 1) } :=
        ⟨hname₂, rfl, hkernel, hinitrd, hcmdline, henc, hkeyfile, rfl⟩
      obtain ⟨entries, hwrite, hholds⟩ := hcfg.append hroom hem
      rw [if_pos (hn ▸ hroom), if_pos hroom]
      simp only [hname, hwriteName, hwrite, Option.bind_eq_bind, Option.bind_some]
      refine ⟨_, rfl, rfl, hholds, congrArg some hn, ?_⟩
      intro i hi
      obtain rfl := Option.some.inj hi
      simp [BootConfig.numEntries]
    · rw [if_neg (hn ▸ hroom), if_neg hroom]
      exact ⟨_, rfl, rfl, hcfg, hcur, hlt⟩
  · exact ⟨_, rfl, rfl, hcfg, hcur, hlt⟩

theorem parseLineMem_spec (merge : Bool) {m : ParseMem} {s : ParseState} (h : m.Holds s) (p : List Byte) :
    ∃ m', parseLineMem merge p m = some m' ∧ m'.Holds (parseLine merge p s.cfg s.cur) := by
  obtain ⟨-, hcfg, hcur, hlt⟩ := h
  -- the line
  obtain ⟨line₁, l, hcopy, hl, hline₁⟩ := Buffer.copyWhile_spec (f := fun c => !isNewline c) (le_refl (maxStrLen * 2)) p
    (b := m.line) (s := []) List.nil_prefix
  rw [List.nil_append, List.length_nil] at hcopy
  rw [List.nil_append] at hline₁
  rw [List.length_nil, Nat.sub_zero] at hl
  have hlen : l.length < maxStrLen * 2 := by
    rw [hl, List.length_take]
    exact lt_of_le_of_lt (Nat.min_le_left _ _) (by decide)
  obtain ⟨line₂, hwriteLine, hline₂⟩ := Buffer.write_nul hline₁ (hl ▸ no_nul_take_takeC) hlen
  -- its key and value
  obtain ⟨ok, key, val, hkv, hcases⟩ := parseKvMem_spec (by decide) (by decide) hline₂ m.key m.val
  unfold parseLineMem parseLine
  dsimp only
  rw [← hl]
  simp only [hcopy, hwriteLine, hkv, Option.bind_eq_bind, Option.bind_some]
  rcases hcases with ⟨rfl, hnone⟩ | ⟨rfl, k, v, hsome, hkey, hval⟩
  · rw [hnone]
    exact ⟨_, rfl, rfl, hcfg, hcur, hlt⟩
  · obtain ⟨m', happly, hm'⟩ := applySettingMem_spec hkey hval merge hcfg hlt
    rw [hsome, if_pos rfl, hcur, happly]
    refine ⟨_, rfl, rfl, hm', rfl, ?_⟩
    intro i hi
    rw [applySetting_numEntries]
    exact hlt i hi

theorem parseStepMem_spec (merge : Bool) {m : ParseMem} {s : ParseState} (h : m.Holds s) :
    ∃ m', parseStepMem merge m = some m' ∧ m'.Holds (parseStep merge s) := by
  unfold parseStepMem parseStep
  dsimp only
  rw [h.rest_eq]
  split
  · exact ⟨_, rfl, rfl, h.cfg, h.cur_eq, h.cur_lt⟩
  · split
    · exact ⟨_, rfl, rfl, h.cfg, h.cur_eq, h.cur_lt⟩
    · split
      · exact parseSectionMem_spec h _
      · exact parseLineMem_spec merge h _

theorem parseLoopMem_spec (merge : Bool) (n : Nat) {m : ParseMem} {s : ParseState} (h : m.Holds s) :
    ∃ m', parseLoopMem merge n m = some m' ∧ m'.Holds (parseLoop merge n s) := by
  induction n generalizing m s with
  | zero => exact ⟨m, rfl, h⟩
  | succ n ih =>
    rw [parseLoopMem, parseLoop, h.rest_eq]
    split
    · exact ⟨m, rfl, h⟩
    · obtain ⟨m₁, hstep, h₁⟩ := parseStepMem_spec merge h
      rw [hstep]
      exact ih h₁

theorem clampDefaultMem_spec {m : ConfigMem} {cfg : BootConfig} (h : m.Holds cfg) :
    (clampDefaultMem m).Holds (clampDefault cfg) := by
  obtain ⟨ht, hd, hn, hmax, hth, hac, hentry⟩ := h
  unfold clampDefaultMem clampDefault
  rw [hd, hn]
  split
  · exact ⟨ht, rfl, rfl, hmax, hth, hac, hentry⟩
  · exact ⟨ht, hd, hn, hmax, hth, hac, hentry⟩

/-- `do_parse` keeps to its buffers, whatever the text is and whatever they held before. -/
theorem doParseMem_spec (buf : List Byte) (merge : Bool) (stack : ParseStack) {m : ConfigMem} {cfg : BootConfig}
    (h : m.Holds cfg) :
    ∃ m', doParseMem buf m merge stack = some ((doParse buf cfg merge).1, m') ∧
      m'.Holds (doParse buf cfg merge).2 := by
  have hstart : (if merge then m else resetConfigMem m).Holds (if merge then cfg else resetConfig cfg) := by
    cases merge with
    | true => exact h
    | false => exact ⟨rfl, rfl, rfl, Nat.zero_le _, rfl, rfl, by simp [resetConfig]⟩
  obtain ⟨s, hloop, hs⟩ := parseLoopMem_spec merge buf.length
    (m := { rest := buf, cfg := if merge then m else resetConfigMem m, cur := none, line := stack.line,
            key := stack.key, val := stack.val })
    (s := { rest := buf, cfg := if merge then cfg else resetConfig cfg, cur := none })
    ⟨rfl, hstart, rfl, nofun⟩
  have hclamp := clampDefaultMem_spec hs.cfg
  refine ⟨clampDefaultMem s.cfg, ?_, hclamp⟩
  simp only [doParseMem, doParse, hloop, Option.bind_eq_bind, Option.bind_some, hclamp.numEntries_eq]

/-! ## Discovered kernels -/

theorem any_kernel_holds {m : ConfigMem} {cfg : BootConfig} (h : m.Holds cfg) (path : List Byte) :
    ((m.entries.data.take m.numEntries).any fun e => strEq e.kernel.data path) =
      cfg.entries.any fun e => strEq e.kernel path := by
  have hlen : (m.entries.data.take m.numEntries).length = cfg.entries.length := by
    rw [List.length_take, m.entries.length_eq, h.numEntries_eq]
    exact Nat.min_eq_left h.numEntries_le
  have hmap : (m.entries.data.take m.numEntries).map (fun e => strEq e.kernel.data path) =
      cfg.entries.map fun e => strEq e.kernel path := by
    refine List.ext_getElem (by simpa using hlen) fun i hi hi' => ?_
    rw [List.length_map] at hi hi'
    obtain ⟨em, hread, hem⟩ := h.entry i cfg.entries[i] (List.getElem?_eq_getElem hi')
    have hget : (m.entries.data.take m.numEntries)[i] = em := by
      rw [List.getElem_take]
      exact (List.getElem?_eq_some_iff.mp hread).2
    rw [List.getElem_map, List.getElem_map, hget, strEq_holds hem.kernel]
  have hany : ∀ {α : Type} (f : α → Bool) (l : List α), l.any f = (l.map f).any id := by simp
  rw [hany, hmap, ← hany]

theorem configAddKernelMem_spec {m : ConfigMem} {cfg : BootConfig} (h : m.Holds cfg) (name : List Byte)
    (type : OSType) (kernelPath : List Byte) (initrdPath : Option (List Byte)) :
    ∃ m', configAddKernelMem m name type kernelPath initrdPath =
        some ((configAddKernel cfg name type kernelPath initrdPath).1, m') ∧
      m'.Holds (configAddKernel cfg name type kernelPath initrdPath).2 := by
  have hcopy : ∀ dst : Buffer Byte maxStrLen, ∀ src,
      ∃ dst', strCopyMem dst src maxStrLen = some dst' ∧ dst'.Holds (strCopy src maxStrLen) :=
    strCopyMem_spec (le_refl _) (by decide)
  unfold configAddKernelMem configAddKernel
  rw [any_kernel_holds h, h.numEntries_eq]
  split
  · exact ⟨m, rfl, h⟩
  · split
    · exact ⟨m, rfl, h⟩
    · rename_i hfull
      obtain ⟨name', hname, hnameHolds⟩ := hcopy EntryMem.zero.name name
      obtain ⟨kernel', hkernel, hkernelHolds⟩ := hcopy EntryMem.zero.kernel kernelPath
      obtain ⟨-, -, -, hzero, hcmdline, henc, hkeyfile, htries⟩ := EntryMem.zero_holds
      have hem : ∀ {initrd' : Buffer Byte maxStrLen} {s : List Byte}, initrd'.Holds s → EntryMem.Holds
          { EntryMem.zero with type := type, name := name', kernel := kernel', initrd := initrd' }
          { type := type, name := strCopy name maxStrLen, kernel := strCopy kernelPath maxStrLen, initrd := s } :=
        fun hs => ⟨hnameHolds, rfl, hkernelHolds, hs, hcmdline, henc, hkeyfile, htries⟩
      have hadd : ∀ {initrd' : Buffer Byte maxStrLen} {s : List Byte}, initrd'.Holds s → _ :=
        fun hs => h.append (Nat.lt_of_not_le hfull) (hem hs)
      rw [h.numEntries_eq] at hadd
      simp only [hname, hkernel, Option.bind_eq_bind, Option.bind_some]
      cases initrdPath with
      | none =>
        obtain ⟨entries, hwrite, hholds⟩ := hadd hzero
        simp only [hwrite, Option.bind_some]
        exact ⟨_, rfl, hholds⟩
      | some p =>
        dsimp only
        split
        · obtain ⟨initrd', hinitrd, hs⟩ := hcopy EntryMem.zero.initrd p
          obtain ⟨entries, hwrite, hholds⟩ := hadd hs
          simp only [hinitrd, hwrite, Option.bind_some]
          exact ⟨_, rfl, hholds⟩
        · obtain ⟨entries, hwrite, hholds⟩ := hadd hzero
          simp only [hwrite, Option.bind_some]
          exact ⟨_, rfl, hholds⟩

end SakuruBoot

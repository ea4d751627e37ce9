import SakuruBoot.Lib.CStr

/-!
# The configuration file parser (`common/config.c`)

The boot table and every operation on it: the `sakuru.cfg` parser `doParse` behind `configParse`
and `configParseMerge`, the discovery helpers `configGuessType`, `configMakeName` and
`configAddKernel`, and the two name tables.

The C table is an array of sixteen entries with a count; here it is the list of the first
`num_entries` of them, and `cur`, the parser's pointer to the current entry, is an index into it.
One iteration of the parser's main loop is `parseStep`; a text is parsed by as many iterations as
it has bytes, which is always enough (`parseLoop_rest`).
-/

namespace SakuruBoot
open CStr

def maxEntries : Nat := 16
def maxStrLen : Nat := 256
def defaultTimeout : UInt32 := 5

inductive OSType
  | elf64
  | linux
  | multiboot2
  | uefiShell
  | windows
  | unknown
  deriving DecidableEq, Repr

/-- A boot entry. The string fields hold the bytes before the NUL. -/
structure BootEntry where
  name : List Byte := []
  type : OSType := .elf64
  kernel : List Byte := []
  initrd : List Byte := []
  cmdline : List Byte := []
  encrypted : Int := 0
  luksKeyfile : List Byte := []
  luksTries : Int := 0
  deriving DecidableEq, Repr

structure BootConfig where
  timeout : UInt32 := defaultTimeout
  defaultEntry : UInt32 := 0
  themeColor : UInt8 := 5
  accentColor : UInt8 := 14
  entries : List BootEntry := []
  deriving DecidableEq, Repr

abbrev BootConfig.numEntries (cfg : BootConfig) : Nat := cfg.entries.length

/-! ## Helpers -/

def isSpace (c : Byte) : Bool := c == 32 || c == 9
def isNewline (c : Byte) : Bool := c == 10 || c == 13
def isDigit (c : Byte) : Bool := 48 ≤ c && c ≤ 57

def skipSpaces (p : List Byte) : List Byte := dropC isSpace p

/-- `*p + 32` for an upper-case letter. -/
def toLower (c : Byte) : Byte := if 65 ≤ c && c ≤ 90 then c + 32 else c

/-- Split a line into key (at most `kmax - 1` bytes) and value (at most `vmax - 1`, trailing blanks
trimmed), or `none` when it is not `key = value`. -/
def parseKv (line : List Byte) (kmax vmax : Nat) : Option (List Byte × List Byte) :=
  let p := skipSpaces line
  let inKey := fun c => !isSpace c && c != 61 && !isNewline c
  let key := (takeC inKey p).take (kmax - 1)
  if key.isEmpty then none
  else
    let p := skipSpaces (dropC inKey p)
    if deref p != 61 then none
    else
      let p := skipSpaces p.tail
      let val := (takeC (fun c => !isNewline c) p).take (vmax - 1)
      some (key, val.rdropWhile isSpace)

/-- `for (; *d >= '0' && *d <= '9'; d++) t = t * 10 + (*d - '0')` on a `u32`. -/
def parseU32 (val : List Byte) : UInt32 :=
  (val.takeWhile isDigit).foldl (fun t c => t * 10 + (c - 48).toUInt32) 0

/-- The same loop on an `int`. -/
def parseI32 (val : List Byte) : Int :=
  (val.takeWhile isDigit).foldl (fun t c => i32 (t * 10 + (c.toNat - 48))) 0

def configParseType (s : List Byte) : OSType :=
  if strEq s (lit "elf64") then .elf64
  else if strEq s (lit "linux") then .linux
  else if strEq s (lit "multiboot2") then .multiboot2
  else if strEq s (lit "windows") then .windows
  else .unknown

/-- The colour names with their EFI indices, in the order they are tested. -/
def colorTable : List (String × Int) :=
  [("black", 0), ("blue", 1), ("green", 2), ("cyan", 3), ("red", 4), ("magenta", 5), ("pink", 5),
    ("brown", 6), ("orange", 6), ("lightgray", 7), ("darkgray", 8), ("lightblue", 9),
    ("lightgreen", 10), ("lightcyan", 11), ("lightred", 12), ("lightmagenta", 13), ("yellow", 14),
    ("white", 15)]

def configParseColor (name : List Byte) : Int :=
  match colorTable.find? fun c => strEq name (lit c.1) with
  | some c => c.2
  | none => -1

/-! ## Kernel discovery helpers -/

def cfgStrEqCi : List Byte → List Byte → Bool
  | [], b => deref b == 0
  | x :: _, [] => x == 0
  | x :: a, y :: b =>
    if x != 0 && y != 0 then
      if toLower x != toLower y then false else cfgStrEqCi a b
    else x == 0 && y == 0

/-- Case-insensitive suffix test. -/
def endsWithCi (s suf : List Byte) : Bool :=
  let s := str s
  let suf := str suf
  if s.length < suf.length then false
  else (s.drop (s.length - suf.length)).map toLower == suf.map toLower

def configGuessType (filename : List Byte) : OSType :=
  if endsWithCi filename (lit ".elf") then .elf64
  else if strStarts filename (lit "vmlinuz") then .linux
  else if strStarts filename (lit "bzImage") then .linux
  else if cfgStrEqCi filename (lit "bootmgfw.efi") then .windows
  else if cfgStrEqCi filename (lit "bootmgr.efi") then .windows
  else .unknown

/-- The part of a path after its last slash. -/
def lastComponent (dir : List Byte) : List Byte := (str dir).rtakeWhile (· != 47)

/-- The bytes of `filename` before the first position where the rest is `.elf` in any case. -/
def stripElf : List Byte → List Byte
  | [] => []
  | c :: p =>
    if c == 0 || (c == 46 && endsWithCi (c :: p) (lit ".elf")) then [] else c :: stripElf p

def configMakeName (dir filename : List Byte) (type : OSType) (max : Nat) : List Byte :=
  match type with
  | .elf64 =>
    if cfgStrEqCi filename (lit "kernel.elf") || cfgStrEqCi filename (lit "kernel") then
      let last := lastComponent dir
      let last := if last.isEmpty then str dir else last
      let capitalize := fun c : Byte => if 97 ≤ c && c ≤ 122 then c - 32 else c
      (match last with
        | [] => []
        | c :: rest => capitalize c :: rest).take (max - 1)
    else (stripElf filename).take (max - 1)
  | .windows => strCopy (lit "Windows") max
  | .linux =>
    let skip := if strStarts filename (lit "vmlinuz") then 7
      else if strStarts filename (lit "bzImage") then 7 else 0
    let out := strCopy (lit "Linux") max
    let ver := filename.drop skip
    let ver := if deref ver == 45 || deref ver == 95 then ver.tail else ver
    if deref ver != 0 then
      let out := if out.length + 1 < max then out ++ [32] else out
      out ++ strCopy ver (max - out.length)
    else out
  | _ => strCopy filename max

/-- Add a discovered kernel unless its path is in the table; `-1` when the table is full. -/
def configAddKernel (cfg : BootConfig) (name : List Byte) (type : OSType) (kernelPath : List Byte)
    (initrdPath : Option (List Byte)) : Int × BootConfig :=
  if cfg.entries.any fun e => strEq e.kernel kernelPath then (0, cfg)
  else if maxEntries ≤ cfg.numEntries then (-1, cfg)
  else
    let e : BootEntry :=
      { type := type
        name := strCopy name maxStrLen
        kernel := strCopy kernelPath maxStrLen
        initrd := match initrdPath with
          | some p => if deref p != 0 then strCopy p maxStrLen else []
          | none => [] }
    (0, { cfg with entries := cfg.entries ++ [e] })

/-! ## The parser -/

/-- The parser between two iterations of its main loop: the text left, the table and the index
`cur` points to. -/
structure ParseState where
  rest : List Byte
  cfg : BootConfig
  cur : Option Nat
  deriving DecidableEq, Repr

/-- A setting before the first section. -/
def setGlobal (cfg : BootConfig) (key val : List Byte) : BootConfig :=
  if strEq key (lit "timeout") then { cfg with timeout := parseU32 val }
  else if strEq key (lit "default") then { cfg with defaultEntry := parseU32 val }
  else if strEq key (lit "accent") then
    let c := configParseColor val
    if 0 ≤ c then { cfg with accentColor := c.toNat.toUInt8 } else cfg
  else if strEq key (lit "theme") then
    let c := configParseColor val
    if 0 ≤ c && c ≤ 7 then { cfg with themeColor := c.toNat.toUInt8 } else cfg
  else cfg

/-- A setting of the current entry. -/
def setEntry (e : BootEntry) (key val : List Byte) : BootEntry :=
  if strEq key (lit "type") then { e with type := configParseType val }
  else if strEq key (lit "kernel") then { e with kernel := strCopy val maxStrLen }
  else if strEq key (lit "initrd") then { e with initrd := strCopy val maxStrLen }
  else if strEq key (lit "cmdline") then { e with cmdline := strCopy val maxStrLen }
  else if strEq key (lit "encrypted") then
    let c := deref val
    { e with encrypted := if c == 49 || c == 121 || c == 116 then 1 else 0 }
  else if strEq key (lit "luks_keyfile") then { e with luksKeyfile := strCopy val maxStrLen }
  else if strEq key (lit "luks_tries") then
    let t := parseI32 val
    { e with luksTries := if 0 < t then t else 3 }
  else e

/-- What one `key = value` line does. Globals are only applied by a full parse. -/
def applySetting (merge : Bool) (cfg : BootConfig) (cur : Option Nat) (key val : List Byte) :
    BootConfig :=
  match cur with
  | none => if merge then cfg else setGlobal cfg key val
  | some i => { cfg with entries := cfg.entries.modify i fun e => setEntry e key val }

/-- The text after `[`: a new entry when it is `entry:` and the table has room, and the position
after the closing bracket (the next one in the whole text). -/
def parseSection (p : List Byte) (cfg : BootConfig) (cur : Option Nat) : ParseState :=
  let skipBracket := fun p : List Byte =>
    let p := dropC (· != 93) p
    if deref p == 93 then p.tail else p
  if strStarts p (lit "entry:") then
    let p := p.drop 6
    if cfg.numEntries < maxEntries then
      let inName := fun c => c != 93 && !isNewline c
      let e : BootEntry :=
        { type := .elf64, luksTries := 3, name := (takeC inName p).take (maxStrLen - 1) }
      { rest := skipBracket (dropC inName p)
        cfg := { cfg with entries := cfg.entries ++ [e] }
        cur := some cfg.numEntries }
    else { rest := skipBracket p, cfg := cfg, cur := cur }
  else { rest := skipBracket p, cfg := cfg, cur := cur }

/-- A line of settings: at most 511 bytes of it are collected, the rest stays in the text. -/
def parseLine (merge : Bool) (p : List Byte) (cfg : BootConfig) (cur : Option Nat) : ParseState :=
  let line := (takeC (fun c => !isNewline c) p).take (maxStrLen * 2 - 1)
  let rest := p.drop line.length
  match parseKv line 64 maxStrLen with
  | none => { rest := rest, cfg := cfg, cur := cur }
  | some (key, val) => { rest := rest, cfg := applySetting merge cfg cur key val, cur := cur }

/-- One iteration of the main loop. -/
def parseStep (merge : Bool) (s : ParseState) : ParseState :=
  let p := dropC (fun c => isSpace c || isNewline c) s.rest
  if deref p == 0 then { s with rest := p }
  else if deref p == 35 || deref p == 59 then { s with rest := dropC (fun c => !isNewline c) p }
  else if deref p == 91 then parseSection p.tail s.cfg s.cur
  else parseLine merge p s.cfg s.cur

def parseLoop (merge : Bool) : Nat → ParseState → ParseState
  | 0, s => s
  | n + 1, s => if deref s.rest == 0 then s else parseLoop merge n (parseStep merge s)

/-- What a full parse resets before it reads the text. -/
def resetConfig (_ : BootConfig) : BootConfig :=
  { timeout := defaultTimeout, defaultEntry := 0, entries := [], themeColor := 5, accentColor := 14 }

/-- The clamp after the main loop. -/
def clampDefault (cfg : BootConfig) : BootConfig :=
  if cfg.numEntries ≤ cfg.defaultEntry.toNat ∧ 0 < cfg.numEntries then { cfg with defaultEntry := 0 }
  else cfg

def doParse (buf : List Byte) (cfg : BootConfig) (merge : Bool) : Int × BootConfig :=
  let cfg := if merge then cfg else resetConfig cfg
  let cfg := clampDefault (parseLoop merge buf.length { rest := buf, cfg := cfg, cur := none }).cfg
  (if 0 < cfg.numEntries then 0 else -1, cfg)

def configParse (buf : List Byte) (cfg : BootConfig) : Int × BootConfig := doParse buf cfg false

def configParseMerge (buf : List Byte) (cfg : BootConfig) : Int × BootConfig := doParse buf cfg true

end SakuruBoot

import SakuruBoot.Lib.Memory

/-!
# The ELF64 loader (`os/elf_loader.c`)

`elf64Load` on a flat memory that holds the image buffer as well as the places the segments go to. Every field is read
from memory when the code reads it, so a segment that is written over the buffer changes what later iterations see.
-/

namespace SakuruBoot
open CStr Memory

/-- The machine the loader is compiled for. -/
inductive Arch
  | x86_64
  | aarch64
  deriving DecidableEq, Repr

def Arch.machine : Arch → Nat
  | x86_64 => 62
  | aarch64 => 183

/-- `buf` and `size`: an object of the C program, which does not wrap around. -/
structure ElfBuf where
  base : Nat
  size : Nat
  fits : base + size ≤ 2 ^ 64

/-- The fields `elf64_valid` reads, in order, with what each has to be: the magic number, the class, the byte order,
the type and the machine. -/
def elfChecks (arch : Arch) : List (Nat × Nat × (Nat → Bool)) :=
  [(0, 1, fun v => v == 0x7F), (1, 1, fun v => v == 69), (2, 1, fun v => v == 76), (3, 1, fun v => v == 70),
    (4, 1, fun v => v == 2), (5, 1, fun v => v == 1), (16, 2, fun v => v == 2 || v == 3),
    (18, 2, fun v => v == arch.machine)]

def runChecks (buf : ElfBuf) : List (Nat × Nat × (Nat → Bool)) → Machine → Bool × Machine
  | [], m => (true, m)
  | (off, n, ok) :: checks, m =>
    let (v, m) := m.rd (buf.base + off) n
    if ok v then runChecks buf checks m else (false, m)

def elf64Valid (arch : Arch) (buf : ElfBuf) (m : Machine) : Bool × Machine :=
  if buf.size < 64 then (false, m) else runChecks buf (elfChecks arch) m

/-- "Copy file bytes". -/
def copyFile (buf : ElfBuf) (ph dest : Nat) (m : Machine) : Machine :=
  let (filesz, m) := m.rd (ph + 32) 8
  if filesz ≠ 0 then
    let (offset, m) := m.rd (ph + 8) 8
    m.copy dest (buf.base + offset) filesz
  else m

/-- "Zero the BSS portion": the sizes are read again, behind the copy. -/
def zeroBss (ph dest : Nat) (m : Machine) : Machine :=
  let (memsz, m) := m.rd (ph + 40) 8
  let (filesz, m) := m.rd (ph + 32) 8
  if filesz < memsz then m.set (dest + filesz) 0 (memsz - filesz) else m

/-- One iteration over the program headers. -/
def elfStep (buf : ElfBuf) (i : Nat) (m : Machine) : Machine :=
  let (phoff, m) := m.rd (buf.base + 32) 8
  let (phentsize, m) := m.rd (buf.base + 54) 2
  let ph := buf.base + phoff + i * phentsize
  let (type, m) := m.rd ph 4
  if type ≠ 1 then m
  else
    let (memsz, m) := m.rd (ph + 40) 8
    if memsz = 0 then m
    else
      let (paddr, m) := m.rd (ph + 24) 8
      zeroBss ph paddr (copyFile buf ph paddr m)

/-- The loop: `i` is a `u16`, so 65536 rounds are enough for any `e_phnum`. -/
def elfLoop (buf : ElfBuf) : Nat → Nat → Machine → Machine
  | 0, _, m => m
  | n + 1, i, m =>
    let (phnum, m) := m.rd (buf.base + 56) 2
    if i < phnum then elfLoop buf n (i + 1) (elfStep buf i m) else m

def elf64Load (arch : Arch) (buf : ElfBuf) (m : Machine) : Nat × Machine :=
  let (ok, m) := elf64Valid arch buf m
  if ok then (elfLoop buf 65536 0 m).rd (buf.base + 24) 8 else (0, m)

/-! ## The headers in a memory -/

structure Phdr where
  type : Nat
  offset : Nat
  paddr : Nat
  filesz : Nat
  memsz : Nat
  deriving DecidableEq, Repr

namespace ElfBuf

variable (buf : ElfBuf) (mem : Nat → Byte)

def phnum : Nat := word mem (buf.base + 56) 2
def phoff : Nat := word mem (buf.base + 32) 8
def phentsize : Nat := word mem (buf.base + 54) 2
def entry : Nat := word mem (buf.base + 24) 8

/-- Where program header `i` is read. -/
def phAddr (i : Nat) : Nat := buf.base + buf.phoff mem + i * buf.phentsize mem

def phdr (i : Nat) : Phdr :=
  { type := word mem (buf.phAddr mem i) 4
    offset := word mem (buf.phAddr mem i + 8) 8
    paddr := word mem (buf.phAddr mem i + 24) 8
    filesz := word mem (buf.phAddr mem i + 32) 8
    memsz := word mem (buf.phAddr mem i + 40) 8 }

/-- The header is one `elf64_valid` accepts. -/
def valid (arch : Arch) : Bool :=
  64 ≤ buf.size && (elfChecks arch).all fun c => c.2.2 (word mem (buf.base + c.1) c.2.1)

/-- An address of the buffer. -/
def Contains (a : Nat) : Prop := buf.base ≤ a ∧ a < buf.base + buf.size

end ElfBuf

/-- A header the loop does something for. -/
def Phdr.loads (h : Phdr) : Prop := h.type = 1 ∧ h.memsz ≠ 0

/-- `[p_paddr, p_paddr + p_memsz)`. -/
def Phdr.Target (h : Phdr) (a : Nat) : Prop := InRange h.paddr h.memsz a

end SakuruBoot

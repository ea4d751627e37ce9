import SakuruBoot.Bios.Fat
import SakuruBoot.Common.Config
import SakuruBoot.Lib.Memory

/-!
# The loader registry (`os/os_loader.h`) and the Windows loader of stage 2 (`os/windows.c`)

The firmware build and stage 2 have the same three loaders in the same order, and `find_loader` takes the first that says
it can load the entry.

The Windows loader goes over the partition table with two accumulators. It takes the boot record of the first active
Windows partition with an LBA, or of the first Windows partition when none is active (`windowsLoad_of_record`,
`windowsLoad_of_none`).
-/

namespace SakuruBoot
open CStr Bytes Memory Fat

/-! ## The registry -/

/-- The registered loaders, in their order. -/
inductive Loader
  | vios
  | linux
  | windows
  deriving DecidableEq, Repr

def Loader.canLoad (entry : BootEntry) : Loader → Bool
  | vios => entry.type = .elf64
  | linux => entry.type = .linux
  | windows => entry.type = .windows

def findLoader (entry : BootEntry) : Option Loader := [Loader.vios, .linux, .windows].find? (Loader.canLoad entry)

/-- No two loaders claim an entry, so the order of the registry is of no consequence. -/
theorem findLoader_eq_some_iff {entry : BootEntry} {loader : Loader} :
    findLoader entry = some loader ↔ loader.canLoad entry = true := by
  cases loader <;> cases h : entry.type <;> simp [findLoader, Loader.canLoad, h]

/-! ## The partition table -/

/-- Entry `i` of the table in the boot record. -/
def partStatus (mbr : List Byte) (i : Nat) : Nat := field mbr (446 + 16 * i) 1
def partType (mbr : List Byte) (i : Nat) : Nat := field mbr (446 + 16 * i + 4) 1
def partLba (mbr : List Byte) (i : Nat) : Nat := field mbr (446 + 16 * i + 8) 4

/-! ## The Windows loader of the BIOS build (`os/windows.c`) -/

def isWinPartType (t : Nat) : Bool := t == 0x07 || t == 0x0C || t == 0x0B

/-- One turn of the loop: `win_lba` and `active_lba`. -/
def winStep (mbr : List Byte) (s : Nat × Nat) (i : Nat) : Nat × Nat :=
  if !isWinPartType (partType mbr i) then s
  else
    (if s.1 = 0 then partLba mbr i else s.1,
      if partStatus mbr i = 0x80 ∧ s.2 = 0 then partLba mbr i else s.2)

def vbrLoadAddr : Nat := 0x7C00

/-- The entry point, and the memory behind it. -/
def windowsLoad (d : Disk) (m : Machine) : Nat × Machine :=
  let s := (List.range 4).foldl (winStep (diskRead d 0 1)) (0, 0)
  let target := if s.2 ≠ 0 then s.2 else s.1
  if target = 0 then (0, m)
  else
    let vbr := diskRead d target 1
    if field vbr 510 2 ≠ 0xAA55 then (0, m)
    else (vbrLoadAddr, m.fill vbrLoadAddr (fun i => vbr.getD i 0) 512)

/-! ## The partition it takes -/

/-- The nonzero LBAs of the Windows partitions among the entries `l`, or of the active ones only. -/
def winLbas (mbr : List Byte) (active : Bool) (l : List Nat) : List Nat :=
  (l.filter fun i => isWinPartType (partType mbr i) && (!active || partStatus mbr i == 0x80) && partLba mbr i != 0).map
    (partLba mbr)

/-- "Prefer active Windows partition; fall back to first Windows partition". -/
def winTarget (mbr : List Byte) : Option Nat :=
  (winLbas mbr true (List.range 4)).head?.or (winLbas mbr false (List.range 4)).head?

theorem ne_zero_of_winLbas {mbr : List Byte} {active : Bool} {l : List Nat} {lba : Nat}
    (h : (winLbas mbr active l).head? = some lba) : lba ≠ 0 := by
  obtain ⟨i, hi, rfl⟩ := List.mem_map.mp (List.mem_of_mem_head? h)
  simp only [List.mem_filter, Bool.and_eq_true, bne_iff_ne] at hi
  exact hi.2.2

/-- Each accumulator of the loop keeps the first LBA of its kind. -/
theorem foldl_winStep (mbr : List Byte) (l : List Nat) (s : Nat × Nat) : l.foldl (winStep mbr) s =
    (if s.1 = 0 then (winLbas mbr false l).headD 0 else s.1,
      if s.2 = 0 then (winLbas mbr true l).headD 0 else s.2) := by
  induction l generalizing s with
  | nil =>
    obtain ⟨win, active⟩ := s
    simp only [List.foldl_nil, winLbas, List.filter_nil, List.map_nil, List.headD_nil, Prod.mk.injEq]
    constructor <;> split <;> first | assumption | rfl
  | cons i l ih =>
    rw [List.foldl_cons, ih, winStep]
    by_cases htype : isWinPartType (partType mbr i)
    · by_cases hlba : partLba mbr i = 0 <;> by_cases hstatus : partStatus mbr i = 0x80 <;>
        by_cases hwin : s.1 = 0 <;> by_cases hactive : s.2 = 0 <;>
          simp [winLbas, htype, hlba, hstatus, hwin, hactive]
    · simp [winLbas, htype]

theorem winTarget_eq (mbr : List Byte) :
    (let s := (List.range 4).foldl (winStep mbr) (0, 0); if s.2 ≠ 0 then s.2 else s.1) = (winTarget mbr).getD 0 := by
  rw [foldl_winStep, if_pos rfl, if_pos rfl, winTarget]
  dsimp only
  rcases hactive : (winLbas mbr true (List.range 4)) with _ | ⟨lba, lbas⟩
  · simp
  · have hne : lba ≠ 0 := ne_zero_of_winLbas (by rw [hactive]; rfl)
    simp [hne]

/-- The boot record of the target, when it is one. -/
def winRecord (d : Disk) : Option (List Byte) :=
  (winTarget (diskRead d 0 1)).map (fun lba => diskRead d lba 1) |>.filter fun vbr => field vbr 510 2 == 0xAA55

/-- The memory with 512 bytes at 0x7C00. -/
def withRecord (vbr : List Byte) (mem : Nat → Byte) : Nat → Byte := fun a =>
  if vbrLoadAddr ≤ a ∧ a < vbrLoadAddr + 512 then vbr.getD (a - vbrLoadAddr) 0 else mem a

theorem windowsLoad_of_record {d : Disk} {vbr : List Byte} (hrecord : winRecord d = some vbr) (m : Machine) :
    (windowsLoad d m).1 = vbrLoadAddr ∧ (windowsLoad d m).2.mem = withRecord vbr m.mem := by
  obtain ⟨hmap, hsig⟩ := Option.filter_eq_some_iff.mp hrecord
  obtain ⟨lba, htarget, rfl⟩ := Option.map_eq_some_iff.mp hmap
  have hne : lba ≠ 0 := by
    rw [winTarget, Option.or_eq_some_iff] at htarget
    rcases htarget with h | ⟨-, h⟩ <;> exact ne_zero_of_winLbas h
  have hload := winTarget_eq (diskRead d 0 1)
  rw [htarget] at hload
  dsimp only [Option.getD_some] at hload
  rw [windowsLoad]
  dsimp only
  rw [hload, if_neg hne, if_neg (not_not.mpr (beq_iff_eq.mp hsig))]
  refine ⟨rfl, funext fun a => ?_⟩
  rw [fill_mem_eq (by decide), withRecord]

theorem windowsLoad_of_none {d : Disk} (hrecord : winRecord d = none) (m : Machine) : windowsLoad d m = (0, m) := by
  have hload := winTarget_eq (diskRead d 0 1)
  rw [windowsLoad]
  dsimp only at hload ⊢
  rw [hload]
  cases htarget : winTarget (diskRead d 0 1) with
  | none => exact if_pos rfl
  | some lba =>
    rw [winRecord, htarget, Option.map_some, Option.filter_eq_none_iff] at hrecord
    have hsig := hrecord _ rfl
    rw [beq_iff_eq] at hsig
    rw [Option.getD_some, if_pos hsig]
    split <;> rfl

end SakuruBoot

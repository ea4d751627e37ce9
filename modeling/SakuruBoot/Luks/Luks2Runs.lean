import SakuruBoot.Lib.Traced
import SakuruBoot.Luks.Volume

/-!
# Traced runs of `luks2_unlock`

A tracer says what is reported while a round derives its key and while it works on the area it has read. The rest of
`luks2_unlock` is the same under every tracer, `Luks2Tracer.unlock`, and has the results of the plain function
(`unlock_val`). All rounds of a run are alike, so a run reports only what one round reports (`forall_events_unlock`).
-/

namespace SakuruBoot
open CStr (Byte lit)
open Bytes

/-- A round on an area that was read: decrypt, merge, check. -/
def luks2Work (j : List Byte) (mem : Luks2Mem) : Luks2Mem × Option (List Byte) :=
  let kmSize := (jsonGetInt j (lit "size")).toNat
  let xts := xtsInit mem.dk (luks2KeySize j * 2) true
  let dec := patch mem.dec 0 ((List.range ((kmSize + 511) / 512)).flatMap (luks2DecryptSector xts mem.enc kmSize))
  let candidate := af2Merge .sha256 dec (luks2Stripes j) (luks2KeySize j)
  ({ mem with dec := dec }, if luks2DigestMatches j candidate then some candidate else none)

structure Luks2Tracer (ε : Type) (alloc : Nat → Bool) (pass : List Byte) where
  derive : List Byte → Traced ε (Option (List Byte))
  work : List Byte → Luks2Mem → Traced ε (Luks2Mem × Option (List Byte))
  derive_val : ∀ j, (derive j).val = luks2Derive alloc pass j
  work_val : ∀ j mem, (work j mem).val = luks2Work j mem

/-- The JSON text of a header that passes the checks of `luks2_unlock`. -/
def Luks2Accepts (dev : ReadFn) (j : List Byte) : Prop :=
  ∃ hdr, dev.read 0 8 = some hdr ∧ luks2Probe hdr = true ∧ luks2Json dev hdr = some j

/-- A round is made, derives a key, and finds an area that fits the buffer and can be read. -/
structure Luks2Reaches (dev : ReadFn) (alloc : Nat → Bool) (pass j : List Byte) : Prop where
  keySize : ¬ (jsonFindKey j (lit "key_size")).isNone = true
  derives : (luks2Derive alloc pass j).isSome = true
  offset : 0 < jsonGetInt j (lit "offset")
  size : 0 < jsonGetInt j (lit "size")
  fits : ((jsonGetInt j (lit "size")).toNat + 511) / 512 * 512 ≤ luks2KmBuf
  read : (dev.read ((jsonGetInt j (lit "offset")).toNat / 512)
    (((jsonGetInt j (lit "size")).toNat + 511) / 512)).isSome = true

theorem keySize_isSome {j : List Byte} : ¬ (jsonFindKey j (lit "key_size")).isNone = true ↔
    (jsonFindKey j (lit "key_size")).isSome = true := by
  rw [Bool.not_eq_true, Option.isNone_eq_false_iff]

theorem luks2Accepts_unique {dev : ReadFn} {j j' : List Byte} (hacc : Luks2Accepts dev j) (hacc' : Luks2Accepts dev j') :
    j' = j := by
  obtain ⟨hdr, hread, -, hjson⟩ := hacc
  obtain ⟨hdr', hread', -, hjson'⟩ := hacc'
  cases hread.symm.trans hread'
  exact Option.some.inj (hjson'.symm.trans hjson)

namespace Luks2Tracer
open Traced

variable {ε : Type} {alloc : Nat → Bool} {pass : List Byte} (t : Luks2Tracer ε alloc pass) (dev : ReadFn) (j : List Byte)

def tryKey (mem : Luks2Mem) : Traced ε (Luks2Mem × Option (List Byte)) :=
  let kmOffset := jsonGetInt j (lit "offset")
  let kmSize := jsonGetInt j (lit "size")
  if kmOffset ≤ 0 ∨ kmSize ≤ 0 then pure (mem, none)
  else
    let kmSecs := (kmSize.toNat + 511) / 512
    if luks2KmBuf < kmSecs * 512 then pure (mem, none)
    else
      match dev.read (kmOffset.toNat / 512) kmSecs with
      | none => pure (mem, none)
      | some km => t.work j { mem with enc := patch mem.enc 0 km }

def attempt (mem : Luks2Mem) : Traced ε (Luks2Mem × Option (List Byte)) := do
  match ← t.derive j with
  | none => return (mem, none)
  | some dk => t.tryKey dev j { mem with dk := patch mem.dk 0 dk }

def slots : Nat → Luks2Mem → Traced ε (Luks2Mem × Option (List Byte))
  | 0, mem => pure (mem, none)
  | n + 1, mem =>
    if (jsonFindKey j (lit "key_size")).isNone then pure (mem, none)
    else do
      match ← t.attempt dev j mem with
      | (mem, some key) => return (mem, some key)
      | (mem, none) => slots n mem

def unlock (mem : Luks2Mem) (out : LuksOut) : Traced ε (Int × LuksOut × Luks2Mem) :=
  match dev.read 0 8 with
  | none => pure (-1, out, mem)
  | some hdr =>
    if !luks2Probe hdr then pure (-1, out, mem)
    else
      match luks2Json dev hdr with
      | none => pure (-1, out, mem)
      | some j => do
        match ← t.slots dev j 32 mem with
        | (mem, some key) => return (0, luks2Success j key out, mem)
        | (mem, none) => return (-1, out, mem)

/-! ## The results are those of `luks2Unlock` -/

theorem tryKey_val (mem : Luks2Mem) : (t.tryKey dev j mem).val = luks2TryKey dev j mem := by
  unfold tryKey luks2TryKey
  dsimp only
  split_ifs
  · rfl
  · rfl
  · cases dev.read ((jsonGetInt j (lit "offset")).toNat / 512) (((jsonGetInt j (lit "size")).toNat + 511) / 512) with
    | none => rfl
    | some km => exact t.work_val j _

theorem attempt_val (mem : Luks2Mem) : (t.attempt dev j mem).val = luks2Attempt dev alloc pass j mem := by
  rw [attempt, luks2Attempt, val_bind, t.derive_val]
  cases luks2Derive alloc pass j with
  | none => rfl
  | some dk => exact t.tryKey_val dev j _

theorem slots_val (n : Nat) (mem : Luks2Mem) : (t.slots dev j n mem).val = luks2Slots dev alloc pass j n mem := by
  induction n generalizing mem with
  | zero => rfl
  | succ n ih =>
    rw [slots, luks2Slots]
    split_ifs
    · rfl
    · rw [val_bind, t.attempt_val]
      rcases luks2Attempt dev alloc pass j mem with ⟨mem', none | key⟩
      · exact ih mem'
      · rfl

theorem unlock_val (mem : Luks2Mem) (out : LuksOut) :
    (t.unlock dev mem out).val = luks2Unlock dev alloc pass mem out := by
  unfold unlock luks2Unlock
  cases dev.read 0 8 with
  | none => rfl
  | some hdr =>
    dsimp only
    split_ifs
    · rfl
    · cases luks2Json dev hdr with
      | none => rfl
      | some j =>
        dsimp only
        rw [val_bind, t.slots_val]
        rcases luks2Slots dev alloc pass j 32 mem with ⟨mem', none | key⟩
        · rfl
        · rfl

/-! ## What a run reports -/

variable {dev j}

theorem events_attempt_of_reaches (hreach : Luks2Reaches dev alloc pass j) (mem : Luks2Mem) :
    ∃ mem', (t.attempt dev j mem).events = (t.derive j).events ++ (t.work j mem').events := by
  obtain ⟨dk, hdk⟩ := Option.isSome_iff_exists.mp hreach.derives
  obtain ⟨km, hkm⟩ := Option.isSome_iff_exists.mp hreach.read
  have hpos : ¬ (jsonGetInt j (lit "offset") ≤ 0 ∨ jsonGetInt j (lit "size") ≤ 0) := by
    have := hreach.offset
    have := hreach.size
    omega
  rw [attempt, events_bind, t.derive_val, hdk]
  dsimp only
  unfold tryKey
  dsimp only
  rw [if_neg hpos, if_neg (Nat.not_lt.mpr hreach.fits), hkm]
  exact ⟨_, rfl⟩

theorem events_attempt_of_not_reaches (hkey : ¬ (jsonFindKey j (lit "key_size")).isNone = true)
    (hreach : ¬ Luks2Reaches dev alloc pass j) (mem : Luks2Mem) :
    (t.attempt dev j mem).events = (t.derive j).events := by
  rw [attempt, events_bind, t.derive_val]
  cases hdk : luks2Derive alloc pass j with
  | none => exact List.append_nil _
  | some dk =>
    dsimp only
    unfold tryKey
    dsimp only
    split_ifs with hpos hfits
    · exact List.append_nil _
    · exact List.append_nil _
    · split
      · exact List.append_nil _
      · rename_i km hkm
        refine absurd ⟨hkey, ?_, by omega, by omega, Nat.le_of_not_lt hfits, ?_⟩ hreach
        · rw [hdk]
          rfl
        · rw [hkm]
          rfl

theorem events_unlock {mem : Luks2Mem} {out : LuksOut} (hacc : Luks2Accepts dev j) :
    (t.unlock dev mem out).events = (t.slots dev j 32 mem).events := by
  obtain ⟨hdr, hread, hprobe, hjson⟩ := hacc
  rw [unlock, hread]
  simp only [hprobe, hjson, Bool.not_true, Bool.false_eq_true, if_false, events_bind]
  split
  · exact List.append_nil _
  · exact List.append_nil _

theorem events_unlock_of_not_accepts {mem : Luks2Mem} {out : LuksOut} (hnot : ∀ j, ¬ Luks2Accepts dev j) :
    (t.unlock dev mem out).events = [] := by
  unfold unlock
  cases hread : dev.read 0 8 with
  | none => rfl
  | some hdr =>
    dsimp only
    split_ifs with hprobe
    · rfl
    · cases hjson : luks2Json dev hdr with
      | none => rfl
      | some j => exact absurd ⟨hdr, hread, by simpa using hprobe, hjson⟩ (hnot j)

section Events

variable {P : ε → Prop} {W : List Byte → Prop} (hwork : ∀ j mem, (∀ e ∈ (t.work j mem).events, P e) ↔ W j)
include hwork

theorem forall_events_attempt (hkey : ¬ (jsonFindKey j (lit "key_size")).isNone = true) (mem : Luks2Mem) :
    (∀ e ∈ (t.attempt dev j mem).events, P e) ↔
      (∀ e ∈ (t.derive j).events, P e) ∧ (Luks2Reaches dev alloc pass j → W j) := by
  by_cases hreach : Luks2Reaches dev alloc pass j
  · obtain ⟨mem', hevents⟩ := t.events_attempt_of_reaches hreach mem
    rw [hevents, List.forall_mem_append, hwork]
    simp only [hreach, true_imp_iff]
  · rw [t.events_attempt_of_not_reaches hkey hreach]
    simp only [hreach, false_imp_iff, and_true]

/-- The first round is made if any is. -/
theorem forall_events_slots (n : Nat) (mem : Luks2Mem) : (∀ e ∈ (t.slots dev j (n + 1) mem).events, P e) ↔
    ((jsonFindKey j (lit "key_size")).isSome = true →
      (∀ e ∈ (t.derive j).events, P e) ∧ (Luks2Reaches dev alloc pass j → W j)) := by
  by_cases hkey : (jsonFindKey j (lit "key_size")).isNone = true
  · rw [slots, if_pos hkey]
    simp [Option.isNone_iff_eq_none.mp hkey]
  · simp only [keySize_isSome.mp hkey, true_imp_iff]
    induction n generalizing mem with
    | zero =>
      rw [slots, if_neg hkey, events_bind, List.forall_mem_append, t.forall_events_attempt hwork hkey]
      apply and_iff_left
      rcases (t.attempt dev j mem).val with ⟨mem', none | key⟩
      · exact nofun
      · exact nofun
    | succ n ih =>
      rw [slots, if_neg hkey, events_bind, List.forall_mem_append, t.forall_events_attempt hwork hkey]
      rcases (t.attempt dev j mem).val with ⟨mem', none | key⟩
      · exact (and_congr_right' (ih mem')).trans and_self_iff
      · exact and_iff_left nofun

theorem forall_events_unlock (mem : Luks2Mem) (out : LuksOut) : (∀ e ∈ (t.unlock dev mem out).events, P e) ↔
    ∀ j, Luks2Accepts dev j → (jsonFindKey j (lit "key_size")).isSome = true →
      (∀ e ∈ (t.derive j).events, P e) ∧ (Luks2Reaches dev alloc pass j → W j) := by
  by_cases hacc : ∃ j, Luks2Accepts dev j
  · obtain ⟨j, hacc⟩ := hacc
    rw [t.events_unlock hacc, t.forall_events_slots hwork 31 mem]
    constructor
    · intro h j' hacc'
      rw [luks2Accepts_unique hacc hacc']
      exact h
    · intro h
      exact h j hacc
  · push Not at hacc
    rw [t.events_unlock_of_not_accepts hacc]
    exact ⟨fun _ j hj => absurd hj (hacc j), fun _ => nofun⟩

end Events

end Luks2Tracer

end SakuruBoot

import SakuruBoot.Uefi.Ext4File

/-!
# Accesses of the ext4 reader

`Bounded` is the part of the reader that follows counts and lengths from the disk, on buffers that end: a pointer is
what its buffer holds from there on, and a read behind the last byte has no result. A call stays inside its buffers
when its bounded run has a result, which then is the one of the model whatever lies behind them.

`ExtentFits`, `LookupFits` and `ReaddirFits` say of the bytes of a buffer when that is so: the entries, and the names,
that the code comes to before it stops lie in it.
-/

namespace SakuruBoot
open CStr (Byte u8 u32 u64)
open Bytes

namespace Bounded

def r16 (p : List Byte) (off : Nat) : Option Nat :=
  if off + 2 ≤ p.length then some (SakuruBoot.r16 p off) else none

def r32 (p : List Byte) (off : Nat) : Option Nat :=
  if off + 4 ≤ p.length then some (SakuruBoot.r32 p off) else none

/-- The copy loop over `n` bytes. -/
def bytes (p : List Byte) (n : Nat) : Option (List Byte) := if n ≤ p.length then some (p.take n) else none

def bestIndex (eh : List Byte) (lblock : Nat) : Nat → Nat → Option (List Byte) → Option (Option (List Byte))
  | 0, _, best => some best
  | n + 1, i, best => do
    let ei := extentEntry eh i
    let block ← r32 ei 0
    if lblock < block then some best else bestIndex eh lblock n (i + 1) (some ei)

def leafScan (eh : List Byte) (lblock : Nat) : Nat → Nat → Option Nat
  | 0, _ => some 0
  | n + 1, i => do
    let ex := extentEntry eh i
    let eeBlk ← r32 ex 0
    let eeLen ← r16 ex 4
    if eeBlk ≤ lblock ∧ lblock < u32 (eeBlk + eeLen) then
      let lo ← r32 ex 8
      let hi ← r16 ex 6
      some (lo + 2 ^ 32 * hi + (lblock - eeBlk))
    else leafScan eh lblock n (i + 1)

/-- The leaf block behind an index, which is all of the scratch block once it is read. -/
def scanLeaf (pool : Pool) (v : Ext4Vol) (lblock leaf : Nat) : Option Nat :=
  let r := blkRead pool v leaf
  if !r.1 then some 0
  else do
    if (← r16 r.2 0) ≠ ext4ExtentHeaderMagic then some 0
    else
      let entries ← r16 r.2 2
      leafScan r.2 lblock entries 0

/-- An index node. -/
def scanIndex (pool : Pool) (v : Ext4Vol) (eh : List Byte) (lblock entries : Nat) : Option Nat := do
  match ← bestIndex eh lblock entries 0 none with
  | none => some 0
  | some best =>
    let lo ← r32 best 4
    let hi ← r16 best 8
    scanLeaf pool v lblock (lo + 2 ^ 32 * hi)

def extentPhys (pool : Pool) (v : Ext4Vol) (eh : List Byte) (lblock : Nat) : Option Nat := do
  if (← r16 eh 0) ≠ ext4ExtentHeaderMagic then some 0
  else
    let entries ← r16 eh 2
    let depth ← r16 eh 6
    if 0 < depth then scanIndex pool v eh lblock entries else leafScan eh lblock entries 0

/-- The comparison of a record's name with the one looked for. -/
def nameMatch : List Byte → List Byte → Option Bool
  | _, [] => some true
  | [], _ :: _ => none
  | b :: p, c :: name => if b = c then nameMatch p name else some false

/-- Whether a record is the one looked for; its name is only read when its length is right. -/
def recordHit (name de : List Byte) (ino2 : Nat) (nl : Byte) : Option Bool :=
  if ino2 ≠ 0 ∧ nl.toNat = u8 name.length then nameMatch (de.drop 8) name else some false

def dirWalk (block : List Byte) (limit : Nat) (name : List Byte) : Nat → Nat → Option Nat
  | 0, _ => some 0
  | fuel + 1, pos =>
    if limit < pos + 8 then some 0
    else do
      let de := block.drop pos
      let ino2 ← r32 de 0
      let reclen ← r16 de 4
      let nl ← (de[6]? : Option Byte)
      if reclen = 0 then some 0
      else
        let hit ← recordHit name de ino2 nl
        if hit then some ino2 else dirWalk block limit name fuel (pos + reclen)

/-- What a record gives to the listing. -/
def recordEvents (de : List Byte) (ino2 : Nat) (nl ftype : Byte) : Option (List DirEvent) :=
  if ino2 ≠ 0 ∧ 0 < nl.toNat ∧ nl.toNat < 255 ∧ (ftype = 1 ∨ ftype = 2) then
    (bytes (de.drop 8) nl.toNat).map fun fname =>
      if isDotName fname then [] else [{ name := fname, isDir := ftype == 2 }]
  else some []

def readdirWalk (block : List Byte) (limit : Nat) : Nat → Nat → Option (List DirEvent)
  | 0, _ => some []
  | fuel + 1, pos =>
    if limit < pos + 8 then some []
    else do
      let de := block.drop pos
      let ino2 ← r32 de 0
      let reclen ← r16 de 4
      let nl ← (de[6]? : Option Byte)
      let ftype ← (de[7]? : Option Byte)
      if reclen = 0 then some []
      else
        let events ← recordEvents de ino2 nl ftype
        let rest ← readdirWalk block limit fuel (pos + reclen)
        some (events ++ rest)

end Bounded

/-! ## What fits -/

section Fits

/-- The test of the leaf loop. -/
def leafHit (lblock : Nat) (ex : List Byte) : Bool :=
  r32 ex 0 ≤ lblock && lblock < u32 (r32 ex 0 + r16 ex 4)

/-- How many of the `n` entries from `i` on the leaf loop passes over. -/
def leafStop (eh : List Byte) (lblock n i : Nat) : Nat :=
  ((List.range' i n).takeWhile fun j => !leafHit lblock (extentEntry eh j)).length

/-- How many of the `n` entries from `i` on start at the block or before it, up to the first that does not. -/
def indexStop (eh : List Byte) (lblock n i : Nat) : Nat :=
  ((List.range' i n).takeWhile fun j => r32 (extentEntry eh j) 0 ≤ lblock).length

/-- The entries of a leaf that are looked at lie in the buffer: all 12 bytes of the one that is taken, and the
first 6 of every other. -/
def LeafFits (eh : List Byte) (lblock : Nat) : Prop :=
  let s := leafStop eh lblock (r16 eh 2) 0
  12 * s + (if s < r16 eh 2 then 24 else 6) ≤ eh.length

/-- The entries of an index that are looked at lie in the buffer: the first 10 bytes of the one that is taken, and
the first 4 of the one behind it. -/
def IndexFits (eh : List Byte) (lblock : Nat) : Prop :=
  let s := indexStop eh lblock (r16 eh 2) 0
  12 * s + (if s < r16 eh 2 then 16 else 10) ≤ eh.length

/-- The leaf block an index leads to, when there is one and it can be read. -/
def leafBlock (pool : Pool) (v : Ext4Vol) (eh : List Byte) (lblock : Nat) : Option (List Byte) :=
  let s := indexStop eh lblock (r16 eh 2) 0
  let r := blkRead pool v (indexLeaf (extentEntry eh (s - 1)))
  if 0 < s ∧ r.1 then some r.2 else none

/-- What the lookup of a logical block looks at lies in the extent tree's root, and in the leaf block behind it. -/
structure ExtentFits (pool : Pool) (v : Ext4Vol) (eh : List Byte) (lblock : Nat) : Prop where
  leaf : r16 eh 0 = ext4ExtentHeaderMagic → r16 eh 6 = 0 → LeafFits eh lblock
  index : r16 eh 0 = ext4ExtentHeaderMagic → r16 eh 6 ≠ 0 → IndexFits eh lblock
  child : r16 eh 0 = ext4ExtentHeaderMagic → r16 eh 6 ≠ 0 → ∀ block, leafBlock pool v eh lblock = some block →
    r16 block 0 = ext4ExtentHeaderMagic → LeafFits block lblock

/-- The positions of the records of a directory block that a walk comes to. -/
def records (block : List Byte) (limit : Nat) : Nat → Nat → List Nat
  | 0, _ => []
  | fuel + 1, pos =>
    if limit < pos + 8 then []
    else if r16 (block.drop pos) 4 = 0 then []
    else pos :: records block limit fuel (pos + r16 (block.drop pos) 4)

/-- A record whose name is compared with `name`. -/
def Compared (name de : List Byte) : Prop := r32 de 0 ≠ 0 ∧ (de.getD 6 0).toNat = u8 name.length

/-- A record that is the one looked for. -/
def Named (name de : List Byte) : Prop := Compared name de ∧ name <+: de.drop 8

instance (name de : List Byte) : Decidable (Compared name de) := inferInstanceAs (Decidable (_ ∧ _))

instance (name de : List Byte) : Decidable (Named name de) := inferInstanceAs (Decidable (_ ∧ _))

/-- No record before the one looked for has a name that is compared and agrees up to the end of the block. -/
def LookupFits (block : List Byte) (limit : Nat) (name : List Byte) : Prop :=
  ∀ pos ∈ (records block limit limit 0).takeWhile fun pos => ¬Named name (block.drop pos),
    Compared name (block.drop pos) → ¬block.drop (pos + 8) <+: name

/-- A record that `ext4_readdir` takes the name of. -/
def Listed (de : List Byte) : Prop :=
  r32 de 0 ≠ 0 ∧ 0 < (de.getD 6 0).toNat ∧ (de.getD 6 0).toNat < 255 ∧ (de.getD 7 0 = 1 ∨ de.getD 7 0 = 2)

instance (de : List Byte) : Decidable (Listed de) := inferInstanceAs (Decidable (_ ∧ _))

/-- The name of every record that is listed ends in the block. -/
def ReaddirFits (block : List Byte) (limit : Nat) : Prop :=
  ∀ pos ∈ records block limit limit 0, Listed (block.drop pos) →
    pos + 8 + ((block.drop pos).getD 6 0).toNat ≤ block.length

end Fits

/-! ## Extent nodes -/

section Extents

variable {p eh : List Byte} {off x lblock : Nat}

theorem bounded_r16 : Bounded.r16 p off = some x ↔ off + 2 ≤ p.length ∧ r16 p off = x := by
  rw [Bounded.r16, Option.ite_none_right_eq_some, Option.some.injEq]

theorem bounded_r32 : Bounded.r32 p off = some x ↔ off + 4 ≤ p.length ∧ r32 p off = x := by
  rw [Bounded.r32, Option.ite_none_right_eq_some, Option.some.injEq]

theorem bounded_r16_of_le (h : off + 2 ≤ p.length) : Bounded.r16 p off = some (r16 p off) := if_pos h

theorem bounded_r32_of_le (h : off + 4 ≤ p.length) : Bounded.r32 p off = some (r32 p off) := if_pos h

theorem leafHit_iff {ex : List Byte} :
    leafHit lblock ex = true ↔ r32 ex 0 ≤ lblock ∧ lblock < u32 (r32 ex 0 + r16 ex 4) := by
  rw [leafHit, Bool.and_eq_true, decide_eq_true_iff, decide_eq_true_iff]

theorem leafStop_succ (eh : List Byte) (lblock n i : Nat) : leafStop eh lblock (n + 1) i =
    if leafHit lblock (extentEntry eh i) then 0 else leafStop eh lblock n (i + 1) + 1 := by
  rw [leafStop, leafStop, List.range'_succ, List.takeWhile_cons]
  cases leafHit lblock (extentEntry eh i) <;> rfl

theorem indexStop_succ (eh : List Byte) (lblock n i : Nat) : indexStop eh lblock (n + 1) i =
    if lblock < r32 (extentEntry eh i) 0 then 0 else indexStop eh lblock n (i + 1) + 1 := by
  rw [indexStop, indexStop, List.range'_succ, List.takeWhile_cons]
  by_cases h : lblock < r32 (extentEntry eh i) 0
  · rw [if_pos h, if_neg (by simpa using h)]
    rfl
  · rw [if_neg h, if_pos (by simpa using h)]
    rfl

theorem leafScan_none {n i : Nat} (h : eh.length < 12 * (i + 1) + 6) :
    Bounded.leafScan eh lblock (n + 1) i = none := by
  have hlen : (extentEntry eh i).length = eh.length - (12 + 12 * i) := List.length_drop
  have h16 : Bounded.r16 (extentEntry eh i) 4 = none := if_neg (by omega)
  rw [Bounded.leafScan, h16]
  rcases Bounded.r32 (extentEntry eh i) 0 with _ | eeBlk <;> rfl

/-- The leaf loop from entry `i` on, when the first 6 bytes of the entry before it lie in the buffer. -/
theorem isSome_leafScan {n i : Nat} (hi : 12 * i + 6 ≤ eh.length) :
    (Bounded.leafScan eh lblock n i).isSome ↔
      12 * (i + leafStop eh lblock n i) + (if leafStop eh lblock n i < n then 24 else 6) ≤ eh.length := by
  induction n generalizing i with
  | zero =>
    show true = true ↔ 12 * (i + 0) + 6 ≤ eh.length
    exact iff_of_true rfl (by omega)
  | succ n ih =>
    have hlen : (extentEntry eh i).length = eh.length - (12 + 12 * i) := List.length_drop
    rw [leafStop_succ]
    by_cases hfit : eh.length < 12 * (i + 1) + 6
    · rw [leafScan_none hfit]
      refine iff_of_false Bool.false_ne_true ?_
      split_ifs <;> omega
    rw [Bounded.leafScan, bounded_r32_of_le (by omega), bounded_r16_of_le (by omega)]
    simp only [Option.bind_eq_bind, Option.bind_some]
    by_cases hhit : leafHit lblock (extentEntry eh i) = true
    · rw [if_pos (leafHit_iff.mp hhit), if_pos hhit, if_pos (Nat.succ_pos n)]
      by_cases hall : 12 * i + 24 ≤ eh.length
      · rw [bounded_r32_of_le (by omega), bounded_r16_of_le (by omega)]
        exact iff_of_true rfl (by omega)
      · have hnone : Bounded.r32 (extentEntry eh i) 8 = none := if_neg (by omega)
        rw [hnone]
        exact iff_of_false Bool.false_ne_true (by omega)
    · rw [if_neg (fun h => hhit (leafHit_iff.mpr h)), if_neg hhit, ih (by omega)]
      simp only [Nat.add_lt_add_iff_right]
      rw [show i + 1 + leafStop eh lblock n (i + 1) = i + (leafStop eh lblock n (i + 1) + 1) by omega]

theorem isSome_bestIndex {n i : Nat} {best : Option (List Byte)} (hi : 12 * i + 4 ≤ eh.length) :
    (Bounded.bestIndex eh lblock n i best).isSome ↔
      12 * (i + indexStop eh lblock n i) + (if indexStop eh lblock n i < n then 16 else 4) ≤ eh.length := by
  induction n generalizing i best with
  | zero =>
    show true = true ↔ 12 * (i + 0) + 4 ≤ eh.length
    exact iff_of_true rfl (by omega)
  | succ n ih =>
    have hlen : (extentEntry eh i).length = eh.length - (12 + 12 * i) := List.length_drop
    rw [Bounded.bestIndex, indexStop_succ]
    by_cases hfit : eh.length < 12 * (i + 1) + 4
    · have hnone : Bounded.r32 (extentEntry eh i) 0 = none := if_neg (by omega)
      rw [hnone]
      refine iff_of_false Bool.false_ne_true ?_
      split_ifs <;> omega
    rw [bounded_r32_of_le (by omega)]
    simp only [Option.bind_eq_bind, Option.bind_some]
    by_cases hstop : lblock < r32 (extentEntry eh i) 0
    · rw [if_pos hstop, if_pos hstop, if_pos (Nat.succ_pos n)]
      exact iff_of_true rfl (by omega)
    · rw [if_neg hstop, if_neg hstop, ih (by omega)]
      simp only [Nat.add_lt_add_iff_right]
      rw [show i + 1 + indexStop eh lblock n (i + 1) = i + (indexStop eh lblock n (i + 1) + 1) by omega]

theorem bestIndex_eq_some {n i : Nat} {best r : Option (List Byte)}
    (h : Bounded.bestIndex eh lblock n i best = some r) :
    r = if indexStop eh lblock n i = 0 then best else some (extentEntry eh (i + indexStop eh lblock n i - 1)) := by
  induction n generalizing i best with
  | zero => exact (Option.some.inj h).symm
  | succ n ih =>
    rw [Bounded.bestIndex, Option.bind_eq_bind, Option.bind_eq_some_iff] at h
    obtain ⟨block, hblock, h⟩ := h
    obtain ⟨-, rfl⟩ := bounded_r32.mp hblock
    rw [indexStop_succ]
    by_cases hstop : lblock < r32 (extentEntry eh i) 0
    · rw [if_pos hstop] at h
      rw [if_pos hstop, if_pos rfl]
      exact (Option.some.inj h).symm
    · rw [if_neg hstop] at h
      rw [if_neg hstop, if_neg (Nat.succ_ne_zero _), ih h]
      split_ifs with hzero
      · rw [hzero]
        rfl
      · rw [show i + 1 + indexStop eh lblock n (i + 1) - 1 = i + (indexStop eh lblock n (i + 1) + 1) - 1 by omega]

theorem isSome_leafScan_header (h : 6 ≤ eh.length) :
    (Bounded.leafScan eh lblock (r16 eh 2) 0).isSome ↔ LeafFits eh lblock := by
  rw [isSome_leafScan (by omega), Nat.zero_add]
  rfl

variable {pool : Pool} {v : Ext4Vol}

theorem isSome_scanLeaf (hbs : 12 ≤ v.blockSize) (leaf : Nat) :
    (Bounded.scanLeaf pool v lblock leaf).isSome ↔ ((blkRead pool v leaf).1 = true →
      r16 (blkRead pool v leaf).2 0 = ext4ExtentHeaderMagic → LeafFits (blkRead pool v leaf).2 lblock) := by
  rw [Bounded.scanLeaf]
  by_cases hread : (blkRead pool v leaf).1 = true
  swap
  · rw [if_pos (by simpa using hread)]
    exact iff_of_true rfl (absurd · hread)
  have hlen : (blkRead pool v leaf).2.length = v.blockSize := length_readBytes hread
  rw [if_neg (by simpa using hread), bounded_r16_of_le (by omega), bounded_r16_of_le (by omega)]
  simp only [Option.bind_eq_bind, Option.bind_some]
  by_cases hmagic : r16 (blkRead pool v leaf).2 0 = ext4ExtentHeaderMagic
  · rw [if_neg (not_not_intro hmagic), isSome_leafScan_header (by omega)]
    exact ⟨fun h _ _ => h, fun h => h hread hmagic⟩
  · rw [if_pos hmagic]
    exact iff_of_true rfl fun _ h => absurd h hmagic

theorem isSome_scanIndex (heh : 12 ≤ eh.length) (hbs : 12 ≤ v.blockSize) :
    (Bounded.scanIndex pool v eh lblock (r16 eh 2)).isSome ↔ IndexFits eh lblock ∧ ∀ block,
      leafBlock pool v eh lblock = some block → r16 block 0 = ext4ExtentHeaderMagic → LeafFits block lblock := by
  have hloop : (Bounded.bestIndex eh lblock (r16 eh 2) 0 none).isSome ↔ _ :=
    isSome_bestIndex (by omega)
  have hbest (r : Option (List Byte)) (h : Bounded.bestIndex eh lblock (r16 eh 2) 0 none = some r) :=
    bestIndex_eq_some h
  rw [Bounded.scanIndex, IndexFits, leafBlock]
  simp only [Nat.zero_add] at hloop hbest ⊢
  generalize indexStop eh lblock (r16 eh 2) 0 = s at hloop hbest ⊢
  rcases hrun : Bounded.bestIndex eh lblock (r16 eh 2) 0 none with _ | best
  · rw [hrun] at hloop
    have hout := mt hloop.mpr Bool.false_ne_true
    refine iff_of_false Bool.false_ne_true fun h => ?_
    have hin := h.1
    split_ifs at hout hin <;> omega
  rw [hrun] at hloop
  have hin := hloop.mp rfl
  obtain rfl := hbest best hrun
  by_cases hzero : s = 0
  · rw [if_pos hzero]
    refine iff_of_true rfl ⟨?_, fun block h => ?_⟩
    · split_ifs at hin ⊢ <;> omega
    · rw [if_neg (by omega)] at h
      cases h
  have hlen : (extentEntry eh (s - 1)).length = eh.length - (12 + 12 * (s - 1)) := List.length_drop
  rw [if_neg hzero]
  simp only [Option.bind_eq_bind, Option.bind_some]
  by_cases hten : 12 * s + 10 ≤ eh.length
  · have hfit : 12 * s + (if s < r16 eh 2 then 16 else 10) ≤ eh.length := by
      split_ifs at hin ⊢ <;> omega
    rw [bounded_r32_of_le (by omega), bounded_r16_of_le (by omega), Option.bind_some, Option.bind_some, ← indexLeaf,
      isSome_scanLeaf hbs, and_iff_right hfit]
    simp only [Option.ite_none_right_eq_some, Option.some.injEq, and_imp, Nat.pos_of_ne_zero hzero, true_imp_iff]
    exact ⟨fun h block hread hblock => hblock ▸ h hread, fun h hread => h _ hread rfl⟩
  · have h16 : Bounded.r16 (extentEntry eh (s - 1)) 8 = none := if_neg (by omega)
    rw [h16]
    refine iff_of_false ?_ fun h => ?_
    · rcases Bounded.r32 (extentEntry eh (s - 1)) 4 with _ | lo <;> exact Bool.false_ne_true
    · have hin := h.1
      split_ifs at hin <;> omega

/-- The lookup stays in its two buffers exactly when what it looks at fits them. -/
theorem isSome_extentPhys (heh : 12 ≤ eh.length) (hbs : 12 ≤ v.blockSize) :
    (Bounded.extentPhys pool v eh lblock).isSome ↔ ExtentFits pool v eh lblock := by
  rw [Bounded.extentPhys, bounded_r16_of_le (by omega), bounded_r16_of_le (by omega),
    bounded_r16_of_le (by omega)]
  simp only [Option.bind_eq_bind, Option.bind_some]
  by_cases hmagic : r16 eh 0 = ext4ExtentHeaderMagic
  swap
  · rw [if_pos hmagic]
    exact iff_of_true rfl ⟨(absurd · hmagic), (absurd · hmagic), (absurd · hmagic)⟩
  rw [if_neg (not_not_intro hmagic)]
  by_cases hdepth : r16 eh 6 = 0
  · rw [if_neg (by omega), isSome_leafScan_header (by omega)]
    exact ⟨fun h => ⟨fun _ _ => h, fun _ => absurd hdepth, fun _ => absurd hdepth⟩,
      fun h => h.leaf hmagic hdepth⟩
  · rw [if_pos (by omega), isSome_scanIndex heh hbs]
    exact ⟨fun h => ⟨fun _ h0 => absurd h0 hdepth, fun _ _ => h.1, fun _ _ => h.2⟩,
      fun h => ⟨h.index hmagic hdepth, h.child hmagic hdepth⟩⟩

/-! A run that stays inside is the model's, on every buffer that starts with the bounded one. -/

variable (rest : List Byte)

theorem r16_of_bounded (h : Bounded.r16 p off = some x) : r16 (p ++ rest) off = x := by
  obtain ⟨hlen, rfl⟩ := bounded_r16.mp h
  exact r16_append hlen rest

theorem r32_of_bounded (h : Bounded.r32 p off = some x) : r32 (p ++ rest) off = x := by
  obtain ⟨hlen, rfl⟩ := bounded_r32.mp h
  exact r32_append hlen rest

theorem extentEntry_of_bounded {i : Nat} (h : Bounded.r32 (extentEntry eh i) off = some x) :
    extentEntry (eh ++ rest) i = extentEntry eh i ++ rest := by
  have hlen := (bounded_r32.mp h).1
  rw [extentEntry, List.length_drop] at hlen
  exact List.drop_append_of_le_length (by omega)

theorem leafScan_of_bounded {n i : Nat} (h : Bounded.leafScan eh lblock n i = some x) :
    leafScan (eh ++ rest) lblock n i = x := by
  induction n generalizing i with
  | zero => exact Option.some.inj h
  | succ n ih =>
    rw [Bounded.leafScan] at h
    simp only [Option.bind_eq_bind, Option.bind_eq_some_iff] at h
    obtain ⟨eeBlk, hblk, eeLen, hlen, h⟩ := h
    rw [leafScan, extentEntry_of_bounded rest hblk, r32_of_bounded rest hblk, r16_of_bounded rest hlen]
    split_ifs at h ⊢ with hhit
    · simp only [Option.bind_eq_some_iff] at h
      obtain ⟨lo, hlo, hi, hhi, h⟩ := h
      rw [extentStart, r32_of_bounded rest hlo, r16_of_bounded rest hhi]
      exact Option.some.inj h
    · exact ih h

theorem bestIndex_of_bounded {n i : Nat} {best r : Option (List Byte)}
    (h : Bounded.bestIndex eh lblock n i best = some r) :
    bestIndex (eh ++ rest) lblock n i (best.map (· ++ rest)) = r.map (· ++ rest) := by
  induction n generalizing i best with
  | zero => rw [bestIndex, Option.some.inj h]
  | succ n ih =>
    rw [Bounded.bestIndex, Option.bind_eq_bind, Option.bind_eq_some_iff] at h
    obtain ⟨block, hblock, h⟩ := h
    rw [bestIndex, extentEntry_of_bounded rest hblock, r32_of_bounded rest hblock]
    split_ifs at h ⊢ with hstop
    · rw [Option.some.inj h]
    · exact ih h

theorem extentPhys_of_bounded {scratch : Nat} {blocks : List Byte} (hscratch : scratch ≤ blocks.length)
    (h : Bounded.extentPhys pool v eh lblock = some x) :
    (extentPhys pool v (eh ++ rest) lblock scratch blocks).1 = x := by
  rw [Bounded.extentPhys, Option.bind_eq_bind, Option.bind_eq_some_iff] at h
  obtain ⟨magic, hmagic, h⟩ := h
  rw [extentPhys, r16_of_bounded rest hmagic]
  by_cases hm : magic ≠ ext4ExtentHeaderMagic
  · rw [if_pos hm] at h ⊢
    exact Option.some.inj h
  rw [if_neg hm] at h ⊢
  simp only [Option.bind_eq_some_iff] at h
  obtain ⟨entries, hentries, depth, hdepth, h⟩ := h
  rw [r16_of_bounded rest hentries, r16_of_bounded rest hdepth]
  by_cases hd : 0 < depth
  swap
  · rw [if_neg hd] at h ⊢
    exact leafScan_of_bounded rest h
  rw [if_pos hd] at h ⊢
  rw [Bounded.scanIndex, Option.bind_eq_bind, Option.bind_eq_some_iff] at h
  obtain ⟨best, hbest, h⟩ := h
  have hrun := bestIndex_of_bounded rest hbest
  rw [Option.map_none] at hrun
  rw [hrun]
  rcases best with _ | best
  · exact Option.some.inj h
  simp only [Option.bind_eq_bind, Option.bind_eq_some_iff] at h
  obtain ⟨lo, hlo, hi, hhi, h⟩ := h
  have hleaf : indexLeaf (best ++ rest) = lo + 2 ^ 32 * hi := by
    rw [indexLeaf, r32_of_bounded rest hlo, r16_of_bounded rest hhi]
  rw [Option.map_some]
  dsimp only
  rw [hleaf]
  rw [Bounded.scanLeaf] at h
  by_cases hread : (!(blkRead pool v (lo + 2 ^ 32 * hi)).1) = true
  · rw [if_pos hread] at h ⊢
    exact Option.some.inj h
  rw [if_neg hread] at h ⊢
  simp only [Option.bind_eq_bind, Option.bind_eq_some_iff] at h
  obtain ⟨magic, hmagic, h⟩ := h
  rw [drop_patch hscratch, r16_of_bounded _ hmagic]
  by_cases hm : magic ≠ ext4ExtentHeaderMagic
  · rw [if_pos hm] at h ⊢
    exact Option.some.inj h
  rw [if_neg hm] at h ⊢
  obtain ⟨entries, hentries, h⟩ := Option.bind_eq_some_iff.mp h
  rw [r16_of_bounded _ hentries]
  exact leafScan_of_bounded _ h

end Extents

/-! ## Directory blocks -/

section Walks

theorem nameMatch_true {p name : List Byte} : Bounded.nameMatch p name = some true ↔ name <+: p := by
  induction name generalizing p with
  | nil => exact iff_of_true (by cases p <;> rfl) (List.nil_prefix)
  | cons c name ih =>
    cases p with
    | nil => exact iff_of_false (by simp [Bounded.nameMatch]) (by simp)
    | cons b p =>
      rw [Bounded.nameMatch, List.cons_prefix_cons]
      by_cases hbc : b = c
      · rw [if_pos hbc, ih, and_iff_right hbc.symm]
      · exact iff_of_false (by simp [hbc]) fun h => hbc h.1.symm

theorem nameMatch_none {p name : List Byte} :
    Bounded.nameMatch p name = none ↔ p <+: name ∧ ¬name <+: p := by
  induction name generalizing p with
  | nil => exact iff_of_false (by cases p <;> simp [Bounded.nameMatch]) fun h => h.2 List.nil_prefix
  | cons c name ih =>
    cases p with
    | nil => exact iff_of_true rfl ⟨List.nil_prefix, by simp⟩
    | cons b p =>
      rw [Bounded.nameMatch, List.cons_prefix_cons, List.cons_prefix_cons]
      by_cases hbc : b = c
      · rw [if_pos hbc, ih, and_iff_right hbc, and_iff_right hbc.symm]
      · exact iff_of_false (by simp [hbc]) fun h => hbc h.1.1

theorem fit_cons (b : Byte) (p : List Byte) (n : Nat) : fit (b :: p) (n + 1) = b :: fit p n := by
  rw [fit, fit, List.take_succ_cons, List.length_cons, Nat.add_sub_add_right, List.cons_append]

theorem nameMatch_fit {p name : List Byte} {hit : Bool} (rest : List Byte)
    (h : Bounded.nameMatch p name = some hit) : hit = true ↔ fit (p ++ rest) name.length = name := by
  induction name generalizing p with
  | nil =>
    have hit_eq : some true = some hit := by
      rw [← h]
      cases p <;> rfl
    exact iff_of_true (Option.some.inj hit_eq).symm (by simp [fit])
  | cons c name ih =>
    cases p with
    | nil => cases h
    | cons b p =>
      rw [Bounded.nameMatch] at h
      rw [List.cons_append, List.length_cons, fit_cons, List.cons.injEq]
      by_cases hbc : b = c
      · rw [if_pos hbc] at h
        rw [and_iff_right hbc, ih h]
      · rw [if_neg hbc] at h
        obtain rfl := Option.some.inj h
        exact iff_of_false Bool.false_ne_true fun h => hbc h.1

variable {block : List Byte} {limit pos : Nat}

theorem record_header (hlimit : limit ≤ block.length) (hpos : ¬limit < pos + 8) :
    Bounded.r32 (block.drop pos) 0 = some (r32 (block.drop pos) 0) ∧
      Bounded.r16 (block.drop pos) 4 = some (r16 (block.drop pos) 4) ∧
      ∀ k < 8, (block.drop pos)[k]? = some ((block.drop pos).getD k 0) := by
  have hlen : (block.drop pos).length = block.length - pos := List.length_drop
  refine ⟨bounded_r32_of_le (by omega), bounded_r16_of_le (by omega), fun k hk => ?_⟩
  rw [List.getD_eq_getElem?_getD, List.getElem?_eq_getElem (by omega), Option.getD_some]

/-- The test of the record at a position, from the bytes there. -/
def hitAt (block : List Byte) (pos : Nat) (name : List Byte) : Option Bool :=
  Bounded.recordHit name (block.drop pos) (r32 (block.drop pos) 0) ((block.drop pos).getD 6 0)

/-- What the record at a position gives to the listing, from the bytes there. -/
def eventsAt (block : List Byte) (pos : Nat) : Option (List DirEvent) :=
  Bounded.recordEvents (block.drop pos) (r32 (block.drop pos) 0) ((block.drop pos).getD 6 0)
    ((block.drop pos).getD 7 0)

theorem hitAt_eq (block : List Byte) (pos : Nat) (name : List Byte) : hitAt block pos name =
    if Compared name (block.drop pos) then Bounded.nameMatch (block.drop (pos + 8)) name else some false := by
  rw [hitAt, Bounded.recordHit, List.drop_drop]
  rfl

theorem eventsAt_eq (block : List Byte) (pos : Nat) : eventsAt block pos =
    if Listed (block.drop pos) then
      (Bounded.bytes (block.drop (pos + 8)) ((block.drop pos).getD 6 0).toNat).map fun fname =>
        if isDotName fname then [] else [{ name := fname, isDir := (block.drop pos).getD 7 0 == 2 }]
    else some [] := by
  rw [eventsAt, Bounded.recordEvents, List.drop_drop]
  rfl

theorem hitAt_true {name : List Byte} : hitAt block pos name = some true ↔ Named name (block.drop pos) := by
  rw [hitAt_eq, Named, List.drop_drop]
  by_cases hcomp : Compared name (block.drop pos)
  · rw [if_pos hcomp, nameMatch_true]
    exact (and_iff_right hcomp).symm
  · rw [if_neg hcomp]
    exact iff_of_false (by simp) fun h => hcomp h.1

theorem isSome_hitAt {name : List Byte} (hfound : ¬Named name (block.drop pos)) :
    (hitAt block pos name).isSome ↔
      (Compared name (block.drop pos) → ¬block.drop (pos + 8) <+: name) := by
  rw [hitAt_eq]
  by_cases hcomp : Compared name (block.drop pos)
  · have hno : ¬name <+: block.drop (pos + 8) := by
      rw [Named, List.drop_drop] at hfound
      exact fun h => hfound ⟨hcomp, h⟩
    rw [if_pos hcomp, Option.isSome_iff_ne_none, Ne, nameMatch_none, and_iff_left hno]
    exact ⟨fun h _ => h, fun h => h hcomp⟩
  · rw [if_neg hcomp]
    exact iff_of_true rfl fun h => absurd h hcomp

theorem isSome_eventsAt : (eventsAt block pos).isSome ↔
    (Listed (block.drop pos) → pos + 8 + ((block.drop pos).getD 6 0).toNat ≤ block.length) := by
  rw [eventsAt_eq]
  by_cases hlist : Listed (block.drop pos)
  · have hpos := hlist.2.1
    have hlen : (block.drop (pos + 8)).length = block.length - (pos + 8) := List.length_drop
    rw [if_pos hlist, Option.isSome_map, Bounded.bytes]
    by_cases hin : pos + 8 + ((block.drop pos).getD 6 0).toNat ≤ block.length
    · rw [if_pos (by omega)]
      exact iff_of_true rfl fun _ => hin
    · rw [if_neg (by omega)]
      exact iff_of_false Bool.false_ne_true fun h => hin (h hlist)
  · rw [if_neg hlist]
    exact iff_of_true rfl fun h => absurd h hlist

theorem bounded_dirWalk_succ (hlimit : limit ≤ block.length) (name : List Byte) (fuel pos : Nat) :
    Bounded.dirWalk block limit name (fuel + 1) pos =
      if limit < pos + 8 then some 0
      else if r16 (block.drop pos) 4 = 0 then some 0
      else
        (hitAt block pos name).bind fun hit =>
          if hit then some (r32 (block.drop pos) 0)
          else Bounded.dirWalk block limit name fuel (pos + r16 (block.drop pos) 4) := by
  rw [Bounded.dirWalk]
  by_cases hpos : limit < pos + 8
  · rw [if_pos hpos, if_pos hpos]
  obtain ⟨h32, h16, hget⟩ := record_header hlimit hpos
  rw [if_neg hpos, if_neg hpos]
  dsimp only
  rw [h32, h16, hget 6 (by decide)]
  rfl

theorem bounded_readdirWalk_succ (hlimit : limit ≤ block.length) (fuel pos : Nat) :
    Bounded.readdirWalk block limit (fuel + 1) pos =
      if limit < pos + 8 then some []
      else if r16 (block.drop pos) 4 = 0 then some []
      else
        (eventsAt block pos).bind fun events =>
          (Bounded.readdirWalk block limit fuel (pos + r16 (block.drop pos) 4)).bind fun rest =>
            some (events ++ rest) := by
  rw [Bounded.readdirWalk]
  by_cases hpos : limit < pos + 8
  · rw [if_pos hpos, if_pos hpos]
  obtain ⟨h32, h16, hget⟩ := record_header hlimit hpos
  rw [if_neg hpos, if_neg hpos]
  dsimp only
  rw [h32, h16, hget 6 (by decide), hget 7 (by decide)]
  rfl

/-- The lookup in a block stays inside exactly when it runs off no name. -/
theorem isSome_dirWalk (hlimit : limit ≤ block.length) (name : List Byte) (fuel pos : Nat) :
    (Bounded.dirWalk block limit name fuel pos).isSome ↔
      ∀ q ∈ (records block limit fuel pos).takeWhile fun q => ¬Named name (block.drop q),
        Compared name (block.drop q) → ¬block.drop (q + 8) <+: name := by
  induction fuel generalizing pos with
  | zero => exact iff_of_true rfl (by simp [records])
  | succ fuel ih =>
    rw [bounded_dirWalk_succ hlimit, records]
    split_ifs with hpos hlen
    · exact iff_of_true rfl (by simp)
    · exact iff_of_true rfl (by simp)
    by_cases hfound : Named name (block.drop pos)
    · rw [hitAt_true.mpr hfound, List.takeWhile_cons_of_neg (by simpa using hfound)]
      exact iff_of_true rfl (by simp)
    rw [List.takeWhile_cons_of_pos (by simpa using hfound), List.forall_mem_cons, ← ih, ← isSome_hitAt hfound]
    rcases hhit : hitAt block pos name with _ | _ | _
    · exact iff_of_false Bool.false_ne_true fun h => Bool.false_ne_true h.1
    · exact (and_iff_right rfl).symm
    · exact absurd (hitAt_true.mp hhit) hfound

theorem isSome_readdirWalk (hlimit : limit ≤ block.length) (fuel pos : Nat) :
    (Bounded.readdirWalk block limit fuel pos).isSome ↔
      ∀ q ∈ records block limit fuel pos, Listed (block.drop q) →
        q + 8 + ((block.drop q).getD 6 0).toNat ≤ block.length := by
  induction fuel generalizing pos with
  | zero => exact iff_of_true rfl (by simp [records])
  | succ fuel ih =>
    rw [bounded_readdirWalk_succ hlimit, records]
    split_ifs with hpos hlen
    · exact iff_of_true rfl (by simp)
    · exact iff_of_true rfl (by simp)
    rw [List.forall_mem_cons, ← ih, ← isSome_eventsAt]
    rcases eventsAt block pos with _ | events
    · exact iff_of_false Bool.false_ne_true fun h => Bool.false_ne_true h.1
    · rw [Option.bind_some, Option.isSome_some, and_iff_right rfl]
      cases Bounded.readdirWalk block limit fuel (pos + r16 (block.drop pos) 4) <;> rfl

variable (rest : List Byte)

theorem record_append (hlimit : limit ≤ block.length) (hpos : ¬limit < pos + 8) :
    (block ++ rest).drop pos = block.drop pos ++ rest ∧
      r32 (block.drop pos ++ rest) 0 = r32 (block.drop pos) 0 ∧
      r16 (block.drop pos ++ rest) 4 = r16 (block.drop pos) 4 ∧
      (∀ k < 8, (block.drop pos ++ rest).getD k 0 = (block.drop pos).getD k 0) ∧
      (block.drop pos ++ rest).drop 8 = block.drop (pos + 8) ++ rest := by
  have hlen : (block.drop pos).length = block.length - pos := List.length_drop
  refine ⟨List.drop_append_of_le_length (by omega), r32_append (by omega) rest, r16_append (by omega) rest,
    fun k hk => List.getD_append _ _ _ _ (by omega), ?_⟩
  rw [List.drop_append_of_le_length (by omega), List.drop_drop]

theorem hitAt_fit {name : List Byte} {hit : Bool} (h : hitAt block pos name = some hit) :
    hit = true ↔
      Compared name (block.drop pos) ∧ fit (block.drop (pos + 8) ++ rest) name.length = name := by
  rw [hitAt_eq] at h
  by_cases hcomp : Compared name (block.drop pos)
  · rw [if_pos hcomp] at h
    rw [nameMatch_fit rest h, and_iff_right hcomp]
  · rw [if_neg hcomp] at h
    obtain rfl := Option.some.inj h
    exact iff_of_false Bool.false_ne_true fun h => hcomp h.1

theorem dirWalk_of_bounded (hlimit : limit ≤ block.length) {name : List Byte} {fuel x : Nat}
    (h : Bounded.dirWalk block limit name fuel pos = some x) :
    dirWalk (block ++ rest) limit name fuel pos = x := by
  induction fuel generalizing pos with
  | zero => exact Option.some.inj h
  | succ fuel ih =>
    rw [bounded_dirWalk_succ hlimit] at h
    rw [dirWalk]
    by_cases hpos : limit < pos + 8
    · rw [if_pos hpos] at h ⊢
      exact Option.some.inj h
    obtain ⟨hdrop, h32, h16, hget, hname⟩ := record_append rest hlimit hpos
    rw [if_neg hpos] at h ⊢
    dsimp only
    rw [hdrop, h32, h16, hget 6 (by decide), hname]
    by_cases hlen : r16 (block.drop pos) 4 = 0
    · rw [if_pos hlen] at h ⊢
      exact Option.some.inj h
    rw [if_neg hlen] at h ⊢
    obtain ⟨hit, hhit, h⟩ := Option.bind_eq_some_iff.mp h
    have hfit := hitAt_fit rest hhit
    rw [Compared, and_assoc] at hfit
    by_cases htrue : hit = true
    · rw [if_pos htrue] at h
      rw [if_pos (hfit.mp htrue)]
      exact Option.some.inj h
    · rw [if_neg htrue] at h
      rw [if_neg (mt hfit.mpr htrue)]
      exact ih h

theorem bytes_fit {p fname : List Byte} {n : Nat} (h : Bounded.bytes p n = some fname) :
    fit (p ++ rest) n = fname := by
  obtain ⟨hlen, hfname⟩ := Option.ite_none_right_eq_some.mp h
  rw [← Option.some.inj hfname]
  have hfit : fit ((p ++ rest).drop 0) n = slice (p ++ rest) 0 n :=
    fit_slice (by rw [List.length_append]; omega)
  rw [List.drop_zero, slice_append_left (by omega)] at hfit
  exact hfit

theorem readdirEvent_of_bounded (hlimit : limit ≤ block.length) (hpos : ¬limit < pos + 8)
    {events : List DirEvent} (h : eventsAt block pos = some events) :
    readdirEvent (block.drop pos ++ rest) = events := by
  obtain ⟨-, h32, -, hget, hname⟩ := record_append rest hlimit hpos
  rw [eventsAt_eq] at h
  rw [readdirEvent, h32, hget 6 (by decide), hget 7 (by decide), hname]
  by_cases hlist : Listed (block.drop pos)
  · rw [if_pos hlist, Option.map_eq_some_iff] at h
    obtain ⟨fname, hbytes, rfl⟩ := h
    rw [bytes_fit rest hbytes]
    exact if_pos hlist
  · rw [if_neg hlist] at h
    rw [← Option.some.inj h]
    exact if_neg hlist

theorem readdirWalk_of_bounded (hlimit : limit ≤ block.length) {fuel : Nat} {events : List DirEvent}
    (h : Bounded.readdirWalk block limit fuel pos = some events) :
    readdirWalk (block ++ rest) limit fuel pos = events := by
  induction fuel generalizing pos events with
  | zero => exact Option.some.inj h
  | succ fuel ih =>
    rw [bounded_readdirWalk_succ hlimit] at h
    rw [readdirWalk]
    by_cases hpos : limit < pos + 8
    · rw [if_pos hpos] at h ⊢
      exact Option.some.inj h
    obtain ⟨hdrop, -, h16, -, -⟩ := record_append rest hlimit hpos
    rw [if_neg hpos] at h ⊢
    dsimp only
    rw [hdrop, h16]
    by_cases hlen : r16 (block.drop pos) 4 = 0
    · rw [if_pos hlen] at h ⊢
      exact Option.some.inj h
    rw [if_neg hlen] at h ⊢
    simp only [Option.bind_eq_some_iff] at h
    obtain ⟨first, hfirst, later, hlater, h⟩ := h
    rw [readdirEvent_of_bounded rest hlimit hpos hfirst, ih hlater]
    exact Option.some.inj h

end Walks

/-! ## Calls that stay inside -/

/-- `extent_phys` on an inode buffer: it reads no byte behind the inode or behind the scratch block, and its result is
the model's, whatever lies there. -/
def ExtentInside (pool : Pool) (v : Ext4Vol) (inode : List Byte) (lblock : Nat) : Prop :=
  ∀ rest scratch blocks, scratch ≤ blocks.length →
    Bounded.extentPhys pool v (inode.drop 40) lblock =
      some (extentPhys pool v ((inode ++ rest).drop 40) lblock scratch blocks).1

/-- The walk of `dir_lookup_comp` over a directory block reads no byte behind it. -/
def LookupInside (block : List Byte) (limit : Nat) (name : List Byte) : Prop :=
  ∀ rest, Bounded.dirWalk block limit name limit 0 = some (dirWalk (block ++ rest) limit name limit 0)

/-- The walk of `ext4_readdir` over a directory block reads no byte behind it. -/
def ReaddirInside (block : List Byte) (limit : Nat) : Prop :=
  ∀ rest, Bounded.readdirWalk block limit limit 0 = some (readdirWalk (block ++ rest) limit limit 0)

theorem isSome_iff_inside {α β : Type} {run : Option α} {model : β → α} (b : β)
    (h : ∀ x, run = some x → ∀ b, model b = x) : run.isSome ↔ ∀ b, run = some (model b) := by
  constructor
  · intro hsome b
    obtain ⟨x, hx⟩ := Option.isSome_iff_exists.mp hsome
    rw [hx, h x hx b]
  · intro hrun
    rw [hrun b]
    rfl

/-- On a volume with valid geometry, each access of the three loops stays inside its buffer exactly when what the loop
comes to fits there: for every inode, every block of a directory and every name. -/
theorem accesses_inside_iff (pool : Pool) (fs : Ext4Fs) :
    (∀ inode lblock, inode.length = fs.inodeSize →
      (ExtentInside pool fs.toExt4Vol inode lblock ↔ ExtentFits pool fs.toExt4Vol (inode.drop 40) lblock)) ∧
    (∀ block size nblk blk name, block.length = fs.blockSize →
      let limit := dirLimit fs.toExt4Vol size nblk blk
      (LookupInside block limit name ↔ LookupFits block limit name) ∧
      (ReaddirInside block limit ↔ ReaddirFits block limit)) := by
  have hbs := fs.blockSize_ge
  have hisz := fs.inodeSize_ge
  constructor
  · intro inode lblock hlen
    have heh : 12 ≤ (inode.drop 40).length := by
      rw [List.length_drop]
      omega
    rw [← isSome_extentPhys heh (by omega)]
    constructor
    · intro hin
      rw [hin [] 0 [] le_rfl]
      rfl
    · intro hsome rest scratch blocks hscratch
      obtain ⟨x, hx⟩ := Option.isSome_iff_exists.mp hsome
      rw [List.drop_append_of_le_length (by omega), extentPhys_of_bounded rest hscratch hx, hx]
  · intro block size nblk blk name hlen limit
    have hlimit : limit ≤ block.length := by
      have := dirLimit_le (v := fs.toExt4Vol) (by omega) size nblk blk
      omega
    constructor
    · rw [LookupFits, ← isSome_dirWalk hlimit]
      exact (isSome_iff_inside [] fun x hx rest => dirWalk_of_bounded rest hlimit hx).symm
    · rw [ReaddirFits, ← isSome_readdirWalk hlimit]
      exact (isSome_iff_inside [] fun x hx rest => readdirWalk_of_bounded rest hlimit hx).symm

/-! A volume with blocks of 1 KiB and inodes of 128 bytes. -/

theorem eight_inodes_pos : 0 < 8 := Nat.succ_pos 7
theorem smallest_inode_ge : 128 ≤ 128 := Nat.le_refl 128
theorem smallest_block_ge : 1024 ≤ 1024 := Nat.le_refl 1024
theorem smallest_block_le : 1024 ≤ 2 ^ 30 := Nat.le_of_ble_eq_true rfl

def smallFs : Ext4Fs where
  luksVol := none
  dio := none
  bio := some lostLeafPart.1
  physBlkSz := 512
  blockSize := 1024
  inodesPerGroup := 8
  inodeSize := 128
  firstDataBlock := 1
  bgdtOff := 2048
  descSize := 32
  inodesPerGroup_pos := eight_inodes_pos
  inodeSize_ge := smallest_inode_ge
  blockSize_ge := smallest_block_ge
  blockSize_le := smallest_block_le

/-- An inode with an extent leaf of so many entries, the first of which maps block 0 and the others nothing. -/
def leafInode (entries : Nat) : List Byte :=
  List.replicate 40 0 ++ le 2 0xF30A ++ le 2 entries ++ le 8 0 ++ le 4 0 ++ le 2 1 ++ le 2 0 ++ le 4 5 ++
    List.replicate 64 0

/-- A directory block with a free record of so many bytes and then the file `k`. -/
def recordBlock (first : Nat) : List Byte :=
  le 4 0 ++ le 2 first ++ List.replicate (first - 6) 0 ++ le 4 3 ++ le 2 8 ++ [1, 1] ++
    (107 :: List.replicate 1015 0).take (1016 - first)

theorem accesses_inside_small :
    ExtentInside zeroPool smallFs.toExt4Vol (leafInode 4) 3 ∧
      LookupInside (recordBlock 1000) 1024 [107] ∧ ReaddirInside (recordBlock 1000) 1024 := by
  obtain ⟨hextent, hwalks⟩ := accesses_inside_iff zeroPool smallFs
  have hblock := hwalks (recordBlock 1000) 1024 1 0 [107] (by decide +kernel)
  refine ⟨(hextent (leafInode 4) 3 (by decide +kernel)).mpr ⟨?_, ?_, ?_⟩, hblock.1.mpr ?_, hblock.2.mpr ?_⟩
  · intro _ _
    unfold LeafFits
    decide
  · exact fun _ h => absurd (by decide) h
  · exact fun _ h => absurd (by decide) h
  · unfold LookupFits
    decide +kernel
  · unfold ReaddirFits
    decide +kernel

/-- An inode that claims 65535 extents, and a record in the last 8 bytes of its block. -/
theorem accesses_outside :
    (leafInode 65535).length = smallFs.inodeSize ∧ (recordBlock 1016).length = smallFs.blockSize ∧
      ¬ExtentInside zeroPool smallFs.toExt4Vol (leafInode 65535) 3 ∧
      ¬LookupInside (recordBlock 1016) 1024 [107] ∧ ¬ReaddirInside (recordBlock 1016) 1024 := by
  have hextent : Bounded.extentPhys zeroPool smallFs.toExt4Vol ((leafInode 65535).drop 40) 3 = none := by
    decide
  have hlookup : Bounded.dirWalk (recordBlock 1016) 1024 [107] 1024 0 = none := by decide +kernel
  have hreaddir : Bounded.readdirWalk (recordBlock 1016) 1024 1024 0 = none := by decide +kernel
  refine ⟨by decide +kernel, by decide +kernel, fun h => ?_, fun h => ?_, fun h => ?_⟩
  · cases hextent.symm.trans (h [] 0 [] le_rfl)
  · cases hlookup.symm.trans (h [])
  · cases hreaddir.symm.trans (h [])

end SakuruBoot

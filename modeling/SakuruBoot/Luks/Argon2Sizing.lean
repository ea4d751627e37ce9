import SakuruBoot.Crypto.Argon2Order
import SakuruBoot.Lib.Traced
import SakuruBoot.Luks.Luks2Format

/-!
# The memory of `argon2`

The size computation of `argon2` with its 32-bit products and its division, and the blocks the function goes on to index.
They agree exactly while the blocks take less than `2 ^ 32` bytes as a number; beyond, the call is only saved by an
allocator that refuses what is left of the size (`argon2_sizing_iff`).
-/

namespace SakuruBoot
open CStr (Byte u32)
open Bytes

/-- What a call of `argon2` does with its memory. -/
inductive Argon2Event
  /-- A product of two numbers in the size computation. -/
  | product (x y : Nat)
  | divide (divisor : Nat)
  /-- The call of the allocator. -/
  | request (size : Nat)
  | clear (size : Nat)
  /-- The 1024 bytes at an offset of the array are read or written. -/
  | block (off : Nat)

open Argon2Event Traced

def mulTr (x y : Nat) : Traced Argon2Event Nat := do
  emit (product x y)
  return u32 (x * y)

/-- At least eight blocks for each lane. -/
def argon2MemoryTr (p : Argon2Params) : Traced Argon2Event Nat := do
  let least ← mulTr 8 p.parallelism
  if p.memoryKb < least then mulTr 8 p.parallelism else return p.memoryKb

def argon2SizesTr (p : Argon2Params) : Traced Argon2Event Argon2Sizes := do
  let blocks ← argon2MemoryTr p
  let divisor ← mulTr p.parallelism argon2SyncPoints
  emit (divide divisor)
  let segment := blocks / divisor
  let segment := if segment = 0 then 1 else segment
  let lane ← mulTr segment argon2SyncPoints
  let blocks ← mulTr lane p.parallelism
  return { segment := segment, lane := lane, blocks := blocks }

/-- `(lane * lane_length + i) * ARGON2_BLOCK_SIZE`. -/
def argon2Offset (laneLen lane i : Nat) : Nat := u32 (u32 (lane * laneLen + i) * argon2BlockSize)

def argon2Lane0Tr (h0 : List Byte) (laneLen : Nat) (mem : Argon2Mem) (l : Nat) : Traced Argon2Event Argon2Mem := do
  emit (block (argon2Offset laneLen l 0))
  emit (block (argon2Offset laneLen l 1))
  return argon2Lane0 h0 laneLen mem l

def FillStep.runTr (p : Argon2Params) (sz : Argon2Sizes) (mem : Argon2Mem) (s : FillStep) :
    Traced Argon2Event Argon2Mem := do
  let prev := mem.getD (argon2Index sz.lane s.lane (s.prev sz)) (List.replicate argon2BlockSize 0)
  let j := argon2PseudoRand p sz prev s.pass s.slice s.lane s.index
  emit (block (argon2Offset sz.lane s.lane (s.prev sz)))
  emit (block (argon2Offset sz.lane (s.refLane p j) (s.refIndex p sz j)))
  emit (block (argon2Offset sz.lane s.lane (s.cur sz)))
  return s.run p sz mem

/-- From the first blocks of the lanes to the tag. -/
def argon2FillTr (password salt : List Byte) (p : Argon2Params) (outLen : Nat) (sz : Argon2Sizes) (mem : Argon2Mem) :
    Traced Argon2Event (List Byte) := do
  let mem ← (List.range p.parallelism).foldlM (argon2Lane0Tr (argon2H0 p password salt outLen) sz.lane) mem
  let mem ← (fillSteps p sz).foldlM (FillStep.runTr p sz) mem
  let last := fun l => mem.getD (argon2Index sz.lane l (sz.lane - 1)) (List.replicate argon2BlockSize 0)
  emit (block (argon2Offset sz.lane 0 (sz.lane - 1)))
  let final ← (List.range' 1 (p.parallelism - 1)).foldlM (fun b l => do
    emit (block (argon2Offset sz.lane l (sz.lane - 1)))
    return xorBytes b (last l)) (last 0)
  return hPrime final outLen

def argon2Tr (alloc : Nat → Bool) (password salt : List Byte) (p : Argon2Params) (outLen : Nat) :
    Traced Argon2Event (Option (List Byte)) := do
  let sz ← argon2SizesTr p
  let size ← mulTr sz.blocks argon2BlockSize
  emit (request size)
  if alloc size then
    let size ← mulTr sz.blocks argon2BlockSize
    emit (clear size)
    let mem := List.replicate (size / argon2BlockSize) (List.replicate argon2BlockSize 0)
    let tag ← argon2FillTr password salt p outLen sz mem
    return some tag
  else return none

/-! ## The results are those of `argon2` -/

theorem argon2SizesTr_val (p : Argon2Params) : (argon2SizesTr p).val = argon2Sizes p := by
  unfold argon2SizesTr argon2MemoryTr argon2Sizes
  simp only [mulTr, val_bind, val_pure, apply_ite Traced.val]

theorem argon2FillTr_val (password salt : List Byte) (p : Argon2Params) (outLen : Nat) (sz : Argon2Sizes)
    (mem : Argon2Mem) :
    (argon2FillTr password salt p outLen sz mem).val =
      let mem := (List.range p.parallelism).foldl (argon2Lane0 (argon2H0 p password salt outLen) sz.lane) mem
      let mem := argon2Fill p sz mem
      let last := fun l => mem.getD (argon2Index sz.lane l (sz.lane - 1)) (List.replicate argon2BlockSize 0)
      hPrime ((List.range' 1 (p.parallelism - 1)).foldl (fun b l => xorBytes b (last l)) (last 0)) outLen := by
  have hlanes : ∀ mem, ((List.range p.parallelism).foldlM
      (argon2Lane0Tr (argon2H0 p password salt outLen) sz.lane) mem).val =
        (List.range p.parallelism).foldl (argon2Lane0 (argon2H0 p password salt outLen) sz.lane) mem :=
    val_foldlM fun _ _ => rfl
  have hsteps : ∀ mem, ((fillSteps p sz).foldlM (FillStep.runTr p sz) mem).val = argon2Fill p sz mem := by
    intro mem
    rw [argon2Fill_eq]
    exact val_foldlM (fun _ _ => rfl) mem
  simp only [argon2FillTr, val_bind, val_pure, hlanes, hsteps]
  congr 1
  exact val_foldlM (fun _ _ => rfl) _

theorem argon2Tr_val (alloc : Nat → Bool) (password salt : List Byte) (p : Argon2Params) (outLen : Nat) :
    (argon2Tr alloc password salt p outLen).val = argon2 alloc password salt p outLen := by
  simp only [argon2Tr, mulTr, val_bind, val_pure, argon2SizesTr_val]
  unfold argon2 argon2AllocSize
  split_ifs
  · simp only [val_bind, val_pure, argon2FillTr_val]
  · rfl

/-! ## The sizes -/

/-- The length of a segment as a number. -/
def Argon2Params.segmentLength (p : Argon2Params) : Nat := max p.memoryKb (8 * p.parallelism) / (4 * p.parallelism)

/-- All blocks together take less than `2 ^ 32` bytes. -/
def Argon2Params.FitsWord (p : Argon2Params) : Prop := p.parallelism * (4 * p.segmentLength) * argon2BlockSize < 2 ^ 32

theorem events_argon2SizesTr (p : Argon2Params) : (argon2SizesTr p).events =
    ([product 8 p.parallelism] ++ if p.memoryKb < u32 (8 * p.parallelism) then [product 8 p.parallelism] else []) ++
      [product p.parallelism argon2SyncPoints, divide (u32 (p.parallelism * argon2SyncPoints)),
        product (argon2Sizes p).segment argon2SyncPoints, product (argon2Sizes p).lane p.parallelism] := by
  have hmemory : (argon2MemoryTr p).events = [product 8 p.parallelism] ++
      if p.memoryKb < u32 (8 * p.parallelism) then [product 8 p.parallelism] else [] := by
    unfold argon2MemoryTr
    simp only [mulTr, events_bind, events_emit, events_pure, val_bind, val_pure, List.append_nil]
    split_ifs <;> rfl
  have hval : (argon2MemoryTr p).val =
      if p.memoryKb < u32 (8 * p.parallelism) then u32 (8 * p.parallelism) else p.memoryKb := by
    unfold argon2MemoryTr
    simp only [mulTr, val_bind, val_pure, apply_ite Traced.val]
  unfold argon2SizesTr argon2Sizes
  simp only [events_bind, hmemory, hval, mulTr, events_emit, events_pure, val_bind, val_pure, List.append_nil,
    List.cons_append, List.nil_append]

section Sizes

variable {p : Argon2Params} (hlanes : 1 ≤ p.parallelism)
include hlanes

theorem two_le_segmentLength : 2 ≤ p.segmentLength := by
  rw [Argon2Params.segmentLength, Nat.le_div_iff_mul_le (by omega)]
  exact le_trans (by omega) (le_max_right p.memoryKb (8 * p.parallelism))

theorem argon2Segment_eq (height : 8 * p.parallelism < 2 ^ 32) : (argon2Sizes p).segment = p.segmentLength := by
  have htwo := two_le_segmentLength hlanes
  have h8 : u32 (8 * p.parallelism) = 8 * p.parallelism := Nat.mod_eq_of_lt height
  have h4 : u32 (p.parallelism * argon2SyncPoints) = 4 * p.parallelism := by
    rw [argon2SyncPoints, u32, Nat.mod_eq_of_lt (by omega), Nat.mul_comm]
  have hmax : (if p.memoryKb < 8 * p.parallelism then 8 * p.parallelism else p.memoryKb) =
      max p.memoryKb (8 * p.parallelism) := by
    split_ifs with h
    · exact (max_eq_right h.le).symm
    · exact (max_eq_left (Nat.le_of_not_lt h)).symm
  unfold argon2Sizes
  simp only [h8, h4, hmax]
  exact if_neg (Nat.ne_of_gt (Nat.lt_of_lt_of_le Nat.two_pos htwo))

theorem argon2Lane_eq (height : 8 * p.parallelism < 2 ^ 32) (hlane : 4 * p.segmentLength < 2 ^ 32) :
    (argon2Sizes p).lane = 4 * p.segmentLength := by
  have h : (argon2Sizes p).lane = u32 ((argon2Sizes p).segment * 4) := rfl
  rw [h, argon2Segment_eq hlanes height, u32, Nat.mul_comm, Nat.mod_eq_of_lt hlane]

theorem argon2Blocks_eq (height : 8 * p.parallelism < 2 ^ 32) (hlane : 4 * p.segmentLength < 2 ^ 32)
    (hblocks : p.parallelism * (4 * p.segmentLength) < 2 ^ 32) :
    (argon2Sizes p).blocks = p.parallelism * (4 * p.segmentLength) := by
  have h : (argon2Sizes p).blocks = u32 ((argon2Sizes p).lane * p.parallelism) := rfl
  rw [h, argon2Lane_eq hlanes height hlane, u32, Nat.mul_comm, Nat.mod_eq_of_lt hblocks]

theorem argon2Params_of_fits (hfits : p.FitsWord) : 8 * p.parallelism < 2 ^ 32 ∧ 4 * p.segmentLength < 2 ^ 32 ∧
    p.parallelism * (4 * p.segmentLength) < 2 ^ 22 := by
  have htwo := two_le_segmentLength hlanes
  have hwide : p.parallelism * (4 * 2) ≤ p.parallelism * (4 * p.segmentLength) :=
    Nat.mul_le_mul_left _ (Nat.mul_le_mul_left 4 htwo)
  have hrow : 1 * (4 * p.segmentLength) ≤ p.parallelism * (4 * p.segmentLength) := Nat.mul_le_mul_right _ hlanes
  unfold Argon2Params.FitsWord argon2BlockSize at hfits
  omega

theorem products_iff : ((∀ x y, product x y ∈ (argon2SizesTr p).events → x * y < 2 ^ 32) ∧
    (argon2Sizes p).blocks * argon2BlockSize < 2 ^ 32) ↔ p.FitsWord := by
  have hevents : (∀ x y, product x y ∈ (argon2SizesTr p).events → x * y < 2 ^ 32) ↔
      8 * p.parallelism < 2 ^ 32 ∧ p.parallelism * 4 < 2 ^ 32 ∧ (argon2Sizes p).segment * 4 < 2 ^ 32 ∧
        (argon2Sizes p).lane * p.parallelism < 2 ^ 32 := by
    rw [events_argon2SizesTr]
    constructor
    · intro h
      exact ⟨h _ _ (by simp), h _ _ (by simp [argon2SyncPoints]), h _ _ (by simp [argon2SyncPoints]), h _ _ (by simp)⟩
    · rintro ⟨h1, h2, h3, h4⟩ x y hmem
      simp only [List.mem_append, List.mem_cons, List.mem_ite_nil_right, List.not_mem_nil, or_false, reduceCtorEq, false_or,
        product.injEq] at hmem
      rcases hmem with (⟨rfl, rfl⟩ | ⟨-, rfl, rfl⟩) | ⟨rfl, rfl⟩ | ⟨rfl, rfl⟩ | ⟨rfl, rfl⟩
      · exact h1
      · exact h1
      · exact h2
      · exact h3
      · exact h4
  rw [hevents]
  constructor
  · rintro ⟨⟨h1, -, h3, h4⟩, h5⟩
    rw [argon2Segment_eq hlanes h1, Nat.mul_comm] at h3
    rw [argon2Lane_eq hlanes h1 h3, Nat.mul_comm] at h4
    rwa [argon2Blocks_eq hlanes h1 h3 h4] at h5
  · intro hfits
    obtain ⟨h1, h3, h4⟩ := argon2Params_of_fits hlanes hfits
    have h4' : p.parallelism * (4 * p.segmentLength) < 2 ^ 32 := h4.trans (by decide)
    rw [argon2Segment_eq hlanes h1, argon2Lane_eq hlanes h1 h3, argon2Blocks_eq hlanes h1 h3 h4']
    refine ⟨⟨h1, by omega, by omega, ?_⟩, hfits⟩
    rwa [Nat.mul_comm]

end Sizes

/-! ## The blocks -/

section Blocks

variable {p : Argon2Params} {sz : Argon2Sizes} {password salt : List Byte} {outLen : Nat} {mem : Argon2Mem}
  (hlanes : 1 ≤ p.parallelism) (hseg : 2 ≤ sz.segment) (hlane : sz.lane = 4 * sz.segment)
  (hlt : p.parallelism * sz.lane < 2 ^ 22)
include hlt

theorem argon2Offset_eq {l i : Nat} (hl : l < p.parallelism) (hi : i < sz.lane) :
    argon2Offset sz.lane l i = (l * sz.lane + i) * argon2BlockSize := by
  have hrow : (l + 1) * sz.lane ≤ p.parallelism * sz.lane := Nat.mul_le_mul_right _ hl
  rw [Nat.succ_mul] at hrow
  have hflat : u32 (l * sz.lane + i) = l * sz.lane + i := Nat.mod_eq_of_lt (by omega)
  rw [argon2Offset, hflat, argon2BlockSize]
  exact Nat.mod_eq_of_lt (by omega)

include hlanes hseg hlane

theorem lane_lt : sz.lane < 2 ^ 22 := by
  have hrow : 1 * sz.lane ≤ p.parallelism * sz.lane := Nat.mul_le_mul_right _ hlanes
  omega

theorem step_columns {s : FillStep} (hs : s ∈ fillSteps p sz) :
    s.cur sz = s.slice * sz.segment + s.index ∧ s.cur sz < sz.lane ∧ s.prev sz < sz.lane ∧ s.lane < p.parallelism ∧
      ∀ j, s.refLane p j < p.parallelism ∧ s.refIndex p sz j < sz.lane := by
  obtain ⟨-, hslice, hslane, hindex, -⟩ := mem_fillSteps.mp hs
  have hbound := lane_lt hlanes hseg hlane hlt
  have hnext : (s.slice + 1) * sz.segment ≤ 4 * sz.segment := Nat.mul_le_mul_right _ hslice
  rw [Nat.succ_mul] at hnext
  have hcur : s.cur sz = s.slice * sz.segment + s.index := Nat.mod_eq_of_lt (by omega)
  refine ⟨hcur, by omega, ?_, hslane, fun j => ⟨?_, Nat.mod_lt _ (by omega)⟩⟩
  · unfold FillStep.prev
    split_ifs <;> omega
  · unfold FillStep.refLane
    split_ifs
    · exact hslane
    · exact Nat.mod_lt _ hlanes

theorem mem_argon2FillTr {e : Argon2Event} (he : e ∈ (argon2FillTr password salt p outLen sz mem).events) :
    ∃ l < p.parallelism, ∃ i < sz.lane, e = block (argon2Offset sz.lane l i) := by
  simp only [argon2FillTr, events_bind, events_emit, events_pure, List.mem_append, List.not_mem_nil, or_false] at he
  rcases he with he | he | he | he
  · obtain ⟨l, hl, mem', he⟩ := mem_events_foldlM he
    simp only [argon2Lane0Tr, events_bind, events_emit, events_pure, List.mem_append, List.mem_singleton, List.not_mem_nil,
      or_false] at he
    rcases he with rfl | rfl
    · exact ⟨l, List.mem_range.mp hl, 0, by omega, rfl⟩
    · exact ⟨l, List.mem_range.mp hl, 1, by omega, rfl⟩
  · obtain ⟨s, hs, mem', he⟩ := mem_events_foldlM he
    obtain ⟨-, hcur, hprev, hslane, href⟩ := step_columns hlanes hseg hlane hlt hs
    simp only [FillStep.runTr, events_bind, events_emit, events_pure, List.mem_append, List.mem_singleton, List.not_mem_nil,
      or_false] at he
    rcases he with rfl | rfl | rfl
    · exact ⟨_, hslane, _, hprev, rfl⟩
    · exact ⟨_, (href _).1, _, (href _).2, rfl⟩
    · exact ⟨_, hslane, _, hcur, rfl⟩
  · exact ⟨0, hlanes, sz.lane - 1, by omega, List.mem_singleton.mp he⟩
  · obtain ⟨l, hl, b, he⟩ := mem_events_foldlM he
    have hl := List.mem_range'_1.mp hl
    exact ⟨l, by omega, sz.lane - 1, by omega, by simpa using he⟩

theorem block_mem_argon2FillTr (htime : 1 ≤ p.timeCost) {l i : Nat} (hl : l < p.parallelism) (hi : i < sz.lane) :
    block (argon2Offset sz.lane l i) ∈ (argon2FillTr password salt p outLen sz mem).events := by
  simp only [argon2FillTr, events_bind, List.mem_append]
  rcases Nat.lt_or_ge i 2 with hfirst | hlater
  · left
    apply mem_events_foldlM_of_forall (List.mem_range.mpr hl)
    intro mem'
    have hcol : i = 0 ∨ i = 1 := by omega
    rcases hcol with rfl | rfl
    · exact List.mem_cons_self
    · exact List.mem_cons_of_mem _ List.mem_cons_self
  · right
    left
    have hpos : 0 < sz.segment := by omega
    have hmod := Nat.mod_lt i hpos
    have hdiv := Nat.div_add_mod i sz.segment
    have hs : (⟨0, i / sz.segment, l, i % sz.segment⟩ : FillStep) ∈ fillSteps p sz := by
      rw [mem_fillSteps]
      refine ⟨htime, (Nat.div_lt_iff_lt_mul hpos).mpr (hi.trans_eq hlane), hl, hmod, fun _ h0 => ?_⟩
      have h0 : i / sz.segment = 0 := h0
      rw [h0, Nat.mul_zero, Nat.zero_add] at hdiv
      show 2 ≤ i % sz.segment
      omega
    have hcur := (step_columns hlanes hseg hlane hlt hs).1
    have hcur' : FillStep.cur sz ⟨0, i / sz.segment, l, i % sz.segment⟩ = i := by
      rw [hcur, Nat.mul_comm]
      exact hdiv
    apply mem_events_foldlM_of_forall hs
    intro mem'
    simp [FillStep.runTr, hcur']

/-- The bytes indexed are those of the array. -/
theorem indexed_iff (htime : 1 ≤ p.timeCost) (i : Nat) :
    (∃ off, block off ∈ (argon2FillTr password salt p outLen sz mem).events ∧ off ≤ i ∧ i < off + argon2BlockSize) ↔
      i < p.parallelism * sz.lane * argon2BlockSize := by
  have hbound := lane_lt hlanes hseg hlane hlt
  constructor
  · rintro ⟨off, hmem, hle, hless⟩
    obtain ⟨l, hl, c, hc, heq⟩ := mem_argon2FillTr hlanes hseg hlane hlt hmem
    have hoff : off = argon2Offset sz.lane l c := by injection heq
    rw [hoff, argon2Offset_eq hlt hl hc] at hless
    have hrow : (l + 1) * sz.lane ≤ p.parallelism * sz.lane := Nat.mul_le_mul_right _ hl
    rw [Nat.succ_mul] at hrow
    have hbytes : (l * sz.lane + c + 1) * argon2BlockSize ≤ p.parallelism * sz.lane * argon2BlockSize :=
      Nat.mul_le_mul_right _ (by omega)
    rw [Nat.succ_mul] at hbytes
    omega
  · intro hi
    have hpos : 0 < sz.lane := by omega
    have hblock : i / argon2BlockSize < p.parallelism * sz.lane := (Nat.div_lt_iff_lt_mul (by decide)).mpr hi
    have hl : i / argon2BlockSize / sz.lane < p.parallelism := (Nat.div_lt_iff_lt_mul hpos).mpr hblock
    have hc : i / argon2BlockSize % sz.lane < sz.lane := Nat.mod_lt _ hpos
    refine ⟨_, block_mem_argon2FillTr hlanes hseg hlane hlt htime hl hc, ?_⟩
    rw [argon2Offset_eq hlt hl hc, Nat.mul_comm (i / argon2BlockSize / sz.lane), Nat.div_add_mod]
    unfold argon2BlockSize
    omega

end Blocks

/-! ## When the sizes are right -/

/-- No product wraps, and the bytes indexed are those asked for. -/
structure SizingExact (events : List Argon2Event) : Prop where
  products : ∀ x y, product x y ∈ events → x * y < 2 ^ 32
  indexed : ∀ n, request n ∈ events → ∀ i, i < n ↔ ∃ off, block off ∈ events ∧ off ≤ i ∧ i < off + argon2BlockSize

def Argon2Event.Touches : Argon2Event → Prop
  | clear _ => True
  | block _ => True
  | _ => False

/-- No division by zero, and either exact sizes or a failure before memory is touched. -/
def SizingRight (run : Traced Argon2Event (Option (List Byte))) : Prop :=
  divide 0 ∉ run.events ∧ (SizingExact run.events ∨ run.val = none ∧ ∀ e ∈ run.events, ¬ e.Touches)

/-- The arguments of a call: numbers of 32 bits that are not zero. -/
structure Argon2Args extends Argon2Params where
  timeCost_pos : 1 ≤ timeCost
  timeCost_lt : timeCost < 2 ^ 32
  memoryKb_pos : 1 ≤ memoryKb
  memoryKb_lt : memoryKb < 2 ^ 32
  parallelism_pos : 1 ≤ parallelism
  parallelism_lt : parallelism < 2 ^ 32

theorem luks2U32_bounds (j key : List Byte) {dflt : Nat} (hpos : 1 ≤ dflt) (hlt : dflt < 2 ^ 32) :
    1 ≤ luks2U32 j key dflt ∧ luks2U32 j key dflt < 2 ^ 32 := by
  have hword : CStr.toU32 (jsonGetInt j key) < 2 ^ 32 := by
    unfold CStr.toU32
    omega
  unfold luks2U32
  dsimp only
  split_ifs with hzero
  · exact ⟨hpos, hlt⟩
  · exact ⟨Nat.one_le_iff_ne_zero.mpr hzero, hword⟩

/-- What `luks2_unlock` passes on from a text. -/
def luks2Argon2Args (j : List Byte) : Argon2Args where
  toArgon2Params := luks2Argon2Params j
  timeCost_pos := (luks2U32_bounds j _ (by decide) (by decide)).1
  timeCost_lt := (luks2U32_bounds j _ (by decide) (by decide)).2
  memoryKb_pos := (luks2U32_bounds j _ (by decide) (by decide)).1
  memoryKb_lt := (luks2U32_bounds j _ (by decide) (by decide)).2
  parallelism_pos := (luks2U32_bounds j _ (by decide) (by decide)).1
  parallelism_lt := (luks2U32_bounds j _ (by decide) (by decide)).2

section Right

variable {alloc : Nat → Bool} {password salt : List Byte} {p : Argon2Params} {outLen : Nat}

theorem events_argon2Tr (halloc : alloc (argon2AllocSize p) = true) :
    (argon2Tr alloc password salt p outLen).events =
      (argon2SizesTr p).events ++ [product (argon2Sizes p).blocks argon2BlockSize, request (argon2AllocSize p),
        product (argon2Sizes p).blocks argon2BlockSize, clear (argon2AllocSize p)] ++
      (argon2FillTr password salt p outLen (argon2Sizes p) (List.replicate (argon2AllocSize p / argon2BlockSize)
        (List.replicate argon2BlockSize 0))).events := by
  have hsize : u32 ((argon2Sizes p).blocks * argon2BlockSize) = argon2AllocSize p := rfl
  simp only [argon2Tr, mulTr, events_bind, events_emit, events_pure, val_bind, val_pure, argon2SizesTr_val, hsize, halloc,
    if_true, List.append_nil, List.append_assoc, List.cons_append, List.nil_append]

theorem events_argon2Tr_refused (halloc : alloc (argon2AllocSize p) = false) :
    (argon2Tr alloc password salt p outLen).events =
      (argon2SizesTr p).events ++ [product (argon2Sizes p).blocks argon2BlockSize, request (argon2AllocSize p)] := by
  have hsize : u32 ((argon2Sizes p).blocks * argon2BlockSize) = argon2AllocSize p := rfl
  simp only [argon2Tr, mulTr, events_bind, events_emit, events_pure, val_bind, val_pure, argon2SizesTr_val, hsize, halloc,
    Bool.false_eq_true, if_false, List.append_nil, List.cons_append, List.nil_append]

theorem mem_argon2SizesTr {e : Argon2Event} (he : e ∈ (argon2SizesTr p).events) :
    (∃ x y, e = product x y) ∨ e = divide (u32 (p.parallelism * argon2SyncPoints)) := by
  rw [events_argon2SizesTr] at he
  simp only [List.mem_append, List.mem_cons, List.mem_ite_nil_right, List.not_mem_nil, or_false] at he
  rcases he with (rfl | ⟨-, rfl⟩) | rfl | rfl | rfl | rfl
  · exact Or.inl ⟨_, _, rfl⟩
  · exact Or.inl ⟨_, _, rfl⟩
  · exact Or.inl ⟨_, _, rfl⟩
  · exact Or.inr rfl
  · exact Or.inl ⟨_, _, rfl⟩
  · exact Or.inl ⟨_, _, rfl⟩

/-- Every call begins with the size computation and the request. -/
theorem subset_argon2Tr : (argon2SizesTr p).events ++ [product (argon2Sizes p).blocks argon2BlockSize,
    request (argon2AllocSize p)] ⊆ (argon2Tr alloc password salt p outLen).events := by
  cases halloc : alloc (argon2AllocSize p) with
  | false =>
    rw [events_argon2Tr_refused halloc]
    exact List.Subset.refl _
  | true =>
    rw [events_argon2Tr halloc]
    intro e he
    simp only [List.mem_append, List.mem_cons, List.not_mem_nil, or_false] at he ⊢
    tauto

theorem divide_mem_argon2SizesTr :
    divide (u32 (p.parallelism * argon2SyncPoints)) ∈ (argon2SizesTr p).events := by
  rw [events_argon2SizesTr]
  simp

theorem argon2Tr_val_eq_none : (argon2Tr alloc password salt p outLen).val = none ↔ alloc (argon2AllocSize p) = false := by
  rw [argon2Tr_val]
  unfold argon2
  split_ifs with halloc
  · simp [halloc]
  · simpa using halloc

theorem sizingRight_of_refused (hdiv : u32 (p.parallelism * argon2SyncPoints) ≠ 0)
    (halloc : alloc (argon2AllocSize p) = false) : SizingRight (argon2Tr alloc password salt p outLen) := by
  have hevents : ∀ e ∈ (argon2Tr alloc password salt p outLen).events,
      e ≠ divide 0 ∧ ¬ e.Touches := by
    rw [events_argon2Tr_refused halloc]
    intro e he
    simp only [List.mem_append, List.mem_cons, List.not_mem_nil, or_false] at he
    rcases he with he | rfl | rfl
    · obtain ⟨x, y, rfl⟩ | rfl := mem_argon2SizesTr he
      · exact ⟨nofun, id⟩
      · exact ⟨fun h => hdiv (by injection h), id⟩
    · exact ⟨nofun, id⟩
    · exact ⟨nofun, id⟩
  exact ⟨fun h => (hevents _ h).1 rfl, Or.inr ⟨argon2Tr_val_eq_none.mpr halloc, fun e he => (hevents e he).2⟩⟩

theorem divisor_ne_zero (hlanes : 1 ≤ p.parallelism) (hfits : p.FitsWord) :
    u32 (p.parallelism * argon2SyncPoints) ≠ 0 := by
  obtain ⟨h8, -, -⟩ := argon2Params_of_fits hlanes hfits
  rw [argon2SyncPoints, u32, Nat.mod_eq_of_lt (by omega)]
  omega

/-- The blocks that a run indexes. -/
def argon2Indexed (password salt : List Byte) (p : Argon2Params) (outLen : Nat) : List Argon2Event :=
  (argon2FillTr password salt p outLen (argon2Sizes p) (List.replicate (argon2AllocSize p / argon2BlockSize)
    (List.replicate argon2BlockSize 0))).events

theorem mem_events_argon2Tr (halloc : alloc (argon2AllocSize p) = true) {e : Argon2Event} :
    e ∈ (argon2Tr alloc password salt p outLen).events ↔
      e ∈ (argon2SizesTr p).events ∨ e = product (argon2Sizes p).blocks argon2BlockSize ∨ e = request (argon2AllocSize p) ∨
        e = clear (argon2AllocSize p) ∨ e ∈ argon2Indexed password salt p outLen := by
  rw [events_argon2Tr halloc]
  simp only [argon2Indexed, List.mem_append, List.mem_cons, List.not_mem_nil, or_false]
  tauto

theorem block_mem_iff (halloc : alloc (argon2AllocSize p) = true) {off : Nat} :
    block off ∈ (argon2Tr alloc password salt p outLen).events ↔
      block off ∈ argon2Indexed password salt p outLen := by
  rw [mem_events_argon2Tr halloc]
  refine ⟨fun h => ?_, fun h => Or.inr (Or.inr (Or.inr (Or.inr h)))⟩
  rcases h with he | he | he | he | he
  · obtain ⟨x, y, h⟩ | h := mem_argon2SizesTr he
    · cases h
    · cases h
  · cases he
  · cases he
  · cases he
  · exact he

section Events

variable (halloc : alloc (argon2AllocSize p) = true)
  (hblock : ∀ e ∈ argon2Indexed password salt p outLen, ∃ off, e = block off)
include halloc hblock

theorem divisor_of_mem {d : Nat} (h : divide d ∈ (argon2Tr alloc password salt p outLen).events) :
    d = u32 (p.parallelism * argon2SyncPoints) := by
  rcases (mem_events_argon2Tr halloc).mp h with he | he | he | he | he
  · obtain ⟨x, y, h⟩ | h := mem_argon2SizesTr he
    · cases h
    · exact Argon2Event.divide.inj h
  · cases he
  · cases he
  · cases he
  · obtain ⟨off, h⟩ := hblock _ he
    cases h

theorem product_of_mem {x y : Nat} (h : product x y ∈ (argon2Tr alloc password salt p outLen).events) :
    product x y ∈ (argon2SizesTr p).events ∨ x * y = (argon2Sizes p).blocks * argon2BlockSize := by
  rcases (mem_events_argon2Tr halloc).mp h with he | he | he | he | he
  · exact Or.inl he
  · cases he
    exact Or.inr rfl
  · cases he
  · cases he
  · obtain ⟨off, h⟩ := hblock _ he
    cases h

theorem request_of_mem {n : Nat} (h : request n ∈ (argon2Tr alloc password salt p outLen).events) :
    n = argon2AllocSize p := by
  rcases (mem_events_argon2Tr halloc).mp h with he | he | he | he | he
  · obtain ⟨x, y, h⟩ | h := mem_argon2SizesTr he
    · cases h
    · cases h
  · cases he
  · exact Argon2Event.request.inj he
  · cases he
  · obtain ⟨off, h⟩ := hblock _ he
    cases h

end Events

theorem sizingRight_of_fits (htime : 1 ≤ p.timeCost) (hlanes : 1 ≤ p.parallelism) (hfits : p.FitsWord)
    (halloc : alloc (argon2AllocSize p) = true) : SizingRight (argon2Tr alloc password salt p outLen) := by
  obtain ⟨h8, h4, h22⟩ := argon2Params_of_fits hlanes hfits
  have hseg := argon2Segment_eq hlanes h8
  have hlane := argon2Lane_eq hlanes h8 h4
  have hblocks := argon2Blocks_eq hlanes h8 h4 (h22.trans (by decide))
  have hsize : argon2AllocSize p = p.parallelism * (argon2Sizes p).lane * argon2BlockSize := by
    rw [argon2AllocSize, hblocks, hlane]
    exact Nat.mod_eq_of_lt hfits
  have htwo : 2 ≤ (argon2Sizes p).segment := hseg ▸ two_le_segmentLength hlanes
  have hfour : (argon2Sizes p).lane = 4 * (argon2Sizes p).segment := by rw [hlane, hseg]
  have hcount : p.parallelism * (argon2Sizes p).lane < 2 ^ 22 := by rwa [hlane]
  have hproducts := (products_iff hlanes).mpr hfits
  have hblock : ∀ e ∈ argon2Indexed password salt p outLen, ∃ off, e = block off := by
    intro e he
    obtain ⟨l, -, i, -, rfl⟩ := mem_argon2FillTr hlanes htwo hfour hcount he
    exact ⟨_, rfl⟩
  refine ⟨fun h => divisor_ne_zero hlanes hfits (divisor_of_mem halloc hblock h).symm, Or.inl ⟨fun x y h => ?_, ?_⟩⟩
  · rcases product_of_mem halloc hblock h with h | h
    · exact hproducts.1 x y h
    · exact h ▸ hproducts.2
  · intro n h i
    have hindexed : (∃ off, block off ∈ argon2Indexed password salt p outLen ∧ off ≤ i ∧ i < off + argon2BlockSize) ↔
        i < p.parallelism * (argon2Sizes p).lane * argon2BlockSize :=
      indexed_iff hlanes htwo hfour hcount htime i
    rw [request_of_mem halloc hblock h, hsize, ← hindexed]
    simp only [block_mem_iff halloc]

/-- For every call with nonzero 32-bit numbers, exactly when the sizes are right. -/
theorem argon2_sizing_iff (alloc : Nat → Bool) (password salt : List Byte) (a : Argon2Args) (outLen : Nat) :
    SizingRight (argon2Tr alloc password salt a.toArgon2Params outLen) ↔
      a.FitsWord ∨ u32 (a.parallelism * argon2SyncPoints) ≠ 0 ∧ alloc (argon2AllocSize a.toArgon2Params) = false := by
  have hlanes := a.parallelism_pos
  constructor
  · rintro ⟨hdiv, hexact | ⟨hnone, -⟩⟩
    · left
      rw [← products_iff hlanes]
      refine ⟨fun x y h => hexact.products x y (subset_argon2Tr (List.mem_append_left _ h)), ?_⟩
      exact hexact.products _ _ (subset_argon2Tr (List.mem_append_right _ List.mem_cons_self))
    · right
      refine ⟨fun hzero => hdiv (subset_argon2Tr (List.mem_append_left _ ?_)), argon2Tr_val_eq_none.mp hnone⟩
      rw [← hzero]
      exact divide_mem_argon2SizesTr
  · intro h
    cases halloc : alloc (argon2AllocSize a.toArgon2Params) with
    | false =>
      refine sizingRight_of_refused ?_ halloc
      rcases h with hfits | ⟨hdiv, -⟩
      · exact divisor_ne_zero hlanes hfits
      · exact hdiv
    | true =>
      rw [halloc] at h
      exact sizingRight_of_fits a.timeCost_pos hlanes (h.resolve_right (by simp)) halloc

end Right

/-- A text that asks for `2 ^ 30` lanes. -/
def manyLanesJson : List Byte :=
  Luks2Format.argon2Json "argon2id" 1 65536 1073741824 []

/-- The division is one by zero. -/
theorem argon2_sizing_many_lanes :
    ¬ SizingRight (argon2Tr (fun _ => true) (CStr.lit "pw") (List.replicate 32 0)
      (luks2Argon2Args manyLanesJson).toArgon2Params 32) := by
  rintro ⟨hdiv, -⟩
  have hzero : u32 ((luks2Argon2Params manyLanesJson).parallelism * argon2SyncPoints) = 0 := by decide +kernel
  have hmem := divide_mem_argon2SizesTr (p := luks2Argon2Params manyLanesJson)
  rw [hzero] at hmem
  exact hdiv (subset_argon2Tr (List.mem_append_left _ hmem))

end SakuruBoot

import SakuruBoot.Crypto.Argon2Rfc

/-!
# The order of the Argon2 fill loop

The fill loop of `crypto/argon2.c` as one list of steps. Whatever the pseudo-random value of a step, it refers to a block
of the array that, in the first pass, has been filled, and that no step of the same slice is working on
(`fill_references`).
-/

namespace SakuruBoot
open CStr (Byte u32)
open Bytes

/-- A step of the fill loop. -/
structure FillStep where
  pass : Nat
  slice : Nat
  lane : Nat
  index : Nat
  deriving DecidableEq

namespace FillStep

variable (p : Argon2Params) (sz : Argon2Sizes) (s : FillStep)

/-- The column the step fills. -/
def cur : Nat := u32 (s.slice * sz.segment + s.index)

def prev : Nat := if s.cur sz = 0 then sz.lane - 1 else s.cur sz - 1

/-- `ref_lane` for a pseudo-random value. -/
def refLane (j : Nat) : Nat := if s.pass = 0 ∧ s.slice = 0 then s.lane else j / 2 ^ 16 % p.parallelism

/-- `ref_idx`. -/
def refIndex (j : Nat) : Nat := indexAlpha s.pass s.slice sz.lane s.index j (s.refLane p j == s.lane)

def run (mem : Argon2Mem) : Argon2Mem := argon2Step p sz s.pass s.slice s.lane mem s.index

end FillStep

/-- The steps in the order of the loops. -/
def fillSteps (p : Argon2Params) (sz : Argon2Sizes) : List FillStep :=
  (List.range p.timeCost).flatMap fun pass => (List.range argon2SyncPoints).flatMap fun slice =>
    (List.range p.parallelism).flatMap fun lane =>
      let start := if pass = 0 ∧ slice = 0 then 2 else 0
      (List.range' start (sz.segment - start)).map fun index =>
        { pass := pass, slice := slice, lane := lane, index := index }

theorem argon2Fill_eq (p : Argon2Params) (sz : Argon2Sizes) (mem : Argon2Mem) :
    argon2Fill p sz mem = (fillSteps p sz).foldl (fun mem s => s.run p sz mem) mem := by
  simp only [fillSteps, List.foldl_flatMap, List.foldl_map]
  rfl

/-! ## The order -/

/-- Earlier in the loops. -/
def FillStep.Before (s t : FillStep) : Prop :=
  s.pass < t.pass ∨ s.pass = t.pass ∧ (s.slice < t.slice ∨ s.slice = t.slice ∧
    (s.lane < t.lane ∨ s.lane = t.lane ∧ s.index < t.index))

theorem FillStep.Before.asymm {s t : FillStep} (h : s.Before t) : ¬ t.Before s := by
  unfold FillStep.Before at h ⊢
  omega

variable {p : Argon2Params} {sz : Argon2Sizes} {s t : FillStep}

theorem mem_fillSteps : s ∈ fillSteps p sz ↔ s.pass < p.timeCost ∧ s.slice < 4 ∧ s.lane < p.parallelism ∧
    s.index < sz.segment ∧ (s.pass = 0 → s.slice = 0 → 2 ≤ s.index) := by
  simp only [fillSteps, List.mem_flatMap, List.mem_range, List.mem_map, List.mem_range'_1, argon2SyncPoints]
  constructor
  · rintro ⟨pass, hpass, slice, hslice, lane, hlane, index, hindex, rfl⟩
    refine ⟨hpass, hslice, hlane, ?_, fun h0 h1 => ?_⟩
    · show index < sz.segment
      omega
    · rw [if_pos ⟨h0, h1⟩] at hindex
      exact hindex.1
  · rintro ⟨hpass, hslice, hlane, hindex, hfirst⟩
    refine ⟨s.pass, hpass, s.slice, hslice, s.lane, hlane, s.index, ?_, rfl⟩
    split_ifs with h0
    · have := hfirst h0.1 h0.2
      omega
    · omega

theorem pairwise_fillSteps (p : Argon2Params) (sz : Argon2Sizes) : (fillSteps p sz).Pairwise FillStep.Before := by
  have hrange : ∀ n, (List.range n).Pairwise (· < ·) := fun n => List.pairwise_lt_range
  rw [fillSteps, List.pairwise_flatMap]
  refine ⟨fun pass _ => ?_, (hrange _).imp ?_⟩
  · rw [List.pairwise_flatMap]
    refine ⟨fun slice _ => ?_, (hrange _).imp ?_⟩
    · rw [List.pairwise_flatMap]
      refine ⟨fun lane _ => ?_, (hrange _).imp ?_⟩
      · rw [List.pairwise_map]
        apply (List.pairwise_lt_range').imp
        intro a b hab
        exact Or.inr ⟨rfl, Or.inr ⟨rfl, Or.inr ⟨rfl, hab⟩⟩⟩
      · intro a b hab x hx y hy
        obtain ⟨i, -, rfl⟩ := List.mem_map.mp hx
        obtain ⟨j, -, rfl⟩ := List.mem_map.mp hy
        exact Or.inr ⟨rfl, Or.inr ⟨rfl, Or.inl hab⟩⟩
    · intro a b hab x hx y hy
      obtain ⟨lane, -, hx⟩ := List.mem_flatMap.mp hx
      obtain ⟨lane', -, hy⟩ := List.mem_flatMap.mp hy
      obtain ⟨i, -, rfl⟩ := List.mem_map.mp hx
      obtain ⟨j, -, rfl⟩ := List.mem_map.mp hy
      exact Or.inr ⟨rfl, Or.inl hab⟩
  · intro a b hab x hx y hy
    obtain ⟨slice, -, hx⟩ := List.mem_flatMap.mp hx
    obtain ⟨slice', -, hy⟩ := List.mem_flatMap.mp hy
    obtain ⟨lane, -, hx⟩ := List.mem_flatMap.mp hx
    obtain ⟨lane', -, hy⟩ := List.mem_flatMap.mp hy
    obtain ⟨i, -, rfl⟩ := List.mem_map.mp hx
    obtain ⟨j, -, rfl⟩ := List.mem_map.mp hy
    exact Or.inl hab

theorem mem_of_before {before after : List FillStep} (hsteps : fillSteps p sz = before ++ s :: after)
    (ht : t ∈ fillSteps p sz) (h : t.Before s) : t ∈ before := by
  have hsorted := pairwise_fillSteps p sz
  rw [hsteps] at ht hsorted
  rcases List.mem_append.mp ht with hmem | hmem
  · exact hmem
  · rcases List.mem_cons.mp hmem with rfl | hafter
    · exact absurd h h.asymm
    · have hlater := (List.pairwise_cons.mp (List.pairwise_append.mp hsorted).2.1).1 t hafter
      exact absurd h hlater.asymm

/-! ## References -/

/-- A block array below `2 ^ 22` blocks: no size wraps, and a segment has two blocks at least. -/
theorem argon2Sizes_of_blocks (hmem : p.memoryKb < 2 ^ 32) (hlanes : 1 ≤ p.parallelism)
    (hblocks : p.parallelism * (argon2Sizes p).lane < 2 ^ 22) :
    2 ≤ (argon2Sizes p).segment ∧ (argon2Sizes p).lane = 4 * (argon2Sizes p).segment := by
  unfold argon2Sizes at hblocks ⊢
  dsimp only at hblocks ⊢
  rw [argon2SyncPoints] at hblocks ⊢
  set m := if p.memoryKb < u32 (8 * p.parallelism) then u32 (8 * p.parallelism) else p.memoryKb with hm
  have hm8 : u32 (8 * p.parallelism) ≤ m ∧ m < 2 ^ 32 := by
    have hu : u32 (8 * p.parallelism) < 2 ^ 32 := Nat.mod_lt _ (by decide)
    rw [hm]
    split_ifs <;> omega
  set q := m / u32 (p.parallelism * 4) with hq
  clear_value q
  have hseg : 1 ≤ (if q = 0 then 1 else q) ∧ (if q = 0 then 1 else q) < 2 ^ 30 := by
    have hqlt : q < 2 ^ 30 := by
      rcases Nat.eq_zero_or_pos (u32 (p.parallelism * 4)) with h0 | hpos
      · rw [hq, h0, Nat.div_zero]
        decide
      · have hfour : 4 ≤ u32 (p.parallelism * 4) := by
          unfold u32 at hpos ⊢
          omega
        rw [hq, Nat.div_lt_iff_lt_mul hpos]
        omega
    split_ifs <;> omega
  have hlane : u32 ((if q = 0 then 1 else q) * 4) = 4 * if q = 0 then 1 else q := by
    rw [u32, Nat.mod_eq_of_lt (by omega), Nat.mul_comm]
  -- so there are few lanes, and the other sizes do not wrap either
  have hfew : p.parallelism * 4 < 2 ^ 22 := by
    rw [hlane] at hblocks
    exact lt_of_le_of_lt (Nat.mul_le_mul_left _ (by omega)) hblocks
  have hq2 : 2 ≤ q := by
    have hd : u32 (p.parallelism * 4) = p.parallelism * 4 := Nat.mod_eq_of_lt (by omega)
    have he : u32 (8 * p.parallelism) = 8 * p.parallelism := Nat.mod_eq_of_lt (by omega)
    rw [hq, hd, Nat.le_div_iff_mul_le (by omega)]
    omega
  refine ⟨?_, hlane⟩
  rw [if_neg (by omega)]
  exact hq2

/-- The reference is one of the columns that count up from the oldest. -/
theorem indexAlpha_reference {seg pass slice index j : Nat} {same : Bool} (hslice : slice < 4) (hindex : index < seg)
    (hseg : 2 ≤ seg ∧ 4 * seg < 2 ^ 22) (hfirst : pass = 0 → slice = 0 → 2 ≤ index ∧ same = true) (hj : j < 2 ^ 32) :
    ∃ k < referenceCount seg pass slice index same,
      indexAlpha pass slice (4 * seg) index j same = (oldest seg pass slice + k) % (4 * seg) := by
  obtain ⟨-, hpos, -⟩ := refArea_eq same hslice hindex hseg hfirst
  rw [indexAlpha_rfc hslice hindex hseg hfirst hj, references_eq same hslice hindex, Rfc9106.reference, List.length_map,
    List.length_range]
  refine ⟨referenceCount seg pass slice index same - 1 -
      referenceCount seg pass slice index same * (j * j / 2 ^ 32) / 2 ^ 32,
    by omega, ?_⟩
  exact getD_map_range _ (by omega) 0

/-- What holds of the reference of a step behind the steps `before`. -/
structure GoodReference (p : Argon2Params) (sz : Argon2Sizes) (before : List FillStep) (s : FillStep) (j : Nat) : Prop where
  lane_lt : s.refLane p j < p.parallelism
  index_lt : s.refIndex p sz j < sz.lane
  /-- In the first pass the block is one of the two that every lane begins with, or has been filled by a step. -/
  filled : s.pass = 0 → s.refIndex p sz j < 2 ∨
    ∃ t ∈ before, t.lane = s.refLane p j ∧ t.cur sz = s.refIndex p sz j
  not_cur : s.refLane p j = s.lane → s.refIndex p sz j ≠ s.cur sz
  not_prev : s.refLane p j = s.lane → s.refIndex p sz j ≠ s.prev sz
  not_slice : s.refLane p j ≠ s.lane →
    ¬ (s.slice * sz.segment ≤ s.refIndex p sz j ∧ s.refIndex p sz j < (s.slice + 1) * sz.segment)

/-- The columns a reference may lie in, and those it may not. -/
theorem reference_spec {seg pass slice index k : Nat} {same : Bool} (hslice : slice < 4) (hindex : index < seg)
    (hseg : 2 ≤ seg) (hfirst : pass = 0 → slice = 0 → 2 ≤ index ∧ same = true)
    (hk : k < referenceCount seg pass slice index same) :
    (pass = 0 → (oldest seg pass slice + k) % (4 * seg) < slice * seg + if same then index else 0) ∧
    (same = true → (oldest seg pass slice + k) % (4 * seg) ≠ slice * seg + index ∧
      (oldest seg pass slice + k) % (4 * seg) ≠
        if slice * seg + index = 0 then 4 * seg - 1 else slice * seg + index - 1) ∧
    (same = false → ¬ (slice * seg ≤ (oldest seg pass slice + k) % (4 * seg) ∧
      (oldest seg pass slice + k) % (4 * seg) < (slice + 1) * seg)) := by
  have hle : (slice + 1) * seg ≤ 4 * seg := Nat.mul_le_mul_right _ hslice
  have hlater : slice ≠ 0 → 1 * seg ≤ slice * seg := fun h => Nat.mul_le_mul_right _ (Nat.one_le_iff_ne_zero.mpr h)
  unfold referenceCount at hk
  unfold oldest
  rw [Nat.succ_mul] at hle ⊢
  generalize slice * seg = done at *
  by_cases hpass : pass = 0
  · -- the columns from the first on
    rw [if_pos hpass] at hk ⊢
    cases same with
    | true =>
      simp only [if_true, Bool.true_or] at hk ⊢
      rw [Nat.zero_add, Nat.mod_eq_of_lt (by omega)]
      split_ifs <;> simp <;> omega
    | false =>
      simp only [Bool.false_eq_true, if_false, Nat.add_zero, Bool.false_or] at hk ⊢
      rw [Nat.zero_add, Nat.mod_eq_of_lt (by omega)]
      refine ⟨fun _ => by omega, fun h => h.elim, fun _ => by omega⟩
  · -- the columns behind the current slice, and around the end of the lane
    rw [if_neg hpass] at hk ⊢
    have hk' : k < 4 * seg := by
      split_ifs at hk <;> omega
    have hcase : (done + seg + k) % (4 * seg) = done + seg + k ∧ done + seg + k < 4 * seg ∨
        (done + seg + k) % (4 * seg) + 4 * seg = done + seg + k := by
      rcases Nat.lt_or_ge (done + seg + k) (4 * seg) with hlt | hge
      · exact Or.inl ⟨Nat.mod_eq_of_lt hlt, hlt⟩
      · right
        rw [Nat.mod_eq_sub_mod hge, Nat.mod_eq_of_lt (by omega)]
        omega
    generalize (done + seg + k) % (4 * seg) = col at *
    cases same with
    | true =>
      simp only [if_true, Bool.true_or] at hk ⊢
      split_ifs <;> simp <;> omega
    | false =>
      simp only [Bool.false_eq_true, if_false, Nat.add_zero, Bool.false_or] at hk ⊢
      refine ⟨fun h => absurd h hpass, fun h => h.elim, fun _ => by omega⟩

/-- The step of the first pass that fills a column, earlier than a step with a later column of the lane, or a later
segment. -/
theorem exists_before {seg r : Nat} (hsz : sz.segment = seg) (hs : s ∈ fillSteps p sz) (hpass : s.pass = 0) (htwo : 2 ≤ r)
    (hr : r < 4 * seg) (hlt : r < 2 ^ 32) {lane : Nat} (hlane : lane < p.parallelism)
    (hcol : r < s.slice * seg ∨ lane = s.lane ∧ r < s.slice * seg + s.index) :
    ∃ t ∈ fillSteps p sz, t.Before s ∧ t.lane = lane ∧ t.cur sz = r := by
  obtain ⟨htime, hslice, -, hindex, -⟩ := mem_fillSteps.mp hs
  rw [hsz] at hindex
  have hpos : 0 < seg := by omega
  have hdiv := Nat.div_add_mod r seg
  have hmod := Nat.mod_lt r hpos
  have hquot : r / seg < 4 := (Nat.div_lt_iff_lt_mul hpos).mpr hr
  refine ⟨{ pass := 0, slice := r / seg, lane := lane, index := r % seg }, ?_, ?_, rfl, ?_⟩
  · rw [mem_fillSteps]
    refine ⟨Nat.lt_of_le_of_lt (Nat.zero_le _) htime, hquot, hlane, hmod.trans_eq hsz.symm, fun _ h0 => ?_⟩
    have h0 : r / seg = 0 := h0
    rw [h0, Nat.mul_zero, Nat.zero_add] at hdiv
    show 2 ≤ r % seg
    omega
  · right
    refine ⟨hpass.symm, ?_⟩
    show r / seg < s.slice ∨ r / seg = s.slice ∧ (lane < s.lane ∨ lane = s.lane ∧ r % seg < s.index)
    rcases Nat.lt_or_ge r (s.slice * seg) with hless | hge
    · exact Or.inl ((Nat.div_lt_iff_lt_mul hpos).mpr hless)
    · obtain ⟨hsame, hnear⟩ := hcol.resolve_left (Nat.not_lt.mpr hge)
      have hq : r / seg = s.slice := by
        rw [Nat.div_eq_iff hpos]
        omega
      rw [hq, Nat.mul_comm] at hdiv
      exact Or.inr ⟨hq, Or.inr ⟨hsame, by omega⟩⟩
  · show u32 (r / seg * sz.segment + r % seg) = r
    rw [hsz, Nat.mul_comm, hdiv]
    exact Nat.mod_eq_of_lt hlt

/-- In every step of the fill loop, for every pseudo-random value. -/
theorem fill_references (hmem : p.memoryKb < 2 ^ 32) (hlanes : 1 ≤ p.parallelism)
    (hblocks : p.parallelism * (argon2Sizes p).lane < 2 ^ 22) {before after : List FillStep} {s : FillStep}
    (hsteps : fillSteps p (argon2Sizes p) = before ++ s :: after) {j : Nat} (hj : j < 2 ^ 32) :
    GoodReference p (argon2Sizes p) before s j := by
  obtain ⟨htwo, hlane⟩ := argon2Sizes_of_blocks hmem hlanes hblocks
  have hs : s ∈ fillSteps p (argon2Sizes p) := by
    rw [hsteps]
    exact List.mem_append_right _ List.mem_cons_self
  obtain ⟨-, hslice, hslane, hindex, hfirst⟩ := mem_fillSteps.mp hs
  have hrow : 1 * (argon2Sizes p).lane ≤ p.parallelism * (argon2Sizes p).lane := Nat.mul_le_mul_right _ hlanes
  have hnext : (s.slice + 1) * (argon2Sizes p).segment ≤ 4 * (argon2Sizes p).segment := Nat.mul_le_mul_right _ hslice
  rw [Nat.succ_mul] at hnext
  have hcur : s.cur (argon2Sizes p) = s.slice * (argon2Sizes p).segment + s.index := Nat.mod_eq_of_lt (by omega)
  have hsame : s.pass = 0 → s.slice = 0 → 2 ≤ s.index ∧ (s.refLane p j == s.lane) = true := by
    intro hpass hslice0
    rw [FillStep.refLane, if_pos ⟨hpass, hslice0⟩]
    exact ⟨hfirst hpass hslice0, beq_self_eq_true _⟩
  obtain ⟨k, hk, href⟩ := indexAlpha_reference hslice hindex ⟨htwo, by omega⟩ hsame hj
  obtain ⟨hfilled, hown, hother⟩ := reference_spec hslice hindex htwo hsame hk
  rw [← href, ← hlane] at hfilled hown hother
  have hreflane : s.refLane p j < p.parallelism := by
    rw [FillStep.refLane]
    split_ifs
    · exact hslane
    · exact Nat.mod_lt _ hlanes
  have hindexlt : s.refIndex p (argon2Sizes p) j < (argon2Sizes p).lane := Nat.mod_lt _ (by omega)
  refine ⟨hreflane, hindexlt, ?_, ?_, ?_, ?_⟩
  · intro hpass
    rcases Nat.lt_or_ge (s.refIndex p (argon2Sizes p) j) 2 with hless | hge
    · exact Or.inl hless
    · right
      have hcol : s.refIndex p (argon2Sizes p) j < s.slice * (argon2Sizes p).segment ∨ s.refLane p j = s.lane ∧
          s.refIndex p (argon2Sizes p) j < s.slice * (argon2Sizes p).segment + s.index := by
        have hbound := hfilled hpass
        split_ifs at hbound with heq
        · exact Or.inr ⟨beq_iff_eq.mp heq, hbound⟩
        · exact Or.inl hbound
      obtain ⟨t, ht, hbefore, htlane, htcur⟩ := exists_before rfl hs hpass hge (by omega) (by omega) hreflane hcol
      exact ⟨t, mem_of_before hsteps ht hbefore, htlane, htcur⟩
  · intro heq
    rw [hcur]
    exact (hown (beq_iff_eq.mpr heq)).1
  · intro heq
    rw [FillStep.prev, hcur]
    exact (hown (beq_iff_eq.mpr heq)).2
  · intro hne
    exact hother (beq_eq_false_iff_ne.mpr hne)

/-- Two lanes of eight blocks, one pass. -/
def smallFill : Argon2Params := { timeCost := 1, memoryKb := 16, parallelism := 2, type := .id }

theorem smallFill_references :
    GoodReference smallFill (argon2Sizes smallFill) [⟨0, 1, 0, 0⟩, ⟨0, 1, 0, 1⟩] ⟨0, 1, 1, 0⟩ 0xFFFFFFFF :=
  @fill_references smallFill (by decide) (by decide) (by decide) [⟨0, 1, 0, 0⟩, ⟨0, 1, 0, 1⟩]
    ((fillSteps smallFill (argon2Sizes smallFill)).drop 3) ⟨0, 1, 1, 0⟩ (by decide) 0xFFFFFFFF (by decide)

end SakuruBoot

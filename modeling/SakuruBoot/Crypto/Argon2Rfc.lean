import SakuruBoot.Crypto.Argon2
import SakuruBoot.Crypto.Rfc9106

/-!
# `argon2` and RFC 9106

`argon2` follows the algorithm of the RFC with four changes (`bootVariant`, in the terms of the RFC): the password
length goes into the first digest twice, the permutation works on other words, the values that do not depend on the
memory come from `H'` of the position, and the lane from the upper half of `J_1`. With them it is the RFC's algorithm
(`argon2_tag`): sizes and offsets do not wrap where the blocks fit a 32-bit size, and `index_alpha` counts through the
set of references.
-/

namespace SakuruBoot
open CStr (Byte u32)
open Bytes

def Argon2Type.kind : Argon2Type → Rfc9106.Kind
  | .d => .d
  | .i => .i
  | .id => .id

/-- The arguments of a call, with no secret and no associated data. -/
def argon2Inputs (password salt : List Byte) (p : Argon2Params) (outLen : Nat) : Rfc9106.Inputs where
  password := password
  salt := salt
  parallelism := p.parallelism
  tagLength := outLen
  memory := p.memoryKb
  passes := p.timeCost
  kind := p.type.kind

/-- The words `GB` is applied to: four in a row of sixteen that begins at an even word, then four that are eight apart. -/
def bootQuads : List (Nat × Nat × Nat × Nat) :=
  (List.range 8).flatMap (fun i => [(i * 2, i * 2 + 1, i * 2 + 2, i * 2 + 3), (i * 2 + 4, i * 2 + 5, i * 2 + 6, i * 2 + 7),
    (i * 2 + 8, i * 2 + 9, i * 2 + 10, i * 2 + 11), (i * 2 + 12, i * 2 + 13, i * 2 + 14, i * 2 + 15)]) ++
  (List.range 8).flatMap fun i => [(i, i + 8, i + 16, i + 24), (i + 32, i + 40, i + 48, i + 56),
    (i + 64, i + 72, i + 80, i + 88), (i + 96, i + 104, i + 112, i + 120)]

/-- The algorithm of the RFC with the four changes. -/
def bootVariant : Rfc9106.Variant where
  first x := [x.parallelism, x.tagLength, x.memory, x.passes, 0x13, x.kind.code, x.password.length].flatMap (le 4) ++
    [x.password, x.salt, x.secret, x.assoc].flatMap fun s => le 4 s.length ++ s
  permute v := bootQuads.foldl Rfc9106.mix v
  address x pass lane slice index :=
    leVal (Bytes.slice (Rfc9106.hashVar 1024
      ([pass, lane, slice, x.blocks, x.passes, x.kind.code, index / 128 + 1].flatMap (le 4))) (8 * (index % 128)) 8)
  laneOf j := j % 2 ^ 32 / 2 ^ 16

/-- The first digest is of another message than the RFC's, whatever is hashed. -/
theorem length_first (x : Rfc9106.Inputs) :
    (bootVariant.first x).length = (Rfc9106.standard.first x).length + 4 := by
  unfold bootVariant Rfc9106.standard
  simp only [List.length_append, List.length_flatMap, List.map_cons, List.map_nil, List.sum_cons, List.sum_nil, length_le]
  omega

/-! ## Hashing -/

theorem length_compress (h m : List UInt64) (t : Nat) (last : Bool) : (Rfc7693.compress h m t last).length = 8 := by
  rw [Rfc7693.compress, List.length_map, List.length_range]

theorem length_hash {nn : Nat} (hnn : nn ≤ 64) (msg : List Byte) : (Rfc9106.hash nn msg).length = nn := by
  have hbytes : ∀ ws : List UInt64, (ws.flatMap fun w => le 8 w.toNat).length = 8 * ws.length := by
    intro ws
    simp [List.length_flatMap, Nat.mul_comm]
  unfold Rfc9106.hash Rfc7693.blake2b
  rw [List.length_take_of_le]
  rw [hbytes, length_compress]
  omega

theorem hashChain_succ (v : List Byte) (i : Nat) :
    Rfc9106.hashChain (Rfc9106.hash 64 v) i = Rfc9106.hashChain v (i + 1) := by
  induction i with
  | zero => rfl
  | succ i ih => exact congrArg (Rfc9106.hash 64) ih

theorem hPrimeLoop_rfc (fuel : Nat) (v : List Byte) (remaining : Nat) (hfuel : remaining ≤ 64 + 32 * fuel) :
    hPrimeLoop fuel v remaining =
      (List.range ((remaining + 31) / 32 - 2)).flatMap (fun i => (Rfc9106.hashChain v (i + 1)).take 32) ++
        Rfc9106.hash (remaining - 32 * ((remaining + 31) / 32 - 2))
          (Rfc9106.hashChain v ((remaining + 31) / 32 - 2)) := by
  have hlast : ∀ (v : List Byte) (n : Nat), n ≤ 64 → blake2b v [] n =
      (List.range ((n + 31) / 32 - 2)).flatMap (fun i => (Rfc9106.hashChain v (i + 1)).take 32) ++
        Rfc9106.hash (n - 32 * ((n + 31) / 32 - 2)) (Rfc9106.hashChain v ((n + 31) / 32 - 2)) := by
    intro v n hn
    have hzero : (n + 31) / 32 - 2 = 0 := by omega
    rw [hzero, List.range_zero, List.flatMap_nil, List.nil_append, Nat.mul_zero, Nat.sub_zero]
    exact blake2b_rfc n [] v
  induction fuel generalizing v remaining with
  | zero => exact hlast v remaining (by omega)
  | succ fuel ih =>
    unfold hPrimeLoop
    split_ifs with hmore
    · have hstep : (remaining + 31) / 32 - 2 = ((remaining - 32 + 31) / 32 - 2) + 1 := by omega
      have hrest : remaining - 32 * (((remaining - 32 + 31) / 32 - 2) + 1) =
          remaining - 32 - 32 * ((remaining - 32 + 31) / 32 - 2) := by omega
      have hhash : blake2b v [] 64 = Rfc9106.hash 64 v := blake2b_rfc 64 [] v
      dsimp only
      rw [hhash, ih _ (remaining - 32) (by omega), hstep, hrest, List.range_succ_eq_map, List.flatMap_cons,
        List.flatMap_map, List.append_assoc]
      simp only [hashChain_succ]
      rfl
    · exact hlast v remaining (by omega)

theorem hPrime_first (input : List Byte) (outLen n : Nat) :
    blake2bFinal (blake2bUpdate (blake2bUpdate (blake2bInit n []) (le 4 outLen)) input) =
      Rfc9106.hash n (le 4 outLen ++ input) := by
  have h := blake2bFinal_rfc n [] [le 4 outLen, input]
  rw [List.flatten_cons, List.flatten_cons, List.flatten_nil, List.append_nil] at h
  exact h

theorem hPrime_rfc (input : List Byte) (outLen : Nat) : hPrime input outLen = Rfc9106.hashVar outLen input := by
  unfold hPrime Rfc9106.hashVar
  simp only [hPrime_first]
  split_ifs with hshort
  · rfl
  · have hr : (outLen + 31) / 32 - 2 = ((outLen - 32 + 31) / 32 - 2) + 1 := by omega
    have hrest : outLen - 32 * (((outLen - 32 + 31) / 32 - 2) + 1) =
        outLen - 32 - 32 * ((outLen - 32 + 31) / 32 - 2) := by omega
    rw [hPrimeLoop_rfc outLen _ (outLen - 32) (by omega), hr, hrest, List.range_succ_eq_map, List.flatMap_cons,
      List.flatMap_map, Nat.add_sub_cancel, List.append_assoc]
    rfl

theorem length_hPrimeLoop (fuel : Nat) (v : List Byte) {remaining : Nat} (h : remaining ≤ 64 + 32 * fuel) :
    (hPrimeLoop fuel v remaining).length = remaining := by
  have hlast : ∀ (v : List Byte) (n : Nat), n ≤ 64 → (blake2b v [] n).length = n := by
    intro v n hn
    rw [blake2b_rfc]
    exact length_hash hn v
  induction fuel generalizing v remaining with
  | zero => exact hlast v remaining (by omega)
  | succ fuel ih =>
    unfold hPrimeLoop
    split_ifs with hmore
    · rw [List.length_append, ih _ (by omega), List.length_take_of_le (by rw [hlast v 64 (le_refl 64)]; omega)]
      omega
    · exact hlast v remaining (by omega)

/-! ## Compression -/

theorem fBlaMka_rfc (x y : UInt64) : fBlaMka x y = Rfc9106.mulAdd x y := by
  have hshift : ∀ w : UInt64, w <<< 1 = 2 * w := by
    intro w
    apply UInt64.toNat_inj.mp
    rw [UInt64.toNat_shiftLeft, UInt64.toNat_mul, Nat.shiftLeft_eq, Nat.mul_comm]
    rfl
  unfold fBlaMka Rfc9106.mulAdd
  simp only [hshift]
  rw [UInt64.mul_assoc]

theorem gBlamka_rfc (v : List UInt64) (a b c d : Nat) : gBlamka v a b c d = Rfc9106.mix v (a, b, c, d) := by
  unfold gBlamka Rfc9106.mix
  simp only [fBlaMka_rfc]
  rfl

theorem permuteBlock_rfc (v : List UInt64) : permuteBlock v = bootVariant.permute v := by
  have hboot : bootVariant.permute v = bootQuads.foldl Rfc9106.mix v := by rw [bootVariant]
  rw [hboot]
  unfold permuteBlock bootQuads
  rw [List.foldl_append, List.foldl_flatMap, List.foldl_flatMap]
  simp only [gBlamka_rfc, List.foldl_cons, List.foldl_nil]

theorem gbBlock_rfc (x y : List Byte) : gbBlock x y = Rfc9106.compress bootVariant.permute x y := by
  have hwords : (List.range 128).map (fun i => le64 x i ^^^ le64 y i) =
      List.zipWith (· ^^^ ·) (Rfc9106.words x) (Rfc9106.words y) := by
    rw [Rfc9106.words, Rfc9106.words, List.zipWith_map, List.zipWith_self]
    rfl
  unfold gbBlock Rfc9106.compress
  rw [hwords]
  simp only [permuteBlock_rfc]
  rfl

/-! ## Sizes -/

section Sizes

variable {password salt : List Byte} {p : Argon2Params} {outLen : Nat}

/-- The parameters `argon2` takes as they are: at least eight blocks for each lane, and all of them within a 32-bit
size. -/
structure Argon2Params.Fits (p : Argon2Params) : Prop where
  lanes : 1 ≤ p.parallelism
  memory : 8 * p.parallelism ≤ p.memoryKb
  size : 4 * p.parallelism * (p.memoryKb / (4 * p.parallelism)) * 1024 < 2 ^ 32

/-- Blocks in a quarter of a lane. -/
def Argon2Params.quarter (p : Argon2Params) : Nat := p.memoryKb / (4 * p.parallelism)

theorem two_le_quarter (h : p.Fits) : 2 ≤ p.quarter := by
  have hmem := h.memory
  have hlanes := h.lanes
  rw [Argon2Params.quarter, Nat.le_div_iff_mul_le (by omega)]
  omega

theorem blocks_eq : (argon2Inputs password salt p outLen).blocks = 4 * p.parallelism * p.quarter := rfl

theorem columns_eq (h : p.Fits) : (argon2Inputs password salt p outLen).columns = 4 * p.quarter := by
  show 4 * p.parallelism * p.quarter / p.parallelism = 4 * p.quarter
  have hlanes := h.lanes
  rw [Nat.mul_comm 4 p.parallelism, Nat.mul_assoc, Nat.mul_div_cancel_left _ (by omega)]

theorem segment_eq (h : p.Fits) : (argon2Inputs password salt p outLen).segment = p.quarter := by
  rw [Rfc9106.Inputs.segment, columns_eq h, Nat.mul_div_cancel_left _ (by omega)]

theorem blocks_lt (h : p.Fits) : p.parallelism * (4 * p.quarter) < 2 ^ 22 := by
  have hsize := h.size
  have hcomm : 4 * p.parallelism * (p.memoryKb / (4 * p.parallelism)) = p.parallelism * (4 * p.quarter) := by
    rw [Argon2Params.quarter]
    ring
  rw [hcomm] at hsize
  omega

theorem argon2Sizes_eq (h : p.Fits) : argon2Sizes p =
    { segment := p.quarter, lane := 4 * p.quarter, blocks := p.parallelism * (4 * p.quarter) } := by
  have hlt := blocks_lt h
  have hquarter := two_le_quarter h
  have hmem := h.memory
  have hlanes := h.lanes
  have hp : p.parallelism * 8 ≤ p.parallelism * (4 * p.quarter) := Nat.mul_le_mul_left _ (by omega)
  have hlane : 1 * (4 * p.quarter) ≤ p.parallelism * (4 * p.quarter) := Nat.mul_le_mul_right _ hlanes
  have height : u32 (8 * p.parallelism) = 8 * p.parallelism := Nat.mod_eq_of_lt (by omega)
  have hfour : u32 (p.parallelism * argon2SyncPoints) = 4 * p.parallelism := by
    rw [argon2SyncPoints, u32, Nat.mod_eq_of_lt (by omega), Nat.mul_comm]
  have hseg : u32 (p.quarter * argon2SyncPoints) = 4 * p.quarter := by
    rw [argon2SyncPoints, u32, Nat.mod_eq_of_lt (by omega), Nat.mul_comm]
  have hblocks : u32 (4 * p.quarter * p.parallelism) = p.parallelism * (4 * p.quarter) := by
    rw [Nat.mul_comm, u32, Nat.mod_eq_of_lt (by omega)]
  have henough : (if p.memoryKb < 8 * p.parallelism then 8 * p.parallelism else p.memoryKb) = p.memoryKb :=
    if_neg (by omega)
  have hdiv : p.memoryKb / (4 * p.parallelism) = p.quarter := rfl
  have hpos : (if p.quarter = 0 then 1 else p.quarter) = p.quarter := if_neg (by omega)
  unfold argon2Sizes
  simp only [height, hfour, henough, hdiv, hpos, hseg, hblocks]

theorem argon2Index_eq (h : p.Fits) {lane i : Nat} (hlane : lane < p.parallelism) (hi : i < 4 * p.quarter) :
    argon2Index (4 * p.quarter) lane i = lane * (4 * p.quarter) + i := by
  have hlt := blocks_lt h
  have hrow : (lane + 1) * (4 * p.quarter) ≤ p.parallelism * (4 * p.quarter) := Nat.mul_le_mul_right _ hlane
  rw [Nat.succ_mul] at hrow
  have hflat : u32 (lane * (4 * p.quarter) + i) = lane * (4 * p.quarter) + i := Nat.mod_eq_of_lt (by omega)
  have hbytes : u32 ((lane * (4 * p.quarter) + i) * 1024) = (lane * (4 * p.quarter) + i) * 1024 :=
    Nat.mod_eq_of_lt (by omega)
  rw [argon2Index, argon2BlockSize, hflat, hbytes, Nat.mul_div_cancel _ (by omega)]

end Sizes

/-! ## References -/

/-- How many blocks may be referred to. -/
def referenceCount (seg pass slice index : Nat) (same : Bool) : Nat :=
  (if pass = 0 then slice * seg else 3 * seg) + (if same then index else 0) - if same || index = 0 then 1 else 0

/-- The column of the oldest of them. -/
def oldest (seg pass slice : Nat) : Nat := if pass = 0 then 0 else (slice + 1) * seg

theorem dropLast_map_range (f : Nat → Nat) (n : Nat) : ((List.range n).map f).dropLast = (List.range (n - 1)).map f := by
  rw [← List.map_dropLast]
  cases n with
  | zero => rfl
  | succ n => rw [List.range_succ, List.dropLast_concat, Nat.add_sub_cancel]

theorem finished_eq {seg pass slice : Nat} (hslice : slice < 4) : Rfc9106.finished seg pass slice =
    (List.range (if pass = 0 then slice * seg else 3 * seg)).map fun k => (oldest seg pass slice + k) % (4 * seg) := by
  unfold Rfc9106.finished oldest
  split_ifs with hpass
  · symm
    rw [List.map_congr_left (g := id), List.map_id]
    intro k hk
    have hk' := List.mem_range.mp hk
    have hle : slice * seg ≤ 4 * seg := Nat.mul_le_mul_right _ hslice.le
    rw [Nat.zero_add, Nat.mod_eq_of_lt (by omega)]
    rfl
  · rfl

theorem references_eq {seg pass slice index : Nat} (same : Bool) (hslice : slice < 4) (hindex : index < seg) :
    Rfc9106.references seg pass slice index same =
      (List.range (referenceCount seg pass slice index same)).map fun k => (oldest seg pass slice + k) % (4 * seg) := by
  unfold Rfc9106.references referenceCount
  rw [finished_eq hslice]
  cases same with
  | false =>
    simp only [Bool.false_eq_true, if_false, Bool.false_or, decide_eq_true_eq, Nat.add_zero]
    split_ifs
    · exact dropLast_map_range _ _
    · exact dropLast_map_range _ _
    · rfl
    · rfl
  | true =>
    -- the blocks of the segment itself follow on those finished
    have hcurrent : List.range' (slice * seg) index = (List.range index).map fun k =>
        (oldest seg pass slice + ((if pass = 0 then slice * seg else 3 * seg) + k)) % (4 * seg) := by
      rw [List.range'_eq_map_range]
      apply List.map_congr_left
      intro k hk
      have hk' := List.mem_range.mp hk
      have hle : (slice + 1) * seg ≤ 4 * seg := Nat.mul_le_mul_right _ hslice
      rw [Nat.succ_mul] at hle
      unfold oldest
      split_ifs
      · rw [Nat.zero_add, Nat.mod_eq_of_lt (by omega)]
      · have haround : (slice + 1) * seg + (3 * seg + k) = slice * seg + k + 4 * seg := by ring
        rw [haround, Nat.add_mod_right, Nat.mod_eq_of_lt (by omega)]
    simp only [if_true, Bool.true_or]
    rw [hcurrent, ← dropLast_map_range, List.range_add, List.map_append, List.map_map]
    rfl

/-- The area `index_alpha` computes; no difference in it wraps. -/
theorem refArea_eq {seg pass slice index : Nat} (same : Bool) (hslice : slice < 4) (hindex : index < seg)
    (hseg : 2 ≤ seg ∧ 4 * seg < 2 ^ 22) (hfirst : pass = 0 → slice = 0 → 2 ≤ index ∧ same = true) :
    (if pass = 0 then
      if slice = 0 then u32 (index + 2 ^ 32 - 1)
      else if same then u32 (slice * seg + index + 2 ^ 32 - 1)
      else u32 (slice * seg + 2 ^ 32 - if index = 0 then 1 else 0)
    else if same then u32 (4 * seg + 2 ^ 32 - seg + index + 2 ^ 32 - 1)
    else u32 (4 * seg + 2 ^ 32 - seg + 2 ^ 32 - if index = 0 then 1 else 0)) =
      referenceCount seg pass slice index same ∧
    1 ≤ referenceCount seg pass slice index same ∧ referenceCount seg pass slice index same < 4 * seg := by
  obtain ⟨htwo, hbound⟩ := hseg
  have hle : slice * seg ≤ 3 * seg := Nat.mul_le_mul_right _ (by omega)
  have hge : slice ≠ 0 → 1 * seg ≤ slice * seg := fun h => Nat.mul_le_mul_right _ (by omega)
  have hzero : slice = 0 → slice * seg = 0 := fun h => by rw [h, Nat.zero_mul]
  unfold referenceCount u32
  generalize slice * seg = done at hle hge hzero ⊢
  cases same with
  | false =>
    simp only [Bool.false_eq_true, if_false, Bool.false_or, decide_eq_true_eq]
    have hlater : pass = 0 → slice ≠ 0 := fun hpass hslice0 => Bool.false_ne_true (hfirst hpass hslice0).2
    split_ifs <;> omega
  | true =>
    simp only [if_true, Bool.true_or]
    split_ifs with hpass hslice0
    · have htwo := (hfirst hpass hslice0).1
      omega
    · omega
    · omega

theorem indexAlpha_rfc {seg pass slice index j : Nat} {same : Bool} (hslice : slice < 4) (hindex : index < seg)
    (hseg : 2 ≤ seg ∧ 4 * seg < 2 ^ 22) (hfirst : pass = 0 → slice = 0 → 2 ≤ index ∧ same = true) (hj : j < 2 ^ 32) :
    indexAlpha pass slice (4 * seg) index j same =
      Rfc9106.reference (Rfc9106.references seg pass slice index same) j := by
  obtain ⟨harea, hpos, hlt⟩ := refArea_eq same hslice hindex hseg hfirst
  have hquarter : 4 * seg / argon2SyncPoints = seg := Nat.mul_div_cancel_left _ (by decide)
  rw [references_eq same hslice hindex, Rfc9106.reference]
  unfold indexAlpha
  simp only [hquarter, harea, List.length_map, List.length_range]
  set n := referenceCount seg pass slice index same
  -- the relative position is below the number of references
  have hsquare : j * j / 2 ^ 32 < 2 ^ 32 := by
    rw [Nat.div_lt_iff_lt_mul (by decide)]
    exact Nat.mul_lt_mul'' hj hj
  have hrel : n * (j * j / 2 ^ 32) / 2 ^ 32 < n := by
    rw [Nat.div_lt_iff_lt_mul (by decide)]
    exact Nat.mul_lt_mul_of_pos_left hsquare hpos
  generalize n * (j * j / 2 ^ 32) / 2 ^ 32 = rel at hrel ⊢
  rw [List.getD_eq_getElem _ _ (by simpa using (by omega : n - 1 - rel < n)), List.getElem_map, List.getElem_range]
  have hnext : (slice + 1) * seg ≤ 4 * seg := Nat.mul_le_mul_right _ hslice
  have hstart : u32 ((slice + 1) * seg) = (slice + 1) * seg := Nat.mod_eq_of_lt (by omega)
  have hcode : ∀ start ≤ 4 * seg, (u32 (start + n + 2 ^ 32 - 1) + 2 ^ 64 - rel) % 2 ^ 64 = start + (n - 1 - rel) := by
    intro start hle
    have hsum : u32 (start + n + 2 ^ 32 - 1) = start + n - 1 := by
      unfold u32
      omega
    rw [hsum]
    omega
  unfold oldest
  by_cases hpass : pass = 0
  · rw [if_neg (not_not.mpr hpass), if_pos hpass, hcode 0 (Nat.zero_le _)]
  · rw [if_pos hpass, if_neg hpass]
    split_ifs with hlast
    · -- the last slice starts over at the first column
      rw [hcode 0 (Nat.zero_le _), hlast]
      show (0 + (n - 1 - rel)) % (4 * seg) = (4 * seg + (n - 1 - rel)) % (4 * seg)
      rw [Nat.zero_add, Nat.add_mod_left]
    · rw [hstart, hcode _ hnext]

/-! ## The blocks -/

section Fill

variable (password salt : List Byte) {p : Argon2Params} (outLen : Nat)

theorem toNat_le64 (block : List Byte) (i : Nat) : (le64 block i).toNat = leVal (slice block (8 * i) 8) := by
  have hlt := leVal_lt (slice block (8 * i) 8)
  have hlen : (slice block (8 * i) 8).length ≤ 8 := by
    rw [length_slice]
    exact min_le_left _ _
  have hpow : 256 ^ (slice block (8 * i) 8).length ≤ 256 ^ 8 := Nat.pow_le_pow_right (by decide) hlen
  exact Nat.mod_eq_of_lt (by omega)

/-- The value a step draws. -/
def drawn (x : Rfc9106.Inputs) (prev : List Byte) (pass slice lane index : Nat) : Nat :=
  if Rfc9106.independent x.kind pass slice then bootVariant.address x pass lane slice index else leVal (prev.take 8)

theorem argon2PseudoRand_rfc (h : p.Fits) (prev : List Byte) (pass slice lane index : Nat) :
    argon2PseudoRand p (argon2Sizes p) prev pass slice lane index =
      drawn (argon2Inputs password salt p outLen) prev pass slice lane index % 2 ^ 32 := by
  have hblocks : (argon2Inputs password salt p outLen).blocks = (argon2Sizes p).blocks := by
    rw [argon2Sizes_eq h, blocks_eq]
    ring
  have hkind : (argon2Inputs password salt p outLen).kind.code = p.type.code := by
    show p.type.kind.code = p.type.code
    cases p.type <;> rfl
  have hdep : (p.type = .d ∨ p.type = .id ∧ 1 ≤ pass ∨ p.type = .id ∧ 2 ≤ slice) ↔
      Rfc9106.independent (argon2Inputs password salt p outLen).kind pass slice = false := by
    show _ ↔ Rfc9106.independent p.type.kind pass slice = false
    cases p.type <;> simp [Rfc9106.independent, Argon2Type.kind]
    omega
  unfold argon2PseudoRand drawn
  by_cases hind : Rfc9106.independent (argon2Inputs password salt p outLen).kind pass slice = false
  · rw [if_pos (hdep.mpr hind), hind, if_neg Bool.false_ne_true, u32, toNat_le64]
    rfl
  · rw [if_neg (mt hdep.mp hind), if_pos (Bool.eq_true_of_not_eq_false hind)]
    show u32 (le64 (hPrime _ argon2BlockSize) (index % 128)).toNat = leVal (Bytes.slice (Rfc9106.hashVar 1024
      ([pass, lane, slice, (argon2Inputs password salt p outLen).blocks, p.timeCost,
        (argon2Inputs password salt p outLen).kind.code, index / 128 + 1].flatMap (le 4))) (8 * (index % 128)) 8) % 2 ^ 32
    rw [hblocks, hkind, u32, toNat_le64, hPrime_rfc]
    rfl

/-- One step, on indices inside the block array. -/
theorem argon2Step_rfc (h : p.Fits) {pass slice lane index : Nat} (hslice : slice < 4) (hlane : lane < p.parallelism)
    (hindex : index < p.quarter) (hfirst : pass = 0 → slice = 0 → 2 ≤ index) (mem : Argon2Mem) :
    argon2Step p (argon2Sizes p) pass slice lane mem index =
      Rfc9106.step bootVariant (argon2Inputs password salt p outLen) pass slice lane mem index := by
  have hquarter := two_le_quarter h
  have hlt := blocks_lt h
  have hlanes := h.lanes
  have hrow : 1 * (4 * p.quarter) ≤ p.parallelism * (4 * p.quarter) := Nat.mul_le_mul_right _ hlanes
  have hsegment : (argon2Sizes p).segment = p.quarter := by rw [argon2Sizes_eq h]
  have hlength : (argon2Sizes p).lane = 4 * p.quarter := by rw [argon2Sizes_eq h]
  have hzero : List.replicate argon2BlockSize 0 = Rfc9106.zeroBlock := rfl
  -- the block computed and the one before it are in the lane
  have hnext : (slice + 1) * p.quarter ≤ 4 * p.quarter := Nat.mul_le_mul_right _ hslice
  rw [Nat.succ_mul] at hnext
  have hcur : u32 (slice * p.quarter + index) = slice * p.quarter + index := Nat.mod_eq_of_lt (by omega)
  have hdst := argon2Index_eq h hlane (i := slice * p.quarter + index) (by omega)
  have hprev : (if slice * p.quarter + index = 0 then 4 * p.quarter - 1 else slice * p.quarter + index - 1) <
      4 * p.quarter := by
    split_ifs <;> omega
  have hdrawn : ∀ prev, (if Rfc9106.independent (argon2Inputs password salt p outLen).kind pass slice then
      bootVariant.address (argon2Inputs password salt p outLen) pass lane slice index else leVal (prev.take 8)) =
        drawn (argon2Inputs password salt p outLen) prev pass slice lane index := fun _ => rfl
  have hlaneOf : ∀ j, bootVariant.laneOf j = j % 2 ^ 32 / 2 ^ 16 := fun _ => rfl
  have hparallelism : (argon2Inputs password salt p outLen).parallelism = p.parallelism := rfl
  unfold argon2Step Rfc9106.step
  simp only [hsegment, hlength, hcur, Rfc9106.get, columns_eq h, segment_eq h, argon2Index_eq h hlane hprev, hdst,
    argon2PseudoRand_rfc password salt outLen h, hzero, gbBlock_rfc, hdrawn, hlaneOf, hparallelism]
  generalize drawn (argon2Inputs password salt p outLen) _ pass slice lane index = j
  -- so is the block referred to, in a lane there is
  have hrefLane : (if pass = 0 ∧ slice = 0 then lane else j % 2 ^ 32 / 2 ^ 16 % p.parallelism) < p.parallelism := by
    split_ifs
    · exact hlane
    · exact Nat.mod_lt _ (by omega)
  have hsame : pass = 0 → slice = 0 → 2 ≤ index ∧
      ((if pass = 0 ∧ slice = 0 then lane else j % 2 ^ 32 / 2 ^ 16 % p.parallelism) == lane) = true := by
    intro hpass hslice0
    rw [if_pos ⟨hpass, hslice0⟩]
    exact ⟨hfirst hpass hslice0, beq_self_eq_true lane⟩
  have halpha := indexAlpha_rfc hslice hindex ⟨hquarter, by omega⟩ hsame (Nat.mod_lt j (by decide : 0 < 2 ^ 32))
  have href : indexAlpha pass slice (4 * p.quarter) index (j % 2 ^ 32)
      ((if pass = 0 ∧ slice = 0 then lane else j % 2 ^ 32 / 2 ^ 16 % p.parallelism) == lane) < 4 * p.quarter :=
    Nat.mod_lt _ (by omega)
  rw [argon2Index_eq h hrefLane href, halpha]
  rfl

theorem argon2Fill_rfc (h : p.Fits) (mem : Argon2Mem) : argon2Fill p (argon2Sizes p) mem =
    Rfc9106.fill bootVariant (argon2Inputs password salt p outLen) mem := by
  have hsegment : (argon2Sizes p).segment = p.quarter := by rw [argon2Sizes_eq h]
  have hseg : ∀ (pass slice : Nat), slice < 4 → ∀ (mem : Argon2Mem), ∀ lane ∈ List.range p.parallelism,
      argon2Segment p (argon2Sizes p) pass slice mem lane =
        Rfc9106.fillSegment bootVariant (argon2Inputs password salt p outLen) pass slice mem lane := by
    intro pass slice hslice mem lane hlane
    unfold argon2Segment Rfc9106.fillSegment
    rw [hsegment, segment_eq h]
    apply List.foldl_ext
    intro mem index hindex
    obtain ⟨hge, hlt⟩ := List.mem_range'_1.mp hindex
    refine argon2Step_rfc password salt outLen h hslice (List.mem_range.mp hlane) ?_ ?_ mem
    · split_ifs at hge hlt <;> omega
    · intro hpass hslice0
      rwa [if_pos ⟨hpass, hslice0⟩] at hge
  unfold argon2Fill Rfc9106.fill
  apply List.foldl_ext
  intro mem pass _
  apply List.foldl_ext
  intro mem slice hslice
  apply List.foldl_ext
  intro mem lane hlane
  exact hseg pass slice (List.mem_range.mp hslice) mem lane hlane

theorem argon2H0_rfc : argon2H0 p password salt outLen =
    Rfc9106.hash 64 (bootVariant.first (argon2Inputs password salt p outLen)) := by
  have hkind : p.type.kind.code = p.type.code := by cases p.type <;> rfl
  unfold argon2H0
  rw [← hkind]
  refine (blake2bFinal_rfc 64 [] _).trans (congrArg (Rfc9106.hash 64) ?_)
  simp only [List.flatten_cons, List.flatten_nil, List.append_nil]
  rfl

/-- `argon2` with enough memory is the algorithm of the RFC with the four changes. -/
theorem argon2_tag (h : p.Fits) {alloc : Nat → Bool} (halloc : alloc (argon2AllocSize p) = true) :
    argon2 alloc password salt p outLen =
      some (Rfc9106.tag bootVariant (argon2Inputs password salt p outLen)) := by
  have hlanes := h.lanes
  have hquarter := two_le_quarter h
  have hlt := blocks_lt h
  have hparallelism : (argon2Inputs password salt p outLen).parallelism = p.parallelism := rfl
  have hlength : (argon2Sizes p).lane = 4 * p.quarter := by rw [argon2Sizes_eq h]
  have hzero : List.replicate argon2BlockSize 0 = Rfc9106.zeroBlock := rfl
  have hblocks : argon2AllocSize p / argon2BlockSize = (argon2Inputs password salt p outLen).blocks := by
    have hsize : u32 (p.parallelism * (4 * p.quarter) * 1024) = p.parallelism * (4 * p.quarter) * 1024 :=
      Nat.mod_eq_of_lt (by omega)
    rw [argon2AllocSize, argon2Sizes_eq h, blocks_eq, argon2BlockSize, hsize, Nat.mul_div_cancel _ (by omega)]
    ring
  have hfirst : ∀ h0 (mem : Argon2Mem),
      (List.range p.parallelism).foldl (argon2Lane0 h0 (4 * p.quarter)) mem =
        (List.range p.parallelism).foldl (Rfc9106.firstBlocks (argon2Inputs password salt p outLen) h0) mem := by
    intro h0 mem
    apply List.foldl_ext
    intro mem lane hlane
    have hlane' := List.mem_range.mp hlane
    unfold argon2Lane0 Rfc9106.firstBlocks
    simp only [argon2Index_eq h hlane' (i := 0) (by omega), argon2Index_eq h hlane' (i := 1) (by omega), hPrime_rfc,
      columns_eq h, Nat.add_zero]
    rfl
  have hlast : ∀ (mem : Argon2Mem), ∀ lane < p.parallelism,
      mem.getD (argon2Index (4 * p.quarter) lane (4 * p.quarter - 1)) Rfc9106.zeroBlock =
        Rfc9106.get (argon2Inputs password salt p outLen) mem lane
          ((argon2Inputs password salt p outLen).columns - 1) := by
    intro mem lane hlane
    rw [argon2Index_eq h hlane (by omega), Rfc9106.get, columns_eq h]
  unfold argon2 Rfc9106.tag
  rw [if_pos halloc]
  simp only [hlength, hzero, hblocks, argon2H0_rfc, hfirst, argon2Fill_rfc password salt outLen h, hPrime_rfc,
    hlast _ 0 hlanes, hparallelism]
  refine congrArg (fun b => some (Rfc9106.hashVar outLen b)) (List.foldl_ext _ _ _ fun b lane hlane => ?_)
  obtain ⟨hge, hlt'⟩ := List.mem_range'_1.mp hlane
  rw [hlast _ lane (by omega)]

end Fill

end SakuruBoot

import SakuruBoot.Crypto.Sha1Eval
import SakuruBoot.Luks.Luks1Format
import SakuruBoot.Luks.Luks2

/-!
# The merge of anti-forensic stripes

`af_merge` and `af2_merge` against the split of the LUKS specification. Both hash a whole block with the number of its
round behind it where the specification hashes the pieces of the block with their numbers before them. They give the key
back exactly when the stripes are within reach of their 32-bit offsets and the two ways to hash agree along the noise
(`af_merges_right_iff`).
-/

namespace SakuruBoot
open CStr (Byte u32)
open Bytes
open Luks1Format

/-- What a round hashes a block to. -/
def sectorDiffuse (id : HashId) (s : Nat) (block : List Byte) : List Byte :=
  (hashDigest id (block ++ be 4 s) ++ block.drop (hashDigestSize id)).take block.length

/-- The chain of the noise under it. -/
def sectorChain (id : HashId) (keyBytes : Nat) (noise : List (List Byte)) : List Byte :=
  (List.range noise.length).foldl (fun d s => sectorDiffuse id s (xorBytes d (noise.getD s [])))
    (List.replicate keyBytes 0)

variable {id : HashId} {n : Nat} {noise : List (List Byte)}

theorem rounds_eq {stripes : Nat} (hpos : 1 ≤ stripes) (hlt : stripes < 2 ^ 32) :
    u32 (stripes + 2 ^ 32 - 1) = stripes - 1 := by
  unfold u32
  omega

theorem xorBytes_mask_iff {x c key : List Byte} (hx : x.length = key.length)
    (hc : c.length = key.length) : xorBytes x (xorBytes c key) = key ↔ x = c := by
  induction key generalizing x c with
  | nil => simp [List.length_eq_zero_iff.mp hx, List.length_eq_zero_iff.mp hc, xorBytes]
  | cons k key ih =>
    obtain ⟨a, x, rfl⟩ := List.exists_cons_of_length_eq_add_one hx
    obtain ⟨b, c, rfl⟩ := List.exists_cons_of_length_eq_add_one hc
    have hbyte : a ^^^ (b ^^^ k) = k ↔ a = b := by
      rw [← UInt8.xor_assoc]
      constructor
      · intro h
        rw [← UInt8.xor_eq_zero_iff, ← UInt8.xor_left_inj k, h, UInt8.zero_xor]
      · rintro rfl
        simp
    have htail := ih (x := x) (c := c) (by simpa using hx) (by simpa using hc)
    simp only [xorBytes, List.zipWith_cons_cons, List.cons.injEq, hbyte] at htail ⊢
    rw [htail]

theorem mergeRound_take {stripe : Nat → List Byte} (hn : n ≤ 64) (hstripe : ∀ s, (stripe s).length = n) {d : List Byte}
    (hd : d.length = 64) (s : Nat) :
    (mergeRound id n stripe d s).take n = sectorDiffuse id s (xorBytes (d.take n) (stripe s)) := by
  have hx : (xorBytes (d.take n) (stripe s)).length = n := by
    rw [length_xorBytes, List.length_take, hstripe]
    omega
  unfold mergeRound sectorDiffuse
  dsimp only
  generalize xorBytes (d.take n) (stripe s) = x at hx ⊢
  have hfront : (patch d 0 x).take n = x := by rw [take_patch_zero _ _ _ hx.ge, List.take_of_length_le hx.le]
  rw [hfront, hashCompute_eq, patch_zero, length_hashDigest, hx, patch_zero, List.drop_append, ← List.append_assoc,
    List.take_append_of_le_length]
  rw [List.length_append, length_hashDigest, List.length_drop, hx]
  omega

/-- The rounds on the 64-byte block, seen on the bytes of the key. -/
theorem mergeRounds_take {stripe : Nat → List Byte} (hn : n ≤ 64) (hstripe : ∀ s, (stripe s).length = n) (k : Nat) :
    ((List.range k).foldl (mergeRound id n stripe) (List.replicate 64 0)).take n =
      (List.range k).foldl (fun d s => sectorDiffuse id s (xorBytes d (stripe s))) (List.replicate n 0) := by
  induction k with
  | zero => rw [List.range_zero, List.foldl_nil, List.foldl_nil, List.take_replicate, Nat.min_eq_left hn]
  | succ k ih =>
    rw [List.range_succ, List.foldl_append, List.foldl_append, List.foldl_cons, List.foldl_nil, List.foldl_cons,
      List.foldl_nil, mergeRound_take hn hstripe (length_mergeRounds id hn hstripe _ List.length_replicate), ih]

theorem length_sectorDiffuse (s : Nat) (block : List Byte) : (sectorDiffuse id s block).length = block.length := by
  rw [sectorDiffuse, List.length_take, List.length_append, length_hashDigest, List.length_drop]
  omega

theorem length_sectorChain (hnoise : ∀ stripe ∈ noise, stripe.length = n) : (sectorChain id n noise).length = n := by
  unfold sectorChain
  suffices h : ∀ k ≤ noise.length, ((List.range k).foldl (fun d s => sectorDiffuse id s (xorBytes d (noise.getD s [])))
      (List.replicate n 0)).length = n from h _ (le_refl _)
  intro k
  induction k with
  | zero => exact fun _ => List.length_replicate
  | succ k ih =>
    intro hk
    have hstripe : (noise.getD k []).length = n := by
      rw [List.getD_eq_getElem _ _ hk]
      exact hnoise _ (List.getElem_mem hk)
    rw [List.range_succ, List.foldl_append, List.foldl_cons, List.foldl_nil, length_sectorDiffuse, length_xorBytes,
      ih (Nat.le_of_lt hk), hstripe, Nat.min_self]

theorem mergeWith_eq {stripe : Nat → List Byte} {last : List Byte} (hn : n ≤ 64)
    (hstripe : ∀ s, (stripe s).length = n) (hread : ∀ s < noise.length, stripe s = noise.getD s [])
    (hlast : stripe noise.length = last) :
    mergeWith id n stripe noise.length = xorBytes (sectorChain id n noise) last := by
  have hchain : (List.range noise.length).foldl (fun d s => sectorDiffuse id s (xorBytes d (stripe s)))
      (List.replicate n 0) = sectorChain id n noise := by
    apply List.foldl_ext
    intro d s hs
    rw [hread s (List.mem_range.mp hs)]
  unfold mergeWith
  dsimp only
  rw [mergeRounds_take hn hstripe, hchain, hlast]

/-! ## Reading the array -/

theorem map_getD_range {α : Type} {l : List α} {k : Nat} (h : l.length = k) (x : α) :
    (List.range k).map (fun i => l.getD i x) = l := by
  apply List.ext_getElem
  · rw [List.length_map, List.length_range, h]
  · intro i h1 h2
    rw [List.getElem_map, List.getElem_range, List.getD_eq_getElem _ _ h2]

theorem getD_slice {l : List Byte} {o i : Nat} (hi : i < n) : (slice l o n).getD i 0 = l.getD (o + i) 0 := by
  rw [List.getD_eq_getElem?_getD, List.getD_eq_getElem?_getD, slice, List.getElem?_take_of_lt hi, List.getElem?_drop]

section Array

variable {stripes : List (List Byte)} (h : ∀ stripe ∈ stripes, stripe.length = n) {s : Nat} (hs : s < stripes.length)
include h hs

theorem length_getD_stripes : (stripes.getD s []).length = n := by
  rw [List.getD_eq_getElem _ _ hs]
  exact h _ (List.getElem_mem hs)

theorem slice_flatten : slice stripes.flatten (s * n) n = stripes.getD s [] := by
  have hall : stripes.flatten = (List.range stripes.length).flatMap fun s => stripes.getD s [] := by
    rw [List.flatMap, map_getD_range rfl]
  rw [hall, Nat.mul_comm]
  exact slice_flatMap_range (f := fun s => stripes.getD s []) (fun i hi => length_getD_stripes h hi) hs

theorem stripe_within : (s + 1) * n ≤ stripes.flatten.length := by
  rw [length_flatten_noise h]
  exact Nat.mul_le_mul_right _ hs

theorem afStripe_flatten (hlt : s * n < 2 ^ 32) (rest : List Byte) :
    afStripe (stripes.flatten ++ rest) s n = stripes.getD s [] := by
  have hin := stripe_within h hs
  have hu : u32 (s * n) = s * n := Nat.mod_eq_of_lt hlt
  rw [Nat.succ_mul] at hin
  rw [afStripe, hu, fit_slice (by rw [List.length_append]; omega), slice_append_left hin, slice_flatten h hs]

theorem af2Stripe_flatten (hle : (s + 1) * n ≤ 2 ^ 32) : af2Stripe stripes.flatten s n = stripes.getD s [] := by
  rw [Nat.succ_mul] at hle
  have hbyte : ∀ i ∈ List.range n, stripes.flatten.getD (u32 (s * n + i)) 0 = (stripes.getD s []).getD i 0 := by
    intro i hi
    have hi := List.mem_range.mp hi
    have hu : u32 (s * n + i) = s * n + i := Nat.mod_eq_of_lt (by omega)
    rw [hu, ← slice_flatten h hs, getD_slice hi]
  rw [af2Stripe, List.map_congr_left hbyte, map_getD_range (length_getD_stripes h hs)]

end Array

/-! ## When the key comes back -/

/-- For every key of `n` bytes, both merges of its split give it back. -/
def AfMergesRight (id : HashId) (n : Nat) (noise : List (List Byte)) : Prop :=
  ∀ key : List Byte, key.length = n →
    afMerge id (afSplit id key noise).flatten (noise.length + 1) n = key ∧
      af2Merge id (afSplit id key noise).flatten (noise.length + 1) n = key

section Reach

variable {last : List Byte}

/-- A merge that reads the stripes within reach takes the chain of the code off the last one. -/
theorem mergeWith_stripes (hn : n ≤ 64) {stripe : Nat → List Byte} (hstripe : ∀ s, (stripe s).length = n)
    (hread : ∀ s < (noise ++ [last]).length, stripe s = (noise ++ [last]).getD s []) :
    mergeWith id n stripe noise.length = xorBytes (sectorChain id n noise) last := by
  have hlen : (noise ++ [last]).length = noise.length + 1 := by rw [List.length_append, List.length_singleton]
  refine mergeWith_eq hn hstripe (fun s hs => ?_) ?_
  · rw [hread s (by omega)]
    exact List.getD_append _ _ _ _ hs
  · rw [hread _ (by omega), List.getD_append_right _ _ _ _ (le_refl _), Nat.sub_self, List.getD_cons_zero]

variable (hnoise : ∀ stripe ∈ noise, stripe.length = n) (hlast : last.length = n)
include hnoise hlast

theorem length_stripes : ∀ stripe ∈ noise ++ [last], stripe.length = n := by
  intro stripe hs
  rcases List.mem_append.mp hs with hs | hs
  · exact hnoise stripe hs
  · rw [List.mem_singleton.mp hs, hlast]

theorem afMerge_eq (hn : n ≤ 64) (hcount : noise.length + 1 < 2 ^ 32) (hfits : noise.length * n < 2 ^ 32)
    (rest : List Byte) : afMerge id ((noise ++ [last]).flatten ++ rest) (noise.length + 1) n =
      xorBytes (sectorChain id n noise) last := by
  rw [afMerge, rounds_eq (Nat.le_add_left 1 _) hcount, Nat.add_sub_cancel]
  refine mergeWith_stripes hn (fun s => length_afStripe _ s n) fun s hs => ?_
  have hle : s ≤ noise.length := by
    rw [List.length_append, List.length_singleton] at hs
    omega
  exact afStripe_flatten (length_stripes hnoise hlast) hs ((Nat.mul_le_mul_right _ hle).trans_lt hfits) rest

theorem af2Merge_eq (hn : n ≤ 64) (hcount : noise.length + 1 < 2 ^ 32) (hfits : (noise.length + 1) * n ≤ 2 ^ 32) :
    af2Merge id (noise ++ [last]).flatten (noise.length + 1) n = xorBytes (sectorChain id n noise) last := by
  rw [af2Merge, rounds_eq (Nat.le_add_left 1 _) hcount, Nat.add_sub_cancel]
  refine mergeWith_stripes hn (fun s => length_af2Stripe _ s n) fun s hs => ?_
  have hle : s + 1 ≤ noise.length + 1 := by
    rw [List.length_append, List.length_singleton] at hs
    omega
  exact af2Stripe_flatten (length_stripes hnoise hlast) hs ((Nat.mul_le_mul_right _ hle).trans hfits)

end Reach

/-- Stripes within reach: both merges take the chain of the code off the last stripe. -/
theorem merges_eq (hpos : 1 ≤ n) (hn : n ≤ 64) (hnoise : ∀ stripe ∈ noise, stripe.length = n)
    (hcount : noise.length + 1 < 2 ^ 32) (hfits : (noise.length + 1) * n ≤ 2 ^ 32) {last : List Byte}
    (hlast : last.length = n) :
    afMerge id (noise ++ [last]).flatten (noise.length + 1) n = xorBytes (sectorChain id n noise) last ∧
      af2Merge id (noise ++ [last]).flatten (noise.length + 1) n = xorBytes (sectorChain id n noise) last := by
  have hmul := hfits
  rw [Nat.succ_mul] at hmul
  have hone := @afMerge_eq id n noise last hnoise hlast hn hcount (by omega) []
  rw [List.append_nil] at hone
  exact ⟨hone, af2Merge_eq hnoise hlast hn hcount hfits⟩

theorem getD_xorBytes {x y : List Byte} {i : Nat} (hx : i < x.length) (hy : i < y.length) :
    (xorBytes x y).getD i 0 = x.getD i 0 ^^^ y.getD i 0 := by
  rw [xorBytes, List.getD_eq_getElem _ _ (by rw [List.length_zipWith]; omega), List.getElem_zipWith,
    List.getD_eq_getElem _ _ hx, List.getD_eq_getElem _ _ hy]

/-- An array beyond `2 ^ 32` bytes: the last byte of the merge comes from the noise alone. -/
theorem af2Merge_out_of_reach (hpos : 1 ≤ n) (hn : n ≤ 64) (hnoise : ∀ stripe ∈ noise, stripe.length = n)
    (hcount : noise.length + 1 < 2 ^ 32) (hout : 2 ^ 32 < (noise.length + 1) * n) (last : List Byte) :
    (af2Merge id (noise ++ [last]).flatten (noise.length + 1) n).getD (n - 1) 0 =
      (af2Merge id noise.flatten (noise.length + 1) n).getD (n - 1) 0 := by
  have hflat := length_flatten_noise hnoise
  have hread : ∀ k < noise.length * n, (noise ++ [last]).flatten.getD k 0 = noise.flatten.getD k 0 := by
    intro k hk
    rw [List.flatten_append]
    exact List.getD_append _ _ _ _ (hk.trans_eq hflat.symm)
  have hsmall : ∀ x, u32 x ≤ x := fun x => Nat.mod_le _ _
  have hstripe : ∀ s < noise.length, af2Stripe (noise ++ [last]).flatten s n = af2Stripe noise.flatten s n := by
    intro s hs
    apply List.map_congr_left
    intro i hi
    have hin := Nat.mul_le_mul_right n (Nat.succ_le_of_lt hs)
    rw [Nat.succ_mul] at hin
    have hi := List.mem_range.mp hi
    exact hread _ ((hsmall _).trans_lt (by omega))
  have hwrap : u32 (noise.length * n + (n - 1)) < noise.length * n := by
    rw [Nat.succ_mul] at hout
    unfold u32
    omega
  have hlastbyte : ∀ split : List Byte, (af2Stripe split noise.length n).getD (n - 1) 0 =
      split.getD (u32 (noise.length * n + (n - 1))) 0 := fun split => getD_map_range _ (by omega) 0
  have hrounds : (List.range noise.length).foldl
      (mergeRound id n fun s => af2Stripe (noise ++ [last]).flatten s n) (List.replicate 64 0) =
        (List.range noise.length).foldl (mergeRound id n fun s => af2Stripe noise.flatten s n) (List.replicate 64 0) := by
    apply List.foldl_ext
    intro d s hs
    rw [mergeRound, mergeRound, hstripe s (List.mem_range.mp hs)]
  have hchain : ∀ split : List Byte, n - 1 < (((List.range noise.length).foldl
      (mergeRound id n fun s => af2Stripe split s n) (List.replicate 64 0)).take n).length := by
    intro split
    rw [List.length_take, length_mergeRounds id hn (fun s => length_af2Stripe _ s n) _ List.length_replicate]
    omega
  rw [af2Merge, af2Merge, rounds_eq (Nat.le_add_left 1 _) hcount, Nat.add_sub_cancel, mergeWith, mergeWith]
  rw [getD_xorBytes (hchain _) (by rw [length_af2Stripe]; omega),
    getD_xorBytes (hchain _) (by rw [length_af2Stripe]; omega),
    hrounds, hlastbyte, hlastbyte, hread _ hwrap]

theorem afSplit_eq {key : List Byte} (hkey : key.length = n) :
    afSplit id key noise = noise ++ [xorBytes (afChain id n noise) key] := by
  rw [afSplit, hkey]

theorem length_mask (hnoise : ∀ stripe ∈ noise, stripe.length = n) {key : List Byte} (hkey : key.length = n) :
    (xorBytes (afChain id n noise) key).length = n := by
  rw [length_xorBytes, Luks1Volume.length_afChain id hnoise, hkey, Nat.min_self]

theorem chains_agree (hpos : 1 ≤ n) (hn : n ≤ 64) (hnoise : ∀ stripe ∈ noise, stripe.length = n)
    (hcount : noise.length + 1 < 2 ^ 32) (hfits : (noise.length + 1) * n ≤ 2 ^ 32) (h : AfMergesRight id n noise) :
    sectorChain id n noise = afChain id n noise := by
  have hkey : (List.replicate n (0 : Byte)).length = n := List.length_replicate
  have hmerge := (h _ hkey).1
  rw [afSplit_eq hkey, (merges_eq hpos hn hnoise hcount hfits (length_mask hnoise hkey)).1] at hmerge
  exact (xorBytes_mask_iff ((length_sectorChain hnoise).trans hkey.symm)
    ((Luks1Volume.length_afChain id hnoise).trans hkey.symm)).mp hmerge

/-- Two keys that differ in their last byte do not both come back from an array beyond `2 ^ 32` bytes. -/
theorem fits_of_right (hpos : 1 ≤ n) (hn : n ≤ 64) (hnoise : ∀ stripe ∈ noise, stripe.length = n)
    (hcount : noise.length + 1 < 2 ^ 32) (h : AfMergesRight id n noise) : (noise.length + 1) * n ≤ 2 ^ 32 := by
  by_contra hout
  have hback : ∀ b : Byte, (List.replicate n b).getD (n - 1) 0 =
      (af2Merge id noise.flatten (noise.length + 1) n).getD (n - 1) 0 := by
    intro b
    have hkey : (List.replicate n b).length = n := List.length_replicate
    rw [← af2Merge_out_of_reach hpos hn hnoise hcount (not_le.mp hout) (xorBytes (afChain id n noise)
      (List.replicate n b)), ← afSplit_eq hkey, (h _ hkey).2]
  have hlast : ∀ b : Byte, (List.replicate n b).getD (n - 1) 0 = b := by
    intro b
    rw [List.getD_eq_getElem _ _ (by rw [List.length_replicate]; omega), List.getElem_replicate]
  have heq := (hback 0).trans (hback 1).symm
  rw [hlast, hlast] at heq
  exact absurd heq (by decide)

theorem right_of_chains (hpos : 1 ≤ n) (hn : n ≤ 64) (hnoise : ∀ stripe ∈ noise, stripe.length = n)
    (hcount : noise.length + 1 < 2 ^ 32) (hfits : (noise.length + 1) * n ≤ 2 ^ 32)
    (hagree : sectorChain id n noise = afChain id n noise) : AfMergesRight id n noise := by
  intro key hkey
  obtain ⟨h1, h2⟩ := merges_eq hpos hn hnoise hcount hfits (length_mask hnoise hkey)
  have hback : xorBytes (sectorChain id n noise) (xorBytes (afChain id n noise) key) = key :=
    (xorBytes_mask_iff ((length_sectorChain hnoise).trans hkey.symm)
      ((Luks1Volume.length_afChain id hnoise).trans hkey.symm)).mpr hagree
  rw [afSplit_eq hkey, h1, h2]
  exact ⟨hback, hback⟩

/-- For every hash, key length, number of stripes and noise. -/
theorem af_merges_right_iff (id : HashId) (hpos : 1 ≤ n) (hn : n ≤ 64) (hnoise : ∀ stripe ∈ noise, stripe.length = n)
    (hcount : noise.length + 1 < 2 ^ 32) :
    AfMergesRight id n noise ↔ (noise.length + 1) * n ≤ 2 ^ 32 ∧ sectorChain id n noise = afChain id n noise := by
  constructor
  · intro h
    have hfits := fits_of_right hpos hn hnoise hcount h
    exact ⟨hfits, chains_agree hpos hn hnoise hcount hfits h⟩
  · rintro ⟨hfits, hagree⟩
    exact right_of_chains hpos hn hnoise hcount hfits hagree

/-! ## One stripe of noise -/

section One

variable {stripe : List Byte}

theorem xorBytes_zeros (block : List Byte) : xorBytes (List.replicate block.length 0) block = block := by
  induction block with
  | nil => rfl
  | cons b block ih => exact congrArg₂ List.cons UInt8.zero_xor ih

theorem sectorChain_one (hle : stripe.length ≤ hashDigestSize id) :
    sectorChain id stripe.length [stripe] = (hashDigest id (stripe ++ be 4 0)).take stripe.length := by
  rw [sectorChain, List.length_singleton, List.range_one, List.foldl_cons, List.foldl_nil, List.getD_cons_zero,
    xorBytes_zeros, sectorDiffuse, List.drop_of_length_le hle, List.append_nil]

theorem afChain_one (hpos : 1 ≤ stripe.length) (hle : stripe.length ≤ hashDigestSize id) :
    afChain id stripe.length [stripe] = (hashDigest id (be 4 0 ++ stripe)).take stripe.length := by
  have hone : (stripe.length + hashDigestSize id - 1) / hashDigestSize id = 1 := Nat.div_eq_of_lt_le (by omega) (by omega)
  have hpiece : slice stripe 0 (hashDigestSize id) = stripe := by
    rw [slice, List.drop_zero, List.take_of_length_le hle]
  rw [afChain, List.foldl_cons, List.foldl_nil, xorBytes_zeros, diffuse, hone, List.range_one, List.flatMap_singleton]
  dsimp only
  rw [Nat.mul_zero, hpiece]

theorem af_merges_one_iff (hpos : 1 ≤ stripe.length) (hle : stripe.length ≤ hashDigestSize id) :
    AfMergesRight id stripe.length [stripe] ↔
      (hashDigest id (stripe ++ be 4 0)).take stripe.length = (hashDigest id (be 4 0 ++ stripe)).take stripe.length := by
  have hdigest : hashDigestSize id ≤ 64 := by cases id <;> decide
  have hnoise : ∀ x ∈ [stripe], x.length = stripe.length := fun x hx => by rw [List.mem_singleton.mp hx]
  have hlen : [stripe].length = 1 := rfl
  have hcount : [stripe].length + 1 < 2 ^ 32 := by omega
  have hfits : ([stripe].length + 1) * stripe.length ≤ 2 ^ 32 := by
    rw [hlen]
    omega
  rw [← sectorChain_one hle, ← afChain_one hpos hle]
  constructor
  · exact chains_agree hpos (by omega) hnoise hcount hfits
  · exact right_of_chains hpos (by omega) hnoise hcount hfits

end One

def byteAgrees (b : Byte) : Bool :=
  sha1N [b, 0, 0, 0, 0] fun x => sha1N [0, 0, 0, 0, b] fun y => decide (x.take 1 = y.take 1)

theorem byteAgrees_iff (b : Byte) : byteAgrees b = true ↔ AfMergesRight .sha1 1 [[b]] := by
  have hone := @af_merges_one_iff .sha1 [b] (le_refl 1) (show 1 ≤ 20 by decide)
  rw [byteAgrees, sha1N_eq, sha1N_eq, decide_eq_true_iff]
  exact hone.symm

/-- Two stripes of one byte, the first of them `8`: its two digests begin with the same byte. -/
theorem af_merges_right_two : (1 ≤ 64 ∧ (∀ stripe ∈ [[(8 : Byte)]], stripe.length = 1) ∧ 1 + 1 < 2 ^ 32) ∧
    AfMergesRight .sha1 1 [[8]] := by
  have hagree := chains_agree (le_refl 1) (by decide) (by decide) (by decide) (by decide)
    ((byteAgrees_iff 8).mp (by decide +kernel))
  exact ⟨by decide, (af_merges_right_iff .sha1 (by decide) (by decide) (by decide) (by decide)).mpr ⟨by decide, hagree⟩⟩

/-- With the first stripe `1` they do not. -/
theorem af_merges_wrong_two : ¬ AfMergesRight .sha1 1 [[1]] := by
  rw [← byteAgrees_iff]
  decide +kernel

end SakuruBoot

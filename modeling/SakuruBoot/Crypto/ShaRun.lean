import SakuruBoot.Crypto.ShaFips
import SakuruBoot.Lib.StreamRun

/-!
# Runs of the streaming hashes of `crypto/sha.c`

The `init`, `update` and `final` functions with their 32-bit position and with loops that may go on. SHA-512 keeps its
length in two words; `Sha512Ctx.ctx` reads them as one number, and with it the functions are those of the scheme. For
chunks with room for one more block below `2 ^ 32` the runs end with the digest of FIPS 180-4 (`sha_streams`).
-/

namespace SakuruBoot
open CStr (Byte)
open Bytes

/-! ## SHA-512 with its two-word length -/

/-- `SHA512_CTX`; `len0` is the low word of the length. -/
structure Sha512Ctx where
  h : List UInt64
  len0 : UInt64
  len1 : UInt64
  buf : List Byte

namespace Sha512Ctx

def ctx (c : Sha512Ctx) : MerkleDamgard.Ctx (List UInt64) :=
  { h := c.h, len := c.len1.toNat * 2 ^ 64 + c.len0.toNat, buf := c.buf }

def init : Sha512Ctx := { h := sha512Iv, len0 := 0, len1 := 0, buf := [] }

def updateRun (fuel : Nat) (c : Sha512Ctx) (data : List Byte) : Option Sha512Ctx :=
  let len0 := c.len0 + data.length.toUInt64
  let len1 := if len0 < c.len0 then c.len1 + 1 else c.len1
  (MerkleDamgard.updateRun sha512Scheme 32 fuel c.ctx data).map fun r =>
    { h := r.h, len0 := len0, len1 := len1, buf := r.buf }

/-- `while (buf_len != 112) update(0)`. -/
def padRun (fuel : Nat) : Nat → Sha512Ctx → Option Sha512Ctx
  | 0, _ => none
  | n + 1, c => if c.buf.length = 112 then some c else (updateRun fuel c [0]).bind (padRun fuel n)

def finalRun (fuel : Nat) (c : Sha512Ctx) : Option (List Byte) := do
  let bhi := (c.len1 <<< 3) ||| (c.len0 >>> 61)
  let blo := c.len0 <<< 3
  let c ← updateRun fuel c [0x80]
  let c ← padRun fuel fuel c
  let c ← updateRun fuel c (be 8 bhi.toNat ++ be 8 blo.toNat)
  return putBe64 c.h

theorem count_eq (len0 len1 : UInt64) {n : Nat} (hn : n < 2 ^ 64) :
    (if len0 + n.toUInt64 < len0 then len1 + 1 else len1).toNat * 2 ^ 64 + (len0 + n.toUInt64).toNat =
      (len1.toNat * 2 ^ 64 + len0.toNat + n) % 2 ^ 128 := by
  have h0 : len0.toNat < 2 ^ 64 := len0.toNat_lt
  have h1 : len1.toNat < 2 ^ 64 := len1.toNat_lt
  have hsum : (len0 + n.toUInt64).toNat = (len0.toNat + n) % 2 ^ 64 := by
    rw [UInt64.toNat_add]
    show (len0.toNat + n % 2 ^ 64) % 2 ^ 64 = _
    rw [Nat.mod_eq_of_lt hn]
  have hsucc : (len1 + 1).toNat = (len1.toNat + 1) % 2 ^ 64 := UInt64.toNat_add len1 1
  split_ifs with hcarry
  · have hcarry : (len0 + n.toUInt64).toNat < len0.toNat := hcarry
    rw [hsum] at hcarry ⊢
    omega
  · have hcarry : ¬ (len0 + n.toUInt64).toNat < len0.toNat := hcarry
    rw [hsum] at hcarry ⊢
    omega

theorem bits_eq (len0 len1 : UInt64) :
    be 8 ((len1 <<< 3) ||| (len0 >>> 61)).toNat ++ be 8 (len0 <<< 3).toNat =
      be 16 ((len1.toNat * 2 ^ 64 + len0.toNat) * 8 % 2 ^ 128) := by
  have h0 : len0.toNat < 2 ^ 64 := len0.toNat_lt
  have hlow : (len0 <<< 3).toNat = len0.toNat * 8 % 2 ^ 64 := by
    rw [UInt64.toNat_shiftLeft, Nat.shiftLeft_eq]
    rfl
  have hhigh : ((len1 <<< 3) ||| (len0 >>> 61)).toNat = len1.toNat % 2 ^ 61 * 8 + len0.toNat / 2 ^ 61 := by
    have hshl : (len1 <<< 3).toNat = (len1.toNat % 2 ^ 61) <<< 3 := by
      rw [UInt64.toNat_shiftLeft, Nat.shiftLeft_eq, Nat.shiftLeft_eq]
      show len1.toNat * 8 % 2 ^ 64 = len1.toNat % 2 ^ 61 * 8
      omega
    have hshr : (len0 >>> 61).toNat = len0.toNat / 2 ^ 61 := by
      rw [UInt64.toNat_shiftRight, Nat.shiftRight_eq_div_pow]
      rfl
    rw [UInt64.toNat_or, hshl, hshr, ← Nat.shiftLeft_add_eq_or_of_lt (by omega), Nat.shiftLeft_eq]
  have hdiv : (len1.toNat * 2 ^ 64 + len0.toNat) * 8 % 2 ^ 128 / 256 ^ 8 =
      len1.toNat % 2 ^ 61 * 8 + len0.toNat / 2 ^ 61 := by
    norm_num
    omega
  have hmod : len0.toNat * 8 % 2 ^ 64 = (len1.toNat * 2 ^ 64 + len0.toNat) * 8 % 2 ^ 128 % 256 ^ 8 := by
    norm_num
    omega
  rw [hlow, hhigh, be_split 8 8, hdiv, hmod, be_mod]

variable {c : Sha512Ctx} {data : List Byte} {fuel : Nat}

theorem updateRun_ctx (hdata : data.length < 2 ^ 64) (fuel : Nat) :
    (updateRun fuel c data).map ctx = MerkleDamgard.updateRun sha512Scheme 32 fuel c.ctx data := by
  rw [updateRun, MerkleDamgard.updateRun, Option.map_map, Option.map_map]
  apply congrArg (Option.map · _)
  funext r
  exact congrArg (MerkleDamgard.Ctx.mk _ · _) (count_eq c.len0 c.len1 hdata)

theorem padRun_ctx (fuel n : Nat) (c : Sha512Ctx) :
    (padRun fuel n c).map ctx = MerkleDamgard.padRun sha512Scheme 32 fuel n c.ctx := by
  induction n generalizing c with
  | zero => rfl
  | succ n ih =>
    rw [padRun, MerkleDamgard.padRun, ← updateRun_ctx (by decide)]
    have hsame : c.ctx.buf.length = sha512Scheme.blockSize - sha512Scheme.lenBytes ↔ c.buf.length = 112 := Iff.rfl
    by_cases hstop : c.buf.length = 112
    · rw [if_pos hstop, if_pos (hsame.mpr hstop), Option.map_some]
    · rw [if_neg hstop, if_neg (mt hsame.mp hstop), Option.map_bind, Option.bind_map]
      exact Option.bind_congr fun c _ => ih c

theorem finalRun_ctx (fuel : Nat) (c : Sha512Ctx) :
    finalRun fuel c = MerkleDamgard.finalRun sha512Scheme 32 fuel c.ctx := by
  have hbits := bits_eq c.len0 c.len1
  unfold finalRun MerkleDamgard.finalRun
  simp only [Option.bind_eq_bind]
  rw [← updateRun_ctx (by decide), Option.bind_map]
  apply Option.bind_congr
  intro c1 _
  rw [Function.comp_apply, ← padRun_ctx, Option.bind_map]
  apply Option.bind_congr
  intro c2 _
  rw [Function.comp_apply, hbits, ← updateRun_ctx (by rw [length_be]; decide), Option.bind_map]
  rfl

end Sha512Ctx

/-! ## The three families -/

/-- `SHA1_CTX`, `SHA256_CTX` and `SHA512_CTX`. -/
def ShaCtx : HashId → Type
  | .sha1 => MerkleDamgard.Ctx (List UInt32)
  | .sha256 => MerkleDamgard.Ctx (List UInt32)
  | .sha512 => Sha512Ctx

/-- `sha1_init`, `sha256_init` and `sha512_init`. -/
def shaInit : (id : HashId) → ShaCtx id
  | .sha1 => MerkleDamgard.init sha1Scheme
  | .sha256 => MerkleDamgard.init sha256Scheme
  | .sha512 => Sha512Ctx.init

/-- `sha1_update`, `sha256_update` and `sha512_update`. -/
def shaUpdateRun (fuel : Nat) : {id : HashId} → ShaCtx id → List Byte → Option (ShaCtx id)
  | .sha1, ctx, data => MerkleDamgard.updateRun sha1Scheme 32 fuel ctx data
  | .sha256, ctx, data => MerkleDamgard.updateRun sha256Scheme 32 fuel ctx data
  | .sha512, ctx, data => Sha512Ctx.updateRun fuel ctx data

/-- `sha1_final`, `sha256_final` and `sha512_final`. -/
def shaFinalRun (fuel : Nat) : {id : HashId} → ShaCtx id → Option (List Byte)
  | .sha1, ctx => MerkleDamgard.finalRun sha1Scheme 32 fuel ctx
  | .sha256, ctx => MerkleDamgard.finalRun sha256Scheme 32 fuel ctx
  | .sha512, ctx => Sha512Ctx.finalRun fuel ctx

/-- `buf_len`. -/
def shaBufLen : {id : HashId} → ShaCtx id → Nat
  | .sha1, ctx => ctx.buf.length
  | .sha256, ctx => ctx.buf.length
  | .sha512, ctx => ctx.buf.length

def shaBlockSize : HashId → Nat
  | .sha1 => 64
  | .sha256 => 64
  | .sha512 => 128

/-- The context behind the message `m`. -/
def ShaAbsorbed : {id : HashId} → ShaCtx id → List Byte → Prop
  | .sha1, ctx, m => MerkleDamgard.Absorbed sha1Scheme ctx m
  | .sha256, ctx, m => MerkleDamgard.Absorbed sha256Scheme ctx m
  | .sha512, ctx, m => MerkleDamgard.Absorbed sha512Scheme ctx.ctx m

variable {id : HashId} {ctx : ShaCtx id} {m data : List Byte} {fuel : Nat}

theorem shaAbsorbed_init : ShaAbsorbed (shaInit id) [] := by
  cases id with
  | sha1 => exact MerkleDamgard.absorbed_init
  | sha256 => exact MerkleDamgard.absorbed_init
  | sha512 => exact MerkleDamgard.absorbed_init

theorem ShaAbsorbed.bufLen_eq (h : ShaAbsorbed ctx m) : shaBufLen ctx = m.length % shaBlockSize id := by
  cases id with
  | sha1 => exact MerkleDamgard.Absorbed.length_buf h
  | sha256 => exact MerkleDamgard.Absorbed.length_buf h
  | sha512 => exact MerkleDamgard.Absorbed.length_buf h

/-- One `update` call: its data, with room for one more block below `2 ^ 32`, goes behind the message. -/
theorem ShaAbsorbed.update (h : ShaAbsorbed ctx m) (hroom : data.length + shaBlockSize id < 2 ^ 32)
    (hfuel : data.length < fuel) : ∃ ctx', shaUpdateRun fuel ctx data = some ctx' ∧ ShaAbsorbed ctx' (m ++ data) := by
  cases id with
  | sha1 => exact ⟨_, MerkleDamgard.Absorbed.updateRun_eq h hroom hfuel, MerkleDamgard.Absorbed.update h data⟩
  | sha256 => exact ⟨_, MerkleDamgard.Absorbed.updateRun_eq h hroom hfuel, MerkleDamgard.Absorbed.update h data⟩
  | sha512 =>
    have hrun := Sha512Ctx.updateRun_ctx (c := ctx) (show data.length < 2 ^ 64 by omega) fuel
    rw [MerkleDamgard.Absorbed.updateRun_eq h hroom hfuel] at hrun
    obtain ⟨c, hc, hctx⟩ := Option.map_eq_some_iff.mp hrun
    refine ⟨c, hc, ?_⟩
    show MerkleDamgard.Absorbed sha512Scheme c.ctx (m ++ data)
    rw [hctx]
    exact MerkleDamgard.Absorbed.update h data

/-- Without that room, behind whole blocks, `update` reads behind its data. -/
theorem ShaAbsorbed.update_wraps (h : ShaAbsorbed ctx m) (hm : m.length % shaBlockSize id = 0)
    (hlen : data.length < 2 ^ 32) (hroom : 2 ^ 32 ≤ data.length + shaBlockSize id) (fuel : Nat) :
    shaUpdateRun fuel ctx data = none := by
  cases id with
  | sha1 => exact MerkleDamgard.Absorbed.updateRun_wraps h hm ⟨2 ^ 26, rfl⟩ hlen hroom fuel
  | sha256 => exact MerkleDamgard.Absorbed.updateRun_wraps h hm ⟨2 ^ 26, rfl⟩ hlen hroom fuel
  | sha512 =>
    have hrun := Sha512Ctx.updateRun_ctx (c := ctx) (show data.length < 2 ^ 64 by omega) fuel
    rw [MerkleDamgard.Absorbed.updateRun_wraps h hm ⟨2 ^ 25, rfl⟩ hlen hroom fuel] at hrun
    exact Option.map_eq_none_iff.mp hrun

theorem ShaAbsorbed.final (h : ShaAbsorbed ctx m) (hfuel : 128 < fuel) :
    shaFinalRun fuel ctx = some (fipsDigest id m) := by
  rw [← hashDigest_fips]
  cases id with
  | sha1 =>
    rw [hashDigest, ← MerkleDamgard.final_eq_digest h]
    exact MerkleDamgard.finalRun_eq (by decide) (Nat.lt_of_le_of_lt (by decide) hfuel) h
  | sha256 =>
    rw [hashDigest, ← MerkleDamgard.final_eq_digest h]
    exact MerkleDamgard.finalRun_eq (by decide) (Nat.lt_of_le_of_lt (by decide) hfuel) h
  | sha512 =>
    rw [hashDigest, ← MerkleDamgard.final_eq_digest h]
    exact (Sha512Ctx.finalRun_ctx fuel ctx).trans (MerkleDamgard.finalRun_eq (by decide) hfuel h)

theorem shaBlockSize_le (id : HashId) : shaBlockSize id ≤ 128 := by cases id <;> decide

theorem shaBlockSize_pos (id : HashId) : 0 < shaBlockSize id := by cases id <;> decide

theorem ShaAbsorbed.bufLen_lt (h : ShaAbsorbed ctx m) : shaBufLen ctx < shaBlockSize id := by
  rw [h.bufLen_eq]
  exact Nat.mod_lt _ (shaBlockSize_pos id)

/-! ## Runs -/

theorem ShaAbsorbed.updates (h : ShaAbsorbed ctx m) {chunks : List (List Byte)}
    (hroom : ∀ c ∈ chunks, c.length + shaBlockSize id < 2 ^ 32) (hfuel : 2 ^ 32 ≤ fuel) :
    ∃ ctx', chunks.foldlM (shaUpdateRun fuel) ctx = some ctx' ∧ ShaAbsorbed ctx' (m ++ chunks.flatten) := by
  induction chunks generalizing ctx m with
  | nil => exact ⟨ctx, rfl, by rwa [List.flatten_nil, List.append_nil]⟩
  | cons c chunks ih =>
    have hlen := hroom c List.mem_cons_self
    obtain ⟨ctx1, hrun, h1⟩ : ∃ ctx', shaUpdateRun fuel ctx c = some ctx' ∧ ShaAbsorbed ctx' (m ++ c) :=
      h.update hlen (by omega)
    obtain ⟨ctx2, hrest, h2⟩ := ih h1 fun c' hc' => hroom c' (List.mem_cons_of_mem c hc')
    refine ⟨ctx2, ?_, by rwa [List.flatten_cons, ← List.append_assoc]⟩
    rw [List.foldlM_cons, hrun]
    exact hrest

/-- Every run of `init`, `update` calls and `final` ends, with less than a block in the buffer between the calls, and gives
the digest of the concatenated chunks. -/
theorem sha_streams (id : HashId) (chunks : List (List Byte)) (hchunks : ∀ c ∈ chunks, c.length < 2 ^ 32 - 128) :
    ∃ n, ∀ fuel ≥ n,
      (∀ k, ∃ ctx : ShaCtx id,
        (chunks.take k).foldlM (shaUpdateRun fuel) (shaInit id) = some ctx ∧ shaBufLen ctx < shaBlockSize id) ∧
      (chunks.foldlM (shaUpdateRun fuel) (shaInit id)).bind (shaFinalRun fuel) =
        some (fipsDigest id chunks.flatten) := by
  have hstart : ShaAbsorbed (shaInit id) [] := shaAbsorbed_init
  have hroom : ∀ c ∈ chunks, c.length + shaBlockSize id < 2 ^ 32 := by
    intro c hc
    have hlen := hchunks c hc
    have hB := shaBlockSize_le id
    omega
  refine ⟨2 ^ 32, fun fuel hfuel => ⟨?_, ?_⟩⟩
  · intro k
    obtain ⟨ctx, hrun, h⟩ := hstart.updates (fun c hc => hroom c (List.mem_of_mem_take hc)) hfuel
    exact ⟨ctx, hrun, h.bufLen_lt⟩
  · obtain ⟨ctx, hrun, h⟩ := hstart.updates hroom hfuel
    rw [hrun, Option.bind_some, h.final (by omega), List.nil_append]

theorem sha_streams_abc :
    (∀ c ∈ [[0x61], [], [0x62, (0x63 : Byte)]], c.length < 2 ^ 32 - 128) ∧
    ∃ n, ∀ fuel ≥ n,
      (∀ k, ∃ ctx : ShaCtx .sha256,
        (([[0x61], [], [0x62, 0x63]] : List (List Byte)).take k).foldlM (shaUpdateRun fuel) (shaInit .sha256) = some ctx ∧
          shaBufLen ctx < shaBlockSize .sha256) ∧
      (([[0x61], [], [0x62, 0x63]] : List (List Byte)).foldlM (shaUpdateRun fuel) (shaInit .sha256)).bind
        (shaFinalRun fuel) = some (fipsDigest .sha256 [0x61, 0x62, 0x63]) :=
  ⟨by decide, sha_streams .sha256 [[0x61], [], [0x62, 0x63]] (by decide)⟩

end SakuruBoot

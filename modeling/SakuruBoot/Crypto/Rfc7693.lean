import SakuruBoot.Crypto.Blake2b

/-!
# BLAKE2b after RFC 7693

`Rfc7693.blake2b` is the hash as section 3 of the RFC describes it: the key block and the message are cut into blocks
of 128 bytes, the last one filled with zeros, and compressed in order with the number of bytes so far. The streaming
functions of `crypto/blake2b.c` give that hash of the concatenation of what they are fed (`blake2bFinal_rfc`).
-/

open CStr (Byte)
open Bytes

namespace Rfc7693

def iv : List UInt64 :=
  [0x6a09e667f3bcc908, 0xbb67ae8584caa73b, 0x3c6ef372fe94f82b, 0xa54ff53a5f1d36f1, 0x510e527fade682d1,
    0x9b05688c2b3e6c1f, 0x1f83d9abfb41bd6b, 0x5be0cd19137e2179]

def sigma : List (List Nat) :=
  [[0, 1, 2, 3, 4, 5, 6, 7, 8, 9, 10, 11, 12, 13, 14, 15],
    [14, 10, 4, 8, 9, 15, 13, 6, 1, 12, 0, 2, 11, 7, 5, 3],
    [11, 8, 12, 0, 5, 2, 15, 13, 10, 14, 3, 6, 7, 1, 9, 4],
    [7, 9, 3, 1, 13, 12, 11, 14, 2, 6, 5, 10, 4, 0, 15, 8],
    [9, 0, 5, 7, 2, 4, 10, 15, 14, 1, 11, 12, 6, 8, 3, 13],
    [2, 12, 6, 10, 0, 11, 8, 3, 4, 13, 7, 5, 15, 14, 1, 9],
    [12, 5, 1, 15, 14, 13, 4, 10, 0, 7, 6, 3, 9, 2, 8, 11],
    [13, 11, 7, 14, 12, 1, 3, 9, 5, 0, 15, 4, 8, 6, 2, 10],
    [6, 15, 14, 9, 11, 3, 0, 8, 12, 2, 13, 7, 1, 4, 10, 5],
    [10, 2, 8, 4, 7, 6, 1, 5, 15, 11, 9, 14, 3, 12, 13, 0]]

/-- `x >>> n`. -/
def rotr (x n : UInt64) : UInt64 := (x >>> n) ||| (x <<< (64 - n))

/-- The mixing function `G` on the words `a`, `b`, `c`, `d` of the work vector. -/
def mix (v : List UInt64) (a b c d : Nat) (x y : UInt64) : List UInt64 :=
  let va := v.getD a 0 + v.getD b 0 + x
  let vd := rotr (v.getD d 0 ^^^ va) 32
  let vc := v.getD c 0 + vd
  let vb := rotr (v.getD b 0 ^^^ vc) 24
  let va := va + vb + y
  let vd := rotr (vd ^^^ va) 16
  let vc := vc + vd
  let vb := rotr (vb ^^^ vc) 63
  (((v.set a va).set b vb).set c vc).set d vd

def round (m : List UInt64) (v : List UInt64) (i : Nat) : List UInt64 :=
  let s := sigma.getD (i % 10) []
  let w := fun k => m.getD (s.getD k 0) 0
  let v := mix v 0 4 8 12 (w 0) (w 1)
  let v := mix v 1 5 9 13 (w 2) (w 3)
  let v := mix v 2 6 10 14 (w 4) (w 5)
  let v := mix v 3 7 11 15 (w 6) (w 7)
  let v := mix v 0 5 10 15 (w 8) (w 9)
  let v := mix v 1 6 11 12 (w 10) (w 11)
  let v := mix v 2 7 8 13 (w 12) (w 13)
  mix v 3 4 9 14 (w 14) (w 15)

/-- The compression function `F`; `t` is the 128-bit offset counter. -/
def compress (h m : List UInt64) (t : Nat) (last : Bool) : List UInt64 :=
  let v := h ++ iv
  let v := v.set 12 (v.getD 12 0 ^^^ t.toUInt64)
  let v := v.set 13 (v.getD 13 0 ^^^ (t / 2 ^ 64).toUInt64)
  let v := if last then v.set 14 (v.getD 14 0 ^^^ 0xFFFFFFFFFFFFFFFF) else v
  let v := (List.range 12).foldl (round m) v
  (List.range 8).map fun i => h.getD i 0 ^^^ v.getD i 0 ^^^ v.getD (i + 8) 0

/-- The words of the `i`-th block of the data. -/
def block (data : List Byte) (i : Nat) : List UInt64 :=
  (List.range 16).map fun k => (leVal (slice (fit (data.drop (128 * i)) 128) (8 * k) 8)).toUInt64

/-- The blocks before the last one. -/
def front (data : List Byte) : Nat := (data.length - 1) / 128

/-- The chaining value behind `n` blocks. -/
def chain (h : List UInt64) (data : List Byte) (n : Nat) : List UInt64 :=
  (List.range n).foldl (fun h i => compress h (block data i) (128 * (i + 1)) false) h

def start (nn kk : Nat) : List UInt64 :=
  iv.set 0 (iv.getD 0 0 ^^^ (0x01010000 : UInt64) ^^^ (kk.toUInt64 <<< 8) ^^^ nn.toUInt64)

/-- The hash of `nn` bytes under a key, which may be empty. -/
def blake2b (nn : Nat) (key msg : List Byte) : List Byte :=
  let data := (if key = [] then [] else fit key 128) ++ msg
  let h := chain (start nn key.length) data (front data)
  let h := compress h (block data (front data)) data.length true
  (h.flatMap fun w => le 8 w.toNat).take nn

end Rfc7693

namespace SakuruBoot

/-! ## The compression function -/

theorem blake2bG_rfc (x y : UInt64) (v : List UInt64) (a b c d : Nat) :
    blake2bG x y v a b c d = Rfc7693.mix v a b c d x y := rfl

theorem blake2bRound_rfc (m v : List UInt64) (i : Nat) :
    blake2bRound m v (Rfc7693.sigma.getD (i % 10) []) = Rfc7693.round m v i := by
  unfold blake2bRound blake2bLanes Rfc7693.round
  generalize Rfc7693.sigma.getD (i % 10) [] = s
  simp only [List.zipIdx_cons, List.zipIdx_nil, List.foldl_cons, List.foldl_nil, blake2bG_rfc, Nat.reduceAdd,
    Nat.reduceMul, Nat.mul_zero, Nat.zero_add]

theorem blake2bSigma_rfc : blake2bSigma = (List.range 12).map fun i => Rfc7693.sigma.getD (i % 10) [] := by decide

theorem not_eq_xor (x : UInt64) : ~~~x = x ^^^ 0xFFFFFFFFFFFFFFFF := by
  apply UInt64.toBitVec_inj.mp
  exact (BitVec.xor_allOnes).symm

/-- The counter of a context. -/
structure Blake2bCtx.Counts (ctx : Blake2bCtx) (t : Nat) : Prop where
  low : ctx.t0 = t.toUInt64
  high : ctx.t1 = (t / 2 ^ 64).toUInt64

theorem blake2bCompress_rfc {ctx : Blake2bCtx} {t : Nat} (h : ctx.Counts t) (blk : List Byte) (last : Bool) :
    blake2bCompress ctx blk last = Rfc7693.compress ctx.h ((List.range 16).map (le64 blk)) t last := by
  have hrounds : ∀ m v : List UInt64, blake2bSigma.foldl (blake2bRound m) v =
      (List.range 12).foldl (Rfc7693.round m) v := by
    intro m v
    rw [blake2bSigma_rfc, List.foldl_map]
    simp only [blake2bRound_rfc]
  unfold blake2bCompress Rfc7693.compress
  simp only [h.low, h.high, hrounds, not_eq_xor, Nat.add_comm 8]
  rfl

theorem Blake2bCtx.Counts.count {ctx : Blake2bCtx} {t n : Nat} (h : ctx.Counts t) (hn : n < 2 ^ 64) :
    (ctx.count n).Counts (t + n) := by
  have hlow : (ctx.count n).t0 = (t + n).toUInt64 := by
    show ctx.t0 + n.toUInt64 = _
    rw [h.low]
    exact (UInt64.ofNat_add t n).symm
  refine ⟨hlow, ?_⟩
  -- the carry is seen by the low word being smaller than what was added
  show (if ctx.t0 + n.toUInt64 < n.toUInt64 then ctx.t1 + 1 else ctx.t1) = _
  have hcarry : ctx.t0 + n.toUInt64 < n.toUInt64 ↔ 2 ^ 64 ≤ t % 2 ^ 64 + n := by
    rw [show ctx.t0 + n.toUInt64 = (t + n).toUInt64 from hlow, UInt64.lt_iff_toNat_lt, UInt64.toNat_ofNat',
      UInt64.toNat_ofNat']
    omega
  simp only [hcarry, h.high]
  split_ifs with hc
  · apply UInt64.toNat_inj.mp
    rw [UInt64.toNat_add, UInt64.toNat_ofNat', UInt64.toNat_ofNat', UInt64.toNat_one]
    omega
  · congr 1
    omega

/-! ## Streaming -/

theorem blake2bUpdate_append (ctx : Blake2bCtx) (xs ys : List Byte) :
    blake2bUpdate ctx (xs ++ ys) = blake2bUpdate (blake2bUpdate ctx xs) ys := by
  induction xs generalizing ctx with
  | nil => rfl
  | cons x xs ih => exact ih _

theorem fit_drop_append {data : List Byte} {i : Nat} (h : 128 * (i + 1) ≤ data.length) (more : List Byte) :
    fit ((data ++ more).drop (128 * i)) 128 = fit (data.drop (128 * i)) 128 := by
  rw [List.drop_append_of_le_length (by omega), fit, fit,
    List.take_append_of_le_length (by rw [List.length_drop]; omega), List.length_append, List.length_drop]
  have hleft : 128 - (data.length - 128 * i + more.length) = 128 - (data.length - 128 * i) := by omega
  rw [hleft]

theorem rfcBlock_append {data : List Byte} {i : Nat} (h : 128 * (i + 1) ≤ data.length) (more : List Byte) :
    Rfc7693.block (data ++ more) i = Rfc7693.block data i := by
  rw [Rfc7693.block, Rfc7693.block, fit_drop_append h]

theorem rfcChain_succ (start : List UInt64) (data : List Byte) (n : Nat) : Rfc7693.chain start data (n + 1) =
    Rfc7693.compress (Rfc7693.chain start data n) (Rfc7693.block data n) (128 * (n + 1)) false := by
  unfold Rfc7693.chain
  rw [List.range_succ, List.foldl_append, List.foldl_cons, List.foldl_nil]

theorem rfcChain_append {data : List Byte} {n : Nat} (h : 128 * n ≤ data.length) (start : List UInt64)
    (more : List Byte) : Rfc7693.chain start (data ++ more) n = Rfc7693.chain start data n := by
  induction n with
  | zero => rw [Rfc7693.chain, Rfc7693.chain, List.range_zero, List.foldl_nil, List.foldl_nil]
  | succ n ih => rw [rfcChain_succ, rfcChain_succ, ih (by omega), rfcBlock_append h]

/-- The context after some data: all blocks but the last are compressed. -/
structure Absorbed (nn : Nat) (start : List UInt64) (data : List Byte) (ctx : Blake2bCtx) : Prop where
  outLen : ctx.outLen = nn
  h : ctx.h = Rfc7693.chain start data (Rfc7693.front data)
  counts : ctx.Counts (128 * Rfc7693.front data)
  buf : ctx.buf = data.drop (128 * Rfc7693.front data)

variable {nn : Nat} {start : List UInt64} {data : List Byte} {ctx : Blake2bCtx}

theorem Absorbed.step (h : Absorbed nn start data ctx) (b : Byte) :
    Absorbed nn start (data ++ [b]) (blake2bUpdate ctx [b]) := by
  have hbuf := congrArg List.length h.buf
  rw [List.length_drop] at hbuf
  have hfront : Rfc7693.front data = (data.length - 1) / 128 := rfl
  have hfront' : Rfc7693.front (data ++ [b]) = data.length / 128 := by simp [Rfc7693.front]
  have hupdate : blake2bUpdate ctx [b] =
      let ctx := if ctx.buf.length = 128 then
        { ctx.count 128 with h := blake2bCompress (ctx.count 128) (ctx.count 128).buf false, buf := [] } else ctx
      { ctx with buf := ctx.buf ++ [b] } := rfl
  rw [hupdate]
  by_cases hfull : ctx.buf.length = 128
  · -- the buffered block is complete and not the last one any more
    have hnext : Rfc7693.front (data ++ [b]) = Rfc7693.front data + 1 := by omega
    rw [if_pos hfull]
    have hcount := h.counts.count (n := 128) (by omega)
    refine ⟨h.outLen, ?_, ?_, ?_⟩
    · show blake2bCompress (ctx.count 128) ctx.buf false = _
      have hfit : fit (data.drop (128 * Rfc7693.front data)) 128 = ctx.buf := by rw [← h.buf, fit_of_length hfull]
      have hblock : (List.range 16).map (le64 ctx.buf) = Rfc7693.block data (Rfc7693.front data) := by
        rw [Rfc7693.block, hfit]
        rfl
      have hh : (ctx.count 128).h = Rfc7693.chain start data (Rfc7693.front data) := h.h
      rw [blake2bCompress_rfc hcount, hblock, hnext, rfcChain_succ, rfcBlock_append (by omega),
        rfcChain_append (by omega), hh, Nat.mul_succ]
    · rw [hnext, Nat.mul_succ]
      exact ⟨hcount.low, hcount.high⟩
    · show [] ++ [b] = _
      rw [hnext, List.drop_append, List.drop_eq_nil_of_le (by omega)]
      have hzero : 128 * (Rfc7693.front data + 1) - data.length = 0 := by omega
      rw [hzero, List.drop_zero]
  · rw [if_neg hfull]
    have hsame : Rfc7693.front (data ++ [b]) = Rfc7693.front data := by omega
    refine ⟨h.outLen, ?_, ?_, ?_⟩
    · rw [hsame, rfcChain_append (by omega)]
      exact h.h
    · rw [hsame]
      exact ⟨h.counts.low, h.counts.high⟩
    · show ctx.buf ++ [b] = _
      rw [hsame, List.drop_append_of_le_length (by omega), h.buf]

theorem Absorbed.update (h : Absorbed nn start data ctx) (more : List Byte) :
    Absorbed nn start (data ++ more) (blake2bUpdate ctx more) := by
  induction more using List.reverseRecOn with
  | nil =>
    rw [List.append_nil]
    exact h
  | append_singleton more b ih =>
    rw [← List.append_assoc, blake2bUpdate_append]
    exact ih.step b

theorem Absorbed.updates (h : Absorbed nn start data ctx) (chunks : List (List Byte)) :
    Absorbed nn start (data ++ chunks.flatten) (chunks.foldl blake2bUpdate ctx) := by
  induction chunks generalizing data ctx with
  | nil =>
    rw [List.flatten_nil, List.append_nil]
    exact h
  | cons chunk chunks ih =>
    rw [List.flatten_cons, ← List.append_assoc]
    exact ih (h.update chunk)

theorem Absorbed.counts_final (h : Absorbed nn start data ctx) : (ctx.count ctx.buf.length).Counts data.length := by
  have hfront : Rfc7693.front data = (data.length - 1) / 128 := rfl
  have hbuf := congrArg List.length h.buf
  rw [List.length_drop] at hbuf
  have hcount := h.counts.count (n := ctx.buf.length) (by omega)
  have htotal : 128 * Rfc7693.front data + ctx.buf.length = data.length := by omega
  rwa [htotal] at hcount

theorem Absorbed.final (h : Absorbed nn start data ctx) : blake2bFinal ctx =
    ((Rfc7693.compress (Rfc7693.chain start data (Rfc7693.front data)) (Rfc7693.block data (Rfc7693.front data))
      data.length true).flatMap fun w => le 8 w.toNat).take nn := by
  have hblock : (List.range 16).map (le64 (fit ctx.buf 128)) = Rfc7693.block data (Rfc7693.front data) := by
    rw [Rfc7693.block, h.buf]
    rfl
  have hh : (ctx.count ctx.buf.length).h = Rfc7693.chain start data (Rfc7693.front data) := h.h
  show (putLe64 (blake2bCompress (ctx.count ctx.buf.length) (fit ctx.buf 128) true)).take ctx.outLen = _
  rw [blake2bCompress_rfc h.counts_final, hblock, hh, h.outLen, putLe64]

theorem absorbed_init (nn : Nat) (key : List Byte) :
    Absorbed nn (Rfc7693.start nn key.length) (if key = [] then [] else fit key 128) (blake2bInit nn key) := by
  have hfront : Rfc7693.front (if key = [] then [] else fit key 128) = 0 := by
    rw [Rfc7693.front]
    split_ifs
    · rfl
    · rw [length_fit]
  refine ⟨rfl, ?_, ?_, ?_⟩
  · rw [hfront, Rfc7693.chain, List.range_zero, List.foldl_nil]
    rfl
  · rw [hfront]
    exact ⟨rfl, rfl⟩
  · rw [hfront, Nat.mul_zero, List.drop_zero]
    show (if key.isEmpty then [] else fit key 128) = _
    simp only [List.isEmpty_iff]

/-- What is given as key and data to the functions is hashed as the RFC says, however it is divided. -/
theorem blake2bFinal_rfc (nn : Nat) (key : List Byte) (chunks : List (List Byte)) :
    blake2bFinal (chunks.foldl blake2bUpdate (blake2bInit nn key)) = Rfc7693.blake2b nn key chunks.flatten :=
  ((absorbed_init nn key).updates chunks).final

theorem blake2b_rfc (nn : Nat) (key msg : List Byte) : blake2b msg key nn = Rfc7693.blake2b nn key msg := by
  have h := blake2bFinal_rfc nn key [msg]
  rw [List.flatten_cons, List.flatten_nil, List.append_nil] at h
  exact h

end SakuruBoot

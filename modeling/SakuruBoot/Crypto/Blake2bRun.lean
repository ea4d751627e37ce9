import SakuruBoot.Crypto.Rfc7693
import SakuruBoot.Lib.Traced

/-!
# The compressions of a BLAKE2b run

The streaming functions of `crypto/blake2b.c` with the calls of `blake2b_compress` reported: the counter, the block and
the flag of each. A run compresses the blocks of key block and message in order, every one with the number of bytes up to
its end, and only the last one, which may be full or empty, with the flag (`blake2b_streams`).
-/

namespace SakuruBoot
open CStr (Byte)
open Bytes

/-- A call of `blake2b_compress`. -/
structure CompressCall where
  t0 : UInt64
  t1 : UInt64
  blk : List Byte
  last : Bool

def blake2bCompressTr (ctx : Blake2bCtx) (blk : List Byte) (last : Bool) : Traced CompressCall (List UInt64) := do
  Traced.emit { t0 := ctx.t0, t1 := ctx.t1, blk := blk, last := last }
  return blake2bCompress ctx blk last

/-- A full buffer is compressed before the next byte. -/
def blake2bRoomTr (ctx : Blake2bCtx) : Traced CompressCall Blake2bCtx :=
  if ctx.buf.length = 128 then do
    let ctx := ctx.count 128
    let h ← blake2bCompressTr ctx ctx.buf false
    return { ctx with h := h, buf := [] }
  else pure ctx

def blake2bUpdateTr : Blake2bCtx → List Byte → Traced CompressCall Blake2bCtx
  | ctx, [] => pure ctx
  | ctx, b :: input => do
    let ctx ← blake2bRoomTr ctx
    blake2bUpdateTr { ctx with buf := ctx.buf ++ [b] } input

def blake2bFinalTr (ctx : Blake2bCtx) : Traced CompressCall (List Byte) := do
  let ctx := ctx.count ctx.buf.length
  let h ← blake2bCompressTr ctx (fit ctx.buf 128) true
  return (putLe64 h).take ctx.outLen

/-- `blake2b_init`, the updates and `blake2b_final`. -/
def blake2bRunTr (outLen : Nat) (key : List Byte) (chunks : List (List Byte)) : Traced CompressCall (List Byte) := do
  let ctx ← chunks.foldlM blake2bUpdateTr (blake2bInit outLen key)
  blake2bFinalTr ctx

/-! ## The results -/

theorem blake2bUpdateTr_val (ctx : Blake2bCtx) (input : List Byte) :
    (blake2bUpdateTr ctx input).val = blake2bUpdate ctx input := by
  induction input generalizing ctx with
  | nil => rfl
  | cons b input ih =>
    rw [blake2bUpdateTr, Traced.val_bind, ih, blake2bUpdate, blake2bRoomTr]
    split_ifs <;> rfl

theorem blake2bUpdatesTr_val (ctx : Blake2bCtx) (chunks : List (List Byte)) :
    (chunks.foldlM blake2bUpdateTr ctx).val = chunks.foldl blake2bUpdate ctx :=
  Traced.val_foldlM blake2bUpdateTr_val ctx

theorem blake2bRunTr_val (outLen : Nat) (key : List Byte) (chunks : List (List Byte)) :
    (blake2bRunTr outLen key chunks).val = blake2bFinal (chunks.foldl blake2bUpdate (blake2bInit outLen key)) := by
  rw [blake2bRunTr, Traced.val_bind, blake2bUpdatesTr_val]
  rfl

/-! ## The calls -/

/-- The data of a hash: the key block, if there is a key, and the message. -/
def blake2bData (key msg : List Byte) : List Byte := (if key = [] then [] else fit key 128) ++ msg

/-- The call for the block at `128 * i`, with `t` bytes compressed behind it. -/
def blockCall (data : List Byte) (i t : Nat) (last : Bool) : CompressCall :=
  { t0 := t.toUInt64, t1 := (t / 2 ^ 64).toUInt64, blk := fit (data.drop (128 * i)) 128, last := last }

variable {nn : Nat} {start : List UInt64} {data : List Byte} {ctx : Blake2bCtx}

theorem blockCall_append {i : Nat} (h : 128 * (i + 1) ≤ data.length) (more : List Byte) (t : Nat) (last : Bool) :
    blockCall (data ++ more) i t last = blockCall data i t last := by
  rw [blockCall, blockCall, fit_drop_append h]

/-- The calls of the blocks from `a` to `b`. -/
def blockCalls (data : List Byte) (a b : Nat) : List CompressCall :=
  (List.range' a (b - a)).map fun i => blockCall data i (128 * (i + 1)) false

theorem blockCalls_split {a b c : Nat} (hab : a ≤ b) (hbc : b ≤ c) :
    blockCalls data a c = blockCalls data a b ++ blockCalls data b c := by
  have hsum : c - a = (b - a) + (c - b) := by omega
  have hb : b = a + (b - a) := by omega
  rw [blockCalls, blockCalls, blockCalls, hsum, ← List.range'_append_1, List.map_append, ← hb]

theorem front_mono (data more : List Byte) : Rfc7693.front data ≤ Rfc7693.front (data ++ more) := by
  rw [Rfc7693.front, Rfc7693.front, List.length_append]
  exact Nat.div_le_div_right (by omega)

theorem blockCalls_append {a b : Nat} (hb : b ≤ Rfc7693.front data) (more : List Byte) :
    blockCalls (data ++ more) a b = blockCalls data a b := by
  apply List.map_congr_left
  intro i hi
  have hi := List.mem_range'_1.mp hi
  have hfront : Rfc7693.front data = (data.length - 1) / 128 := rfl
  exact blockCall_append (by omega) more _ _

theorem Absorbed.events_room (h : Absorbed nn start data ctx) (b : Byte) : (blake2bRoomTr ctx).events =
    blockCalls (data ++ [b]) (Rfc7693.front data) (Rfc7693.front (data ++ [b])) := by
  have hbuf := congrArg List.length h.buf
  rw [List.length_drop] at hbuf
  have hfront : Rfc7693.front data = (data.length - 1) / 128 := rfl
  have hfront' : Rfc7693.front (data ++ [b]) = data.length / 128 := by simp [Rfc7693.front]
  rw [blake2bRoomTr]
  split_ifs with hfull
  · have hnext : Rfc7693.front (data ++ [b]) = Rfc7693.front data + 1 := by omega
    have hcount := h.counts.count (n := 128) (by omega)
    have hcall : blockCall (data ++ [b]) (Rfc7693.front data) (128 * (Rfc7693.front data + 1)) false =
        { t0 := (ctx.count 128).t0, t1 := (ctx.count 128).t1, blk := ctx.buf, last := false } := by
      rw [blockCall_append (by omega), blockCall, hcount.low, hcount.high, ← h.buf, fit_of_length hfull, Nat.mul_succ]
    rw [hnext, blockCalls, Nat.add_sub_cancel_left, List.range'_one, List.map_singleton, hcall]
    rfl
  · have hsame : Rfc7693.front (data ++ [b]) = Rfc7693.front data := by omega
    rw [hsame, blockCalls, Nat.sub_self]
    rfl

theorem Absorbed.events_update (h : Absorbed nn start data ctx) (more : List Byte) :
    (blake2bUpdateTr ctx more).events =
      blockCalls (data ++ more) (Rfc7693.front data) (Rfc7693.front (data ++ more)) := by
  induction more generalizing data ctx with
  | nil =>
    rw [List.append_nil, blockCalls, Nat.sub_self]
    rfl
  | cons b more ih =>
    have hsplit : data ++ b :: more = data ++ [b] ++ more := by rw [List.append_assoc, List.singleton_append]
    have hstep : { (blake2bRoomTr ctx).val with buf := (blake2bRoomTr ctx).val.buf ++ [b] } = blake2bUpdate ctx [b] :=
      blake2bUpdateTr_val ctx [b]
    rw [blake2bUpdateTr, Traced.events_bind, hstep, ih (h.step b), h.events_room b, hsplit,
      blockCalls_split (front_mono data [b]) (front_mono (data ++ [b]) more), blockCalls_append (le_refl _) more]

theorem Absorbed.events_updates (h : Absorbed nn start data ctx) (chunks : List (List Byte)) :
    (chunks.foldlM blake2bUpdateTr ctx).events =
      blockCalls (data ++ chunks.flatten) (Rfc7693.front data) (Rfc7693.front (data ++ chunks.flatten)) := by
  induction chunks generalizing data ctx with
  | nil =>
    rw [List.flatten_nil, List.append_nil, blockCalls, Nat.sub_self]
    rfl
  | cons chunk chunks ih =>
    rw [List.foldlM_cons, Traced.events_bind, blake2bUpdateTr_val, ih (h.update chunk), h.events_update chunk,
      List.flatten_cons, ← List.append_assoc,
      blockCalls_split (front_mono data chunk) (front_mono (data ++ chunk) chunks.flatten),
      blockCalls_append (le_refl _) chunks.flatten]

/-- What is left in the buffer goes, filled with zeros, into the one call with the flag. -/
theorem Absorbed.events_final (h : Absorbed nn start data ctx) :
    (blake2bFinalTr ctx).events = [blockCall data (Rfc7693.front data) data.length true] := by
  have hcount := h.counts_final
  rw [blockCall, ← hcount.low, ← hcount.high, ← h.buf]
  rfl

/-- For every length, key and division of the message: the hash of the RFC, from the blocks of the data in order, each
with the number of bytes compressed behind it, and the last one alone with the flag. -/
theorem blake2b_streams (outLen : Nat) (key : List Byte) (chunks : List (List Byte)) :
    (blake2bRunTr outLen key chunks).val = Rfc7693.blake2b outLen key chunks.flatten ∧
      (blake2bRunTr outLen key chunks).events =
        ((List.range (Rfc7693.front (blake2bData key chunks.flatten))).map fun i =>
          blockCall (blake2bData key chunks.flatten) i (128 * (i + 1)) false) ++
        [blockCall (blake2bData key chunks.flatten) (Rfc7693.front (blake2bData key chunks.flatten))
          (blake2bData key chunks.flatten).length true] := by
  have hstart := absorbed_init outLen key
  have hzero : Rfc7693.front (if key = [] then [] else fit key 128) = 0 := by
    rw [Rfc7693.front]
    split_ifs
    · rfl
    · rw [length_fit]
  refine ⟨(blake2bRunTr_val outLen key chunks).trans (blake2bFinal_rfc outLen key chunks), ?_⟩
  rw [blake2bRunTr, Traced.events_bind, hstart.events_updates chunks, blake2bUpdatesTr_val,
    (hstart.updates chunks).events_final, hzero, List.range_eq_range', blockCalls, Nat.sub_zero]
  rfl

end SakuruBoot

import SakuruBoot.Lib.CountedLoop
import SakuruBoot.Lib.MerkleDamgard

/-!
# Streaming block hashes with counters of fixed width

`update` and `final` as C code runs them: the position in the data is a number of `w` bits, and the padding loop goes on
until the buffer has the length it waits for. While the position does not wrap these are `update` and `final` of the
scheme (`updateRun_eq`, `finalRun_eq`); where it wraps, `update` goes on behind the data (`updateRun_wraps`).
-/

namespace MerkleDamgard
open CStr (Byte)
open CountedLoop

variable {σ : Type} (H : Scheme σ) (w : Nat)

/-- `block(ctx, data + i)`; `none` when the data ends before the block. -/
def blockAt (data : List Byte) (i : Nat) (h : σ) : Option σ :=
  if i + H.blockSize ≤ data.length then some (H.compress h (Bytes.slice data i H.blockSize)) else none

/-- The data that goes into a buffer that is not empty. -/
def headLen (ctx : Ctx σ) (data : List Byte) : Nat :=
  if ctx.buf.isEmpty then 0 else min data.length (H.blockSize - ctx.buf.length)

/-- The chaining value and the buffer behind them. -/
def head (ctx : Ctx σ) (data : List Byte) : σ × List Byte :=
  let buf := ctx.buf ++ data.take (headLen H ctx data)
  if buf.length = H.blockSize then (H.compress ctx.h buf, []) else (ctx.h, buf)

/-- `update` on a context; `none` when it reads behind the data. -/
def updateRun (fuel : Nat) (ctx : Ctx σ) (data : List Byte) : Option (Ctx σ) :=
  let start := head H ctx data
  (countedLoop w H.blockSize data.length (blockAt H data) fuel (headLen H ctx data) start.1).map fun r =>
    { h := r.2
      len := (ctx.len + data.length) % 2 ^ (8 * H.lenBytes)
      buf := start.2 ++ data.drop r.1 }

/-- `while (buf_len != B - lenBytes) update(0)`. -/
def padRun (fuel : Nat) : Nat → Ctx σ → Option (Ctx σ)
  | 0, _ => none
  | n + 1, ctx =>
    if ctx.buf.length = H.blockSize - H.lenBytes then some ctx else (updateRun H w fuel ctx [0]).bind (padRun fuel n)

def finalRun (fuel : Nat) (ctx : Ctx σ) : Option (List Byte) := do
  let bits := ctx.len * 8 % 2 ^ (8 * H.lenBytes)
  let ctx ← updateRun H w fuel ctx [0x80]
  let ctx ← padRun H w fuel fuel ctx
  let ctx ← updateRun H w fuel ctx (Bytes.be H.lenBytes bits)
  return H.output ctx.h

/-- The position of `update` does not wrap on this data. -/
def FitsCounter (ctx : Ctx σ) (data : List Byte) : Prop :=
  headLen H ctx data + ((data.length - headLen H ctx data) / H.blockSize + 1) * H.blockSize < 2 ^ w

variable {H w} {ctx : Ctx σ} {data m : List Byte} {fuel : Nat}

theorem headLen_le : headLen H ctx data ≤ data.length := by
  unfold headLen
  split_ifs
  · exact Nat.zero_le _
  · exact Nat.min_le_left _ _

theorem fitsCounter_of_lt (h : data.length + H.blockSize < 2 ^ w) : FitsCounter H w ctx data := by
  have hle : headLen H ctx data ≤ data.length := headLen_le
  have hdiv := Nat.div_mul_le_self (data.length - headLen H ctx data) H.blockSize
  unfold FitsCounter
  rw [Nat.add_mul, Nat.one_mul]
  omega

theorem fitsCounter_iff_of_empty (hempty : ctx.buf.length = 0) (hdvd : H.blockSize ∣ 2 ^ w) :
    FitsCounter H w ctx data ↔ data.length + H.blockSize < 2 ^ w := by
  constructor
  · intro h
    have hzero : headLen H ctx data = 0 := by rw [headLen, List.length_eq_zero_iff.mp hempty, List.isEmpty_nil, if_pos rfl]
    have hlt := Nat.lt_mul_div_succ data.length (blockSize_pos H)
    obtain ⟨q, hq⟩ := hdvd
    rw [FitsCounter, hzero, Nat.zero_add, Nat.sub_zero, hq, Nat.mul_comm] at h
    -- both sides are whole blocks, so there is a block between them
    have hstep := Nat.mul_le_mul_left H.blockSize (Nat.succ_le_of_lt (Nat.lt_of_mul_lt_mul_left h))
    rw [Nat.mul_succ] at hstep
    omega
  · exact fitsCounter_of_lt

theorem update_eq_head (hbuf : ctx.buf.length < H.blockSize) : update H ctx data =
    { h := (absorb H (head H ctx data).1 (data.drop (headLen H ctx data))).1
      len := (ctx.len + data.length) % 2 ^ (8 * H.lenBytes)
      buf := (head H ctx data).2 ++ (absorb H (head H ctx data).1 (data.drop (headLen H ctx data))).2 } := by
  unfold update head headLen
  dsimp only
  by_cases hnil : ctx.buf.isEmpty
  · have hne : ¬ (ctx.buf ++ data.take 0).length = H.blockSize := by
      rw [List.take_zero, List.append_nil]
      omega
    rw [if_pos hnil, if_pos hnil, if_neg hne, List.take_zero, List.append_nil, List.isEmpty_iff.mp hnil]
    rfl
  · rw [if_neg hnil, if_neg hnil]
    split_ifs <;> rfl

theorem absorbBlocks_succ (n : Nat) (h : σ) (d : List Byte) : (absorbBlocks H (n + 1) h d).1 =
    H.compress (absorbBlocks H n h d).1 (Bytes.slice d (n * H.blockSize) H.blockSize) := by
  rw [absorbBlocks_add, absorbBlocks_snd]
  rfl

theorem blockAt_absorbBlocks {k : Nat} (h : σ) (hle : headLen H ctx data ≤ data.length)
    (hk : k < (data.length - headLen H ctx data) / H.blockSize) :
    blockAt H data (headLen H ctx data + k * H.blockSize) (absorbBlocks H k h (data.drop (headLen H ctx data))).1 =
      some (absorbBlocks H (k + 1) h (data.drop (headLen H ctx data))).1 := by
  have hin : (k + 1) * H.blockSize ≤ data.length - headLen H ctx data :=
    (Nat.le_div_iff_mul_le (blockSize_pos H)).mp hk
  rw [Nat.add_mul, Nat.one_mul] at hin
  have hslice : Bytes.slice (data.drop (headLen H ctx data)) (k * H.blockSize) H.blockSize =
      Bytes.slice data (headLen H ctx data + k * H.blockSize) H.blockSize := by
    rw [Bytes.slice, Bytes.slice, List.drop_drop]
  rw [blockAt, if_pos (by omega), absorbBlocks_succ, hslice]

/-- `update` while the position does not wrap. -/
theorem updateRun_eq (hbuf : ctx.buf.length < H.blockSize) (hwrap : FitsCounter H w ctx data) (hfuel : data.length < fuel) :
    updateRun H w fuel ctx data = some (update H ctx data) := by
  have hle : headLen H ctx data ≤ data.length := headLen_le
  have hB := blockSize_pos H
  have hdiv := Nat.div_mul_le_self (data.length - headLen H ctx data) H.blockSize
  have hmod := Nat.lt_mul_div_succ (data.length - headLen H ctx data) hB
  have hself := Nat.div_le_self (data.length - headLen H ctx data) H.blockSize
  have hrun : countedLoop w H.blockSize data.length (blockAt H data) _ (headLen H ctx data)
      (absorbBlocks H 0 (head H ctx data).1 (data.drop (headLen H ctx data))).1 = some _ :=
    countedLoop_run (fun k => (absorbBlocks H k (head H ctx data).1 (data.drop (headLen H ctx data))).1)
      (fun k hk => blockAt_absorbBlocks _ hle hk) (by omega) (by rw [Nat.mul_comm]; omega) hwrap
  have hmore := countedLoop_mono hrun (show _ ≤ fuel by omega)
  have habsorb : absorb H (head H ctx data).1 (data.drop (headLen H ctx data)) =
      absorbBlocks H ((data.length - headLen H ctx data) / H.blockSize) (head H ctx data).1
        (data.drop (headLen H ctx data)) := by
    rw [absorb, List.length_drop]
  rw [updateRun, update_eq_head hbuf, habsorb, absorbBlocks_snd, List.drop_drop]
  exact congrArg (Option.map _) hmore

theorem updateRun_wraps (hlen : data.length < 2 ^ w) (hB : H.blockSize ≤ 2 ^ w) (hwrap : ¬ FitsCounter H w ctx data)
    (fuel : Nat) : updateRun H w fuel ctx data = none := by
  have hle : headLen H ctx data ≤ data.length := headLen_le
  have hdiv := Nat.div_mul_le_self (data.length - headLen H ctx data) H.blockSize
  have hwrap' := Nat.not_lt.mp hwrap
  have hsplit := Nat.add_mul ((data.length - headLen H ctx data) / H.blockSize) 1 H.blockSize
  have hnone : countedLoop w H.blockSize data.length (blockAt H data) fuel (headLen H ctx data)
      (absorbBlocks H 0 (head H ctx data).1 (data.drop (headLen H ctx data))).1 = none :=
    countedLoop_wraps (fun k => (absorbBlocks H k (head H ctx data).1 (data.drop (headLen H ctx data))).1)
      (fun k hk => blockAt_absorbBlocks _ hle hk) (by omega) hlen hB hwrap' (if_neg (by omega)) fuel
  exact congrArg (Option.map _) hnone

theorem Absorbed.length_buf_lt (h : Absorbed H ctx m) : ctx.buf.length < H.blockSize := by
  rw [h.length_buf]
  exact Nat.mod_lt _ (blockSize_pos H)

theorem Absorbed.updateRun_eq (h : Absorbed H ctx m) (hroom : data.length + H.blockSize < 2 ^ w)
    (hfuel : data.length < fuel) :
    MerkleDamgard.updateRun H w fuel ctx data = some (MerkleDamgard.update H ctx data) :=
  MerkleDamgard.updateRun_eq h.length_buf_lt (fitsCounter_of_lt hroom) hfuel

/-- Behind whole blocks, data without room for one more block is left behind. -/
theorem Absorbed.updateRun_wraps (h : Absorbed H ctx m) (hm : m.length % H.blockSize = 0) (hdvd : H.blockSize ∣ 2 ^ w)
    (hlen : data.length < 2 ^ w) (hroom : 2 ^ w ≤ data.length + H.blockSize) (fuel : Nat) :
    MerkleDamgard.updateRun H w fuel ctx data = none := by
  have hempty : ctx.buf.length = 0 := by rw [h.length_buf, hm]
  apply MerkleDamgard.updateRun_wraps hlen (Nat.le_of_dvd (by positivity) hdvd) _ fuel
  rw [fitsCounter_iff_of_empty hempty hdvd]
  exact Nat.not_lt.mpr hroom

/-! ## The padding loop -/

theorem padZeros_stop (hstop : ctx.buf.length = H.blockSize - H.lenBytes) (n : Nat) : padZeros H n ctx = ctx := by
  cases n with
  | zero => rfl
  | succ n => rw [padZeros, if_pos hstop]

theorem padRun_eq (hw : 1 + H.blockSize < 2 ^ w) (hfuel : 1 < fuel) {n n' k : Nat} (h : Absorbed H ctx m) (hk : k ≤ n)
    (hk' : k ≤ n') (hklt : k < H.blockSize) (hend : (m.length + k) % H.blockSize = H.blockSize - H.lenBytes) :
    padRun H w fuel (n + 1) ctx = some (padZeros H n' ctx) := by
  induction n generalizing n' k ctx m with
  | zero =>
    obtain rfl : k = 0 := by omega
    have hstop : ctx.buf.length = H.blockSize - H.lenBytes := by rw [h.length_buf, ← hend, Nat.add_zero]
    rw [padRun, if_pos hstop, padZeros_stop hstop]
  | succ n ih =>
    rw [padRun]
    by_cases hstop : ctx.buf.length = H.blockSize - H.lenBytes
    · rw [if_pos hstop, padZeros_stop hstop]
    · have hpos : k ≠ 0 := by
        rintro rfl
        exact hstop (by rw [h.length_buf, ← hend, Nat.add_zero])
      obtain ⟨n', rfl⟩ : ∃ i, n' = i + 1 := ⟨n' - 1, by omega⟩
      have hnext : (m ++ [0]).length + (k - 1) = m.length + k := by
        rw [List.length_append, List.length_singleton]
        omega
      have hroom : ([0] : List Byte).length + H.blockSize < 2 ^ w := hw
      rw [padZeros, if_neg hstop, if_neg hstop, h.updateRun_eq hroom hfuel, Option.bind_some]
      exact ih (k := k - 1) (h.update [0]) (by omega) (by omega) (by omega) (by rw [hnext]; exact hend)

/-- `final` ends, with the result of the scheme. -/
theorem finalRun_eq (hw : 2 * H.blockSize < 2 ^ w) (hfuel : H.blockSize < fuel) (h : Absorbed H ctx m) :
    finalRun H w fuel ctx = some (final H ctx) := by
  have hB := blockSize_pos H
  have hL := H.fits
  obtain ⟨hzero, hend⟩ := zeroPad_spec (H := H) m.length
  have hone := h.update (H := H) [0x80]
  have hend' : ((m ++ [0x80]).length + zeroPad H m.length) % H.blockSize = H.blockSize - H.lenBytes := by
    rw [List.length_append, List.length_singleton]
    exact hend
  have hpad := padZeros_absorbed H.blockSize (zeroPad H m.length) hone hzero.le hzero hend'
  obtain ⟨n, rfl⟩ : ∃ n, fuel = n + 1 := ⟨fuel - 1, by omega⟩
  unfold finalRun final
  dsimp only
  rw [h.updateRun_eq (by rw [List.length_singleton]; omega) (by rw [List.length_singleton]; omega)]
  simp only [Option.bind_eq_bind, Option.bind_some]
  rw [padRun_eq (by omega) (by omega) hone (by omega : zeroPad H m.length ≤ n) hzero.le hzero hend', Option.bind_some,
    hpad.updateRun_eq (by rw [Bytes.length_be]; omega) (by rw [Bytes.length_be]; omega)]
  rfl

end MerkleDamgard

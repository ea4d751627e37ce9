import SakuruBoot.Crypto.Cipher
import SakuruBoot.Lib.CountedLoop
import SakuruBoot.Lib.Words

/-!
# The block loops of `xts_crypt` and `cbc_decrypt_sector`

Both loops with their 32-bit offset and on their buffers, which may be the same. A mode of operation is a `BlockMode`:
what is written
for a block and what is carried to the next one. On every length whose end the offset can hold the loops write what
`xtsCrypt` and `cbcDecryptSector` say (`xtsCryptRun_eq`, `cbcDecryptRun_eq`). On the last multiple of the block size,
`2 ^ 32 - 16`, the check wraps, and they go on behind the data (`xtsCryptRun_wraps`, `cbcDecryptRun_wraps`).
-/

namespace SakuruBoot
open CStr (Byte)
open Bytes CountedLoop

/-! ## Blocks -/

theorem Block.toList_inj {a b : Block} (h : leVal a.toList = leVal b.toList) : a = b := by
  have hlist : ∀ x y : List Byte, x.length = y.length → leVal x = leVal y → x = y := by
    intro x
    induction x with
    | nil =>
      intro y hlen _
      exact (List.length_eq_zero_iff.mp hlen.symm).symm
    | cons c x ih =>
      intro y hlen hval
      cases y with
      | nil => cases hlen
      | cons d y =>
        have hc : c.toNat < 256 := c.toNat_lt
        have hd : d.toNat < 256 := d.toNat_lt
        rw [leVal, leVal] at hval
        rw [ih y (Nat.succ.inj hlen) (by omega), UInt8.toNat_inj.mp (by omega : c.toNat = d.toNat)]
  exact Vector.toList_inj.mp (hlist _ _ (by simp) h)

theorem toList_ofBytes_fit (p : List Byte) : (Block.ofBytes p).toList = fit p 16 := by
  have hlen : (fit p 16).length = 16 := length_fit p 16
  apply List.ext_getElem (by rw [length_toList_block, hlen])
  intro i hi _
  rw [length_toList_block] at hi
  rcases Nat.lt_or_ge i p.length with h | h
  · simp [Block.ofBytes, fit, h, hi]
  · simp [Block.ofBytes, fit, Nat.not_lt.mpr h, show min 16 p.length ≤ i by omega]

theorem ofBytes_le {k : Nat} (hk : k ≤ 16) (v : Nat) : Block.ofBytes (le k v) = Block.ofBytes (le 16 (v % 256 ^ k)) := by
  have hpow : 256 ^ k ≤ 256 ^ 16 := Nat.pow_le_pow_right (by decide) hk
  have hlt : v % 256 ^ k < 256 ^ 16 := (Nat.mod_lt _ (Nat.pow_pos (by decide))).trans_le hpow
  apply Block.toList_inj
  rw [toList_ofBytes_fit, toList_ofBytes_fit, Words.leVal_fit, Words.leVal_fit, leVal_le, leVal_le, Nat.mod_mod]

/-! ## Buffers -/

/-- The buffers of a call: `in` and `out`, or one buffer for both. -/
inductive CryptBufs
  | apart (input output : List Byte)
  | same (buf : List Byte)

namespace CryptBufs

def input : CryptBufs → List Byte
  | apart i _ => i
  | same b => b

def output : CryptBufs → List Byte
  | apart _ o => o
  | same b => b

/-- The block at `in + off`; `none` when it is not in the buffer. -/
def load (bufs : CryptBufs) (off : Nat) : Option Block :=
  if off + 16 ≤ bufs.input.length then some (Block.ofBytes (bufs.input.drop off)) else none

/-- The block written to `out + off`. -/
def store (bufs : CryptBufs) (off : Nat) (block : Block) : Option CryptBufs :=
  if off + 16 ≤ bufs.output.length then
    match bufs with
    | apart i o => some (apart i (patch o off block.toList))
    | same b => some (same (patch b off block.toList))
  else none

/-- The buffers with the front of `out` written over. -/
def after (bufs : CryptBufs) (front : List Byte) : CryptBufs :=
  match bufs with
  | apart i o => apart i (front ++ o.drop front.length)
  | same b => same (front ++ b.drop front.length)

@[simp] theorem output_after (bufs : CryptBufs) (front : List Byte) :
    (bufs.after front).output = front ++ bufs.output.drop front.length := by
  cases bufs <;> rfl

theorem load_after (bufs : CryptBufs) {front : List Byte} (h : front.length + 16 ≤ bufs.input.length) :
    (bufs.after front).load front.length = some (Block.ofBytes (bufs.input.drop front.length)) := by
  cases bufs with
  | apart i o => exact if_pos h
  | same b =>
    have hle : front.length + 16 ≤ (front ++ b.drop front.length).length := by
      simp only [input] at h
      simp only [List.length_append, List.length_drop]
      omega
    rw [after, load, input, if_pos hle, List.drop_left]
    rfl

theorem store_after (bufs : CryptBufs) {front : List Byte} (h : front.length + 16 ≤ bufs.output.length) (block : Block) :
    (bufs.after front).store front.length block = some (bufs.after (front ++ block.toList)) := by
  have hpatch : ∀ buf : List Byte, patch (front ++ buf.drop front.length) front.length block.toList =
      (front ++ block.toList) ++ buf.drop (front ++ block.toList).length := by
    intro buf
    rw [patch, List.take_left, List.drop_append, List.drop_of_length_le (Nat.le_add_right _ _), List.nil_append,
      Nat.add_sub_cancel_left, List.drop_drop, List.length_append]
  have hle : front.length + 16 ≤ (bufs.after front).output.length := by
    rw [output_after, List.length_append, List.length_drop]
    omega
  cases bufs with
  | apart i o =>
    exact (if_pos hle).trans (congrArg (fun o => some (apart i o)) (hpatch o))
  | same b =>
    exact (if_pos hle).trans (congrArg (fun b => some (same b)) (hpatch b))

theorem load_beyond {bufs : CryptBufs} {off : Nat} (h : bufs.input.length < off + 16) : bufs.load off = none :=
  if_neg (Nat.not_le.mpr h)

theorem length_input_after {bufs : CryptBufs} {front : List Byte} (h : front.length ≤ bufs.input.length) :
    (bufs.after front).input.length = bufs.input.length := by
  cases bufs with
  | apart i o => rfl
  | same b =>
    simp only [input] at h
    simp only [after, input, List.length_append, List.length_drop]
    omega

end CryptBufs

/-! ## Modes -/

/-- A mode of operation: what is written for a block, and what is carried to the next one. -/
structure BlockMode (τ : Type) where
  out : τ → Block → Block
  next : τ → Block → τ

/-- Block `k` of the data. -/
def blockNo (data : List Byte) (k : Nat) : Block := Block.ofBytes (data.drop (16 * k))

namespace BlockMode

variable {τ : Type} (m : BlockMode τ) (t : τ) (data : List Byte)

/-- What is carried into block `k`. -/
def carried : Nat → τ
  | 0 => t
  | k + 1 => m.next (carried k) (blockNo data k)

/-- The bytes written for the first `n` blocks. -/
def written (n : Nat) : List Byte := (List.range n).flatMap fun k => (m.out (m.carried t data k) (blockNo data k)).toList

@[simp] theorem length_written (n : Nat) : (m.written t data n).length = 16 * n := by
  rw [written, length_flatMap_const fun k _ => length_toList_block _, List.length_range, Nat.mul_comm]

theorem written_succ (n : Nat) :
    m.written t data (n + 1) = m.written t data n ++ (m.out (m.carried t data n) (blockNo data n)).toList := by
  rw [written, List.range_succ, List.flatMap_append, List.flatMap_singleton]
  rfl

theorem blockNo_drop (k : Nat) : blockNo (data.drop 16) k = blockNo data (k + 1) := by
  rw [blockNo, blockNo, List.drop_drop, Nat.mul_succ, Nat.add_comm]

theorem carried_drop (k : Nat) : m.carried (m.next t (blockNo data 0)) (data.drop 16) k = m.carried t data (k + 1) := by
  induction k with
  | zero => rfl
  | succ k ih =>
    rw [carried, ih, blockNo_drop]
    rfl

theorem written_front (n : Nat) : m.written t data (n + 1) =
    (m.out t (blockNo data 0)).toList ++ m.written (m.next t (blockNo data 0)) (data.drop 16) n := by
  simp only [written, List.range_succ_eq_map, List.flatMap_cons, List.flatMap_map, carried_drop, blockNo_drop]
  rfl

theorem blockNo_written {k n : Nat} (h : k < n) :
    blockNo (m.written t data n) k = m.out (m.carried t data k) (blockNo data k) := by
  obtain ⟨rest, hrest⟩ : ∃ rest, m.written t data n = m.written t data (k + 1) ++ rest := by
    obtain ⟨d, rfl⟩ := Nat.exists_eq_add_of_le h
    clear h
    induction d with
    | zero => exact ⟨[], (List.append_nil _).symm⟩
    | succ d ih =>
      obtain ⟨rest, hrest⟩ := ih
      exact ⟨_, by rw [← Nat.add_assoc, written_succ, hrest, List.append_assoc]⟩
  have hlen : (m.written t data k).length = 16 * k := m.length_written t data k
  rw [blockNo, hrest, written_succ, List.append_assoc, ← hlen, List.drop_left, ofBytes_append]

end BlockMode

def xtsChain (ctx : XtsCtx) (decrypt : Bool) : BlockMode Block where
  out tweak x :=
    let x := xorBlock x tweak
    xorBlock (if decrypt then aesDecryptBlock ctx.data x else aesEncryptBlock ctx.data x) tweak
  next tweak _ := gf128MulX tweak

def cbcChain (ctx : AesCtx) : BlockMode Block where
  out iv c := xorBlock (aesDecryptBlock ctx c) iv
  next _ c := c

theorem xtsBlocks_eq (ctx : XtsCtx) (decrypt : Bool) (n : Nat) (tweak : Block) (data : List Byte) :
    xtsBlocks ctx decrypt n tweak data = (xtsChain ctx decrypt).written tweak data n := by
  induction n generalizing tweak data with
  | zero => rfl
  | succ n ih =>
    rw [BlockMode.written_front, xtsBlocks, ih]
    rfl

theorem cbcBlocks_eq (ctx : AesCtx) (n : Nat) (iv : Block) (data : List Byte) :
    cbcBlocks ctx n iv data = (cbcChain ctx).written iv data n := by
  induction n generalizing iv data with
  | zero => rfl
  | succ n ih =>
    rw [BlockMode.written_front, cbcBlocks, ih]
    rfl

/-! ## The loops -/

/-- One round of the loop of `xts_crypt` on the tweak and the buffers. -/
def xtsRound (ctx : XtsCtx) (decrypt : Bool) (off : Nat) (s : Block × CryptBufs) : Option (Block × CryptBufs) := do
  let x ← s.2.load off
  let x := xorBlock x s.1
  let y := if decrypt then aesDecryptBlock ctx.data x else aesEncryptBlock ctx.data x
  let bufs ← s.2.store off (xorBlock y s.1)
  return (gf128MulX s.1, bufs)

def xtsCryptRun (fuel : Nat) (ctx : XtsCtx) (sector : Nat) (bufs : CryptBufs) (len : Nat) (decrypt : Bool) :
    Option CryptBufs :=
  (countedLoop 32 16 len (xtsRound ctx decrypt) fuel 0
    (aesEncryptBlock ctx.tweak (Block.ofBytes (le 8 sector)), bufs)).map fun r => r.2.2

/-- One round of the loop of `cbc_decrypt_sector`. The next initial vector is read from `in` behind the store. -/
def cbcRound (ctx : CbcCtx) (off : Nat) (s : Block × CryptBufs) : Option (Block × CryptBufs) := do
  let c ← s.2.load off
  let bufs ← s.2.store off (xorBlock (aesDecryptBlock ctx.dec c) s.1)
  let iv ← bufs.load off
  return (iv, bufs)

def cbcDecryptRun (fuel : Nat) (ctx : CbcCtx) (sector : Nat) (bufs : CryptBufs) (len : Nat) : Option CryptBufs :=
  (countedLoop 32 16 len (cbcRound ctx) fuel 0 (makeCbcIv ctx sector, bufs)).map fun r => r.2.2

section
variable {τ : Type} {m : BlockMode τ} {round : Nat → τ × CryptBufs → Option (τ × CryptBufs)} {bufs : CryptBufs} {len : Nat}

/-- A loop whose rounds follow a mode, on buffers for the whole blocks of `len` bytes. -/
theorem loop_chain (t : τ)
    (hround : ∀ k < len / 16, round (16 * k) (m.carried t bufs.input k, bufs.after (m.written t bufs.input k)) =
      some (m.carried t bufs.input (k + 1), bufs.after (m.written t bufs.input (k + 1))))
    (hwrap : 16 * (len / 16 + 1) < 2 ^ 32) :
    (countedLoop 32 16 len round (len / 16 + 1) 0 (t, bufs)).map (fun r => r.2.2) =
      some (bufs.after (m.written t bufs.input (len / 16))) := by
  have hstart : bufs.after (m.written t bufs.input 0) = bufs := by cases bufs <;> rfl
  have hrun : countedLoop 32 16 len round (len / 16 + 1) 0 (m.carried t bufs.input 0,
      bufs.after (m.written t bufs.input 0)) = some _ :=
    countedLoop_run (fun k => (m.carried t bufs.input k, bufs.after (m.written t bufs.input k)))
      (fun k hk => by rw [Nat.zero_add, Nat.mul_comm]; exact hround k hk) (by omega) (by omega) (by omega)
  rw [hstart] at hrun
  exact congrArg (Option.map _) hrun

/-- Where the offset wraps, the loop reads behind the data. -/
theorem loop_chain_wraps (t : τ)
    (hround : ∀ k < len / 16, round (16 * k) (m.carried t bufs.input k, bufs.after (m.written t bufs.input k)) =
      some (m.carried t bufs.input (k + 1), bufs.after (m.written t bufs.input (k + 1))))
    (hload : ∀ s : τ × CryptBufs, ∀ off, s.2.load off = none → round off s = none)
    (hlen : len < 2 ^ 32) (hinput : bufs.input.length = len) (hwrap : 2 ^ 32 ≤ 16 * (len / 16 + 1)) (fuel : Nat) :
    (countedLoop 32 16 len round fuel 0 (t, bufs)).map (fun r => r.2.2) = none := by
  have hstart : bufs.after (m.written t bufs.input 0) = bufs := by cases bufs <;> rfl
  have hfront : (m.written t bufs.input (len / 16)).length ≤ bufs.input.length := by
    rw [BlockMode.length_written]
    omega
  have hbeyond : (bufs.after (m.written t bufs.input (len / 16))).load (16 * (len / 16)) = none :=
    CryptBufs.load_beyond (by rw [CryptBufs.length_input_after hfront]; omega)
  have hrun : countedLoop 32 16 len round fuel 0 (m.carried t bufs.input 0,
      bufs.after (m.written t bufs.input 0)) = none :=
    countedLoop_wraps (n := len / 16) (fun k => (m.carried t bufs.input k, bufs.after (m.written t bufs.input k)))
      (fun k hk => by rw [Nat.zero_add, Nat.mul_comm]; exact hround k hk) (by omega) hlen (by decide) (by omega)
      (by rw [Nat.zero_add, Nat.mul_comm]; exact hload _ _ hbeyond) fuel
  rw [hstart, BlockMode.carried] at hrun
  rw [hrun]
  rfl

end

section
variable {bufs : CryptBufs} {len : Nat} (hin : 16 * (len / 16) ≤ bufs.input.length)
  (hout : 16 * (len / 16) ≤ bufs.output.length)
include hin hout

/-- The load of round `k` finds block `k`, and its store goes behind the blocks written. -/
theorem load_written {τ : Type} (m : BlockMode τ) (t : τ) {k : Nat} (hk : k < len / 16) :
    (bufs.after (m.written t bufs.input k)).load (16 * k) = some (blockNo bufs.input k) ∧
      ∀ b, (bufs.after (m.written t bufs.input k)).store (16 * k) b =
        some (bufs.after (m.written t bufs.input k ++ b.toList)) := by
  have hlen := m.length_written t bufs.input k
  rw [blockNo, ← hlen]
  exact ⟨bufs.load_after (by omega), fun b => bufs.store_after (by omega) b⟩

theorem xtsRound_chain (ctx : XtsCtx) (decrypt : Bool) (t : Block) {k : Nat} (hk : k < len / 16) :
    xtsRound ctx decrypt (16 * k) ((xtsChain ctx decrypt).carried t bufs.input k,
      bufs.after ((xtsChain ctx decrypt).written t bufs.input k)) =
    some ((xtsChain ctx decrypt).carried t bufs.input (k + 1),
      bufs.after ((xtsChain ctx decrypt).written t bufs.input (k + 1))) := by
  obtain ⟨hload, hstore⟩ := load_written hin hout (xtsChain ctx decrypt) t hk
  simp only [xtsRound, hload, hstore, BlockMode.written_succ, BlockMode.carried, Option.bind_eq_bind, Option.bind_some]
  rfl

theorem xtsCryptRun_eq (ctx : XtsCtx) (sector : Nat) (decrypt : Bool) (hwrap : 16 * (len / 16 + 1) < 2 ^ 32) :
    xtsCryptRun (len / 16 + 1) ctx sector bufs len decrypt =
      some (bufs.after (xtsCrypt ctx sector bufs.input len decrypt)) := by
  rw [xtsCrypt, xtsBlocks_eq]
  exact loop_chain _ (fun k hk => xtsRound_chain hin hout ctx decrypt _ hk) hwrap

theorem xtsCryptRun_wraps (ctx : XtsCtx) (sector : Nat) (decrypt : Bool) (hlen : len < 2 ^ 32)
    (hinput : bufs.input.length = len) (hwrap : 2 ^ 32 ≤ 16 * (len / 16 + 1)) (fuel : Nat) :
    xtsCryptRun fuel ctx sector bufs len decrypt = none := by
  apply loop_chain_wraps _ (fun k hk => xtsRound_chain hin hout ctx decrypt _ hk) _ hlen hinput hwrap
  intro s off h
  simp [xtsRound, h]

end

section
variable {input output : List Byte} {len : Nat} (hin : 16 * (len / 16) ≤ input.length)
  (hout : 16 * (len / 16) ≤ output.length)
include hin hout

theorem cbcRound_chain (ctx : CbcCtx) (t : Block) {k : Nat} (hk : k < len / 16) :
    cbcRound ctx (16 * k) ((cbcChain ctx.dec).carried t input k,
      (CryptBufs.apart input output).after ((cbcChain ctx.dec).written t input k)) =
    some ((cbcChain ctx.dec).carried t input (k + 1),
      (CryptBufs.apart input output).after ((cbcChain ctx.dec).written t input (k + 1))) := by
  have hblock := @load_written (.apart input output) len hin hout _ (cbcChain ctx.dec) t k hk
  obtain ⟨hload, hstore⟩ := hblock
  have hagain : ∀ w, ((CryptBufs.apart input output).after w).load (16 * k) = some (blockNo input k) := fun _ => hload
  simp only [cbcRound, CryptBufs.input] at hload hstore ⊢
  simp only [hload, hstore, hagain, BlockMode.written_succ, BlockMode.carried, Option.bind_eq_bind, Option.bind_some]
  rfl

theorem cbcDecryptRun_eq (ctx : CbcCtx) (sector : Nat) (hwrap : 16 * (len / 16 + 1) < 2 ^ 32) :
    cbcDecryptRun (len / 16 + 1) ctx sector (.apart input output) len =
      some ((CryptBufs.apart input output).after (cbcDecryptSector ctx sector input len)) := by
  rw [cbcDecryptSector, cbcBlocks_eq]
  exact loop_chain (makeCbcIv ctx sector) (fun k hk => cbcRound_chain hin hout ctx _ hk) hwrap

theorem cbcDecryptRun_wraps (ctx : CbcCtx) (sector : Nat) (hlen : len < 2 ^ 32) (hinput : input.length = len)
    (hwrap : 2 ^ 32 ≤ 16 * (len / 16 + 1)) (fuel : Nat) :
    cbcDecryptRun fuel ctx sector (.apart input output) len = none := by
  refine loop_chain_wraps (makeCbcIv ctx sector) (fun k hk => cbcRound_chain hin hout ctx _ hk) ?_ hlen
    (show (CryptBufs.apart input output).input.length = len from hinput) hwrap fuel
  intro s off h
  simp [cbcRound, h]

end

end SakuruBoot

import SakuruBoot.Lib.Bytes

/-!
# Streaming block hashes

A block hash with a chaining state, a block size and a length field (`Scheme`), the buffered
`init`/`update`/`final` interface over it as C libraries write it, and the digest of a whole message
by padding and folding. `final_update_eq_digest`: whatever the chunks, the streaming result is the
digest of their concatenation.

The state after a message is `absorb H H.iv m`: the chaining value over its whole blocks and the
bytes left over. Everything rests on `absorb_append`: absorbing more bytes continues from there.
-/

namespace MerkleDamgard
open CStr (Byte)

structure Scheme (σ : Type) where
  blockSize : Nat
  /-- Width of the length field in bytes. -/
  lenBytes : Nat
  iv : σ
  compress : σ → List Byte → σ
  output : σ → List Byte
  lenBytes_pos : 0 < lenBytes
  fits : lenBytes < blockSize

structure Ctx (σ : Type) where
  h : σ
  len : Nat
  buf : List Byte

variable {σ : Type} (H : Scheme σ)

def init : Ctx σ := { h := H.iv, len := 0, buf := [] }

/-- Compress `n` blocks from the front of the data. -/
def absorbBlocks : Nat → σ → List Byte → σ × List Byte
  | 0, h, d => (h, d)
  | n + 1, h, d => absorbBlocks n (H.compress h (d.take H.blockSize)) (d.drop H.blockSize)

/-- `for (; i + B <= len; i += B) block(data + i)`, with the bytes it leaves. -/
def absorb (h : σ) (d : List Byte) : σ × List Byte := absorbBlocks H (d.length / H.blockSize) h d

def update (ctx : Ctx σ) (data : List Byte) : Ctx σ :=
  let len := (ctx.len + data.length) % 2 ^ (8 * H.lenBytes)
  if ctx.buf.isEmpty then
    let r := absorb H ctx.h data
    { h := r.1, len := len, buf := r.2 }
  else
    let take := min data.length (H.blockSize - ctx.buf.length)
    let buf := ctx.buf ++ data.take take
    let rest := data.drop take
    if buf.length = H.blockSize then
      let r := absorb H (H.compress ctx.h buf) rest
      { h := r.1, len := len, buf := r.2 }
    else
      let r := absorb H ctx.h rest
      { h := r.1, len := len, buf := buf ++ r.2 }

/-- `while (buf_len != B - lenBytes) update(0)`. -/
def padZeros : Nat → Ctx σ → Ctx σ
  | 0, ctx => ctx
  | n + 1, ctx =>
    if ctx.buf.length = H.blockSize - H.lenBytes then ctx else padZeros n (update H ctx [0])

def final (ctx : Ctx σ) : List Byte :=
  let bits := ctx.len * 8 % 2 ^ (8 * H.lenBytes)
  let ctx := padZeros H H.blockSize (update H ctx [0x80])
  H.output (update H ctx (Bytes.be H.lenBytes bits)).h

def hash (data : List Byte) : List Byte := final H (update H (init H) data)

/-! ## The digest of a whole message -/

/-- Zero bytes between the `0x80` and the length field. -/
def zeroPad (n : Nat) : Nat :=
  (H.blockSize - (n + 1 + H.lenBytes) % H.blockSize) % H.blockSize

def pad (m : List Byte) : List Byte :=
  m ++ [0x80] ++ List.replicate (zeroPad H m.length) 0 ++
    Bytes.be H.lenBytes (m.length * 8 % 2 ^ (8 * H.lenBytes))

def digest (m : List Byte) : List Byte := H.output (absorb H H.iv (pad H m)).1

/-! ## Absorbing -/

theorem absorbBlocks_snd (n : Nat) (h : σ) (d : List Byte) :
    (absorbBlocks H n h d).2 = d.drop (n * H.blockSize) := by
  induction n generalizing h d with
  | zero => simp [absorbBlocks]
  | succ n ih => rw [absorbBlocks, ih, List.drop_drop, Nat.succ_mul, Nat.add_comm]

theorem absorbBlocks_add (a b : Nat) (h : σ) (d : List Byte) :
    absorbBlocks H (a + b) h d = absorbBlocks H b (absorbBlocks H a h d).1 (absorbBlocks H a h d).2 := by
  induction a generalizing h d with
  | zero => simp [absorbBlocks]
  | succ a ih => rw [Nat.succ_add, absorbBlocks, ih, absorbBlocks]

theorem absorbBlocks_append (n : Nat) (h : σ) (d e : List Byte) (hn : n * H.blockSize ≤ d.length) :
    absorbBlocks H n h (d ++ e) = ((absorbBlocks H n h d).1, (absorbBlocks H n h d).2 ++ e) := by
  induction n generalizing h d with
  | zero => rfl
  | succ n ih =>
    rw [Nat.succ_mul] at hn
    have hle : H.blockSize ≤ d.length := by omega
    rw [absorbBlocks, absorbBlocks, List.take_append_of_le_length hle,
      List.drop_append_of_le_length hle, ih _ _ (by rw [List.length_drop]; omega)]

theorem blockSize_pos : 0 < H.blockSize := Nat.zero_lt_of_lt H.fits

theorem absorb_snd (h : σ) (d : List Byte) :
    (absorb H h d).2 = d.drop (d.length / H.blockSize * H.blockSize) := absorbBlocks_snd H _ h d

theorem length_absorb_snd (h : σ) (d : List Byte) :
    (absorb H h d).2.length = d.length % H.blockSize := by
  rw [absorb_snd, List.length_drop]
  have := Nat.div_add_mod d.length H.blockSize
  rw [Nat.mul_comm] at this
  omega

/-- Absorbing a longer message continues from the state after its beginning. -/
theorem absorb_append (h : σ) (d e : List Byte) :
    absorb H h (d ++ e) = absorb H (absorb H h d).1 ((absorb H h d).2 ++ e) := by
  have hdiv : d.length / H.blockSize * H.blockSize ≤ d.length := Nat.div_mul_le_self _ _
  have hblocks : (d ++ e).length / H.blockSize =
      d.length / H.blockSize + ((absorb H h d).2 ++ e).length / H.blockSize := by
    rw [List.length_append, List.length_append, length_absorb_snd, Nat.add_comm (_ / _),
      ← Nat.add_mul_div_right _ _ (blockSize_pos H)]
    congr 1
    have := Nat.div_add_mod d.length H.blockSize
    rw [Nat.mul_comm] at this
    omega
  unfold absorb at hblocks ⊢
  rw [hblocks, absorbBlocks_add, absorbBlocks_append H _ _ _ _ hdiv]

theorem absorb_of_lt (h : σ) {d : List Byte} (hd : d.length < H.blockSize) : absorb H h d = (h, d) := by
  rw [absorb, Nat.div_eq_of_lt hd, absorbBlocks]

theorem absorb_block (h : σ) {d : List Byte} (hd : d.length = H.blockSize) :
    absorb H h d = (H.compress h d, []) := by
  rw [absorb, hd, Nat.div_self (blockSize_pos H), absorbBlocks, absorbBlocks,
    List.take_of_length_le (by omega), List.drop_of_length_le (by omega)]

theorem absorb_invariant {H : Scheme σ} {P : σ → Prop}
    (hstep : ∀ h blk, P h → P (H.compress h blk)) {h : σ} (h0 : P h) (d : List Byte) :
    P (absorb H h d).1 := by
  have key : ∀ (n : Nat) (h : σ) (d : List Byte), P h → P (absorbBlocks H n h d).1 := by
    intro n
    induction n with
    | zero => intro h d hP; exact hP
    | succ n ih => intro h d hP; exact ih _ _ (hstep h _ hP)
  exact key _ h d h0

/-- A map of chaining values that agrees with two schemes: they have the same digests. -/
theorem digest_hom {τ : Type} {H : Scheme σ} {G : Scheme τ} (f : σ → τ) (hB : H.blockSize = G.blockSize)
    (hL : H.lenBytes = G.lenBytes) (hiv : f H.iv = G.iv) (hstep : ∀ h blk, f (H.compress h blk) = G.compress (f h) blk)
    (hout : ∀ h, H.output h = G.output (f h)) (m : List Byte) : digest H m = digest G m := by
  have key : ∀ (n : Nat) (h : σ) (d : List Byte), f (absorbBlocks H n h d).1 = (absorbBlocks G n (f h) d).1 := by
    intro n
    induction n with
    | zero => intro h d; rfl
    | succ n ih =>
      intro h d
      rw [absorbBlocks, absorbBlocks, ih, hstep, hB]
  have hpad : pad H m = pad G m := by rw [pad, pad, zeroPad, zeroPad, hB, hL]
  rw [digest, digest, hout, absorb, absorb, key, hiv, hpad, hB]

/-! ## The streaming interface -/

/-- The context after the message `m`, however it arrived. -/
structure Absorbed (ctx : Ctx σ) (m : List Byte) : Prop where
  state : (ctx.h, ctx.buf) = absorb H H.iv m
  len : ctx.len = m.length % 2 ^ (8 * H.lenBytes)

variable {H} {ctx : Ctx σ} {m : List Byte}

theorem Absorbed.h_eq (h : Absorbed H ctx m) : ctx.h = (absorb H H.iv m).1 := congrArg Prod.fst h.state

theorem Absorbed.buf_eq (h : Absorbed H ctx m) : ctx.buf = (absorb H H.iv m).2 :=
  congrArg Prod.snd h.state

theorem Absorbed.length_buf (h : Absorbed H ctx m) : ctx.buf.length = m.length % H.blockSize := by
  rw [h.buf_eq, length_absorb_snd]

theorem absorbed_init : Absorbed H (init H) [] where
  state := (absorb_of_lt H H.iv (d := []) (by simpa using blockSize_pos H)).symm
  len := by simp [init]

theorem update_state (hbuf : ctx.buf.length < H.blockSize) (data : List Byte) :
    ((update H ctx data).h, (update H ctx data).buf) = absorb H ctx.h (ctx.buf ++ data) := by
  unfold update
  dsimp only
  split
  · rename_i hnil
    rw [List.isEmpty_iff.mp hnil, List.nil_append]
  · split
    · rename_i hfull
      -- the buffer fills up: one block from it, then the blocks of the rest
      have hsplit : ctx.buf ++ data =
          (ctx.buf ++ data.take (min data.length (H.blockSize - ctx.buf.length))) ++
            data.drop (min data.length (H.blockSize - ctx.buf.length)) := by
        rw [List.append_assoc, List.take_append_drop]
      rw [hsplit, absorb_append, absorb_block H ctx.h hfull, List.nil_append]
    · rename_i hpart
      -- the data is used up before the buffer is full
      rw [List.length_append, List.length_take] at hpart
      have hall : min data.length (H.blockSize - ctx.buf.length) = data.length := by omega
      rw [hall, List.take_length, List.drop_length, absorb_of_lt H ctx.h (d := []) (blockSize_pos H),
        absorb_of_lt H ctx.h (by rw [List.length_append]; omega), List.append_nil]

theorem update_len (data : List Byte) :
    (update H ctx data).len = (ctx.len + data.length) % 2 ^ (8 * H.lenBytes) := by
  unfold update
  dsimp only
  split
  · rfl
  · split <;> rfl

theorem Absorbed.update (h : Absorbed H ctx m) (data : List Byte) :
    Absorbed H (update H ctx data) (m ++ data) where
  state := by
    have hbuf : ctx.buf.length < H.blockSize := by
      rw [h.length_buf]
      exact Nat.mod_lt _ (blockSize_pos H)
    rw [update_state hbuf, h.h_eq, h.buf_eq, ← absorb_append]
  len := by
    rw [update_len, h.len, List.length_append]
    simp

theorem padZeros_absorbed (n k : Nat) (h : Absorbed H ctx m) (hk : k ≤ n) (hklt : k < H.blockSize)
    (hend : (m.length + k) % H.blockSize = H.blockSize - H.lenBytes) :
    Absorbed H (padZeros H n ctx) (m ++ List.replicate k 0) := by
  induction n generalizing k ctx m with
  | zero =>
    obtain rfl : k = 0 := by omega
    simpa [padZeros] using h
  | succ n ih =>
    rw [padZeros, h.length_buf]
    by_cases hstop : m.length % H.blockSize = H.blockSize - H.lenBytes
    · -- the residue is reached now, so nothing more is missing
      have hk0 : k = 0 := by
        have hmod : (m.length + k) % H.blockSize = m.length % H.blockSize := by rw [hend, hstop]
        have hdvd : H.blockSize ∣ k := by
          have := (Nat.modEq_iff_dvd' (Nat.le_add_right m.length k)).mp hmod.symm
          simpa using this
        exact Nat.eq_zero_of_dvd_of_lt hdvd hklt
      subst hk0
      simpa [hstop] using h
    · rw [if_neg hstop]
      obtain ⟨k, rfl⟩ : ∃ k', k = k' + 1 := by
        refine Nat.exists_eq_succ_of_ne_zero fun hk0 => hstop ?_
        simpa [hk0] using hend
      have hnext := ih k (h.update [0])
        (by omega) (by omega) (by simpa [Nat.add_assoc, Nat.add_comm 1 k] using hend)
      simpa [List.replicate_succ] using hnext

theorem zeroPad_spec (n : Nat) :
    zeroPad H n < H.blockSize ∧ (n + 1 + zeroPad H n) % H.blockSize = H.blockSize - H.lenBytes := by
  have hB := blockSize_pos H
  have hL := H.fits
  have hL0 := H.lenBytes_pos
  refine ⟨Nat.mod_lt _ hB, ?_⟩
  -- with the length field the padded length is a whole number of blocks
  have hwhole : (n + 1 + zeroPad H n + H.lenBytes) % H.blockSize = 0 := by
    have hcomm : n + 1 + zeroPad H n + H.lenBytes = n + 1 + H.lenBytes + zeroPad H n := by omega
    rw [hcomm, zeroPad, Nat.add_mod, Nat.mod_mod]
    have hlt := Nat.mod_lt (n + 1 + H.lenBytes) hB
    rcases Nat.eq_zero_or_pos ((n + 1 + H.lenBytes) % H.blockSize) with hr | hr
    · simp [hr]
    · rw [Nat.mod_eq_of_lt (a := _ - _) (by omega), Nat.add_sub_cancel' (by omega), Nat.mod_self]
  rw [Nat.add_mod, Nat.mod_eq_of_lt hL] at hwhole
  have hlt := Nat.mod_lt (n + 1 + zeroPad H n) hB
  have hdvd := Nat.dvd_of_mod_eq_zero hwhole
  have heq : (n + 1 + zeroPad H n) % H.blockSize + H.lenBytes = H.blockSize := by
    obtain ⟨q, hq⟩ := hdvd
    have hq1 : q = 1 := by
      rcases q with _ | _ | q
      · omega
      · rfl
      · have : H.blockSize * (q + 1 + 1) = H.blockSize * q + H.blockSize + H.blockSize := by ring
        omega
    rw [hq, hq1, Nat.mul_one]
  omega

theorem final_eq_digest (h : Absorbed H ctx m) : final H ctx = digest H m := by
  have hone := h.update (H := H) [0x80]
  obtain ⟨hlt, hend⟩ := zeroPad_spec (H := H) m.length
  have hzero := padZeros_absorbed H.blockSize (zeroPad H m.length) hone (by omega) hlt
    (by simpa using hend)
  have hlast := hzero.update (H := H) (Bytes.be H.lenBytes (ctx.len * 8 % 2 ^ (8 * H.lenBytes)))
  unfold final digest pad
  dsimp only
  rw [hlast.h_eq, h.len, Nat.mod_mul_mod]

/-- The chunks do not matter. -/
theorem final_update_eq_digest (chunks : List (List Byte)) :
    final H (chunks.foldl (update H) (init H)) = digest H chunks.flatten := by
  have key : ∀ (cs : List (List Byte)) (ctx : Ctx σ) (m : List Byte), Absorbed H ctx m →
      Absorbed H (cs.foldl (update H) ctx) (m ++ cs.flatten) := by
    intro cs
    induction cs with
    | nil => intro ctx m h; simpa using h
    | cons c cs ih =>
      intro ctx m h
      simpa using ih _ _ (h.update c)
  exact final_eq_digest (by simpa using key chunks _ _ absorbed_init)

theorem hash_eq_digest (data : List Byte) : hash H data = digest H data := by
  have := final_update_eq_digest (H := H) [data]
  rwa [List.flatten_singleton] at this

end MerkleDamgard

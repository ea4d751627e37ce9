import SakuruBoot.Crypto.Sha

/-!
# HMAC and PBKDF2 (`crypto/hmac.c`, `crypto/pbkdf2.c`)

The code's `hmac` and `pbkdf2`, the definitions of RFC 2104 (`Rfc.hmac`) and RFC 8018
(`Rfc.pbkdf2`) over the digest of a whole message, and that they agree.
-/

namespace SakuruBoot
open CStr (Byte)
open Bytes

/-- The three `hmac_*` functions: the key is hashed when longer than a block, zero-filled to one, and
the two digests are computed by `update` calls. -/
def hmacWith {σ : Type} (H : MerkleDamgard.Scheme σ) (key msg : List Byte) : List Byte :=
  let k := fit (if H.blockSize < key.length then MerkleDamgard.hash H key else key) H.blockSize
  let ipad := k.map (· ^^^ 0x36)
  let opad := k.map (· ^^^ 0x5c)
  let ctx := MerkleDamgard.update H (MerkleDamgard.update H (MerkleDamgard.init H) ipad) msg
  let inner := MerkleDamgard.final H ctx
  let ctx := MerkleDamgard.update H (MerkleDamgard.update H (MerkleDamgard.init H) opad) inner
  MerkleDamgard.final H ctx

def hmacSha1 := hmacWith sha1Scheme
def hmacSha256 := hmacWith sha256Scheme
def hmacSha512 := hmacWith sha512Scheme

def hmac : HashId → List Byte → List Byte → List Byte
  | .sha1, key, msg => hmacSha1 key msg
  | .sha256, key, msg => hmacSha256 key msg
  | .sha512, key, msg => hmacSha512 key msg

/-- The iteration loop `for (c = 1; c < iters; c++)` on `(u, t)`. -/
def pbkdf2Iterate (id : HashId) (password : List Byte) : Nat → List Byte × List Byte →
    List Byte × List Byte
  | 0, s => s
  | n + 1, (u, t) =>
    let u := hmac id password u
    pbkdf2Iterate id password n (u, xorBytes t u)

/-- One output block. -/
def pbkdf2Block (id : HashId) (password salt : List Byte) (iters blk : Nat) : List Byte :=
  let u := hmac id password (salt ++ be 4 blk)
  (pbkdf2Iterate id password (iters - 1) (u, u)).2

/-- `for (blk = 1; dklen > 0; blk++)`. -/
def pbkdf2Loop (id : HashId) (password salt : List Byte) (iters : Nat) : Nat → Nat → Nat → List Byte
  | 0, _, _ => []
  | fuel + 1, blk, dklen =>
    if dklen = 0 then []
    else
      let take := min dklen (hashDigestSize id)
      (pbkdf2Block id password salt iters blk).take take ++
        pbkdf2Loop id password salt iters fuel (blk + 1) (dklen - take)

/-- The `dklen` bytes `pbkdf2` writes. A round takes at least one byte, so `dklen` rounds suffice. -/
def pbkdf2 (id : HashId) (password salt : List Byte) (iters dklen : Nat) : List Byte :=
  pbkdf2Loop id password salt iters dklen 1 dklen

/-! ## The definitions of the standards -/

namespace Rfc

def blockSize : HashId → Nat
  | .sha1 => 64
  | .sha256 => 64
  | .sha512 => 128

/-- The key as one block: zero-filled, or its digest when it is longer than a block. -/
def hmacKey (id : HashId) (key : List Byte) : List Byte :=
  fit (if blockSize id < key.length then hashDigest id key else key) (blockSize id)

def hmac (id : HashId) (key msg : List Byte) : List Byte :=
  let k0 := hmacKey id key
  hashDigest id (k0.map (· ^^^ 0x5c) ++ hashDigest id (k0.map (· ^^^ 0x36) ++ msg))

/-- `U_(j+1)` of block `i`. -/
def pbkdf2U (id : HashId) (password salt : List Byte) (i : Nat) : Nat → List Byte
  | 0 => hmac id password (salt ++ be 4 i)
  | j + 1 => hmac id password (pbkdf2U id password salt i j)

/-- `T_i`, the exclusive or of `U_1` to `U_iters`. -/
def pbkdf2T (id : HashId) (password salt : List Byte) (iters i : Nat) : List Byte :=
  ((List.range' 1 (iters - 1)).map (pbkdf2U id password salt i)).foldl xorBytes
    (pbkdf2U id password salt i 0)

/-- The first `dklen` bytes of `T_1 T_2 ...`. -/
def pbkdf2 (id : HashId) (password salt : List Byte) (iters dklen : Nat) : List Byte :=
  let blocks := (dklen + hashDigestSize id - 1) / hashDigestSize id
  ((List.range' 1 blocks).flatMap (pbkdf2T id password salt iters)).take dklen

end Rfc

/-! ## The code computes them -/

theorem hmacWith_eq {σ : Type} (H : MerkleDamgard.Scheme σ) (key msg : List Byte) :
    hmacWith H key msg =
      let k0 := fit (if H.blockSize < key.length then MerkleDamgard.digest H key else key) H.blockSize
      MerkleDamgard.digest H (k0.map (· ^^^ 0x5c) ++
        MerkleDamgard.digest H (k0.map (· ^^^ 0x36) ++ msg)) := by
  have htwo : ∀ a b : List Byte, MerkleDamgard.final H
      (MerkleDamgard.update H (MerkleDamgard.update H (MerkleDamgard.init H) a) b) =
        MerkleDamgard.digest H (a ++ b) := fun a b => by
    simpa using MerkleDamgard.final_update_eq_digest (H := H) [a, b]
  simp only [hmacWith, htwo, MerkleDamgard.hash_eq_digest]

theorem hmac_eq (id : HashId) (key msg : List Byte) : hmac id key msg = Rfc.hmac id key msg := by
  cases id
  · exact hmacWith_eq sha1Scheme key msg
  · exact hmacWith_eq sha256Scheme key msg
  · exact hmacWith_eq sha512Scheme key msg

theorem length_rfcHmac (id : HashId) (key msg : List Byte) :
    (Rfc.hmac id key msg).length = hashDigestSize id := length_hashDigest id _

theorem pbkdf2Iterate_eq (id : HashId) (password salt : List Byte) (i n j : Nat) (t : List Byte) :
    (pbkdf2Iterate id password n (Rfc.pbkdf2U id password salt i j, t)).2 =
      ((List.range' (j + 1) n).map (Rfc.pbkdf2U id password salt i)).foldl xorBytes t := by
  induction n generalizing j t with
  | zero => rfl
  | succ n ih =>
    rw [pbkdf2Iterate, hmac_eq]
    exact ih (j + 1) (xorBytes t (Rfc.pbkdf2U id password salt i (j + 1)))

theorem pbkdf2Block_eq (id : HashId) (password salt : List Byte) (iters i : Nat) :
    pbkdf2Block id password salt iters i = Rfc.pbkdf2T id password salt iters i := by
  rw [pbkdf2Block, hmac_eq]
  exact pbkdf2Iterate_eq id password salt i (iters - 1) 0 _

theorem length_pbkdf2U (id : HashId) (password salt : List Byte) (i j : Nat) :
    (Rfc.pbkdf2U id password salt i j).length = hashDigestSize id := by
  cases j <;> exact length_rfcHmac id _ _

theorem length_pbkdf2T (id : HashId) (password salt : List Byte) (iters i : Nat) :
    (Rfc.pbkdf2T id password salt iters i).length = hashDigestSize id := by
  have key : ∀ (l : List Nat) (t : List Byte), t.length = hashDigestSize id →
      ((l.map (Rfc.pbkdf2U id password salt i)).foldl xorBytes t).length = hashDigestSize id := by
    intro l
    induction l with
    | nil => intro t ht; exact ht
    | cons j l ih =>
      intro t ht
      exact ih _ (by rw [length_xorBytes, ht, length_pbkdf2U, Nat.min_self])
  exact key _ _ (length_pbkdf2U id password salt i 0)

theorem length_flatMap_pbkdf2T (id : HashId) (password salt : List Byte) (iters : Nat) (l : List Nat) :
    (l.flatMap (Rfc.pbkdf2T id password salt iters)).length = l.length * hashDigestSize id := by
  induction l with
  | nil => simp
  | cons i l ih => rw [List.flatMap_cons, List.length_append, length_pbkdf2T, ih, List.length_cons]; ring

/-- The loop from block `blk` on: the first `dklen` bytes of the blocks that are still needed. -/
theorem pbkdf2Loop_eq (id : HashId) (password salt : List Byte) (iters fuel blk dklen : Nat)
    (hfuel : dklen ≤ fuel) :
    pbkdf2Loop id password salt iters fuel blk dklen =
      ((List.range' blk ((dklen + hashDigestSize id - 1) / hashDigestSize id)).flatMap
        (Rfc.pbkdf2T id password salt iters)).take dklen := by
  have hpos := hashDigestSize_pos id
  induction fuel generalizing blk dklen with
  | zero =>
    obtain rfl : dklen = 0 := by omega
    simp [pbkdf2Loop]
  | succ fuel ih =>
    rw [pbkdf2Loop]
    split
    · rename_i h0; simp [h0]
    · rename_i h0
      dsimp only
      rw [pbkdf2Block_eq]
      by_cases hle : dklen ≤ hashDigestSize id
      · -- the last block, cut
        have hblocks : (dklen + hashDigestSize id - 1) / hashDigestSize id = 1 := by
          rw [Nat.div_eq_iff hpos]; omega
        rw [hblocks, Nat.min_eq_left hle, Nat.sub_self, ih (blk + 1) 0 (by omega)]
        simp
      · have hblocks : (dklen + hashDigestSize id - 1) / hashDigestSize id =
            (dklen - hashDigestSize id + hashDigestSize id - 1) / hashDigestSize id + 1 := by
          rw [← Nat.add_div_right _ hpos]
          congr 1
          omega
        rw [Nat.min_eq_right (by omega), ih (blk + 1) _ (by omega), hblocks, List.range'_succ,
          List.flatMap_cons, List.take_append, length_pbkdf2T,
          List.take_of_length_le (l := Rfc.pbkdf2T id password salt iters blk)
            (i := dklen) (by rw [length_pbkdf2T]; omega),
          List.take_of_length_le (l := Rfc.pbkdf2T id password salt iters blk)
            (i := hashDigestSize id) (by rw [length_pbkdf2T])]

/-- `pbkdf2` is RFC 8018's for every hash, password, salt, iteration count and length. -/
theorem pbkdf2_eq (id : HashId) (password salt : List Byte) (iters dklen : Nat) :
    pbkdf2 id password salt iters dklen = Rfc.pbkdf2 id password salt iters dklen :=
  pbkdf2Loop_eq id password salt iters dklen 1 dklen (le_refl _)

theorem length_pbkdf2 (id : HashId) (password salt : List Byte) (iters dklen : Nat) :
    (pbkdf2 id password salt iters dklen).length = dklen := by
  have hpos := hashDigestSize_pos id
  rw [pbkdf2_eq, Rfc.pbkdf2, List.length_take, length_flatMap_pbkdf2T, List.length_range']
  have hround : dklen ≤ (dklen + hashDigestSize id - 1) / hashDigestSize id * hashDigestSize id := by
    have := Nat.div_add_mod (dklen + hashDigestSize id - 1) (hashDigestSize id)
    have hlt := Nat.mod_lt (dklen + hashDigestSize id - 1) hpos
    rw [Nat.mul_comm] at this
    omega
  omega

end SakuruBoot

import SakuruBoot.Crypto.Pbkdf2
import SakuruBoot.Crypto.ShaRun

/-!
# Runs of `hmac` and `pbkdf2`

The functions of `crypto/hmac.c` and `crypto/pbkdf2.c` on buffers, over the runs of the hashes. `hmac` reads its message
from the memory it writes its result to, so the two may overlap, as they do in the iterations of `pbkdf2`. Both give the
values of the standards exactly while the hashes have room for one more block behind key and message (`hmac_right_iff`,
`pbkdf2_right_iff`).
-/

namespace SakuruBoot
open CStr (Byte)
open Bytes

/-- `init`, the updates and `final`. -/
def shaRun (fuel : Nat) (id : HashId) (chunks : List (List Byte)) : Option (List Byte) :=
  (chunks.foldlM (shaUpdateRun fuel) (shaInit id)).bind (shaFinalRun fuel)

/-- The array `k`: the key or its hash, filled with zeros. -/
def hmacKeyRun (fuel : Nat) (id : HashId) (key : List Byte) : Option (List Byte) :=
  (if shaBlockSize id < key.length then shaRun fuel id [key] else some key).map (fit · (shaBlockSize id))

/-- The three `hmac_*` functions; `mem` holds the message and, written last, the result. -/
def hmacWithRun (id : HashId) (fuel : Nat) (key mem : List Byte) (msg mlen out : Nat) : Option (List Byte) := do
  let k ← hmacKeyRun fuel id key
  let ipad := k.map (· ^^^ 0x36)
  let opad := k.map (· ^^^ 0x5c)
  let inner ← shaRun fuel id [ipad, slice mem msg mlen]
  let digest ← shaRun fuel id [opad, inner]
  return patch mem out digest

def hmacSha1Run := hmacWithRun .sha1
def hmacSha256Run := hmacWithRun .sha256
def hmacSha512Run := hmacWithRun .sha512

def hmacRun : HashId → Nat → List Byte → List Byte → Nat → Nat → Nat → Option (List Byte)
  | .sha1 => hmacSha1Run
  | .sha256 => hmacSha256Run
  | .sha512 => hmacSha512Run

variable {id : HashId} {fuel : Nat} {key msg mem : List Byte}

/-! ## HMAC -/

theorem shaRun_eq {chunks : List (List Byte)} (hroom : ∀ c ∈ chunks, c.length + shaBlockSize id < 2 ^ 32)
    (hfuel : 2 ^ 32 ≤ fuel) : shaRun fuel id chunks = some (hashDigest id chunks.flatten) := by
  have hstart : ShaAbsorbed (shaInit id) [] := shaAbsorbed_init
  obtain ⟨ctx, hrun, h⟩ := hstart.updates hroom hfuel
  rw [shaRun, hrun, Option.bind_some, h.final (by omega), List.nil_append, hashDigest_fips]

theorem shaRun_wraps {pre : List (List Byte)} (hpre : ∀ c ∈ pre, c.length + shaBlockSize id < 2 ^ 32)
    (hwhole : pre.flatten.length % shaBlockSize id = 0) (hlen : msg.length < 2 ^ 32)
    (hroom : 2 ^ 32 ≤ msg.length + shaBlockSize id) (hfuel : 2 ^ 32 ≤ fuel) : shaRun fuel id (pre ++ [msg]) = none := by
  have hstart : ShaAbsorbed (shaInit id) [] := shaAbsorbed_init
  obtain ⟨ctx, hrun, h⟩ := hstart.updates hpre hfuel
  rw [List.nil_append] at h
  have hnone := h.update_wraps hwhole hlen hroom fuel
  rw [shaRun, List.foldlM_append, hrun, Option.bind_eq_bind, Option.bind_some, List.foldlM_cons, hnone]
  rfl

theorem hmacRun_eq_with (id : HashId) : hmacRun id = hmacWithRun id := by cases id <;> rfl

theorem shaBlockSize_eq (id : HashId) : shaBlockSize id = Rfc.blockSize id := by cases id <;> rfl

theorem digestSize_le (id : HashId) : hashDigestSize id ≤ shaBlockSize id := by cases id <;> decide

theorem hmacKeyRun_eq (hkey : key.length + shaBlockSize id < 2 ^ 32) (hfuel : 2 ^ 32 ≤ fuel) :
    hmacKeyRun fuel id key = some (Rfc.hmacKey id key) := by
  rw [hmacKeyRun, Rfc.hmacKey, ← shaBlockSize_eq]
  split_ifs with hlong
  · rw [shaRun_eq (by simpa using hkey) hfuel, List.flatten_singleton, Option.map_some]
  · rfl

theorem length_hmacKey (id : HashId) (key : List Byte) : (Rfc.hmacKey id key).length = shaBlockSize id := by
  rw [Rfc.hmacKey, length_fit, shaBlockSize_eq]

theorem hmacRun_eq {off mlen : Nat} (hkey : key.length + shaBlockSize id < 2 ^ 32)
    (hmlen : mlen + shaBlockSize id < 2 ^ 32) (hfuel : 2 ^ 32 ≤ fuel) (out : Nat) :
    hmacRun id fuel key mem off mlen out = some (patch mem out (Rfc.hmac id key (slice mem off mlen))) := by
  have hB := shaBlockSize_le id
  have hpad : ∀ (x : Byte) (m : List Byte), m.length + shaBlockSize id < 2 ^ 32 →
      shaRun fuel id [(Rfc.hmacKey id key).map (· ^^^ x), m] =
        some (hashDigest id ((Rfc.hmacKey id key).map (· ^^^ x) ++ m)) := by
    intro x m hm
    rw [shaRun_eq _ hfuel, List.flatten_cons, List.flatten_singleton]
    intro c hc
    rcases List.mem_pair.mp hc with rfl | rfl
    · rw [List.length_map, length_hmacKey]
      omega
    · exact hm
  have hmsg : (slice mem off mlen).length + shaBlockSize id < 2 ^ 32 := by
    rw [length_slice]
    omega
  have hinner : ∀ m, (hashDigest id m).length + shaBlockSize id < 2 ^ 32 := by
    intro m
    have hsize := digestSize_le id
    rw [length_hashDigest]
    omega
  rw [hmacRun_eq_with, hmacWithRun, hmacKeyRun_eq hkey hfuel, Option.bind_eq_bind, Option.bind_some]
  dsimp only
  rw [hpad _ _ hmsg, Option.bind_some, hpad _ _ (hinner _), Option.bind_some]
  rfl

theorem hmacRun_wraps {off mlen : Nat} (hkey : key.length < 2 ^ 32) (hmlen : mlen < 2 ^ 32) (hin : off + mlen ≤ mem.length)
    (hroom : ¬ (key.length + shaBlockSize id < 2 ^ 32 ∧ mlen + shaBlockSize id < 2 ^ 32)) (hfuel : 2 ^ 32 ≤ fuel)
    (out : Nat) : hmacRun id fuel key mem off mlen out = none := by
  have hB := shaBlockSize_le id
  rw [hmacRun_eq_with, hmacWithRun]
  by_cases hlong : key.length + shaBlockSize id < 2 ^ 32
  · -- the inner hash, behind the block of the key
    have hinner : shaRun fuel id ([(Rfc.hmacKey id key).map (· ^^^ 0x36)] ++ [slice mem off mlen]) = none := by
      apply shaRun_wraps _ _ _ _ hfuel
      · intro c hc
        rw [List.mem_singleton.mp hc, List.length_map, length_hmacKey]
        omega
      · rw [List.flatten_singleton, List.length_map, length_hmacKey, Nat.mod_self]
      · rw [length_slice]
        omega
      · rw [length_slice]
        omega
    rw [hmacKeyRun_eq hlong hfuel, Option.bind_eq_bind, Option.bind_some]
    dsimp only
    rw [List.singleton_append] at hinner
    rw [hinner, Option.bind_none]
  · -- the hash of the key
    have hhash : shaRun fuel id ([] ++ [key]) = none :=
      shaRun_wraps (by simp) (Nat.zero_mod _) hkey (Nat.not_lt.mp hlong) hfuel
    rw [List.nil_append] at hhash
    rw [hmacKeyRun, if_pos (by omega), hhash]
    rfl

/-- With enough fuel the memory holds the value of RFC 2104 at `out`, and what it held elsewhere. -/
def HmacRight (id : HashId) (key mem : List Byte) (msg mlen out : Nat) : Prop :=
  ∃ n, ∀ fuel ≥ n, hmacRun id fuel key mem msg mlen out = some (patch mem out (Rfc.hmac id key (slice mem msg mlen)))

/-- For every hash, key and message, wherever the result goes. -/
theorem hmac_right_iff (id : HashId) {key mem : List Byte} {msg mlen : Nat} (hkey : key.length < 2 ^ 32)
    (hmlen : mlen < 2 ^ 32) (hin : msg + mlen ≤ mem.length) (out : Nat) :
    HmacRight id key mem msg mlen out ↔ key.length + shaBlockSize id < 2 ^ 32 ∧ mlen + shaBlockSize id < 2 ^ 32 := by
  constructor
  · rintro ⟨n, h⟩
    by_contra hroom
    have hnone := hmacRun_wraps hkey hmlen hin hroom (Nat.le_max_right n (2 ^ 32)) out
    rw [h _ (Nat.le_max_left n (2 ^ 32))] at hnone
    cases hnone
  · rintro ⟨hk, hm⟩
    exact ⟨2 ^ 32, fun fuel hfuel => hmacRun_eq hk hm hfuel out⟩

/-- In place, as `pbkdf2` calls it. -/
theorem hmac_right_in_place :
    HmacRight .sha1 [0x70, 0x77] (List.replicate 64 0) 0 20 0 ↔ 2 + 64 < 2 ^ 32 ∧ 20 + 64 < 2 ^ 32 :=
  hmac_right_iff .sha1 (by decide) (by decide) (by decide) 0

/-- A key that ends less than a block before `2 ^ 32`. -/
theorem hmac_longest_wraps : ¬ HmacRight .sha256 (List.replicate (2 ^ 32 - 64) 0) (List.replicate 32 0) 0 0 0 := by
  have hlen : (List.replicate (2 ^ 32 - 64) (0 : Byte)).length = 2 ^ 32 - 64 := List.length_replicate
  rintro ⟨n, h⟩
  have hnone : hmacRun .sha256 (max n (2 ^ 32)) (List.replicate (2 ^ 32 - 64) 0) (List.replicate 32 0) 0 0 0 = none :=
    hmacRun_wraps (by rw [hlen]; decide) (by decide) (by decide) (by rw [hlen]; decide) (Nat.le_max_right n (2 ^ 32)) 0
  rw [h _ (Nat.le_max_left n (2 ^ 32))] at hnone
  cases hnone

/-! ## PBKDF2 -/

/-- The local arrays of `pbkdf2`, the key, and the counters of its loop. -/
structure Pbkdf2State where
  saltBlk : List Byte
  u : List Byte
  t : List Byte
  dk : List Byte
  blk : Nat
  outOff : Nat
  dklen : Nat

/-- `for (c = 1; c < iters; c++)` on `(u, t)`, with the HMAC of `u` written over `u`. -/
def pbkdf2IterateRun (fuel : Nat) (id : HashId) (password : List Byte) : Nat → List Byte × List Byte →
    Option (List Byte × List Byte)
  | 0, s => some s
  | n + 1, (u, t) => do
    let u ← hmacRun id fuel password u 0 (hashDigestSize id) 0
    pbkdf2IterateRun fuel id password n (u, patch t 0 (xorBytes (t.take (hashDigestSize id)) (u.take (hashDigestSize id))))

/-- One round of the loop over the blocks. -/
def pbkdf2BlockRun (fuel : Nat) (id : HashId) (password : List Byte) (slen iters : Nat) (s : Pbkdf2State) :
    Option Pbkdf2State := do
  let saltBlk := patch s.saltBlk slen (be 4 s.blk)
  -- the first HMAC reads `salt_blk` and writes `u`
  let mem ← hmacRun id fuel password (saltBlk ++ s.u) 0 (slen + 4) saltBlk.length
  let u := mem.drop saltBlk.length
  let t := patch s.t 0 (u.take (hashDigestSize id))
  let (u, t) ← pbkdf2IterateRun fuel id password (iters - 1) (u, t)
  let take := min s.dklen (hashDigestSize id)
  return { saltBlk := saltBlk, u := u, t := t, dk := patch s.dk s.outOff (t.take take), blk := (s.blk + 1) % 2 ^ 32,
           outOff := s.outOff + take, dklen := s.dklen - take }

/-- `for (blk = 1; dklen > 0; blk++)`. -/
def pbkdf2LoopRun (fuel : Nat) (id : HashId) (password : List Byte) (slen iters : Nat) : Nat → Pbkdf2State →
    Option (List Byte)
  | 0, _ => none
  | n + 1, s =>
    if s.dklen = 0 then some s.dk
    else (pbkdf2BlockRun fuel id password slen iters s).bind (pbkdf2LoopRun fuel id password slen iters n)

/-- What the local arrays hold at the start. -/
structure Pbkdf2Stack where
  saltBlk : List Byte
  u : List Byte
  t : List Byte
  saltBlk_length : saltBlk.length = 512
  u_length : u.length = 64
  t_length : t.length = 64

/-- The buffer `dk` behind the call. -/
def pbkdf2Run (fuel : Nat) (id : HashId) (stack : Pbkdf2Stack) (password salt : List Byte) (iters : Nat) (dk : List Byte)
    (dklen : Nat) : Option (List Byte) :=
  pbkdf2LoopRun fuel id password salt.length iters fuel
    { saltBlk := patch stack.saltBlk 0 salt, u := stack.u, t := stack.t, dk := dk, blk := 1, outOff := 0, dklen := dklen }

variable {password salt u t : List Byte} {iters : Nat}

theorem digestSize_le_64 (id : HashId) : hashDigestSize id ≤ 64 := by cases id <;> decide

theorem patch_front {a d : List Byte} {n : Nat} (ha : a.length = 64) (hd : d.length = n) (hn : n ≤ 64) :
    (patch a 0 d).length = 64 ∧ (patch a 0 d).take n = d := by
  rw [length_patch_zero, ha, hd, take_patch_zero _ _ _ hd.ge]
  exact ⟨Nat.max_eq_right hn, List.take_of_length_le hd.le⟩

theorem pbkdf2IterateRun_eq (hpass : password.length + shaBlockSize id < 2 ^ 32) (hfuel : 2 ^ 32 ≤ fuel) (n : Nat)
    (hu : u.length = 64) (ht : t.length = 64) : ∃ u' t', pbkdf2IterateRun fuel id password n (u, t) = some (u', t') ∧
      u'.length = 64 ∧ t'.length = 64 ∧ t'.take (hashDigestSize id) =
        (pbkdf2Iterate id password n (u.take (hashDigestSize id), t.take (hashDigestSize id))).2 := by
  have hsize := digestSize_le_64 id
  have hB := shaBlockSize_le id
  induction n generalizing u t with
  | zero => exact ⟨u, t, rfl, hu, ht, rfl⟩
  | succ n ih =>
    have hrun : hmacRun id fuel password u 0 (hashDigestSize id) 0 =
        some (patch u 0 (Rfc.hmac id password (slice u 0 (hashDigestSize id)))) := hmacRun_eq hpass (by omega) hfuel 0
    have hxor : (xorBytes (t.take (hashDigestSize id)) (Rfc.hmac id password (slice u 0 (hashDigestSize id)))).length =
        hashDigestSize id := by
      rw [length_xorBytes, List.length_take, length_rfcHmac]
      omega
    obtain ⟨hu1, hd⟩ := patch_front hu (length_rfcHmac id password (slice u 0 (hashDigestSize id))) hsize
    obtain ⟨ht1, hx⟩ := patch_front ht hxor hsize
    obtain ⟨u', t', hrest, hu', ht', heq⟩ := ih hu1 ht1
    refine ⟨u', t', ?_, hu', ht', ?_⟩
    · rw [pbkdf2IterateRun, hrun, Option.bind_eq_bind, Option.bind_some, hd]
      exact hrest
    · rw [heq, hd, hx, pbkdf2Iterate, hmac_eq, slice, List.drop_zero]

theorem pbkdf2Start_eq (hpass : password.length + shaBlockSize id < 2 ^ 32) (hfuel : 2 ^ 32 ≤ fuel)
    (hsalt : salt.length ≤ 508) {saltBlk : List Byte} (hs : saltBlk.length = 512)
    (hfront : saltBlk.take salt.length = salt) (u : List Byte) (blk : Nat) :
    (patch saltBlk salt.length (be 4 blk)).length = 512 ∧
      (patch saltBlk salt.length (be 4 blk)).take salt.length = salt ∧
      (hmacRun id fuel password (patch saltBlk salt.length (be 4 blk) ++ u) 0 (salt.length + 4) 512).map (·.drop 512) =
        some (patch u 0 (Rfc.hmac id password (salt ++ be 4 blk))) := by
  have hB := shaBlockSize_le id
  have hlen : (patch saltBlk salt.length (be 4 blk)).length = 512 := by
    rw [length_patch (by rw [length_be]; omega), hs]
  have hsplit : patch saltBlk salt.length (be 4 blk) = salt ++ (be 4 blk ++ saltBlk.drop (salt.length + 4)) := by
    rw [patch, hfront, length_be, List.append_assoc]
  have hmsg : slice (patch saltBlk salt.length (be 4 blk) ++ u) 0 (salt.length + 4) = salt ++ be 4 blk := by
    rw [slice_append_left (by omega), hsplit, ← List.append_assoc, slice_zero_left]
    rw [List.length_append, length_be]
  refine ⟨hlen, by rw [hsplit, List.take_left], ?_⟩
  rw [hmacRun_eq hpass (by omega) hfuel, hmsg, Option.map_some, drop_patch (by rw [List.length_append]; omega),
    ← List.drop_drop, List.drop_left' hlen, patch_zero]

/-- What the rounds keep: the salt at the front of its buffer, and the lengths of the arrays. -/
structure Pbkdf2State.Holds (s : Pbkdf2State) (salt : List Byte) : Prop where
  saltBlk_length : s.saltBlk.length = 512
  front : s.saltBlk.take salt.length = salt
  u_length : s.u.length = 64
  t_length : s.t.length = 64

theorem pbkdf2BlockRun_eq {s : Pbkdf2State} (hpass : password.length + shaBlockSize id < 2 ^ 32)
    (hfuel : 2 ^ 32 ≤ fuel) (hsalt : salt.length ≤ 508) (hs : s.Holds salt) (iters : Nat) :
    ∃ s', pbkdf2BlockRun fuel id password salt.length iters s = some s' ∧ s'.Holds salt ∧
      s'.dk = patch s.dk s.outOff ((pbkdf2Block id password salt iters s.blk).take (min s.dklen (hashDigestSize id))) ∧
      s'.blk = (s.blk + 1) % 2 ^ 32 ∧ s'.outOff = s.outOff + min s.dklen (hashDigestSize id) ∧
      s'.dklen = s.dklen - min s.dklen (hashDigestSize id) := by
  have hsize := digestSize_le_64 id
  obtain ⟨hlen, htake, hfirst⟩ := pbkdf2Start_eq hpass hfuel hsalt hs.saltBlk_length hs.front s.u s.blk
  obtain ⟨mem, hmem, hdrop⟩ := Option.map_eq_some_iff.mp hfirst
  obtain ⟨hu1, hd⟩ := patch_front hs.u_length (length_rfcHmac id password (salt ++ be 4 s.blk)) hsize
  obtain ⟨ht1, hd'⟩ := patch_front hs.t_length (length_rfcHmac id password (salt ++ be 4 s.blk)) hsize
  obtain ⟨u', t', hiter, hu', ht', heq⟩ := pbkdf2IterateRun_eq hpass hfuel (iters - 1) hu1 ht1
  have hblock : t'.take (hashDigestSize id) = pbkdf2Block id password salt iters s.blk := by
    rw [heq, hd, hd', pbkdf2Block, hmac_eq]
  have hcut : t'.take (min s.dklen (hashDigestSize id)) =
      (pbkdf2Block id password salt iters s.blk).take (min s.dklen (hashDigestSize id)) := by
    rw [← hblock, List.take_take, Nat.min_eq_left (Nat.min_le_right _ _)]
  refine ⟨{ saltBlk := patch s.saltBlk salt.length (be 4 s.blk), u := u', t := t'
            dk := patch s.dk s.outOff (t'.take (min s.dklen (hashDigestSize id))), blk := (s.blk + 1) % 2 ^ 32
            outOff := s.outOff + min s.dklen (hashDigestSize id), dklen := s.dklen - min s.dklen (hashDigestSize id) },
    ?_, ⟨hlen, htake, hu', ht'⟩, congrArg (patch s.dk s.outOff) hcut, rfl, rfl, rfl⟩
  rw [pbkdf2BlockRun]
  dsimp only
  rw [hlen, hmem, Option.bind_eq_bind, Option.bind_some, hdrop, hd, hiter]
  rfl

theorem pbkdf2Block_mod (id : HashId) (password salt : List Byte) (iters blk : Nat) :
    pbkdf2Block id password salt iters (blk % 2 ^ 32) = pbkdf2Block id password salt iters blk := by
  have hbytes : be 4 (blk % 2 ^ 32) = be 4 blk := be_mod 4 blk
  rw [pbkdf2Block, pbkdf2Block, hbytes]

theorem length_pbkdf2Block (id : HashId) (password salt : List Byte) (iters blk : Nat) :
    (pbkdf2Block id password salt iters blk).length = hashDigestSize id := by
  rw [pbkdf2Block_eq, length_pbkdf2T]

/-- The loop over the blocks, from block `blk` on. -/
theorem pbkdf2LoopRun_eq (hpass : password.length + shaBlockSize id < 2 ^ 32) (hfuel : 2 ^ 32 ≤ fuel)
    (hsalt : salt.length ≤ 508) (iters n : Nat) {n' blk : Nat} {s : Pbkdf2State} (hs : s.Holds salt)
    (hblk : s.blk = blk % 2 ^ 32) (hn : s.dklen < n) (hn' : s.dklen ≤ n') :
    pbkdf2LoopRun fuel id password salt.length iters n s =
      some (patch s.dk s.outOff (pbkdf2Loop id password salt iters n' blk s.dklen)) := by
  have hpos := hashDigestSize_pos id
  induction n generalizing n' blk s with
  | zero => exact absurd hn (Nat.not_lt_zero _)
  | succ n ih =>
    rw [pbkdf2LoopRun]
    by_cases hzero : s.dklen = 0
    · have hnil : pbkdf2Loop id password salt iters n' blk s.dklen = [] := by
        cases n' with
        | zero => rfl
        | succ n' => rw [pbkdf2Loop, if_pos hzero]
      rw [if_pos hzero, hnil, patch, List.append_nil, List.length_nil, Nat.add_zero, List.take_append_drop]
    · obtain ⟨n', rfl⟩ : ∃ i, n' = i + 1 := ⟨n' - 1, by omega⟩
      obtain ⟨s', hrun, hs', hdk, hblk', hoff, hdklen⟩ := pbkdf2BlockRun_eq hpass hfuel hsalt hs iters
      have hnext : s'.blk = (blk + 1) % 2 ^ 32 := by rw [hblk', hblk, Nat.mod_add_mod]
      have hlen : ((pbkdf2Block id password salt iters blk).take (min s.dklen (hashDigestSize id))).length =
          min s.dklen (hashDigestSize id) := by
        rw [List.length_take, length_pbkdf2Block]
        omega
      rw [if_neg hzero, hrun, Option.bind_some, ih hs' hnext (by omega) (show s'.dklen ≤ n' by omega), hdk, hoff, hblk,
        pbkdf2Block_mod, pbkdf2Loop, if_neg hzero, hdklen]
      dsimp only
      rw [← patch_append, hlen]

theorem pbkdf2Run_eq (hpass : password.length + shaBlockSize id < 2 ^ 32) (hsalt : salt.length ≤ 508) {dk : List Byte}
    {dklen : Nat} (hdklen : dklen < 2 ^ 32) (stack : Pbkdf2Stack) (hfuel : 2 ^ 32 ≤ fuel) :
    pbkdf2Run fuel id stack password salt iters dk dklen =
      some (Rfc.pbkdf2 id password salt iters dklen ++ dk.drop dklen) := by
  have hs : (Pbkdf2State.mk (patch stack.saltBlk 0 salt) stack.u stack.t dk 1 0 dklen).Holds salt := by
    refine ⟨?_, ?_, stack.u_length, stack.t_length⟩
    · rw [length_patch_zero, stack.saltBlk_length]
      omega
    · rw [take_patch_zero _ _ _ (le_refl _), List.take_length]
  have hloop : pbkdf2Run fuel id stack password salt iters dk dklen =
      some (patch dk 0 (pbkdf2 id password salt iters dklen)) :=
    pbkdf2LoopRun_eq hpass hfuel hsalt iters fuel hs rfl (hdklen.trans_le hfuel) (le_refl _)
  rw [hloop, patch_zero, length_pbkdf2, pbkdf2_eq]

/-- A password without room: already the first HMAC reads behind it. -/
theorem pbkdf2Run_wraps (hlen : password.length < 2 ^ 32) (hpass : ¬ password.length + shaBlockSize id < 2 ^ 32)
    (hsalt : salt.length ≤ 508) {dk : List Byte} {dklen : Nat} (hpos : dklen ≠ 0) (stack : Pbkdf2Stack)
    (hfuel : 2 ^ 32 ≤ fuel) : pbkdf2Run fuel id stack password salt iters dk dklen = none := by
  have hmem : 0 + (salt.length + 4) ≤
      (patch (patch stack.saltBlk 0 salt) salt.length (be 4 1) ++ stack.u).length := by
    have hgrow : salt.length + 4 ≤ (patch (patch stack.saltBlk 0 salt) salt.length (be 4 1)).length := by
      rw [length_patch, length_patch_zero, stack.saltBlk_length]
      · omega
      · rw [length_patch_zero, stack.saltBlk_length, length_be]
        omega
    rw [List.length_append]
    omega
  have hnone : hmacRun id fuel password (patch (patch stack.saltBlk 0 salt) salt.length (be 4 1) ++ stack.u) 0
      (salt.length + 4) (patch (patch stack.saltBlk 0 salt) salt.length (be 4 1)).length = none :=
    hmacRun_wraps hlen (by omega) hmem (fun h => hpass h.1) hfuel _
  obtain ⟨n, rfl⟩ : ∃ n, fuel = n + 1 := ⟨fuel - 1, by omega⟩
  rw [pbkdf2Run, pbkdf2LoopRun, if_neg hpos, pbkdf2BlockRun]
  dsimp only
  rw [hnone]
  rfl

/-- With enough fuel `dk` holds the key of RFC 8018, and what it held behind it; a shorter length gives a prefix of it. -/
def Pbkdf2Right (id : HashId) (stack : Pbkdf2Stack) (password salt : List Byte) (iters : Nat) (dk : List Byte)
    (dklen : Nat) : Prop :=
  (∃ n, ∀ fuel ≥ n, pbkdf2Run fuel id stack password salt iters dk dklen =
    some (Rfc.pbkdf2 id password salt iters dklen ++ dk.drop dklen)) ∧
  ∀ short ≤ dklen, ∃ n, ∀ fuel ≥ n, pbkdf2Run fuel id stack password salt iters dk short =
    some ((Rfc.pbkdf2 id password salt iters dklen).take short ++ dk.drop short)

/-- The key of a shorter length is a prefix of the key of a longer one. -/
theorem take_rfcPbkdf2 (id : HashId) (password salt : List Byte) (iters : Nat) {short dklen : Nat} (h : short ≤ dklen) :
    (Rfc.pbkdf2 id password salt iters dklen).take short = Rfc.pbkdf2 id password salt iters short := by
  have hpos := hashDigestSize_pos id
  have hle : (short + hashDigestSize id - 1) / hashDigestSize id ≤ (dklen + hashDigestSize id - 1) / hashDigestSize id :=
    Nat.div_le_div_right (by omega)
  obtain ⟨k, hk⟩ := Nat.exists_eq_add_of_le hle
  have hround : short ≤ (short + hashDigestSize id - 1) / hashDigestSize id * hashDigestSize id := by
    have hlt := Nat.lt_div_mul_add (a := short + hashDigestSize id - 1) hpos
    omega
  rw [Rfc.pbkdf2, Rfc.pbkdf2, List.take_take, Nat.min_eq_left h, hk, ← List.range'_append_1, List.flatMap_append,
    List.take_append_of_le_length]
  rwa [length_flatMap_pbkdf2T, List.length_range']

/-- For every hash, salt, count and length, whatever the local arrays held. -/
theorem pbkdf2_right_iff (id : HashId) (stack : Pbkdf2Stack) {password salt : List Byte}
    (hlen : password.length < 2 ^ 32) (hsalt : salt.length ≤ 508) (iters : Nat) (dk : List Byte) {dklen : Nat}
    (hdklen : dklen < 2 ^ 32) :
    Pbkdf2Right id stack password salt iters dk dklen ↔ dklen = 0 ∨ password.length + shaBlockSize id < 2 ^ 32 := by
  constructor
  · rintro ⟨⟨n, h⟩, -⟩
    by_contra hnot
    obtain ⟨hpos, hpass⟩ := not_or.mp hnot
    have hnone : pbkdf2Run (max n (2 ^ 32)) id stack password salt iters dk dklen = none :=
      pbkdf2Run_wraps hlen hpass hsalt hpos stack (Nat.le_max_right n (2 ^ 32))
    rw [h _ (Nat.le_max_left n (2 ^ 32))] at hnone
    cases hnone
  · rintro (rfl | hpass)
    · have hdone : ∀ fuel ≥ 1, pbkdf2Run fuel id stack password salt iters dk 0 = some dk := by
        intro fuel hfuel
        obtain ⟨n, rfl⟩ : ∃ n, fuel = n + 1 := ⟨fuel - 1, by omega⟩
        rw [pbkdf2Run, pbkdf2LoopRun, if_pos rfl]
      refine ⟨⟨1, fun fuel hfuel => ?_⟩, fun short hshort => ⟨1, fun fuel hfuel => ?_⟩⟩
      · rw [hdone fuel hfuel, Rfc.pbkdf2, List.take_zero, List.nil_append, List.drop_zero]
      · rw [Nat.le_zero.mp hshort, hdone fuel hfuel, List.take_zero, List.nil_append, List.drop_zero]
    · refine ⟨⟨2 ^ 32, fun fuel hfuel => pbkdf2Run_eq hpass hsalt hdklen stack hfuel⟩, ?_⟩
      intro short hshort
      refine ⟨2 ^ 32, fun fuel hfuel => ?_⟩
      rw [take_rfcPbkdf2 id password salt iters hshort]
      exact pbkdf2Run_eq hpass hsalt (hshort.trans_lt hdklen) stack hfuel

/-- Arrays that hold zeros. -/
def Pbkdf2Stack.zeros : Pbkdf2Stack where
  saltBlk := List.replicate 512 0
  u := List.replicate 64 0
  t := List.replicate 64 0
  saltBlk_length := List.length_replicate
  u_length := List.length_replicate
  t_length := List.length_replicate

theorem pbkdf2_right_two_blocks :
    Pbkdf2Right .sha1 .zeros [0x70, 0x77] [0x73] 3 (List.replicate 64 0) 30 ↔ 30 = 0 ∨ 2 + 64 < 2 ^ 32 :=
  @pbkdf2_right_iff .sha1 .zeros [0x70, 0x77] [0x73] (by decide) (by decide) 3 (List.replicate 64 0) 30 (by decide)

theorem pbkdf2_longest_wraps :
    ¬ Pbkdf2Right .sha256 .zeros (List.replicate (2 ^ 32 - 64) 0) [0x73] 1 (List.replicate 32 0) 32 := by
  have hlen : (List.replicate (2 ^ 32 - 64) (0 : Byte)).length = 2 ^ 32 - 64 := List.length_replicate
  rintro ⟨⟨n, h⟩, -⟩
  have hnone : pbkdf2Run (max n (2 ^ 32)) .sha256 .zeros (List.replicate (2 ^ 32 - 64) 0) [0x73] 1
      (List.replicate 32 0) 32 = none :=
    pbkdf2Run_wraps (by rw [hlen]; decide) (by rw [hlen]; decide) (by decide) (by decide) _ (Nat.le_max_right n (2 ^ 32))
  rw [h _ (Nat.le_max_left n (2 ^ 32))] at hnone
  cases hnone

end SakuruBoot

import SakuruBoot.Crypto.Blake2b

/-!
# Argon2 (`crypto/argon2.c`)

The key derivation as the code computes it: `argon2` either fails because the allocator does, or
returns `outLen` bytes. Sizes and indices are 32-bit; the block array has as many blocks as the
allocation asked for, reads past it give zeros and writes past it are lost.
-/

namespace SakuruBoot
open CStr (Byte u32)
open Bytes

inductive Argon2Type
  | d
  | i
  | id
  deriving DecidableEq, Repr

def Argon2Type.code : Argon2Type → Nat
  | .d => 0
  | .i => 1
  | .id => 2

def argon2BlockSize : Nat := 1024
def argon2SyncPoints : Nat := 4

/-- `while (remaining > 64)` of `H_prime`, from the previous 64-byte value on. -/
def hPrimeLoop : Nat → List Byte → Nat → List Byte
  | 0, prev, remaining => blake2b prev [] remaining
  | fuel + 1, prev, remaining =>
    if 64 < remaining then
      let a := blake2b prev [] 64
      a.take 32 ++ hPrimeLoop fuel a (remaining - 32)
    else blake2b prev [] remaining

def hPrime (input : List Byte) (outLen : Nat) : List Byte :=
  let first := fun n => blake2bFinal (blake2bUpdate (blake2bUpdate (blake2bInit n []) (le 4 outLen)) input)
  if outLen ≤ 64 then first outLen
  else
    let a := first 64
    a.take 32 ++ hPrimeLoop outLen a (outLen - 32)

def fBlaMka (x y : UInt64) : UInt64 :=
  let xy := (x &&& 0xffffffff) * (y &&& 0xffffffff)
  x + y + (xy <<< 1)

/-- `G_BLAMKA` on four positions of the block. -/
def gBlamka (v : List UInt64) (ia ib ic id : Nat) : List UInt64 :=
  let a := fBlaMka (v.getD ia 0) (v.getD ib 0)
  let d := ror64 (v.getD id 0 ^^^ a) 32
  let c := fBlaMka (v.getD ic 0) d
  let b := ror64 (v.getD ib 0 ^^^ c) 24
  let a := fBlaMka a b
  let d := ror64 (d ^^^ a) 16
  let c := fBlaMka c d
  let b := ror64 (b ^^^ c) 63
  (((v.set ia a).set ib b).set ic c).set id d

def permuteBlock (v : List UInt64) : List UInt64 :=
  let v := (List.range 8).foldl
    (fun v i =>
      let j := i * 2
      let v := gBlamka v j (j + 1) (j + 2) (j + 3)
      let v := gBlamka v (j + 4) (j + 5) (j + 6) (j + 7)
      let v := gBlamka v (j + 8) (j + 9) (j + 10) (j + 11)
      gBlamka v (j + 12) (j + 13) (j + 14) (j + 15))
    v
  (List.range 8).foldl
    (fun v i =>
      let v := gBlamka v i (i + 8) (i + 16) (i + 24)
      let v := gBlamka v (i + 32) (i + 40) (i + 48) (i + 56)
      let v := gBlamka v (i + 64) (i + 72) (i + 80) (i + 88)
      gBlamka v (i + 96) (i + 104) (i + 112) (i + 120))
    v

def gbBlock (x y : List Byte) : List Byte :=
  let r := (List.range 128).map fun i => le64 x i ^^^ le64 y i
  putLe64 (List.zipWith (· ^^^ ·) (permuteBlock r) r)

/-- The reference block's index within its lane. -/
def indexAlpha (pass slice laneLen index pseudoRand : Nat) (sameLane : Bool) : Nat :=
  let seg := laneLen / argon2SyncPoints
  let first := if index = 0 then 1 else 0
  let refArea :=
    if pass = 0 then
      if slice = 0 then u32 (index + 2 ^ 32 - 1)
      else if sameLane then u32 (slice * seg + index + 2 ^ 32 - 1)
      else u32 (slice * seg + 2 ^ 32 - first)
    else if sameLane then u32 (laneLen + 2 ^ 32 - seg + index + 2 ^ 32 - 1)
    else u32 (laneLen + 2 ^ 32 - seg + 2 ^ 32 - first)
  let relative := pseudoRand * pseudoRand / 2 ^ 32
  let relative := refArea * relative / 2 ^ 32
  let startPos :=
    if pass ≠ 0 then if slice = argon2SyncPoints - 1 then 0 else u32 ((slice + 1) * seg) else 0
  -- the sum is 32-bit and unsigned, the subtraction of the 64-bit position is not
  (u32 (startPos + refArea + 2 ^ 32 - 1) + 2 ^ 64 - relative) % 2 ^ 64 % laneLen

structure Argon2Params where
  timeCost : Nat
  memoryKb : Nat
  parallelism : Nat
  type : Argon2Type

/-- The sizes `argon2` computes before it allocates: segment and lane length and number of blocks. -/
structure Argon2Sizes where
  segment : Nat
  lane : Nat
  blocks : Nat

def argon2Sizes (p : Argon2Params) : Argon2Sizes :=
  let blocks := if p.memoryKb < u32 (8 * p.parallelism) then u32 (8 * p.parallelism) else p.memoryKb
  let segment := blocks / u32 (p.parallelism * argon2SyncPoints)
  let segment := if segment = 0 then 1 else segment
  let lane := u32 (segment * argon2SyncPoints)
  { segment := segment, lane := lane, blocks := u32 (lane * p.parallelism) }

def argon2AllocSize (p : Argon2Params) : Nat := u32 ((argon2Sizes p).blocks * argon2BlockSize)

/-- The block a byte offset `(lane * lane_length + i) * 1024` falls on. -/
def argon2Index (laneLen lane i : Nat) : Nat :=
  u32 (u32 (lane * laneLen + i) * argon2BlockSize) / argon2BlockSize

/-- The initial hash. The password length goes in twice, with the parameters and before the
password. -/
def argon2H0 (p : Argon2Params) (password salt : List Byte) (outLen : Nat) : List Byte :=
  let params := [p.parallelism, outLen, p.memoryKb, p.timeCost, 0x13, p.type.code, password.length]
  let chunks := [params.flatMap (le 4), le 4 password.length, password, le 4 salt.length, salt,
    le 4 0, le 4 0]
  blake2bFinal (chunks.foldl blake2bUpdate (blake2bInit 64 []))

abbrev Argon2Mem := List (List Byte)

def argon2Lane0 (h0 : List Byte) (laneLen : Nat) (mem : Argon2Mem) (l : Nat) : Argon2Mem :=
  let block := fun i => hPrime (h0 ++ le 4 i ++ le 4 l) argon2BlockSize
  (mem.set (argon2Index laneLen l 0) (block 0)).set (argon2Index laneLen l 1) (block 1)

/-- The pseudo-random word of a step: from the previous block, or from a hash of the position. -/
def argon2PseudoRand (p : Argon2Params) (sz : Argon2Sizes) (prev : List Byte)
    (pass slice lane idx : Nat) : Nat :=
  if p.type = .d ∨ p.type = .id ∧ 1 ≤ pass ∨ p.type = .id ∧ 2 ≤ slice then u32 (le64 prev 0).toNat
  else
    let input := [pass, lane, slice, sz.blocks, p.timeCost, p.type.code, idx / 128 + 1]
    u32 (le64 (hPrime (input.flatMap (le 4)) argon2BlockSize) (idx % 128)).toNat

/-- One step of the fill loop. -/
def argon2Step (p : Argon2Params) (sz : Argon2Sizes) (pass slice lane : Nat) (mem : Argon2Mem)
    (idx : Nat) : Argon2Mem :=
  let zero := List.replicate argon2BlockSize 0
  let cur := u32 (slice * sz.segment + idx)
  let prevIdx := if cur = 0 then sz.lane - 1 else cur - 1
  let prev := mem.getD (argon2Index sz.lane lane prevIdx) zero
  let pseudoRand := argon2PseudoRand p sz prev pass slice lane idx
  let refLane := if pass = 0 ∧ slice = 0 then lane else pseudoRand / 2 ^ 16 % p.parallelism
  let refIdx := indexAlpha pass slice sz.lane idx pseudoRand (refLane == lane)
  let ref := mem.getD (argon2Index sz.lane refLane refIdx) zero
  let dst := argon2Index sz.lane lane cur
  let block := gbBlock prev ref
  mem.set dst (if pass = 0 then block else xorBytes (mem.getD dst zero) block)

def argon2Segment (p : Argon2Params) (sz : Argon2Sizes) (pass slice : Nat) (mem : Argon2Mem)
    (lane : Nat) : Argon2Mem :=
  let start := if pass = 0 ∧ slice = 0 then 2 else 0
  (List.range' start (sz.segment - start)).foldl (argon2Step p sz pass slice lane) mem

def argon2Fill (p : Argon2Params) (sz : Argon2Sizes) (mem : Argon2Mem) : Argon2Mem :=
  (List.range p.timeCost).foldl
    (fun mem pass => (List.range argon2SyncPoints).foldl
      (fun mem slice => (List.range p.parallelism).foldl (argon2Segment p sz pass slice) mem) mem)
    mem

/-- `argon2`; `none` stands for `-1`, the allocator having no `alloc` bytes. -/
def argon2 (alloc : Nat → Bool) (password salt : List Byte) (p : Argon2Params) (outLen : Nat) :
    Option (List Byte) :=
  if alloc (argon2AllocSize p) then
    let sz := argon2Sizes p
    let zero := List.replicate argon2BlockSize 0
    let mem := List.replicate (argon2AllocSize p / argon2BlockSize) zero
    let h0 := argon2H0 p password salt outLen
    let mem := (List.range p.parallelism).foldl (argon2Lane0 h0 sz.lane) mem
    let mem := argon2Fill p sz mem
    let last := fun l => mem.getD (argon2Index sz.lane l (sz.lane - 1)) zero
    let final := (List.range' 1 (p.parallelism - 1)).foldl (fun b l => xorBytes b (last l)) (last 0)
    some (hPrime final outLen)
  else none

end SakuruBoot

import SakuruBoot.Crypto.Rfc7693

/-!
# Argon2 after RFC 9106

The algorithm of section 3 of the RFC, version 0x13. Four of its parts are arguments, collected in a `Variant`: what is
hashed into the first digest, the permutation inside the compression function, the pseudo-random values that do not
depend on the memory, and the choice of the lane. `standard` is the variant the RFC describes.

The matrix of blocks is kept row by row, so that block `B[i][j]` stands at `i * q + j`.
-/

open CStr (Byte)
open Bytes

namespace Rfc9106

inductive Kind
  | d
  | i
  | id
  deriving DecidableEq, Repr

def Kind.code : Kind → Nat
  | d => 0
  | i => 1
  | id => 2

structure Inputs where
  password : List Byte
  salt : List Byte
  secret : List Byte := []
  assoc : List Byte := []
  parallelism : Nat
  tagLength : Nat
  memory : Nat
  passes : Nat
  kind : Kind

/-! ## Hashing -/

def hash (nn : Nat) (msg : List Byte) : List Byte := Rfc7693.blake2b nn [] msg

/-- `V_1`, `V_2` and so on: each is the hash of the one before. -/
def hashChain (v : List Byte) : Nat → List Byte
  | 0 => v
  | n + 1 => hash 64 (hashChain v n)

/-- The variable-length hash `H'`. -/
def hashVar (t : Nat) (msg : List Byte) : List Byte :=
  if t ≤ 64 then hash t (le 4 t ++ msg)
  else
    let r := (t + 31) / 32 - 2
    let v := hashChain (hash 64 (le 4 t ++ msg))
    (List.range r).flatMap (fun i => (v i).take 32) ++ hash (t - 32 * r) (v (r - 1))

/-! ## Compression -/

def words (block : List Byte) : List UInt64 := (List.range 128).map fun i => (leVal (slice block (8 * i) 8)).toUInt64

/-- `G`: a permutation of the exclusive or, added to it. -/
def compress (permute : List UInt64 → List UInt64) (x y : List Byte) : List Byte :=
  let r := List.zipWith (· ^^^ ·) (words x) (words y)
  (List.zipWith (· ^^^ ·) (permute r) r).flatMap fun w => le 8 w.toNat

/-- `a + b + 2 * trunc(a) * trunc(b)`. -/
def mulAdd (a b : UInt64) : UInt64 := a + b + 2 * (a &&& 0xffffffff) * (b &&& 0xffffffff)

/-- `GB` on four words. -/
def mix (v : List UInt64) (q : Nat × Nat × Nat × Nat) : List UInt64 :=
  let a := mulAdd (v.getD q.1 0) (v.getD q.2.1 0)
  let d := Rfc7693.rotr (v.getD q.2.2.2 0 ^^^ a) 32
  let c := mulAdd (v.getD q.2.2.1 0) d
  let b := Rfc7693.rotr (v.getD q.2.1 0 ^^^ c) 24
  let a := mulAdd a b
  let d := Rfc7693.rotr (d ^^^ a) 16
  let c := mulAdd c d
  let b := Rfc7693.rotr (b ^^^ c) 63
  (((v.set q.1 a).set q.2.1 b).set q.2.2.1 c).set q.2.2.2 d

/-- The four words of each application of `GB` in `P`, columns first and then diagonals. -/
def quads : List (Nat × Nat × Nat × Nat) :=
  [(0, 4, 8, 12), (1, 5, 9, 13), (2, 6, 10, 14), (3, 7, 11, 15), (0, 5, 10, 15), (1, 6, 11, 12), (2, 7, 8, 13),
    (3, 4, 9, 14)]

/-- `P` on the sixteen words at the positions given. -/
def permuteAt (pos : Nat → Nat) : List (Nat × Nat × Nat × Nat) :=
  quads.map fun q => (pos q.1, pos q.2.1, pos q.2.2.1, pos q.2.2.2)

/-- The block is a matrix of eight by eight registers of two words: `P` goes over its rows and then its columns. -/
def blockQuads : List (Nat × Nat × Nat × Nat) :=
  (List.range 8).flatMap (fun i => permuteAt fun k => 16 * i + k) ++
    (List.range 8).flatMap fun i => permuteAt fun k => 16 * (k / 2) + 2 * i + k % 2

def permute (v : List UInt64) : List UInt64 := blockQuads.foldl mix v

/-! ## Sizes and indexing -/

structure Variant where
  first : Inputs → List Byte
  permute : List UInt64 → List UInt64
  /-- `J_1` and `J_2` of a block, as one number, where they do not depend on the memory. -/
  address : (x : Inputs) → (pass lane slice index : Nat) → Nat
  /-- What is taken modulo the number of lanes. -/
  laneOf : Nat → Nat

namespace Inputs

variable (x : Inputs)

/-- `m'`. -/
def blocks : Nat := 4 * x.parallelism * (x.memory / (4 * x.parallelism))

/-- `q`. -/
def columns : Nat := x.blocks / x.parallelism

def segment : Nat := x.columns / 4

end Inputs

def zeroBlock : List Byte := List.replicate 1024 0

/-- The address block of a counter, in slices whose references do not depend on the memory. -/
def addressBlock (x : Inputs) (pass lane slice counter : Nat) : List Byte :=
  let z := [pass, lane, slice, x.blocks, x.passes, x.kind.code, counter].flatMap (le 8) ++ List.replicate 968 0
  compress permute zeroBlock (compress permute zeroBlock z)

def standard : Variant where
  first x := [x.parallelism, x.tagLength, x.memory, x.passes, 0x13, x.kind.code].flatMap (le 4) ++
    [x.password, x.salt, x.secret, x.assoc].flatMap fun s => le 4 s.length ++ s
  permute := permute
  address x pass lane slice index :=
    leVal (Bytes.slice (addressBlock x pass lane slice (index / 128 + 1)) (8 * (index % 128)) 8)
  laneOf j := j / 2 ^ 32

/-- The last three segments of a lane computed and finished, in order. -/
def finished (seg pass slice : Nat) : List Nat :=
  if pass = 0 then List.range (slice * seg)
  else (List.range (3 * seg)).map fun k => ((slice + 1) * seg + k) % (4 * seg)

/-- The blocks that may be referred to, `W`: in the lane itself also those of the current segment, but not the block
before; in another lane not the last one when a segment begins. -/
def references (seg pass slice index : Nat) (same : Bool) : List Nat :=
  if same then (finished seg pass slice ++ List.range' (slice * seg) index).dropLast
  else if index = 0 then (finished seg pass slice).dropLast
  else finished seg pass slice

/-- The column `J_1` selects. -/
def reference (w : List Nat) (j1 : Nat) : Nat := w.getD (w.length - 1 - w.length * (j1 * j1 / 2 ^ 32) / 2 ^ 32) 0

def independent (kind : Kind) (pass slice : Nat) : Bool := kind = .i || kind = .id && pass = 0 && slice < 2

/-! ## The algorithm -/

section Fill

variable (v : Variant) (x : Inputs)

def get (mem : List (List Byte)) (i j : Nat) : List Byte := mem.getD (i * x.columns + j) zeroBlock

/-- `B[i][0]` and `B[i][1]`. -/
def firstBlocks (h0 : List Byte) (mem : List (List Byte)) (i : Nat) : List (List Byte) :=
  (mem.set (i * x.columns) (hashVar 1024 (h0 ++ le 4 0 ++ le 4 i))).set (i * x.columns + 1)
    (hashVar 1024 (h0 ++ le 4 1 ++ le 4 i))

/-- One block. -/
def step (pass slice lane : Nat) (mem : List (List Byte)) (index : Nat) : List (List Byte) :=
  let cur := slice * x.segment + index
  let prev := get x mem lane (if cur = 0 then x.columns - 1 else cur - 1)
  let j := if independent x.kind pass slice then v.address x pass lane slice index else leVal (prev.take 8)
  let l := if pass = 0 ∧ slice = 0 then lane else v.laneOf j % x.parallelism
  let z := reference (references x.segment pass slice index (l = lane)) (j % 2 ^ 32)
  let block := compress v.permute prev (get x mem l z)
  mem.set (lane * x.columns + cur) (if pass = 0 then block else xorBytes (get x mem lane cur) block)

/-- The blocks of a segment; the first two of the first are there. -/
def fillSegment (pass slice : Nat) (mem : List (List Byte)) (lane : Nat) : List (List Byte) :=
  let start := if pass = 0 ∧ slice = 0 then 2 else 0
  (List.range' start (x.segment - start)).foldl (step v x pass slice lane) mem

def fill (mem : List (List Byte)) : List (List Byte) :=
  (List.range x.passes).foldl (fun mem pass => (List.range 4).foldl (fun mem slice =>
    (List.range x.parallelism).foldl (fillSegment v x pass slice) mem) mem) mem

def tag : List Byte :=
  let mem := (List.range x.parallelism).foldl (firstBlocks x (hash 64 (v.first x))) (List.replicate x.blocks zeroBlock)
  let mem := fill v x mem
  let last := fun i => get x mem i (x.columns - 1)
  hashVar x.tagLength ((List.range' 1 (x.parallelism - 1)).foldl (fun b i => xorBytes b (last i)) (last 0))

end Fill

end Rfc9106

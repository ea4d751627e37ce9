import SakuruBoot.Crypto.Sha

/-!
# BLAKE2b (`crypto/blake2b.c`)

The compression function and the byte-wise buffered interface. A full buffer is only compressed when
another byte arrives, so the last block, full or not, is left to `blake2bFinal`.
-/

namespace SakuruBoot
open CStr (Byte)
open Bytes

def blake2bIv : List UInt64 := sha512Iv

def blake2bSigma : List (List Nat) :=
  [[0, 1, 2, 3, 4, 5, 6, 7, 8, 9, 10, 11, 12, 13, 14, 15],
    [14, 10, 4, 8, 9, 15, 13, 6, 1, 12, 0, 2, 11, 7, 5, 3],
    [11, 8, 12, 0, 5, 2, 15, 13, 10, 14, 3, 6, 7, 1, 9, 4],
    [7, 9, 3, 1, 13, 12, 11, 14, 2, 6, 5, 10, 4, 0, 15, 8],
    [9, 0, 5, 7, 2, 4, 10, 15, 14, 1, 11, 12, 6, 8, 3, 13],
    [2, 12, 6, 10, 0, 11, 8, 3, 4, 13, 7, 5, 15, 14, 1, 9],
    [12, 5, 1, 15, 14, 13, 4, 10, 0, 7, 6, 3, 9, 2, 8, 11],
    [13, 11, 7, 14, 12, 1, 3, 9, 5, 0, 15, 4, 8, 6, 2, 10],
    [6, 15, 14, 9, 11, 3, 0, 8, 12, 2, 13, 7, 1, 4, 10, 5],
    [10, 2, 8, 4, 7, 6, 1, 5, 15, 11, 9, 14, 3, 12, 13, 0],
    [0, 1, 2, 3, 4, 5, 6, 7, 8, 9, 10, 11, 12, 13, 14, 15],
    [14, 10, 4, 8, 9, 15, 13, 6, 1, 12, 0, 2, 11, 7, 5, 3]]

def le64 (blk : List Byte) (i : Nat) : UInt64 := (leVal (slice blk (8 * i) 8)).toUInt64

def putLe64 (h : List UInt64) : List Byte := h.flatMap fun v => le 8 v.toNat

structure Blake2bCtx where
  h : List UInt64
  t0 : UInt64
  t1 : UInt64
  buf : List Byte
  outLen : Nat

/-- The mixing step on four positions of `v`, with the two message words `x` and `y`. -/
def blake2bG (x y : UInt64) (v : List UInt64) (ia ib ic id : Nat) : List UInt64 :=
  let a := v.getD ia 0 + v.getD ib 0 + x
  let d := ror64 (v.getD id 0 ^^^ a) 32
  let c := v.getD ic 0 + d
  let b := ror64 (v.getD ib 0 ^^^ c) 24
  let a := a + b + y
  let d := ror64 (d ^^^ a) 16
  let c := c + d
  let b := ror64 (b ^^^ c) 63
  (((v.set ia a).set ib b).set ic c).set id d

/-- The columns and diagonals one round mixes, in order. -/
def blake2bLanes : List (Nat × Nat × Nat × Nat) :=
  [(0, 4, 8, 12), (1, 5, 9, 13), (2, 6, 10, 14), (3, 7, 11, 15), (0, 5, 10, 15), (1, 6, 11, 12),
    (2, 7, 8, 13), (3, 4, 9, 14)]

def blake2bRound (m : List UInt64) (v : List UInt64) (sigma : List Nat) : List UInt64 :=
  (blake2bLanes.zipIdx).foldl
    (fun v lane =>
      let (a, b, c, d) := lane.1
      let i := lane.2
      blake2bG (m.getD (sigma.getD (2 * i) 0) 0) (m.getD (sigma.getD (2 * i + 1) 0) 0) v a b c d)
    v

def blake2bCompress (ctx : Blake2bCtx) (blk : List Byte) (last : Bool) : List UInt64 :=
  let v := ctx.h ++ blake2bIv
  let v := v.set 12 (v.getD 12 0 ^^^ ctx.t0)
  let v := v.set 13 (v.getD 13 0 ^^^ ctx.t1)
  let v := if last then v.set 14 (~~~(v.getD 14 0)) else v
  let m := (List.range 16).map (le64 blk)
  let v := blake2bSigma.foldl (blake2bRound m) v
  (List.range 8).map fun i => ctx.h.getD i 0 ^^^ v.getD i 0 ^^^ v.getD (8 + i) 0

def blake2bInit (outLen : Nat) (key : List Byte) : Blake2bCtx :=
  let h0 := blake2bIv.getD 0 0 ^^^ (0x01010000 : UInt64) ^^^ (key.length.toUInt64 <<< 8) ^^^ outLen.toUInt64
  { h := blake2bIv.set 0 h0
    t0 := 0
    t1 := 0
    buf := if key.isEmpty then [] else fit key 128
    outLen := outLen }

/-- The byte counter after `n` more bytes. -/
def Blake2bCtx.count (ctx : Blake2bCtx) (n : Nat) : Blake2bCtx :=
  let t0 := ctx.t0 + n.toUInt64
  { ctx with t0 := t0, t1 := if t0 < n.toUInt64 then ctx.t1 + 1 else ctx.t1 }

def blake2bUpdate : Blake2bCtx → List Byte → Blake2bCtx
  | ctx, [] => ctx
  | ctx, b :: input =>
    let ctx :=
      if ctx.buf.length = 128 then
        let ctx := ctx.count 128
        { ctx with h := blake2bCompress ctx ctx.buf false, buf := [] }
      else ctx
    blake2bUpdate { ctx with buf := ctx.buf ++ [b] } input

def blake2bFinal (ctx : Blake2bCtx) : List Byte :=
  let ctx := ctx.count ctx.buf.length
  (putLe64 (blake2bCompress ctx (fit ctx.buf 128) true)).take ctx.outLen

def blake2b (input key : List Byte) (outLen : Nat) : List Byte :=
  blake2bFinal (blake2bUpdate (blake2bInit outLen key) input)

end SakuruBoot

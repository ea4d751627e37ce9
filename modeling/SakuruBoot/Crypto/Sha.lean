import SakuruBoot.Lib.MerkleDamgard

/-!
# SHA-1, SHA-256 and SHA-512 (`crypto/sha.c`)

The three block functions, and the `init`/`update`/`final` families as instances of the streaming
block hash. `hashCompute` is the dispatch the LUKS code calls; `hashDigest` is the digest of a whole
message, and they agree on every message (`hashCompute_eq`).

The 64-bit counter of SHA-1 and SHA-256 and the two-word counter of SHA-512 count bytes modulo the
width of the length field they end up in.
-/

namespace SakuruBoot
open CStr (Byte)
open Bytes

def ror32 (x : UInt32) (n : UInt32) : UInt32 := (x >>> n) ||| (x <<< (32 - n))
def ror64 (x : UInt64) (n : UInt64) : UInt64 := (x >>> n) ||| (x <<< (64 - n))

def be32 (blk : List Byte) (i : Nat) : UInt32 := (beVal (slice blk (4 * i) 4)).toUInt32
def be64 (blk : List Byte) (i : Nat) : UInt64 := (beVal (slice blk (8 * i) 8)).toUInt64

def putBe32 (h : List UInt32) : List Byte := h.flatMap fun v => be 4 v.toNat
def putBe64 (h : List UInt64) : List Byte := h.flatMap fun v => be 8 v.toNat

/-! ## SHA-1 -/

def sha1Iv : List UInt32 := [0x67452301, 0xEFCDAB89, 0x98BADCFE, 0x10325476, 0xC3D2E1F0]

def sha1Schedule (blk : List Byte) : List UInt32 :=
  (List.range' 16 64).foldl
    (fun w i =>
      let x := w.getD (i - 3) 0 ^^^ w.getD (i - 8) 0 ^^^ w.getD (i - 14) 0 ^^^ w.getD (i - 16) 0
      w ++ [(x <<< 1) ||| (x >>> 31)])
    ((List.range 16).map (be32 blk))

/-- One round on `(a, b, c, d, e)`. -/
def sha1Round (w : List UInt32) (s : UInt32 × UInt32 × UInt32 × UInt32 × UInt32) (i : Nat) :
    UInt32 × UInt32 × UInt32 × UInt32 × UInt32 :=
  let (a, b, c, d, e) := s
  let (f, k) : UInt32 × UInt32 :=
    if i < 20 then ((b &&& c) ||| (~~~b &&& d), 0x5A827999)
    else if i < 40 then (b ^^^ c ^^^ d, 0x6ED9EBA1)
    else if i < 60 then ((b &&& c) ||| (b &&& d) ||| (c &&& d), 0x8F1BBCDC)
    else (b ^^^ c ^^^ d, 0xCA62C1D6)
  let t := ((a <<< 5) ||| (a >>> 27)) + f + e + k + w.getD i 0
  (t, a, (b <<< 30) ||| (b >>> 2), c, d)

def sha1Block (h : List UInt32) (blk : List Byte) : List UInt32 :=
  let w := sha1Schedule blk
  let (a, b, c, d, e) := (List.range 80).foldl (sha1Round w)
    (h.getD 0 0, h.getD 1 0, h.getD 2 0, h.getD 3 0, h.getD 4 0)
  List.zipWith (· + ·) h [a, b, c, d, e]

def sha1Scheme : MerkleDamgard.Scheme (List UInt32) where
  blockSize := 64
  lenBytes := 8
  iv := sha1Iv
  compress := sha1Block
  output := putBe32
  lenBytes_pos := by decide
  fits := by decide

/-! ## SHA-256 -/

def k256 : List UInt32 :=
  [0x428a2f98, 0x71374491, 0xb5c0fbcf, 0xe9b5dba5, 0x3956c25b, 0x59f111f1, 0x923f82a4, 0xab1c5ed5,
    0xd807aa98, 0x12835b01, 0x243185be, 0x550c7dc3, 0x72be5d74, 0x80deb1fe, 0x9bdc06a7, 0xc19bf174,
    0xe49b69c1, 0xefbe4786, 0x0fc19dc6, 0x240ca1cc, 0x2de92c6f, 0x4a7484aa, 0x5cb0a9dc, 0x76f988da,
    0x983e5152, 0xa831c66d, 0xb00327c8, 0xbf597fc7, 0xc6e00bf3, 0xd5a79147, 0x06ca6351, 0x14292967,
    0x27b70a85, 0x2e1b2138, 0x4d2c6dfc, 0x53380d13, 0x650a7354, 0x766a0abb, 0x81c2c92e, 0x92722c85,
    0xa2bfe8a1, 0xa81a664b, 0xc24b8b70, 0xc76c51a3, 0xd192e819, 0xd6990624, 0xf40e3585, 0x106aa070,
    0x19a4c116, 0x1e376c08, 0x2748774c, 0x34b0bcb5, 0x391c0cb3, 0x4ed8aa4a, 0x5b9cca4f, 0x682e6ff3,
    0x748f82ee, 0x78a5636f, 0x84c87814, 0x8cc70208, 0x90befffa, 0xa4506ceb, 0xbef9a3f7, 0xc67178f2]

def sha256Iv : List UInt32 :=
  [0x6a09e667, 0xbb67ae85, 0x3c6ef372, 0xa54ff53a, 0x510e527f, 0x9b05688c, 0x1f83d9ab, 0x5be0cd19]

def sha256Schedule (blk : List Byte) : List UInt32 :=
  (List.range' 16 48).foldl
    (fun w i =>
      let x := w.getD (i - 15) 0
      let y := w.getD (i - 2) 0
      let s0 := ror32 x 7 ^^^ ror32 x 18 ^^^ (x >>> 3)
      let s1 := ror32 y 17 ^^^ ror32 y 19 ^^^ (y >>> 10)
      w ++ [w.getD (i - 16) 0 + s0 + w.getD (i - 7) 0 + s1])
    ((List.range 16).map (be32 blk))

/-- The eight working variables. -/
structure ShaWork (α : Type) where
  a : α
  b : α
  c : α
  d : α
  e : α
  f : α
  g : α
  h : α

def ShaWork.ofList {α : Type} [Zero α] (h : List α) : ShaWork α :=
  ⟨h.getD 0 0, h.getD 1 0, h.getD 2 0, h.getD 3 0, h.getD 4 0, h.getD 5 0, h.getD 6 0, h.getD 7 0⟩

def ShaWork.toList {α : Type} (s : ShaWork α) : List α := [s.a, s.b, s.c, s.d, s.e, s.f, s.g, s.h]

def sha256Round (w : List UInt32) (s : ShaWork UInt32) (i : Nat) : ShaWork UInt32 :=
  let s1 := ror32 s.e 6 ^^^ ror32 s.e 11 ^^^ ror32 s.e 25
  let ch := (s.e &&& s.f) ^^^ (~~~s.e &&& s.g)
  let t1 := s.h + s1 + ch + k256.getD i 0 + w.getD i 0
  let s0 := ror32 s.a 2 ^^^ ror32 s.a 13 ^^^ ror32 s.a 22
  let maj := (s.a &&& s.b) ^^^ (s.a &&& s.c) ^^^ (s.b &&& s.c)
  let t2 := s0 + maj
  ⟨t1 + t2, s.a, s.b, s.c, s.d + t1, s.e, s.f, s.g⟩

def sha256Block (h : List UInt32) (blk : List Byte) : List UInt32 :=
  let w := sha256Schedule blk
  let s := (List.range 64).foldl (sha256Round w) (ShaWork.ofList h)
  List.zipWith (· + ·) h s.toList

def sha256Scheme : MerkleDamgard.Scheme (List UInt32) where
  blockSize := 64
  lenBytes := 8
  iv := sha256Iv
  compress := sha256Block
  output := putBe32
  lenBytes_pos := by decide
  fits := by decide

/-! ## SHA-512 -/

def k512 : List UInt64 :=
  [0x428a2f98d728ae22, 0x7137449123ef65cd, 0xb5c0fbcfec4d3b2f, 0xe9b5dba58189dbbc,
    0x3956c25bf348b538, 0x59f111f1b605d019, 0x923f82a4af194f9b, 0xab1c5ed5da6d8118,
    0xd807aa98a3030242, 0x12835b0145706fbe, 0x243185be4ee4b28c, 0x550c7dc3d5ffb4e2,
    0x72be5d74f27b896f, 0x80deb1fe3b1696b1, 0x9bdc06a725c71235, 0xc19bf174cf692694,
    0xe49b69c19ef14ad2, 0xefbe4786384f25e3, 0x0fc19dc68b8cd5b5, 0x240ca1cc77ac9c65,
    0x2de92c6f592b0275, 0x4a7484aa6ea6e483, 0x5cb0a9dcbd41fbd4, 0x76f988da831153b5,
    0x983e5152ee66dfab, 0xa831c66d2db43210, 0xb00327c898fb213f, 0xbf597fc7beef0ee4,
    0xc6e00bf33da88fc2, 0xd5a79147930aa725, 0x06ca6351e003826f, 0x142929670a0e6e70,
    0x27b70a8546d22ffc, 0x2e1b21385c26c926, 0x4d2c6dfc5ac42aed, 0x53380d139d95b3df,
    0x650a73548baf63de, 0x766a0abb3c77b2a8, 0x81c2c92e47edaee6, 0x92722c851482353b,
    0xa2bfe8a14cf10364, 0xa81a664bbc423001, 0xc24b8b70d0f89791, 0xc76c51a30654be30,
    0xd192e819d6ef5218, 0xd69906245565a910, 0xf40e35855771202a, 0x106aa07032bbd1b8,
    0x19a4c116b8d2d0c8, 0x1e376c085141ab53, 0x2748774cdf8eeb99, 0x34b0bcb5e19b48a8,
    0x391c0cb3c5c95a63, 0x4ed8aa4ae3418acb, 0x5b9cca4f7763e373, 0x682e6ff3d6b2b8a3,
    0x748f82ee5defb2fc, 0x78a5636f43172f60, 0x84c87814a1f0ab72, 0x8cc702081a6439ec,
    0x90befffa23631e28, 0xa4506cebde82bde9, 0xbef9a3f7b2c67915, 0xc67178f2e372532b,
    0xca273eceea26619c, 0xd186b8c721c0c207, 0xeada7dd6cde0eb1e, 0xf57d4f7fee6ed178,
    0x06f067aa72176fba, 0x0a637dc5a2c898a6, 0x113f9804bef90dae, 0x1b710b35131c471b,
    0x28db77f523047d84, 0x32caab7b40c72493, 0x3c9ebe0a15c9bebc, 0x431d67c49c100d4c,
    0x4cc5d4becb3e42b6, 0x597f299cfc657e2a, 0x5fcb6fab3ad6faec, 0x6c44198c4a475817]

def sha512Iv : List UInt64 :=
  [0x6a09e667f3bcc908, 0xbb67ae8584caa73b, 0x3c6ef372fe94f82b, 0xa54ff53a5f1d36f1,
    0x510e527fade682d1, 0x9b05688c2b3e6c1f, 0x1f83d9abfb41bd6b, 0x5be0cd19137e2179]

def sha512Schedule (blk : List Byte) : List UInt64 :=
  (List.range' 16 64).foldl
    (fun w i =>
      let x := w.getD (i - 15) 0
      let y := w.getD (i - 2) 0
      let s0 := ror64 x 1 ^^^ ror64 x 8 ^^^ (x >>> 7)
      let s1 := ror64 y 19 ^^^ ror64 y 61 ^^^ (y >>> 6)
      w ++ [w.getD (i - 16) 0 + s0 + w.getD (i - 7) 0 + s1])
    ((List.range 16).map (be64 blk))

def sha512Round (w : List UInt64) (s : ShaWork UInt64) (i : Nat) : ShaWork UInt64 :=
  let s1 := ror64 s.e 14 ^^^ ror64 s.e 18 ^^^ ror64 s.e 41
  let ch := (s.e &&& s.f) ^^^ (~~~s.e &&& s.g)
  let t1 := s.h + s1 + ch + k512.getD i 0 + w.getD i 0
  let s0 := ror64 s.a 28 ^^^ ror64 s.a 34 ^^^ ror64 s.a 39
  let maj := (s.a &&& s.b) ^^^ (s.a &&& s.c) ^^^ (s.b &&& s.c)
  let t2 := s0 + maj
  ⟨t1 + t2, s.a, s.b, s.c, s.d + t1, s.e, s.f, s.g⟩

def sha512Block (h : List UInt64) (blk : List Byte) : List UInt64 :=
  let w := sha512Schedule blk
  let s := (List.range 80).foldl (sha512Round w) (ShaWork.ofList h)
  List.zipWith (· + ·) h s.toList

theorem sha512_lenBytes_pos : 0 < 16 := by decide

def sha512Scheme : MerkleDamgard.Scheme (List UInt64) where
  blockSize := 128
  lenBytes := 16
  iv := sha512Iv
  compress := sha512Block
  output := putBe64
  lenBytes_pos := sha512_lenBytes_pos
  fits := by decide

def sha1Init := MerkleDamgard.init sha1Scheme
def sha1Update := MerkleDamgard.update sha1Scheme
def sha1Final := MerkleDamgard.final sha1Scheme
def sha1 (data : List Byte) : List Byte := sha1Final (sha1Update sha1Init data)

def sha256Init := MerkleDamgard.init sha256Scheme
def sha256Update := MerkleDamgard.update sha256Scheme
def sha256Final := MerkleDamgard.final sha256Scheme
def sha256 (data : List Byte) : List Byte := sha256Final (sha256Update sha256Init data)

def sha512Init := MerkleDamgard.init sha512Scheme
def sha512Update := MerkleDamgard.update sha512Scheme
def sha512Final := MerkleDamgard.final sha512Scheme
def sha512 (data : List Byte) : List Byte := sha512Final (sha512Update sha512Init data)

/-! ## Dispatch -/

inductive HashId
  | sha1
  | sha256
  | sha512
  deriving DecidableEq, Repr

/-- `hash_id`; `none` stands for `-1`. -/
def hashId (name : List Byte) : Option HashId :=
  if CStr.strEq name (CStr.lit "sha1") then some .sha1
  else if CStr.strEq name (CStr.lit "sha256") then some .sha256
  else if CStr.strEq name (CStr.lit "sha512") then some .sha512
  else none

def hashDigestSize : HashId → Nat
  | .sha1 => 20
  | .sha256 => 32
  | .sha512 => 64

def hashCompute : HashId → List Byte → List Byte
  | .sha1, data => sha1 data
  | .sha256, data => sha256 data
  | .sha512, data => sha512 data

/-- The digest of a whole message. -/
def hashDigest : HashId → List Byte → List Byte
  | .sha1, m => MerkleDamgard.digest sha1Scheme m
  | .sha256, m => MerkleDamgard.digest sha256Scheme m
  | .sha512, m => MerkleDamgard.digest sha512Scheme m

theorem hashCompute_eq (id : HashId) (m : List Byte) : hashCompute id m = hashDigest id m := by
  cases id <;> exact MerkleDamgard.hash_eq_digest m

/-! ## Digest lengths -/

theorem length_putBe32 (h : List UInt32) : (putBe32 h).length = 4 * h.length := by
  induction h with
  | nil => rfl
  | cons v h ih => simp only [putBe32, List.flatMap_cons, List.length_append, length_be,
      List.length_cons] at ih ⊢; omega

theorem length_putBe64 (h : List UInt64) : (putBe64 h).length = 8 * h.length := by
  induction h with
  | nil => rfl
  | cons v h ih => simp only [putBe64, List.flatMap_cons, List.length_append, length_be,
      List.length_cons] at ih ⊢; omega

theorem length_hashDigest (id : HashId) (m : List Byte) :
    (hashDigest id m).length = hashDigestSize id := by
  cases id with
  | sha1 =>
    have h := MerkleDamgard.absorb_invariant (H := sha1Scheme) (P := fun h => h.length = 5)
      (fun h blk hl => by simp [sha1Scheme, sha1Block, hl]) (h := sha1Iv) rfl
      (MerkleDamgard.pad sha1Scheme m)
    have := length_putBe32 (MerkleDamgard.absorb sha1Scheme sha1Iv (MerkleDamgard.pad sha1Scheme m)).1
    rw [h] at this
    exact this
  | sha256 =>
    have h := MerkleDamgard.absorb_invariant (H := sha256Scheme) (P := fun h => h.length = 8)
      (fun h blk hl => by simp [sha256Scheme, sha256Block, ShaWork.toList, hl]) (h := sha256Iv) rfl
      (MerkleDamgard.pad sha256Scheme m)
    have := length_putBe32
      (MerkleDamgard.absorb sha256Scheme sha256Iv (MerkleDamgard.pad sha256Scheme m)).1
    rw [h] at this
    exact this
  | sha512 =>
    have h := MerkleDamgard.absorb_invariant (H := sha512Scheme) (P := fun h => h.length = 8)
      (fun h blk hl => by simp [sha512Scheme, sha512Block, ShaWork.toList, hl]) (h := sha512Iv) rfl
      (MerkleDamgard.pad sha512Scheme m)
    have := length_putBe64
      (MerkleDamgard.absorb sha512Scheme sha512Iv (MerkleDamgard.pad sha512Scheme m)).1
    rw [h] at this
    exact this

theorem hashDigestSize_pos (id : HashId) : 0 < hashDigestSize id := by cases id <;> decide

end SakuruBoot

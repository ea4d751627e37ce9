import SakuruBoot.Crypto.Argon2
import SakuruBoot.Luks.Luks1

/-!
# LUKS2 unlock (`luks/luks2.c`)

The binary header, the text lookup that stands for a JSON parser, base64, and `luks2Unlock`. Every
lookup takes the first occurrence of its key in the whole text, so the 32 rounds of the slot loop
all try the same parameters.

As for LUKS1, `luks2Unlock_cases` says what a call can do: fail with the outputs untouched, or write
the candidate that passed the digest check.
-/

namespace SakuruBoot
open CStr (Byte u32 i32 toU32)
open Bytes

/-! ## Base64 -/

/-- `b64_val`; `none` stands for `-1`. -/
def b64Val (c : Byte) : Option Nat :=
  if 65 ≤ c ∧ c ≤ 90 then some (c.toNat - 65)
  else if 97 ≤ c ∧ c ≤ 122 then some (c.toNat - 97 + 26)
  else if 48 ≤ c ∧ c ≤ 57 then some (c.toNat - 48 + 52)
  else if c = 43 then some 62
  else if c = 47 then some 63
  else none

/-- The loop of `base64_decode` on its bit buffer; other characters are passed over. -/
def base64Loop : List Byte → Nat → Nat → List Byte
  | [], _, _ => []
  | c :: src, buf, bits =>
    match b64Val c with
    | none => base64Loop src buf bits
    | some v =>
      let buf := u32 (buf * 64 + v)
      if 8 ≤ bits + 6 then
        (buf / 2 ^ (bits + 6 - 8)).toUInt8 :: base64Loop src buf (bits + 6 - 8)
      else base64Loop src buf (bits + 6)

def base64Decode (src : List Byte) : List Byte := base64Loop src 0 0

/-! ## The lookup -/

/-- The text from the first occurrence of `needle` on. -/
def strfind (needle : List Byte) : List Byte → Option (List Byte)
  | [] => if needle.isEmpty then some [] else none
  | c :: hay => if needle.isPrefixOf (c :: hay) then some (c :: hay) else strfind needle hay

def isJsonSpace (c : Byte) : Bool := c == 32 || c == 9 || c == 10 || c == 13
def isJsonDigit (c : Byte) : Bool := 48 ≤ c && c ≤ 57

/-- `json_find_key`: the string or the digits after the first `"key":` of the text. -/
def jsonFindKey (j key : List Byte) : Option (List Byte) :=
  let needle := 34 :: key ++ [34, 58]
  match strfind needle j with
  | none => none
  | some rest =>
    match (rest.drop needle.length).dropWhile isJsonSpace with
    | [] => none
    | c :: v =>
      if c = 34 then some (v.takeWhile (· != 34))
      else if isJsonDigit c then some ((c :: v).takeWhile isJsonDigit)
      else none

/-- `v[i] - '0'`; `char` is signed. -/
def digitVal (c : Byte) : Int := c.toInt8.toInt - 48

def digitsInt (v : List Byte) : Int := v.foldl (fun n c => i32 (n * 10 + digitVal c)) 0

def jsonGetInt (j key : List Byte) : Int := digitsInt ((jsonFindKey j key).getD [])

/-- `json_get_str` into a zeroed buffer of `outMax` bytes. -/
def jsonGetStr (j key : List Byte) (outMax : Nat) : List Byte :=
  ((jsonFindKey j key).getD []).take (outMax - 1)

/-! ## Header and parameters -/

def luks2Probe (buf : List Byte) : Bool :=
  slice buf 0 6 == luksMagic || slice buf 0 6 == [0x53, 0x4b, 0x55, 0x4c, 0xba, 0xbe]

def luks2JsonOff (hdr : List Byte) : Nat := leVal (slice hdr 24 8)
def luks2JsonSize (hdr : List Byte) : Nat := min (leVal (slice hdr 32 8)) 65535
def luks2JsonSecs (hdr : List Byte) : Nat := min ((luks2JsonSize hdr + 511) / 512) 128

/-- The JSON text a header points at. -/
def luks2Json (dev : ReadFn) (hdr : List Byte) : Option (List Byte) :=
  (dev.read (luks2JsonOff hdr / 512) (luks2JsonSecs hdr)).map (·.take (luks2JsonSize hdr))

/-- The part of the segment's encryption after the second `-`. -/
def afterSecondDash (s : List Byte) : Option (List Byte) :=
  let dropDash := fun s : List Byte =>
    match CStr.dropC (· != 45) s with
    | 45 :: rest => some rest
    | _ => none
  (dropDash s).bind dropDash

def luks2Cmode (j : List Byte) : CipherMode :=
  match afterSecondDash (jsonGetStr j (CStr.lit "encryption") 64) with
  | some m => cipherModeId m
  | none => .xts

def luks2KdfType (j : List Byte) : List Byte := jsonGetStr j (CStr.lit "type") 32

/-- The KDF salt; one that decodes to nothing is 32 zero bytes. -/
def luks2KdfSalt (j : List Byte) : List Byte :=
  match base64Decode (jsonGetStr j (CStr.lit "salt") 128) with
  | [] => List.replicate 32 0
  | salt => salt

def luks2KeySize (j : List Byte) : Nat :=
  let n := jsonGetInt j (CStr.lit "key_size")
  if n ≤ 0 ∨ 64 < n then 32 else n.toNat

/-- A number of the JSON text as `u32`, `dflt` when it is zero or absent. -/
def luks2U32 (j key : List Byte) (dflt : Nat) : Nat :=
  let n := toU32 (jsonGetInt j key)
  if n = 0 then dflt else n

def luks2Argon2Params (j : List Byte) : Argon2Params :=
  { timeCost := luks2U32 j (CStr.lit "time") 3
    memoryKb := luks2U32 j (CStr.lit "memory") 65536
    parallelism := luks2U32 j (CStr.lit "cpus") 4
    type := if (luks2KdfType j).getD 6 0 = 100 then .id else .i }

def luks2Hash (j : List Byte) : HashId :=
  (hashId (jsonGetStr j (CStr.lit "hash") 32)).getD .sha256

/-- The derived key; `none` when `argon2` fails. -/
def luks2Derive (alloc : Nat → Bool) (pass j : List Byte) : Option (List Byte) :=
  if (luks2KdfType j).getD 0 0 = 97 then
    argon2 alloc pass (luks2KdfSalt j) (luks2Argon2Params j) (luks2KeySize j)
  else
    some (pbkdf2 (luks2Hash j) pass (luks2KdfSalt j) (luks2U32 j (CStr.lit "iterations") 100000)
      (luks2KeySize j))

/-! ## Key material and digest -/

/-- The static buffers. `dk` is `s2_dk` and the memory that follows it, which the XTS key of twice the
key length reaches into. -/
structure Luks2Mem where
  enc : List Byte
  dec : List Byte
  dk : List Byte

def luks2KmBuf : Nat := 256 * 512

def luks2DecryptSector (xts : XtsCtx) (enc : List Byte) (kmSize i : Nat) : List Byte :=
  let off := 512 * i
  let chunk := min (kmSize - off) 512
  xtsCrypt xts i (enc.drop off) ((chunk + 15) / 16 * 16) true

/-- The bytes of stripe `s`, by an index of 32 bits each; bytes past the buffer read as zero. -/
def af2Stripe (split : List Byte) (s keyBytes : Nat) : List Byte :=
  (List.range keyBytes).map fun i => split.getD (u32 (s * keyBytes + i)) 0

/-- `af2_merge`, the copy of `af_merge` in this file. -/
def af2Merge (id : HashId) (split : List Byte) (stripes keyBytes : Nat) : List Byte :=
  mergeWith id keyBytes (fun s => af2Stripe split s keyBytes) (u32 (stripes + 2 ^ 32 - 1))

def luks2Stripes (j : List Byte) : Nat :=
  let n := jsonGetInt j (CStr.lit "stripes")
  if n ≤ 0 then 4000 else n.toNat

def luks2DigestSalt (j : List Byte) : List Byte :=
  base64Decode (jsonGetStr j (CStr.lit "salt") 128)

/-- `expected_dig`, zero-filled to its 64 bytes. -/
def luks2Expected (j : List Byte) : List Byte :=
  fit (base64Decode (jsonGetStr j (CStr.lit "digest") 128)) 64

def luks2DigestIters (j : List Byte) : Nat :=
  let n := jsonGetInt j (CStr.lit "iterations")
  if n ≤ 0 then 100000 else n.toNat

def luks2DigestMatches (j key : List Byte) : Bool :=
  let dsize := hashDigestSize (luks2Hash j)
  pbkdf2 (luks2Hash j) key (luks2DigestSalt j) (luks2DigestIters j) dsize ==
    (luks2Expected j).take dsize

/-! ## Unlock -/

/-- One round of the slot loop once the key is derived: the candidate if it passes the check. -/
def luks2TryKey (dev : ReadFn) (j : List Byte) (mem : Luks2Mem) : Luks2Mem × Option (List Byte) :=
  let kmOffset := jsonGetInt j (CStr.lit "offset")
  let kmSize := jsonGetInt j (CStr.lit "size")
  if kmOffset ≤ 0 ∨ kmSize ≤ 0 then (mem, none)
  else
    let kmSecs := (kmSize.toNat + 511) / 512
    if luks2KmBuf < kmSecs * 512 then (mem, none)
    else
      match dev.read (kmOffset.toNat / 512) kmSecs with
      | none => (mem, none)
      | some km =>
        let enc := patch mem.enc 0 km
        let xts := xtsInit mem.dk (luks2KeySize j * 2) true
        let dec := patch mem.dec 0
          ((List.range kmSecs).flatMap (luks2DecryptSector xts enc kmSize.toNat))
        let candidate := af2Merge .sha256 dec (luks2Stripes j) (luks2KeySize j)
        ({ mem with enc := enc, dec := dec },
          if luks2DigestMatches j candidate then some candidate else none)

def luks2Attempt (dev : ReadFn) (alloc : Nat → Bool) (pass j : List Byte) (mem : Luks2Mem) :
    Luks2Mem × Option (List Byte) :=
  match luks2Derive alloc pass j with
  | none => (mem, none)
  | some dk => luks2TryKey dev j { mem with dk := patch mem.dk 0 dk }

/-- The slot loop with `n` rounds left. -/
def luks2Slots (dev : ReadFn) (alloc : Nat → Bool) (pass j : List Byte) : Nat → Luks2Mem →
    Luks2Mem × Option (List Byte)
  | 0, mem => (mem, none)
  | n + 1, mem =>
    if (jsonFindKey j (CStr.lit "key_size")).isNone then (mem, none)
    else
      match luks2Attempt dev alloc pass j mem with
      | (mem, some key) => (mem, some key)
      | (mem, none) => luks2Slots dev alloc pass j n mem

/-- `(u64)seg_off_val / 512`. -/
def luks2Payload (j : List Byte) : Nat :=
  (jsonGetInt j (CStr.lit "offset") % 2 ^ 64).toNat / 512

def luks2Success (j key : List Byte) (out : LuksOut) : LuksOut :=
  { masterKey := patch out.masterKey 0 key
    keyBytes := luks2KeySize j
    payloadOffset := luks2Payload j
    cipherMode := luks2Cmode j }

def luks2Unlock (dev : ReadFn) (alloc : Nat → Bool) (pass : List Byte) (mem : Luks2Mem)
    (out : LuksOut) : Int × LuksOut × Luks2Mem :=
  match dev.read 0 8 with
  | none => (-1, out, mem)
  | some hdr =>
    if !luks2Probe hdr then (-1, out, mem)
    else
      match luks2Json dev hdr with
      | none => (-1, out, mem)
      | some j =>
        match luks2Slots dev alloc pass j 32 mem with
        | (mem, some key) => (0, luks2Success j key out, mem)
        | (mem, none) => (-1, out, mem)

/-! ## What a call can do -/

theorem luks2KeySize_le (j : List Byte) : luks2KeySize j ≤ 64 := by
  unfold luks2KeySize
  dsimp only
  split_ifs with h
  · omega
  · omega

theorem length_af2Stripe (split : List Byte) (s keyBytes : Nat) : (af2Stripe split s keyBytes).length = keyBytes := by
  rw [af2Stripe, List.length_map, List.length_range]

theorem luks2TryKey_some {dev : ReadFn} {j : List Byte} {mem mem' : Luks2Mem} {key : List Byte}
    (hsome : luks2TryKey dev j mem = (mem', some key)) :
    key.length = luks2KeySize j ∧ luks2DigestMatches j key = true := by
  unfold luks2TryKey at hsome
  dsimp only at hsome
  split at hsome
  · cases hsome
  · split at hsome
    · cases hsome
    · split at hsome
      · cases hsome
      · simp only [Prod.mk.injEq, Option.ite_none_right_eq_some, Option.some.injEq] at hsome
        obtain ⟨-, hmatch, rfl⟩ := hsome
        exact ⟨length_mergeWith _ _ (luks2KeySize_le j) fun s => length_af2Stripe _ _ _, hmatch⟩

theorem luks2Slots_some {dev : ReadFn} {alloc : Nat → Bool} {pass j : List Byte} {n : Nat}
    {mem mem' : Luks2Mem} {key : List Byte}
    (hsome : luks2Slots dev alloc pass j n mem = (mem', some key)) :
    key.length = luks2KeySize j ∧ luks2DigestMatches j key = true := by
  induction n generalizing mem with
  | zero => cases hsome
  | succ n ih =>
    rw [luks2Slots] at hsome
    split at hsome
    · cases hsome
    · split at hsome
      · rename_i mem₁ key₁ hattempt
        simp only [Prod.mk.injEq, Option.some.injEq] at hsome
        obtain ⟨-, rfl⟩ := hsome
        unfold luks2Attempt at hattempt
        split at hattempt
        · cases hattempt
        · exact luks2TryKey_some hattempt
      · exact ih hsome

/-- Without a `key_size` in the text no slot is tried. -/
theorem luks2Slots_of_no_keySize {dev : ReadFn} {alloc : Nat → Bool} {pass j : List Byte}
    (hkey : jsonFindKey j (CStr.lit "key_size") = none) (n : Nat) (mem : Luks2Mem) :
    luks2Slots dev alloc pass j n mem = (mem, none) := by
  cases n with
  | zero => rfl
  | succ n => simp [luks2Slots, hkey]

theorem luks2Unlock_of_jsonSize_zero {dev : ReadFn} {alloc : Nat → Bool} {pass : List Byte}
    {mem : Luks2Mem} {out : LuksOut}
    (hsize : ∀ hdr, dev.read 0 8 = some hdr → luks2JsonSize hdr = 0) :
    luks2Unlock dev alloc pass mem out = (-1, out, mem) := by
  unfold luks2Unlock
  split
  · rfl
  · rename_i hdr hread
    have hjson : ∀ j, luks2Json dev hdr = some j → j = [] := by
      intro j hj
      rw [luks2Json, hsize hdr hread, Option.map_eq_some_iff] at hj
      obtain ⟨b, -, rfl⟩ := hj
      rfl
    split
    · rfl
    · split
      · rfl
      · rename_i j hj
        rw [hjson j hj, luks2Slots_of_no_keySize rfl]

theorem luks2Unlock_cases (dev : ReadFn) (alloc : Nat → Bool) (pass : List Byte) (mem : Luks2Mem)
    (out : LuksOut) :
    ((luks2Unlock dev alloc pass mem out).1 = -1 ∧ (luks2Unlock dev alloc pass mem out).2.1 = out) ∨
    ((luks2Unlock dev alloc pass mem out).1 = 0 ∧ ∃ hdr j key, dev.read 0 8 = some hdr ∧
      luks2Probe hdr = true ∧ luks2Json dev hdr = some j ∧ key.length = luks2KeySize j ∧
      luks2DigestMatches j key = true ∧
      (luks2Unlock dev alloc pass mem out).2.1 = luks2Success j key out) := by
  unfold luks2Unlock
  split
  · exact .inl ⟨rfl, rfl⟩
  · rename_i hdr hread
    split_ifs with hprobe
    · exact .inl ⟨rfl, rfl⟩
    · split
      · exact .inl ⟨rfl, rfl⟩
      · rename_i j hjson
        split
        · rename_i mem' key hslots
          obtain ⟨hlen, hmatch⟩ := luks2Slots_some hslots
          exact .inr ⟨rfl, hdr, j, key, hread, by simpa using hprobe, hjson, hlen, hmatch, rfl⟩
        · exact .inl ⟨rfl, rfl⟩

end SakuruBoot

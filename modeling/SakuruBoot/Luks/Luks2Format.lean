import SakuruBoot.Luks.Dispatch
import SakuruBoot.Luks.Luks1Format

/-!
# LUKS2 volumes are not opened

`Luks2Volume` is a device image in the LUKS2 format: a big-endian binary header of 4096 bytes with the
label at byte 24, the JSON metadata behind it, the keyslot areas and the encrypted segment.

`luks2_unlock` takes bytes 24 to 39 for the offset and the size of the JSON area, little-endian. On a
formatted volume these are the first 16 bytes of the label. A label of at most 8 characters makes the
size zero; a longer one makes the offset at least `2 ^ 56`. Hence `luks2Volume_not_opened`: no volume
on a device below that size is ever unlocked.
-/

namespace SakuruBoot
open CStr (Byte)
open Bytes Luks1Format

namespace Luks2Format

/-! ## JSON metadata -/

def base64Char (v : Nat) : Byte :=
  if v < 26 then (65 + v).toUInt8
  else if v < 52 then (97 + v - 26).toUInt8
  else if v < 62 then (48 + v - 52).toUInt8
  else if v = 62 then 43
  else 47

def base64Encode : List Byte → List Byte
  | a :: b :: c :: rest =>
    [base64Char (a.toNat / 4), base64Char (a.toNat % 4 * 16 + b.toNat / 16),
      base64Char (b.toNat % 16 * 4 + c.toNat / 64), base64Char (c.toNat % 64)] ++ base64Encode rest
  | [a, b] =>
    [base64Char (a.toNat / 4), base64Char (a.toNat % 4 * 16 + b.toNat / 16),
      base64Char (b.toNat % 16 * 4), 61]
  | [a] => [base64Char (a.toNat / 4), base64Char (a.toNat % 4 * 16), 61, 61]
  | [] => []

def jsonStr (s : List Byte) : List Byte := 34 :: s ++ [34]
def jsonNat (n : Nat) : List Byte := CStr.lit (Nat.repr n)
def jsonMember (key : String) (value : List Byte) : List Byte := jsonStr (CStr.lit key) ++ 58 :: value
def jsonObject (members : List (List Byte)) : List Byte := 123 :: [44].intercalate members ++ [125]
def jsonArray (values : List (List Byte)) : List Byte := 91 :: [44].intercalate values ++ [93]

/-- The text without the white space between its tokens. -/
def unspace : Bool → List Byte → List Byte
  | _, [] => []
  | inString, c :: text =>
    if !inString && isJsonSpace c then unspace inString text
    else c :: unspace (if c = 34 then !inString else inString) text

inductive Kdf
  | argon2i (time memory cpus : Nat) (salt : List Byte)
  | argon2id (time memory cpus : Nat) (salt : List Byte)
  | pbkdf2 (hash : HashId) (iterations : Nat) (salt : List Byte)

def argon2Json (type : String) (time memory cpus : Nat) (salt : List Byte) : List Byte :=
  jsonObject [jsonMember "type" (jsonStr (CStr.lit type)), jsonMember "time" (jsonNat time),
    jsonMember "memory" (jsonNat memory), jsonMember "cpus" (jsonNat cpus),
    jsonMember "salt" (jsonStr (base64Encode salt))]

def Kdf.json : Kdf → List Byte
  | .argon2i time memory cpus salt => argon2Json "argon2i" time memory cpus salt
  | .argon2id time memory cpus salt => argon2Json "argon2id" time memory cpus salt
  | .pbkdf2 hash iterations salt =>
    jsonObject [jsonMember "type" (jsonStr (CStr.lit "pbkdf2")),
      jsonMember "hash" (jsonStr (hashName hash)), jsonMember "iterations" (jsonNat iterations),
      jsonMember "salt" (jsonStr (base64Encode salt))]

/-- The key a passphrase derives to; Argon2 is the function of RFC 9106. -/
def Kdf.derive (argon2 : Argon2Params → List Byte → List Byte → Nat → List Byte) (pass : List Byte)
    (size : Nat) : Kdf → List Byte
  | .argon2i time memory cpus salt => argon2 ⟨time, memory, cpus, .i⟩ pass salt size
  | .argon2id time memory cpus salt => argon2 ⟨time, memory, cpus, .id⟩ pass salt size
  | .pbkdf2 hash iterations salt => Rfc.pbkdf2 hash pass salt iterations size

structure Keyslot where
  pass : List Byte
  kdf : Kdf
  afHash : HashId
  noise : List (List Byte)
  areaOffset : Nat
  areaSize : Nat

/-- What the metadata of a volume with one digest and one segment describe. -/
structure Metadata where
  keySize : Nat
  keyslots : List Keyslot
  digestHash : HashId
  digestIterations : Nat
  digestSalt : List Byte
  digest : List Byte
  segmentOffset : Nat
  sectorSize : Nat
  jsonSize : Nat
  keyslotsSize : Nat

def keyslotJson (keySize : Nat) (s : Keyslot) : List Byte :=
  jsonObject [jsonMember "type" (jsonStr (CStr.lit "luks2")), jsonMember "key_size" (jsonNat keySize),
    jsonMember "af" (jsonObject [jsonMember "type" (jsonStr (CStr.lit "luks1")),
      jsonMember "stripes" (jsonNat stripes), jsonMember "hash" (jsonStr (hashName s.afHash))]),
    jsonMember "area" (jsonObject [jsonMember "type" (jsonStr (CStr.lit "raw")),
      jsonMember "offset" (jsonStr (jsonNat s.areaOffset)),
      jsonMember "size" (jsonStr (jsonNat s.areaSize)),
      jsonMember "encryption" (jsonStr (CStr.lit "aes-xts-plain64")),
      jsonMember "key_size" (jsonNat keySize)]),
    jsonMember "kdf" s.kdf.json]

def segmentJson (m : Metadata) : List Byte :=
  jsonObject [jsonMember "type" (jsonStr (CStr.lit "crypt")),
    jsonMember "offset" (jsonStr (jsonNat m.segmentOffset)),
    jsonMember "size" (jsonStr (CStr.lit "dynamic")),
    jsonMember "iv_tweak" (jsonStr (CStr.lit "0")),
    jsonMember "encryption" (jsonStr (CStr.lit "aes-xts-plain64")),
    jsonMember "sector_size" (jsonNat m.sectorSize)]

def digestJson (m : Metadata) : List Byte :=
  jsonObject [jsonMember "type" (jsonStr (CStr.lit "pbkdf2")),
    jsonMember "keyslots" (jsonArray ((List.range m.keyslots.length).map fun i => jsonStr (jsonNat i))),
    jsonMember "segments" (jsonArray [jsonStr (CStr.lit "0")]),
    jsonMember "hash" (jsonStr (hashName m.digestHash)),
    jsonMember "iterations" (jsonNat m.digestIterations),
    jsonMember "salt" (jsonStr (base64Encode m.digestSalt)),
    jsonMember "digest" (jsonStr (base64Encode m.digest))]

def Metadata.json (m : Metadata) : List Byte :=
  let keyslots := m.keyslots.zipIdx.map fun s => jsonMember (Nat.repr s.2) (keyslotJson m.keySize s.1)
  jsonObject [jsonMember "keyslots" (jsonObject keyslots), jsonMember "tokens" (jsonObject []),
    jsonMember "segments" (jsonObject [jsonMember "0" (segmentJson m)]),
    jsonMember "digests" (jsonObject [jsonMember "0" (digestJson m)]),
    jsonMember "config" (jsonObject [jsonMember "json_size" (jsonStr (jsonNat m.jsonSize)),
      jsonMember "keyslots_size" (jsonStr (jsonNat m.keyslotsSize))])]

/-- The segment: sectors of the segment's size, the tweak counted in 512-byte sectors. -/
def encryptSegment (key : List Byte) (sectorSize : Nat) (plain : List Byte) : List Byte :=
  (List.range (plain.length / sectorSize)).flatMap fun i =>
    xtsCrypt (xtsInit key key.length false) (i * (sectorSize / 512))
      (slice plain (sectorSize * i) sectorSize) sectorSize false

end Luks2Format

open Luks2Format

/-- A LUKS2 device. The fields of the header that nothing here depends on, its checksum and the second
copy of the header are left open. -/
structure Luks2Volume (argon2 : Argon2Params → List Byte → List Byte → Nat → List Byte) where
  img : List Byte
  label : List Byte
  metadata : Metadata
  jsonText : List Byte
  key : List Byte
  plain : List Byte
  magic : slice img 0 6 = luksMagic
  version : beVal (slice img 6 2) = 2
  hdrSize : beVal (slice img 8 8) = 4096 + metadata.jsonSize
  labelLength : label.length ≤ 47
  labelChars : ∀ c ∈ label, c ≠ 0
  labelStored : slice img 24 48 = fit label 48
  jsonMeaning : unspace false jsonText = metadata.json
  jsonLength : jsonText.length < metadata.jsonSize
  jsonStored : slice img 4096 metadata.jsonSize = fit jsonText metadata.jsonSize
  keyLength : key.length = metadata.keySize
  keySize : metadata.keySize ∈ [32, 64]
  digestIterations : 1 ≤ metadata.digestIterations
  digest : metadata.digest = Rfc.pbkdf2 metadata.digestHash key metadata.digestSalt
    metadata.digestIterations (hashDigestSize metadata.digestHash)
  keyslots : ∀ s ∈ metadata.keyslots, s.noise.length + 1 = stripes ∧
    (∀ stripe ∈ s.noise, stripe.length = key.length) ∧ stripes * key.length ≤ s.areaSize ∧
    s.areaOffset % 4096 = 0 ∧
    slice img s.areaOffset (stripes * key.length) =
      encryptArea .xts (s.kdf.derive argon2 s.pass key.length) (afSplit s.afHash key s.noise).flatten
  sectorSize : metadata.sectorSize ∈ [512, 1024, 2048, 4096]
  segmentOffset : metadata.segmentOffset % metadata.sectorSize = 0
  plainLength : plain.length % metadata.sectorSize = 0
  segment : slice img metadata.segmentOffset plain.length =
    encryptSegment key metadata.sectorSize plain

namespace Luks2Volume

variable {argon2 : Argon2Params → List Byte → List Byte → Nat → List Byte} (V : Luks2Volume argon2)
variable (alloc : Nat → Bool) (pass : List Byte) (mem : LuksMem) (stackKey : List Byte)

/-- `luks2_unlock` yields the volume key and the payload offset, and the volume that `luks_open` opens
delivers the plaintext. -/
def Opens : Prop :=
  let r := luks2Unlock (.ofImage V.img) alloc pass mem.luks2 (luksOpenOut stackKey)
  r.1 = 0 ∧ r.2.1.key = V.key ∧ r.2.1.payloadOffset = V.metadata.segmentOffset / 512 ∧
    ∃ vol, (luksOpen alloc (.ofImage V.img) pass mem stackKey).1 = some vol ∧
      ∀ lba count buf, 512 * (lba + count) ≤ V.plain.length → 512 * count ≤ buf.length →
        luksVolRead vol lba count buf = (patch buf 0 (slice V.plain (512 * lba) (512 * count)), true)

/-! ## What the code takes for the offset and the size -/

theorem pow_le_leVal {bs : List Byte} {n : Nat} {b : Byte} (h : bs[n]? = some b) (hb : b ≠ 0) :
    256 ^ n ≤ leVal bs := by
  induction bs generalizing n with
  | nil => simp at h
  | cons c bs ih =>
    rw [leVal]
    cases n with
    | zero =>
      simp only [List.getElem?_cons_zero, Option.some.injEq] at h
      have : b.toNat ≠ 0 := fun h0 => hb (UInt8.toNat_inj.mp h0)
      rw [pow_zero, h]
      omega
    | succ n =>
      have := ih (n := n) (by simpa using h)
      rw [Nat.pow_succ']
      omega

theorem read_header {hdr : List Byte} (hread : (ReadFn.ofImage V.img).read 0 8 = some hdr)
    (off : Nat) {n : Nat} (h : off + n ≤ 48) : slice hdr (24 + off) n = slice (fit V.label 48) off n := by
  rw [ReadFn.ofImage, Option.ite_none_right_eq_some, Option.some.injEq] at hread
  obtain ⟨-, rfl⟩ := hread
  rw [slice_slice (by omega), ← V.labelStored, slice_slice h, Nat.mul_zero, Nat.zero_add]

theorem jsonSize_of_short (hlabel : V.label.length ≤ 8) {hdr : List Byte}
    (hread : (ReadFn.ofImage V.img).read 0 8 = some hdr) : luks2JsonSize hdr = 0 := by
  have hzero : slice (fit V.label 48) 8 8 = List.replicate 8 0 := by
    rw [fit, List.take_of_length_le (by omega), slice, List.drop_append, List.drop_of_length_le hlabel,
      List.nil_append, List.drop_replicate, List.take_replicate]
    congr 1
    omega
  rw [luks2JsonSize, V.read_header hread 8 (by omega), hzero, leVal_zeros]
  rfl

theorem jsonOff_of_long (hlabel : 8 ≤ V.label.length) {hdr : List Byte}
    (hread : (ReadFn.ofImage V.img).read 0 8 = some hdr) : 2 ^ 56 ≤ luks2JsonOff hdr := by
  have hbyte : (slice (fit V.label 48) 0 8)[7]? = some V.label[7] := by
    have := V.labelLength
    rw [slice, List.drop_zero, List.getElem?_take_of_lt (by omega), fit,
      List.take_of_length_le (by omega), List.getElem?_append_left (by omega),
      List.getElem?_eq_getElem (by omega)]
  rw [luks2JsonOff, V.read_header hread 0 (by omega)]
  exact pow_le_leVal hbyte (V.labelChars _ (List.getElem_mem _))

theorem luks2Unlock_fails (h : V.label.length ≤ 8 ∨ V.img.length < 2 ^ 56) (out : LuksOut) :
    (luks2Unlock (.ofImage V.img) alloc pass mem.luks2 out).1 = -1 := by
  by_cases hlabel : V.label.length ≤ 8
  · rw [luks2Unlock_of_jsonSize_zero fun hdr hread => V.jsonSize_of_short hlabel hread]
  · rw [luks2Unlock]
    split
    · rfl
    · rename_i hdr hread
      have hoff := V.jsonOff_of_long (by omega) hread
      have hsize : V.img.length < 2 ^ 56 := by omega
      have hjson : luks2Json (.ofImage V.img) hdr = none := by
        rw [luks2Json, Option.map_eq_none_iff]
        exact if_neg (by omega)
      rw [hjson]
      split <;> rfl

/-- No volume is opened, with no passphrase, unless its device has `2 ^ 56` bytes or more and its label
more than eight characters. -/
theorem luks2Volume_not_opened : ¬ V.Opens alloc pass mem stackKey ∨
    2 ^ 56 ≤ V.img.length ∧ 8 < V.label.length := by
  by_cases h : V.label.length ≤ 8 ∨ V.img.length < 2 ^ 56
  · refine .inl fun hopen => ?_
    have hfail := V.luks2Unlock_fails alloc pass mem h (luksOpenOut stackKey)
    rw [hopen.1] at hfail
    exact absurd hfail (by decide)
  · exact .inr (by omega)

end Luks2Volume

/-! ## One such volume -/

namespace Luks2Format

def smallKey : List Byte := List.replicate 32 7

def smallSlot : Keyslot :=
  { pass := CStr.lit "pw"
    kdf := .pbkdf2 .sha256 1000 (List.replicate 32 0)
    afHash := .sha256
    noise := List.replicate 3999 (List.replicate 32 0)
    areaOffset := 32768
    areaSize := 131072 }

def smallMetadata : Metadata :=
  { keySize := 32
    keyslots := [smallSlot]
    digestHash := .sha256
    digestIterations := 1
    digestSalt := List.replicate 32 0
    digest := [142, 144, 191, 80, 37, 45, 61, 223, 180, 37, 21, 75, 168, 152, 46, 44, 215, 237, 224,
      202, 41, 140, 34, 77, 93, 203, 129, 238, 217, 157, 39, 186]
    segmentOffset := 163840
    sectorSize := 512
    jsonSize := 12288
    keyslotsSize := 131072 }

/-- A binary header without a label. -/
def smallHeader : List Byte :=
  fit (List.flatten [luksMagic, be 2 2, be 8 16384, be 8 1, List.replicate 48 0,
    fit (CStr.lit "sha256") 32]) 4096

def smallArea : List Byte :=
  encryptArea .xts (Rfc.pbkdf2 .sha256 smallSlot.pass (List.replicate 32 0) 1000 smallKey.length)
    (afSplit .sha256 smallKey smallSlot.noise).flatten

def smallPlain : List Byte := List.replicate 512 0

/-- Header, metadata, a gap up to the keyslot area, the area, and the segment. -/
def smallImage : List Byte :=
  smallHeader ++ (fit smallMetadata.json 12288 ++ (List.replicate 16384 0 ++
    (fit smallArea 131072 ++ encryptSegment smallKey 512 smallPlain)))

theorem length_smallHeader : smallHeader.length = 4096 := length_fit _ _

theorem slice_smallImage {off n : Nat} (h : off + n ≤ 4096) :
    slice smallImage off n = slice smallHeader off n :=
  slice_append_left (by rw [length_smallHeader]; exact h) _

theorem smallImage_magic : slice smallImage 0 6 = luksMagic := by
  rw [slice_smallImage (by omega)]
  decide

theorem smallImage_version : beVal (slice smallImage 6 2) = 2 := by
  rw [slice_smallImage (by omega)]
  decide

theorem smallImage_hdrSize : beVal (slice smallImage 8 8) = 4096 + smallMetadata.jsonSize := by
  rw [slice_smallImage (by omega)]
  decide

theorem smallImage_label : slice smallImage 24 48 = fit [] 48 := by
  rw [slice_smallImage (by omega)]
  decide

theorem length_smallNoise : ∀ stripe ∈ smallSlot.noise, stripe.length = smallKey.length := by
  intro stripe hstripe
  rw [smallSlot, List.mem_replicate] at hstripe
  rw [hstripe.2]
  rfl

theorem length_smallArea : smallArea.length = 128000 := by
  have hsplit : (afSplit .sha256 smallKey smallSlot.noise).flatten.length = 512 * 250 := by
    rw [afSplit, List.flatten_append, List.flatten_singleton, List.length_append,
      length_flatten_noise length_smallNoise, length_xorBytes,
      Luks1Volume.length_afChain _ length_smallNoise, smallSlot, List.length_replicate]
    rfl
  rw [smallArea, encryptArea,
    length_flatMap_const fun i _ => Luks1Volume.length_encryptSector _ _ _ _, List.length_range, hsplit]

theorem slice_smallImage_json : slice smallImage 4096 12288 = fit smallMetadata.json 12288 := by
  rw [smallImage, ← Nat.add_zero 4096, slice_append_right length_smallHeader,
    slice_zero_left (length_fit _ _)]

theorem slice_smallImage_area (off n : Nat) : slice smallImage (32768 + off) n =
    slice (fit smallArea 131072 ++ encryptSegment smallKey 512 smallPlain) off n := by
  rw [smallImage, show 32768 + off = 4096 + (12288 + (16384 + off)) by omega,
    slice_append_right length_smallHeader, slice_append_right (length_fit _ _),
    slice_append_right List.length_replicate]

theorem slice_smallImage_slot : slice smallImage 32768 128000 = smallArea := by
  rw [← Nat.add_zero 32768, slice_smallImage_area, slice_append_left (by rw [length_fit]; decide), fit,
    List.take_of_length_le (by rw [length_smallArea]; decide), slice_zero_left length_smallArea]

theorem length_smallPlain : smallPlain.length = 512 := List.length_replicate

theorem slice_smallImage_segment :
    slice smallImage 163840 smallPlain.length = encryptSegment smallKey 512 smallPlain := by
  have hlen : (encryptSegment smallKey 512 smallPlain).length = 512 := by
    rw [encryptSegment, length_flatMap_const (c := 512)
      fun i _ => by rw [xtsCrypt, length_xtsBlocks], List.length_range, length_smallPlain]
  have hsecond := slice_append_right (length_fit smallArea 131072)
    (encryptSegment smallKey 512 smallPlain) 0 512
  have hwhole := slice_zero_left hlen []
  rw [List.append_nil] at hwhole
  rw [length_smallPlain, show 163840 = 32768 + 131072 from rfl, slice_smallImage_area]
  exact hsecond.trans hwhole

end Luks2Format

def smallVolume (argon2 : Argon2Params → List Byte → List Byte → Nat → List Byte) :
    Luks2Volume argon2 where
  img := smallImage
  label := []
  metadata := smallMetadata
  jsonText := smallMetadata.json
  key := smallKey
  plain := smallPlain
  magic := smallImage_magic
  version := smallImage_version
  hdrSize := smallImage_hdrSize
  labelLength := by decide
  labelChars := by simp
  labelStored := smallImage_label
  jsonMeaning := by decide +kernel
  jsonLength := by decide +kernel
  jsonStored := slice_smallImage_json
  keyLength := by decide
  keySize := by decide
  digestIterations := by decide
  digest := by
    rw [← pbkdf2_eq]
    decide +kernel
  keyslots := by
    intro s hs
    obtain rfl := List.mem_singleton.mp hs
    have hcount : smallSlot.noise.length = 3999 := List.length_replicate
    exact ⟨by rw [hcount]; rfl, length_smallNoise, by decide, by decide, slice_smallImage_slot⟩
  sectorSize := by decide
  segmentOffset := by decide
  plainLength := by
    rw [length_smallPlain]
    decide
  segment := slice_smallImage_segment

/-- Its passphrase does not open it. -/
theorem smallVolume_not_opened : (smallMetadata.keyslots.map Keyslot.pass) = [CStr.lit "pw"] ∧
    ¬ (smallVolume fun _ _ _ _ => []).Opens (fun _ => true) (CStr.lit "pw") zeroMem [] := by
  refine ⟨rfl, fun h => ?_⟩
  have hfail := (smallVolume fun _ _ _ _ => []).luks2Unlock_fails (fun _ => true) (CStr.lit "pw") zeroMem
    (.inl (by decide)) (luksOpenOut [])
  rw [h.1] at hfail
  exact absurd hfail (by decide)

end SakuruBoot

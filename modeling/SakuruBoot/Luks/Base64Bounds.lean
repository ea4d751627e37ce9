import SakuruBoot.Luks.Luks2Format
import SakuruBoot.Luks.Luks2Runs

/-!
# The base64 fields of LUKS2

`luks2_unlock` decodes two salts and a digest into buffers of 64 bytes. A run reports what
`base64_decode` writes and the salts that are passed on. A text of at most 86 characters of the alphabet fits, and no
other (`base64_fits_iff`), so all is well exactly for the texts of `luks2_base64_within_iff`; the buffer for the text
has room for 127.
-/

namespace SakuruBoot
open CStr (Byte u32 lit)
open Bytes

/-! ## The decoder -/

/-- Number of characters of a text that `base64_decode` does not pass over. -/
def sextets (text : List Byte) : Nat := text.countP fun c => (b64Val c).isSome

/-- Every character adds 6 bits, and every byte takes 8. -/
theorem length_base64Loop (text : List Byte) (buf : Nat) {bits : Nat} (hbits : bits < 8) :
    (base64Loop text buf bits).length = (bits + 6 * sextets text) / 8 := by
  induction text generalizing buf bits with
  | nil =>
    rw [base64Loop, sextets, List.countP_nil, List.length_nil]
    omega
  | cons c text ih =>
    rw [base64Loop, sextets, List.countP_cons, ← sextets]
    cases b64Val c with
    | none => exact ih buf hbits
    | some v =>
      simp only [Option.isSome_some, if_true]
      split_ifs with hfull
      · rw [List.length_cons, ih _ (by omega)]
        omega
      · rw [ih _ (by omega)]
        omega

theorem length_base64Decode (text : List Byte) : (base64Decode text).length = 6 * sextets text / 8 := by
  rw [base64Decode, length_base64Loop _ _ (by decide), Nat.zero_add]

theorem base64_fits_iff (text : List Byte) : (base64Decode text).length ≤ 64 ↔ sextets text ≤ 86 := by
  rw [length_base64Decode]
  omega

/-! ## The calls -/

/-- The buffers of 64 bytes that `luks2_unlock` decodes into. -/
inductive Base64Dst
  | kdfSalt
  | digSalt
  | expectedDig

inductive Base64Event
  /-- `base64_decode` wrote `len` bytes from the start of `dst` on. -/
  | decode (dst : Base64Dst) (len : Nat)
  /-- `argon2` or `pbkdf2` was called with a salt of `len` bytes. -/
  | salt (len : Nat)

/-- Nothing goes beyond 64 bytes. -/
def Base64Event.Within : Base64Event → Prop
  | decode _ len => len ≤ 64
  | salt len => len ≤ 64

open Base64Event Traced

def base64Tr (dst : Base64Dst) (j key : List Byte) : Traced Base64Event (List Byte) := do
  let bytes := base64Decode (jsonGetStr j key 128)
  emit (decode dst bytes.length)
  return bytes

def luks2DeriveB64 (alloc : Nat → Bool) (pass j : List Byte) : Traced Base64Event (Option (List Byte)) := do
  let bytes ← base64Tr .kdfSalt j (lit "salt")
  let kdfSalt := if bytes.length = 0 then List.replicate 32 0 else bytes
  emit (salt kdfSalt.length)
  if (luks2KdfType j).getD 0 0 = 97 then
    return argon2 alloc pass kdfSalt (luks2Argon2Params j) (luks2KeySize j)
  else
    return some (pbkdf2 (luks2Hash j) pass kdfSalt (luks2U32 j (lit "iterations") 100000) (luks2KeySize j))

def luks2DigestMatchesB64 (j key : List Byte) : Traced Base64Event Bool := do
  let digSalt ← base64Tr .digSalt j (lit "salt")
  let expected ← base64Tr .expectedDig j (lit "digest")
  let dsize := hashDigestSize (luks2Hash j)
  emit (salt digSalt.length)
  return pbkdf2 (luks2Hash j) key digSalt (luks2DigestIters j) dsize == (fit expected 64).take dsize

def luks2WorkB64 (j : List Byte) (mem : Luks2Mem) : Traced Base64Event (Luks2Mem × Option (List Byte)) := do
  let kmSize := (jsonGetInt j (lit "size")).toNat
  let xts := xtsInit mem.dk (luks2KeySize j * 2) true
  let dec := patch mem.dec 0 ((List.range ((kmSize + 511) / 512)).flatMap (luks2DecryptSector xts mem.enc kmSize))
  let candidate := af2Merge .sha256 dec (luks2Stripes j) (luks2KeySize j)
  let matched ← luks2DigestMatchesB64 j candidate
  return ({ mem with dec := dec }, if matched then some candidate else none)

theorem luks2KdfSalt_eq (j : List Byte) : luks2KdfSalt j =
    if (base64Decode (jsonGetStr j (lit "salt") 128)).length = 0 then List.replicate 32 0
    else base64Decode (jsonGetStr j (lit "salt") 128) := by
  unfold luks2KdfSalt
  cases base64Decode (jsonGetStr j (lit "salt") 128) with
  | nil => rfl
  | cons b bytes => rfl

theorem luks2DeriveB64_val (alloc : Nat → Bool) (pass j : List Byte) :
    (luks2DeriveB64 alloc pass j).val = luks2Derive alloc pass j := by
  simp only [luks2DeriveB64, base64Tr, luks2Derive, luks2KdfSalt_eq, val_bind, val_pure]
  split_ifs <;> rfl

def luks2Base64Tracer (alloc : Nat → Bool) (pass : List Byte) : Luks2Tracer Base64Event alloc pass where
  derive := luks2DeriveB64 alloc pass
  work := luks2WorkB64
  derive_val := luks2DeriveB64_val alloc pass
  work_val _ _ := rfl

def luks2UnlockB64 (dev : ReadFn) (alloc : Nat → Bool) (pass : List Byte) (mem : Luks2Mem) (out : LuksOut) :
    Traced Base64Event (Int × LuksOut × Luks2Mem) := (luks2Base64Tracer alloc pass).unlock dev mem out

theorem luks2UnlockB64_val (dev : ReadFn) (alloc : Nat → Bool) (pass : List Byte) (mem : Luks2Mem) (out : LuksOut) :
    (luks2UnlockB64 dev alloc pass mem out).val = luks2Unlock dev alloc pass mem out :=
  (luks2Base64Tracer alloc pass).unlock_val dev mem out

/-! ## What a run decodes -/

/-- A round gets as far as the digest: `argon2`, if it is asked for, gets its memory, and the area of the key material
fits its buffer and can be read. -/
structure Luks2ChecksDigest (dev : ReadFn) (alloc : Nat → Bool) (j : List Byte) : Prop where
  memory : (luks2KdfType j).getD 0 0 = 97 → alloc (argon2AllocSize (luks2Argon2Params j)) = true
  offset : 0 < jsonGetInt j (lit "offset")
  size : 0 < jsonGetInt j (lit "size")
  fits : ((jsonGetInt j (lit "size")).toNat + 511) / 512 * 512 ≤ luks2KmBuf
  read : (dev.read ((jsonGetInt j (lit "offset")).toNat / 512)
    (((jsonGetInt j (lit "size")).toNat + 511) / 512)).isSome = true

section Run

variable {dev : ReadFn} {alloc : Nat → Bool} {pass j : List Byte} {mem : Luks2Mem} {out : LuksOut}

theorem isSome_luks2Derive : (luks2Derive alloc pass j).isSome = true ↔
    ((luks2KdfType j).getD 0 0 = 97 → alloc (argon2AllocSize (luks2Argon2Params j)) = true) := by
  unfold luks2Derive
  split_ifs with htype
  · simp only [htype, true_imp_iff, argon2]
    split_ifs with halloc
    · exact ⟨fun _ => halloc, fun _ => rfl⟩
    · exact ⟨nofun, fun h => absurd h halloc⟩
  · simp only [htype, false_imp_iff, Option.isSome_some]

theorem within_luks2DeriveB64 : (∀ e ∈ (luks2DeriveB64 alloc pass j).events, e.Within) ↔
    sextets (jsonGetStr j (lit "salt") 128) ≤ 86 := by
  rw [← base64_fits_iff]
  have hevents : (luks2DeriveB64 alloc pass j).events =
      [decode .kdfSalt (base64Decode (jsonGetStr j (lit "salt") 128)).length, salt (luks2KdfSalt j).length] := by
    rw [luks2KdfSalt_eq]
    simp only [luks2DeriveB64, base64Tr, events_bind, events_emit, events_pure, val_bind, val_pure, List.append_nil]
    split_ifs <;> rfl
  rw [hevents, luks2KdfSalt_eq]
  simp only [List.mem_cons, List.not_mem_nil, or_false, forall_eq_or_imp, forall_eq, Within]
  split_ifs with hzero
  · rw [List.length_replicate]
    omega
  · omega

theorem within_luks2DigestMatchesB64 (key : List Byte) : (∀ e ∈ (luks2DigestMatchesB64 j key).events, e.Within) ↔
    sextets (jsonGetStr j (lit "salt") 128) ≤ 86 ∧ sextets (jsonGetStr j (lit "digest") 128) ≤ 86 := by
  have hevents : (luks2DigestMatchesB64 j key).events =
      [decode .digSalt (base64Decode (jsonGetStr j (lit "salt") 128)).length,
        decode .expectedDig (base64Decode (jsonGetStr j (lit "digest") 128)).length,
        salt (base64Decode (jsonGetStr j (lit "salt") 128)).length] := rfl
  rw [hevents, ← base64_fits_iff, ← base64_fits_iff]
  simp only [List.mem_cons, List.not_mem_nil, or_false, forall_eq_or_imp, forall_eq, Within]
  omega

theorem luks2ChecksDigest_iff (hkey : (jsonFindKey j (lit "key_size")).isSome = true) :
    Luks2Reaches dev alloc pass j ↔ Luks2ChecksDigest dev alloc j := by
  constructor
  · intro h
    exact ⟨isSome_luks2Derive.mp h.derives, h.offset, h.size, h.fits, h.read⟩
  · intro h
    exact ⟨keySize_isSome.mpr hkey, isSome_luks2Derive.mpr h.memory, h.offset, h.size, h.fits, h.read⟩

theorem within_luks2WorkB64 (j : List Byte) (mem : Luks2Mem) : (∀ e ∈ (luks2WorkB64 j mem).events, e.Within) ↔
    sextets (jsonGetStr j (lit "salt") 128) ≤ 86 ∧ sextets (jsonGetStr j (lit "digest") 128) ≤ 86 := by
  simp only [luks2WorkB64, events_bind, events_pure, List.append_nil]
  exact within_luks2DigestMatchesB64 _

end Run

/-- Exactly when nothing that `luks2_unlock` decodes or passes on as a salt goes beyond 64 bytes. -/
theorem luks2_base64_within_iff (dev : ReadFn) (alloc : Nat → Bool) (pass : List Byte) (mem : Luks2Mem) (out : LuksOut) :
    (∀ e ∈ (luks2UnlockB64 dev alloc pass mem out).events, e.Within) ↔
      ∀ j, Luks2Accepts dev j → (jsonFindKey j (lit "key_size")).isSome = true →
        sextets (jsonGetStr j (lit "salt") 128) ≤ 86 ∧
          (Luks2ChecksDigest dev alloc j → sextets (jsonGetStr j (lit "digest") 128) ≤ 86) := by
  rw [luks2UnlockB64, (luks2Base64Tracer alloc pass).forall_events_unlock within_luks2WorkB64]
  refine forall₃_congr fun j _ hkey => ?_
  rw [luks2ChecksDigest_iff hkey]
  have hderive : (∀ e ∈ (luks2DeriveB64 alloc pass j).events, e.Within) ↔ _ := within_luks2DeriveB64
  exact (and_congr_left' hderive).trans (and_congr_right fun hsalt => imp_congr_right fun _ => and_iff_right hsalt)

/-- A text whose salt fills the buffer of 128 bytes. -/
def longSaltJson : List Byte :=
  Luks2Format.jsonObject [Luks2Format.jsonMember "key_size" (Luks2Format.jsonNat 32),
    Luks2Format.jsonMember "salt" (Luks2Format.jsonStr (List.replicate 127 65))]

/-- Eight sectors, the text in the second. -/
def longSaltImage : List Byte :=
  fit (luksMagic ++ List.replicate 18 0 ++ le 8 512 ++ le 8 longSaltJson.length) 512 ++ fit longSaltJson 3584

/-- Its first salt is 95 bytes long. -/
theorem luks2_base64_long_salt : ¬ ∀ e ∈ (luks2UnlockB64 (.ofImage longSaltImage) (fun _ => true) (lit "pw")
    zeroMem.luks2 (luksOpenOut [])).events, e.Within := by
  have hacc : Luks2Accepts (.ofImage longSaltImage) longSaltJson :=
    ⟨slice longSaltImage 0 4096, read_ofImage (by decide +kernel), by decide +kernel, by decide +kernel⟩
  have hkey : (jsonFindKey longSaltJson (lit "key_size")).isSome = true := by decide +kernel
  have hlong : ¬ sextets (jsonGetStr longSaltJson (lit "salt") 128) ≤ 86 := by decide +kernel
  have hderive : ¬ ∀ e ∈ (luks2DeriveB64 (fun _ => true) (lit "pw") longSaltJson).events, e.Within :=
    fun h => hlong (within_luks2DeriveB64.mp h)
  intro hall
  exact hderive (((luks2Base64Tracer (fun _ => true) (lit "pw")).forall_events_unlock within_luks2WorkB64 _ _).mp hall
    _ hacc hkey).1

end SakuruBoot

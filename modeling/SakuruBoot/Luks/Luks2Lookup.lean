import SakuruBoot.Luks.Luks2Format

/-!
# What `luks2_unlock` reads from the JSON text

The cipher mode is taken from behind the second dash of the segment's encryption, although the mode
`cipher_mode_id` knows starts behind the first one: `luks2Cmode_eq_iff` says for which modes the two
agree.

`SlotUse` is what one round of the slot loop takes from the text, and `luks2Slots_eq` that nothing else
of the text matters to the loop. What the metadata say about keyslot `i` is `Json.SlotUses`. Area and
segment are both found under the first `"offset":` of the text, so `luks2SlotUse_iff`: the rounds use
what belongs to them only where there is no keyslot to try.
-/

namespace SakuruBoot
open CStr (Byte lit strStarts strStarts_iff deref i32)
open Bytes Luks2Format

/-! ## The cipher mode -/

/-- The modes `cipher_mode_id` tells apart from XTS. -/
def isCbcMode (m : List Byte) : Bool := strStarts m (lit "cbc-essiv") || strStarts m (lit "cbc-plain")

/-- What follows the first dash of a string. -/
def afterDash (s : List Byte) : Option (List Byte) :=
  match CStr.dropC (· != 45) s with
  | 45 :: rest => some rest
  | _ => none

theorem afterSecondDash_eq (s : List Byte) : afterSecondDash s = (afterDash s).bind afterDash := rfl

theorem afterDash_aes (m : List Byte) : afterDash (lit "aes-" ++ m) = some m := rfl

theorem no_nul_cbcEssiv : ∀ c ∈ lit "cbc-essiv", c ≠ 0 := by decide +kernel

theorem no_nul_cbcPlain : ∀ c ∈ lit "cbc-plain", c ≠ 0 := by decide +kernel

theorem no_nul_cbcPlain64 : ∀ c ∈ lit "cbc-plain64", c ≠ 0 := by decide +kernel

theorem cipherModeId_eq_xts_iff (m : List Byte) : cipherModeId m = .xts ↔ isCbcMode m = false := by
  have hxts : strStarts m (lit "xts") = true → isCbcMode m = false := by
    intro h
    obtain ⟨rest, rfl⟩ := CStr.strStarts_eq_append (by decide +kernel) h
    rfl
  have h64 : strStarts m (lit "cbc-plain64") = true → strStarts m (lit "cbc-plain") = true := by
    intro h
    obtain ⟨rest, rfl⟩ := CStr.strStarts_eq_append no_nul_cbcPlain64 h
    rfl
  unfold cipherModeId
  split_ifs with h1 h2 h3 h4
  · simp [hxts h1]
  · simp [isCbcMode, h2]
  · simp [isCbcMode, h64 h3]
  · simp [isCbcMode, h4]
  · simp [isCbcMode, h2, h4]

theorem isCbcMode_afterDash {m : List Byte} (h : isCbcMode m = true) :
    ∃ r, afterDash m = some r ∧ isCbcMode r = false := by
  rw [isCbcMode, Bool.or_eq_true] at h
  obtain h | h := h
  · obtain ⟨rest, rfl⟩ := CStr.strStarts_eq_append no_nul_cbcEssiv h
    exact ⟨lit "essiv" ++ rest, rfl, rfl⟩
  · obtain ⟨rest, rfl⟩ := CStr.strStarts_eq_append no_nul_cbcPlain h
    exact ⟨lit "plain" ++ rest, rfl, rfl⟩

theorem luks2Cmode_eq {j m : List Byte} (hfind : jsonFindKey j (lit "encryption") = some (lit "aes-" ++ m))
    (hlen : (lit "aes-" ++ m).length ≤ 63) :
    luks2Cmode j = ((afterDash m).map cipherModeId).getD .xts := by
  rw [luks2Cmode, jsonGetStr, hfind, Option.getD_some, List.take_of_length_le hlen, afterSecondDash_eq,
    afterDash_aes, Option.bind_some]
  cases afterDash m with
  | none => rfl
  | some r => rfl

theorem strStarts_terminated {m w : List Byte} (hm : ∀ c ∈ m, c ≠ 0) (hw : ∀ c ∈ w, c ≠ 0) (rest : List Byte) :
    strStarts (m ++ 0 :: rest) w = strStarts m w := by
  induction w generalizing m with
  | nil => simp [strStarts]
  | cons x w ih =>
    have hx : x ≠ 0 := hw x List.mem_cons_self
    cases m with
    | nil =>
      have h0 : (0 == x) = false := beq_eq_false_iff_ne.mpr (Ne.symm hx)
      simp [strStarts, deref, h0]
    | cons c m =>
      have htail := ih (fun b hb => hm b (List.mem_cons_of_mem _ hb)) (fun b hb => hw b (List.mem_cons_of_mem _ hb))
      simp [strStarts, deref, htail]

theorem cipherModeId_terminated {m : List Byte} (hm : ∀ c ∈ m, c ≠ 0) (rest : List Byte) :
    cipherModeId (m ++ 0 :: rest) = cipherModeId m := by
  unfold cipherModeId
  rw [strStarts_terminated hm (by decide +kernel), strStarts_terminated hm no_nul_cbcEssiv,
    strStarts_terminated hm no_nul_cbcPlain64, strStarts_terminated hm no_nul_cbcPlain]

/-- A LUKS1 header that stores `m` gives the mode of `m`; a LUKS2 text whose segment is encrypted with
`aes-` and `m` gives the same one exactly when neither `m` nor what follows its first dash is a CBC mode. -/
theorem luks2Cmode_eq_iff {m : List Byte} (hm : ∀ c ∈ m, c ≠ 0) (hlen : (lit "aes-" ++ m).length ≤ 63) :
    (∀ h rest, hdrCipherMode h = m ++ 0 :: rest → cipherModeId (hdrCipherMode h) = cipherModeId m) ∧
    ∀ j, jsonFindKey j (lit "encryption") = some (lit "aes-" ++ m) →
      (luks2Cmode j = cipherModeId m ↔
        isCbcMode m = false ∧ ∀ r, afterDash m = some r → isCbcMode r = false) := by
  refine ⟨fun h rest hmode => by rw [hmode, cipherModeId_terminated hm], fun j hfind => ?_⟩
  rw [luks2Cmode_eq hfind hlen]
  by_cases hcbc : isCbcMode m = true
  · obtain ⟨r, hr, hr0⟩ := isCbcMode_afterDash hcbc
    have hne : cipherModeId m ≠ .xts := by
      rw [Ne, cipherModeId_eq_xts_iff, hcbc]
      decide
    rw [hr, Option.map_some, Option.getD_some, (cipherModeId_eq_xts_iff r).mpr hr0]
    simp [hcbc, Ne.symm hne]
  · rw [Bool.not_eq_true] at hcbc
    rw [(cipherModeId_eq_xts_iff m).mpr hcbc]
    cases hdash : afterDash m with
    | none => simp [hcbc]
    | some r => simp [hcbc, cipherModeId_eq_xts_iff]

/-- A text that gives the segment's encryption and nothing else. -/
def encryptionJson (encryption : List Byte) : List Byte :=
  jsonObject [jsonMember "segments" (jsonObject [jsonMember "0" (jsonObject
    [jsonMember "encryption" (jsonStr encryption)])])]

/-- `xts-plain64` is read alike from both headers. -/
theorem luks2Cmode_xts :
    luks2Cmode (encryptionJson (lit "aes-xts-plain64")) = cipherModeId (lit "xts-plain64") :=
  ((luks2Cmode_eq_iff (m := lit "xts-plain64") (by decide +kernel) (by decide)).2 _ (by decide +kernel)).mpr
    ⟨by decide, by decide⟩

/-- `cbc-plain64` is taken for XTS. -/
theorem luks2Cmode_cbc :
    jsonFindKey (encryptionJson (lit "aes-cbc-plain64")) (lit "encryption") =
      some (lit "aes-" ++ lit "cbc-plain64") ∧
    luks2Cmode (encryptionJson (lit "aes-cbc-plain64")) ≠ cipherModeId (lit "cbc-plain64") := by
  decide

/-! ## What a round of the slot loop uses -/

/-- The values one round of the loop works with, and the payload offset a success reports. -/
structure SlotUse where
  kdf : Kdf
  keySize : Nat
  stripes : Nat
  areaOffset : Int
  areaSize : Int
  digestSalt : List Byte
  digest : List Byte
  digestHash : HashId
  digestIterations : Nat
  payloadOffset : Int

def luks2Kdf (j : List Byte) : Kdf :=
  if (luks2KdfType j).getD 0 0 = 97 then
    let p := luks2Argon2Params j
    if (luks2KdfType j).getD 6 0 = 100 then .argon2id p.timeCost p.memoryKb p.parallelism (luks2KdfSalt j)
    else .argon2i p.timeCost p.memoryKb p.parallelism (luks2KdfSalt j)
  else .pbkdf2 (luks2Hash j) (luks2U32 j (lit "iterations") 100000) (luks2KdfSalt j)

def luks2Use (j : List Byte) : SlotUse :=
  { kdf := luks2Kdf j
    keySize := luks2KeySize j
    stripes := luks2Stripes j
    areaOffset := jsonGetInt j (lit "offset")
    areaSize := jsonGetInt j (lit "size")
    digestSalt := luks2DigestSalt j
    digest := luks2Expected j
    digestHash := luks2Hash j
    digestIterations := luks2DigestIters j
    payloadOffset := jsonGetInt j (lit "offset") }

/-- What round `slot` uses; `none` when the loop does not try the slot. -/
def luks2SlotUse (j : List Byte) (_slot : Nat) : Option SlotUse :=
  if (jsonFindKey j (lit "key_size")).isNone then none else some (luks2Use j)

namespace SlotUse

def derive (alloc : Nat → Bool) (pass : List Byte) (u : SlotUse) : Option (List Byte) :=
  match u.kdf with
  | .argon2i time memory cpus salt => argon2 alloc pass salt ⟨time, memory, cpus, .i⟩ u.keySize
  | .argon2id time memory cpus salt => argon2 alloc pass salt ⟨time, memory, cpus, .id⟩ u.keySize
  | .pbkdf2 hash iterations salt => some (SakuruBoot.pbkdf2 hash pass salt iterations u.keySize)

def digestMatches (u : SlotUse) (key : List Byte) : Bool :=
  let dsize := hashDigestSize u.digestHash
  SakuruBoot.pbkdf2 u.digestHash key u.digestSalt u.digestIterations dsize == u.digest.take dsize

def tryKey (dev : ReadFn) (u : SlotUse) (mem : Luks2Mem) : Luks2Mem × Option (List Byte) :=
  if u.areaOffset ≤ 0 ∨ u.areaSize ≤ 0 then (mem, none)
  else
    let kmSecs := (u.areaSize.toNat + 511) / 512
    if luks2KmBuf < kmSecs * 512 then (mem, none)
    else
      match dev.read (u.areaOffset.toNat / 512) kmSecs with
      | none => (mem, none)
      | some km =>
        let enc := patch mem.enc 0 km
        let xts := xtsInit mem.dk (u.keySize * 2) true
        let dec := patch mem.dec 0
          ((List.range kmSecs).flatMap (luks2DecryptSector xts enc u.areaSize.toNat))
        let candidate := af2Merge .sha256 dec u.stripes u.keySize
        ({ mem with enc := enc, dec := dec }, if u.digestMatches candidate then some candidate else none)

/-- One round with the given values. -/
def attempt (dev : ReadFn) (alloc : Nat → Bool) (pass : List Byte) (u : SlotUse) (mem : Luks2Mem) :
    Luks2Mem × Option (List Byte) :=
  match u.derive alloc pass with
  | none => (mem, none)
  | some dk => u.tryKey dev { mem with dk := patch mem.dk 0 dk }

end SlotUse

/-- A slot loop that tries each slot with its own values and passes over the slots without any. -/
def slotLoop (dev : ReadFn) (alloc : Nat → Bool) (pass : List Byte) (use : Nat → Option SlotUse) :
    List Nat → Luks2Mem → Luks2Mem × Option (List Byte)
  | [], mem => (mem, none)
  | slot :: slots, mem =>
    match use slot with
    | none => slotLoop dev alloc pass use slots mem
    | some u =>
      match u.attempt dev alloc pass mem with
      | (mem, some key) => (mem, some key)
      | (mem, none) => slotLoop dev alloc pass use slots mem

theorem luks2Derive_eq (alloc : Nat → Bool) (pass j : List Byte) :
    luks2Derive alloc pass j = (luks2Use j).derive alloc pass := by
  unfold luks2Derive SlotUse.derive luks2Use luks2Kdf
  dsimp only
  by_cases hargon : (luks2KdfType j).getD 0 0 = 97
  · rw [if_pos hargon, if_pos hargon, luks2Argon2Params]
    by_cases hid : (luks2KdfType j).getD 6 0 = 100
    · simp only [if_pos hid]
    · simp only [if_neg hid]
  · rw [if_neg hargon, if_neg hargon]

theorem luks2Attempt_eq (dev : ReadFn) (alloc : Nat → Bool) (pass j : List Byte) (mem : Luks2Mem) :
    luks2Attempt dev alloc pass j mem = (luks2Use j).attempt dev alloc pass mem := by
  rw [luks2Attempt, SlotUse.attempt, luks2Derive_eq]
  rfl

theorem luks2Slots_eq (dev : ReadFn) (alloc : Nat → Bool) (pass j : List Byte) (slots : List Nat)
    (mem : Luks2Mem) :
    luks2Slots dev alloc pass j slots.length mem = slotLoop dev alloc pass (luks2SlotUse j) slots mem := by
  by_cases hkey : (jsonFindKey j (lit "key_size")).isNone
  · -- the code leaves the loop, which is to pass over every slot
    have hnone : ∀ slot, luks2SlotUse j slot = none := fun slot => if_pos hkey
    rw [luks2Slots_of_no_keySize (Option.isNone_iff_eq_none.mp hkey)]
    induction slots with
    | nil => rfl
    | cons slot slots ih => rw [slotLoop, hnone, ← ih]
  · have hsome : ∀ slot, luks2SlotUse j slot = some (luks2Use j) := fun slot => if_neg hkey
    induction slots generalizing mem with
    | nil => rfl
    | cons slot slots ih =>
      rw [slotLoop, hsome, List.length_cons, luks2Slots, if_neg hkey, luks2Attempt_eq]
      dsimp only
      rcases (luks2Use j).attempt dev alloc pass mem with ⟨mem', none | key⟩
      · exact ih mem'
      · rfl

/-! ## What the metadata say -/

/-- Whether every quote of a string body is escaped. -/
def closedBody : List Byte → Bool
  | [] => true
  | [c] => c != 34 && c != 92
  | c :: d :: s => if c = 92 then closedBody s else c != 34 && closedBody (d :: s)

/-- A JSON string, as it is written between its quotes. -/
structure JsonString where
  body : List Byte
  closed : closedBody body = true

inductive Json
  | num (n : Nat)
  | bool (b : Bool)
  | null
  | str (s : JsonString)
  | arr (vs : List Json)
  | obj (members : List (JsonString × Json))

namespace Json

mutual

/-- The text of a value without white space between its tokens. -/
def text : Json → List Byte
  | .num n => jsonNat n
  | .bool b => if b then lit "true" else lit "false"
  | .null => lit "null"
  | .str s => jsonStr s.body
  | .arr vs => jsonArray (texts vs)
  | .obj members => jsonObject (memberTexts members)

def texts : List Json → List (List Byte)
  | [] => []
  | v :: vs => text v :: texts vs

def memberTexts : List (JsonString × Json) → List (List Byte)
  | [] => []
  | m :: ms => memberText m :: memberTexts ms

def memberText : JsonString × Json → List Byte
  | (key, v) => jsonStr key.body ++ 58 :: text v

end

/-- The member of an object with the given name. -/
def get (v : Json) (key : String) : Option Json :=
  match v with
  | .obj members => (members.find? fun m => m.1.body == lit key).map (·.2)
  | _ => none

def members : Json → List Json
  | .obj members => members.map (·.2)
  | _ => []

/-- A decimal number; LUKS2 writes numbers of 64 bits as strings. -/
def nat? : Json → Option Nat
  | .num n => some n
  | .str s =>
    if s.body ≠ [] ∧ s.body.all isJsonDigit then some (s.body.foldl (fun n c => n * 10 + (c.toNat - 48)) 0)
    else none
  | _ => none

def word? : Json → Option (List Byte)
  | .str s => some s.body
  | _ => none

def natAt (v : Json) (key : String) : Option Nat := (v.get key).bind nat?
def wordAt (v : Json) (key : String) : Option (List Byte) := (v.get key).bind word?
def bytesAt (v : Json) (key : String) : Option (List Byte) := (v.wordAt key).map base64Decode
def hashAt (v : Json) (key : String) : Option HashId := (v.wordAt key).bind hashId

def kdf? (v : Json) : Option Kdf := do
  let type ← v.wordAt "type"
  let salt ← v.bytesAt "salt"
  if type = lit "pbkdf2" then
    return .pbkdf2 (← v.hashAt "hash") (← v.natAt "iterations") salt
  else if type = lit "argon2i" then
    return .argon2i (← v.natAt "time") (← v.natAt "memory") (← v.natAt "cpus") salt
  else if type = lit "argon2id" then
    return .argon2id (← v.natAt "time") (← v.natAt "memory") (← v.natAt "cpus") salt
  else none

/-- Keyslot object `i`. -/
def slot (v : Json) (i : Nat) : Option Json := (v.get "keyslots").bind (·.get (Nat.repr i))

def area (v : Json) (i : Nat) : Option Json := (v.slot i).bind (·.get "area")

def digests (v : Json) : List Json := ((v.get "digests").map members).getD []

/-- Whether a digest object is for slot `i`. -/
def lists (d : Json) (i : Nat) : Bool :=
  match d.get "keyslots" with
  | some (.arr vs) => vs.any fun v => v.word? == some (jsonNat i)
  | _ => false

/-- The offsets of the crypt segments. -/
def cryptOffsets (v : Json) : List Nat :=
  ((((v.get "segments").map members).getD []).filter fun s => s.wordAt "type" == some (lit "crypt")).filterMap
    fun s => s.natAt "offset"

/-- The values that belong to keyslot `i`. -/
structure SlotUses (v : Json) (i : Nat) (u : SlotUse) : Prop where
  kdf : ((v.slot i).bind (·.get "kdf")).bind kdf? = some u.kdf
  keySize : (v.slot i).bind (·.natAt "key_size") = some u.keySize
  stripes : ((v.slot i).bind (·.get "af")).bind (·.natAt "stripes") = some u.stripes
  areaOffset : ∃ n, (v.area i).bind (·.natAt "offset") = some n ∧ u.areaOffset = n
  areaSize : ∃ n, (v.area i).bind (·.natAt "size") = some n ∧ u.areaSize = n
  digest : ∃ d ∈ v.digests, d.lists i = true ∧ d.bytesAt "salt" = some u.digestSalt ∧
    (d.bytesAt "digest").map (fit · 64) = some u.digest ∧ d.hashAt "hash" = some u.digestHash ∧
    d.natAt "iterations" = some u.digestIterations
  payload : ∃ n ∈ v.cryptOffsets, u.payloadOffset = n

end Json

/-- The text without the white space between its tokens; `inString` tells whether it starts inside a
string. -/
def stripSpace : Bool → List Byte → List Byte
  | _, [] => []
  | true, [c] => [c]
  | true, c :: d :: t => if c = 92 then c :: d :: stripSpace true t else c :: stripSpace (c != 34) (d :: t)
  | false, c :: t => if isJsonSpace c then stripSpace false t else c :: stripSpace (c == 34) t

/-- A LUKS2 text and the value it stands for. No keyslot area begins where a crypt segment begins. -/
structure Luks2Json where
  text : List Byte
  value : Json
  written : stripSpace false text = value.text
  apart : ∀ i n, (value.area i).bind (·.natAt "offset") = some n → n ∉ value.cryptOffsets

/-- The slot loop works with `luks2SlotUse`, and these are the values of each slot, and none where there
is no slot, exactly when there is nothing to try: no keyslot, and no `key_size` the code could find. -/
theorem luks2SlotUse_iff (D : Luks2Json) :
    (∀ dev alloc pass mem, luks2Slots dev alloc pass D.text 32 mem =
      slotLoop dev alloc pass (luks2SlotUse D.text) (List.range 32) mem) ∧
    ((∀ i < 32, match luks2SlotUse D.text i with
      | none => D.value.slot i = none
      | some u => D.value.SlotUses i u) ↔
    (∀ i < 32, D.value.slot i = none) ∧ jsonFindKey D.text (lit "key_size") = none) := by
  refine ⟨fun dev alloc pass mem => luks2Slots_eq dev alloc pass D.text (List.range 32) mem, ?_⟩
  unfold luks2SlotUse
  cases hkey : jsonFindKey D.text (lit "key_size") with
  | none => simp
  | some value =>
    -- the first round takes one number for the area and for the payload
    simp only [Option.isNone_some, Bool.false_eq_true, if_false, reduceCtorEq, and_false, iff_false]
    intro h
    obtain ⟨n, harea, hn⟩ := (h 0 (by decide)).areaOffset
    obtain ⟨b, hb, hpayload⟩ := (h 0 (by decide)).payload
    have hnb : n = b := Int.ofNat.inj (hn.symm.trans hpayload)
    exact D.apart 0 n harea (hnb ▸ hb)

/-! ## One such text -/

theorem closedBody_of_plain {l : List Byte} (h : ∀ c ∈ l, (c != 34 && c != 92) = true) : closedBody l = true := by
  fun_induction closedBody l with
  | case1 => rfl
  | case2 c => exact h c (by simp)
  | case3 d s ih =>
    have := h 92 (by simp)
    simp at this
  | case4 c d s hc ih =>
    have hquote := h c (by simp)
    rw [Bool.and_eq_true] at hquote ⊢
    exact ⟨hquote.1, ih fun b hb => h b (List.mem_cons_of_mem _ hb)⟩

/-- A string without quotes and backslashes. -/
def JsonString.plain (s : String) : JsonString :=
  ⟨(lit s).filter fun c => c != 34 && c != 92, closedBody_of_plain fun _ hc => (List.mem_filter.mp hc).2⟩

namespace SampleJson

def word (s : String) : Json := .str (.plain s)

def area : Json :=
  .obj [(.plain "type", word "raw"), (.plain "offset", word "32768"), (.plain "size", word "258048"),
    (.plain "encryption", word "aes-xts-plain64"), (.plain "key_size", .num 64)]

def slot : Json :=
  .obj [(.plain "type", word "luks2"), (.plain "key_size", .num 64),
    (.plain "af", .obj [(.plain "type", word "luks1"), (.plain "stripes", .num 4000), (.plain "hash", word "sha256")]),
    (.plain "area", area),
    (.plain "kdf", .obj [(.plain "type", word "argon2id"), (.plain "time", .num 4), (.plain "memory", .num 1048576),
      (.plain "cpus", .num 4), (.plain "salt", word "AAECAwQFBgcICQoLDA0ODxAREhMUFRYXGBkaGxwdHh8=")])]

def segment : Json :=
  .obj [(.plain "type", word "crypt"), (.plain "offset", word "16777216"), (.plain "size", word "dynamic"),
    (.plain "iv_tweak", word "0"), (.plain "encryption", word "aes-xts-plain64"), (.plain "sector_size", .num 512)]

def digest : Json :=
  .obj [(.plain "type", word "pbkdf2"), (.plain "keyslots", .arr [word "0"]), (.plain "segments", .arr [word "0"]),
    (.plain "hash", word "sha256"), (.plain "iterations", .num 100000),
    (.plain "salt", word "ICEiIyQlJicoKSorLC0uLzAxMjM0NTY3ODk6Ozw9Pj8="),
    (.plain "digest", word "QEFCQ0RFRkdISUpLTE1OT1BRUlNUVVZXWFlaW1xdXl8=")]

/-- One Argon2id keyslot, one digest and one segment. -/
def value : Json :=
  .obj [(.plain "keyslots", .obj [(.plain "0", slot)]), (.plain "tokens", .obj []),
    (.plain "segments", .obj [(.plain "0", segment)]), (.plain "digests", .obj [(.plain "0", digest)]),
    (.plain "config", .obj [(.plain "json_size", word "12288"), (.plain "keyslots_size", word "16744448")])]

theorem get_keyslots : value.get "keyslots" = some (.obj [(.plain "0", slot)]) := by
  rfl

theorem area_value (i : Nat) : value.area i = none ∨ value.area i = some area := by
  rw [Json.area, Json.slot, get_keyslots, Option.bind_some, Json.get, List.find?_cons]
  split
  · exact .inr rfl
  · exact .inl rfl

theorem cryptOffsets_value : value.cryptOffsets = [16777216] := by decide

theorem written_value : stripSpace false value.text = value.text := by decide +kernel

theorem apart_value (i n : Nat) (h : (value.area i).bind (·.natAt "offset") = some n) :
    n ∉ value.cryptOffsets := by
  have hn : n = 32768 := by
    obtain harea | harea := area_value i
    · rw [harea] at h
      cases h
    · have hoffset : area.natAt "offset" = some 32768 := by decide
      rw [harea, Option.bind_some, hoffset] at h
      exact (Option.some.inj h).symm
  rw [cryptOffsets_value, hn]
  decide

end SampleJson

def sampleJson : Luks2Json where
  text := SampleJson.value.text
  value := SampleJson.value
  written := SampleJson.written_value
  apart := SampleJson.apart_value

/-- The type of the keyslot is taken for that of its KDF, and the offset of its area for that of the
payload. -/
theorem sampleJson_luks2SlotUse : luks2KdfType sampleJson.text = lit "luks2" ∧
    ¬ ∀ i < 32, match luks2SlotUse sampleJson.text i with
      | none => sampleJson.value.slot i = none
      | some u => sampleJson.value.SlotUses i u := by
  refine ⟨by decide, fun h => ?_⟩
  have hsome : luks2SlotUse sampleJson.text 0 = some (luks2Use sampleJson.text) := by
    refine if_neg ?_
    decide
  have hfirst := h 0 (by decide)
  rw [hsome] at hfirst
  obtain ⟨n, hn, hpayload⟩ := hfirst.payload
  have hoffset : (luks2Use sampleJson.text).payloadOffset = 32768 := by decide
  rw [hoffset] at hpayload
  have hn' : n ∈ [16777216] := by rwa [← SampleJson.cryptOffsets_value]
  rw [List.mem_singleton.mp hn'] at hpayload
  exact absurd hpayload (by decide)

end SakuruBoot

import SakuruBoot.Luks.Luks2Runs

/-!
# The steps of an unlock

The functions of `luks1.c`, `luks2.c` and `luks_vol.c` once more, each reporting the steps other
modules reason about: the AES key schedules it starts, the sectors it decrypts in a CBC mode and the
merges of the anti-forensic splitter. `luks1UnlockTr_val` and its companions say that the results are
those of the plain functions.

Steps are only taken for a slot whose key material is there to be read, `Luks1Reaches`, and the first such
slot is always tried: `mem_luks1UnlockTr` and `luks1UnlockTr_of_reaches`. For LUKS2, where every round is
the same, `forall_luks2UnlockTr`.
-/

namespace SakuruBoot
open CStr (Byte u32 u64)
open Bytes

inductive UnlockEvent
  /-- `aes_init_enc` on `len` bytes at `off` of a key of which `produced` bytes were derived. -/
  | keySchedule (off len produced : Nat)
  /-- `cbc_decrypt_sector` with a context made from `key`; `essivKey` is the key `cbc_init` made the
  IV cipher of the context from. -/
  | cbcSector (ctx : CbcCtx) (key : List Byte) (essivKey : Option (List Byte))
  /-- `af_merge` after `read` bytes of key material were read and `decrypted` bytes decrypted. -/
  | merge (stripes keyBytes read decrypted : Nat)

open UnlockEvent Traced

abbrev Unlocking := Traced UnlockEvent

/-! ## Contexts -/

/-- `aes_init_enc`, which `aes_init_dec` calls. -/
def aesInitTr (key : List Byte) (off len produced : Nat) : Unlocking AesCtx := do
  emit (keySchedule off len produced)
  return aesInitEnc (key.drop off) len

def xtsInitTr (key : List Byte) (keyLen produced : Nat) : Unlocking XtsCtx := do
  let half := keyLen / 2
  let data ← aesInitTr key 0 half produced
  let tweak ← aesInitTr key half half produced
  return ⟨data, tweak⟩

/-- The key whose hash keys the IV cipher, if `cbc_init` keys it at all. -/
def essivKey (key : List Byte) (keyLen : Nat) (mode : CipherMode) (essivHash : Option Nat) :
    Option (List Byte) :=
  match essivHash with
  | some n => if mode = .cbcEssiv ∧ 32 ≤ n then some (key.take keyLen) else none
  | none => none

def cbcInitTr (old : AesCtx) (key : List Byte) (keyLen : Nat) (mode : CipherMode)
    (essivHash : Option Nat) (produced : Nat) : Unlocking CbcCtx := do
  let enc ← aesInitTr key 0 keyLen produced
  let dec ← aesInitTr key 0 keyLen produced
  let essiv ←
    match essivKey key keyLen mode essivHash with
    | some k => aesInitTr (sha256 k) 0 32 32
    | none => pure old
  return ⟨enc, dec, mode, essiv⟩

theorem xtsInitTr_val (key : List Byte) (keyLen produced : Nat) :
    (xtsInitTr key keyLen produced).val = xtsInit key keyLen true := rfl

theorem cbcInitTr_val (old : AesCtx) (key : List Byte) (keyLen : Nat) (mode : CipherMode)
    (essivHash : Option Nat) (produced : Nat) :
    (cbcInitTr old key keyLen mode essivHash produced).val = cbcInit old key keyLen mode essivHash := by
  cases essivHash with
  | none => rfl
  | some n =>
    by_cases h : mode = .cbcEssiv ∧ 32 ≤ n
    · simp [cbcInitTr, cbcInit, essivKey, if_pos h, aesInitTr, aesInitDec]
    · simp [cbcInitTr, cbcInit, essivKey, if_neg h, aesInitTr, aesInitDec]

/-! ## LUKS1 -/

/-- `decrypt_key_material`: the output buffer, and how many bytes of it were decrypted. -/
def decryptKeyMaterialTr (stackEssiv : AesCtx) (mode : CipherMode) (slotKey : List Byte) (keyBytes : Nat)
    (enc dec : List Byte) (totalLen : Nat) : Unlocking (List Byte × Nat) := do
  let sectors := List.range (sectorCount totalLen)
  if mode = .xts then
    let xts ← xtsInitTr slotKey (keyBytes * 2) keyBytes
    let cbc := cbcInit stackEssiv slotKey keyBytes mode none
    let plain := sectors.flatMap (decryptSector mode xts cbc enc totalLen)
    return (patch dec 0 plain, plain.length)
  else
    let cbc ← cbcInitTr stackEssiv slotKey keyBytes mode none keyBytes
    let xts := xtsInit slotKey (keyBytes * 2) true
    let plain ← ⟨sectors.flatMap (decryptSector mode xts cbc enc totalLen), sectors.map fun _ =>
      cbcSector cbc (slotKey.take keyBytes) (essivKey slotKey keyBytes mode none)⟩
    return (patch dec 0 plain, plain.length)

/-- Number of bytes of key material of a slot, in 32 bits. -/
def kmLen (h : List Byte) (slot : Nat) : Nat := u32 (hdrKeyBytes h * slotStripes h slot)

def kmSectors (h : List Byte) (slot : Nat) : Nat := u32 (kmLen h slot + 511) / 512

def luks1CandidateTr (h : List Byte) (slot : Nat) (mem : Luks1Mem) : Unlocking (Luks1Mem × List Byte) := do
  let (dec, decrypted) ← decryptKeyMaterialTr mem.stackEssiv (cipherModeId (hdrCipherMode h)) mem.slotKey
    (hdrKeyBytes h) mem.kmEnc mem.kmDec (kmLen h slot)
  emit (merge (slotStripes h slot) (hdrKeyBytes h) (512 * kmSectors h slot) decrypted)
  return ({ mem with kmDec := dec }, afMerge (hdrHash h) dec (slotStripes h slot) (hdrKeyBytes h))

def luks1AttemptTr (dev : ReadFn) (pass h : List Byte) (mem : Luks1Mem) (slot : Nat) :
    Unlocking (Luks1Mem × Option (List Byte)) :=
  if slotActive h slot ≠ luks1KeyEnabled then pure (mem, none)
  else
    let dk := pbkdf2 (hdrHash h) pass (slotSalt h slot) (slotIterations h slot) (hdrKeyBytes h)
    let mem := { mem with slotKey := patch mem.slotKey 0 dk }
    if kmReadSectors < kmSectors h slot then pure (mem, none)
    else
      match dev.read (slotKmOffset h slot) (kmSectors h slot) with
      | none => pure (mem, none)
      | some km => do
        let r ← luks1CandidateTr h slot { mem with kmEnc := patch mem.kmEnc 0 km }
        return (r.1, if digestMatches h r.2 then some r.2 else none)

def luks1SlotsTr (dev : ReadFn) (pass h : List Byte) : List Nat → Luks1Mem →
    Unlocking (Luks1Mem × Option (List Byte))
  | [], mem => pure (mem, none)
  | slot :: slots, mem => do
    match ← luks1AttemptTr dev pass h mem slot with
    | (mem, some key) => return (mem, some key)
    | (mem, none) => luks1SlotsTr dev pass h slots mem

def luks1UnlockTr (dev : ReadFn) (pass : List Byte) (mem : Luks1Mem) (out : LuksOut) :
    Unlocking (Int × LuksOut × Luks1Mem) :=
  match dev.read 0 4 with
  | none => pure (-1, out, mem)
  | some h =>
    if !luks1Probe h then pure (-1, out, mem)
    else if hdrVersion h ≠ 1 then pure (-1, out, mem)
    else if 64 < hdrKeyBytes h then pure (-1, out, mem)
    else do
      match ← luks1SlotsTr dev pass h (List.range 8) mem with
      | (mem, some key) => return (0, luks1Success h key out, mem)
      | (mem, none) => return (-1, out, mem)

theorem decryptKeyMaterialTr_val (stackEssiv : AesCtx) (mode : CipherMode) (slotKey : List Byte) (keyBytes : Nat)
    (enc dec : List Byte) (totalLen : Nat) :
    (decryptKeyMaterialTr stackEssiv mode slotKey keyBytes enc dec totalLen).val.1 =
      decryptKeyMaterial stackEssiv mode slotKey keyBytes enc dec totalLen := by
  unfold decryptKeyMaterialTr
  split_ifs with h
  · rfl
  · simp only [val_bind, val_pure, cbcInitTr_val]
    rfl

theorem luks1CandidateTr_val (h : List Byte) (slot : Nat) (mem : Luks1Mem) :
    (luks1CandidateTr h slot mem).val = luks1Candidate h slot mem := by
  simp only [luks1CandidateTr, val_bind, val_pure, decryptKeyMaterialTr_val]
  rfl

theorem luks1AttemptTr_val (dev : ReadFn) (pass h : List Byte) (mem : Luks1Mem) (slot : Nat) :
    (luks1AttemptTr dev pass h mem slot).val = luks1Attempt dev pass h mem slot := by
  unfold luks1AttemptTr luks1Attempt
  simp only [← kmLen.eq_def, ← kmSectors.eq_def]
  split_ifs
  · rfl
  · rfl
  · cases dev.read (slotKmOffset h slot) (kmSectors h slot) with
    | none => rfl
    | some km => simp only [val_bind, val_pure, luks1CandidateTr_val]

theorem luks1SlotsTr_val (dev : ReadFn) (pass h : List Byte) (slots : List Nat) (mem : Luks1Mem) :
    (luks1SlotsTr dev pass h slots mem).val = luks1Slots dev pass h slots mem := by
  induction slots generalizing mem with
  | nil => rfl
  | cons slot slots ih =>
    rw [luks1SlotsTr, luks1Slots, val_bind, luks1AttemptTr_val]
    rcases luks1Attempt dev pass h mem slot with ⟨mem', none | key⟩
    · exact ih mem'
    · rfl

theorem luks1UnlockTr_val (dev : ReadFn) (pass : List Byte) (mem : Luks1Mem) (out : LuksOut) :
    (luks1UnlockTr dev pass mem out).val = luks1Unlock dev pass mem out := by
  unfold luks1UnlockTr luks1Unlock
  cases dev.read 0 4 with
  | none => rfl
  | some h =>
    dsimp only
    split_ifs
    · rfl
    · rfl
    · rfl
    · rw [val_bind, luks1SlotsTr_val]
      rcases luks1Slots dev pass h (List.range 8) mem with ⟨mem', none | key⟩
      · rfl
      · rfl

/-! ## LUKS2 -/

/-- What is reported of a round; its area is decrypted in XTS. -/
def luks2WorkTr (j : List Byte) (mem : Luks2Mem) : Unlocking (Luks2Mem × Option (List Byte)) := do
  let kmSize := (jsonGetInt j (CStr.lit "size")).toNat
  let kmSecs := (kmSize + 511) / 512
  let xts ← xtsInitTr mem.dk (luks2KeySize j * 2) (luks2KeySize j)
  let plain := (List.range kmSecs).flatMap (luks2DecryptSector xts mem.enc kmSize)
  let dec := patch mem.dec 0 plain
  emit (merge (luks2Stripes j) (luks2KeySize j) (512 * kmSecs) plain.length)
  let candidate := af2Merge .sha256 dec (luks2Stripes j) (luks2KeySize j)
  return ({ mem with dec := dec }, if luks2DigestMatches j candidate then some candidate else none)

def luks2UnlockTracer (alloc : Nat → Bool) (pass : List Byte) : Luks2Tracer UnlockEvent alloc pass where
  derive j := pure (luks2Derive alloc pass j)
  work := luks2WorkTr
  derive_val _ := rfl
  work_val _ _ := rfl

def luks2UnlockTr (dev : ReadFn) (alloc : Nat → Bool) (pass : List Byte) (mem : Luks2Mem) (out : LuksOut) :
    Unlocking (Int × LuksOut × Luks2Mem) := (luks2UnlockTracer alloc pass).unlock dev mem out

theorem luks2UnlockTr_val (dev : ReadFn) (alloc : Nat → Bool) (pass : List Byte) (mem : Luks2Mem) (out : LuksOut) :
    (luks2UnlockTr dev alloc pass mem out).val = luks2Unlock dev alloc pass mem out :=
  (luks2UnlockTracer alloc pass).unlock_val dev mem out

/-! ## The volume -/

def luksVolOpenTr (alloc : Nat → Bool) (dev : ReadFn) (masterKey : List Byte) (keyBytes payloadOffset : Nat)
    (mode : CipherMode) (sectorSize : Nat) : Unlocking (Option LuksVol) :=
  if alloc luksVolSize then
    let vol := luksVolMake dev masterKey keyBytes payloadOffset mode sectorSize
    if mode = .xts then do
      let xts ← xtsInitTr masterKey (keyBytes * 2) keyBytes
      return some { vol with xts := xts }
    else do
      let cbc ← cbcInitTr aesZero masterKey keyBytes mode (some keyBytes) keyBytes
      return some { vol with cbc := cbc }
  else pure none

/-- A payload sector of a volume whose CBC context was made from `key`, its IV cipher from `ivKey`. -/
def LuksVol.payloadSectorTr (vol : LuksVol) (key : List Byte) (ivKey : Option (List Byte)) (sec : Nat) :
    Unlocking (Option (List Byte)) :=
  ⟨vol.payloadSector sec,
    if (vol.payloadSector sec).isSome ∧ vol.cipherMode ≠ .xts then [cbcSector vol.cbc key ivKey] else []⟩

def luksVolReadLoopTr (vol : LuksVol) (key : List Byte) (ivKey : Option (List Byte)) (count : Nat) :
    Nat → Nat → Nat → List Byte → Unlocking (List Byte × Bool)
  | 0, _, _, buf => pure (buf, true)
  | fuel + 1, i, lba, buf =>
    if count ≤ i then pure (buf, true)
    else do
      let secOff := lba % vol.secsPerPayload
      match ← vol.payloadSectorTr key ivKey (lba / vol.secsPerPayload) with
      | none => return (buf, false)
      | some dec =>
        let copy := min (count - i) (vol.secsPerPayload - secOff)
        luksVolReadLoopTr vol key ivKey count fuel (i + copy) (u64 (lba + copy))
          (copySectors (dec.drop (secOff * 512)) i copy buf)

def luksVolReadTr (vol : LuksVol) (key : List Byte) (ivKey : Option (List Byte)) (lba count : Nat)
    (buf : List Byte) : Unlocking (List Byte × Bool) :=
  luksVolReadLoopTr vol key ivKey count count 0 lba buf

theorem luksVolOpenTr_val (alloc : Nat → Bool) (dev : ReadFn) (masterKey : List Byte)
    (keyBytes payloadOffset : Nat) (mode : CipherMode) (sectorSize : Nat) :
    (luksVolOpenTr alloc dev masterKey keyBytes payloadOffset mode sectorSize).val =
      luksVolOpen alloc dev masterKey keyBytes payloadOffset mode sectorSize := by
  unfold luksVolOpenTr luksVolOpen
  split_ifs with halloc hmode
  · simp only [val_bind, val_pure, xtsInitTr_val, luksVolMake, if_pos hmode]
  · simp only [val_bind, val_pure, cbcInitTr_val, luksVolMake, if_neg hmode]
  · rfl

theorem luksVolReadLoopTr_val (vol : LuksVol) (key : List Byte) (ivKey : Option (List Byte))
    (count fuel i lba : Nat) (buf : List Byte) :
    (luksVolReadLoopTr vol key ivKey count fuel i lba buf).val = luksVolReadLoop vol count fuel i lba buf := by
  induction fuel generalizing i lba buf with
  | zero => rfl
  | succ fuel ih =>
    rw [luksVolReadLoopTr, luksVolReadLoop]
    split_ifs
    · rfl
    · rw [val_bind, LuksVol.payloadSectorTr]
      dsimp only
      cases vol.payloadSector (lba / vol.secsPerPayload) with
      | none => rfl
      | some dec => exact ih _ _ _

theorem luksVolReadTr_val (vol : LuksVol) (key : List Byte) (ivKey : Option (List Byte)) (lba count : Nat)
    (buf : List Byte) : (luksVolReadTr vol key ivKey lba count buf).val = luksVolRead vol lba count buf :=
  luksVolReadLoopTr_val vol key ivKey count count 0 lba buf

/-! ## Which slots are worked on -/

/-- The header passes the checks of `luks1_unlock`. -/
structure Luks1Accepts (dev : ReadFn) (h : List Byte) : Prop where
  read : dev.read 0 4 = some h
  probe : luks1Probe h = true
  version : hdrVersion h = 1
  keyBytes : hdrKeyBytes h ≤ 64

/-- The slot is enabled, its key material fits the buffer and can be read. -/
structure Luks1Reaches (dev : ReadFn) (h : List Byte) (slot : Nat) : Prop where
  active : slotActive h slot = luks1KeyEnabled
  fits : kmSectors h slot ≤ kmReadSectors
  read : (dev.read (slotKmOffset h slot) (kmSectors h slot)).isSome = true

theorem luks1AttemptTr_of_reaches {dev : ReadFn} {h : List Byte} {slot : Nat} (hreach : Luks1Reaches dev h slot)
    (pass : List Byte) (mem : Luks1Mem) :
    ∃ mem', (luks1AttemptTr dev pass h mem slot).events = (luks1CandidateTr h slot mem').events := by
  obtain ⟨km, hkm⟩ := Option.isSome_iff_exists.mp hreach.read
  unfold luks1AttemptTr
  rw [if_neg (not_not.mpr hreach.active), if_neg (Nat.not_lt.mpr hreach.fits), hkm]
  dsimp only
  rw [events_bind, events_pure, List.append_nil]
  exact ⟨_, rfl⟩

theorem luks1AttemptTr_of_not_reaches {dev : ReadFn} {h : List Byte} {slot : Nat}
    (hreach : ¬ Luks1Reaches dev h slot) (pass : List Byte) (mem : Luks1Mem) :
    ∃ mem', luks1AttemptTr dev pass h mem slot = pure (mem', none) := by
  unfold luks1AttemptTr
  split_ifs with hactive hfits
  · exact ⟨mem, rfl⟩
  · exact ⟨_, rfl⟩
  · cases hread : dev.read (slotKmOffset h slot) (kmSectors h slot) with
    | none => exact ⟨_, rfl⟩
    | some km =>
      refine absurd ⟨not_not.mp hactive, Nat.le_of_not_lt hfits, ?_⟩ hreach
      rw [hread]
      rfl

theorem mem_luks1SlotsTr {dev : ReadFn} {pass h : List Byte} {slots : List Nat} {mem : Luks1Mem}
    {e : UnlockEvent} (he : e ∈ (luks1SlotsTr dev pass h slots mem).events) :
    ∃ slot ∈ slots, ∃ mem', Luks1Reaches dev h slot ∧ e ∈ (luks1CandidateTr h slot mem').events := by
  induction slots generalizing mem with
  | nil => cases he
  | cons slot slots ih =>
    rw [luks1SlotsTr, events_bind, List.mem_append] at he
    obtain hfirst | hrest := he
    · by_cases hreach : Luks1Reaches dev h slot
      · obtain ⟨mem', hevents⟩ := luks1AttemptTr_of_reaches hreach pass mem
        exact ⟨slot, by simp, mem', hreach, hevents ▸ hfirst⟩
      · obtain ⟨mem', hnone⟩ := luks1AttemptTr_of_not_reaches hreach pass mem
        rw [hnone] at hfirst
        cases hfirst
    · rcases hval : (luks1AttemptTr dev pass h mem slot).val with ⟨mem', none | key⟩ <;> rw [hval] at hrest
      · obtain ⟨s, hs, hrest⟩ := ih hrest
        exact ⟨s, List.mem_cons_of_mem _ hs, hrest⟩
      · cases hrest

/-- The first slot that can be worked on is worked on. -/
theorem luks1SlotsTr_of_reaches {dev : ReadFn} {h : List Byte} {slots : List Nat}
    (hreach : ∃ slot ∈ slots, Luks1Reaches dev h slot) (pass : List Byte) (mem : Luks1Mem) :
    ∃ slot ∈ slots, ∃ mem', Luks1Reaches dev h slot ∧
      (luks1CandidateTr h slot mem').events ⊆ (luks1SlotsTr dev pass h slots mem).events := by
  induction slots generalizing mem with
  | nil =>
    obtain ⟨slot, hslot, -⟩ := hreach
    cases hslot
  | cons slot slots ih =>
    rw [luks1SlotsTr, events_bind]
    by_cases hfirst : Luks1Reaches dev h slot
    · obtain ⟨mem', hevents⟩ := luks1AttemptTr_of_reaches hfirst pass mem
      exact ⟨slot, by simp, mem', hfirst, hevents ▸ List.subset_append_left _ _⟩
    · obtain ⟨mem', hnone⟩ := luks1AttemptTr_of_not_reaches hfirst pass mem
      have hrest : ∃ s ∈ slots, Luks1Reaches dev h s := by
        obtain ⟨s, hs, hsr⟩ := hreach
        rcases List.mem_cons.mp hs with rfl | hs
        · exact absurd hsr hfirst
        · exact ⟨s, hs, hsr⟩
      obtain ⟨s, hs, m, hsr, hsub⟩ := ih hrest mem'
      rw [hnone]
      exact ⟨s, List.mem_cons_of_mem _ hs, m, hsr, hsub⟩

section Luks1

variable {dev : ReadFn} {pass : List Byte} {mem : Luks1Mem} {out : LuksOut}

theorem events_luks1UnlockTr {h : List Byte} (hacc : Luks1Accepts dev h) :
    (luks1UnlockTr dev pass mem out).events = (luks1SlotsTr dev pass h (List.range 8) mem).events := by
  rw [luks1UnlockTr, hacc.read]
  simp only [hacc.probe, hacc.version, Nat.not_lt.mpr hacc.keyBytes, Bool.not_true, Bool.false_eq_true, if_false,
    ne_eq, not_true_eq_false, events_bind]
  split
  · simp
  · simp

theorem mem_luks1UnlockTr {e : UnlockEvent} (he : e ∈ (luks1UnlockTr dev pass mem out).events) :
    ∃ h, Luks1Accepts dev h ∧ ∃ slot < 8, ∃ mem', Luks1Reaches dev h slot ∧
      e ∈ (luks1CandidateTr h slot mem').events := by
  have hacc : ∃ h, Luks1Accepts dev h := by
    unfold luks1UnlockTr at he
    cases hread : dev.read 0 4 with
    | none =>
      rw [hread] at he
      cases he
    | some h =>
      rw [hread] at he
      dsimp only at he
      split_ifs at he with hprobe hversion hkb
      · cases he
      · cases he
      · cases he
      · exact ⟨h, hread, by simpa using hprobe, by simpa using hversion, Nat.le_of_not_lt hkb⟩
  obtain ⟨h, hacc⟩ := hacc
  rw [events_luks1UnlockTr hacc] at he
  obtain ⟨slot, hslot, hrest⟩ := mem_luks1SlotsTr he
  exact ⟨h, hacc, slot, List.mem_range.mp hslot, hrest⟩

theorem luks1UnlockTr_of_reaches {h : List Byte} (hacc : Luks1Accepts dev h) {slot : Nat} (hslot : slot < 8)
    (hreach : Luks1Reaches dev h slot) (pass : List Byte) (mem : Luks1Mem) (out : LuksOut) :
    ∃ slot < 8, ∃ mem', Luks1Reaches dev h slot ∧
      (luks1CandidateTr h slot mem').events ⊆ (luks1UnlockTr dev pass mem out).events := by
  rw [events_luks1UnlockTr hacc]
  obtain ⟨s, hs, hrest⟩ := luks1SlotsTr_of_reaches ⟨slot, List.mem_range.mpr hslot, hreach⟩ pass mem
  exact ⟨s, List.mem_range.mp hs, hrest⟩

end Luks1

theorem length_sectors {f : Nat → List Byte} (total : Nat) {n : Nat}
    (hf : ∀ i, (f i).length = min (total - 512 * i) 512) :
    ((List.range n).flatMap f).length = min total (512 * n) := by
  induction n with
  | zero => simp
  | succ n ih =>
    rw [List.range_succ, List.flatMap_append, List.length_append, ih, List.flatMap_singleton, hf]
    omega

theorem length_luks2Sectors (xts : XtsCtx) (enc : List Byte) (kmSize : Nat) :
    ((List.range ((kmSize + 511) / 512)).flatMap (luks2DecryptSector xts enc kmSize)).length =
      (kmSize + 15) / 16 * 16 := by
  rw [length_sectors ((kmSize + 15) / 16 * 16)]
  · omega
  · intro i
    rw [luks2DecryptSector, xtsCrypt, length_xtsBlocks]
    omega

/-- The steps of a round that works on an area. -/
def luks2Steps (j : List Byte) : List UnlockEvent :=
  let kmSize := (jsonGetInt j (CStr.lit "size")).toNat
  [keySchedule 0 (luks2KeySize j) (luks2KeySize j), keySchedule (luks2KeySize j) (luks2KeySize j) (luks2KeySize j),
    merge (luks2Stripes j) (luks2KeySize j) (512 * ((kmSize + 511) / 512)) ((kmSize + 15) / 16 * 16)]

theorem events_luks2WorkTr (j : List Byte) (mem : Luks2Mem) : (luks2WorkTr j mem).events = luks2Steps j := by
  simp only [luks2WorkTr, events_bind, events_emit, events_pure, length_luks2Sectors, xtsInitTr, aesInitTr, luks2Steps,
    List.append_nil, List.cons_append, List.nil_append, Nat.mul_div_cancel _ Nat.two_pos]

/-- All steps of a run are those of one text whose area is worked on. -/
theorem forall_luks2UnlockTr {P : UnlockEvent → Prop} (dev : ReadFn) (alloc : Nat → Bool) (pass : List Byte)
    (mem : Luks2Mem) (out : LuksOut) : (∀ e ∈ (luks2UnlockTr dev alloc pass mem out).events, P e) ↔
      ∀ j, Luks2Accepts dev j → Luks2Reaches dev alloc pass j → ∀ e ∈ luks2Steps j, P e := by
  have hwork : ∀ j mem, (∀ e ∈ (luks2WorkTr j mem).events, P e) ↔ ∀ e ∈ luks2Steps j, P e := by
    intro j mem
    rw [events_luks2WorkTr]
  rw [luks2UnlockTr, (luks2UnlockTracer alloc pass).forall_events_unlock hwork]
  constructor
  · exact fun h j hacc hreach => (h j hacc (keySize_isSome.mp hreach.keySize)).2 hreach
  · exact fun h j hacc _ => ⟨nofun, h j hacc⟩

end SakuruBoot

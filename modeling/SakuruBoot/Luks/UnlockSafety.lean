import SakuruBoot.Luks.UnlockTrace

/-!
# Key lengths, IV ciphers and stripes

What the steps of an unlock owe to the key length, the cipher mode and the stripe count of the header.

* `keySchedules_iff`: a key schedule is started on 16 or 32 derived bytes, in every run, unless the mode is
  XTS. There the code doubles a length that already covers both keys, and the tweak key lies behind
  the derived bytes.
* `essivReady_iff`: the IV cipher of ESSIV is keyed when a volume is opened with a key of 32 bytes or more, and
  never while key material is decrypted.
* `merges_iff`: a merge reads only what was decrypted, unless the product of stripes and key length does
  not fit the buffer, or is no whole number of blocks in a CBC mode. LUKS2 does not compare the product
  with the area.
-/

namespace SakuruBoot
open CStr (Byte u32 u64)
open Bytes Traced UnlockEvent

/-! ## The steps of a LUKS1 slot -/

def hdrMode (h : List Byte) : CipherMode := cipherModeId (hdrCipherMode h)

/-- Bytes of key material that are decrypted: CBC leaves out a last piece of a block. -/
def decryptedLen (mode : CipherMode) (total : Nat) : Nat := if mode = .xts then total else total / 16 * 16

theorem length_decryptedSectors (mode : CipherMode) (xts : XtsCtx) (cbc : CbcCtx) (enc : List Byte) (total : Nat) :
    ((List.range (sectorCount total)).flatMap (decryptSector mode xts cbc enc total)).length =
      decryptedLen mode total := by
  have hsector : ∀ i, (decryptSector mode xts cbc enc total i).length =
      min (decryptedLen mode total - 512 * i) 512 := by
    intro i
    cases mode with
    | xts =>
      rw [decryptSector, List.length_take, xtsCrypt, length_xtsBlocks, decryptedLen, if_pos rfl]
      omega
    | cbcPlain | cbcPlain64 | cbcEssiv =>
      rw [decryptSector, cbcDecryptSector, length_cbcBlocks, decryptedLen, if_neg (by decide)]
      · omega
      · intro hmode
        cases hmode
  have hle : decryptedLen mode total ≤ total := by
    unfold decryptedLen
    split_ifs
    · exact Nat.le_refl _
    · omega
  rw [length_sectors _ hsector, sectorCount]
  omega

def luks1Merge (h : List Byte) (slot : Nat) : UnlockEvent :=
  merge (slotStripes h slot) (hdrKeyBytes h) (512 * kmSectors h slot) (decryptedLen (hdrMode h) (kmLen h slot))

theorem events_luks1CandidateTr_xts {h : List Byte} (hmode : hdrMode h = .xts) (slot : Nat) (mem : Luks1Mem) :
    (luks1CandidateTr h slot mem).events = [keySchedule 0 (hdrKeyBytes h) (hdrKeyBytes h),
      keySchedule (hdrKeyBytes h) (hdrKeyBytes h) (hdrKeyBytes h), luks1Merge h slot] := by
  rw [luks1CandidateTr, ← hdrMode, decryptKeyMaterialTr, if_pos hmode]
  simp only [events_bind, events_emit, events_pure, val_bind, val_pure, length_decryptedSectors, xtsInitTr,
    aesInitTr, luks1Merge, List.append_nil, List.cons_append, List.nil_append, Nat.mul_div_cancel _ Nat.two_pos]

theorem events_luks1CandidateTr_cbc {h : List Byte} (hmode : hdrMode h ≠ .xts) (slot : Nat) (mem : Luks1Mem) :
    (luks1CandidateTr h slot mem).events =
      [keySchedule 0 (hdrKeyBytes h) (hdrKeyBytes h), keySchedule 0 (hdrKeyBytes h) (hdrKeyBytes h)] ++
      ((List.range (sectorCount (kmLen h slot))).map fun _ =>
        cbcSector (cbcInit mem.stackEssiv mem.slotKey (hdrKeyBytes h) (hdrMode h) none)
          (mem.slotKey.take (hdrKeyBytes h)) none) ++ [luks1Merge h slot] := by
  rw [luks1CandidateTr, ← hdrMode, decryptKeyMaterialTr, if_neg hmode]
  simp only [events_bind, events_emit, events_pure, val_bind, val_pure, length_decryptedSectors, cbcInitTr_val,
    luks1Merge, List.append_nil]
  simp [cbcInitTr, essivKey, aesInitTr]

theorem forall_events_cbc {h : List Byte} (hmode : hdrMode h ≠ .xts) (slot : Nat) (mem : Luks1Mem)
    {P : UnlockEvent → Prop} : (∀ e ∈ (luks1CandidateTr h slot mem).events, P e) ↔
      P (keySchedule 0 (hdrKeyBytes h) (hdrKeyBytes h)) ∧
        (0 < sectorCount (kmLen h slot) → P (cbcSector (cbcInit mem.stackEssiv mem.slotKey (hdrKeyBytes h) (hdrMode h)
          none) (mem.slotKey.take (hdrKeyBytes h)) none)) ∧
        P (luks1Merge h slot) := by
  rw [events_luks1CandidateTr_cbc hmode]
  simp only [List.forall_mem_append, List.forall_mem_cons, List.forall_mem_map, List.mem_range]
  constructor
  · rintro ⟨⟨⟨hkey, -⟩, hsector⟩, hmerge, -⟩
    exact ⟨hkey, hsector 0, hmerge⟩
  · rintro ⟨hkey, hsector, hmerge⟩
    exact ⟨⟨⟨hkey, hkey, List.forall_mem_nil _⟩, fun i hi => hsector (Nat.zero_lt_of_lt hi)⟩, hmerge,
      List.forall_mem_nil _⟩

/-! ## Key schedules -/

/-- `aes_init_enc` is called on 16 or 32 bytes, all of them derived. -/
def UnlockEvent.KeyOk : UnlockEvent → Prop
  | keySchedule off len produced => (len = 16 ∨ len = 32) ∧ off + len ≤ produced
  | _ => True

theorem keyOk_luks1Candidate (h : List Byte) (slot : Nat) (mem : Luks1Mem) :
    (∀ e ∈ (luks1CandidateTr h slot mem).events, e.KeyOk) ↔
      hdrMode h ≠ .xts ∧ (hdrKeyBytes h = 16 ∨ hdrKeyBytes h = 32) := by
  by_cases hmode : hdrMode h = .xts
  · rw [events_luks1CandidateTr_xts hmode]
    simp only [hmode, ne_eq, not_true_eq_false, false_and, iff_false]
    intro hall
    have htweak : UnlockEvent.KeyOk (keySchedule (hdrKeyBytes h) (hdrKeyBytes h) (hdrKeyBytes h)) := hall _ (by simp)
    simp only [UnlockEvent.KeyOk] at htweak
    omega
  · rw [forall_events_cbc hmode]
    simp [hmode, UnlockEvent.KeyOk, luks1Merge]

theorem keyOk_luks1Unlock (dev : ReadFn) (pass : List Byte) (mem : Luks1Mem) (out : LuksOut) :
    (∀ e ∈ (luks1UnlockTr dev pass mem out).events, e.KeyOk) ↔
      ∀ h, Luks1Accepts dev h → (∀ slot < 8, ¬ Luks1Reaches dev h slot) ∨
        hdrMode h ≠ .xts ∧ (hdrKeyBytes h = 16 ∨ hdrKeyBytes h = 32) := by
  constructor
  · intro hall h hacc
    by_cases hreach : ∃ slot < 8, Luks1Reaches dev h slot
    · obtain ⟨slot, hslot, hreach⟩ := hreach
      obtain ⟨s, -, mem', -, hsub⟩ := luks1UnlockTr_of_reaches hacc hslot hreach pass mem out
      exact .inr ((keyOk_luks1Candidate h s mem').mp fun e he => hall e (hsub he))
    · push Not at hreach
      exact .inl hreach
  · intro hcond e he
    obtain ⟨h, hacc, slot, hslot, mem', hreach, he⟩ := mem_luks1UnlockTr he
    obtain hnone | hok := hcond h hacc
    · exact absurd hreach (hnone slot hslot)
    · exact (keyOk_luks1Candidate h slot mem').mpr hok e he

/-- A LUKS2 round that works on an area starts its tweak cipher behind the derived key. -/
theorem not_keyOk_luks2Steps (j : List Byte) : ¬ ∀ e ∈ luks2Steps j, e.KeyOk := by
  intro hall
  have htweak : UnlockEvent.KeyOk (keySchedule (luks2KeySize j) (luks2KeySize j) (luks2KeySize j)) :=
    hall _ (by simp [luks2Steps])
  simp only [UnlockEvent.KeyOk] at htweak
  omega

theorem keyOk_luks2Unlock (dev : ReadFn) (alloc : Nat → Bool) (pass : List Byte) (mem : Luks2Mem) (out : LuksOut) :
    (∀ e ∈ (luks2UnlockTr dev alloc pass mem out).events, e.KeyOk) ↔
      ∀ j, Luks2Accepts dev j → ¬ Luks2Reaches dev alloc pass j := by
  rw [forall_luks2UnlockTr]
  exact forall₂_congr fun j _ => imp_congr_right fun _ => iff_false_intro (not_keyOk_luks2Steps j)

theorem keyOk_luksVolOpen (alloc : Nat → Bool) (dev : ReadFn) (masterKey : List Byte)
    (keyBytes payloadOffset : Nat) (mode : CipherMode) (sectorSize : Nat) :
    (∀ e ∈ (luksVolOpenTr alloc dev masterKey keyBytes payloadOffset mode sectorSize).events, e.KeyOk) ↔
      alloc luksVolSize = false ∨ mode ≠ .xts ∧ (keyBytes = 16 ∨ keyBytes = 32) := by
  rw [luksVolOpenTr]
  split_ifs with halloc hmode
  · simp only [halloc, hmode, ne_eq, not_true_eq_false, false_and, or_false, Bool.true_eq_false, iff_false]
    intro hall
    have htweak : UnlockEvent.KeyOk (keySchedule (keyBytes * 2 / 2) (keyBytes * 2 / 2) keyBytes) :=
      hall _ (by simp [xtsInitTr, aesInitTr])
    simp only [UnlockEvent.KeyOk] at htweak
    omega
  · simp only [events_bind, events_pure, List.append_nil, cbcInitTr, aesInitTr, events_emit]
    cases essivKey masterKey keyBytes mode (some keyBytes) with
    | none => simp [UnlockEvent.KeyOk, halloc, hmode]
    | some k => simp [UnlockEvent.KeyOk, halloc, hmode]
  · simp [halloc]

/-- Exactly when every key schedule of an unlock and of opening the volume is started on 16 or 32 bytes that
were derived. -/
theorem keySchedules_iff (dev : ReadFn) (alloc : Nat → Bool) (pass : List Byte) :
    (∀ mem out, (∀ e ∈ (luks1UnlockTr dev pass mem out).events, e.KeyOk) ↔
      ∀ h, Luks1Accepts dev h → (∀ slot < 8, ¬ Luks1Reaches dev h slot) ∨
        hdrMode h ≠ .xts ∧ (hdrKeyBytes h = 16 ∨ hdrKeyBytes h = 32)) ∧
    (∀ mem out, (∀ e ∈ (luks2UnlockTr dev alloc pass mem out).events, e.KeyOk) ↔
      ∀ j, Luks2Accepts dev j → ¬ Luks2Reaches dev alloc pass j) ∧
    ∀ masterKey, ∀ keyBytes ≤ 64, ∀ payloadOffset mode sectorSize,
      (∀ e ∈ (luksVolOpenTr alloc dev masterKey keyBytes payloadOffset mode sectorSize).events, e.KeyOk) ↔
        alloc luksVolSize = false ∨ mode ≠ .xts ∧ (keyBytes = 16 ∨ keyBytes = 32) :=
  ⟨keyOk_luks1Unlock dev pass, keyOk_luks2Unlock dev alloc pass,
    fun masterKey keyBytes _ => keyOk_luksVolOpen alloc dev masterKey keyBytes⟩

/-! ## One LUKS1 header -/

/-- A header with one enabled slot, its key material at sector 8. -/
def slotHeader (mode : String) (keyBytes stripes : Nat) : List Byte :=
  fit (List.flatten [luksMagic, be 2 1, fit (CStr.lit "aes") 32, fit (CStr.lit mode) 32, fit (CStr.lit "sha256") 32,
    be 4 4096, be 4 keyBytes, List.replicate 20 0, List.replicate 32 0, be 4 1000, List.replicate 40 0,
    be 4 luks1KeyEnabled, be 4 1000, List.replicate 32 0, be 4 8, be 4 stripes]) 2048

/-- A device of 512 sectors with that header. -/
def slotDevice (mode : String) (keyBytes stripes : Nat) : ReadFn :=
  .ofImage (slotHeader mode keyBytes stripes ++ List.replicate (512 * 508) 0)

theorem length_slotImage (mode : String) (keyBytes stripes : Nat) :
    (slotHeader mode keyBytes stripes ++ List.replicate (512 * 508) 0).length = 512 * 512 := by
  rw [List.length_append, slotHeader, length_fit, List.length_replicate]

theorem read_slotDevice (mode : String) (keyBytes stripes : Nat) :
    (slotDevice mode keyBytes stripes).read 0 4 = some (slotHeader mode keyBytes stripes) := by
  have hlen : (slotHeader mode keyBytes stripes).length = 512 * 4 := length_fit _ _
  rw [slotDevice, read_ofImage (by rw [length_slotImage]; decide), Nat.mul_zero, slice_zero_left hlen]

theorem slotDevice_accepts {mode : String} {keyBytes stripes : Nat}
    (hprobe : luks1Probe (slotHeader mode keyBytes stripes) = true)
    (hversion : hdrVersion (slotHeader mode keyBytes stripes) = 1)
    (hkb : hdrKeyBytes (slotHeader mode keyBytes stripes) ≤ 64) :
    Luks1Accepts (slotDevice mode keyBytes stripes) (slotHeader mode keyBytes stripes) :=
  ⟨read_slotDevice _ _ _, hprobe, hversion, hkb⟩

theorem slotDevice_reaches {mode : String} {keyBytes stripes slot : Nat}
    (hactive : slotActive (slotHeader mode keyBytes stripes) slot = luks1KeyEnabled)
    (hoff : slotKmOffset (slotHeader mode keyBytes stripes) slot = 8)
    (hfits : kmSectors (slotHeader mode keyBytes stripes) slot ≤ kmReadSectors) :
    Luks1Reaches (slotDevice mode keyBytes stripes) (slotHeader mode keyBytes stripes) slot where
  active := hactive
  fits := hfits
  read := by
    have hle : kmSectors (slotHeader mode keyBytes stripes) slot ≤ 256 := hfits
    rw [hoff, slotDevice, read_ofImage (by rw [length_slotImage]; omega)]
    rfl

/-- On a volume with an XTS key of 32 bytes the tweak cipher is keyed with what follows the derived key. -/
theorem keySchedules_xts : ¬ ∀ e ∈ (luks1UnlockTr (slotDevice "xts-plain64" 32 4000) (CStr.lit "pw")
    zeroMem.luks1 (luksOpenOut [])).events, e.KeyOk := by
  have hacc : Luks1Accepts (slotDevice "xts-plain64" 32 4000) (slotHeader "xts-plain64" 32 4000) :=
    slotDevice_accepts (by decide) (by decide) (by decide)
  have hreach : Luks1Reaches (slotDevice "xts-plain64" 32 4000) (slotHeader "xts-plain64" 32 4000) 0 :=
    slotDevice_reaches (by decide) (by decide) (by decide)
  have hmode : hdrMode (slotHeader "xts-plain64" 32 4000) = .xts := by decide
  intro hall
  obtain hnone | hok := (keyOk_luks1Unlock _ _ _ _).mp hall _ hacc
  · exact hnone 0 (by decide) hreach
  · exact hok.1 hmode

/-! ## The IV cipher of ESSIV -/

/-- A sector is decrypted in ESSIV mode only with an IV cipher that `cbc_init` keyed with the hash of the
same key. -/
def UnlockEvent.EssivReady : UnlockEvent → Prop
  | cbcSector ctx key ivKey =>
    ctx.mode = .cbcEssiv → ivKey = some key ∧ ctx.essiv = aesInitEnc (sha256 key) 32
  | _ => True

/-- A LUKS1 slot keys no IV cipher, whatever the length of its key. -/
theorem essivReady_luks1Candidate (h : List Byte) (slot : Nat) (mem : Luks1Mem) :
    (∀ e ∈ (luks1CandidateTr h slot mem).events, e.EssivReady) ↔
      hdrMode h ≠ .cbcEssiv ∨ kmLen h slot = 0 := by
  by_cases hmode : hdrMode h = .xts
  · rw [events_luks1CandidateTr_xts hmode]
    simp [hmode, EssivReady, luks1Merge]
  · have hsectors : sectorCount (kmLen h slot) = 0 ↔ kmLen h slot = 0 := by
      unfold sectorCount
      omega
    rw [forall_events_cbc hmode, Nat.pos_iff_ne_zero, ne_eq, hsectors]
    constructor
    · rintro ⟨-, hsector, -⟩
      by_contra! hnot
      have hkeyed := (hsector hnot.2 hnot.1).1
      cases hkeyed
    · rintro (hessiv | hlen)
      · exact ⟨trivial, fun _ h => absurd h hessiv, trivial⟩
      · exact ⟨trivial, fun h => absurd hlen h, trivial⟩

theorem essivReady_luks1Attempt (dev : ReadFn) (pass h : List Byte) (mem : Luks1Mem) (slot : Nat) :
    (∀ e ∈ (luks1AttemptTr dev pass h mem slot).events, e.EssivReady) ↔
      hdrMode h ≠ .cbcEssiv ∨ (Luks1Reaches dev h slot → kmLen h slot = 0) := by
  by_cases hreach : Luks1Reaches dev h slot
  · obtain ⟨mem', hevents⟩ := luks1AttemptTr_of_reaches hreach pass mem
    rw [hevents, essivReady_luks1Candidate]
    simp [hreach]
  · obtain ⟨mem', hnone⟩ := luks1AttemptTr_of_not_reaches hreach pass mem
    simp [hnone, hreach]

theorem essivReady_luks1Unlock {dev : ReadFn}
    (hcond : ∀ h, Luks1Accepts dev h → hdrMode h ≠ .cbcEssiv ∨
      ∀ slot < 8, Luks1Reaches dev h slot → kmLen h slot = 0)
    (pass : List Byte) (mem : Luks1Mem) (out : LuksOut) :
    ∀ e ∈ (luks1UnlockTr dev pass mem out).events, e.EssivReady := by
  intro e he
  obtain ⟨h, hacc, slot, hslot, mem', hreach, he⟩ := mem_luks1UnlockTr he
  refine (essivReady_luks1Candidate h slot mem').mpr ?_ e he
  obtain hmode | hlen := hcond h hacc
  · exact .inl hmode
  · exact .inr (hlen slot hslot hreach)

theorem mem_luksVolOpenTr {alloc : Nat → Bool} {dev : ReadFn} {masterKey : List Byte}
    {keyBytes payloadOffset : Nat} {mode : CipherMode} {sectorSize : Nat} {e : UnlockEvent}
    (he : e ∈ (luksVolOpenTr alloc dev masterKey keyBytes payloadOffset mode sectorSize).events) :
    ∃ off len produced, e = keySchedule off len produced := by
  unfold luksVolOpenTr at he
  split_ifs at he with halloc hmode
  · simp only [xtsInitTr, aesInitTr, events_bind, events_emit, events_pure, List.append_nil, List.cons_append,
      List.nil_append, List.mem_cons, List.not_mem_nil, or_false] at he
    rcases he with rfl | rfl
    · exact ⟨_, _, _, rfl⟩
    · exact ⟨_, _, _, rfl⟩
  · rw [events_bind, events_pure, List.append_nil, cbcInitTr] at he
    cases hkey : essivKey masterKey keyBytes mode (some keyBytes) with
    | none =>
      simp only [hkey, aesInitTr, events_bind, events_emit, events_pure, List.append_nil, List.cons_append,
        List.nil_append, List.mem_cons, List.not_mem_nil, or_false, or_self] at he
      exact ⟨_, _, _, he⟩
    | some k =>
      simp only [hkey, aesInitTr, events_bind, events_emit, events_pure, List.append_nil, List.cons_append,
        List.nil_append, List.mem_cons, List.not_mem_nil, or_false] at he
      rcases he with rfl | rfl | rfl
      · exact ⟨_, _, _, rfl⟩
      · exact ⟨_, _, _, rfl⟩
      · exact ⟨_, _, _, rfl⟩
  · cases he

theorem mem_luksVolReadLoopTr {vol : LuksVol} {key : List Byte} {ivKey : Option (List Byte)}
    {count fuel i lba : Nat} {buf : List Byte} {e : UnlockEvent}
    (he : e ∈ (luksVolReadLoopTr vol key ivKey count fuel i lba buf).events) :
    vol.cipherMode ≠ .xts ∧ e = cbcSector vol.cbc key ivKey := by
  induction fuel generalizing i lba buf with
  | zero => cases he
  | succ fuel ih =>
    rw [luksVolReadLoopTr] at he
    split_ifs at he with hi
    · cases he
    · rw [events_bind, List.mem_append, LuksVol.payloadSectorTr] at he
      obtain hfirst | hrest := he
      · dsimp only at hfirst
        split_ifs at hfirst with hsome
        · exact ⟨hsome.2, List.mem_singleton.mp hfirst⟩
        · cases hfirst
      · dsimp only at hrest
        cases hsector : vol.payloadSector (lba / vol.secsPerPayload) with
        | none =>
          rw [hsector] at hrest
          cases hrest
        | some dec =>
          rw [hsector] at hrest
          exact ih hrest

theorem mem_luksVolReadTr_iff (vol : LuksVol) (key : List Byte) (ivKey : Option (List Byte)) (lba count : Nat)
    (buf : List Byte) (e : UnlockEvent) :
    e ∈ (luksVolReadTr vol key ivKey lba count buf).events ↔
      e = cbcSector vol.cbc key ivKey ∧ vol.cipherMode ≠ .xts ∧ count ≠ 0 ∧
        vol.payloadSector (lba / vol.secsPerPayload) ≠ none := by
  rw [luksVolReadTr]
  cases count with
  | zero => simp [luksVolReadLoopTr]
  | succ count =>
    constructor
    · intro he
      obtain ⟨hmode, rfl⟩ := mem_luksVolReadLoopTr he
      refine ⟨rfl, hmode, Nat.succ_ne_zero _, ?_⟩
      intro hsector
      rw [luksVolReadLoopTr, if_neg (by omega), events_bind, LuksVol.payloadSectorTr, hsector] at he
      simp at he
    · rintro ⟨rfl, hmode, -, hsector⟩
      rw [luksVolReadLoopTr, if_neg (by omega), events_bind, LuksVol.payloadSectorTr]
      refine List.mem_append_left _ ?_
      rw [if_pos ⟨Option.isSome_iff_ne_none.mpr hsector, hmode⟩]
      exact List.mem_singleton.mpr rfl

/-- The key of the volume `luks_vol_open` makes, and the one its IV cipher is made from. -/
def volumeKey (masterKey : List Byte) (keyBytes : Nat) : List Byte := masterKey.take keyBytes

def volumeIvKey (masterKey : List Byte) (keyBytes : Nat) (mode : CipherMode) : Option (List Byte) :=
  essivKey masterKey keyBytes mode (some keyBytes)

theorem essivReady_luksVolRead {dev : ReadFn} {masterKey : List Byte} {keyBytes payloadOffset : Nat}
    {mode : CipherMode} {sectorSize : Nat} {vol : LuksVol}
    (hvol : vol = luksVolMake dev masterKey keyBytes payloadOffset mode sectorSize) (lba count : Nat)
    (buf : List Byte) :
    (∀ e ∈ (luksVolReadTr vol (volumeKey masterKey keyBytes) (volumeIvKey masterKey keyBytes mode)
      lba count buf).events, e.EssivReady) ↔
      mode ≠ .cbcEssiv ∨ 32 ≤ keyBytes ∨ count = 0 ∨ vol.payloadSector (lba / vol.secsPerPayload) = none := by
  have hcipher : vol.cipherMode = mode := by rw [hvol]; rfl
  have hcbc : mode ≠ .xts → vol.cbc = cbcInit aesZero masterKey keyBytes mode (some keyBytes) := by
    intro hmode
    rw [hvol, luksVolMake]
    exact if_neg hmode
  simp only [mem_luksVolReadTr_iff, hcipher]
  by_cases hessiv : mode = .cbcEssiv
  · have hxts : mode ≠ .xts := by rw [hessiv]; decide
    have hctx : vol.cbc.mode = .cbcEssiv := by rw [hcbc hxts]; exact hessiv
    by_cases hkb : 32 ≤ keyBytes
    · -- the condition of `cbc_init` holds
      have hready : EssivReady (cbcSector vol.cbc (volumeKey masterKey keyBytes)
          (volumeIvKey masterKey keyBytes mode)) := by
        intro _
        rw [volumeIvKey, essivKey, hcbc hxts, cbcInit]
        dsimp only
        rw [if_pos ⟨hessiv, hkb⟩, if_pos ⟨hessiv, hkb⟩]
        exact ⟨rfl, rfl⟩
      simp only [hkb, true_or, or_true, iff_true]
      rintro e ⟨rfl, -⟩
      exact hready
    · have hnone : volumeIvKey masterKey keyBytes mode = none := by
        rw [volumeIvKey, essivKey]
        exact if_neg fun h => hkb h.2
      simp only [hessiv, ne_eq, not_true_eq_false, hkb, false_or]
      constructor
      · intro hall
        by_contra hreads
        push Not at hreads
        have hready := hall _ ⟨rfl, by decide, hreads⟩ hctx
        rw [← hessiv, hnone] at hready
        exact Option.some_ne_none _ hready.1.symm
      · rintro hreads e ⟨-, -, hcount, hsector⟩
        exact absurd hreads (not_or.mpr ⟨hcount, hsector⟩)
  · simp only [hessiv, ne_eq, not_false_eq_true, true_or, iff_true]
    rintro e ⟨rfl, hxts, -⟩ hmode
    rw [hcbc hxts] at hmode
    exact absurd hmode hessiv

/-- Exactly when a step of `luks1_unlock`, of opening a volume and of reading it decrypts with an ESSIV mode
only under an IV cipher keyed for it; over a whole run of `luks1_unlock`, a condition on its slots. -/
theorem essivReady_iff (dev : ReadFn) :
    (∀ pass h mem slot, (∀ e ∈ (luks1AttemptTr dev pass h mem slot).events, e.EssivReady) ↔
      hdrMode h ≠ .cbcEssiv ∨ (Luks1Reaches dev h slot → kmLen h slot = 0)) ∧
    ((∀ h, Luks1Accepts dev h → hdrMode h ≠ .cbcEssiv ∨ ∀ slot < 8, Luks1Reaches dev h slot → kmLen h slot = 0) →
      ∀ pass mem out, ∀ e ∈ (luks1UnlockTr dev pass mem out).events, e.EssivReady) ∧
    ∀ alloc masterKey keyBytes payloadOffset mode sectorSize,
      (∀ e ∈ (luksVolOpenTr alloc dev masterKey keyBytes payloadOffset mode sectorSize).events, e.EssivReady) ∧
      ∀ vol, luksVolOpen alloc dev masterKey keyBytes payloadOffset mode sectorSize = some vol →
        ∀ lba count buf, (∀ e ∈ (luksVolReadTr vol (volumeKey masterKey keyBytes)
          (volumeIvKey masterKey keyBytes mode) lba count buf).events, e.EssivReady) ↔
          mode ≠ .cbcEssiv ∨ 32 ≤ keyBytes ∨ count = 0 ∨
            vol.payloadSector (lba / vol.secsPerPayload) = none := by
  refine ⟨essivReady_luks1Attempt dev, essivReady_luks1Unlock, ?_⟩
  intro alloc masterKey keyBytes payloadOffset mode sectorSize
  constructor
  · intro e he
    obtain ⟨off, len, produced, rfl⟩ := mem_luksVolOpenTr he
    trivial
  · intro vol hopen
    rw [luksVolOpen, Option.ite_none_right_eq_some, Option.some.injEq] at hopen
    exact essivReady_luksVolRead hopen.2.symm

/-- The key material of an ESSIV volume is decrypted under an IV cipher that nothing keyed. -/
theorem essivReady_luks1 : ¬ ∀ e ∈ (luks1UnlockTr (slotDevice "cbc-essiv:sha256" 32 4000) (CStr.lit "pw")
    zeroMem.luks1 (luksOpenOut [])).events, e.EssivReady := by
  have hacc : Luks1Accepts (slotDevice "cbc-essiv:sha256" 32 4000) (slotHeader "cbc-essiv:sha256" 32 4000) :=
    slotDevice_accepts (by decide) (by decide) (by decide)
  have hreach : Luks1Reaches (slotDevice "cbc-essiv:sha256" 32 4000) (slotHeader "cbc-essiv:sha256" 32 4000) 0 :=
    slotDevice_reaches (by decide) (by decide) (by decide)
  have hmode : hdrMode (slotHeader "cbc-essiv:sha256" 32 4000) = .cbcEssiv := by decide
  have hlen : ∀ s < 8, slotActive (slotHeader "cbc-essiv:sha256" 32 4000) s = luks1KeyEnabled →
      kmLen (slotHeader "cbc-essiv:sha256" 32 4000) s ≠ 0 := by decide +kernel
  intro hall
  obtain ⟨s, hs, mem', hsr, hsub⟩ := luks1UnlockTr_of_reaches hacc (by decide) hreach (CStr.lit "pw")
    zeroMem.luks1 (luksOpenOut [])
  obtain hother | hzero := (essivReady_luks1Candidate _ s mem').mp fun e he => hall e (hsub he)
  · exact hother hmode
  · exact hlen s hs hsr.active hzero

/-! ## Merges -/

/-- There is a stripe, and the stripes are as many bytes as were read and decrypted for them, or fewer, and
no more than the buffer holds. -/
def UnlockEvent.MergeOk : UnlockEvent → Prop
  | merge stripes keyBytes read decrypted =>
    1 ≤ stripes ∧ stripes * keyBytes ≤ min read decrypted ∧ stripes * keyBytes ≤ 131072
  | _ => True

theorem mergeOk_reads {stripes keyBytes read decrypted : Nat} (hs : stripes < 2 ^ 32)
    (hok : (merge stripes keyBytes read decrypted).MergeOk) :
    u32 (stripes + 2 ^ 32 - 1) = stripes - 1 ∧
      ∀ s < stripes, u32 (s * keyBytes) + keyBytes ≤ min read decrypted := by
  obtain ⟨hpos, hread, hbuf⟩ := hok
  constructor
  · rw [u32, show stripes + 2 ^ 32 - 1 = stripes - 1 + 2 ^ 32 by omega, Nat.add_mod_right]
    exact Nat.mod_eq_of_lt (by omega)
  · intro s hlt
    have hstripe : s * keyBytes + keyBytes ≤ stripes * keyBytes :=
      calc s * keyBytes + keyBytes = (s + 1) * keyBytes := (Nat.succ_mul s keyBytes).symm
        _ ≤ stripes * keyBytes := Nat.mul_le_mul_right _ hlt
    have hwrap : u32 (s * keyBytes) = s * keyBytes := Nat.mod_eq_of_lt (by omega)
    omega

/-- The stripes of a slot fit the buffer, and in a CBC mode are whole blocks. -/
def StripesFit (h : List Byte) (slot : Nat) : Prop :=
  1 ≤ slotStripes h slot ∧ hdrKeyBytes h * slotStripes h slot ≤ 131072 ∧
    (hdrMode h = .xts ∨ 16 ∣ hdrKeyBytes h * slotStripes h slot)

theorem mergeOk_luks1Merge (h : List Byte) (slot : Nat) : (luks1Merge h slot).MergeOk ↔ StripesFit h slot := by
  simp only [luks1Merge, MergeOk, StripesFit, kmSectors, decryptedLen, kmLen, Nat.mul_comm (slotStripes h slot)]
  generalize hdrKeyBytes h * slotStripes h slot = total
  by_cases htotal : total ≤ 131072
  · have hlen : u32 total = total := Nat.mod_eq_of_lt (by omega)
    have hround : u32 (total + 511) = total + 511 := Nat.mod_eq_of_lt (by omega)
    rw [hlen, hround]
    by_cases hmode : hdrMode h = .xts
    · simp only [hmode, if_true, true_or, and_true]
      omega
    · simp only [hmode, if_false, false_or]
      omega
  · simp [htotal]

theorem mergeOk_luks1Candidate (h : List Byte) (slot : Nat) (mem : Luks1Mem) :
    (∀ e ∈ (luks1CandidateTr h slot mem).events, e.MergeOk) ↔ StripesFit h slot := by
  rw [← mergeOk_luks1Merge]
  by_cases hmode : hdrMode h = .xts
  · rw [events_luks1CandidateTr_xts hmode]
    simp [MergeOk]
  · rw [forall_events_cbc hmode]
    exact ⟨fun h => h.2.2, fun h => ⟨trivial, fun _ => trivial, h⟩⟩

theorem luks2Stripes_pos (j : List Byte) : 1 ≤ luks2Stripes j := by
  unfold luks2Stripes
  dsimp only
  split_ifs with h
  · decide
  · omega

theorem mergeOk_luks2Steps {dev : ReadFn} {alloc : Nat → Bool} {pass j : List Byte}
    (hreach : Luks2Reaches dev alloc pass j) :
    (∀ e ∈ luks2Steps j, e.MergeOk) ↔
      luks2Stripes j * luks2KeySize j ≤ ((jsonGetInt j (CStr.lit "size")).toNat + 15) / 16 * 16 := by
  have hpos := luks2Stripes_pos j
  have hfits : ((jsonGetInt j (CStr.lit "size")).toNat + 511) / 512 * 512 ≤ 131072 := hreach.fits
  simp only [luks2Steps, List.mem_cons, List.not_mem_nil, or_false, forall_eq_or_imp, forall_eq, MergeOk, true_and]
  omega

/-- Exactly when the merge of a slot reads only decrypted key material; over a whole run of `luks1_unlock` a
condition on its slots, and for `luks2_unlock`, whose rounds are all the same, one on the text. -/
theorem merges_iff (dev : ReadFn) (alloc : Nat → Bool) (pass : List Byte) :
    (∀ h mem slot, (∀ e ∈ (luks1AttemptTr dev pass h mem slot).events, e.MergeOk) ↔
      (Luks1Reaches dev h slot → StripesFit h slot)) ∧
    ((∀ h, Luks1Accepts dev h → ∀ slot < 8, Luks1Reaches dev h slot → StripesFit h slot) →
      ∀ mem out, ∀ e ∈ (luks1UnlockTr dev pass mem out).events, e.MergeOk) ∧
    (∀ mem out, (∀ e ∈ (luks2UnlockTr dev alloc pass mem out).events, e.MergeOk) ↔
      ∀ j, Luks2Accepts dev j → Luks2Reaches dev alloc pass j →
        luks2Stripes j * luks2KeySize j ≤ ((jsonGetInt j (CStr.lit "size")).toNat + 15) / 16 * 16) ∧
    ∀ stripes < 2 ^ 32, ∀ keyBytes read decrypted, (merge stripes keyBytes read decrypted).MergeOk →
      u32 (stripes + 2 ^ 32 - 1) = stripes - 1 ∧
        ∀ s < stripes, u32 (s * keyBytes) + keyBytes ≤ min read decrypted := by
  refine ⟨?_, ?_, ?_, fun stripes hs keyBytes read decrypted hok => mergeOk_reads hs hok⟩
  · intro h mem slot
    by_cases hreach : Luks1Reaches dev h slot
    · obtain ⟨mem', hevents⟩ := luks1AttemptTr_of_reaches hreach pass mem
      rw [hevents, mergeOk_luks1Candidate]
      simp [hreach]
    · obtain ⟨mem', hnone⟩ := luks1AttemptTr_of_not_reaches hreach pass mem
      simp [hnone, hreach]
  · intro hcond mem out e he
    obtain ⟨h, hacc, slot, hslot, mem', hreach, he⟩ := mem_luks1UnlockTr he
    exact (mergeOk_luks1Candidate h slot mem').mpr (hcond h hacc slot hslot hreach) e he
  · intro mem out
    rw [forall_luks2UnlockTr]
    exact forall₃_congr fun j _ hreach => mergeOk_luks2Steps hreach

/-- With `2 ^ 27 + 1` stripes of 32 bytes the product wraps to 32: one sector is read, and the merge runs
over the whole address space. -/
theorem merges_wrapped : ¬ ∀ e ∈ (luks1UnlockTr (slotDevice "xts-plain64" 32 134217729) (CStr.lit "pw")
    zeroMem.luks1 (luksOpenOut [])).events, e.MergeOk := by
  have hacc : Luks1Accepts (slotDevice "xts-plain64" 32 134217729) (slotHeader "xts-plain64" 32 134217729) :=
    slotDevice_accepts (by decide) (by decide) (by decide)
  have hreach : Luks1Reaches (slotDevice "xts-plain64" 32 134217729) (slotHeader "xts-plain64" 32 134217729) 0 :=
    slotDevice_reaches (by decide) (by decide) (by decide)
  have hlarge : ∀ s < 8, slotActive (slotHeader "xts-plain64" 32 134217729) s = luks1KeyEnabled →
      131072 < hdrKeyBytes (slotHeader "xts-plain64" 32 134217729) *
        slotStripes (slotHeader "xts-plain64" 32 134217729) s := by decide +kernel
  intro hall
  obtain ⟨s, hs, mem', hsr, hsub⟩ := luks1UnlockTr_of_reaches hacc (by decide) hreach (CStr.lit "pw")
    zeroMem.luks1 (luksOpenOut [])
  have hfit := (mergeOk_luks1Candidate _ s mem').mp fun e he => hall e (hsub he)
  exact Nat.not_lt.mpr hfit.2.1 (hlarge s hs hsr.active)

end SakuruBoot

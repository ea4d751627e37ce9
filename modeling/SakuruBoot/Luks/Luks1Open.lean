import SakuruBoot.Luks.AfMerge
import SakuruBoot.Luks.Dispatch
import SakuruBoot.Luks.KeyMaterial

/-!
# Which LUKS1 volumes are unlocked

`luks1_unlock` on a volume in the specified format. A slot gives a key when its key material is that key in the code's
own terms, `Luks1Volume.Holds`: split with the diffuser of the code and encrypted as `decrypt_key_material` undoes it. What
this asks of a slot that was written for the passphrase is `Luks1Volume.Readable`, mode by mode. A call returns the master
key exactly when that key is short enough for the buffer and the first slot whose key passes the digest check holds it.
-/

namespace SakuruBoot
open CStr (Byte u32)
open Bytes
open Luks1Format

/-! ## Stripes -/

theorem exists_stripes {n k : Nat} {buf : List Byte} (h : buf.length = k * n) :
    ∃ stripes : List (List Byte), stripes.length = k ∧ (∀ stripe ∈ stripes, stripe.length = n) ∧ stripes.flatten = buf := by
  induction k generalizing buf with
  | zero => exact ⟨[], rfl, by simp, (List.length_eq_zero_iff.mp (by simpa using h)).symm⟩
  | succ k ih =>
    rw [Nat.succ_mul] at h
    obtain ⟨stripes, hcount, hlen, hflat⟩ := @ih (buf.drop n) (by rw [List.length_drop]; omega)
    refine ⟨buf.take n :: stripes, by rw [List.length_cons, hcount], ?_,
      by rw [List.flatten_cons, hflat, List.take_append_drop]⟩
    intro stripe hs
    rcases List.mem_cons.mp hs with rfl | hs
    · rw [List.length_take]
      omega
    · exact hlen stripe hs

theorem exists_noise {n k : Nat} {buf : List Byte} (h : buf.length = (k + 1) * n) : ∃ noise last, noise.length = k ∧
    (∀ stripe ∈ noise, stripe.length = n) ∧ last.length = n ∧ (noise ++ [last]).flatten = buf := by
  obtain ⟨stripes, hcount, hlen, hflat⟩ := exists_stripes h
  rcases List.eq_nil_or_concat stripes with rfl | ⟨noise, last, rfl⟩
  · simp at hcount
  · rw [List.concat_eq_append] at hcount hlen hflat
    rw [List.length_append, List.length_singleton] at hcount
    exact ⟨noise, last, by omega, fun stripe hs => hlen stripe (by simp [hs]), hlen last (by simp), hflat⟩

theorem xorBytes_cancel {c l : List Byte} (h : c.length = l.length) : xorBytes c (xorBytes c l) = l :=
  (xorBytes_mask_iff h h).mpr rfl

namespace Luks1Format

/-- The stripes of a key under the diffuser of the code. -/
def sectorSplit (id : HashId) (key : List Byte) (noise : List (List Byte)) : List (List Byte) :=
  noise ++ [xorBytes (sectorChain id key.length noise) key]

/-- Stripes under a mask of the length of them all. -/
def maskStripes (n : Nat) (mask : List Byte) (stripes : List (List Byte)) : List (List Byte) :=
  stripes.mapIdx fun s stripe => xorBytes stripe (slice mask (s * n) n)

end Luks1Format

theorem xorBytes_flatten {n : Nat} {stripes : List (List Byte)} (hlen : ∀ stripe ∈ stripes, stripe.length = n)
    {mask : List Byte} (hmask : mask.length = stripes.length * n) :
    xorBytes stripes.flatten mask = (maskStripes n mask stripes).flatten := by
  induction stripes generalizing mask with
  | nil => rfl
  | cons stripe stripes ih =>
    have hstripe := hlen stripe (by simp)
    have hrest := @ih (fun x hx => hlen x (by simp [hx])) (mask.drop n)
      (by rw [List.length_drop, hmask, List.length_cons, Nat.succ_mul]; omega)
    have hshift : ∀ s, slice mask ((s + 1) * n) n = slice (mask.drop n) (s * n) n := by
      intro s
      rw [slice, slice, List.drop_drop, Nat.succ_mul, Nat.add_comm]
    have hsplit : xorBytes (stripe ++ stripes.flatten) (mask.take n ++ mask.drop n) =
        xorBytes stripe (mask.take n) ++ xorBytes stripes.flatten (mask.drop n) := by
      refine List.zipWith_append ?_
      rw [List.length_take, hstripe, hmask, List.length_cons, Nat.succ_mul]
      omega
    rw [List.take_append_drop] at hsplit
    rw [List.flatten_cons, hsplit, hrest, maskStripes, maskStripes, List.mapIdx_cons, List.flatten_cons, Nat.zero_mul]
    simp only [hshift]
    rfl

theorem length_maskStripes (n : Nat) (mask : List Byte) (stripes : List (List Byte)) :
    (maskStripes n mask stripes).length = stripes.length := List.length_mapIdx

theorem maskStripes_append (n : Nat) (mask : List Byte) (noise : List (List Byte)) (last : List Byte) :
    maskStripes n mask (noise ++ [last]) =
      maskStripes n mask noise ++ [xorBytes last (slice mask (noise.length * n) n)] := by
  rw [maskStripes, List.mapIdx_append, List.mapIdx_singleton, Nat.zero_add]
  rfl

theorem length_of_mem_maskStripes {n : Nat} {mask : List Byte} {stripes : List (List Byte)}
    (hlen : ∀ stripe ∈ stripes, stripe.length = n) (hmask : stripes.length * n ≤ mask.length) :
    ∀ stripe ∈ maskStripes n mask stripes, stripe.length = n := by
  intro stripe hstripe
  obtain ⟨s, hs, rfl⟩ := List.mem_mapIdx.mp hstripe
  have hin : (s + 1) * n ≤ stripes.length * n := Nat.mul_le_mul_right _ hs
  rw [Nat.succ_mul] at hin
  rw [length_xorBytes, hlen _ (List.getElem_mem hs), length_slice]
  omega

theorem xorBytes_right_comm (a b c : List Byte) : xorBytes (xorBytes a b) c = xorBytes (xorBytes a c) b := by
  induction a generalizing b c with
  | nil => rfl
  | cons x a ih =>
    rcases b with _ | ⟨y, b⟩ <;> rcases c with _ | ⟨z, c⟩ <;> try rfl
    have htail := ih b c
    simp only [xorBytes, List.zipWith_cons_cons] at htail ⊢
    rw [htail, UInt8.xor_assoc, UInt8.xor_comm y, ← UInt8.xor_assoc]

theorem findSome?_eq_some_iff_first {α β : Type} [LinearOrder α] {f : α → Option β} {b : β}
    {l : List α} (hl : l.Pairwise (· < ·)) :
    l.findSome? f = some b ↔ ∃ a ∈ l, f a = some b ∧ ∀ x ∈ l, x < a → f x = none := by
  induction l with
  | nil => simp
  | cons y l ih =>
    obtain ⟨hy, hl⟩ := List.pairwise_cons.mp hl
    rw [List.findSome?_cons]
    constructor
    · intro h
      split at h
      · rename_i c hc
        exact ⟨y, by simp, by rw [hc, h], fun x hx hlt => by
          rcases List.mem_cons.mp hx with rfl | hx
          · exact absurd hlt (lt_irrefl _)
          · exact absurd hlt (hy x hx).asymm⟩
      · rename_i hnone
        obtain ⟨a, ha, hfa, hbefore⟩ := (ih hl).mp h
        exact ⟨a, by simp [ha], hfa, fun x hx hlt => by
          rcases List.mem_cons.mp hx with rfl | hx
          · exact hnone
          · exact hbefore x hx hlt⟩
    · rintro ⟨a, ha, hfa, hbefore⟩
      rcases List.mem_cons.mp ha with rfl | ha
      · rw [hfa]
      · rw [hbefore y (by simp) (hy a ha)]
        exact (ih hl).mpr ⟨a, ha, hfa, fun x hx hlt => hbefore x (by simp [hx]) hlt⟩

/-! ## The slots of a volume -/

namespace Luks1Volume

variable (V : Luks1Volume) (mem : Luks1Mem) (pass : List Byte)

/-- The key PBKDF2 derives for slot `k`. -/
def slotKey (k : Fin 8) : List Byte :=
  Rfc.pbkdf2 V.hash pass (slotSalt V.img k) (slotIterations V.img k) V.masterKey.length

/-- The encrypted key material of slot `k`. -/
def material (k : Fin 8) : List Byte :=
  slice V.img (512 * slotKmOffset V.img k) (stripes * V.masterKey.length)

/-- What lies behind the slot key in memory. -/
def tail : List Byte := fit (mem.slotKey.drop V.masterKey.length) V.masterKey.length

/-- The digest check of the header. -/
def Accepts (key : List Byte) : Prop :=
  Rfc.pbkdf2 V.hash key (hdrMkDigestSalt V.img) (hdrMkDigestIter V.img) 20 = hdrMkDigest V.img

instance (key : List Byte) : Decidable (V.Accepts key) := inferInstanceAs (Decidable (_ = _))

/-- The key material of slot `k` is `key`, split and encrypted in the code's own terms. -/
def Holds (k : Fin 8) (key : List Byte) : Prop :=
  key.length = V.masterKey.length ∧ ∃ noise : List (List Byte), noise.length + 1 = stripes ∧
    (∀ stripe ∈ noise, stripe.length = V.masterKey.length) ∧
    V.material k = bootEncryptArea mem.stackEssiv (V.tail mem) V.mode (V.slotKey pass k)
      (sectorSplit V.hash key noise).flatten

/-- What it asks of a slot in the format. With plain initial vectors the two chains of the noise are equal; with ESSIV the
chain of the code over the masked noise is the masked chain of the format. In XTS mode the same sectors are also a split of
the code, under a key of twice the length. -/
def Readable (k : Fin 8) (s : Slot) : Prop :=
  let n := V.masterKey.length
  let key := V.slotKey s.pass k
  match V.mode with
  | .cbcPlain | .cbcPlain64 => sectorChain V.hash n s.noise = afChain V.hash n s.noise
  | .cbcEssiv =>
    let mask := essivMask mem.stackEssiv key (stripes * n / 512)
    sectorChain V.hash n (maskStripes n mask s.noise) =
      xorBytes (afChain V.hash n s.noise) (slice mask (s.noise.length * n) n)
  | .xts =>
    ∃ noise : List (List Byte), noise.length + 1 = stripes ∧ (∀ stripe ∈ noise, stripe.length = n) ∧
      encryptArea .xts key (afSplit V.hash V.masterKey s.noise).flatten =
        encryptArea .xts (key ++ V.tail mem) (sectorSplit V.hash V.masterKey noise).flatten

variable {V}

theorem slotStored {k : Fin 8} {s : Slot} (hk : V.slots k = some s) :
    SlotStored V.img V.mode V.hash V.masterKey k s := by
  have h := V.slot k
  rw [hk] at h
  exact h

theorem slotActive_iff (k : Fin 8) : slotActive V.header k = luks1KeyEnabled ↔ (V.slots k).isSome := by
  have h := V.slot k
  rw [(V.slot_header k).1]
  split at h
  · rename_i hk
    simp [h, hk, luks1KeyEnabled]
  · rename_i s hk
    simp [h.1, hk]

theorem length_slotKey (k : Fin 8) : (V.slotKey pass k).length = V.masterKey.length := by
  rw [slotKey, ← pbkdf2_eq, length_pbkdf2]

theorem length_split {k : Fin 8} {s : Slot} (hk : V.slots k = some s) :
    (afSplit V.hash V.masterKey s.noise).flatten.length = stripes * V.masterKey.length := by
  obtain ⟨-, -, -, hcount, hnoise, -⟩ := slotStored hk
  rw [length_afSplit V.hash hnoise, hcount]

theorem keyLength_le : V.masterKey.length ≤ 64 := by
  have h := V.keyLength
  split_ifs at h <;> simp only [List.mem_cons, List.not_mem_nil, or_false] at h <;> omega

theorem material_sectors (V : Luks1Volume) : ∃ n, stripes * V.masterKey.length = 512 * n ∧ n ≤ 500 ∧
    (V.masterKey.length ≤ 32 → n ≤ kmReadSectors) ∧ (32 < V.masterKey.length → kmReadSectors < n) := by
  have h := V.keyLength
  simp only [stripes, kmReadSectors]
  split_ifs at h <;> simp only [List.mem_cons, List.not_mem_nil, or_false] at h <;>
    rcases h with h | h <;> rw [h]
  · exact ⟨250, by omega⟩
  · exact ⟨500, by omega⟩
  · exact ⟨125, by omega⟩
  · exact ⟨250, by omega⟩

theorem material_eq {k : Fin 8} {s : Slot} (hk : V.slots k = some s) : V.material k =
    encryptArea V.mode (V.slotKey s.pass k) (afSplit V.hash V.masterKey s.noise).flatten := by
  obtain ⟨-, -, -, -, -, hstored⟩ := slotStored hk
  exact hstored

theorem length_material {k : Fin 8} {s : Slot} (hk : V.slots k = some s) :
    (V.material k).length = stripes * V.masterKey.length := by
  obtain ⟨n, hn, -⟩ := V.material_sectors
  rw [material_eq hk, encryptArea, length_flatMap_const (fun i _ => length_encryptSector _ _ _ _),
    List.length_range, length_split hk, hn]
  omega

/-! ## What the code makes of a slot -/

/-- The bytes that decryption leaves. -/
def decrypted (V : Luks1Volume) (mem : Luks1Mem) (pass : List Byte) (k : Fin 8) : List Byte :=
  decryptedArea mem.stackEssiv V.mode (V.slotKey pass k ++ mem.slotKey.drop V.masterKey.length) V.masterKey.length
    (stripes * V.masterKey.length / 512) (V.material k)

def candidate (V : Luks1Volume) (mem : Luks1Mem) (pass : List Byte) (k : Fin 8) : List Byte :=
  afMerge V.hash (V.decrypted mem pass k) stripes V.masterKey.length

theorem length_candidate (k : Fin 8) : (V.candidate mem pass k).length = V.masterKey.length :=
  length_afMerge _ _ _ V.keyLength_le

theorem sectors_eq {n : Nat} (hn : stripes * V.masterKey.length = 512 * n) : stripes * V.masterKey.length / 512 = n := by
  rw [hn]
  omega

theorem length_decrypted (k : Fin 8) : (V.decrypted mem pass k).length = stripes * V.masterKey.length := by
  obtain ⟨n, hn, -⟩ := V.material_sectors
  rw [decrypted, length_decryptedArea, sectors_eq hn, hn]

theorem decrypted_eq_iff {k : Fin 8} {s : Slot} (hk : V.slots k = some s) {plain : List Byte}
    (hplain : plain.length = stripes * V.masterKey.length) : V.decrypted mem pass k = plain ↔
      V.material k = bootEncryptArea mem.stackEssiv (V.tail mem) V.mode (V.slotKey pass k) plain := by
  obtain ⟨n, hn, -⟩ := V.material_sectors
  have hkey := length_slotKey (V := V) pass k
  have hback := boot_decryptedArea mem.stackEssiv V.mode (V.slotKey pass k) (mem.slotKey.drop V.masterKey.length)
    ((length_material hk).trans hn)
  have hforth := decryptedArea_boot mem.stackEssiv V.mode (V.slotKey pass k) (mem.slotKey.drop V.masterKey.length)
    (hplain.trans hn)
  rw [hkey] at hback hforth
  rw [decrypted, sectors_eq hn, tail]
  constructor
  · rintro rfl
    exact hback.symm
  · intro h
    rw [h, hforth]

theorem merge_stripes {noise : List (List Byte)} {last : List Byte} (hcount : noise.length + 1 = stripes)
    (hnoise : ∀ stripe ∈ noise, stripe.length = V.masterKey.length) (hlast : last.length = V.masterKey.length)
    (rest : List Byte) : afMerge V.hash ((noise ++ [last]).flatten ++ rest) stripes V.masterKey.length =
      xorBytes (sectorChain V.hash V.masterKey.length noise) last := by
  have hlen : noise.length = 3999 := by
    unfold stripes at hcount
    omega
  have hle := V.keyLength_le
  rw [← hcount]
  exact afMerge_eq hnoise hlast hle (by omega) (by rw [hlen]; omega) rest

theorem merge_append {split : List Byte} (hsplit : split.length = stripes * V.masterKey.length) (rest : List Byte) :
    afMerge V.hash (split ++ rest) stripes V.masterKey.length = afMerge V.hash split stripes V.masterKey.length := by
  obtain ⟨noise, last, hcount, hnoise, hlast, rfl⟩ := exists_noise (k := 3999) hsplit
  have hstripes : noise.length + 1 = stripes := by rw [hcount]; rfl
  have hnil := merge_stripes hstripes hnoise hlast []
  rw [List.append_nil] at hnil
  rw [merge_stripes hstripes hnoise hlast, hnil]

theorem length_sectorSplit {key : List Byte} (hkey : key.length = V.masterKey.length) {noise : List (List Byte)}
    (hcount : noise.length + 1 = stripes) (hnoise : ∀ stripe ∈ noise, stripe.length = V.masterKey.length) :
    (sectorSplit V.hash key noise).flatten.length = stripes * V.masterKey.length := by
  have hlast : (xorBytes (sectorChain V.hash key.length noise) key).length = V.masterKey.length := by
    rw [length_xorBytes, hkey, length_sectorChain hnoise, Nat.min_self]
  rw [sectorSplit, length_flatten_noise (length_stripes hnoise hlast), List.length_append, List.length_singleton, hcount]

theorem candidate_eq_iff {k : Fin 8} {s : Slot} (hk : V.slots k = some s) {key : List Byte}
    (hkey : key.length = V.masterKey.length) : V.candidate mem pass k = key ↔ V.Holds mem pass k key := by
  constructor
  · rintro rfl
    obtain ⟨noise, last, hcount, hnoise, hlast, hflat⟩ := exists_noise (k := 3999) (length_decrypted (V := V) mem pass k)
    have hstripes : noise.length + 1 = stripes := by rw [hcount]; rfl
    have hmerge : V.candidate mem pass k = xorBytes (sectorChain V.hash V.masterKey.length noise) last := by
      have h := merge_stripes hstripes hnoise hlast []
      rwa [List.append_nil, hflat] at h
    have hmask : sectorSplit V.hash (V.candidate mem pass k) noise = noise ++ [last] := by
      rw [sectorSplit, hkey, hmerge, xorBytes_cancel ((length_sectorChain hnoise).trans hlast.symm)]
    refine ⟨hkey, noise, hstripes, hnoise, ?_⟩
    rw [← decrypted_eq_iff mem pass hk (length_sectorSplit hkey hstripes hnoise), hmask, hflat]
  · rintro ⟨-, noise, hstripes, hnoise, hmaterial⟩
    rw [← decrypted_eq_iff mem pass hk (length_sectorSplit hkey hstripes hnoise)] at hmaterial
    have hchain : (sectorChain V.hash V.masterKey.length noise).length = V.masterKey.length := length_sectorChain hnoise
    have hlast : (xorBytes (sectorChain V.hash V.masterKey.length noise) key).length = V.masterKey.length := by
      rw [length_xorBytes, hchain, hkey, Nat.min_self]
    have hmerge := merge_stripes hstripes hnoise hlast []
    rw [List.append_nil, xorBytes_cancel (hchain.trans hkey.symm)] at hmerge
    rw [candidate, hmaterial, sectorSplit, hkey, hmerge]

/-- The split of the format under a mask comes out as the master key when the two chains, masked, are equal. -/
theorem holds_iff_mask {k : Fin 8} {s : Slot} (hk : V.slots k = some s) {noise : List (List Byte)} {mask : List Byte}
    (hstripes : noise.length + 1 = stripes) (hnoise : ∀ stripe ∈ noise, stripe.length = V.masterKey.length)
    (hmask : mask.length = V.masterKey.length)
    (hdecrypted : V.decrypted mem s.pass k =
      (noise ++ [xorBytes mask V.masterKey]).flatten) : V.Holds mem s.pass k V.masterKey ↔
        sectorChain V.hash V.masterKey.length noise = mask := by
  have hlast : (xorBytes mask V.masterKey).length = V.masterKey.length := by rw [length_xorBytes, hmask, Nat.min_self]
  have hmerge := merge_stripes hstripes hnoise hlast []
  rw [List.append_nil] at hmerge
  rw [← candidate_eq_iff mem s.pass hk rfl, candidate, hdecrypted, hmerge,
    xorBytes_mask_iff (length_sectorChain hnoise) hmask]

theorem holds_iff_plain {k : Fin 8} {s : Slot} (hk : V.slots k = some s)
    (hmode : V.mode = .cbcPlain ∨ V.mode = .cbcPlain64) : V.Holds mem s.pass k V.masterKey ↔
      sectorChain V.hash V.masterKey.length s.noise = afChain V.hash V.masterKey.length s.noise := by
  obtain ⟨-, -, -, hcount, hnoise, -⟩ := slotStored hk
  have hboot : ∀ plain, encryptArea V.mode (V.slotKey s.pass k) plain =
      bootEncryptArea mem.stackEssiv (V.tail mem) V.mode (V.slotKey s.pass k) plain := by
    intro plain
    rcases hmode with hmode | hmode <;> rw [hmode] <;> rfl
  refine holds_iff_mask mem hk hcount hnoise (length_afChain V.hash hnoise) ?_
  exact (decrypted_eq_iff mem s.pass hk (length_split hk)).mpr ((material_eq hk).trans (hboot _))

theorem holds_iff_essiv {k : Fin 8} {s : Slot} (hk : V.slots k = some s) (hmode : V.mode = .cbcEssiv) {mask : List Byte}
    (hmask : mask = essivMask mem.stackEssiv (V.slotKey s.pass k) (stripes * V.masterKey.length / 512)) :
    V.Holds mem s.pass k V.masterKey ↔ sectorChain V.hash V.masterKey.length (maskStripes V.masterKey.length mask s.noise) =
      xorBytes (afChain V.hash V.masterKey.length s.noise) (slice mask (s.noise.length * V.masterKey.length)
        V.masterKey.length) := by
  obtain ⟨n, hn, -⟩ := V.material_sectors
  obtain ⟨-, -, -, hcount, hnoise, -⟩ := slotStored hk
  have hchain := length_afChain V.hash hnoise
  have hlast : (xorBytes (afChain V.hash V.masterKey.length s.noise) V.masterKey).length = V.masterKey.length := by
    rw [length_xorBytes, hchain, Nat.min_self]
  have hsplit : (afSplit V.hash V.masterKey s.noise).length = stripes := by
    rw [afSplit, List.length_append, List.length_singleton, hcount]
  have hlen : mask.length = stripes * V.masterKey.length := by
    rw [hmask, length_essivMask, sectors_eq hn, hn]
  have hpiece : (slice mask (s.noise.length * V.masterKey.length) V.masterKey.length).length = V.masterKey.length := by
    rw [length_slice, hlen, ← hcount, Nat.succ_mul]
    omega
  have hdecrypted : V.decrypted mem s.pass k = xorBytes (afSplit V.hash V.masterKey s.noise).flatten mask := by
    have h := decryptedArea_essiv mem.stackEssiv (V.slotKey s.pass k) (mem.slotKey.drop V.masterKey.length)
      ((length_split hk).trans hn)
    rw [length_slotKey] at h
    rw [decrypted, material_eq hk, hmode, hmask, sectors_eq hn, h]
  refine holds_iff_mask mem hk (by rw [length_maskStripes, hcount])
    (length_of_mem_maskStripes hnoise ?_) (by rw [length_xorBytes, hchain, hpiece, Nat.min_self]) ?_
  · rw [hlen, ← hcount]
    exact Nat.mul_le_mul_right _ (Nat.le_succ _)
  · have hmasked := @xorBytes_flatten _ _ (length_stripes hnoise hlast) mask (by rw [hlen, ← hsplit, afSplit])
    rw [maskStripes_append, xorBytes_right_comm] at hmasked
    exact hdecrypted.trans hmasked

/-- The key of a slot for the passphrase, mode by mode. -/
theorem holds_iff_readable {k : Fin 8} {s : Slot} (hk : V.slots k = some s) :
    V.Holds mem s.pass k V.masterKey ↔ V.Readable mem k s := by
  unfold Readable
  split
  case h_1 hmode => exact holds_iff_plain mem hk (.inl hmode)
  case h_2 hmode => exact holds_iff_plain mem hk (.inr hmode)
  case h_3 hmode => exact holds_iff_essiv mem hk hmode rfl
  case h_4 hmode =>
    have hbytes : ∀ plain, bootEncryptArea mem.stackEssiv (V.tail mem) .xts (V.slotKey s.pass k) plain =
        encryptArea .xts (V.slotKey s.pass k ++ V.tail mem) plain := fun _ => rfl
    rw [Holds, material_eq hk, hmode]
    simp only [hbytes, true_and]

/-! ## The slot loop -/

/-- What the slots tried so far may have changed. -/
def SameMem (V : Luks1Volume) (mem mem' : Luks1Mem) : Prop :=
  mem'.stackEssiv = mem.stackEssiv ∧
    mem'.slotKey.drop V.masterKey.length = mem.slotKey.drop V.masterKey.length

theorem sameMem_refl (V : Luks1Volume) (mem : Luks1Mem) : V.SameMem mem mem := ⟨rfl, rfl⟩

/-- The outcome of slot `k`. -/
def outcome (V : Luks1Volume) (mem : Luks1Mem) (pass : List Byte) (k : Fin 8) : Option (List Byte) :=
  if (V.slots k).isSome ∧ V.masterKey.length ≤ 32 ∧ V.Accepts (V.candidate mem pass k) then
    some (V.candidate mem pass k)
  else none

theorem read_material {k : Fin 8} {s : Slot} (hk : V.slots k = some s) {n : Nat}
    (hn : stripes * V.masterKey.length = 512 * n) :
    (ReadFn.ofImage V.img).read (slotKmOffset V.img k) n = some (V.material k) := by
  have hlen := length_material hk
  have hpos := V.keyLength_pos
  have hbytes : 16 ≤ stripes * V.masterKey.length := by
    unfold stripes
    omega
  rw [material, length_slice] at hlen
  rw [read_ofImage (by omega), material, hn]

theorem attempt_eq {mem mem' : Luks1Mem} (hmem : V.SameMem mem mem') (k : Fin 8) :
    (luks1Attempt (.ofImage V.img) pass V.header mem' k).2 = V.outcome mem pass k ∧
      V.SameMem mem (luks1Attempt (.ofImage V.img) pass V.header mem' k).1 := by
  obtain ⟨-, hiter, hsalt, hoff, hstripes⟩ := V.slot_header k
  by_cases hactive : slotActive V.header k = luks1KeyEnabled
  · obtain ⟨s, hk⟩ := Option.isSome_iff_exists.mp ((slotActive_iff k).mp hactive)
    obtain ⟨n, hn, hmax, hle, hgt⟩ := V.material_sectors
    have hstr : slotStripes V.header k = stripes := hstripes.trans (slotStored hk).2.2.1
    have hkm : u32 (V.masterKey.length * stripes) = 512 * n := by
      rw [Nat.mul_comm, hn]
      exact Nat.mod_eq_of_lt (by omega)
    have hsecs : u32 (512 * n + 511) / 512 = n := by
      rw [u32, Nat.mod_eq_of_lt (by omega)]
      omega
    -- the slot key overwrites what the slot before left, and nothing behind it
    have hkey : patch mem'.slotKey 0 (V.slotKey pass k) =
        V.slotKey pass k ++ mem.slotKey.drop V.masterKey.length := by
      rw [patch_zero, length_slotKey, hmem.2]
    have hkeep : (patch mem'.slotKey 0 (V.slotKey pass k)).drop V.masterKey.length =
        mem.slotKey.drop V.masterKey.length := by
      rw [hkey, ← length_slotKey (V := V) pass k, List.drop_left]
    have hdk : pbkdf2 V.hash pass (slotSalt V.img k) (slotIterations V.img k) V.masterKey.length =
        V.slotKey pass k := pbkdf2_eq _ _ _ _ _
    simp only [luks1Attempt, hactive, ne_eq, not_true_eq_false, if_false, V.keyBytes_header, hstr,
      V.hash_header, hsalt, hiter, hdk, hkm, hsecs, hoff, read_material hk hn]
    by_cases hsize : V.masterKey.length ≤ 32
    · have hlen := length_material hk
      have hcand : (luks1Candidate V.header k
          { mem' with
            slotKey := patch mem'.slotKey 0 (V.slotKey pass k)
            kmEnc := patch mem'.kmEnc 0 (V.material k) }).2 = V.candidate mem pass k := by
        have hdecrypted := decryptKeyMaterial_eq mem.stackEssiv V.mode
          (V.slotKey pass k ++ mem.slotKey.drop V.masterKey.length) V.masterKey.length (hlen.trans hn)
          (mem'.kmEnc.drop (V.material k).length) mem'.kmDec
        simp only [luks1Candidate, V.keyBytes_header, hstr, hkm, V.mode_header, V.hash_header, hmem.1, hkey]
        rw [patch_zero, hdecrypted, merge_append (by rw [length_decryptedArea, hn]), candidate, decrypted, sectors_eq hn]
      have haccept : (digestMatches V.header (V.candidate mem pass k) = true) =
          V.Accepts (V.candidate mem pass k) := propext (V.digestMatches_header _)
      rw [if_neg (by have := hle hsize; omega)]
      simp only [hcand, haccept, outcome, hk, Option.isSome_some, hsize, true_and]
      exact ⟨hmem.1, hkeep⟩
    · rw [if_pos (hgt (by omega)), outcome, if_neg (fun h => hsize h.2.1)]
      exact ⟨rfl, hmem.1, hkeep⟩
  · have hnone : ¬ (V.slots k).isSome := fun h => hactive ((slotActive_iff k).mpr h)
    rw [luks1Attempt, if_pos hactive, outcome, if_neg (fun h => hnone h.1)]
    exact ⟨rfl, hmem⟩

/-- The loop finds the first slot with an outcome. -/
theorem slots_eq {mem mem' : Luks1Mem} (hmem : V.SameMem mem mem') (l : List (Fin 8)) :
    (luks1Slots (.ofImage V.img) pass V.header (l.map Fin.val) mem').2 =
      l.findSome? (V.outcome mem pass) := by
  induction l generalizing mem' with
  | nil => rfl
  | cons k l ih =>
    obtain ⟨hout, hkeep⟩ := attempt_eq pass hmem k
    rw [List.map_cons, luks1Slots, List.findSome?_cons, ← hout]
    rcases hattempt : luks1Attempt (.ofImage V.img) pass V.header mem' k with ⟨mem'', _ | key⟩
    · rw [hattempt] at hkeep
      exact ih hkeep
    · rfl

/-! ## Which volumes are unlocked -/

variable (V) (out : LuksOut)

/-- The call succeeds with the master key, its length, the payload offset and the cipher mode. -/
def Unlocks : Prop :=
  (luks1Unlock (.ofImage V.img) pass mem out).1 = 0 ∧
    (luks1Unlock (.ofImage V.img) pass mem out).2.1 =
      { masterKey := patch out.masterKey 0 V.masterKey
        keyBytes := V.masterKey.length
        payloadOffset := hdrPayloadOffset V.img
        cipherMode := V.mode }

theorem luks1Unlock_volume :
    ((luks1Unlock (.ofImage V.img) pass mem out).1, (luks1Unlock (.ofImage V.img) pass mem out).2.1) =
      match (List.finRange 8).findSome? (V.outcome mem pass) with
      | some key => (0, luks1Success V.header key out)
      | none => (-1, out) := by
  have hrange : List.range 8 = (List.finRange 8).map Fin.val := by decide
  have hslots := slots_eq (V := V) pass (sameMem_refl V mem) (List.finRange 8)
  have hkb := V.keyLength_le
  rw [← hslots, ← hrange]
  simp only [luks1Unlock, V.read_header, V.probe_header, V.version_header, V.keyBytes_header]
  rw [if_neg (by simp), if_neg (by simp), if_neg (by omega)]
  rcases luks1Slots (.ofImage V.img) pass V.header (List.range 8) mem with ⟨mem', _ | key⟩ <;> rfl

theorem unlocks_iff_findSome? : V.Unlocks mem pass out ↔
    (List.finRange 8).findSome? (V.outcome mem pass) = some V.masterKey := by
  have hcall := V.luks1Unlock_volume mem pass out
  have hlength : ∀ key, (List.finRange 8).findSome? (V.outcome mem pass) = some key →
      key.length = V.masterKey.length := by
    intro key hkey
    obtain ⟨k, -, hk⟩ := List.exists_of_findSome?_eq_some hkey
    rw [outcome, Option.ite_none_right_eq_some, Option.some.injEq] at hk
    rw [← hk.2, length_candidate]
  unfold Unlocks
  rcases hfound : (List.finRange 8).findSome? (V.outcome mem pass) with _ | key <;>
    rw [hfound] at hcall <;> obtain ⟨hret, hout⟩ := Prod.mk.inj hcall <;> rw [hret, hout]
  · simp
  · have hlen := hlength key hfound
    simp only [luks1Success, V.keyBytes_header, V.payload_header, V.mode_header, LuksOut.mk.injEq,
      true_and, and_true, Option.some.injEq]
    constructor
    · intro h
      have htake := congrArg (List.take key.length) h
      rwa [take_patch_zero _ _ _ (le_refl _), take_patch_zero _ _ _ hlen.le, List.take_length, hlen,
        List.take_length] at htake
    · rintro rfl
      rfl

/-- On every volume in the specified format. The condition on a slot that was written for the passphrase is in the second
part. -/
theorem luks1Unlock_volume_iff :
    (V.Unlocks mem pass out ↔ V.masterKey.length ≤ 32 ∧ ∃ k, (V.slots k).isSome ∧ V.Holds mem pass k V.masterKey ∧
      ∀ j < k, (V.slots j).isSome → ∀ key, V.Holds mem pass j key → ¬ V.Accepts key) ∧
    ∀ k s, V.slots k = some s → s.pass = pass → (V.Holds mem pass k V.masterKey ↔ V.Readable mem k s) := by
  constructor
  · rw [unlocks_iff_findSome?, findSome?_eq_some_iff_first (List.pairwise_lt_finRange 8)]
    have haccept : V.Accepts V.masterKey := V.digest.symm
    have hholds : ∀ k, (V.slots k).isSome → ∀ key, V.Holds mem pass k key ↔ V.candidate mem pass k = key := by
      intro k hactive key
      obtain ⟨s, hk⟩ := Option.isSome_iff_exists.mp hactive
      constructor
      · exact fun h => (candidate_eq_iff mem pass hk h.1).mpr h
      · rintro rfl
        exact (candidate_eq_iff mem pass hk (length_candidate mem pass k)).mp rfl
    simp only [List.mem_finRange, true_and, forall_const, outcome, Option.ite_none_right_eq_some,
      Option.some.injEq, ite_eq_right_iff, reduceCtorEq, imp_false, not_and]
    constructor
    · rintro ⟨k, ⟨⟨hk, hle, -⟩, hkey⟩, hbefore⟩
      refine ⟨hle, k, hk, (hholds k hk _).mpr hkey, fun j hj hactive key hheld => ?_⟩
      rw [← (hholds j hactive key).mp hheld]
      exact hbefore j hj hactive hle
    · rintro ⟨hle, k, hk, hheld, hbefore⟩
      have hkey := (hholds k hk _).mp hheld
      exact ⟨k, ⟨⟨hk, hle, by rwa [hkey]⟩, hkey⟩, fun j hj hactive _ =>
        hbefore j hj hactive _ ((hholds j hactive _).mpr rfl)⟩
  · rintro k s hk rfl
    exact holds_iff_readable mem hk

end Luks1Volume

/-! ## A volume with a 64-byte key -/

namespace Luks1Format

/-- The header of a volume with `aes`, `xts-plain64`, `sha1`, a 64-byte key, zero salts, one iteration
and slot 0 in use. -/
def wideHeader : List Byte :=
  fit (List.flatten [luksMagic, be 2 1, fit (CStr.lit "aes") 32, fit (CStr.lit "xts-plain64") 32,
    fit (CStr.lit "sha1") 32, be 4 4096, be 4 64,
    [39, 76, 46, 116, 84, 227, 93, 44, 46, 236, 174, 25, 29, 206, 108, 33, 250, 87, 130, 85],
    List.replicate 32 0, be 4 1, List.replicate 40 0,
    be 4 luks1KeyEnabled, be 4 1, List.replicate 32 0, be 4 8, be 4 4000,
    (List.replicate 7 (List.flatten [be 4 0xDEAD, List.replicate 44 0])).flatten]) 4096

def wideKey : List Byte := List.replicate 64 7

def wideSlot : Slot :=
  { pass := CStr.lit "pw", noise := List.replicate 3999 (List.replicate 64 0) }

def wideMaterial : List Byte :=
  encryptArea .xts (Rfc.pbkdf2 .sha1 wideSlot.pass (List.replicate 32 0) 1 wideKey.length)
    (afSplit .sha1 wideKey wideSlot.noise).flatten

def wideImage : List Byte := wideHeader ++ wideMaterial

theorem slice_wideImage {off n : Nat} (h : off + n ≤ 4096) :
    slice wideImage off n = slice wideHeader off n :=
  slice_append_left (by rw [wideHeader, length_fit]; exact h) _

theorem length_wideNoise : ∀ stripe ∈ wideSlot.noise, stripe.length = wideKey.length := by
  intro stripe hstripe
  rw [wideSlot, List.mem_replicate] at hstripe
  rw [hstripe.2]
  rfl

theorem length_wideMaterial : wideMaterial.length = stripes * wideKey.length := by
  have hsplit : (afSplit .sha1 wideKey wideSlot.noise).flatten.length = 512 * 500 := by
    rw [Luks1Volume.length_afSplit .sha1 length_wideNoise, wideSlot, List.length_replicate]
    rfl
  rw [wideMaterial, encryptArea,
    length_flatMap_const fun i _ => Luks1Volume.length_encryptSector _ _ _ _, List.length_range, hsplit]
  rfl

theorem slot_wideImage (k : Fin 8) : slotActive wideImage k = slotActive wideHeader k ∧
    slotIterations wideImage k = slotIterations wideHeader k ∧
    slotSalt wideImage k = slotSalt wideHeader k ∧
    slotKmOffset wideImage k = slotKmOffset wideHeader k ∧
    slotStripes wideImage k = slotStripes wideHeader k := by
  have hk := k.isLt
  simp only [slotActive, slotIterations, slotSalt, slotKmOffset, slotStripes, slotBase]
  refine ⟨?_, ?_, ?_, ?_, ?_⟩ <;> rw [slice_wideImage (by omega)]

theorem slotStored_wide : SlotStored wideImage .xts .sha1 wideKey 0 wideSlot := by
  obtain ⟨hactive, hiter, hsalt, hoff, hstripes⟩ := slot_wideImage 0
  have hoff8 : slotKmOffset wideImage 0 = 8 := hoff.trans (by decide)
  have hiter1 : slotIterations wideImage 0 = 1 := hiter.trans (by decide)
  have hsalt0 : slotSalt wideImage 0 = List.replicate 32 0 := hsalt.trans (by decide)
  refine ⟨hactive.trans (by decide), hiter1.ge, hstripes.trans (by decide), ?_,
    length_wideNoise, ?_⟩
  · rw [wideSlot, List.length_replicate]
    rfl
  · rw [hoff8, hiter1, hsalt0, ← length_wideMaterial, wideImage, slice,
      show 512 * 8 = wideHeader.length by rw [wideHeader, length_fit], List.drop_left, List.take_length]
    rfl

theorem slots_wide (k : Fin 8) : match if k = 0 then some wideSlot else none with
    | none => slotActive wideImage k = 0x0000DEAD
    | some s => SlotStored wideImage .xts .sha1 wideKey k s := by
  by_cases hk : k = 0
  · subst hk
    exact slotStored_wide
  · simp only [if_neg hk]
    rw [(slot_wideImage k).1]
    revert k
    decide +kernel

theorem length_wideImage : 2048 ≤ wideImage.length := by
  rw [wideImage, List.length_append, wideHeader, length_fit]
  omega

theorem luks1Probe_wideImage : luks1Probe wideImage = true := by
  rw [luks1Probe, slice_wideImage (by omega)]
  decide

theorem hdrVersion_wideImage : hdrVersion wideImage = 1 := by
  rw [hdrVersion, slice_wideImage (by omega)]
  decide

theorem cipherName_wideImage : CStr.str (slice wideImage 8 32) = CStr.lit "aes" := by
  rw [slice_wideImage (by omega)]
  decide

theorem cipherMode_wideImage : CStr.str (slice wideImage 40 32) = modeName .xts := by
  rw [slice_wideImage (by omega)]
  decide

theorem hashSpec_wideImage : CStr.str (slice wideImage 72 32) = hashName .sha1 := by
  rw [slice_wideImage (by omega)]
  decide

theorem hdrKeyBytes_wideImage : hdrKeyBytes wideImage = wideKey.length := by
  rw [hdrKeyBytes, slice_wideImage (by omega)]
  decide

theorem hdrMkDigestIter_wideImage : hdrMkDigestIter wideImage = 1 := by
  rw [hdrMkDigestIter, slice_wideImage (by omega)]
  decide

theorem digest_wideImage : hdrMkDigest wideImage =
    Rfc.pbkdf2 .sha1 wideKey (hdrMkDigestSalt wideImage) (hdrMkDigestIter wideImage) 20 := by
  have hsalt : slice wideHeader 132 32 = List.replicate 32 0 := by decide
  rw [hdrMkDigestIter_wideImage, ← pbkdf2_eq, hdrMkDigest, hdrMkDigestSalt, slice_wideImage (by omega),
    slice_wideImage (by omega), hsalt]
  exact ((pbkdf2_of_hmacN (by decide) (by decide) (by decide +kernel)).trans (by decide +kernel :
    [39, 76, 46, 116, 84, 227, 93, 44, 46, 236, 174, 25, 29, 206, 108, 33, 250, 87, 130, 85] =
      slice wideHeader 112 20)).symm

theorem keyLength_wide : wideKey.length ∈ if CipherMode.xts = .xts then [32, 64] else [16, 32] := by decide

end Luks1Format

/-- That volume, with `pw` as the passphrase of its slot. -/
def wideVolume : Luks1Volume where
  img := wideImage
  mode := .xts
  hash := .sha1
  masterKey := wideKey
  slots := fun k => if k = 0 then some wideSlot else none
  keyLength := keyLength_wide
  size := length_wideImage
  magic := luks1Probe_wideImage
  version := hdrVersion_wideImage
  cipherName := cipherName_wideImage
  cipherMode := cipherMode_wideImage
  hashSpec := hashSpec_wideImage
  keyBytes := hdrKeyBytes_wideImage
  digestIter := hdrMkDigestIter_wideImage.ge
  digest := digest_wideImage
  slot := slots_wide

/-- The passphrase of its only slot does not open it: 500 sectors of key material are too many. -/
theorem wideVolume_not_unlocked :
    (wideVolume.slots 0).map Slot.pass = some (CStr.lit "pw") ∧
      ¬ wideVolume.Unlocks zeroMem.luks1 (CStr.lit "pw") (luksOpenOut []) := by
  refine ⟨rfl, fun h => ?_⟩
  rw [Luks1Volume.unlocks_iff_findSome?] at h
  obtain ⟨k, -, hk⟩ := List.exists_of_findSome?_eq_some h
  rw [Luks1Volume.outcome, Option.ite_none_right_eq_some] at hk
  exact absurd hk.1.2.1 (by decide)

end SakuruBoot

import SakuruBoot.Crypto.Pbkdf2
import SakuruBoot.Lib.Words

/-!
# Evaluating SHA-1

SHA-1 on packed words, and HMAC and one iteration of PBKDF2 over it, so that the keys and digests of a small volume can be
evaluated (`pbkdf2_of_hmacN`).
-/

namespace SakuruBoot
open CStr (Byte)
open Bytes Words

/-! ## Words of 32 bits -/

/-- Words of 32 bits, packed like words of 64 bits. -/
def pack32 (ws : List UInt32) : Nat := pack (ws.map (·.toUInt64))

theorem word_pack32 (ws : List UInt32) (i : Nat) : word (pack32 ws) i = (ws.getD i 0).toNat := by
  rw [pack32, word_pack]
  rcases Nat.lt_or_ge i ws.length with hlt | hge
  · rw [List.getD_eq_getElem _ _ (by rwa [List.length_map]), List.getElem_map, List.getD_eq_getElem _ _ hlt]
    rfl
  · rw [List.getD_eq_default _ _ (by rwa [List.length_map]), List.getD_eq_default _ _ hge]
    rfl

theorem pack32_concat (ws : List UInt32) (w : UInt32) :
    pack32 (ws ++ [w]) = pack32 ws + (w.toNat <<< (64 * ws.length)) := by
  rw [pack32, List.map_append, pack_append, List.length_map, Nat.shiftLeft_eq, Nat.mul_comm w.toNat]
  simp [pack, pack32]

def rotlN (x n m : Nat) : Nat := Nat.lor (Nat.mod (Nat.shiftLeft x n) 4294967296) (Nat.shiftRight x m)

theorem rotlN_amounts (x : UInt32) :
    rotlN x.toNat 1 31 = ((x <<< 1) ||| (x >>> 31)).toNat ∧ rotlN x.toNat 5 27 = ((x <<< 5) ||| (x >>> 27)).toNat ∧
      rotlN x.toNat 30 2 = ((x <<< 30) ||| (x >>> 2)).toNat := by
  refine ⟨?_, ?_, ?_⟩ <;> rw [UInt32.toNat_or, UInt32.toNat_shiftLeft, UInt32.toNat_shiftRight] <;> rfl

/-! ## The block function -/

/-- One more word of the message schedule. -/
def sha1WordN (n i : Nat) : Nat :=
  force (Nat.xor (Nat.xor (Nat.xor (word n (Nat.sub i 3)) (word n (Nat.sub i 8))) (word n (Nat.sub i 14)))
    (word n (Nat.sub i 16))) fun x => Nat.add n (Nat.shiftLeft (rotlN x 1 31) (Nat.mul 64 i))

theorem sha1WordN_pack32 (ws : List UInt32) {i : Nat} (h : ws.length = i) :
    sha1WordN (pack32 ws) i = pack32 (ws ++
      [let x := ws.getD (i - 3) 0 ^^^ ws.getD (i - 8) 0 ^^^ ws.getD (i - 14) 0 ^^^ ws.getD (i - 16) 0
       (x <<< 1) ||| (x >>> 31)]) := by
  have hxor : ∀ x y : UInt32, Nat.xor x.toNat y.toNat = (x ^^^ y).toNat := fun x y => (UInt32.toNat_xor x y).symm
  have hsub : ∀ k, Nat.sub i k = i - k := fun _ => rfl
  rw [pack32_concat, sha1WordN, force_eq, word_pack32, word_pack32, word_pack32, word_pack32, hxor, hxor, hxor,
    (rotlN_amounts _).1, h]
  rfl

theorem schedule_pack32 (k : Nat) {i : Nat} {ws : List UInt32} (h : ws.length = i) :
    (List.range' i k).foldl sha1WordN (pack32 ws) = pack32 ((List.range' i k).foldl
      (fun w i =>
        let x := w.getD (i - 3) 0 ^^^ w.getD (i - 8) 0 ^^^ w.getD (i - 14) 0 ^^^ w.getD (i - 16) 0
        w ++ [(x <<< 1) ||| (x >>> 31)]) ws) := by
  induction k generalizing i ws with
  | zero => rfl
  | succ k ih =>
    rw [List.range'_succ, List.foldl_cons, List.foldl_cons, sha1WordN_pack32 ws h]
    exact ih (by rw [List.length_append, h, List.length_singleton])

/-- One round on packed words. -/
def sha1RoundN (w s i : Nat) : Nat :=
  let a := word s 0
  let b := word s 1
  let c := word s 2
  let d := word s 3
  let q : Nat × Nat :=
    if i < 20 then (Nat.lor (Nat.land b c) (Nat.land (Nat.xor b 4294967295) d), 0x5A827999)
    else if i < 40 then (Nat.xor (Nat.xor b c) d, 0x6ED9EBA1)
    else if i < 60 then (Nat.lor (Nat.lor (Nat.land b c) (Nat.land b d)) (Nat.land c d), 0x8F1BBCDC)
    else (Nat.xor (Nat.xor b c) d, 0xCA62C1D6)
  let t := Nat.mod (Nat.add (Nat.add (Nat.add (Nat.add (rotlN a 5 27) q.1) (word s 4)) q.2) (word w i)) 4294967296
  Nat.add t (Nat.mul 18446744073709551616 (Nat.add a (Nat.mul 18446744073709551616 (Nat.add (rotlN b 30 2)
    (Nat.mul 18446744073709551616 (Nat.add c (Nat.mul 18446744073709551616 d)))))))

def sha1Words (s : UInt32 × UInt32 × UInt32 × UInt32 × UInt32) : List UInt32 := [s.1, s.2.1, s.2.2.1, s.2.2.2.1, s.2.2.2.2]

theorem sha1RoundN_pack32 (w : List UInt32) (s : UInt32 × UInt32 × UInt32 × UInt32 × UInt32) (i : Nat) :
    sha1RoundN (pack32 w) (pack32 (sha1Words s)) i = pack32 (sha1Words (sha1Round w s i)) := by
  obtain ⟨a, b, c, d, e⟩ := s
  have hand : ∀ x y : UInt32, Nat.land x.toNat y.toNat = (x &&& y).toNat := fun x y => (UInt32.toNat_and x y).symm
  have hor : ∀ x y : UInt32, Nat.lor x.toNat y.toNat = (x ||| y).toNat := fun x y => (UInt32.toNat_or x y).symm
  have hxor : ∀ x y : UInt32, Nat.xor x.toNat y.toNat = (x ^^^ y).toNat := fun x y => (UInt32.toNat_xor x y).symm
  have hnot : ∀ x : UInt32, Nat.xor x.toNat 4294967295 = (~~~x).toNat := by
    intro x
    have h : ~~~x = x ^^^ 4294967295 := by
      rw [← UInt32.toBitVec_inj]
      simp [BitVec.not_def]
      exact BitVec.xor_comm _ _
    rw [h, UInt32.toNat_xor]
    rfl
  have hsum : ∀ v w x y z : UInt32, Nat.mod (Nat.add (Nat.add (Nat.add (Nat.add v.toNat w.toNat) x.toNat) y.toNat)
      z.toNat) 4294967296 = (v + w + x + y + z).toNat := by
    intro v w x y z
    show (v.toNat + w.toNat + x.toNat + y.toNat + z.toNat) % 2 ^ 32 = _
    simp only [UInt32.toNat_add, Nat.mod_add_mod]
  have hwide : ∀ t b c d e : UInt32, Nat.add t.toNat (Nat.mul 18446744073709551616 (Nat.add b.toNat
      (Nat.mul 18446744073709551616 (Nat.add c.toNat (Nat.mul 18446744073709551616 (Nat.add d.toNat
        (Nat.mul 18446744073709551616 e.toNat))))))) = pack32 (sha1Words (t, b, c, d, e)) := by
    intro t b c d e
    simp [pack32, sha1Words, pack]
  unfold sha1RoundN sha1Round
  simp only [word_pack32]
  simp only [sha1Words, List.getD_cons_zero, List.getD_cons_succ, hand, hor, hxor, hnot, (rotlN_amounts _).2.1,
    (rotlN_amounts _).2.2]
  apply Eq.trans _ (hwide _ _ _ _ _)
  congr 1
  rw [← hsum]
  split_ifs <;> rfl

theorem words_of_length_eq_five {h : List UInt32} (hh : h.length = 5) : ∃ v w x y z, h = [v, w, x, y, z] := by
  obtain ⟨v, t, rfl⟩ := List.exists_cons_of_length_eq_add_one hh
  obtain ⟨w, t, rfl⟩ := List.exists_cons_of_length_eq_add_one (Nat.succ.inj hh)
  obtain ⟨x, y, z, rfl⟩ := List.length_eq_three.mp (Nat.succ.inj (Nat.succ.inj hh))
  exact ⟨v, w, x, y, z, rfl⟩

/-- The words of two states added. -/
def sha1AddN (h s : Nat) : Nat :=
  (List.range 5).foldr (fun i n => Nat.add (Nat.mod (Nat.add (word h i) (word s i)) 4294967296)
    (Nat.mul 18446744073709551616 n)) 0

theorem sha1AddN_pack32 {h : List UInt32} (hh : h.length = 5) (s : UInt32 × UInt32 × UInt32 × UInt32 × UInt32) :
    sha1AddN (pack32 h) (pack32 (sha1Words s)) = pack32 (List.zipWith (· + ·) h (sha1Words s)) := by
  obtain ⟨a, b, c, d, e⟩ := s
  obtain ⟨v, w, x, y, z, rfl⟩ := words_of_length_eq_five hh
  have hadd : ∀ x y : UInt32, Nat.mod (Nat.add x.toNat y.toNat) 4294967296 = (x + y).toNat := fun x y =>
    (UInt32.toNat_add x y).symm
  simp only [sha1AddN, word_pack32, hadd]
  simp [pack32, sha1Words, pack, List.range_succ]

/-- The block function on a packed state. -/
def sha1BlockN {β : Type} (h : Nat) (blk : List Byte) (k : Nat → β) : β :=
  force (pack32 ((List.range 16).map (be32 blk))) fun w => foldStrict sha1WordN (List.range' 16 64) w fun w =>
    foldStrict (sha1RoundN w) (List.range 80) h fun s => force (sha1AddN h s) k

theorem sha1BlockN_eq {β : Type} {h : List UInt32} (hh : h.length = 5) (blk : List Byte) (k : Nat → β) :
    sha1BlockN (pack32 h) blk k = k (pack32 (sha1Block h blk)) := by
  obtain ⟨v, w, x, y, z, rfl⟩ := words_of_length_eq_five hh
  have hsched : (List.range' 16 64).foldl sha1WordN (pack32 ((List.range 16).map (be32 blk))) = pack32 (sha1Schedule blk) :=
    schedule_pack32 64 (by rw [List.length_map, List.length_range])
  have hrounds : (List.range 80).foldl (sha1RoundN (pack32 (sha1Schedule blk))) (pack32 (sha1Words (v, w, x, y, z))) =
      pack32 (sha1Words ((List.range 80).foldl (sha1Round (sha1Schedule blk)) (v, w, x, y, z))) :=
    List.foldl_hom (fun s => pack32 (sha1Words s)) (fun s i => sha1RoundN_pack32 _ s i)
  unfold sha1BlockN
  rw [force_eq, foldStrict_eq, hsched, foldStrict_eq, force_eq]
  rw [show [v, w, x, y, z] = sha1Words (v, w, x, y, z) from rfl, hrounds, sha1AddN_pack32 rfl]
  unfold sha1Block
  simp only [sha1Words, List.getD_cons_zero, List.getD_cons_succ]

/-! ## Digests and keys -/

/-- `n` blocks from the front of the data. -/
def absorbN {β : Type} : Nat → Nat → List Byte → (Nat → β) → β
  | 0, h, _, k => k h
  | n + 1, h, d, k => sha1BlockN h (d.take 64) fun h => absorbN n h (d.drop 64) k

theorem absorbN_eq {β : Type} (n : Nat) {h : List UInt32} (hh : h.length = 5) (d : List Byte) (k : Nat → β) :
    absorbN n (pack32 h) d k = k (pack32 (MerkleDamgard.absorbBlocks sha1Scheme n h d).1) := by
  induction n generalizing h d with
  | zero => rfl
  | succ n ih =>
    have hlen : (sha1Block h (d.take 64)).length = 5 := by simp [sha1Block, hh]
    have hstep : sha1Scheme.compress h (d.take sha1Scheme.blockSize) = sha1Block h (d.take 64) := by simp only [sha1Scheme]
    rw [absorbN, sha1BlockN_eq hh, ih hlen, MerkleDamgard.absorbBlocks, hstep]
    rfl

def sha1N {β : Type} (m : List Byte) (k : List Byte → β) : β :=
  absorbN ((MerkleDamgard.pad sha1Scheme m).length / 64) (pack32 sha1Iv) (MerkleDamgard.pad sha1Scheme m) fun h =>
    k ((List.range 5).flatMap fun i => be 4 (word h i))

theorem sha1N_eq {β : Type} (m : List Byte) (k : List Byte → β) : sha1N m k = k (hashDigest .sha1 m) := by
  have hlen : (MerkleDamgard.absorb sha1Scheme sha1Iv (MerkleDamgard.pad sha1Scheme m)).1.length = 5 :=
    MerkleDamgard.absorb_invariant (H := sha1Scheme) (P := fun h => h.length = 5)
      (fun h blk hl => by simp [sha1Scheme, sha1Block, hl]) (h := sha1Iv) rfl _
  have hput : ∀ h : List UInt32, h.length = 5 → ((List.range 5).flatMap fun i => be 4 (word (pack32 h) i)) = putBe32 h := by
    intro h hh
    obtain ⟨v, w, x, y, z, rfl⟩ := words_of_length_eq_five hh
    simp [word_pack32, putBe32, List.range_succ]
  rw [sha1N, absorbN_eq _ rfl]
  exact congrArg k (hput _ hlen)

def hmacN {β : Type} (key msg : List Byte) (k : List Byte → β) : β :=
  sha1N ((Rfc.hmacKey .sha1 key).map (· ^^^ 0x36) ++ msg) fun inner =>
    sha1N ((Rfc.hmacKey .sha1 key).map (· ^^^ 0x5c) ++ inner) k

theorem pbkdf2_of_hmacN {password salt key : List Byte} {n : Nat} (hpos : 0 < n) (hle : n ≤ 20)
    (h : hmacN password (salt ++ be 4 1) (fun u => u.take n == key) = true) : pbkdf2 .sha1 password salt 1 n = key := by
  have hblocks : (n + 20 - 1) / 20 = 1 := by omega
  rw [hmacN, sha1N_eq, sha1N_eq, beq_iff_eq] at h
  rw [pbkdf2_eq, Rfc.pbkdf2, hashDigestSize, hblocks]
  simpa [Rfc.pbkdf2T, Rfc.pbkdf2U, Rfc.hmac] using h

end SakuruBoot

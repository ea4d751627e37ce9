import SakuruBoot.Crypto.Argon2Rfc
import SakuruBoot.Lib.Words

/-!
# Tags of `argon2` and of RFC 9106

The two algorithms on packed words, for one lane, one pass and data-dependent references, so that a tag can be
evaluated. With eight blocks the tags differ (`argon2_not_rfc`).
-/

namespace SakuruBoot
open CStr (Byte lit)
open Bytes Words

/-! ## Words -/

def rotN (x n : Nat) : Nat :=
  Nat.lor (Nat.shiftRight x n) (Nat.mod (Nat.shiftLeft x (Nat.sub 64 n)) 18446744073709551616)

theorem rotN_eq (x n : Nat) : rotN x n = (x >>> n) ||| (x <<< (64 - n)) % 2 ^ 64 := rfl

theorem rotN_toNat (x n : UInt64) (hpos : 0 < n.toNat) (hlt : n.toNat < 64) :
    rotN x.toNat n.toNat = (Rfc7693.rotr x n).toNat := by
  have hsub : (64 - n).toNat = 64 - n.toNat := UInt64.toNat_sub_of_le _ _ (UInt64.le_iff_toNat_le.mpr hlt.le)
  rw [Rfc7693.rotr, rotN_eq, UInt64.toNat_or, UInt64.toNat_shiftRight, UInt64.toNat_shiftLeft, hsub, Nat.mod_eq_of_lt hlt,
    Nat.mod_eq_of_lt (by omega : 64 - n.toNat < 64)]

theorem rotN_amounts (x : UInt64) :
    rotN x.toNat 32 = (Rfc7693.rotr x 32).toNat ∧ rotN x.toNat 24 = (Rfc7693.rotr x 24).toNat ∧
      rotN x.toNat 16 = (Rfc7693.rotr x 16).toNat ∧ rotN x.toNat 63 = (Rfc7693.rotr x 63).toNat :=
  ⟨rotN_toNat x 32 (by decide) (by decide), rotN_toNat x 24 (by decide) (by decide),
    rotN_toNat x 16 (by decide) (by decide), rotN_toNat x 63 (by decide) (by decide)⟩

/-- Four words of a list at once. -/
def setFour (v : Nat) (q : Nat × Nat × Nat × Nat) (a b c d : Nat) : Nat :=
  setWord (setWord (setWord (setWord v q.1 a) q.2.1 b) q.2.2.1 c) q.2.2.2 d

/-- The positions are in a list of the length given. -/
def Inside (n : Nat) (q : Nat × Nat × Nat × Nat) : Prop := q.1 < n ∧ q.2.1 < n ∧ q.2.2.1 < n ∧ q.2.2.2 < n

instance (n : Nat) (q : Nat × Nat × Nat × Nat) : Decidable (Inside n q) :=
  inferInstanceAs (Decidable (q.1 < n ∧ q.2.1 < n ∧ q.2.2.1 < n ∧ q.2.2.2 < n))

theorem setFour_pack {v : List UInt64} {q : Nat × Nat × Nat × Nat} (h : Inside v.length q) (a b c d : UInt64) :
    setFour (pack v) q a.toNat b.toNat c.toNat d.toNat =
      pack ((((v.set q.1 a).set q.2.1 b).set q.2.2.1 c).set q.2.2.2 d) := by
  obtain ⟨ha, hb, hc, hd⟩ := h
  rw [setFour, pack_set (by simpa using hd), pack_set (by simpa using hc), pack_set (by simpa using hb), pack_set ha]

/-! ## BLAKE2b -/

/-- The mixing function of BLAKE2b on a packed vector; the words are `q` and the message words come with them. -/
def mixN (m v : Nat) (q : (Nat × Nat × Nat × Nat) × Nat × Nat) : Nat :=
  let a := Nat.mod (Nat.add (Nat.add (word v q.1.1) (word v q.1.2.1)) (word m q.2.1)) 18446744073709551616
  let d := rotN (Nat.xor (word v q.1.2.2.2) a) 32
  let c := Nat.mod (Nat.add (word v q.1.2.2.1) d) 18446744073709551616
  let b := rotN (Nat.xor (word v q.1.2.1) c) 24
  let a := Nat.mod (Nat.add (Nat.add a b) (word m q.2.2)) 18446744073709551616
  let d := rotN (Nat.xor d a) 16
  let c := Nat.mod (Nat.add c d) 18446744073709551616
  let b := rotN (Nat.xor b c) 63
  setFour v q.1 a b c d

/-- The mixing function with its words from lists. -/
def mixAt (m v : List UInt64) (q : (Nat × Nat × Nat × Nat) × Nat × Nat) : List UInt64 :=
  Rfc7693.mix v q.1.1 q.1.2.1 q.1.2.2.1 q.1.2.2.2 (m.getD q.2.1 0) (m.getD q.2.2 0)

theorem mixN_pack {v : List UInt64} (m : List UInt64) {q : (Nat × Nat × Nat × Nat) × Nat × Nat}
    (h : Inside v.length q.1) : mixN (pack m) (pack v) q = pack (mixAt m v q) := by
  have hadd : ∀ x y : UInt64, Nat.mod (Nat.add x.toNat y.toNat) 18446744073709551616 = (x + y).toNat := fun x y =>
    (UInt64.toNat_add x y).symm
  have hadd3 : ∀ x y z : UInt64, Nat.mod (Nat.add (Nat.add x.toNat y.toNat) z.toNat) 18446744073709551616 =
      (x + y + z).toNat := by
    intro x y z
    show (x.toNat + y.toNat + z.toNat) % 2 ^ 64 = _
    rw [UInt64.toNat_add, UInt64.toNat_add, Nat.mod_add_mod]
  have hxor : ∀ x y : UInt64, Nat.xor x.toNat y.toNat = (x ^^^ y).toNat := fun x y => (UInt64.toNat_xor x y).symm
  unfold mixN
  simp only [word_pack, hadd3, hxor, (rotN_amounts _).1, (rotN_amounts _).2.1, (rotN_amounts _).2.2.1,
    (rotN_amounts _).2.2.2, hadd]
  exact setFour_pack h _ _ _ _

theorem length_mixAt (m v : List UInt64) (q : (Nat × Nat × Nat × Nat) × Nat × Nat) :
    (mixAt m v q).length = v.length := by
  simp [mixAt, Rfc7693.mix]

/-- The applications of the mixing function in the twelve rounds. -/
def schedule : List ((Nat × Nat × Nat × Nat) × Nat × Nat) :=
  (List.range 12).flatMap fun i =>
    let s := Rfc7693.sigma.getD (i % 10) []
    Rfc9106.quads.zipIdx.map fun q => (q.1, s.getD (2 * q.2) 0, s.getD (2 * q.2 + 1) 0)

theorem rounds_schedule (m v : List UInt64) : (List.range 12).foldl (Rfc7693.round m) v = schedule.foldl (mixAt m) v := by
  have hround : ∀ v i, Rfc7693.round m v i = (Rfc9106.quads.zipIdx.map fun q =>
      (q.1, (Rfc7693.sigma.getD (i % 10) []).getD (2 * q.2) 0,
        (Rfc7693.sigma.getD (i % 10) []).getD (2 * q.2 + 1) 0)).foldl (mixAt m) v := by
    intro v i
    rw [List.foldl_map]
    unfold Rfc7693.round Rfc9106.quads mixAt
    simp only [List.zipIdx_cons, List.zipIdx_nil, List.foldl_cons, List.foldl_nil, Nat.reduceAdd, Nat.reduceMul,
      Nat.mul_zero, Nat.zero_add]
  rw [schedule, List.foldl_flatMap]
  exact List.foldl_ext _ _ _ fun v i _ => hround v i

theorem foldl_pack {α : Type} {f : List UInt64 → α → List UInt64} {g : Nat → α → Nat} {l : List α} {n : Nat}
    (hlen : ∀ v a, (f v a).length = v.length)
    (hstep : ∀ v : List UInt64, v.length = n → ∀ a ∈ l, g (pack v) a = pack (f v a))
    {v : List UInt64} (hv : v.length = n) : l.foldl g (pack v) = pack (l.foldl f v) := by
  induction l generalizing v with
  | nil => rfl
  | cons a l ih =>
    rw [List.foldl_cons, List.foldl_cons, hstep v hv a List.mem_cons_self]
    exact ih (fun v hv a ha => hstep v hv a (List.mem_cons_of_mem _ ha)) ((hlen v a).trans hv)

theorem length_foldl {α : Type} {f : List UInt64 → α → List UInt64} (hlen : ∀ v a, (f v a).length = v.length)
    (l : List α) (v : List UInt64) : (l.foldl f v).length = v.length :=
  List.foldlRecOn (motive := fun w : List UInt64 => w.length = v.length) l f rfl fun w hw a _ => (hlen w a).trans hw

/-- The compression function on packed words. -/
def compressN {β : Type} (h m t : Nat) (last : Bool) (k : Nat → β) : β :=
  let v := h + 2 ^ (64 * 8) * pack Rfc7693.iv
  let v := setWord v 12 (word v 12 ^^^ t % 2 ^ 64)
  let v := setWord v 13 (word v 13 ^^^ t / 2 ^ 64 % 2 ^ 64)
  let v := if last then setWord v 14 (word v 14 ^^^ 0xFFFFFFFFFFFFFFFF) else v
  foldStrict (mixN m) schedule v fun v => force (h ^^^ v % 2 ^ (64 * 8) ^^^ v / 2 ^ (64 * 8)) k

theorem compressN_eq {β : Type} {h : List UInt64} (hh : h.length = 8) (m : List UInt64) (t : Nat) (last : Bool)
    (k : Nat → β) : compressN (pack h) (pack m) t last k = k (pack (Rfc7693.compress h m t last)) := by
  have hset : ∀ {v : List UInt64} {i : Nat} (w : UInt64), i < v.length →
      setWord (pack v) i (word (pack v) i ^^^ w.toNat) = pack (v.set i (v.getD i 0 ^^^ w)) := by
    intro v i w hi
    rw [word_pack, ← UInt64.toNat_xor, pack_set hi]
  have hlow : t % 2 ^ 64 = t.toUInt64.toNat := rfl
  have hhigh : t / 2 ^ 64 % 2 ^ 64 = (t / 2 ^ 64).toUInt64.toNat := rfl
  have hmask : (0xFFFFFFFFFFFFFFFF : Nat) = (0xFFFFFFFFFFFFFFFF : UInt64).toNat := rfl
  have hstart : pack h + 2 ^ (64 * 8) * pack Rfc7693.iv = pack (h ++ Rfc7693.iv) := by rw [pack_append, hh]
  have hlen : (h ++ Rfc7693.iv).length = 16 := by rw [List.length_append, hh]; rfl
  have hinside : ∀ q ∈ schedule, Inside 16 q.1 := by decide
  -- the result is the exclusive or of the chaining value with both halves
  have hfold : ∀ v : List UInt64, v.length = 16 →
      pack h ^^^ (schedule.foldl (mixN (pack m)) (pack v)) % 2 ^ (64 * 8) ^^^
        (schedule.foldl (mixN (pack m)) (pack v)) / 2 ^ (64 * 8) =
      pack ((List.range 8).map fun i => h.getD i 0 ^^^ ((List.range 12).foldl (Rfc7693.round m) v).getD i 0 ^^^
        ((List.range 12).foldl (Rfc7693.round m) v).getD (i + 8) 0) := by
    intro v hv
    rw [foldl_pack (length_mixAt m) (fun v hv q hq => mixN_pack m (hv ▸ hinside q hq)) hv, rounds_schedule]
    have hlast := length_foldl (length_mixAt m) schedule v
    generalize schedule.foldl (mixAt m) v = w at hlast
    rw [hv] at hlast
    have hmod : pack w % 2 ^ (64 * 8) = pack (w.take 8) := pack_mod (by omega)
    have hdiv : pack w / 2 ^ (64 * 8) = pack (w.drop 8) := pack_div w 8
    rw [hmod, hdiv, ← pack_xor (by simp [hh, hlast]), ← pack_xor (by simp [hh, hlast])]
    apply congrArg pack
    apply List.ext_getElem (by simp [hh, hlast])
    intro i hi hi'
    have hi8 : i < 8 := by simpa using hi'
    simp [List.getD_eq_getElem?_getD, hh, hlast, hi8, show i + 8 < 16 by omega, Nat.add_comm 8, show i < 16 by omega]
  unfold compressN Rfc7693.compress
  simp only [foldStrict_eq, force_eq, hlow, hhigh, hmask, hstart]
  rw [hset _ (by omega), hset _ (by rw [List.length_set]; omega)]
  cases last with
  | false => exact congrArg k (hfold _ (by simp [hlen]))
  | true =>
    rw [if_pos rfl, if_pos rfl, hset _ (by simp [hlen])]
    exact congrArg k (hfold _ (by simp [hlen]))

theorem pack_block (data : List Byte) (i : Nat) :
    pack (Rfc7693.block data i) = leVal data / 256 ^ (128 * i) % 256 ^ 128 := by
  rw [Rfc7693.block, pack_words (by rw [length_fit]), leVal_fit, leVal_drop]

theorem length_chain {h : List UInt64} (hh : h.length = 8) (data : List Byte) (n : Nat) :
    (Rfc7693.chain h data n).length = 8 := by
  cases n with
  | zero => exact hh
  | succ n => rw [rfcChain_succ, length_compress]

/-- `n` blocks of a message from the `i`-th on. -/
def chainN {β : Type} (msg : Nat) : Nat → Nat → Nat → (Nat → β) → β
  | 0, _, h, k => k h
  | n + 1, i, h, k =>
    compressN h (msg / 256 ^ (128 * i) % 256 ^ 128) (128 * (i + 1)) false fun h => chainN msg n (i + 1) h k

theorem chainN_eq {β : Type} {h : List UInt64} (hh : h.length = 8) (data : List Byte) (n i : Nat) (k : Nat → β) :
    chainN (leVal data) n i (pack (Rfc7693.chain h data i)) k = k (pack (Rfc7693.chain h data (i + n))) := by
  induction n generalizing i with
  | zero => rfl
  | succ n ih =>
    rw [chainN, ← pack_block, compressN_eq (length_chain hh data i), ← rfcChain_succ, ih (i + 1), Nat.succ_add_eq_add_succ]

/-- The hash of `nn` bytes of a message of `len` bytes. -/
def hashN {β : Type} (nn msg len : Nat) (k : Nat → β) : β :=
  force (pack (Rfc7693.start nn 0)) fun h => chainN msg ((len - 1) / 128) 0 h fun h =>
    compressN h (msg / 256 ^ (128 * ((len - 1) / 128)) % 256 ^ 128) len true fun h => force (h % 256 ^ nn) k

theorem hashN_eq {β : Type} (nn : Nat) (msg : List Byte) (k : Nat → β) :
    hashN nn (leVal msg) msg.length k = k (leVal (Rfc9106.hash nn msg)) := by
  have hstart : (Rfc7693.start nn 0).length = 8 := by simp [Rfc7693.start, Rfc7693.iv]
  have hzero : pack (Rfc7693.start nn 0) = pack (Rfc7693.chain (Rfc7693.start nn 0) msg 0) := rfl
  have hhash : Rfc9106.hash nn msg = ((Rfc7693.compress
      (Rfc7693.chain (Rfc7693.start nn 0) msg ((msg.length - 1) / 128)) (Rfc7693.block msg ((msg.length - 1) / 128))
      msg.length true).flatMap fun w => le 8 w.toNat).take nn := rfl
  unfold hashN
  rw [force_eq, hzero, chainN_eq hstart, Nat.zero_add, ← pack_block, compressN_eq (length_chain hstart _ _), force_eq,
    hhash, leVal_take, leVal_words]

/-! ## The hash of a block -/

/-- The loop of `H_prime` for `64 + 32 * n` bytes, added to what is there at byte `sh`. -/
def loopN {β : Type} : Nat → Nat → Nat → Nat → (Nat → β) → β
  | 0, v, acc, sh, k => hashN 64 v 64 fun w => force (acc + 256 ^ sh * w) k
  | n + 1, v, acc, sh, k =>
    hashN 64 v 64 fun a => force (acc + 256 ^ sh * (a % 256 ^ 32)) fun acc => loopN n a acc (sh + 32) k

theorem loopN_eq {β : Type} {n fuel : Nat} (hfuel : n ≤ fuel) {v : List Byte} (hv : v.length = 64) (acc sh : Nat)
    (k : Nat → β) :
    loopN n (leVal v) acc sh k = k (acc + 256 ^ sh * leVal (hPrimeLoop fuel v (64 + 32 * n))) := by
  have hhash : ∀ (v : List Byte) (k : Nat → β), v.length = 64 → hashN 64 (leVal v) 64 k = k (leVal (blake2b v [] 64)) := by
    intro v k hv
    have h := hashN_eq 64 v k
    rw [hv] at h
    rw [h, blake2b_rfc]
    rfl
  induction n generalizing fuel v acc sh with
  | zero =>
    have hlast : hPrimeLoop fuel v (64 + 32 * 0) = blake2b v [] 64 := by
      cases fuel with
      | zero => rfl
      | succ fuel => exact if_neg (by decide)
    rw [loopN, hhash v _ hv, force_eq, hlast]
  | succ n ih =>
    obtain ⟨fuel, rfl⟩ : ∃ f, fuel = f + 1 := ⟨fuel - 1, by omega⟩
    have hlen : (blake2b v [] 64).length = 64 := by
      rw [blake2b_rfc]
      exact length_hash (le_refl 64) v
    have hstep : hPrimeLoop (fuel + 1) v (64 + 32 * (n + 1)) =
        (blake2b v [] 64).take 32 ++ hPrimeLoop fuel (blake2b v [] 64) (64 + 32 * n) := by
      rw [hPrimeLoop, if_pos (by omega)]
      congr 2
    rw [loopN, hhash v _ hv, force_eq, ih (Nat.le_of_succ_le_succ hfuel) hlen, hstep, leVal_append, leVal_take,
      List.length_take_of_le (by omega)]
    congr 1
    rw [Nat.pow_add]
    ring

/-- `H'` of 1024 bytes. -/
def blockN {β : Type} (msg len : Nat) (k : Nat → β) : β :=
  hashN 64 (1024 + 256 ^ 4 * msg) (4 + len) fun a => force (a % 256 ^ 32) fun acc => loopN 29 a acc 32 k

theorem blockN_eq {β : Type} (msg : List Byte) (k : Nat → β) :
    blockN (leVal msg) msg.length k = k (leVal (Rfc9106.hashVar 1024 msg)) ∧
      (Rfc9106.hashVar 1024 msg).length = 1024 := by
  have hlen : (le 4 1024 ++ msg).length = 4 + msg.length := by rw [List.length_append, length_le]
  have hval : leVal (le 4 1024 ++ msg) = 1024 + 256 ^ 4 * leVal msg := by
    rw [leVal_append, length_le, leVal_le]
    rfl
  have hprime : Rfc9106.hashVar 1024 msg = (Rfc9106.hash 64 (le 4 1024 ++ msg)).take 32 ++
      hPrimeLoop 1024 (Rfc9106.hash 64 (le 4 1024 ++ msg)) (64 + 32 * 29) := by
    rw [← hPrime_rfc, hPrime, if_neg (by decide)]
    simp only [hPrime_first]
  have hhash := length_hash (le_refl 64) (le 4 1024 ++ msg)
  rw [hprime]
  constructor
  · unfold blockN
    rw [← hlen, ← hval, hashN_eq, force_eq, loopN_eq (by decide : 29 ≤ 1024) hhash, leVal_append, leVal_take,
      List.length_take_of_le (by omega)]
  · rw [List.length_append, length_hPrimeLoop _ _ (by decide), List.length_take_of_le (by omega)]

/-! ## Blocks -/

def mulAddN (a b : Nat) : Nat :=
  Nat.mod (Nat.add (Nat.add a b) (Nat.mul (Nat.mul 2 (Nat.mod a 4294967296)) (Nat.mod b 4294967296)))
    18446744073709551616

theorem mulAddN_eq (a b : Nat) :
    mulAddN a b = (a + b + 2 * (a % 4294967296) * (b % 4294967296)) % 18446744073709551616 := rfl

theorem mulAddN_toNat (a b : UInt64) : mulAddN a.toNat b.toNat = (Rfc9106.mulAdd a b).toNat := by
  have hlow : ∀ x : UInt64, (x &&& 0xffffffff).toNat = x.toNat % 4294967296 := fun x =>
    (UInt64.toNat_and x _).trans (Nat.and_two_pow_sub_one_eq_mod x.toNat 32)
  rw [Rfc9106.mulAdd, mulAddN_eq, UInt64.toNat_add, UInt64.toNat_add, UInt64.toNat_mul, UInt64.toNat_mul, hlow, hlow]
  simp [Nat.mod_mul_mod, Nat.add_mod]

/-- `GB` on a packed block. -/
def mixB (v : Nat) (q : Nat × Nat × Nat × Nat) : Nat :=
  let a := mulAddN (word v q.1) (word v q.2.1)
  let d := rotN (Nat.xor (word v q.2.2.2) a) 32
  let c := mulAddN (word v q.2.2.1) d
  let b := rotN (Nat.xor (word v q.2.1) c) 24
  let a := mulAddN a b
  let d := rotN (Nat.xor d a) 16
  let c := mulAddN c d
  let b := rotN (Nat.xor b c) 63
  setFour v q a b c d

theorem mixB_pack {v : List UInt64} {q : Nat × Nat × Nat × Nat} (h : Inside v.length q) :
    mixB (pack v) q = pack (Rfc9106.mix v q) := by
  have hxor : ∀ x y : UInt64, Nat.xor x.toNat y.toNat = (x ^^^ y).toNat := fun x y => (UInt64.toNat_xor x y).symm
  unfold mixB
  simp only [word_pack, mulAddN_toNat, hxor, (rotN_amounts _).1, (rotN_amounts _).2.1,
    (rotN_amounts _).2.2.1, (rotN_amounts _).2.2.2]
  exact setFour_pack h _ _ _ _

theorem length_mix (v : List UInt64) (q : Nat × Nat × Nat × Nat) : (Rfc9106.mix v q).length = v.length := by
  simp [Rfc9106.mix]

/-- `G` with the permutation given by its applications of `GB`. -/
def compressB {β : Type} (quads : List (Nat × Nat × Nat × Nat)) (x y : Nat) (k : Nat → β) : β :=
  force (x ^^^ y) fun r => foldStrict mixB quads r fun v => force (v ^^^ r) k

theorem compressB_eq {β : Type} {quads : List (Nat × Nat × Nat × Nat)} (hquads : ∀ q ∈ quads, Inside 128 q)
    {x y : List Byte} (hx : x.length = 1024) (hy : y.length = 1024) (k : Nat → β) :
    compressB quads (leVal x) (leVal y) k = k (leVal (Rfc9106.compress (fun v => quads.foldl Rfc9106.mix v) x y)) ∧
      (Rfc9106.compress (fun v => quads.foldl Rfc9106.mix v) x y).length = 1024 := by
  have hwords : ∀ z : List Byte, z.length = 1024 → pack (Rfc9106.words z) = leVal z := fun z hz => pack_words hz
  have hlen : ∀ z : List Byte, (Rfc9106.words z).length = 128 := fun z => by simp [Rfc9106.words]
  have hr : (List.zipWith (· ^^^ ·) (Rfc9106.words x) (Rfc9106.words y)).length = 128 := by
    rw [List.length_zipWith, hlen, hlen, Nat.min_self]
  have hperm := length_foldl length_mix quads (List.zipWith (· ^^^ ·) (Rfc9106.words x) (Rfc9106.words y))
  constructor
  · unfold compressB Rfc9106.compress
    rw [force_eq, foldStrict_eq, force_eq, leVal_words, pack_xor hperm, ← hwords x hx, ← hwords y hy,
      ← pack_xor (by rw [hlen, hlen]), foldl_pack length_mix (fun v hv q hq => mixB_pack (hv ▸ hquads q hq)) hr]
  · unfold Rfc9106.compress
    simp only [List.length_flatMap, length_le, List.map_const', List.sum_replicate, List.length_zipWith, hperm, hr]
    rfl

/-! ## One lane of eight blocks -/

/-- One lane, one pass, eight blocks, data-dependent references, and a tag of four bytes. -/
def eightBlocks : Argon2Params := { timeCost := 1, memoryKb := 8, parallelism := 1, type := .d }

theorem eightBlocks_fits : eightBlocks.Fits := ⟨by decide, by decide, by decide⟩

/-- Slice and index of the blocks behind the first two. -/
def eightSteps : List (Nat × Nat) := [(1, 0), (1, 1), (2, 0), (2, 1), (3, 0), (3, 1)]

section Eight

variable {v : Rfc9106.Variant} {quads : List (Nat × Nat × Nat × Nat)} (password salt : List Byte)

/-- Memory of blocks of their size. -/
def Full (mem : List (List Byte)) : Prop := mem.length = 8 ∧ ∀ b ∈ mem, b.length = 1024

def stepN {β : Type} (quads : List (Nat × Nat × Nat × Nat)) (mem : List Nat) (s : Nat × Nat) (k : List Nat → β) : β :=
  let prev := mem.getD (s.1 * 2 + s.2 - 1) 0
  let z := Rfc9106.reference (Rfc9106.references 2 0 s.1 s.2 true) (prev % 2 ^ 32)
  compressB quads prev (mem.getD z 0) fun b => k (mem.set (s.1 * 2 + s.2) b)

theorem getD_leVal (mem : List (List Byte)) (i : Nat) :
    (mem.map leVal).getD i 0 = leVal (mem.getD i Rfc9106.zeroBlock) := by
  have hzero : leVal Rfc9106.zeroBlock = 0 := leVal_zeros 1024
  rw [← hzero, List.getD_map]

theorem length_getD {mem : List (List Byte)} (h : Full mem) (i : Nat) : (mem.getD i Rfc9106.zeroBlock).length = 1024 := by
  rcases Nat.lt_or_ge i mem.length with hlt | hge
  · rw [List.getD_eq_getElem _ _ hlt]
    exact h.2 _ (List.getElem_mem hlt)
  · rw [List.getD_eq_default _ _ hge]
    exact List.length_replicate

theorem stepN_eq {β : Type} (hquads : ∀ q ∈ quads, Inside 128 q)
    (hpermute : v.permute = fun w => quads.foldl Rfc9106.mix w) {mem : List (List Byte)} (h : Full mem)
    {s : Nat × Nat} (hs : s ∈ eightSteps) (k : List Nat → β) :
    stepN quads (mem.map leVal) s k =
        k ((Rfc9106.step v (argon2Inputs password salt eightBlocks 4) 0 s.1 0 mem s.2).map leVal) ∧
      Full (Rfc9106.step v (argon2Inputs password salt eightBlocks 4) 0 s.1 0 mem s.2) := by
  have hstep : Rfc9106.step v (argon2Inputs password salt eightBlocks 4) 0 s.1 0 mem s.2 =
      mem.set (s.1 * 2 + s.2) (Rfc9106.compress v.permute (mem.getD (s.1 * 2 + s.2 - 1) Rfc9106.zeroBlock)
        (mem.getD (Rfc9106.reference (Rfc9106.references 2 0 s.1 s.2 true)
          (leVal ((mem.getD (s.1 * 2 + s.2 - 1) Rfc9106.zeroBlock).take 8) % 2 ^ 32)) Rfc9106.zeroBlock)) := by
    have hpos : 1 ≤ s.1 := by
      revert s
      decide
    have hcolumns : (argon2Inputs password salt eightBlocks 4).columns = 8 := columns_eq eightBlocks_fits
    have hsegment : (argon2Inputs password salt eightBlocks 4).segment = 2 := segment_eq eightBlocks_fits
    have hlanes : (argon2Inputs password salt eightBlocks 4).parallelism = 1 := rfl
    have hdepends : Rfc9106.independent (argon2Inputs password salt eightBlocks 4).kind 0 s.1 = false := rfl
    unfold Rfc9106.step Rfc9106.get
    simp only [hcolumns, hsegment, hlanes, hdepends, Nat.zero_mul, Nat.zero_add, Nat.mod_one, ite_self, decide_true,
      if_true, Bool.false_eq_true, if_false, if_neg (by omega : ¬s.1 * 2 + s.2 = 0)]
  have hj : ∀ b : List Byte, leVal (b.take 8) % 2 ^ 32 = leVal b % 2 ^ 32 := by
    intro b
    rw [leVal_take]
    exact Nat.mod_mod_of_dvd _ (by decide)
  rw [hstep, hj, hpermute]
  obtain ⟨hval, hlen⟩ := compressB_eq hquads (length_getD h (s.1 * 2 + s.2 - 1)) (length_getD h
    (Rfc9106.reference (Rfc9106.references 2 0 s.1 s.2 true)
      (leVal (mem.getD (s.1 * 2 + s.2 - 1) Rfc9106.zeroBlock) % 2 ^ 32)))
    fun b => k ((mem.map leVal).set (s.1 * 2 + s.2) b)
  refine ⟨?_, ?_, ?_⟩
  · unfold stepN
    simp only [getD_leVal]
    rw [hval, List.map_set]
  · rw [List.length_set, h.1]
  · intro b hb
    rcases List.mem_or_eq_of_mem_set hb with hold | rfl
    · exact h.2 b hold
    · exact hlen

def stepsN {β : Type} (quads : List (Nat × Nat × Nat × Nat)) : List (Nat × Nat) → List Nat → (List Nat → β) → β
  | [], mem, k => k mem
  | s :: steps, mem, k => stepN quads mem s fun mem => stepsN quads steps mem k

theorem stepsN_eq {β : Type} (hquads : ∀ q ∈ quads, Inside 128 q)
    (hpermute : v.permute = fun w => quads.foldl Rfc9106.mix w) {steps : List (Nat × Nat)}
    (hsteps : ∀ s ∈ steps, s ∈ eightSteps) {mem : List (List Byte)} (h : Full mem) (k : List Nat → β) :
    stepsN quads steps (mem.map leVal) k = k ((steps.foldl (fun mem s =>
        Rfc9106.step v (argon2Inputs password salt eightBlocks 4) 0 s.1 0 mem s.2) mem).map leVal) ∧
      Full (steps.foldl (fun mem s =>
        Rfc9106.step v (argon2Inputs password salt eightBlocks 4) 0 s.1 0 mem s.2) mem) := by
  induction steps generalizing mem with
  | nil => exact ⟨rfl, h⟩
  | cons s steps ih =>
    obtain ⟨hstep, hfull⟩ := stepN_eq password salt hquads hpermute h (hsteps s List.mem_cons_self)
      fun mem => stepsN quads steps mem k
    rw [stepsN, hstep, List.foldl_cons]
    exact ih (fun s hs => hsteps s (List.mem_cons_of_mem _ hs)) hfull

theorem fill_eight (mem : List (List Byte)) : Rfc9106.fill v (argon2Inputs password salt eightBlocks 4) mem =
    eightSteps.foldl (fun mem s => Rfc9106.step v (argon2Inputs password salt eightBlocks 4) 0 s.1 0 mem s.2) mem := by
  have hsegment : (argon2Inputs password salt eightBlocks 4).segment = 2 := segment_eq eightBlocks_fits
  have hlanes : (argon2Inputs password salt eightBlocks 4).parallelism = 1 := rfl
  have hpasses : (argon2Inputs password salt eightBlocks 4).passes = 1 := rfl
  unfold Rfc9106.fill Rfc9106.fillSegment eightSteps
  rw [hsegment, hlanes, hpasses]
  rfl

/-- The tag from what is hashed first. -/
def tagN {β : Type} (quads : List (Nat × Nat × Nat × Nat)) (first len : Nat) (k : Nat → β) : β :=
  hashN 64 first len fun h0 => blockN h0 72 fun b0 => blockN (h0 + 256 ^ 64) 72 fun b1 =>
    stepsN quads eightSteps [b0, b1, 0, 0, 0, 0, 0, 0] fun mem =>
      force (4 + 256 ^ 4 * mem.getD 7 0) fun last => hashN 4 last 1028 k

/-- The tag of the eight blocks is the hash of the last one, after the steps. -/
theorem tag_eight {h0 : List Byte} (hh0 : h0 = Rfc9106.hash 64 (v.first (argon2Inputs password salt eightBlocks 4))) :
    Rfc9106.tag v (argon2Inputs password salt eightBlocks 4) = Rfc9106.hash 4 (le 4 4 ++
      (eightSteps.foldl (fun mem s => Rfc9106.step v (argon2Inputs password salt eightBlocks 4) 0 s.1 0 mem s.2)
        [Rfc9106.hashVar 1024 (h0 ++ le 4 0 ++ le 4 0), Rfc9106.hashVar 1024 (h0 ++ le 4 1 ++ le 4 0),
          Rfc9106.zeroBlock, Rfc9106.zeroBlock, Rfc9106.zeroBlock, Rfc9106.zeroBlock, Rfc9106.zeroBlock,
          Rfc9106.zeroBlock]).getD 7 Rfc9106.zeroBlock) := by
  have hcolumns : (argon2Inputs password salt eightBlocks 4).columns = 8 := columns_eq eightBlocks_fits
  have hlanes : (argon2Inputs password salt eightBlocks 4).parallelism = 1 := rfl
  have hblocks : (argon2Inputs password salt eightBlocks 4).blocks = 8 := blocks_eq.trans (by decide)
  have hlength : (argon2Inputs password salt eightBlocks 4).tagLength = 4 := rfl
  subst hh0
  unfold Rfc9106.tag Rfc9106.firstBlocks Rfc9106.get Rfc9106.hashVar
  simp only [fill_eight, hcolumns, hlanes, hblocks, hlength]
  rfl

theorem blockN_first {β : Type} {h0 : List Byte} (hh0 : h0.length = 64) (i : Nat) (k : Nat → β) :
    blockN (leVal h0 + 256 ^ 64 * leVal (le 4 i ++ le 4 0)) 72 k =
      k (leVal (Rfc9106.hashVar 1024 (h0 ++ le 4 i ++ le 4 0))) := by
  have hlen : (h0 ++ le 4 i ++ le 4 0).length = 72 := by
    rw [List.length_append, List.length_append, length_le, length_le, hh0]
  have h := (blockN_eq (h0 ++ le 4 i ++ le 4 0) k).1
  rwa [hlen, List.append_assoc, leVal_append, hh0, ← List.append_assoc] at h

theorem full_start {b0 b1 : List Byte} (hlen0 : b0.length = 1024) (hlen1 : b1.length = 1024) :
    Full [b0, b1, Rfc9106.zeroBlock, Rfc9106.zeroBlock, Rfc9106.zeroBlock, Rfc9106.zeroBlock, Rfc9106.zeroBlock,
      Rfc9106.zeroBlock] := by
  have hblankLen : Rfc9106.zeroBlock.length = 1024 := List.length_replicate
  refine ⟨rfl, ?_⟩
  simp only [List.forall_mem_cons, hlen0, hlen1, hblankLen, true_and]
  nofun

theorem tagN_eq {β : Type} (hquads : ∀ q ∈ quads, Inside 128 q)
    (hpermute : v.permute = fun w => quads.foldl Rfc9106.mix w) (k : Nat → β) :
    tagN quads (leVal (v.first (argon2Inputs password salt eightBlocks 4)))
        (v.first (argon2Inputs password salt eightBlocks 4)).length k =
      k (leVal (Rfc9106.tag v (argon2Inputs password salt eightBlocks 4))) := by
  unfold tagN
  rw [hashN_eq]
  have hh0 := length_hash (le_refl 64) (v.first (argon2Inputs password salt eightBlocks 4))
  have htag := @tag_eight v password salt _ rfl
  generalize Rfc9106.hash 64 (v.first (argon2Inputs password salt eightBlocks 4)) = h0 at hh0 htag ⊢
  have hb0 : ∀ k : Nat → β, blockN (leVal h0) 72 k = k (leVal (Rfc9106.hashVar 1024 (h0 ++ le 4 0 ++ le 4 0))) :=
    blockN_first hh0 0
  have hb1 : ∀ k : Nat → β,
      blockN (leVal h0 + 256 ^ 64) 72 k = k (leVal (Rfc9106.hashVar 1024 (h0 ++ le 4 1 ++ le 4 0))) :=
    blockN_first hh0 1
  have hlen0 := (blockN_eq (h0 ++ le 4 0 ++ le 4 0) id).2
  have hlen1 := (blockN_eq (h0 ++ le 4 1 ++ le 4 0) id).2
  rw [hb0, hb1, htag]
  generalize Rfc9106.hashVar 1024 (h0 ++ le 4 0 ++ le 4 0) = b0 at hlen0 ⊢
  generalize Rfc9106.hashVar 1024 (h0 ++ le 4 1 ++ le 4 0) = b1 at hlen1 ⊢
  have hblank : leVal Rfc9106.zeroBlock = 0 := leVal_zeros 1024
  have hmem : [leVal b0, leVal b1, 0, 0, 0, 0, 0, 0] = [b0, b1, Rfc9106.zeroBlock, Rfc9106.zeroBlock, Rfc9106.zeroBlock,
      Rfc9106.zeroBlock, Rfc9106.zeroBlock, Rfc9106.zeroBlock].map leVal := by
    simp only [List.map_cons, List.map_nil, hblank]
  obtain ⟨hsteps, hdone⟩ := stepsN_eq password salt hquads hpermute (fun s hs => hs) (full_start hlen0 hlen1) fun mem =>
    force (4 + 256 ^ 4 * mem.getD 7 0) fun last => hashN 4 last 1028 k
  rw [hmem, hsteps, force_eq, getD_leVal]
  have hlast := length_getD hdone 7
  generalize List.getD (eightSteps.foldl _ _) 7 Rfc9106.zeroBlock = last at hlast ⊢
  have hval : leVal (le 4 4 ++ last) = 4 + 256 ^ 4 * leVal last := by
    rw [leVal_append, length_le, leVal_le]
    rfl
  have htotal : (le 4 4 ++ last).length = 1028 := by rw [List.length_append, length_le, hlast]
  have h := hashN_eq 4 (le 4 4 ++ last) k
  rwa [hval, htotal] at h

end Eight

/-! ## The tags -/

theorem bootVariant_permute : bootVariant.permute = fun w => bootQuads.foldl Rfc9106.mix w := by
  rw [bootVariant]

theorem standard_permute : Rfc9106.standard.permute = fun w => Rfc9106.blockQuads.foldl Rfc9106.mix w := by
  have hstandard : Rfc9106.standard.permute = Rfc9106.permute := by rw [Rfc9106.standard]
  rw [hstandard]
  funext w
  rw [Rfc9106.permute]

/-- The inputs of the evaluated tags. -/
def someInputs : Rfc9106.Inputs := argon2Inputs (lit "password") (lit "somesalt") eightBlocks 4

/-- The packed tag is `n`. -/
def tagIs (v : Rfc9106.Variant) (quads : List (Nat × Nat × Nat × Nat)) (n : Nat) : Bool :=
  tagN quads (leVal (v.first someInputs)) (v.first someInputs).length (Nat.beq n)

theorem leVal_tag {v : Rfc9106.Variant} {quads : List (Nat × Nat × Nat × Nat)} (hquads : ∀ q ∈ quads, Inside 128 q)
    (hpermute : v.permute = fun w => quads.foldl Rfc9106.mix w) {n : Nat} (h : tagIs v quads n = true) :
    leVal (Rfc9106.tag v someInputs) = n := by
  unfold tagIs someInputs at h
  rw [tagN_eq _ _ hquads hpermute] at h
  exact (Nat.eq_of_beq_eq_true h).symm

theorem leVal_tag_boot : leVal (Rfc9106.tag bootVariant someInputs) = 0x8107573f := by
  have hinside : ∀ q ∈ bootQuads, Inside 128 q := by decide
  have hpacked : tagIs bootVariant bootQuads 0x8107573f = true := by decide +kernel
  exact leVal_tag hinside bootVariant_permute hpacked

theorem leVal_tag_standard : leVal (Rfc9106.tag Rfc9106.standard someInputs) = 0x94f63f79 := by
  have hinside : ∀ q ∈ Rfc9106.blockQuads, Inside 128 q := by decide +kernel
  have hpacked : tagIs Rfc9106.standard Rfc9106.blockQuads 0x94f63f79 = true := by decide +kernel
  exact leVal_tag hinside standard_permute hpacked

/-- A tag of `argon2` that is not the tag of the RFC. -/
theorem argon2_not_rfc : argon2 (fun _ => true) (lit "password") (lit "somesalt") eightBlocks 4 ≠
    some (Rfc9106.tag Rfc9106.standard (argon2Inputs (lit "password") (lit "somesalt") eightBlocks 4)) := by
  intro h
  rw [argon2_tag _ _ _ eightBlocks_fits rfl] at h
  have htags : Rfc9106.tag bootVariant someInputs = Rfc9106.tag Rfc9106.standard someInputs := Option.some.inj h
  have hvals := congrArg leVal htags
  rw [leVal_tag_boot, leVal_tag_standard] at hvals
  exact absurd hvals (by decide)

/-- The tag `argon2` computes is the RFC's exactly where the four changes leave the RFC's tag as it is; the first digest
is never of the message the RFC hashes. -/
theorem argon2_rfc (password salt : List Byte) {p : Argon2Params} (outLen : Nat) (h : p.Fits) {alloc : Nat → Bool}
    (halloc : alloc (argon2AllocSize p) = true) :
    argon2 alloc password salt p outLen = some (Rfc9106.tag bootVariant (argon2Inputs password salt p outLen)) ∧
      (argon2 alloc password salt p outLen =
          some (Rfc9106.tag Rfc9106.standard (argon2Inputs password salt p outLen)) ↔
        Rfc9106.tag bootVariant (argon2Inputs password salt p outLen) =
          Rfc9106.tag Rfc9106.standard (argon2Inputs password salt p outLen)) ∧
      bootVariant.first (argon2Inputs password salt p outLen) ≠
        Rfc9106.standard.first (argon2Inputs password salt p outLen) := by
  refine ⟨argon2_tag password salt outLen h halloc, ?_, fun heq => ?_⟩
  · rw [argon2_tag password salt outLen h halloc, Option.some_inj]
  · have hlen := length_first (argon2Inputs password salt p outLen)
    rw [heq] at hlen
    omega

theorem argon2_rfc_eightBlocks : eightBlocks.Fits ∧
    argon2 (fun _ => true) (lit "password") (lit "somesalt") eightBlocks 4 =
      some (Rfc9106.tag bootVariant (argon2Inputs (lit "password") (lit "somesalt") eightBlocks 4)) :=
  ⟨eightBlocks_fits, (argon2_rfc (lit "password") (lit "somesalt") 4 eightBlocks_fits rfl).1⟩

end SakuruBoot

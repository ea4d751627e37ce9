import SakuruBoot.Crypto.Fips180
import SakuruBoot.Crypto.Sha

/-!
# The block functions of `crypto/sha.c` are those of FIPS 180-4

A schedule that is built by appending words holds the values of the standard's recursion (`foldl_concat_eq_map`); the
rounds go along with the standard's step by step. With the constants this makes the digest of each scheme that of the
standard (`hashDigest_fips`).
-/

namespace SakuruBoot
open CStr (Byte)
open Bytes

/-! ## Loops -/

theorem foldl_concat_eq_map {α : Type} {F : Nat → α} {next : List α → Nat → α} {k : Nat}
    (h : ∀ i, k ≤ i → next ((List.range i).map F) i = F i) (n : Nat) :
    (List.range' k n).foldl (fun l i => l ++ [next l i]) ((List.range k).map F) = (List.range (k + n)).map F := by
  induction n with
  | zero => rfl
  | succ n ih =>
    rw [List.range'_concat, List.foldl_append, ih, Nat.one_mul, List.foldl_cons, List.foldl_nil,
      h (k + n) (Nat.le_add_right k n), ← Nat.add_assoc, List.range_succ, List.map_append, List.map_singleton]

/-- Two loops over the same indices, step by step. -/
theorem foldl_hom_of_mem {α β ι : Type} (g : α → β) {step : α → ι → α} {step' : β → ι → β} {l : List ι}
    (h : ∀ a, ∀ i ∈ l, g (step a i) = step' (g a) i) (a : α) : g (l.foldl step a) = l.foldl step' (g a) := by
  induction l generalizing a with
  | nil => rfl
  | cons i l ih =>
    rw [List.foldl_cons, List.foldl_cons, ih fun a j hj => h a j (List.mem_cons_of_mem i hj), h a i List.mem_cons_self]

/-! ## SHA-1 -/

/-- The word that `sha1_block` appends to its schedule. -/
def sha1Next (w : List UInt32) (i : Nat) : UInt32 :=
  let x := w.getD (i - 3) 0 ^^^ w.getD (i - 8) 0 ^^^ w.getD (i - 14) 0 ^^^ w.getD (i - 16) 0
  (x <<< 1) ||| (x >>> 31)

theorem sha1Schedule_fips (blk : List Byte) :
    sha1Schedule blk = (List.range 80).map fun t => ⟨Fips180.Sha1.schedule (Fips180.blockWord 32 blk) t⟩ := by
  have hfirst : (List.range 16).map (be32 blk) =
      (List.range 16).map fun t => (⟨Fips180.Sha1.schedule (Fips180.blockWord 32 blk) t⟩ : UInt32) := by
    apply List.map_congr_left
    intro t ht
    rw [Fips180.Sha1.schedule, if_pos (List.mem_range.mp ht)]
    rfl
  have hnext : ∀ i, 16 ≤ i →
      sha1Next ((List.range i).map fun t => ⟨Fips180.Sha1.schedule (Fips180.blockWord 32 blk) t⟩) i =
        ⟨Fips180.Sha1.schedule (Fips180.blockWord 32 blk) i⟩ := by
    intro i hi
    rw [Fips180.Sha1.schedule, if_neg (Nat.not_lt.mpr hi), sha1Next, getD_map_range _ (by omega),
      getD_map_range _ (by omega), getD_map_range _ (by omega), getD_map_range _ (by omega)]
    rfl
  rw [sha1Schedule, hfirst]
  exact foldl_concat_eq_map hnext 64

def sha1Work (s : UInt32 × UInt32 × UInt32 × UInt32 × UInt32) : Fips180.Sha1.Work :=
  ⟨s.1.toBitVec, s.2.1.toBitVec, s.2.2.1.toBitVec, s.2.2.2.1.toBitVec, s.2.2.2.2.toBitVec⟩

/-- The code writes `Ch` and `Maj` with inclusive or. -/
theorem ch_eq_or {w : Nat} (x y z : BitVec w) : (x &&& y) ||| (~~~x &&& z) = Fips180.ch x y z := by
  ext i hi
  simp only [Fips180.ch, BitVec.getElem_or, BitVec.getElem_and, BitVec.getElem_not, BitVec.getElem_xor]
  cases x[i] <;> simp

theorem maj_eq_or {w : Nat} (x y z : BitVec w) : (x &&& y) ||| (x &&& z) ||| (y &&& z) = Fips180.maj x y z := by
  ext i hi
  simp only [Fips180.maj, BitVec.getElem_or, BitVec.getElem_and, BitVec.getElem_xor]
  cases x[i] <;> cases y[i] <;> simp

theorem sha1Round_fips (blk : List Byte) (s : UInt32 × UInt32 × UInt32 × UInt32 × UInt32) {t : Nat} (ht : t < 80) :
    sha1Work (sha1Round (sha1Schedule blk) s t) = Fips180.Sha1.step (Fips180.blockWord 32 blk) (sha1Work s) t := by
  obtain ⟨a, b, c, d, e⟩ := s
  have hrot : ((a <<< 5) ||| (a >>> 27)).toBitVec = a.toBitVec.rotateLeft 5 := rfl
  rw [sha1Round, sha1Schedule_fips, getD_map_range _ ht]
  unfold Fips180.Sha1.step Fips180.Sha1.f Fips180.Sha1.k sha1Work
  dsimp only
  congr 1
  split_ifs
  · simp only [UInt32.toBitVec_add, hrot, UInt32.toBitVec_or, UInt32.toBitVec_and, UInt32.toBitVec_not, ch_eq_or]
    rfl
  · rfl
  · simp only [UInt32.toBitVec_add, hrot, UInt32.toBitVec_or, UInt32.toBitVec_and, maj_eq_or]
    rfl
  · rfl

theorem getD_map_toBitVec (h : List UInt32) (i : Nat) : (h.map UInt32.toBitVec).getD i 0 = (h.getD i 0).toBitVec :=
  List.getD_map h 0 UInt32.toBitVec

theorem map_toBitVec_add (h s : List UInt32) : (List.zipWith (· + ·) h s).map UInt32.toBitVec =
    List.zipWith (· + ·) (s.map UInt32.toBitVec) (h.map UInt32.toBitVec) := by
  rw [List.map_zipWith, List.zipWith_comm_of_comm BitVec.add_comm, List.zipWith_map]
  rfl

theorem sha1Block_fips (h : List UInt32) (blk : List Byte) :
    (sha1Block h blk).map UInt32.toBitVec = Fips180.Sha1.compress (h.map UInt32.toBitVec) blk := by
  have hrounds := foldl_hom_of_mem sha1Work (l := List.range 80)
    (fun s t ht => sha1Round_fips blk s (List.mem_range.mp ht))
  have hstart : Fips180.Sha1.Work.ofList (h.map UInt32.toBitVec) =
      sha1Work (h.getD 0 0, h.getD 1 0, h.getD 2 0, h.getD 3 0, h.getD 4 0) := by
    simp only [Fips180.Sha1.Work.ofList, sha1Work, getD_map_toBitVec]
  rw [Fips180.Sha1.compress, hstart, ← hrounds, sha1Block]
  generalize (List.range 80).foldl (sha1Round (sha1Schedule blk)) _ = s
  exact map_toBitVec_add h _

/-! ## SHA-2 -/

section Sha2

variable {α : Type} {w : Nat} {p : Fips180.Sha2 w}

theorem schedule_fips {ofBits : BitVec w → α} {m : Nat → BitVec w} {first : List α} {next : List α → Nat → α}
    (hfirst : first = (List.range 16).map fun t => ofBits (m t))
    (hnext : ∀ (F : Nat → BitVec w) (i : Nat), 16 ≤ i → next ((List.range i).map fun t => ofBits (F t)) i =
      ofBits (p.smallSigma1 (F (i - 2)) + F (i - 7) + p.smallSigma0 (F (i - 15)) + F (i - 16))) (n : Nat) :
    (List.range' 16 n).foldl (fun l i => l ++ [next l i]) first =
      (List.range (16 + n)).map fun t => ofBits (p.schedule m t) := by
  have hsched : first = (List.range 16).map fun t => ofBits (p.schedule m t) := by
    rw [hfirst]
    apply List.map_congr_left
    intro t ht
    rw [Fips180.Sha2.schedule, if_pos (List.mem_range.mp ht)]
  rw [hsched]
  apply foldl_concat_eq_map
  intro i hi
  rw [hnext _ i hi, Fips180.Sha2.schedule.eq_1 p m i, if_neg (Nat.not_lt.mpr hi)]

/-- The working variables of the code as those of the standard. -/
def shaWork (toBits : α → BitVec w) (s : ShaWork α) : Fips180.Sha2.Work w :=
  ⟨toBits s.a, toBits s.b, toBits s.c, toBits s.d, toBits s.e, toBits s.f, toBits s.g, toBits s.h⟩

theorem compress_fips [Add α] [Zero α] (toBits : α → BitVec w) (hzero : toBits 0 = 0)
    (hadd : ∀ x y, toBits (x + y) = toBits x + toBits y) {blk : List Byte} {round : ShaWork α → Nat → ShaWork α}
    (hround : ∀ s, ∀ t < p.rounds, shaWork toBits (round s t) = p.step (Fips180.blockWord w blk) (shaWork toBits s) t)
    (h : List α) :
    (List.zipWith (· + ·) h ((List.range p.rounds).foldl round (ShaWork.ofList h)).toList).map toBits =
      p.compress (h.map toBits) blk := by
  have hrounds := foldl_hom_of_mem (shaWork toBits) (l := List.range p.rounds)
    (fun s t ht => hround s t (List.mem_range.mp ht))
  have hget : ∀ i, (h.map toBits).getD i 0 = toBits (h.getD i 0) := by
    intro i
    rw [← hzero, List.getD_map]
  have hstart : Fips180.Sha2.Work.ofList (h.map toBits) = shaWork toBits (ShaWork.ofList h) := by
    simp only [Fips180.Sha2.Work.ofList, shaWork, ShaWork.ofList, hget]
  rw [Fips180.Sha2.compress, hstart, ← hrounds, List.map_zipWith, List.zipWith_comm_of_comm BitVec.add_comm]
  generalize (List.range p.rounds).foldl round (ShaWork.ofList h) = s
  simp only [hadd]
  rw [show (shaWork toBits s).toList = s.toList.map toBits from rfl, List.zipWith_map]

end Sha2

theorem schedule_sum {w : Nat} (a b c d : BitVec w) : a + b + c + d = d + c + b + a := by ring

theorem getD_of_map {α β : Type} {toBits : α → β} {l : List α} {F : Nat → β} {n : Nat}
    (h : l.map toBits = (List.range n).map F) {t : Nat} (ht : t < n) (d : α) : toBits (l.getD t d) = F t := by
  rw [← List.getD_map l d toBits, h, getD_map_range _ ht]

/-- The word that `sha256_block` appends to its schedule. -/
def sha256Next (w : List UInt32) (i : Nat) : UInt32 :=
  let x := w.getD (i - 15) 0
  let y := w.getD (i - 2) 0
  let s0 := ror32 x 7 ^^^ ror32 x 18 ^^^ (x >>> 3)
  let s1 := ror32 y 17 ^^^ ror32 y 19 ^^^ (y >>> 10)
  w.getD (i - 16) 0 + s0 + w.getD (i - 7) 0 + s1

theorem sha256Schedule_fips (blk : List Byte) :
    sha256Schedule blk = (List.range 64).map fun t => ⟨Fips180.sha256Params.schedule (Fips180.blockWord 32 blk) t⟩ := by
  have hnext : ∀ (F : Nat → BitVec 32) (i : Nat), 16 ≤ i → sha256Next ((List.range i).map fun t => ⟨F t⟩) i =
      ⟨Fips180.sha256Params.smallSigma1 (F (i - 2)) + F (i - 7) + Fips180.sha256Params.smallSigma0 (F (i - 15)) +
        F (i - 16)⟩ := by
    intro F i hi
    rw [schedule_sum, sha256Next, getD_map_range _ (by omega), getD_map_range _ (by omega), getD_map_range _ (by omega),
      getD_map_range _ (by omega)]
    rfl
  exact schedule_fips rfl hnext 48

theorem k256_fips : k256.map UInt32.toBitVec = (List.range 64).map (Fips180.Sha2.k 32) := by
  show _ = (List.range _).map fun t => Fips180.fracRoot 3 32 (Fips180.primes.getD t 0)
  rw [Fips180.primes_eq]
  decide

theorem sha256Block_fips (h : List UInt32) (blk : List Byte) :
    (sha256Block h blk).map UInt32.toBitVec = Fips180.sha256Params.compress (h.map UInt32.toBitVec) blk := by
  have hround : ∀ s, ∀ t < Fips180.sha256Params.rounds, shaWork UInt32.toBitVec (sha256Round (sha256Schedule blk) s t) =
      Fips180.sha256Params.step (Fips180.blockWord 32 blk) (shaWork UInt32.toBitVec s) t := by
    intro s t ht
    have ht : t < 64 := ht
    rw [sha256Round, sha256Schedule_fips, getD_map_range _ ht, Fips180.Sha2.step, ← getD_of_map k256_fips ht 0]
    rfl
  exact compress_fips UInt32.toBitVec rfl (fun _ _ => rfl) hround h

/-- The word that `sha512_block` appends to its schedule. -/
def sha512Next (w : List UInt64) (i : Nat) : UInt64 :=
  let x := w.getD (i - 15) 0
  let y := w.getD (i - 2) 0
  let s0 := ror64 x 1 ^^^ ror64 x 8 ^^^ (x >>> 7)
  let s1 := ror64 y 19 ^^^ ror64 y 61 ^^^ (y >>> 6)
  w.getD (i - 16) 0 + s0 + w.getD (i - 7) 0 + s1

theorem sha512Schedule_fips (blk : List Byte) :
    sha512Schedule blk = (List.range 80).map fun t => ⟨Fips180.sha512Params.schedule (Fips180.blockWord 64 blk) t⟩ := by
  have hnext : ∀ (F : Nat → BitVec 64) (i : Nat), 16 ≤ i → sha512Next ((List.range i).map fun t => ⟨F t⟩) i =
      ⟨Fips180.sha512Params.smallSigma1 (F (i - 2)) + F (i - 7) + Fips180.sha512Params.smallSigma0 (F (i - 15)) +
        F (i - 16)⟩ := by
    intro F i hi
    rw [schedule_sum, sha512Next, getD_map_range _ (by omega), getD_map_range _ (by omega), getD_map_range _ (by omega),
      getD_map_range _ (by omega)]
    rfl
  exact schedule_fips rfl hnext 64

theorem k512_fips : k512.map UInt64.toBitVec = (List.range 80).map (Fips180.Sha2.k 64) := by
  show _ = (List.range _).map fun t => Fips180.fracRoot 3 64 (Fips180.primes.getD t 0)
  rw [Fips180.primes_eq]
  decide +kernel

theorem sha512Block_fips (h : List UInt64) (blk : List Byte) :
    (sha512Block h blk).map UInt64.toBitVec = Fips180.sha512Params.compress (h.map UInt64.toBitVec) blk := by
  have hround : ∀ s, ∀ t < Fips180.sha512Params.rounds, shaWork UInt64.toBitVec (sha512Round (sha512Schedule blk) s t) =
      Fips180.sha512Params.step (Fips180.blockWord 64 blk) (shaWork UInt64.toBitVec s) t := by
    intro s t ht
    have ht : t < 80 := ht
    rw [sha512Round, sha512Schedule_fips, getD_map_range _ ht, Fips180.Sha2.step, ← getD_of_map k512_fips ht 0]
    rfl
  exact compress_fips UInt64.toBitVec rfl (fun _ _ => rfl) hround h

/-! ## Digests -/

/-- The digest of the standard. -/
def fipsDigest : HashId → List Byte → List Byte
  | .sha1, m => MerkleDamgard.digest Fips180.sha1 m
  | .sha256, m => MerkleDamgard.digest Fips180.sha256 m
  | .sha512, m => MerkleDamgard.digest Fips180.sha512 m

theorem sha256Iv_fips : sha256Iv.map UInt32.toBitVec = Fips180.Sha2.iv 32 := by
  rw [Fips180.Sha2.iv, Fips180.primes_eq]
  decide

theorem sha512Iv_fips : sha512Iv.map UInt64.toBitVec = Fips180.Sha2.iv 64 := by
  rw [Fips180.Sha2.iv, Fips180.primes_eq]
  decide

theorem putBe32_fips (h : List UInt32) : putBe32 h = Fips180.putWords (h.map UInt32.toBitVec) := by
  rw [putBe32, Fips180.putWords, List.flatMap_map]
  rfl

theorem putBe64_fips (h : List UInt64) : putBe64 h = Fips180.putWords (h.map UInt64.toBitVec) := by
  rw [putBe64, Fips180.putWords, List.flatMap_map]
  rfl

theorem hashDigest_fips (id : HashId) (m : List Byte) : hashDigest id m = fipsDigest id m := by
  cases id with
  | sha1 =>
    exact MerkleDamgard.digest_hom (H := sha1Scheme) (G := Fips180.sha1) (List.map UInt32.toBitVec) rfl rfl rfl
      sha1Block_fips putBe32_fips m
  | sha256 =>
    exact MerkleDamgard.digest_hom (H := sha256Scheme) (G := Fips180.sha256) (List.map UInt32.toBitVec) rfl rfl
      sha256Iv_fips sha256Block_fips putBe32_fips m
  | sha512 =>
    exact MerkleDamgard.digest_hom (H := sha512Scheme) (G := Fips180.sha512) (List.map UInt64.toBitVec) rfl rfl
      sha512Iv_fips sha512Block_fips putBe64_fips m

end SakuruBoot

import SakuruBoot.Lib.CStr

/-!
# Integers in byte buffers

Big- and little-endian encodings of a given width, reading a slice of a buffer, overwriting one,
and the bytewise exclusive or of two buffers.
-/

namespace Bytes
open CStr (Byte)

/-- The `n` low-order bytes of `v`, least significant first. -/
def le : Nat → Nat → List Byte
  | 0, _ => []
  | n + 1, v => v.toUInt8 :: le n (v / 256)

/-- The `n` low-order bytes of `v`, most significant first. -/
def be (n v : Nat) : List Byte := (le n v).reverse

def leVal : List Byte → Nat
  | [] => 0
  | b :: bs => b.toNat + 256 * leVal bs

def beVal (bs : List Byte) : Nat := leVal bs.reverse

/-- `n` bytes of `buf` from offset `off`. -/
def slice (buf : List Byte) (off n : Nat) : List Byte := (buf.drop off).take n

/-- `buf` with `src` written over it at offset `off`. -/
def patch (buf : List Byte) (off : Nat) (src : List Byte) : List Byte :=
  buf.take off ++ src ++ buf.drop (off + src.length)

/-- `dst[i] ^= src[i]` over the shorter length. -/
def xorBytes (a b : List Byte) : List Byte := List.zipWith (· ^^^ ·) a b

/-- `buf` cut or zero-filled to exactly `n` bytes. -/
def fit (buf : List Byte) (n : Nat) : List Byte :=
  buf.take n ++ List.replicate (n - buf.length) 0

@[simp] theorem length_le (n v : Nat) : (le n v).length = n := by
  induction n generalizing v with
  | zero => rfl
  | succ n ih => simp [le, ih]

@[simp] theorem length_be (n v : Nat) : (be n v).length = n := by simp [be]

theorem leVal_le (n v : Nat) : leVal (le n v) = v % 256 ^ n := by
  induction n generalizing v with
  | zero => simp [le, leVal, Nat.mod_one]
  | succ n ih =>
    rw [le, leVal, ih, Nat.pow_succ', Nat.mod_mul]
    rfl

theorem le_split (m n v : Nat) : le (m + n) v = le m v ++ le n (v / 256 ^ m) := by
  induction m generalizing v with
  | zero => rw [Nat.zero_add, Nat.pow_zero, Nat.div_one, le, List.nil_append]
  | succ m ih => rw [Nat.succ_add, le, le, ih, List.cons_append, Nat.div_div_eq_div_mul, Nat.pow_succ']

theorem be_split (m n v : Nat) : be (m + n) v = be m (v / 256 ^ n) ++ be n v := by
  rw [be, Nat.add_comm, le_split, List.reverse_append, be, be]

theorem le_mod (n v : Nat) : le n (v % 256 ^ n) = le n v := by
  induction n generalizing v with
  | zero => rfl
  | succ n ih =>
    have hbyte : (v % 256 ^ (n + 1)).toUInt8 = v.toUInt8 := by
      rw [← UInt8.toNat_inj]
      exact Nat.mod_mod_of_dvd v (Dvd.intro_left (256 ^ n) rfl)
    rw [le, le, hbyte, Nat.pow_succ', Nat.mod_mul_right_div_self, ih]

theorem be_mod (n v : Nat) : be n (v % 256 ^ n) = be n v := congrArg List.reverse (le_mod n v)

theorem leVal_lt (bs : List Byte) : leVal bs < 256 ^ bs.length := by
  induction bs with
  | nil => simp [leVal]
  | cons b bs ih =>
    have hb : b.toNat < 256 := b.toNat_lt
    rw [leVal, List.length_cons, Nat.pow_succ']
    omega

theorem leVal_zeros (n : Nat) : leVal (List.replicate n 0) = 0 := by
  induction n with
  | zero => rfl
  | succ n ih => simp [List.replicate_succ, leVal, ih]

@[simp] theorem length_slice (buf : List Byte) (off n : Nat) :
    (slice buf off n).length = min n (buf.length - off) := by
  simp [slice]

@[simp] theorem length_xorBytes (a b : List Byte) : (xorBytes a b).length = min a.length b.length := by
  simp [xorBytes]

@[simp] theorem length_fit (buf : List Byte) (n : Nat) : (fit buf n).length = n := by
  simp only [fit, List.length_append, List.length_take, List.length_replicate]
  omega

theorem fit_of_length {buf : List Byte} {n : Nat} (h : buf.length = n) : fit buf n = buf := by
  subst h
  simp [fit]

/-! ## Slices and equal pieces -/

theorem patch_zero (buf src : List Byte) : patch buf 0 src = src ++ buf.drop src.length := by
  simp [patch]

theorem getElem?_patch {buf src : List Byte} {off : Nat} (h : off + src.length ≤ buf.length) (i : Nat) :
    (patch buf off src)[i]? = if off ≤ i ∧ i < off + src.length then src[i - off]? else buf[i]? := by
  have htake : (buf.take off).length = off := by rw [List.length_take]; omega
  rw [patch, List.append_assoc, List.getElem?_append, htake]
  by_cases h1 : i < off
  · rw [if_pos h1, if_neg (by omega), List.getElem?_take_of_lt h1]
  · rw [if_neg h1, List.getElem?_append]
    by_cases h2 : i - off < src.length
    · rw [if_pos h2, if_pos (by omega)]
    · rw [if_neg h2, if_neg (by omega), List.getElem?_drop]
      congr 1
      omega

theorem length_patch {buf src : List Byte} {off : Nat} (h : off + src.length ≤ buf.length) :
    (patch buf off src).length = buf.length := by
  rw [patch, List.length_append, List.length_append, List.length_take, List.length_drop]
  omega

theorem drop_patch {buf src : List Byte} {off : Nat} (h : off ≤ buf.length) :
    (patch buf off src).drop off = src ++ buf.drop (off + src.length) := by
  rw [patch, List.append_assoc, List.drop_left' (by rw [List.length_take]; omega)]

theorem length_le_patch {buf : List Byte} {off : Nat} (h : off ≤ buf.length) (src : List Byte) :
    buf.length ≤ (patch buf off src).length := by
  rw [patch, List.length_append, List.length_append, List.length_take, List.length_drop]
  omega

theorem patch_append (buf : List Byte) (off : Nat) (a b : List Byte) :
    patch (patch buf off a) (off + a.length) b = patch buf off (a ++ b) := by
  by_cases hoff : off ≤ buf.length
  · have hlen : (buf.take off ++ a).length = off + a.length := by simp [hoff]
    rw [patch, patch, patch, List.take_left' hlen, ← List.drop_drop, List.drop_left' hlen,
      List.drop_drop, List.length_append, List.append_assoc _ a b, Nat.add_assoc]
  · have hdrop : ∀ n, buf.drop (off + n) = [] := by
      intro n
      exact List.drop_of_length_le (by omega)
    have hlen : (buf.take off ++ a).length ≤ off + a.length := by simp
    rw [patch, patch, patch, hdrop, hdrop, List.append_nil, List.append_nil, List.take_of_length_le hlen,
      List.drop_of_length_le (by omega), List.append_nil, List.append_assoc]

theorem patch_at_end (done rest src : List Byte) :
    patch (done ++ rest) done.length src = done ++ src ++ rest.drop src.length := by
  rw [patch, List.take_left, ← List.drop_drop, List.drop_left]

theorem length_patch_zero (buf src : List Byte) :
    (patch buf 0 src).length = max src.length buf.length := by
  simp only [patch, List.take_zero, List.nil_append, List.length_append, List.length_drop]
  omega

theorem take_patch_zero (buf src : List Byte) (n : Nat) (hn : n ≤ src.length) :
    (patch buf 0 src).take n = src.take n := by
  simp [patch, List.take_append_of_le_length hn]

theorem slice_append_left {a : List Byte} {off n : Nat} (h : off + n ≤ a.length) (b : List Byte) :
    slice (a ++ b) off n = slice a off n := by
  rw [slice, slice, List.drop_append_of_le_length (by omega), List.take_append_of_le_length]
  rw [List.length_drop]
  omega

theorem slice_append_right {a : List Byte} {o : Nat} (h : a.length = o) (b : List Byte) (off n : Nat) :
    slice (a ++ b) (o + off) n = slice b off n := by
  rw [slice, slice, ← List.drop_drop, ← h, List.drop_left]

theorem slice_zero_left {a : List Byte} {n : Nat} (h : a.length = n) (b : List Byte) :
    slice (a ++ b) 0 n = a := by
  rw [slice, List.drop_zero, List.take_left' h]

theorem slice_slice {buf : List Byte} {o m off n : Nat} (h : off + n ≤ m) :
    slice (slice buf o m) off n = slice buf (o + off) n := by
  simp only [slice, List.drop_take, List.take_take, List.drop_drop]
  congr 1
  omega

theorem slice_take {buf : List Byte} {m off n : Nat} (h : off + n ≤ m) :
    slice (buf.take m) off n = slice buf off n := by
  simp only [slice, List.drop_take, List.take_take]
  congr 1
  omega

theorem slice_append_drop (buf : List Byte) (off n : Nat) :
    slice buf off n ++ buf.drop (off + n) = buf.drop off := by
  rw [slice, ← List.drop_drop, List.take_append_drop]

theorem slice_append_slice (buf : List Byte) (off n m : Nat) :
    slice buf off n ++ slice buf (off + n) m = slice buf off (n + m) := by
  rw [slice, slice, slice, List.take_add, List.drop_drop]

theorem fit_slice {buf : List Byte} {off n : Nat} (h : off + n ≤ buf.length) :
    fit (buf.drop off) n = slice buf off n := by
  rw [fit, slice, List.length_drop, Nat.sub_eq_zero_of_le (by omega)]
  simp

theorem length_flatMap_const {α : Type} {f : α → List Byte} {c : Nat} {l : List α}
    (hf : ∀ i ∈ l, (f i).length = c) : (l.flatMap f).length = c * l.length := by
  induction l with
  | nil => simp
  | cons i l ih =>
    rw [List.flatMap_cons, List.length_append, hf i (by simp), ih fun j hj => hf j (by simp [hj]),
      List.length_cons, Nat.mul_succ, Nat.add_comm]

theorem getD_map_range {α : Type} (F : Nat → α) {i j : Nat} (h : j < i) (d : α) :
    ((List.range i).map F).getD j d = F j := by
  rw [List.getD_eq_getElem _ _ (by rwa [List.length_map, List.length_range]), List.getElem_map, List.getElem_range]

theorem slice_flatMap_range {f : Nat → List Byte} {c n : Nat} (hf : ∀ i < n, (f i).length = c)
    {i : Nat} (hi : i < n) : slice ((List.range n).flatMap f) (c * i) c = f i := by
  have hlen : ((List.range i).flatMap f).length = c * i := by
    rw [length_flatMap_const fun j hj => hf j (by have := List.mem_range.mp hj; omega), List.length_range]
  obtain ⟨m, rfl⟩ : ∃ m, n = i + (m + 1) := ⟨n - i - 1, by omega⟩
  rw [List.range_add, List.flatMap_append, slice, ← hlen, List.drop_left, List.range_succ_eq_map,
    List.map_cons, List.flatMap_cons, Nat.add_zero, List.take_left' (hf i hi)]

theorem flatMap_slice (buf : List Byte) (c n : Nat) :
    (List.range n).flatMap (fun i => slice buf (c * i) c) = buf.take (c * n) := by
  induction n with
  | zero => simp
  | succ n ih =>
    rw [List.range_succ, List.flatMap_append, ih, List.flatMap_singleton, slice, Nat.mul_succ,
      ← List.take_add]

/-! ## Records -/

theorem leVal_field {a b : List Byte} {w off : Nat} (hoff : a.length = off) (x : Nat) :
    leVal (fit ((a ++ (le w x ++ b)).drop off) w) = x % 256 ^ w := by
  rw [List.drop_left' hoff, fit, List.take_left' (length_le w x), List.length_append, length_le,
    Nat.sub_eq_zero_of_le (by omega), List.replicate_zero, List.append_nil, leVal_le]

theorem map_records {α β : Type} {enc : α → List Byte} (dec : List Byte → β) (f : α → β) {w : Nat}
    (hlen : ∀ x, (enc x).length = w) (xs : List α)
    (hdec : ∀ x ∈ xs, ∀ rest, dec (enc x ++ rest) = f x) (tail : List Byte) :
    (List.range xs.length).map (fun i => dec ((xs.flatMap enc ++ tail).drop (w * i))) = xs.map f := by
  induction xs with
  | nil => rfl
  | cons x xs ih =>
    rw [List.length_cons, List.range_succ_eq_map, List.map_cons, List.map_map, List.map_cons,
      List.flatMap_cons, List.append_assoc, Nat.mul_zero, List.drop_zero, hdec x (by simp)]
    congr 1
    rw [← ih fun y hy => hdec y (by simp [hy])]
    refine List.map_congr_left fun i _ => ?_
    rw [Function.comp_apply, Nat.mul_succ, Nat.add_comm, ← hlen x, ← List.drop_drop, List.drop_left]

end Bytes

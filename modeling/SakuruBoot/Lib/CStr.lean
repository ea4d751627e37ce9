import Mathlib

/-!
# Byte buffers read as C strings, and fixed-width integers

A pointer into a character buffer is the list of bytes from that position on. Reading `*p` at the
end of the list gives the terminating NUL, so a list without a NUL is a terminated string of the
same length, and a list with one is a string that ends early.

`u8`, `u32`, `u64` and `i32` reduce an exact integer to the C type of that width.
-/

namespace CStr

abbrev Byte := UInt8

/-- The bytes of an ASCII literal. -/
def lit (s : String) : List Byte := s.toList.map fun c => c.toNat.toUInt8

/-- `*p`. -/
def deref (p : List Byte) : Byte := p.headD 0

/-- The bytes a loop `while (*p && f(*p)) p++` passes over. -/
def takeC (f : Byte → Bool) (p : List Byte) : List Byte := p.takeWhile fun c => c != 0 && f c

/-- Where a loop `while (*p && f(*p)) p++` stops. -/
def dropC (f : Byte → Bool) (p : List Byte) : List Byte := p.dropWhile fun c => c != 0 && f c

/-- The string a pointer denotes. -/
def str (p : List Byte) : List Byte := takeC (fun _ => true) p

/-- `int` comparison loop `while (*a && *b && *a == *b)`, true when both strings ended. -/
def strEq : List Byte → List Byte → Bool
  | [], b => deref b == 0
  | x :: _, [] => x == 0
  | x :: a, y :: b => if x != 0 && y != 0 && x == y then strEq a b else x == 0 && y == 0

/-- Whether the string at `p` starts with `pre` (which holds no NUL). -/
def strStarts : List Byte → List Byte → Bool
  | _, [] => true
  | p, c :: pre => deref p == c && strStarts p.tail pre

/-- Copy into a buffer of `max` bytes, always leaving room for the NUL. -/
def strCopy (src : List Byte) (max : Nat) : List Byte := (str src).take (max - 1)

theorem takeC_append_dropC (f : Byte → Bool) (p : List Byte) : takeC f p ++ dropC f p = p :=
  List.takeWhile_append_dropWhile

theorem length_dropC_le (f : Byte → Bool) (p : List Byte) : (dropC f p).length ≤ p.length :=
  (List.dropWhile_sublist _).length_le

theorem mem_takeC {f : Byte → Bool} {p : List Byte} {c : Byte} (h : c ∈ takeC f p) :
    c ≠ 0 ∧ f c = true := by
  have := List.mem_takeWhile_imp h
  simpa using this

@[simp] theorem str_nil : str [] = [] := rfl

theorem str_cons (x : Byte) (p : List Byte) : str (x :: p) = if x = 0 then [] else x :: str p := by
  by_cases hx : x = 0 <;> simp [str, takeC, hx]

theorem str_of_no_nul {p : List Byte} (h : ∀ c ∈ p, c ≠ 0) : str p = p := by
  rw [str, takeC, List.takeWhile_eq_self_iff]
  intro c hc
  simpa using h c hc

theorem length_str_le (p : List Byte) : (str p).length ≤ p.length := (List.takeWhile_sublist _).length_le

theorem str_take (n : Nat) (p : List Byte) : str (p.take n) = (str p).take n := List.take_takeWhile.symm

theorem str_str (p : List Byte) : str (str p) = str p := str_of_no_nul fun _ hc => (mem_takeC hc).1

theorem str_append_of_no_nul {a : List Byte} (ha : ∀ c ∈ a, c ≠ 0) (b : List Byte) : str (a ++ b) = a ++ str b := by
  rw [str, takeC, List.takeWhile_append_of_pos fun c hc => by simpa using ha c hc]
  rfl

theorem strEq_iff (a b : List Byte) : strEq a b = true ↔ str a = str b := by
  induction a generalizing b with
  | nil =>
    cases b with
    | nil => simp [strEq, deref]
    | cons y b => by_cases hy : y = 0 <;> simp [strEq, deref, str_cons, hy]
  | cons x a ih =>
    cases b with
    | nil => by_cases hx : x = 0 <;> simp [strEq, str_cons, hx]
    | cons y b =>
      by_cases hx : x = 0 <;> by_cases hy : y = 0 <;> by_cases hxy : x = y <;>
        simp_all [strEq, str_cons]

theorem strStarts_append (a b : List Byte) : strStarts (a ++ b) a = true := by
  induction a with
  | nil => simp [strStarts]
  | cons x a ih => simpa [strStarts, deref] using ih

theorem strStarts_eq_append {p w : List Byte} (hw : ∀ c ∈ w, c ≠ 0) (h : strStarts p w = true) :
    ∃ rest, p = w ++ rest := by
  induction w generalizing p with
  | nil => exact ⟨p, rfl⟩
  | cons c w ih =>
    cases p with
    | nil =>
      have hc : c ≠ 0 := hw c List.mem_cons_self
      simp [strStarts, deref, Ne.symm hc] at h
    | cons x p =>
      rw [strStarts, Bool.and_eq_true, beq_iff_eq] at h
      obtain ⟨rest, hrest⟩ := ih (fun c hc => hw c (List.mem_cons_of_mem _ hc)) h.2
      have hx : x = c := h.1
      exact ⟨rest, by rw [hx, List.cons_append, ← hrest]; rfl⟩

theorem strStarts_iff {p w : List Byte} (hw : ∀ c ∈ w, c ≠ 0) : strStarts p w = true ↔ w <+: p := by
  constructor
  · intro h
    obtain ⟨rest, rfl⟩ := strStarts_eq_append hw h
    exact List.prefix_append w rest
  · rintro ⟨rest, rfl⟩
    exact strStarts_append w rest

theorem length_strCopy_le (src : List Byte) (max : Nat) : (strCopy src max).length ≤ max - 1 := by
  simp only [strCopy, List.length_take]
  omega

/-! ## Fixed-width integers -/

def u8 (n : Nat) : Nat := n % 2 ^ 8
def u32 (n : Nat) : Nat := n % 2 ^ 32
def u64 (n : Nat) : Nat := n % 2 ^ 64

/-- Reduction to a 32-bit two's-complement `int`. -/
def i32 (n : Int) : Int := n.bmod (2 ^ 32)

/-- An `int` converted to an unsigned 32-bit value. -/
def toU32 (n : Int) : Nat := (n % 2 ^ 32).toNat

theorem i32_of_bounds {n : Int} (hlo : -2 ^ 31 ≤ n) (hhi : n < 2 ^ 31) : i32 n = n := by
  unfold i32
  rw [Int.bmod_eq_of_le] <;> omega

theorem toU32_of_bounds {n : Int} (hlo : 0 ≤ n) (hhi : n < 2 ^ 32) : (toU32 n : Int) = n := by
  unfold toU32
  omega

end CStr

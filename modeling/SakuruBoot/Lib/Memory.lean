import SakuruBoot.Lib.Bytes

/-!
# A flat 64-bit memory

Bytes at addresses below `2 ^ 64`, and with them a record of every address read and written. Address arithmetic wraps
around: `InRange start len` are the addresses of `len` bytes from `start` on. `copy` and `set` are the byte loops of
`memcpy` and `memset`; what they touch and what they leave alone is stated with `InRange`.
-/

namespace Memory
open CStr Bytes

structure Machine where
  mem : Nat → Byte
  reads : List Nat
  writes : List Nat

/-- One of the `len` addresses from `start` on. -/
def InRange (start len a : Nat) : Prop := ∃ k < len, a = u64 (start + k)

/-- The little-endian number in `n` bytes at `a`. -/
def word (mem : Nat → Byte) (a n : Nat) : Nat := leVal ((List.range n).map fun k => mem (u64 (a + k)))

namespace Machine

/-- The machine behind a read of `n` bytes. -/
def seen (m : Machine) (a n : Nat) : Machine :=
  { m with reads := m.reads ++ (List.range n).map fun k => u64 (a + k) }

/-- Read an `n`-byte number. -/
def rd (m : Machine) (a n : Nat) : Nat × Machine := (word m.mem a n, m.seen a n)

def wr (m : Machine) (a : Nat) (b : Byte) : Machine :=
  { m with mem := Function.update m.mem (u64 a) b, writes := m.writes ++ [u64 a] }

/-- `for (i = 0; i < n; i++) dst[i] = src[i]`. -/
def copy (m : Machine) (dst src n : Nat) : Machine :=
  (List.range n).foldl (fun m i => (m.seen (src + i) 1).wr (dst + i) (m.mem (u64 (src + i)))) m

/-- `for (i = 0; i < n; i++) dst[i] = src[i]`, where `src` is not in this memory. -/
def fill (m : Machine) (dst : Nat) (src : Nat → Byte) (n : Nat) : Machine :=
  (List.range n).foldl (fun m i => m.wr (dst + i) (src i)) m

/-- `for (i = 0; i < n; i++) dst[i] = b`. -/
def set (m : Machine) (dst : Nat) (b : Byte) (n : Nat) : Machine := m.fill dst (fun _ => b) n

/-- Write an `n`-byte number. -/
def wrInt (m : Machine) (a n v : Nat) : Machine := m.fill a (fun i => (le n v).getD i 0) n

end Machine

variable {m : Machine} {start len a : Nat}

theorem inRange_succ {n : Nat} : InRange start (n + 1) a ↔ InRange start n a ∨ a = u64 (start + n) := by
  constructor
  · rintro ⟨k, hk, rfl⟩
    rcases Nat.lt_succ_iff_lt_or_eq.mp hk with hlt | rfl
    · exact .inl ⟨k, hlt, rfl⟩
    · exact .inr rfl
  · rintro (⟨k, hk, rfl⟩ | rfl)
    · exact ⟨k, by omega, rfl⟩
    · exact ⟨n, by omega, rfl⟩

theorem InRange.mono {n n' : Nat} (h : InRange start n a) (hn : n ≤ n') : InRange start n' a := by
  obtain ⟨k, hk, rfl⟩ := h
  exact ⟨k, by omega, rfl⟩

theorem InRange.within {off n : Nat} (h : InRange (start + off) n a) (hn : off + n ≤ len) : InRange start len a := by
  obtain ⟨k, hk, rfl⟩ := h
  exact ⟨off + k, by omega, by rw [Nat.add_assoc]⟩

theorem inRange_zero : ¬InRange start 0 a := fun ⟨k, hk, _⟩ => Nat.not_lt_zero k hk

theorem inRange_add {n n' : Nat} : InRange start (n + n') a ↔ InRange start n a ∨ InRange (start + n) n' a := by
  induction n' with
  | zero => exact ⟨.inl, fun h => h.resolve_right inRange_zero⟩
  | succ n' ih => rw [← Nat.add_assoc, inRange_succ, ih, inRange_succ, or_assoc, Nat.add_assoc start]

theorem inRange_iff (hfit : start + len ≤ 2 ^ 64) : InRange start len a ↔ start ≤ a ∧ a < start + len := by
  constructor
  · rintro ⟨k, hk, rfl⟩
    rw [u64, Nat.mod_eq_of_lt (by omega)]
    omega
  · rintro ⟨hlo, hhi⟩
    refine ⟨a - start, by omega, ?_⟩
    rw [u64, Nat.mod_eq_of_lt (by omega)]
    omega

theorem word_congr {mem mem' : Nat → Byte} {n : Nat} (h : ∀ b, InRange a n b → mem b = mem' b) :
    word mem a n = word mem' a n := by
  rw [word, word]
  congr 1
  refine List.map_congr_left fun k hk => ?_
  exact h _ ⟨k, List.mem_range.mp hk, rfl⟩

theorem word_lt (mem : Nat → Byte) (a n : Nat) : word mem a n < 256 ^ n := by
  have h := leVal_lt ((List.range n).map fun k => mem (u64 (a + k)))
  rwa [List.length_map, List.length_range] at h

@[simp] theorem seen_mem (n : Nat) : (m.seen a n).mem = m.mem := rfl
@[simp] theorem seen_writes (n : Nat) : (m.seen a n).writes = m.writes := rfl

@[simp] theorem wr_mem_self (b : Byte) : (m.wr a b).mem (u64 a) = b := Function.update_self ..
theorem wr_mem_of_ne {b : Byte} {c : Nat} (h : c ≠ u64 a) : (m.wr a b).mem c = m.mem c := Function.update_of_ne h ..
@[simp] theorem wr_reads (b : Byte) : (m.wr a b).reads = m.reads := rfl
@[simp] theorem wr_writes (b : Byte) : (m.wr a b).writes = m.writes ++ [u64 a] := rfl

theorem mem_seen_reads {n b : Nat} : b ∈ (m.seen a n).reads ↔ b ∈ m.reads ∨ InRange a n b := by
  rw [Machine.seen, List.mem_append, List.mem_map]
  refine or_congr_right ⟨?_, ?_⟩
  · rintro ⟨k, hk, rfl⟩
    exact ⟨k, List.mem_range.mp hk, rfl⟩
  · rintro ⟨k, hk, rfl⟩
    exact ⟨k, List.mem_range.mpr hk, rfl⟩

/-! ## Copying -/

theorem copy_succ (dst src n : Nat) : m.copy dst src (n + 1) =
    ((m.copy dst src n).seen (src + n) 1).wr (dst + n) ((m.copy dst src n).mem (u64 (src + n))) := by
  rw [Machine.copy, List.range_succ, List.foldl_append]
  rfl

theorem mem_copy_reads {dst src n b : Nat} : b ∈ (m.copy dst src n).reads ↔ b ∈ m.reads ∨ InRange src n b := by
  induction n with
  | zero => exact ⟨.inl, fun h => h.resolve_right inRange_zero⟩
  | succ n ih =>
    have hone : InRange (src + n) 1 b ↔ b = u64 (src + n) := by
      rw [inRange_succ]
      exact ⟨fun h => h.resolve_left inRange_zero, .inr⟩
    rw [copy_succ, inRange_succ, ← or_assoc, ← ih, ← hone]
    exact mem_seen_reads

theorem mem_copy_writes {dst src n b : Nat} : b ∈ (m.copy dst src n).writes ↔ b ∈ m.writes ∨ InRange dst n b := by
  induction n with
  | zero => exact ⟨.inl, fun h => h.resolve_right inRange_zero⟩
  | succ n ih =>
    rw [copy_succ, inRange_succ, ← or_assoc, ← ih, wr_writes, List.mem_append, List.mem_singleton, seen_writes]

theorem copy_mem_other {dst src n b : Nat} (hb : ¬InRange dst n b) : (m.copy dst src n).mem b = m.mem b := by
  induction n with
  | zero => rfl
  | succ n ih =>
    rw [inRange_succ, not_or] at hb
    rw [copy_succ, wr_mem_of_ne hb.2, seen_mem, ih hb.1]

theorem u64_add_ne {dst n k : Nat} (hn : n < 2 ^ 64) (hk : k < n) : u64 (dst + k) ≠ u64 (dst + n) := by
  simp only [u64]
  omega

/-- A copy that does not overwrite its source. -/
theorem copy_mem {dst src n k : Nat} (hn : n ≤ 2 ^ 64) (hsep : ∀ b, InRange src n b → ¬InRange dst n b) (hk : k < n) :
    (m.copy dst src n).mem (u64 (dst + k)) = m.mem (u64 (src + k)) := by
  induction n with
  | zero => exact absurd hk (Nat.not_lt_zero k)
  | succ n ih =>
    have hsep' : ∀ b, InRange src n b → ¬InRange dst n b :=
      fun b hb hb' => hsep b (hb.mono (Nat.le_succ n)) (hb'.mono (Nat.le_succ n))
    rw [copy_succ]
    rcases Nat.lt_succ_iff_lt_or_eq.mp hk with hlt | rfl
    · rw [wr_mem_of_ne (u64_add_ne (by omega) hlt), seen_mem, ih (by omega) hsep' hlt]
    · rw [wr_mem_self]
      -- the source byte is still the old one
      exact copy_mem_other fun h => hsep _ ⟨k, hk, rfl⟩ (h.mono (Nat.le_succ k))

/-! ## Filling -/

section
variable {dst n b : Nat} {src : Nat → Byte}

theorem fill_succ : m.fill dst src (n + 1) = (m.fill dst src n).wr (dst + n) (src n) := by
  rw [Machine.fill, List.range_succ, List.foldl_append]
  rfl

@[simp] theorem fill_reads : (m.fill dst src n).reads = m.reads := by
  induction n with
  | zero => rfl
  | succ n ih => rw [fill_succ, wr_reads, ih]

theorem mem_fill_writes : b ∈ (m.fill dst src n).writes ↔ b ∈ m.writes ∨ InRange dst n b := by
  induction n with
  | zero => exact ⟨.inl, fun h => h.resolve_right inRange_zero⟩
  | succ n ih => rw [fill_succ, inRange_succ, ← or_assoc, ← ih, wr_writes, List.mem_append, List.mem_singleton]

theorem fill_mem_other (hb : ¬InRange dst n b) : (m.fill dst src n).mem b = m.mem b := by
  induction n with
  | zero => rfl
  | succ n ih =>
    rw [inRange_succ, not_or] at hb
    rw [fill_succ, wr_mem_of_ne hb.2, ih hb.1]

theorem fill_mem {k : Nat} (hn : n ≤ 2 ^ 64) (hk : k < n) : (m.fill dst src n).mem (u64 (dst + k)) = src k := by
  induction n with
  | zero => exact absurd hk (Nat.not_lt_zero k)
  | succ n ih =>
    rw [fill_succ]
    rcases Nat.lt_succ_iff_lt_or_eq.mp hk with hlt | rfl
    · rw [wr_mem_of_ne (u64_add_ne (by omega) hlt), ih (by omega) hlt]
    · rw [wr_mem_self]

theorem set_mem_other {v : Byte} (hb : ¬InRange dst n b) : (m.set dst v n).mem b = m.mem b := fill_mem_other hb

/-- All bytes are the same, so it does not matter how often the range wraps around. -/
theorem set_mem {v : Byte} (hb : InRange dst n b) : (m.set dst v n).mem b = v := by
  rw [Machine.set]
  induction n with
  | zero => exact absurd hb inRange_zero
  | succ n ih =>
    rw [fill_succ]
    by_cases h : b = u64 (dst + n)
    · rw [h, wr_mem_self]
    · rw [wr_mem_of_ne h]
      exact ih ((inRange_succ.mp hb).resolve_right h)

end

/-! ## Writes to fixed addresses -/

section
variable {dst n : Nat} {src : Nat → Byte} {b : Byte}

theorem fill_mem_eq (hfit : dst + n ≤ 2 ^ 64) :
    (m.fill dst src n).mem a = if dst ≤ a ∧ a < dst + n then src (a - dst) else m.mem a := by
  split
  · rename_i hin
    have h : (m.fill dst src n).mem (u64 (dst + (a - dst))) = src (a - dst) := fill_mem (by omega) (by omega)
    rwa [u64, Nat.mod_eq_of_lt (by omega), Nat.add_sub_cancel' hin.1] at h
  · rename_i hout
    exact fill_mem_other (mt (inRange_iff hfit).mp hout)

theorem wr_mem_eq (hfit : dst < 2 ^ 64) : (m.wr dst b).mem a = if a = dst then b else m.mem a := by
  have hdst : u64 dst = dst := Nat.mod_eq_of_lt hfit
  split
  · rename_i heq
    have h : (m.wr dst b).mem (u64 dst) = b := wr_mem_self b
    rw [hdst] at h
    rw [heq, h]
  · rename_i hne
    exact wr_mem_of_ne (by rwa [hdst])

theorem word_of_bytes {mem : Nat → Byte} {v : Nat} (hfit : a + n ≤ 2 ^ 64) (hv : v < 256 ^ n)
    (h : ∀ i < n, mem (a + i) = (le n v).getD i 0) : word mem a n = v := by
  rw [← Nat.mod_eq_of_lt hv, ← leVal_le, word]
  congr 1
  refine List.ext_getElem (by simp) fun i hi hi' => ?_
  have hin : i < n := by simpa using hi
  rw [List.getElem_map, List.getElem_range, u64, Nat.mod_eq_of_lt (by omega), h i hin, List.getD_eq_getElem]

end

/-! ## The record only grows -/

/-- `m'` comes after `m`. -/
structure Later (m m' : Machine) : Prop where
  reads : ∀ a ∈ m.reads, a ∈ m'.reads
  writes : ∀ a ∈ m.writes, a ∈ m'.writes

theorem Later.refl (m : Machine) : Later m m := ⟨fun _ h => h, fun _ h => h⟩

theorem Later.trans {m₁ m₂ m₃ : Machine} (h : Later m₁ m₂) (h' : Later m₂ m₃) : Later m₁ m₃ :=
  ⟨fun a ha => h'.reads a (h.reads a ha), fun a ha => h'.writes a (h.writes a ha)⟩

theorem later_seen (a n : Nat) : Later m (m.seen a n) := ⟨fun _ h => mem_seen_reads.mpr (.inl h), fun _ h => h⟩

theorem later_copy (dst src n : Nat) : Later m (m.copy dst src n) :=
  ⟨fun _ h => mem_copy_reads.mpr (.inl h), fun _ h => mem_copy_writes.mpr (.inl h)⟩

theorem later_fill (dst : Nat) (src : Nat → Byte) (n : Nat) : Later m (m.fill dst src n) :=
  ⟨fun a h => by rwa [fill_reads], fun _ h => mem_fill_writes.mpr (.inl h)⟩

end Memory

import SakuruBoot.Common.Menu
import SakuruBoot.Lib.Buffer
import SakuruBoot.Lib.Lines

/-!
# The passphrase prompt (`common/passphrase.c`)

`passphraseReadMem` on a list of `read_key` results, with every write checked against the buffer. What is printed is left
out. It is a line editor: between two keys the buffer holds the edited line and zeros behind it (`Edits`), so nothing
that was taken back is left in it (`passphraseReadMem_spec`).
-/

namespace SakuruBoot
open CStr

def keyEsc : Int := 0x1b

/-- The locals of `passphrase_read` over a buffer of `buf_max` bytes. -/
structure PassMem (max : Nat) where
  buf : Buffer Byte max
  len : Nat

/-- `passphrase_wipe` from byte `i` on, with `count` bytes left. -/
def passphraseWipeMem {max : Nat} : Nat → Nat → Buffer Byte max → Option (Buffer Byte max)
  | 0, _, buf => some buf
  | count + 1, i, buf => do
    let buf ← buf.write i 0
    passphraseWipeMem count (i + 1) buf

def passphraseKeyMem {max : Nat} (s : PassMem max) (k : Int) : Option (PassMem max) :=
  if k = 0x08 ∨ k = 0x7f then
    if 0 < s.len then do
      let buf ← s.buf.write (s.len - 1) 0
      some { buf := buf, len := s.len - 1 }
    else some s
  else if 0x20 ≤ k ∧ k ≤ 0x7e ∧ s.len + 1 < max then do
    let buf ← s.buf.write s.len k.toNat.toUInt8
    let buf ← buf.write (s.len + 1) 0
    some { buf := buf, len := s.len + 1 }
  else some s

/-- The buffer after the keys and what `passphrase_read` returned, when it has; `none` for a write outside the
buffer. -/
def passphraseLoopMem {max : Nat} : List Int → PassMem max → Option (Buffer Byte max × Option Nat)
  | [], s => some (s.buf, none)
  | k :: keys, s =>
    if k < 0 then passphraseLoopMem keys s
    else if k = keyEnter then some (s.buf, some s.len)
    else if k = keyEsc then do
      let buf ← passphraseWipeMem max 0 s.buf
      some (buf, some 0)
    else do
      let s ← passphraseKeyMem s k
      passphraseLoopMem keys s

def passphraseReadMem {max : Nat} (buf : Buffer Byte max) (keys : List Int) : Option (Buffer Byte max × Option Nat) :=
  passphraseLoopMem keys { buf := buf, len := 0 }

/-- The bytes entered, or nothing while neither Enter nor Escape has come. -/
def passphraseRead {max : Nat} (buf : Buffer Byte max) (keys : List Int) : Option (List Byte) :=
  (passphraseReadMem buf keys).bind fun r => r.2.map r.1.data.take

/-! ## The edited line -/

/-- The line after a key that neither ends nor cancels it. -/
def editLine (max : Nat) (line : List Byte) (k : Int) : List Byte :=
  if k = 0x08 ∨ k = 0x7f then line.dropLast
  else if 0x20 ≤ k ∧ k ≤ 0x7e ∧ line.length < max - 1 then line ++ [k.toNat.toUInt8]
  else line

def editedLine (max : Nat) (keys : List Int) : List Byte := keys.foldl (editLine max) []

/-- The buffer holds the line and zeros behind it. -/
structure Edits {max : Nat} (s : PassMem max) (line : List Byte) : Prop where
  len_eq : s.len = line.length
  data_eq : s.buf.data = line ++ List.replicate (max - line.length) 0
  length_lt : line.length < max

variable {max : Nat}

theorem edits_start (hmax : 1 ≤ max) : Edits ({ buf := Buffer.fill max 0, len := 0 } : PassMem max) [] :=
  ⟨rfl, rfl, hmax⟩

theorem set_dropLast {line : List Byte} (hne : line ≠ []) (n : Nat) :
    (line ++ List.replicate n 0).set (line.length - 1) 0 = line.dropLast ++ List.replicate (n + 1) 0 := by
  have hpos := List.length_pos_iff.mpr hne
  conv_lhs => rw [← List.dropLast_append_getLast hne, List.append_assoc]
  rw [List.set_append_right _ _ (by simp), List.length_append, List.length_dropLast, List.length_singleton,
    Nat.add_sub_cancel, Nat.sub_self, List.singleton_append, List.set_cons_zero, List.replicate_succ]

theorem passphraseKeyMem_edits {s : PassMem max} {line : List Byte} (h : Edits s line) (k : Int) :
    ∃ t, passphraseKeyMem s k = some t ∧ Edits t (editLine max line k) := by
  obtain ⟨hlen, hdata, hlt⟩ := h
  unfold passphraseKeyMem editLine
  by_cases hback : k = 0x08 ∨ k = 0x7f
  · rw [if_pos hback, if_pos hback]
    by_cases hpos : 0 < s.len
    · obtain ⟨buf, hwrite, hbuf⟩ := Buffer.write_of_lt (b := s.buf) (i := s.len - 1) (by omega) 0
      have hne : line ≠ [] := by
        rintro rfl
        rw [hlen] at hpos
        exact absurd hpos (lt_irrefl 0)
      have hline := List.length_pos_iff.mpr hne
      have hroom : max - line.dropLast.length = max - line.length + 1 := by
        rw [List.length_dropLast]
        omega
      rw [if_pos hpos, hwrite]
      refine ⟨_, rfl, ?_, ?_, ?_⟩
      · rw [List.length_dropLast, hlen]
      · rw [hbuf, hdata, hlen, hroom]
        exact set_dropLast hne _
      · rw [List.length_dropLast]
        omega
    · have hnil : line = [] := List.length_eq_zero_iff.mp (by omega)
      subst hnil
      rw [if_neg hpos]
      exact ⟨s, rfl, hlen, hdata, hlt⟩
  · rw [if_neg hback, if_neg hback, hlen]
    by_cases hprint : 0x20 ≤ k ∧ k ≤ 0x7e ∧ line.length + 1 < max
    · obtain ⟨buf, hwrite, hbuf⟩ := Buffer.write_of_lt (b := s.buf) (i := line.length) hlt k.toNat.toUInt8
      obtain ⟨buf', hwrite', hbuf'⟩ := Buffer.write_of_lt (b := buf) (i := line.length + 1) hprint.2.2 0
      obtain ⟨n, hn⟩ : ∃ n, max - line.length = n + 2 := ⟨max - line.length - 2, by omega⟩
      have hroom : max - (line ++ [k.toNat.toUInt8]).length = n + 1 := by
        rw [List.length_append, List.length_singleton]
        omega
      rw [if_pos hprint, if_pos ⟨hprint.1, hprint.2.1, by omega⟩, hwrite]
      simp only [Option.bind_eq_bind, Option.bind_some, hwrite']
      refine ⟨_, rfl, ?_, ?_, ?_⟩
      · rw [List.length_append, List.length_singleton]
      · -- the NUL behind the new character is there already
        rw [hbuf', hbuf, hdata, hn, hroom, List.set_append_right _ _ (le_refl _), Nat.sub_self,
          List.set_append_right _ _ (by omega), Nat.add_sub_cancel_left]
        simp [List.replicate_succ]
      · rw [List.length_append, List.length_singleton]
        exact hprint.2.2
    · rw [if_neg hprint, if_neg (by omega)]
      exact ⟨s, rfl, hlen, hdata, hlt⟩

theorem passphraseWipeMem_spec (count : Nat) {i : Nat} {buf : Buffer Byte max} (h : i + count = max)
    (hdone : buf.data.take i = List.replicate i 0) :
    passphraseWipeMem count i buf = some (Buffer.fill max 0) := by
  induction count generalizing i buf with
  | zero =>
    have hall : buf.data = List.replicate max 0 := by
      rw [← List.take_of_length_le (l := buf.data) (i := i) (by rw [buf.length_eq]; omega), hdone]
      exact congrArg (List.replicate · 0) h
    exact congrArg some (Buffer.ext_data hall)
  | succ count ih =>
    obtain ⟨buf', hwrite, hdata⟩ := Buffer.write_of_lt (b := buf) (i := i) (by omega) 0
    have hnext : buf'.data.take (i + 1) = List.replicate (i + 1) 0 := by
      rw [hdata, List.take_set, List.take_add_one, hdone, List.replicate_succ', List.set_append_right _ _ (by simp),
        List.length_replicate, Nat.sub_self]
      have hi : i < buf.data.length := by rw [buf.length_eq]; omega
      rw [List.getElem?_eq_getElem hi]
      rfl
    unfold passphraseWipeMem
    rw [hwrite]
    exact ih (by omega) hnext

/-- Keys that neither end nor cancel edit the line. -/
theorem passphraseLoopMem_edits {pre : List Int} (hpre : ∀ k ∈ pre, k ≠ keyEnter ∧ k ≠ keyEsc) (rest : List Int)
    {s : PassMem max} {line : List Byte} (h : Edits s line) :
    ∃ t, passphraseLoopMem (pre ++ rest) s = passphraseLoopMem rest t ∧ Edits t (pre.foldl (editLine max) line) := by
  induction pre generalizing s line with
  | nil => exact ⟨s, rfl, h⟩
  | cons k pre ih =>
    have hrest : ∀ k ∈ pre, k ≠ keyEnter ∧ k ≠ keyEsc := fun k hk => hpre k (List.mem_cons_of_mem _ hk)
    obtain ⟨henter, hesc⟩ := hpre k List.mem_cons_self
    rw [List.cons_append, passphraseLoopMem, List.foldl_cons]
    by_cases hneg : k < 0
    · have hsame : editLine max line k = line := by
        rw [editLine, if_neg (by omega), if_neg (by omega)]
      rw [if_pos hneg, hsame]
      exact ih hrest h
    · obtain ⟨t, hkey, ht⟩ := passphraseKeyMem_edits h k
      rw [if_neg hneg, if_neg henter, if_neg hesc, hkey]
      exact ih hrest ht

/-- No write is outside the buffer. Enter returns the length of the edited line and leaves the line with zeros behind
it; Escape returns 0 and leaves zeros. -/
theorem passphraseReadMem_spec (hmax : 1 ≤ max) :
    (∀ keys, (passphraseReadMem (Buffer.fill max 0) keys).isSome = true) ∧
      ∀ pre rest : List Int, (∀ k ∈ pre, k ≠ keyEnter ∧ k ≠ keyEsc) →
        (∃ buf, passphraseReadMem (Buffer.fill max 0) (pre ++ keyEnter :: rest) =
            some (buf, some (editedLine max pre).length) ∧
          buf.data = editedLine max pre ++ List.replicate (max - (editedLine max pre).length) 0) ∧
        passphraseReadMem (Buffer.fill max 0) (pre ++ keyEsc :: rest) = some (Buffer.fill max 0, some 0) := by
  have hstart := edits_start hmax
  have hends : ∀ pre rest : List Int, (∀ k ∈ pre, k ≠ keyEnter ∧ k ≠ keyEsc) →
      (∃ buf, passphraseReadMem (Buffer.fill max 0) (pre ++ keyEnter :: rest) =
          some (buf, some (editedLine max pre).length) ∧
        buf.data = editedLine max pre ++ List.replicate (max - (editedLine max pre).length) 0) ∧
      passphraseReadMem (Buffer.fill max 0) (pre ++ keyEsc :: rest) = some (Buffer.fill max 0, some 0) := by
    intro pre rest hpre
    constructor
    · obtain ⟨t, hloop, ht⟩ := passphraseLoopMem_edits hpre (keyEnter :: rest) hstart
      refine ⟨t.buf, ?_, ht.data_eq⟩
      rw [passphraseReadMem, hloop, passphraseLoopMem, if_neg (by decide), if_pos rfl, ht.len_eq]
      rfl
    · obtain ⟨t, hloop, -⟩ := passphraseLoopMem_edits hpre (keyEsc :: rest) hstart
      rw [passphraseReadMem, hloop, passphraseLoopMem, if_neg (by decide), if_neg (by decide), if_pos rfl,
        passphraseWipeMem_spec max (Nat.zero_add max) rfl]
      rfl
  refine ⟨?_, hends⟩
  intro keys
  -- either all keys edit, or one is the first to end or cancel
  rcases Lines.split_cases (fun k : Int => k = keyEnter || k = keyEsc) keys with hall | ⟨pre, k, rest, hpre, hk, rfl⟩
  · obtain ⟨t, hloop, -⟩ := passphraseLoopMem_edits (fun k hk => by simpa using hall k hk) [] hstart
    rw [List.append_nil] at hloop
    rw [passphraseReadMem, hloop]
    rfl
  · obtain ⟨⟨buf, henter, -⟩, hesc⟩ := hends pre rest fun k hk => by simpa using hpre k hk
    have hstop : k = keyEnter ∨ k = keyEsc := by simpa using hk
    rcases hstop with rfl | rfl
    · rw [henter]
      rfl
    · rw [hesc]
      rfl

/-- A key too many for three bytes, two taken back, and Enter. -/
theorem passphraseReadMem_spec_three : 1 ≤ 3 ∧
    ∃ buf, passphraseReadMem (Buffer.fill 3 0) ([97, 98, 99, 8, 8, 100] ++ keyEnter :: []) = some (buf, some 1) ∧
      buf.data = [100, 0, 0] :=
  ⟨by decide, ((passphraseReadMem_spec (by decide)).2 [97, 98, 99, 8, 8, 100] [] (by decide)).1⟩

end SakuruBoot

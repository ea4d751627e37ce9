import SakuruBoot.Lib.Buffer

/-!
# Console output (`con_puts` in `uefi/uefi_loader.c`)

`conPuts` decodes UTF-8 into a buffer of 128 units and hands it to `OutputString` whenever 126 are there. The text is
the memory up to and with its NUL; a read behind it, a write outside the buffer and a loop that does not end all give
`none`, and none of them happens (`conPuts_isSome`). On the encoding of characters of the basic plane the strings put
out are the characters, with a carriage return in front of each line feed (`conPuts_spec`).
-/

namespace SakuruBoot
open CStr

/-- The locals of `con_puts`, and the strings put out so far. -/
structure ConState where
  buf : Buffer UInt16 128
  n : Nat
  out : List (List UInt16)

/-- `OutputString` takes the units before the first NUL. -/
def outputString (buf : Buffer UInt16 128) : List UInt16 := buf.data.takeWhile (· != 0)

/-- `buf[n] = 0` and the call. -/
def conFlush (s : ConState) : Option ConState := do
  let buf ← s.buf.write s.n 0
  some { buf := buf, n := 0, out := s.out ++ [outputString buf] }

/-- `buf[n++] = wc`, and the call when 126 units are there. -/
def conPut (s : ConState) (wc : UInt16) : Option ConState := do
  let buf ← s.buf.write s.n wc
  let s := { s with buf := buf, n := s.n + 1 }
  if 126 ≤ s.n then conFlush s else some s

/-- `(unsigned char)s[i] >= 0x80`. -/
def continues (p : List Byte) (i : Nat) : Option Bool := p[i]?.map fun c => decide (0x80 ≤ c)

/-- The tests for a sequence of two and of three bytes that starts with `c`. -/
def isTwo (p : List Byte) (c : Byte) : Option Bool := if c &&& 0xE0 = 0xC0 then continues p 1 else some false

def isThree (p : List Byte) (c : Byte) : Option Bool :=
  if c &&& 0xF0 = 0xE0 then do
    let more ← continues p 1
    if more then continues p 2 else some false
  else some false

/-- The unit at the start of the text that is not a line feed, and how many bytes it takes. -/
def conDecode (p : List Byte) : Option (UInt16 × Nat) := do
  let c ← p[0]?
  if c < 0x80 then some (c.toUInt16, 1)
  else
    let two ← isTwo p c
    if two then
      let c1 ← p[1]?
      some (UInt16.ofNat ((c.toNat &&& 0x1F) <<< 6 ||| (c1.toNat &&& 0x3F)), 2)
    else
      let three ← isThree p c
      if three then
        let c1 ← p[1]?
        let c2 ← p[2]?
        some (UInt16.ofNat ((c.toNat &&& 0x0F) <<< 12 ||| (c1.toNat &&& 0x3F) <<< 6 ||| (c2.toNat &&& 0x3F)), 3)
      else some (c.toUInt16, 1)

def conLoop : Nat → List Byte → ConState → Option ConState
  | 0, _, _ => none
  | fuel + 1, p, s => do
    let c ← p[0]?
    if c = 0 then some s
    else if c = 10 then
      let s ← conPut s 13
      let s ← conPut s 10
      conLoop fuel (p.drop 1) s
    else
      let (wc, k) ← conDecode p
      let s ← conPut s wc
      conLoop fuel (p.drop k) s

/-- `con_puts` with what its buffer holds before. -/
def conPuts (mem : List Byte) (buf : Buffer UInt16 128) : Option (List (List UInt16)) := do
  let s ← conLoop mem.length mem { buf := buf, n := 0, out := [] }
  if 0 < s.n then
    let s ← conFlush s
    some s.out
  else some s.out

/-! ## No access goes wrong -/

theorem conFlush_isSome {s : ConState} (h : s.n < 128) : ∃ t, conFlush s = some t ∧ t.n = 0 := by
  obtain ⟨buf, hwrite, -⟩ := Buffer.write_of_lt (b := s.buf) h 0
  unfold conFlush
  rw [hwrite]
  exact ⟨_, rfl, rfl⟩

theorem conPut_isSome {s : ConState} (h : s.n < 126) (wc : UInt16) : ∃ t, conPut s wc = some t ∧ t.n < 126 := by
  obtain ⟨buf, hwrite, -⟩ := Buffer.write_of_lt (b := s.buf) (i := s.n) (by omega) wc
  unfold conPut
  rw [hwrite]
  simp only [Option.bind_eq_bind, Option.bind_some]
  split_ifs with hfull
  · obtain ⟨t, hflush, ht⟩ := conFlush_isSome (s := { s with buf := buf, n := s.n + 1 }) (show s.n + 1 < 128 by omega)
    exact ⟨t, hflush, by omega⟩
  · exact ⟨_, rfl, not_le.mp hfull⟩

theorem continues_text {t : List Byte} {i : Nat} (hi : i ≤ t.length) :
    ∃ b, continues (t ++ [0]) i = some b ∧ (b = true → i < t.length) := by
  have hlt : i < (t ++ [0]).length := by
    rw [List.length_append, List.length_singleton]
    omega
  refine ⟨decide ((0x80 : Byte) ≤ (t ++ [0])[i]), ?_, ?_⟩
  · rw [continues, List.getElem?_eq_getElem hlt]
    rfl
  · intro h
    by_contra hge
    have hend : i = t.length := by omega
    subst hend
    rw [List.getElem_concat_length rfl] at h
    exact absurd h (by decide)

theorem isTwo_text {t : List Byte} (hne : t ≠ []) (c : Byte) :
    ∃ b, isTwo (t ++ [0]) c = some b ∧ (b = true → 1 < t.length) := by
  unfold isTwo
  split_ifs
  · exact continues_text (List.length_pos_iff.mpr hne)
  · exact ⟨false, rfl, nofun⟩

theorem isThree_text {t : List Byte} (hne : t ≠ []) (c : Byte) :
    ∃ b, isThree (t ++ [0]) c = some b ∧ (b = true → 2 < t.length) := by
  unfold isThree
  split_ifs
  · obtain ⟨b, hb, hin⟩ := continues_text (t := t) (i := 1) (List.length_pos_iff.mpr hne)
    rw [hb]
    cases b with
    | false => exact ⟨false, rfl, nofun⟩
    | true => exact continues_text (hin rfl)
  · exact ⟨false, rfl, nofun⟩

theorem conDecode_isSome {t : List Byte} (hne : t ≠ []) :
    ∃ wc k, conDecode (t ++ [0]) = some (wc, k) ∧ 1 ≤ k ∧ k ≤ t.length := by
  have hpos := List.length_pos_iff.mpr hne
  have hget : ∀ i < t.length, ∃ c, (t ++ [0])[i]? = some c := by
    intro i hi
    exact ⟨_, List.getElem?_eq_getElem (by rw [List.length_append]; omega)⟩
  obtain ⟨c, hc⟩ := hget 0 hpos
  obtain ⟨two, htwo, hin⟩ := isTwo_text hne c
  obtain ⟨three, hthree, hin'⟩ := isThree_text hne c
  unfold conDecode
  rw [hc]
  simp only [Option.bind_eq_bind, Option.bind_some, htwo, hthree]
  split_ifs with hascii h2 h3
  · exact ⟨_, 1, rfl, le_refl 1, hpos⟩
  · obtain ⟨c1, hc1⟩ := hget 1 (hin h2)
    rw [hc1]
    exact ⟨_, 2, rfl, by omega, hin h2⟩
  · have hlen := hin' h3
    obtain ⟨c1, hc1⟩ := hget 1 (by omega)
    obtain ⟨c2, hc2⟩ := hget 2 hlen
    rw [hc1, hc2]
    exact ⟨_, 3, rfl, by omega, hlen⟩
  · exact ⟨_, 1, rfl, le_refl 1, hpos⟩

theorem conLoop_isSome (fuel : Nat) {t : List Byte} (ht : ∀ c ∈ t, c ≠ 0) (hfuel : t.length < fuel) {s : ConState}
    (hs : s.n < 126) : ∃ u, conLoop fuel (t ++ [0]) s = some u ∧ u.n < 126 := by
  induction fuel generalizing t s with
  | zero => omega
  | succ fuel ih =>
    unfold conLoop
    cases t with
    | nil => exact ⟨s, rfl, hs⟩
    | cons c t =>
      have hdrop : ∀ k, 1 ≤ k → k ≤ (c :: t).length → ∀ {s : ConState}, s.n < 126 →
          ∃ u, conLoop fuel ((c :: t ++ [0]).drop k) s = some u ∧ u.n < 126 := by
        intro k hk hle s hs
        rw [List.drop_append_of_le_length hle]
        apply ih _ _ hs
        · intro d hd
          exact ht d (List.mem_of_mem_drop hd)
        · rw [List.length_drop]
          omega
      have hhead : (c :: t ++ [0])[0]? = some c := rfl
      rw [hhead]
      simp only [Option.bind_eq_bind, Option.bind_some]
      rw [if_neg (ht c List.mem_cons_self)]
      split_ifs with hlf
      · obtain ⟨a, ha, han⟩ := conPut_isSome hs 13
        obtain ⟨b, hb, hbn⟩ := conPut_isSome han 10
        rw [ha]
        simp only [Option.bind_some, hb]
        exact hdrop 1 (le_refl 1) (by simp) hbn
      · obtain ⟨wc, k, hdecode, hk, hle⟩ := conDecode_isSome (List.cons_ne_nil c t)
        obtain ⟨a, ha, han⟩ := conPut_isSome hs wc
        rw [hdecode]
        simp only [Option.bind_some, ha]
        exact hdrop k hk hle han

/-- Whatever the text, `con_puts` ends, and every access is inside the text or the buffer. -/
theorem conPuts_isSome {t : List Byte} (ht : ∀ c ∈ t, c ≠ 0) (buf : Buffer UInt16 128) :
    (conPuts (t ++ [0]) buf).isSome = true := by
  obtain ⟨u, hloop, hu⟩ := conLoop_isSome (t ++ [0]).length ht (by simp) (s := { buf := buf, n := 0, out := [] })
    (show 0 < 126 by decide)
  unfold conPuts
  rw [hloop]
  simp only [Option.bind_eq_bind, Option.bind_some]
  split_ifs
  · obtain ⟨v, hflush, -⟩ := conFlush_isSome (s := u) (by omega)
    rw [hflush]
    rfl
  · rfl

/-! ## What is put out -/

/-- The units so far: those put out, in strings of their size, and those in the buffer. -/
structure Emits (s : ConState) (units : List UInt16) : Prop where
  n_lt : s.n < 126
  units_eq : s.out.flatten ++ s.buf.data.take s.n = units
  no_nul : ∀ u ∈ units, u ≠ 0
  strings : ∀ o ∈ s.out, o ≠ [] ∧ o.length ≤ 126

theorem outputString_eq {buf buf' : Buffer UInt16 128} {n : Nat} (hn : n < 128) (hwrite : buf.write n 0 = some buf')
    (hno : ∀ u ∈ buf.data.take n, u ≠ 0) : outputString buf' = buf.data.take n := by
  have hdata : buf'.data = buf.data.take n ++ 0 :: buf.data.drop (n + 1) := by
    rw [Buffer.write, if_pos hn] at hwrite
    rw [← congrArg Buffer.data (Option.some.inj hwrite)]
    exact List.set_eq_take_append_cons_drop.trans (if_pos (by rw [buf.length_eq]; exact hn))
  rw [outputString, hdata, List.takeWhile_append_of_pos (fun u hu => by simpa using hno u hu)]
  simp

theorem conFlush_out {s : ConState} (hn : s.n < 128) (hno : ∀ u ∈ s.buf.data.take s.n, u ≠ 0) :
    ∃ t, conFlush s = some t ∧ t.n = 0 ∧ t.out = s.out ++ [s.buf.data.take s.n] := by
  obtain ⟨buf, hwrite, -⟩ := Buffer.write_of_lt (b := s.buf) hn 0
  unfold conFlush
  rw [hwrite]
  refine ⟨_, rfl, rfl, ?_⟩
  show s.out ++ [outputString buf] = _
  rw [outputString_eq hn hwrite hno]

theorem conPut_emits {s : ConState} {units : List UInt16} (h : Emits s units) {wc : UInt16} (hwc : wc ≠ 0) :
    ∃ t, conPut s wc = some t ∧ Emits t (units ++ [wc]) := by
  obtain ⟨hn, hunits, hno, hstrings⟩ := h
  obtain ⟨buf, hwrite, hdata⟩ := Buffer.write_of_lt (b := s.buf) (i := s.n) (by omega) wc
  have htake : buf.data.take (s.n + 1) = s.buf.data.take s.n ++ [wc] := by
    have hlen : s.n < s.buf.data.length := by rw [s.buf.length_eq]; omega
    rw [hdata, List.take_add_one, List.take_set, List.set_eq_of_length_le (by simp), List.getElem?_set_self hlen]
    rfl
  have hall : s.out.flatten ++ buf.data.take (s.n + 1) = units ++ [wc] := by
    rw [htake, ← List.append_assoc, hunits]
  have hnul : ∀ u ∈ units ++ [wc], u ≠ 0 := by
    intro u hu
    rcases List.mem_append.mp hu with hold | hnew
    · exact hno u hold
    · exact List.mem_singleton.mp hnew ▸ hwc
  unfold conPut
  rw [hwrite]
  simp only [Option.bind_eq_bind, Option.bind_some]
  split_ifs with hfull
  · obtain ⟨t, hflush, ht, hout⟩ := conFlush_out (s := { s with buf := buf, n := s.n + 1 }) (show s.n + 1 < 128 by omega)
      fun u hu => hnul u (hall ▸ List.mem_append_right _ hu)
    refine ⟨t, hflush, ?_, ?_, hnul, ?_⟩
    · rw [ht]
      decide
    · rw [hout, ht, List.take_zero, List.append_nil, List.flatten_append, ← hall, List.flatten_singleton]
    · intro o ho
      rw [hout] at ho
      rcases List.mem_append.mp ho with hold | hnew
      · exact hstrings o hold
      · rw [List.mem_singleton.mp hnew]
        have hlen : (buf.data.take (s.n + 1)).length = s.n + 1 := by
          rw [List.length_take, buf.length_eq]
          omega
        exact ⟨List.ne_nil_of_length_pos (by rw [hlen]; omega), by rw [hlen]; omega⟩
  · exact ⟨_, rfl, not_le.mp hfull, hall, hnul, hstrings⟩

/-- The unit of a character of the basic plane. -/
def unitOf (c : Char) : UInt16 := c.toNat.toUInt16

/-- A character that `con_puts` can print: not NUL, and in the basic plane. -/
def Printable (c : Char) : Prop := 0 < c.toNat ∧ c.toNat < 0x10000

theorem lead_two : ∀ a < 32, ¬UInt8.ofNat (a + 0xc0) < 0x80 ∧ UInt8.ofNat (a + 0xc0) &&& 0xE0 = 0xC0 ∧
    (UInt8.ofNat (a + 0xc0)).toNat &&& 0x1F = a := by decide

theorem lead_three : ∀ a < 16, ¬UInt8.ofNat (a + 0xe0) < 0x80 ∧ UInt8.ofNat (a + 0xe0) &&& 0xE0 ≠ 0xC0 ∧
    UInt8.ofNat (a + 0xe0) &&& 0xF0 = 0xE0 ∧ (UInt8.ofNat (a + 0xe0)).toNat &&& 0x0F = a := by decide

theorem trail : ∀ a < 64, 0x80 ≤ UInt8.ofNat (a + 0x80) ∧ (UInt8.ofNat (a + 0x80)).toNat &&& 0x3F = a := by decide

theorem shift_or (a : Nat) {b n : Nat} (hb : b < 2 ^ n) : a <<< n ||| b = a * 2 ^ n + b := by
  rw [← Nat.shiftLeft_add_eq_or_of_lt hb, Nat.shiftLeft_eq]

/-- The decoder undoes the encoding of a character. -/
theorem conDecode_char {c : Char} (hc : Printable c) (rest : List Byte) :
    conDecode (String.utf8EncodeChar c ++ rest) = some (unitOf c, (String.utf8EncodeChar c).length) := by
  obtain ⟨hpos, hlt⟩ := hc
  have hval : c.val.toNat = c.toNat := rfl
  unfold String.utf8EncodeChar unitOf
  rw [hval]
  generalize c.toNat = v at hpos hlt
  dsimp only
  split_ifs with h1 h2 h3
  · have hascii : UInt8.ofNat v < 0x80 := by
      rw [UInt8.lt_iff_toNat_lt, UInt8.toNat_ofNat_of_lt' (Nat.lt_of_le_of_lt h1 (by decide))]
      show v < 128
      omega
    have hwide : (UInt8.ofNat v).toUInt16 = v.toUInt16 := by
      apply UInt16.toNat_inj.mp
      rw [UInt8.toNat_toUInt16, UInt8.toNat_ofNat_of_lt' (Nat.lt_of_le_of_lt h1 (by decide))]
      exact (Nat.mod_eq_of_lt (by omega)).symm
    unfold conDecode
    simp only [List.cons_append, List.nil_append, List.getElem?_cons_zero, Option.bind_eq_bind, Option.bind_some,
      if_pos hascii, hwide]
    rfl
  · obtain ⟨hhigh, hlead, hlow⟩ := lead_two (v / 64 % 0x20) (Nat.mod_lt _ (by decide))
    obtain ⟨hmore, hlow1⟩ := trail (v % 0x40) (Nat.mod_lt _ (by decide))
    have hunit : (v / 64 % 0x20) <<< 6 ||| v % 0x40 = v := by
      rw [shift_or _ (by omega)]
      omega
    unfold conDecode isTwo continues
    simp only [List.cons_append, List.nil_append, List.getElem?_cons_zero, List.getElem?_cons_succ, Option.bind_eq_bind,
      Option.bind_some, if_neg hhigh, if_pos hlead, Option.map_some, decide_eq_true hmore, if_true, hlow, hlow1, hunit]
    rfl
  · obtain ⟨hhigh, hnot, hlead, hlow⟩ := lead_three (v / 4096 % 0x10) (Nat.mod_lt _ (by decide))
    obtain ⟨hmore, hlow1⟩ := trail (v / 64 % 0x40) (Nat.mod_lt _ (by decide))
    obtain ⟨hmore2, hlow2⟩ := trail (v % 0x40) (Nat.mod_lt _ (by decide))
    have hunit : (v / 4096 % 0x10) <<< 12 ||| (v / 64 % 0x40) <<< 6 ||| v % 0x40 = v := by
      rw [Nat.or_assoc, shift_or (v / 64 % 0x40) (by omega), shift_or _ (by omega)]
      omega
    unfold conDecode isTwo isThree continues
    simp only [List.cons_append, List.nil_append, List.getElem?_cons_zero, List.getElem?_cons_succ, Option.bind_eq_bind,
      Option.bind_some, if_neg hhigh, if_neg hnot, if_pos hlead, Option.map_some, decide_eq_true hmore,
      decide_eq_true hmore2, if_true, Bool.false_eq_true, if_false, hlow, hlow1, hlow2, hunit]
    rfl
  · omega

/-- A line feed gets a carriage return in front. -/
def crlf (cs : List Char) : List UInt16 := cs.flatMap fun c => if c = '\n' then [13, 10] else [unitOf c]

/-- The first byte of a character is its own only for a line feed. -/
theorem head_encode {c : Char} (hc : Printable c) :
    ∃ b rest, String.utf8EncodeChar c = b :: rest ∧ b ≠ 0 ∧ (b = 10 ↔ c = '\n') := by
  obtain ⟨hpos, hlt⟩ := hc
  have hval : c.val.toNat = c.toNat := rfl
  have hnl : c = '\n' ↔ c.toNat = 10 := Char.toNat_inj.symm
  have hlead : ∀ a < 32, UInt8.ofNat (a + 0xc0) ≠ 0 ∧ UInt8.ofNat (a + 0xc0) ≠ 10 := by decide
  have hlead3 : ∀ a < 16, UInt8.ofNat (a + 0xe0) ≠ 0 ∧ UInt8.ofNat (a + 0xe0) ≠ 10 := by decide
  unfold String.utf8EncodeChar
  rw [hval, hnl]
  generalize c.toNat = v at hpos hlt
  dsimp only
  split_ifs with h1 h2
  · have hbyte : (UInt8.ofNat v).toNat = v := UInt8.toNat_ofNat_of_lt' (Nat.lt_of_le_of_lt h1 (by decide))
    refine ⟨_, _, rfl, ?_, ?_⟩
    · intro h0
      rw [h0] at hbyte
      exact absurd hpos (by rw [← hbyte]; decide)
    · rw [← UInt8.toNat_inj, hbyte]
      rfl
  · obtain ⟨h0, h10⟩ := hlead (v / 64 % 0x20) (Nat.mod_lt _ (by decide))
    exact ⟨_, _, rfl, h0, fun h => absurd h h10, fun h => by omega⟩
  · obtain ⟨h0, h10⟩ := hlead3 (v / 4096 % 0x10) (Nat.mod_lt _ (by decide))
    exact ⟨_, _, rfl, h0, fun h => absurd h h10, fun h => by omega⟩
  · omega

theorem conLoop_emits (fuel : Nat) {cs : List Char} (hcs : ∀ c ∈ cs, Printable c)
    (hfuel : (cs.flatMap String.utf8EncodeChar).length < fuel) {s : ConState} {units : List UInt16} (hs : Emits s units) :
    ∃ t, conLoop fuel (cs.flatMap String.utf8EncodeChar ++ [0]) s = some t ∧ Emits t (units ++ crlf cs) := by
  induction cs generalizing fuel s units with
  | nil =>
    obtain ⟨fuel, rfl⟩ : ∃ k, fuel = k + 1 := ⟨fuel - 1, by omega⟩
    exact ⟨s, rfl, by rw [crlf, List.flatMap_nil, List.append_nil]; exact hs⟩
  | cons c cs ih =>
    have hc := hcs c List.mem_cons_self
    have hrest : ∀ c ∈ cs, Printable c := fun c h => hcs c (List.mem_cons_of_mem _ h)
    obtain ⟨fuel, rfl⟩ : ∃ k, fuel = k + 1 := ⟨fuel - 1, by omega⟩
    obtain ⟨b, bs, hbytes, hb0, hlf⟩ := head_encode hc
    rw [List.flatMap_cons, List.length_append] at hfuel
    rw [List.flatMap_cons, List.append_assoc, conLoop]
    have hdecode := conDecode_char hc (cs.flatMap String.utf8EncodeChar ++ [0])
    have hdrop : (String.utf8EncodeChar c ++ (cs.flatMap String.utf8EncodeChar ++ [0])).drop
        (String.utf8EncodeChar c).length = cs.flatMap String.utf8EncodeChar ++ [0] := List.drop_left
    have hlen : 1 ≤ (String.utf8EncodeChar c).length := by rw [hbytes, List.length_cons]; omega
    have hhead : (String.utf8EncodeChar c ++ (cs.flatMap String.utf8EncodeChar ++ [0]))[0]? = some b := by
      rw [hbytes]
      rfl
    rw [hhead]
    simp only [Option.bind_eq_bind, Option.bind_some, if_neg hb0]
    by_cases hnl : c = '\n'
    · obtain ⟨a, ha, hea⟩ := conPut_emits hs (show (13 : UInt16) ≠ 0 by decide)
      obtain ⟨d, hd, hed⟩ := conPut_emits hea (show (10 : UInt16) ≠ 0 by decide)
      have hone : (String.utf8EncodeChar c).length = 1 := by rw [hnl]; rfl
      obtain ⟨t, hloop, ht⟩ := ih fuel hrest (by omega) hed
      rw [hone] at hdrop
      rw [if_pos (hlf.mpr hnl), ha]
      simp only [Option.bind_some, hd, hdrop]
      refine ⟨t, hloop, ?_⟩
      rw [crlf, List.flatMap_cons, if_pos hnl]
      simpa [crlf] using ht
    · have hunit : unitOf c ≠ 0 := by
        intro h0
        have := congrArg UInt16.toNat h0
        have hval : (unitOf c).toNat = c.toNat := Nat.mod_eq_of_lt hc.2
        rw [hval] at this
        exact absurd hc.1 (by rw [this]; decide)
      obtain ⟨a, ha, hea⟩ := conPut_emits hs hunit
      obtain ⟨t, hloop, ht⟩ := ih fuel hrest (by omega) hea
      rw [if_neg (hlf.not.mpr hnl), hdecode]
      simp only [Option.bind_some, ha, hdrop]
      refine ⟨t, hloop, ?_⟩
      rw [crlf, List.flatMap_cons, if_neg hnl]
      simpa [crlf] using ht

/-- Characters of the basic plane come out as they are, in strings of 1 to 126 units, with a carriage return in front of
each line feed; and no text makes `con_puts` read behind its NUL, write outside its buffer or run on. -/
theorem conPuts_spec (buf : Buffer UInt16 128) :
    (∀ cs : List Char, (∀ c ∈ cs, Printable c) → ∃ out, conPuts (cs.flatMap String.utf8EncodeChar ++ [0]) buf = some out ∧
        out.flatten = crlf cs ∧ ∀ o ∈ out, o ≠ [] ∧ o.length ≤ 126) ∧
      ∀ t : List Byte, (∀ c ∈ t, c ≠ 0) → (conPuts (t ++ [0]) buf).isSome = true := by
  refine ⟨?_, fun t ht => conPuts_isSome ht buf⟩
  intro cs hcs
  have hstart : Emits { buf := buf, n := 0, out := [] } [] := ⟨(by decide : 0 < 126), rfl, nofun, nofun⟩
  obtain ⟨s, hloop, hemits⟩ := conLoop_emits (cs.flatMap String.utf8EncodeChar ++ [0]).length hcs (by simp) hstart
  rw [List.nil_append] at hemits
  obtain ⟨hn, hunits, hno, hstrings⟩ := hemits
  unfold conPuts
  rw [hloop]
  simp only [Option.bind_eq_bind, Option.bind_some]
  split_ifs with hpos
  · obtain ⟨t, hflush, -, hout⟩ := conFlush_out (s := s) (by omega) fun u hu => hno u (hunits ▸ List.mem_append_right _ hu)
    rw [hflush]
    refine ⟨t.out, rfl, ?_, ?_⟩
    · rw [hout, List.flatten_append, List.flatten_singleton, hunits]
    · intro o ho
      rw [hout] at ho
      rcases List.mem_append.mp ho with hold | hnew
      · exact hstrings o hold
      · have hlen : (s.buf.data.take s.n).length = s.n := by
          rw [List.length_take, s.buf.length_eq]
          omega
        rw [List.mem_singleton.mp hnew]
        exact ⟨List.ne_nil_of_length_pos (by omega), by omega⟩
  · have hzero : s.n = 0 := by omega
    rw [hzero, List.take_zero, List.append_nil] at hunits
    exact ⟨s.out, rfl, hunits, hstrings⟩

/-- A box corner and a line feed. -/
theorem conPuts_spec_corner : (∀ c ∈ ['╔', '\n'], Printable c) ∧
    ∃ out, conPuts (['╔', '\n'].flatMap String.utf8EncodeChar ++ [0]) (Buffer.fill 128 0) = some out ∧
      out.flatten = [0x2554, 13, 10] := by
  have hok : ∀ c ∈ ['╔', '\n'], Printable c := by
    intro c hc
    have hcorner : '╔'.toNat = 0x2554 := rfl
    have hfeed : '\n'.toNat = 10 := rfl
    rcases List.mem_pair.mp hc with rfl | rfl
    · rw [Printable, hcorner]
      omega
    · rw [Printable, hfeed]
      omega
  obtain ⟨out, hputs, hflat, -⟩ := (conPuts_spec (Buffer.fill 128 0)).1 ['╔', '\n'] hok
  exact ⟨hok, out, hputs, hflat.trans (by decide)⟩

end SakuruBoot

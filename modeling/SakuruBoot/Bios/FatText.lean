import SakuruBoot.Bios.FatItems

/-!
# What `lfn_buf` holds

The bytes of `lfn_buf` by the names that were written over it, for both loops: `find_in_dir` copies the characters of an
entry up to a NUL (`copied`), `fat_readdir` all thirteen of them (`stored`). Where no name reaches, the byte is the one the
stack had (`leftOver`). `foundText` and `listedText` are the texts this gives, and `DirItem.Unmistaken` is what a directory
has to be like for its lookups to be right (`clear_iff`).
-/

namespace SakuruBoot.Fat
open CStr Bytes

/-! ## Bytes of the buffer -/

/-- The low byte of a code unit. -/
def lowByte (name : List UInt16) (p : Nat) : Byte := (name.getD p 0).toNat.toUInt8

/-- Byte `p` as `find_in_dir` copies a name: not behind the end of it, nor from a zero byte on in its entry. -/
def copied (name : List UInt16) (p : Nat) : Option Byte :=
  if p < name.length ∧ ∀ q ≤ p, p / 13 = q / 13 → lowByte name q ≠ 0 then some (lowByte name p) else none

/-- Byte `p` as `fat_readdir` copies it, with the end mark and the padding. -/
def stored (name : List UInt16) (p : Nat) : Option Byte :=
  if p < 13 * fragCount name then some (unitAt name p).toUInt8 else none

/-- The byte left at `p` by names, the last of them that reaches there, or else by the stack. -/
def leftOver (wrote : List UInt16 → Nat → Option Byte) (junk : List Byte) (names : List (List UInt16)) : Nat → Byte :=
  names.foldl (fun left name p => (wrote name p).getD (left p)) fun p => junk.getD p 0

theorem leftOver_concat (wrote : List UInt16 → Nat → Option Byte) (junk : List Byte) (names : List (List UInt16))
    (name : List UInt16) (p : Nat) :
    leftOver wrote junk (names ++ [name]) p = (wrote name p).getD (leftOver wrote junk names p) := by
  rw [leftOver, List.foldl_append, List.foldl_cons, List.foldl_nil, leftOver]

/-- A buffer of at least 255 bytes with these in front. -/
structure Holds (buf : List Byte) (left : Nat → Byte) : Prop where
  length_le : 255 ≤ buf.length
  byte : ∀ p < 255, buf.getD p 0 = left p

theorem holds_self {buf : List Byte} (h : 255 ≤ buf.length) : Holds buf fun p => buf.getD p 0 := ⟨h, fun _ _ => rfl⟩

theorem Holds.take {buf : List Byte} {left : Nat → Byte} (h : Holds buf left) :
    buf.take 255 = (List.range 255).map left := by
  have hlen := h.length_le
  refine List.ext_getElem (by rw [List.length_take, List.length_map, List.length_range]; omega) fun i h1 h2 => ?_
  rw [List.length_map, List.length_range] at h2
  rw [List.getElem_take, List.getElem_map, List.getElem_range, ← h.byte i h2, List.getD_eq_getElem]

theorem placeLfn_within {k : Nat} (hk : 13 * k ≤ 255) {buf : List Byte} (hbuf : 255 ≤ buf.length) (piece : List Byte) :
    13 * k + (piece.take (255 - 13 * k)).length ≤ buf.length := by
  rw [List.length_take]
  omega

theorem placeLfn_beyond {k : Nat} (hk : 255 < 13 * k) (buf piece : List Byte) : placeLfn buf k piece = buf := by
  have hnone : 255 - 13 * k = 0 := by omega
  rw [placeLfn, hnone, List.take_zero, patch]
  simp

theorem length_placeLfn {buf : List Byte} (hbuf : 255 ≤ buf.length) (k : Nat) (piece : List Byte) :
    (placeLfn buf k piece).length = buf.length := by
  by_cases hk : 13 * k ≤ 255
  · exact length_patch (placeLfn_within hk hbuf piece)
  · rw [placeLfn_beyond (not_le.mp hk)]

theorem getD_placeLfn {buf piece : List Byte} {k p : Nat} (hbuf : 255 ≤ buf.length) (hp : p < 255) :
    (placeLfn buf k piece).getD p 0 =
      if 13 * k ≤ p ∧ p - 13 * k < piece.length then piece.getD (p - 13 * k) 0 else buf.getD p 0 := by
  by_cases hk : 13 * k ≤ 255
  · have hiff : 13 * k ≤ p ∧ p < 13 * k + (piece.take (255 - 13 * k)).length ↔
        13 * k ≤ p ∧ p - 13 * k < piece.length := by
      rw [List.length_take]
      omega
    rw [List.getD_eq_getElem?_getD, placeLfn, getElem?_patch (placeLfn_within hk hbuf piece)]
    simp only [hiff]
    split_ifs with hin
    · rw [List.getElem?_take_of_lt (by omega), List.getD_eq_getElem?_getD]
    · exact (List.getD_eq_getElem?_getD ..).symm
  · rw [placeLfn_beyond (not_le.mp hk), if_neg (by omega)]

theorem holds_foldr {piece : Nat → List Byte} {n : Nat} (hpiece : ∀ k < n, (piece k).length ≤ 13) {buf : List Byte}
    {left : Nat → Byte} (h : Holds buf left) :
    Holds ((List.range n).foldr (fun k buf => placeLfn buf k (piece k)) buf) fun p =>
      if p / 13 < n ∧ p % 13 < (piece (p / 13)).length then (piece (p / 13)).getD (p % 13) 0 else left p := by
  induction n generalizing buf left with
  | zero => simpa using h
  | succ n ih =>
    have hplaced : Holds (placeLfn buf n (piece n)) fun p =>
        if 13 * n ≤ p ∧ p - 13 * n < (piece n).length then (piece n).getD (p - 13 * n) 0 else left p := by
      refine ⟨(length_placeLfn h.length_le n _).symm ▸ h.length_le, fun p hp => ?_⟩
      rw [getD_placeLfn h.length_le hp, h.byte p hp]
    have hrest := ih (fun k hk => hpiece k (by omega)) hplaced
    have hn := hpiece n (Nat.lt_succ_self n)
    rw [List.range_succ, List.foldr_append, List.foldr_cons, List.foldr_nil]
    refine ⟨hrest.length_le, fun p hp => (hrest.byte p hp).trans ?_⟩
    rcases Nat.lt_trichotomy (p / 13) n with hlt | rfl | hgt
    · have hnot : ¬ (13 * n ≤ p ∧ p - 13 * n < (piece n).length) := by omega
      simp only [if_neg hnot, hlt, Nat.lt_succ_of_lt hlt, true_and]
    · have hmod : p - 13 * (p / 13) = p % 13 := by omega
      have hle : 13 * (p / 13) ≤ p := by omega
      simp only [lt_irrefl, false_and, if_false, hle, hmod, true_and, Nat.lt_succ_self]
    · have hnot : ¬ (13 * n ≤ p ∧ p - 13 * n < (piece n).length) := by omega
      have h1 : ¬ p / 13 < n := by omega
      have h2 : ¬ p / 13 < n + 1 := by omega
      simp only [if_neg hnot, h1, h2, false_and, if_false]

/-! ## What a name writes -/

theorem length_str_gt_iff {p : List Byte} {j : Nat} (hj : j < p.length) :
    j < (str p).length ↔ ∀ i ≤ j, p.getD i 0 ≠ 0 := by
  induction p generalizing j with
  | nil => cases hj
  | cons c p ih =>
    rw [str_cons]
    split_ifs with hc
    · refine iff_of_false (Nat.not_lt_zero j) fun h => h 0 (Nat.zero_le j) hc
    · cases j with
      | zero => simpa using hc
      | succ j =>
        rw [List.length_cons, Nat.succ_lt_succ_iff, ih (Nat.lt_of_succ_lt_succ hj)]
        constructor
        · rintro h (_ | i) hi
          · exact hc
          · exact h i (Nat.le_of_succ_le_succ hi)
        · exact fun h i hi => h (i + 1) (Nat.succ_le_succ hi)

theorem str_append_nul (p rest : List Byte) : str (p ++ 0 :: rest) = str p := by
  induction p with
  | nil => rfl
  | cons c p ih => rw [List.cons_append, str_cons, str_cons, ih]

theorem getD_str {p : List Byte} {j : Nat} (hj : j < (str p).length) : (str p).getD j 0 = p.getD j 0 := by
  have hprefix : str p <+: p := List.takeWhile_prefix _
  rw [List.getD_eq_getElem _ _ hj, List.getD_eq_getElem _ _ (hj.trans_le hprefix.length_le), hprefix.getElem]

theorem getD_fragUnits (name : List UInt16) (k : Nat) {j : Nat} (hj : j < 13) :
    (lowBytes (fragUnits name k)).getD j 0 = (unitAt name (13 * k + j)).toUInt8 := by
  rw [lowBytes, fragUnits, List.map_map]
  exact getD_map_range _ hj 0

theorem length_fragUnits (name : List UInt16) (k : Nat) : (lowBytes (fragUnits name k)).length = 13 := by
  rw [lowBytes, fragUnits, List.length_map, List.length_map, List.length_range]

theorem unitAt_lt {name : List UInt16} {p : Nat} (hp : p < name.length) :
    (unitAt name p).toUInt8 = lowByte name p := by
  rw [unitAt, if_pos hp, lowByte]

theorem copied_iff (name : List UInt16) (p : Nat) :
    p / 13 < fragCount name ∧ p % 13 < (str (lowBytes (fragUnits name (p / 13)))).length ↔
      p < name.length ∧ ∀ q ≤ p, p / 13 = q / 13 → lowByte name q ≠ 0 := by
  have hmod : p % 13 < 13 := Nat.mod_lt p (by decide)
  have hsplit : 13 * (p / 13) + p % 13 = p := Nat.div_add_mod p 13
  rw [length_str_gt_iff (by rwa [length_fragUnits])]
  have hunits : (∀ i ≤ p % 13, (lowBytes (fragUnits name (p / 13))).getD i 0 ≠ 0) ↔
      ∀ q ≤ p, p / 13 = q / 13 → (unitAt name q).toUInt8 ≠ 0 := by
    constructor
    · intro h q hq hsame
      have hunit := h (q % 13) (by omega)
      rwa [getD_fragUnits name _ (Nat.mod_lt q (by decide)), hsame, Nat.div_add_mod q 13] at hunit
    · intro h i hi
      rw [getD_fragUnits name _ (by omega)]
      exact h _ (by omega) (by omega)
  rw [hunits]
  constructor
  · rintro ⟨hfrag, hall⟩
    -- a NUL stands behind the name, in its last entry
    have hlt : p < name.length := by
      by_contra hle
      have hend := hall name.length (by omega) (by rw [fragCount] at hfrag; omega)
      rw [unitAt, if_neg (lt_irrefl _), if_pos rfl] at hend
      exact hend rfl
    refine ⟨hlt, fun q hq hsame => ?_⟩
    rw [← unitAt_lt (hq.trans_lt hlt)]
    exact hall q hq hsame
  · rintro ⟨hlt, hall⟩
    refine ⟨by rw [fragCount]; omega, fun q hq hsame => ?_⟩
    rw [unitAt_lt (hq.trans_lt hlt)]
    exact hall q hq hsame

theorem Holds.found {buf : List Byte} {left : Nat → Byte} (h : Holds buf left) (name : List UInt16) :
    Holds (storeFound name buf) fun p => (copied name p).getD (left p) := by
  have hlen (k : Nat) : (str (lowBytes (fragUnits name k))).length ≤ 13 :=
    (length_str_le _).trans_eq (length_fragUnits name k)
  have hstore := holds_foldr (n := fragCount name) (fun k _ => hlen k) h
  refine ⟨hstore.length_le, fun p hp => (hstore.byte p hp).trans ?_⟩
  simp only [copied, copied_iff]
  split_ifs with hin
  · have hstr := ((copied_iff name p).mpr hin).2
    rw [getD_str hstr, getD_fragUnits name _ (Nat.mod_lt p (by decide)), Nat.div_add_mod p 13, unitAt_lt hin.1,
      Option.getD_some]
  · rfl

theorem Holds.listed {buf : List Byte} {left : Nat → Byte} (h : Holds buf left) (name : List UInt16) :
    Holds (storeListed name buf) fun p => (stored name p).getD (left p) := by
  have hstore := holds_foldr (n := fragCount name) (fun k _ => (length_fragUnits name k).le) h
  refine ⟨hstore.length_le, fun p hp => (hstore.byte p hp).trans ?_⟩
  have hmod : p % 13 < 13 := Nat.mod_lt p (by decide)
  have hiff : p / 13 < fragCount name ∧ p % 13 < (lowBytes (fragUnits name (p / 13))).length ↔ p < 13 * fragCount name := by
    rw [length_fragUnits]
    omega
  simp only [stored, hiff]
  split_ifs
  · rw [getD_fragUnits name _ hmod, Nat.div_add_mod p 13, Option.getD_some]
  · rfl

/-! ## The two texts -/

/-- The names with a long form, in their order. -/
def longNames (items : List DirItem) : List (List UInt16) :=
  items.filterMap fun
    | .long name _ _ => some name
    | _ => none

/-- What a lookup compares for a long name behind other items. -/
def foundText (junk : List Byte) (before : List DirItem) (name : List UInt16) : List Byte :=
  str ((List.range 255).map (leftOver copied junk (longNames before ++ [name])))

/-- The low bytes of a name. -/
def lowName (name : List UInt16) : List Byte := (List.range name.length).map (lowByte name)

/-- What a listing gives for it: the low bytes and, if they fill the last entry, what other names and the stack left
behind them. -/
def listedText (junk : List Byte) (before : List DirItem) (name : List UInt16) : List Byte :=
  str (lowName name ++ if 13 ∣ name.length then
    ((List.range 255).drop name.length).map (leftOver stored junk (longNames before)) else [])

theorem textFound_eq {buf junk : List Byte} {before : List DirItem}
    (h : Holds buf (leftOver copied junk (longNames before))) (name : List UInt16) :
    textFound name buf = foundText junk before name := by
  have hconcat : (fun p => (copied name p).getD (leftOver copied junk (longNames before) p)) =
      leftOver copied junk (longNames before ++ [name]) := funext fun p => (leftOver_concat copied junk _ name p).symm
  rw [textFound, (h.found name).take, foundText, hconcat]

theorem map_range_split {n : Nat} (h : n ≤ 255) (f : Nat → Byte) :
    (List.range 255).map f = (List.range n).map f ++ ((List.range 255).drop n).map f := by
  have htake : (List.range 255).take n = List.range n := by rw [List.take_range, Nat.min_eq_left h]
  rw [← htake, ← List.map_append, List.take_append_drop]

theorem textListed_eq {buf junk : List Byte} {before : List DirItem}
    (h : Holds buf (leftOver stored junk (longNames before))) {name : List UInt16} (hname : name.length ≤ 255) :
    textListed name buf = listedText junk before name := by
  have hown : (List.range name.length).map (fun p => (stored name p).getD (leftOver stored junk (longNames before) p)) =
      lowName name := by
    refine List.map_congr_left fun p hp => ?_
    have hp := List.mem_range.mp hp
    have hin : p < 13 * fragCount name := by
      rw [fragCount]
      omega
    rw [stored, if_pos hin, Option.getD_some, unitAt_lt hp]
  rw [textListed, (h.listed name).take, map_range_split hname, hown, listedText]
  split_ifs with hdvd
  · congr 2
    refine List.map_congr_left fun p hp => ?_
    obtain ⟨i, hi, rfl⟩ := List.mem_iff_getElem.mp hp
    have hout : ¬ name.length + i < 13 * fragCount name := by
      rw [fragCount]
      omega
    rw [List.getElem_drop, List.getElem_range, stored, if_neg hout, Option.getD_none]
  · rw [List.append_nil]
    rcases Nat.lt_or_eq_of_le hname with hlt | heq
    · have hmark : (stored name name.length).getD (leftOver stored junk (longNames before) name.length) = 0 := by
        have hin : name.length < 13 * fragCount name := by
          rw [fragCount]
          omega
        rw [stored, if_pos hin, Option.getD_some, unitAt, if_neg (lt_irrefl _), if_pos rfl]
        rfl
      have hhead : (List.range 255).drop name.length = name.length :: (List.range 255).drop (name.length + 1) := by
        rw [List.drop_eq_getElem_cons (by rwa [List.length_range]), List.getElem_range]
      rw [hhead, List.map_cons, hmark, str_append_nul]
    · rw [heq, List.drop_of_length_le (by rw [List.length_range]), List.map_nil, List.append_nil]

/-! ## Which lookups are right -/

/-- The entry has the name for its 8.3 name, or an item before it bears the name. -/
def Borne (before : List DirItem) (e : DirEntry) (name : List Byte) : Prop :=
  SameName (byteUnits e.shortName) name ∨ ∃ i ∈ before, i.Named name

/-- The characters of the name are bytes. -/
def Narrow (name : List UInt16) : Prop := ∀ u ∈ name, u.toNat ≤ 255

/-- No lookup is mistaken about the item. A label must be called like an item before it. A long name is compared without
its end mark: it is right if a NUL is left behind it, and otherwise if nobody asks for it or its text, since others that
come before have these names. -/
def DirItem.Unmistaken (junk : List Byte) (before : List DirItem) : DirItem → Prop
  | .deleted _ | .file _ => True
  | .label e => ∃ i ∈ before, i.Named e.shortName
  | .long name _ e =>
    Narrow name ∧ (name.length = 255 ∨ leftOver copied junk (longNames before) name.length = 0) ∨
      (Narrow name → Borne before e (lowName name)) ∧ Borne before e (foundText junk before name)

theorem forall_split_cons {α : Type} {P : List α → α → Prop} (x : α) (l : List α) :
    (∀ pre y post, x :: l = pre ++ y :: post → P pre y) ↔
      P [] x ∧ ∀ pre y post, l = pre ++ y :: post → P (x :: pre) y := by
  constructor
  · intro h
    refine ⟨h [] x l rfl, fun pre y post hl => h (x :: pre) y post ?_⟩
    rw [hl, List.cons_append]
  · rintro ⟨hx, hl⟩ pre y post hsplit
    cases pre with
    | nil =>
      obtain ⟨rfl, rfl⟩ := List.cons.inj hsplit
      exact hx
    | cons z pre =>
      obtain ⟨rfl, rfl⟩ := List.cons.inj hsplit
      exact hl pre y post rfl

section Names

variable {name target : List Byte}

theorem sameName_bytes : SameName (byteUnits name) target ↔
    (name.map fun c => asciiUpper c.toNat) = target.map fun c => asciiUpper c.toNat := by
  rw [SameName, byteUnits, List.map_map]
  rfl

theorem sameName_self (name : List Byte) : SameName (byteUnits name) name := sameName_bytes.mpr rfl

theorem named_congr (h : SameName (byteUnits name) target) (i : DirItem) : i.Named name ↔ i.Named target := by
  have h := sameName_bytes.mp h
  cases i with
  | deleted e => exact Iff.rfl
  | label e => exact Iff.rfl
  | file e => rw [DirItem.Named, DirItem.Named, SameName, SameName, h]
  | long units frag e => simp only [DirItem.Named, SameName, h]

theorem borne_congr (h : SameName (byteUnits name) target) (before : List DirItem) (e : DirEntry) :
    Borne before e name ↔ Borne before e target := by
  have hnamed (i : DirItem) : i.Named name ↔ i.Named target := named_congr h i
  rw [Borne, Borne, SameName, SameName, sameName_bytes.mp h]
  simp only [hnamed]

variable {long : List UInt16}

theorem length_lowName (long : List UInt16) : (lowName long).length = long.length := by
  rw [lowName, List.length_map, List.length_range]

theorem byteUnits_lowName (h : Narrow long) : byteUnits (lowName long) = long.map UInt16.toNat := by
  refine List.ext_getElem (by rw [byteUnits, List.length_map, length_lowName, List.length_map]) fun i h1 h2 => ?_
  rw [List.length_map] at h2
  have hbyte := h _ (List.getElem_mem h2)
  simp only [byteUnits, lowName, List.getElem_map, List.getElem_range, lowByte, List.getD_eq_getElem _ _ h2]
  exact Nat.mod_eq_of_lt (by omega)

theorem narrow_of_sameName (h : SameName (long.map UInt16.toNat) target) : Narrow long := by
  intro u hu
  have hmem : asciiUpper u.toNat ∈ target.map fun c => asciiUpper c.toNat := by
    rw [← (show _ = _ from h)]
    exact List.mem_map_of_mem (List.mem_map_of_mem hu)
  obtain ⟨c, -, hc⟩ := List.mem_map.mp hmem
  have hbyte := c.toNat_lt
  unfold asciiUpper at hc
  split_ifs at hc <;> omega

theorem lowName_ne_zero (h : Narrow long) (hunits : ∀ u ∈ long, u ≠ 0) : ∀ c ∈ lowName long, c ≠ 0 := by
  intro c hc
  obtain ⟨p, hp, rfl⟩ := List.mem_map.mp hc
  have hp := List.mem_range.mp hp
  have hmem := List.getElem_mem hp
  have hbyte := h _ hmem
  rw [lowByte, List.getD_eq_getElem _ _ hp]
  intro hzero
  have hnat : long[p].toNat % 256 = 0 := congrArg UInt8.toNat hzero
  rw [Nat.mod_eq_of_lt (by omega)] at hnat
  exact hunits _ hmem (UInt16.toNat_inj.mp hnat)

theorem foundText_narrow (h : Narrow long) (hunits : ∀ u ∈ long, u ≠ 0) (hlen : long.length ≤ 255) (junk : List Byte)
    (before : List DirItem) : foundText junk before long = lowName long ++
      str (((List.range 255).drop long.length).map (leftOver copied junk (longNames before))) := by
  have hlow := lowName_ne_zero h hunits
  have hbyte {p : Nat} (hp : p < long.length) : lowByte long p ≠ 0 := by
    refine hlow _ (List.mem_map_of_mem (List.mem_range.mpr hp))
  have hown : (List.range long.length).map (leftOver copied junk (longNames before ++ [long])) = lowName long := by
    refine List.map_congr_left fun p hp => ?_
    have hp := List.mem_range.mp hp
    rw [leftOver_concat, copied, if_pos ⟨hp, fun q hq _ => hbyte (hq.trans_lt hp)⟩, Option.getD_some]
  have hbehind : ((List.range 255).drop long.length).map (leftOver copied junk (longNames before ++ [long])) =
      ((List.range 255).drop long.length).map (leftOver copied junk (longNames before)) := by
    refine List.map_congr_left fun p hp => ?_
    obtain ⟨i, hi, rfl⟩ := List.mem_iff_getElem.mp hp
    rw [List.getElem_drop, List.getElem_range, leftOver_concat, copied, if_neg fun h => by omega, Option.getD_none]
  rw [foundText, map_range_split hlen, hown, hbehind, str_append_of_no_nul hlow]

/-- The text of a name in bytes is the name, exactly if a NUL is left behind it. -/
theorem foundText_eq_iff (h : Narrow long) (hunits : ∀ u ∈ long, u ≠ 0) (hlen : long.length ≤ 255) (junk : List Byte)
    (before : List DirItem) : SameName (long.map UInt16.toNat) (foundText junk before long) ↔
      long.length = 255 ∨ leftOver copied junk (longNames before) long.length = 0 := by
  rw [← byteUnits_lowName h, sameName_bytes, foundText_narrow h hunits hlen, List.map_append, List.self_eq_append_right,
    List.map_eq_nil_iff]
  rcases Nat.lt_or_eq_of_le hlen with hlt | heq
  · have hhead : (List.range 255).drop long.length = long.length :: (List.range 255).drop (long.length + 1) := by
      rw [List.drop_eq_getElem_cons (by rwa [List.length_range]), List.getElem_range]
    rw [hhead, List.map_cons, str_cons, or_iff_right hlt.ne]
    by_cases hzero : leftOver copied junk (longNames before) long.length = 0
    · rw [if_pos hzero]
      exact iff_of_true rfl hzero
    · rw [if_neg hzero]
      exact iff_of_false (List.cons_ne_nil _ _) hzero
  · rw [heq, List.drop_of_length_le (by rw [List.length_range])]
    exact iff_of_true rfl (.inl rfl)

end Names

section Clear

variable {junk : List Byte} {before : List DirItem}

theorem forall_clear_long_iff {name : List UInt16} (hunits : ∀ u ∈ name, u ≠ 0) (hlen : name.length ≤ 255) (e : DirEntry) :
    (∀ target : List Byte, (∀ c ∈ target, c ≠ 0) → ¬ Borne before e target →
      (SameName (name.map UInt16.toNat) target ↔ SameName (byteUnits (foundText junk before name)) target)) ↔
    (Narrow name ∧ (name.length = 255 ∨ leftOver copied junk (longNames before) name.length = 0) ∨
      (Narrow name → Borne before e (lowName name)) ∧ Borne before e (foundText junk before name)) := by
  have htext : ∀ c ∈ foundText junk before name, c ≠ 0 := fun c hc => (mem_takeC hc).1
  constructor
  · intro h
    by_cases hgood : Narrow name ∧ (name.length = 255 ∨ leftOver copied junk (longNames before) name.length = 0)
    · exact .inl hgood
    · have hnot : ¬ SameName (name.map UInt16.toNat) (foundText junk before name) := fun hsame =>
        hgood ⟨narrow_of_sameName hsame, (foundText_eq_iff (narrow_of_sameName hsame) hunits hlen junk before).mp hsame⟩
      refine .inr ⟨fun hnarrow => ?_, ?_⟩
      · by_contra hfree
        have hown : SameName (name.map UInt16.toNat) (lowName name) := by
          rw [← byteUnits_lowName hnarrow]
          exact sameName_self _
        have hsame := (h _ (lowName_ne_zero hnarrow hunits) hfree).mp hown
        rw [sameName_bytes] at hsame
        refine hnot ?_
        rw [← byteUnits_lowName hnarrow, sameName_bytes, hsame]
      · by_contra hfree
        exact hnot ((h _ htext hfree).mpr (sameName_self _))
  · rintro (⟨hnarrow, hend⟩ | ⟨hname, hborne⟩) target htarget hfree
    · have hsame := (foundText_eq_iff hnarrow hunits hlen junk before).mpr hend
      rw [← byteUnits_lowName hnarrow, sameName_bytes] at hsame ⊢
      rw [sameName_bytes, hsame]
    · constructor
      · intro hsame
        have hnarrow := narrow_of_sameName hsame
        rw [← byteUnits_lowName hnarrow] at hsame
        exact absurd ((borne_congr hsame before e).mp (hname hnarrow)) hfree
      · intro hsame
        exact absurd ((borne_congr hsame before e).mp hborne) hfree

theorem longNames_concat (before : List DirItem) (i : DirItem) :
    longNames (before ++ [i]) = longNames before ++ longNames [i] := List.filterMap_append

theorem forall_mem_concat {P : DirItem → Prop} {i : DirItem} : (∀ j ∈ before ++ [i], P j) ↔ (∀ j ∈ before, P j) ∧ P i := by
  rw [List.forall_mem_append, List.forall_mem_singleton]

/-- A long name in front: it answers the lookups nobody has answered yet, and the others go on behind it. -/
theorem forall_clear_cons_long {buf : List Byte} {name : List UInt16} {frag : Nat → DirEntry} {e : DirEntry}
    {is : List DirItem} : (∀ target : List Byte, (∀ c ∈ target, c ≠ 0) → (∀ i ∈ before, ¬ i.Named target) →
      Clear target buf (.long name frag e :: is)) ↔
    (∀ target : List Byte, (∀ c ∈ target, c ≠ 0) → ¬ Borne before e target →
      (SameName (name.map UInt16.toNat) target ↔ SameName (byteUnits (textFound name buf)) target)) ∧
    ∀ target : List Byte, (∀ c ∈ target, c ≠ 0) → (∀ i ∈ before ++ [.long name frag e], ¬ i.Named target) →
      Clear target (storeFound name buf) is := by
  simp only [Clear]
  constructor
  · intro h
    constructor
    · intro target ht hfree
      obtain ⟨hs, hbefore⟩ := not_or.mp hfree
      have hclear := (h target ht fun j hj hnamed => hbefore ⟨j, hj, hnamed⟩).resolve_left hs
      split_ifs at hclear with hl
      · exact iff_of_true hl hclear
      · exact iff_of_false hl hclear.1
    · intro target ht hfree
      obtain ⟨hbefore, hnot⟩ := forall_mem_concat.mp hfree
      obtain ⟨hl, hs⟩ := not_or.mp hnot
      have hclear := (h target ht hbefore).resolve_left hs
      rw [if_neg hl] at hclear
      exact hclear.2
  · rintro ⟨hown, hclear⟩ target ht hfree
    by_cases hs : SameName (byteUnits e.shortName) target
    · exact .inl hs
    · have hiff := hown target ht (not_or.mpr ⟨hs, fun h => h.elim fun j hj => hfree j hj.1 hj.2⟩)
      refine .inr ?_
      split_ifs with hl
      · exact hiff.mp hl
      · exact ⟨mt hiff.mpr hl, hclear target ht (forall_mem_concat.mpr ⟨hfree, not_or.mpr ⟨hl, hs⟩⟩)⟩

/-- Item by item: the lookups that get past the items before. -/
theorem forall_clear_iff {buf : List Byte} (h : Holds buf (leftOver copied junk (longNames before))) {items : List DirItem}
    (hok : ∀ i ∈ items, i.Ok) :
    (∀ target : List Byte, (∀ c ∈ target, c ≠ 0) → (∀ i ∈ before, ¬ i.Named target) → Clear target buf items) ↔
      ∀ pre i post, items = pre ++ i :: post → i.Unmistaken junk (before ++ pre) := by
  induction items generalizing before buf with
  | nil => exact ⟨fun _ pre i post hsplit => by simp at hsplit, fun _ _ _ _ => trivial⟩
  | cons i is ih =>
    have hrest {buf : List Byte} (hbuf : Holds buf (leftOver copied junk (longNames (before ++ [i])))) :=
      ih hbuf fun j hj => hok j (List.mem_cons_of_mem _ hj)
    have hassoc : (∀ pre j post, is = pre ++ j :: post → j.Unmistaken junk (before ++ i :: pre)) ↔
        ∀ pre j post, is = pre ++ j :: post → j.Unmistaken junk (before ++ [i] ++ pre) := by
      simp only [List.append_assoc, List.singleton_append]
    have hi := hok i List.mem_cons_self
    have hplain (hnone : longNames [i] = []) : Holds buf (leftOver copied junk (longNames (before ++ [i]))) := by
      rwa [longNames_concat, hnone, List.append_nil]
    rw [forall_split_cons, List.append_nil, hassoc]
    cases i with
    | deleted e =>
      rw [← hrest (hplain rfl)]
      constructor
      · exact fun h => ⟨trivial, fun target ht hfree => h target ht (forall_mem_concat.mp hfree).1⟩
      · exact fun h target ht hfree => h.2 target ht (forall_mem_concat.mpr ⟨hfree, id⟩)
    | label e =>
      rw [← hrest (hplain rfl)]
      constructor
      · intro h
        refine ⟨?_, fun target ht hfree => (h target ht (forall_mem_concat.mp hfree).1).2⟩
        by_contra hnone
        refine (h e.shortName hi.2.2.2.2 fun j hj hnamed => hnone ⟨j, hj, hnamed⟩).1 (sameName_self _)
      · rintro ⟨⟨j, hj, hnamed⟩, hclear⟩ target ht hfree
        refine ⟨fun hs => hfree j hj ((named_congr hs j).mp hnamed), ?_⟩
        exact hclear target ht (forall_mem_concat.mpr ⟨hfree, id⟩)
    | file e =>
      rw [← hrest (hplain rfl)]
      constructor
      · intro h
        refine ⟨trivial, fun target ht hfree => ?_⟩
        obtain ⟨hbefore, hnot⟩ := forall_mem_concat.mp hfree
        exact (h target ht hbefore).resolve_left hnot
      · rintro ⟨-, hclear⟩ target ht hfree
        by_cases hs : SameName (byteUnits e.shortName) target
        · exact .inl hs
        · exact .inr (hclear target ht (forall_mem_concat.mpr ⟨hfree, hs⟩))
    | long name frag e =>
      obtain ⟨-, hlen, hunits, -⟩ := hi
      have hbuf : Holds (storeFound name buf) (leftOver copied junk (longNames (before ++ [.long name frag e]))) := by
        have hconcat : leftOver copied junk (longNames (before ++ [.long name frag e])) =
            fun p => (copied name p).getD (leftOver copied junk (longNames before) p) := funext fun p => by
          rw [longNames_concat]
          exact leftOver_concat copied junk _ name p
        rw [hconcat]
        exact h.found name
      rw [← hrest hbuf, DirItem.Unmistaken, ← forall_clear_long_iff hunits hlen, forall_clear_cons_long, textFound_eq h]

theorem clear_iff {items : List DirItem} (hok : ∀ i ∈ items, i.Ok) (hjunk : 255 ≤ junk.length) :
    (∀ target : List Byte, (∀ c ∈ target, c ≠ 0) → Clear target junk items) ↔
      ∀ before i after, items = before ++ i :: after → i.Unmistaken junk before := by
  have hiff := @forall_clear_iff junk [] junk (holds_self hjunk) items hok
  simpa only [List.not_mem_nil, false_imp_iff, implies_true, true_imp_iff, List.nil_append] using hiff

end Clear

/-! ## What is listed -/

/-- The name `fat_readdir` gives for an item. -/
def DirItem.listedAs (junk : List Byte) (before : List DirItem) : DirItem → Option (List Byte)
  | .deleted _ | .label _ => none
  | .file e => if e.first = 46 then none else some e.shortName
  | .long name _ _ => some (listedText junk before name)

theorem forall_listed_iff {P : List Byte × DirEntry → Prop} {junk buf : List Byte} {before : List DirItem}
    (h : Holds buf (leftOver stored junk (longNames before))) {items : List DirItem} (hok : ∀ i ∈ items, i.Ok) :
    (∀ p ∈ listed buf items, P p) ↔ ∀ pre i post, items = pre ++ i :: post →
      ∀ text ∈ i.listedAs junk (before ++ pre), ∀ e ∈ i.live, P (text, e) := by
  induction items generalizing before buf with
  | nil => exact ⟨fun _ pre i post hsplit => by simp at hsplit, fun _ _ hp => absurd hp List.not_mem_nil⟩
  | cons i is ih =>
    have hrest {buf : List Byte} (hbuf : Holds buf (leftOver stored junk (longNames (before ++ [i])))) :=
      ih hbuf fun j hj => hok j (List.mem_cons_of_mem _ hj)
    have hassoc : (∀ pre j post, is = pre ++ j :: post →
          ∀ text ∈ j.listedAs junk (before ++ i :: pre), ∀ e ∈ j.live, P (text, e)) ↔
        ∀ pre j post, is = pre ++ j :: post →
          ∀ text ∈ j.listedAs junk (before ++ [i] ++ pre), ∀ e ∈ j.live, P (text, e) := by
      simp only [List.append_assoc, List.singleton_append]
    have hplain (hnone : longNames [i] = []) : Holds buf (leftOver stored junk (longNames (before ++ [i]))) := by
      rwa [longNames_concat, hnone, List.append_nil]
    have hi := hok i List.mem_cons_self
    rw [forall_split_cons, List.append_nil, hassoc]
    cases i with
    | deleted e =>
      rw [← hrest (hplain rfl), listed]
      exact (and_iff_right (by simp [DirItem.listedAs])).symm
    | label e =>
      rw [← hrest (hplain rfl), listed]
      exact (and_iff_right (by simp [DirItem.listedAs])).symm
    | file e =>
      rw [← hrest (hplain rfl), listed, DirItem.listedAs, DirItem.live]
      split_ifs with hdot
      · exact (and_iff_right (by simp)).symm
      · simp only [List.forall_mem_cons, Option.mem_def, Option.some.injEq, forall_eq']
    | long name frag e =>
      have hbuf : Holds (storeListed name buf) (leftOver stored junk (longNames (before ++ [.long name frag e]))) := by
        have hconcat : leftOver stored junk (longNames (before ++ [.long name frag e])) =
            fun p => (stored name p).getD (leftOver stored junk (longNames before) p) := funext fun p => by
          rw [longNames_concat]
          exact leftOver_concat stored junk _ name p
        rw [hconcat]
        exact h.listed name
      rw [← hrest hbuf, listed, DirItem.listedAs, DirItem.live, textListed_eq h hi.2.1]
      simp only [List.forall_mem_cons, Option.mem_def, Option.some.injEq, forall_eq']

theorem length_unpadded_le (cs : List Byte) : (unpadded cs).length ≤ cs.length := by
  rw [unpadded_eq]
  exact (List.rdropWhile_prefix _ _).length_le

theorem length_listedAs {junk : List Byte} {before : List DirItem} {i : DirItem} (hi : i.Ok) {text : List Byte}
    (h : i.listedAs junk before = some text) : text.length ≤ 255 := by
  cases i with
  | deleted e => cases h
  | label e => cases h
  | file e =>
    rw [DirItem.listedAs] at h
    split_ifs at h
    obtain rfl := Option.some.inj h
    have hname := (length_unpadded_le e.name).trans (show e.name.length ≤ 8 by rw [DirEntry.name, length_slice]; omega)
    have hext := (length_unpadded_le e.ext).trans (show e.ext.length ≤ 3 by rw [DirEntry.ext, length_slice]; omega)
    rw [DirEntry.shortName, List.length_append]
    split_ifs
    · rw [List.length_nil]
      omega
    · rw [List.length_cons]
      omega
  | long name frag e =>
    obtain rfl := Option.some.inj h
    have hlen : name.length ≤ 255 := hi.2.1
    refine (length_str_le _).trans ?_
    rw [List.length_append, length_lowName]
    split_ifs
    · rw [List.length_map, List.length_drop, List.length_range]
      omega
    · rw [List.length_nil]
      omega

theorem listedAs_ne_zero {junk : List Byte} {before : List DirItem} {i : DirItem} (hi : i.Ok) {text : List Byte}
    (h : i.listedAs junk before = some text) : ∀ c ∈ text, c ≠ 0 := by
  cases i with
  | deleted e => cases h
  | label e => cases h
  | file e =>
    rw [DirItem.listedAs] at h
    split_ifs at h
    obtain rfl := Option.some.inj h
    exact hi.name_chars
  | long name frag e =>
    obtain rfl := Option.some.inj h
    exact fun c hc => (mem_takeC hc).1

end SakuruBoot.Fat

import SakuruBoot.Bios.FatLimit

/-!
# Names in a FAT32 directory

A well-formed directory is a sequence of `DirItem`s: deleted entries, volume labels, and files with an 8.3 name and
perhaps a long name, whose characters stand in fragments before the entry. `lookup` is the first item that bears a name.
`find_in_dir` writes the fragments of a long name to a buffer without an end mark, over what earlier names and the stack
left there (`textFound`); so it finds what it should exactly if the texts it compares are `Clear` of the target
(`found_eq_lookup_iff`).
-/

namespace SakuruBoot.Fat
open CStr Bytes

/-! ## Equality of names -/

def asciiUpper (n : Nat) : Nat := if 97 ≤ n ∧ n ≤ 122 then n - 32 else n

/-- The name, given by its code units, is the target up to the case of ASCII letters. -/
def SameName (units : List Nat) (target : List Byte) : Prop :=
  units.map asciiUpper = target.map fun c => asciiUpper c.toNat

instance (units : List Nat) (target : List Byte) : Decidable (SameName units target) :=
  inferInstanceAs (Decidable (_ = _))

/-- The code units of a string of bytes. -/
def byteUnits (p : List Byte) : List Nat := p.map UInt8.toNat

theorem toNat_fatToUpper (c : Byte) : (fatToUpper c).toNat = asciiUpper c.toNat := by
  unfold fatToUpper asciiUpper
  by_cases h : 97 ≤ c.toNat ∧ c.toNat ≤ 122
  · rw [if_pos h, if_pos]
    · have hle : (32 : UInt8) ≤ c := by
        rw [UInt8.le_iff_toNat_le]
        exact (show 32 ≤ 97 by decide).trans h.1
      rw [UInt8.toNat_sub_of_le _ _ hle]
      rfl
    · simpa [UInt8.le_iff_toNat_le] using h
  · rw [if_neg h, if_neg]
    simpa [UInt8.le_iff_toNat_le] using h

theorem nameMatch_iff (a b : List Byte) : nameMatch a b = true ↔ SameName (byteUnits (str a)) (str b) := by
  induction a generalizing b with
  | nil =>
    rw [nameMatch, beq_iff_eq]
    cases b with
    | nil => simp [SameName, byteUnits, deref]
    | cons y b =>
      by_cases hy : y = 0
      · simp [SameName, byteUnits, deref, str_cons, hy]
      · simp [SameName, byteUnits, deref, str_cons, hy]
  | cons x a ih =>
    cases b with
    | nil =>
      by_cases hx : x = 0
      · simp [nameMatch, SameName, byteUnits, str_cons, hx]
      · simp [nameMatch, SameName, byteUnits, str_cons, hx]
    | cons y b =>
      rw [nameMatch]
      by_cases hx : x = 0
      · subst hx
        by_cases hy : y = 0
        · simp [SameName, byteUnits, str_cons, hy]
        · simp [SameName, byteUnits, str_cons, hy]
      · by_cases hy : y = 0
        · simp [SameName, byteUnits, str_cons, hx, hy]
        · have hupper : fatToUpper x = fatToUpper y ↔ asciiUpper x.toNat = asciiUpper y.toNat := by
            rw [← toNat_fatToUpper, ← toNat_fatToUpper, UInt8.toNat_inj]
          have ih := ih b
          unfold SameName byteUnits at ih ⊢
          simp only [str_cons, hx, hy, if_false, List.map_cons, List.cons.injEq, ← hupper, ← ih]
          by_cases hxy : fatToUpper x = fatToUpper y
          · simp [hx, hy, hxy]
          · simp [hx, hy, hxy]

theorem nameMatch_iff_of_no_nul {a b : List Byte} (ha : ∀ c ∈ a, c ≠ 0) (hb : ∀ c ∈ b, c ≠ 0) :
    nameMatch a b = true ↔ SameName (byteUnits a) b := by
  rw [nameMatch_iff, str_of_no_nul ha, str_of_no_nul hb]

/-! ## Items -/

/-- The 13 code units of a long-name entry. -/
def DirEntry.units (e : DirEntry) : List Nat :=
  [1, 3, 5, 7, 9, 14, 16, 18, 20, 22, 24, 28, 30].map fun off => field e off 2

/-- A field without the spaces that fill it up. -/
def unpadded : List Byte → List Byte
  | [] => []
  | c :: cs => if c = 32 ∧ unpadded cs = [] then [] else c :: unpadded cs

/-- The 8.3 name: the name and, unless it is blank, a dot and the extension. -/
def DirEntry.shortName (e : DirEntry) : List Byte :=
  unpadded e.name ++ if unpadded e.ext = [] then [] else 46 :: unpadded e.ext

/-- The units a long name is stored as: its own, a NUL and padding. -/
def unitAt (name : List UInt16) (i : Nat) : Nat :=
  if i < name.length then (name.getD i 0).toNat else if i = name.length then 0 else 0xFFFF

def fragUnits (name : List UInt16) (k : Nat) : List Nat := (List.range 13).map fun j => unitAt name (13 * k + j)

/-- How many entries a long name takes. -/
def fragCount (name : List UInt16) : Nat := (name.length + 12) / 13

/-- Entry `k` of a long name, counted from the front of the name. -/
structure LongFragment (name : List UInt16) (k : Nat) (e : DirEntry) : Prop where
  length_eq : e.length = 32
  isLfn : e.isLfn = true
  first_eq : e.first = k + 1 + if k + 1 = fragCount name then 64 else 0
  units_eq : e.units = fragUnits name k

/-- The entry of a file or a directory. -/
structure LiveEntry (e : DirEntry) : Prop where
  first_ne : e.first ≠ 0
  not_deleted : e.first ≠ 0xE5
  not_label : e.isVolumeId = false
  name_ne : e.shortName ≠ []
  name_chars : ∀ c ∈ e.shortName, c ≠ 0

inductive DirItem
  | deleted (e : DirEntry)
  | label (e : DirEntry)
  | file (e : DirEntry)
  /-- The fragments stand from the last to the first before the entry. -/
  | long (name : List UInt16) (frag : Nat → DirEntry) (e : DirEntry)

namespace DirItem

/-- The entries of the item, in their order on the disk. -/
def entries : DirItem → List DirEntry
  | deleted e | label e | file e => [e]
  | long name frag e => ((List.range (fragCount name)).map frag).reverse ++ [e]

/-- The entry of a live item. -/
def live : DirItem → Option DirEntry
  | deleted _ | label _ => none
  | file e | long _ _ e => some e

/-- Well-formed items. -/
def Ok : DirItem → Prop
  | deleted e => e.first = 0xE5
  | label e => e.first ≠ 0 ∧ e.first ≠ 0xE5 ∧ e.isVolumeId = true ∧ e.isLfn = false ∧ ∀ c ∈ e.shortName, c ≠ 0
  | file e => LiveEntry e
  | long name frag e => name ≠ [] ∧ name.length ≤ 255 ∧ (∀ u ∈ name, u ≠ 0) ∧
      (∀ k < fragCount name, LongFragment name k (frag k)) ∧ LiveEntry e ∧ e.first ≠ 46

/-- The item is live, and its long name or its 8.3 name is the target. -/
def Named (target : List Byte) : DirItem → Prop
  | deleted _ | label _ => False
  | file e => SameName (byteUnits e.shortName) target
  | long name _ e => SameName (name.map UInt16.toNat) target ∨ SameName (byteUnits e.shortName) target

instance (target : List Byte) : DecidablePred (Named target)
  | deleted _ | label _ => inferInstanceAs (Decidable False)
  | file _ => inferInstanceAs (Decidable (SameName _ _))
  | long _ _ _ => inferInstanceAs (Decidable (_ ∨ _))

end DirItem

/-- The entry of the first item that bears the name. -/
def lookup (target : List Byte) (items : List DirItem) : Option DirEntry :=
  (items.find? fun i => i.Named target).bind DirItem.live

/-! ## What the driver reads off an item -/

def lowBytes (units : List Nat) : List Byte := units.map Nat.toUInt8

/-- `lfn_buf` after `find_in_dir` has gone over the fragments of a name. -/
def storeFound (name : List UInt16) (buf : List Byte) : List Byte :=
  (List.range (fragCount name)).foldr (fun k buf => placeLfn buf k (str (lowBytes (fragUnits name k)))) buf

/-- The text `find_in_dir` has for a long name. -/
def textFound (name : List UInt16) (buf : List Byte) : List Byte := str ((storeFound name buf).take 255)

/-- `lfn_buf` after `fat_readdir` has gone over the fragments of a name. -/
def storeListed (name : List UInt16) (buf : List Byte) : List Byte :=
  (List.range (fragCount name)).foldr (fun k buf => placeLfn buf k (lowBytes (fragUnits name k))) buf

/-- The text `fat_readdir` has for a long name. -/
def textListed (name : List UInt16) (buf : List Byte) : List Byte := str ((storeListed name buf).take 255)

theorem lfnChars_eq {e : DirEntry} (h : e.length = 32) : e.lfnChars = lowBytes e.units := by
  rw [DirEntry.lfnChars, lowBytes, DirEntry.units, List.map_map]
  refine List.map_congr_left fun off hoff => ?_
  have hle : off + 2 ≤ e.length := by
    rw [h]
    revert off
    decide
  have hlen : 2 ≤ (e.drop off).length := by
    rw [List.length_drop]
    omega
  obtain ⟨x, p, hdrop⟩ := List.exists_cons_of_length_pos (Nat.zero_lt_of_lt hlen)
  rw [hdrop, List.length_cons] at hlen
  obtain ⟨y, rest, rfl⟩ := List.exists_cons_of_length_pos (Nat.lt_of_succ_lt_succ hlen)
  rw [Function.comp_apply, field, slice, hdrop]
  show x = (x.toNat + 256 * (y.toNat + 256 * 0)).toUInt8
  apply UInt8.toNat_inj.mp
  show x.toNat = (x.toNat + 256 * (y.toNat + 256 * 0)) % 256
  have hx := x.toNat_lt
  omega

theorem fragCount_le {name : List UInt16} (h : name.length ≤ 255) : fragCount name ≤ 20 := by
  rw [fragCount]
  omega

theorem fragCount_pos {name : List UInt16} (h : name ≠ []) : 0 < fragCount name := by
  have := List.length_pos_iff.mpr h
  rw [fragCount]
  omega

theorem LiveEntry.not_lfn {e : DirEntry} (h : LiveEntry e) : e.isLfn = false := by
  have hlabel := h.not_label
  rw [← Bool.not_eq_true, DirEntry.isLfn, beq_iff_eq]
  intro hattr
  rw [DirEntry.isVolumeId, hattr] at hlabel
  exact absurd hlabel (by decide)

/-! ## The 8.3 name -/

theorem unpadded_concat (cs : List Byte) (c : Byte) :
    unpadded (cs ++ [c]) = if c = 32 then unpadded cs else cs ++ [c] := by
  induction cs with
  | nil => simp [unpadded]
  | cons x cs ih =>
    rw [List.cons_append, unpadded, ih]
    split_ifs with hc hx hx
    · rw [unpadded, if_pos hx]
    · rw [unpadded, if_neg hx]
    · simp at hx
    · rfl

theorem unpadded_eq (cs : List Byte) : unpadded cs = cs.rdropWhile (· == 32) := by
  induction cs using List.reverseRecOn with
  | nil => rfl
  | append_singleton cs c ih =>
    rw [unpadded_concat, List.rdropWhile_concat, ih]
    simp only [beq_iff_eq]

theorem fat83ToStr_eq (e : DirEntry) : fat83ToStr e.name e.ext = e.shortName := by
  rw [fat83ToStr, DirEntry.shortName, unpadded_eq, unpadded_eq]
  simp only [List.isEmpty_iff]
  split_ifs
  · exact (List.append_nil _).symm
  · rfl

/-- Both loops place the fragments of a long name from the last to the first. -/
theorem run_fragments {ρ : Type} {run : List DirEntry → LfnState → ρ} {frag : Nat → DirEntry} {piece : Nat → List Byte}
    {n : Nat} (hstep : ∀ k < n, ∀ es s, run (frag k :: es) s =
      run es { buf := placeLfn s.buf k (piece k), len := true }) (es : List DirEntry) (s : LfnState) :
    run (((List.range n).map frag).reverse ++ es) s =
      run es { buf := (List.range n).foldr (fun k buf => placeLfn buf k (piece k)) s.buf, len := s.len || 0 < n } := by
  induction n generalizing s with
  | zero => simp
  | succ n ih =>
    rw [List.range_succ, List.map_append, List.reverse_append, List.map_singleton, List.reverse_singleton,
      List.singleton_append, List.cons_append, hstep n (Nat.lt_succ_self n)]
    rw [ih fun k hk => hstep k (by omega), List.foldr_append]
    simp

/-! ## `find_in_dir` on items -/

section Find

variable {target : List Byte}

theorem LongFragment.first_bounds {name : List UInt16} {k : Nat} {e : DirEntry} (h : LongFragment name k e)
    (hname : name.length ≤ 255) (hk : k < fragCount name) :
    e.first ≠ 0 ∧ e.first ≠ 0xE5 ∧ e.first ≠ 46 ∧ e.first % 64 = k + 1 := by
  have hle := fragCount_le hname
  rw [h.first_eq]
  split_ifs <;> omega

theorem findStep_fragment {name : List UInt16} {k : Nat} {e : DirEntry} (h : LongFragment name k e)
    (hname : name.length ≤ 255) (hk : k < fragCount name) (s : LfnState) :
    findStep target s e = .more { buf := placeLfn s.buf k (str (lowBytes (fragUnits name k))), len := true } := by
  obtain ⟨h0, h1, -, hord⟩ := h.first_bounds hname hk
  rw [findStep, if_neg h0, if_neg h1, if_pos h.isLfn]
  dsimp only
  rw [hord, if_neg (Nat.succ_ne_zero k), lfnChars_eq h.length_eq, h.units_eq, Nat.add_sub_cancel]

theorem findEntries_fragments {name : List UInt16} {frag : Nat → DirEntry} (hname : name.length ≤ 255)
    (hfrag : ∀ k < fragCount name, LongFragment name k (frag k)) (es : List DirEntry) (s : LfnState) :
    findEntries target (((List.range (fragCount name)).map frag).reverse ++ es) s =
      findEntries target es { buf := storeFound name s.buf, len := s.len || 0 < fragCount name } := by
  refine run_fragments (fun k hk es s => ?_) es s
  rw [findEntries, findStep_fragment (hfrag k hk) hname hk]

theorem findStep_plain {e : DirEntry} (h0 : e.first ≠ 0) (h1 : e.first ≠ 0xE5) (hlfn : e.isLfn = false)
    (hchars : ∀ c ∈ e.shortName, c ≠ 0) (htarget : ∀ c ∈ target, c ≠ 0) (s : LfnState) :
    findStep target s e =
      if s.len = true ∧ SameName (byteUnits s.text) target ∨ SameName (byteUnits e.shortName) target then .done (some e)
      else .more { s with len := false } := by
  have htext : nameMatch s.text target = true ↔ SameName (byteUnits s.text) target :=
    nameMatch_iff_of_no_nul (fun c hc => (mem_takeC hc).1) htarget
  have hshort : nameMatch (fat83ToStr e.name e.ext) target = true ↔ SameName (byteUnits e.shortName) target := by
    rw [fat83ToStr_eq, nameMatch_iff_of_no_nul hchars htarget]
  rw [findStep, if_neg h0, if_neg h1, hlfn, if_neg Bool.false_ne_true]
  simp only [Bool.and_eq_true, htext, hshort]
  by_cases hlong : s.len = true ∧ SameName (byteUnits s.text) target
  · rw [if_pos hlong, if_pos (.inl hlong)]
  · rw [if_neg hlong]
    by_cases hs : SameName (byteUnits e.shortName) target
    · rw [if_pos hs, if_pos (.inr hs)]
    · rw [if_neg hs, if_neg (not_or.mpr ⟨hlong, hs⟩)]

/-- What `find_in_dir` returns from items, with what its buffer holds. -/
def found (target : List Byte) : List Byte → List DirItem → Option DirEntry
  | _, [] => none
  | buf, .deleted _ :: is => found target buf is
  | buf, .label e :: is | buf, .file e :: is =>
    if SameName (byteUnits e.shortName) target then some e else found target buf is
  | buf, .long name _ e :: is =>
    if SameName (byteUnits (textFound name buf)) target ∨ SameName (byteUnits e.shortName) target then some e
    else found target (storeFound name buf) is

theorem findEntries_items {items : List DirItem} (hok : ∀ i ∈ items, i.Ok) (htarget : ∀ c ∈ target, c ≠ 0)
    {tail : List DirEntry} (htail : ∀ e ∈ tail.head?, e.first = 0) (buf : List Byte) :
    (findEntries target (items.flatMap DirItem.entries ++ tail) { buf := buf, len := false }).result =
      found target buf items := by
  induction items generalizing buf with
  | nil =>
    cases tail with
    | nil => rfl
    | cons e tail =>
      rw [List.flatMap_nil, List.nil_append, findEntries, findStep, if_pos (htail e rfl)]
      rfl
  | cons i is ih =>
    have ih := ih fun i hi => hok i (List.mem_cons_of_mem _ hi)
    have hi := hok i List.mem_cons_self
    rw [List.flatMap_cons, List.append_assoc]
    cases i with
    | deleted e =>
      have h0 : e.first ≠ 0 := by rw [show e.first = 0xE5 from hi]; decide
      rw [DirItem.entries, List.singleton_append, findEntries, findStep, if_neg h0,
        if_pos (show e.first = 0xE5 from hi), found]
      exact ih buf
    | label e =>
      obtain ⟨h0, h1, -, hlfn, hchars⟩ := hi
      rw [DirItem.entries, List.singleton_append, findEntries, findStep_plain h0 h1 hlfn hchars htarget, found]
      simp only [Bool.false_eq_true, false_and, false_or]
      split_ifs
      · rfl
      · exact ih buf
    | file e =>
      rw [DirItem.entries, List.singleton_append, findEntries,
        findStep_plain hi.first_ne hi.not_deleted hi.not_lfn hi.name_chars htarget, found]
      simp only [Bool.false_eq_true, false_and, false_or]
      split_ifs
      · rfl
      · exact ih buf
    | long name frag e =>
      obtain ⟨hne, hlen, -, hfrag, hlive, -⟩ := hi
      rw [DirItem.entries, List.append_assoc, findEntries_fragments hlen hfrag, List.singleton_append,
        findEntries, findStep_plain hlive.first_ne hlive.not_deleted hlive.not_lfn hlive.name_chars htarget, found]
      have hpos := fragCount_pos hne
      have htext : LfnState.text { buf := storeFound name buf, len := true } = textFound name buf := rfl
      simp only [hpos, decide_true, Bool.false_or, true_and]
      rw [htext]
      split_ifs
      · rfl
      · exact ih (storeFound name buf)

end Find

/-! ## When the right entry is found -/

/-- No two live items have the same entry. -/
def Distinct (items : List DirItem) : Prop := (items.filterMap DirItem.live).Nodup

/-- Up to the first item that bears the target, no volume label is called so and `lfn_buf` holds it for no other long
name; and if that item has it as its long name alone, `lfn_buf` holds it there. -/
def Clear (target : List Byte) : List Byte → List DirItem → Prop
  | _, [] => True
  | buf, .deleted _ :: is => Clear target buf is
  | buf, .label e :: is => ¬ SameName (byteUnits e.shortName) target ∧ Clear target buf is
  | buf, .file e :: is => SameName (byteUnits e.shortName) target ∨ Clear target buf is
  | buf, .long name _ e :: is =>
    SameName (byteUnits e.shortName) target ∨
      if SameName (name.map UInt16.toNat) target then SameName (byteUnits (textFound name buf)) target
      else ¬ SameName (byteUnits (textFound name buf)) target ∧ Clear target (storeFound name buf) is

theorem lookup_cons_of_named {target : List Byte} {i : DirItem} (h : i.Named target) (is : List DirItem) :
    lookup target (i :: is) = i.live := by
  rw [lookup, List.find?_cons_of_pos (by simpa using h), Option.bind_some]

theorem lookup_cons_of_not_named {target : List Byte} {i : DirItem} (h : ¬ i.Named target) (is : List DirItem) :
    lookup target (i :: is) = lookup target is := by
  rw [lookup, List.find?_cons_of_neg (by simpa using h), lookup]

theorem mem_live_of_lookup {target : List Byte} {items : List DirItem} {e : DirEntry}
    (h : lookup target items = some e) : ∃ i ∈ items, i.live = some e ∧ i.Named target := by
  rw [lookup, Option.bind_eq_some_iff] at h
  obtain ⟨i, hfind, hlive⟩ := h
  exact ⟨i, List.mem_of_find?_eq_some hfind, hlive, by simpa using List.find?_some hfind⟩

theorem mem_of_found {target buf : List Byte} {items : List DirItem} {e : DirEntry}
    (h : found target buf items = some e) : (∃ i ∈ items, i.live = some e) ∨ DirItem.label e ∈ items := by
  induction items generalizing buf with
  | nil => cases h
  | cons i is ih =>
    have hrest {buf : List Byte} (h : found target buf is = some e) :
        (∃ j ∈ i :: is, j.live = some e) ∨ DirItem.label e ∈ i :: is := by
      rcases ih h with ⟨j, hj, hlive⟩ | hlabel
      · exact .inl ⟨j, List.mem_cons_of_mem _ hj, hlive⟩
      · exact .inr (List.mem_cons_of_mem _ hlabel)
    cases i with
    | deleted d => exact hrest h
    | label d =>
      rw [found] at h
      split_ifs at h
      · obtain rfl := Option.some.inj h
        exact .inr List.mem_cons_self
      · exact hrest h
    | file d =>
      rw [found] at h
      split_ifs at h
      · exact .inl ⟨_, List.mem_cons_self, h⟩
      · exact hrest h
    | long name frag d =>
      rw [found] at h
      split_ifs at h
      · exact .inl ⟨_, List.mem_cons_self, h⟩
      · exact hrest h

theorem LiveEntry.ne_label {e d : DirEntry} (h : LiveEntry e) (hd : d.isVolumeId = true) : d ≠ e := by
  rintro rfl
  rw [h.not_label] at hd
  cases hd

section Right

variable {target : List Byte} {i : DirItem} {is : List DirItem} {e : DirEntry}

theorem liveEntry_of_live (hi : i.Ok) (he : i.live = some e) : LiveEntry e := by
  cases i with
  | deleted d => cases he
  | label d => cases he
  | file d =>
    obtain rfl := Option.some.inj he
    exact hi
  | long name frag d =>
    obtain rfl := Option.some.inj he
    exact hi.2.2.2.2.1

theorem Distinct.tail (h : Distinct (i :: is)) : Distinct is := by
  rw [Distinct, List.filterMap_cons] at h
  split at h
  · exact h
  · exact (List.nodup_cons.mp h).2

theorem not_found_behind (hdistinct : Distinct (i :: is)) (hok : ∀ j ∈ i :: is, j.Ok) (he : i.live = some e) :
    (∀ buf, found target buf is ≠ some e) ∧ lookup target is ≠ some e := by
  rw [Distinct, List.filterMap_cons_some he, List.nodup_cons, List.mem_filterMap] at hdistinct
  refine ⟨fun buf hfound => ?_, fun hlookup => ?_⟩
  · rcases mem_of_found hfound with hlive | hlabel
    · exact hdistinct.1 hlive
    · have hl := hok _ (List.mem_cons_of_mem _ hlabel)
      exact (liveEntry_of_live (hok i List.mem_cons_self) he).ne_label hl.2.2.1 rfl
  · obtain ⟨j, hj, hlive, -⟩ := mem_live_of_lookup hlookup
    exact hdistinct.1 ⟨j, hj, hlive⟩

theorem found_eq_lookup_iff {items : List DirItem} (hok : ∀ i ∈ items, i.Ok) (hdistinct : Distinct items)
    (buf : List Byte) : found target buf items = lookup target items ↔ Clear target buf items := by
  induction items generalizing buf with
  | nil => exact ⟨fun _ => trivial, fun _ => rfl⟩
  | cons i is ih =>
    have ih := ih (fun j hj => hok j (List.mem_cons_of_mem _ hj)) hdistinct.tail
    cases i with
    | deleted e =>
      rw [found, lookup_cons_of_not_named id, Clear]
      exact ih buf
    | label e =>
      rw [found, lookup_cons_of_not_named id, Clear]
      by_cases hs : SameName (byteUnits e.shortName) target
      · rw [if_pos hs]
        refine iff_of_false (fun h => ?_) fun h => h.1 hs
        obtain ⟨j, hj, hlive, -⟩ := mem_live_of_lookup h.symm
        have hl := liveEntry_of_live (hok j (List.mem_cons_of_mem _ hj)) hlive
        exact hl.ne_label (hok _ List.mem_cons_self).2.2.1 rfl
      · rw [if_neg hs, ih]
        exact (and_iff_right hs).symm
    | file e =>
      rw [found, Clear]
      by_cases hs : SameName (byteUnits e.shortName) target
      · rw [if_pos hs, lookup_cons_of_named (show DirItem.Named target (.file e) from hs)]
        exact iff_of_true rfl (.inl hs)
      · rw [if_neg hs, lookup_cons_of_not_named (show ¬ DirItem.Named target (.file e) from hs), ih]
        exact (or_iff_right hs).symm
    | long name frag e =>
      have hbehind : (∀ buf, found target buf is ≠ some e) ∧ lookup target is ≠ some e :=
        not_found_behind hdistinct hok rfl
      rw [found, Clear]
      by_cases hs : SameName (byteUnits e.shortName) target
      · rw [if_pos (.inr hs), lookup_cons_of_named (show DirItem.Named target (.long name frag e) from .inr hs)]
        exact iff_of_true rfl (.inl hs)
      · simp only [hs, or_false, false_or]
        by_cases hl : SameName (name.map UInt16.toNat) target
        · rw [if_pos hl, lookup_cons_of_named (show DirItem.Named target (.long name frag e) from .inl hl)]
          split_ifs with ht
          · exact iff_of_true rfl ht
          · exact iff_of_false (hbehind.1 _) ht
        · have hnot : ¬ DirItem.Named target (.long name frag e) := not_or.mpr ⟨hl, hs⟩
          rw [if_neg hl, lookup_cons_of_not_named hnot]
          split_ifs with ht
          · exact iff_of_false (fun h => hbehind.2 h.symm) fun h => h.1 ht
          · rw [ih]
            exact (and_iff_right ht).symm

end Right

/-! ## `fat_readdir` on items -/

/-- What a listing of entries hands to the callback, with the entry each name stands for. -/
def listNamed : List DirEntry → LfnState → List (List Byte × DirEntry)
  | [], _ => []
  | e :: es, s =>
    match listStep s e with
    | .stop => []
    | .skip s => listNamed es s
    | .entry name s => (name, e) :: listNamed es s

theorem listAll_snd (es : List DirEntry) (s : LfnState) :
    (listAll es s).2 = (listNamed es s).map fun p => (p.1, p.2.isDir) := by
  induction es generalizing s with
  | nil => rfl
  | cons e es ih =>
    rw [listAll, listNamed]
    cases listStep s e with
    | stop => rfl
    | skip s => exact ih s
    | entry name s => exact congrArg (_ :: ·) (ih s)

/-- What `fat_readdir` lists of items, with what its buffer holds. -/
def listed : List Byte → List DirItem → List (List Byte × DirEntry)
  | _, [] => []
  | buf, .deleted _ :: is | buf, .label _ :: is => listed buf is
  | buf, .file e :: is => if e.first = 46 then listed buf is else (e.shortName, e) :: listed buf is
  | buf, .long name _ e :: is => (textListed name buf, e) :: listed (storeListed name buf) is

section List

variable {target : List Byte}

theorem listStep_fragment {name : List UInt16} {k : Nat} {e : DirEntry} (h : LongFragment name k e)
    (hname : name.length ≤ 255) (hk : k < fragCount name) (s : LfnState) :
    listStep s e = .skip { buf := placeLfn s.buf k (lowBytes (fragUnits name k)), len := true } := by
  obtain ⟨h0, h1, hdot, hord⟩ := h.first_bounds hname hk
  have hle := fragCount_le hname
  have hin : (decide (k + 1 = 0) || decide (20 < k + 1)) = false := by
    rw [Bool.or_eq_false_iff, decide_eq_false_iff_not, decide_eq_false_iff_not]
    omega
  rw [listStep, if_neg h0, if_neg h1, if_neg hdot, h.isLfn, Bool.not_true, Bool.and_false, if_neg Bool.false_ne_true,
    if_pos rfl]
  dsimp only
  rw [hord, hin, if_neg Bool.false_ne_true, lfnChars_eq h.length_eq, h.units_eq, Nat.add_sub_cancel]

theorem listNamed_fragments {name : List UInt16} {frag : Nat → DirEntry} (hname : name.length ≤ 255)
    (hfrag : ∀ k < fragCount name, LongFragment name k (frag k)) (es : List DirEntry) (s : LfnState) :
    listNamed (((List.range (fragCount name)).map frag).reverse ++ es) s =
      listNamed es { buf := storeListed name s.buf, len := s.len || 0 < fragCount name } := by
  refine run_fragments (fun k hk es s => ?_) es s
  rw [listNamed, listStep_fragment (hfrag k hk) hname hk]

theorem listStep_live {e : DirEntry} (h : LiveEntry e) (hdot : e.first ≠ 46) (s : LfnState) :
    listStep s e =
      if s.len then .entry s.text { s with len := false } else .entry e.shortName s := by
  have hname : str (fat83ToStr e.name e.ext) = e.shortName := by
    rw [fat83ToStr_eq, str_of_no_nul h.name_chars]
  have hne : e.shortName.isEmpty = false := by
    rw [← Bool.not_eq_true, List.isEmpty_iff]
    exact h.name_ne
  rw [listStep, if_neg h.first_ne, if_neg h.not_deleted, if_neg hdot, h.not_label, Bool.false_and,
    if_neg Bool.false_ne_true, h.not_lfn, if_neg Bool.false_ne_true]
  dsimp only
  rw [hname, hne, if_neg Bool.false_ne_true]

theorem listNamed_items {items : List DirItem} (hok : ∀ i ∈ items, i.Ok) {tail : List DirEntry}
    (htail : ∀ e ∈ tail.head?, e.first = 0) (buf : List Byte) :
    listNamed (items.flatMap DirItem.entries ++ tail) { buf := buf, len := false } = listed buf items := by
  induction items generalizing buf with
  | nil =>
    cases tail with
    | nil => rfl
    | cons e tail =>
      rw [List.flatMap_nil, List.nil_append, listNamed, listStep, if_pos (htail e rfl)]
      rfl
  | cons i is ih =>
    have ih := ih fun i hi => hok i (List.mem_cons_of_mem _ hi)
    have hi := hok i List.mem_cons_self
    rw [List.flatMap_cons, List.append_assoc]
    cases i with
    | deleted e =>
      have h0 : e.first ≠ 0 := by rw [show e.first = 0xE5 from hi]; decide
      rw [DirItem.entries, List.singleton_append, listNamed, listStep, if_neg h0, if_pos (show e.first = 0xE5 from hi),
        listed]
      exact ih buf
    | label e =>
      obtain ⟨h0, h1, hlabel, hlfn, -⟩ := hi
      rw [DirItem.entries, List.singleton_append, listNamed, listStep, if_neg h0, if_neg h1, hlabel, hlfn, listed]
      by_cases hdot : e.first = 46
      · rw [if_pos hdot]
        exact ih buf
      · rw [if_neg hdot, if_pos (show (true && !false) = true from rfl)]
        exact ih buf
    | file e =>
      rw [DirItem.entries, List.singleton_append, listNamed, listed]
      by_cases hdot : e.first = 46
      · rw [listStep, if_neg hi.first_ne, if_neg hi.not_deleted, if_pos hdot, if_pos hdot]
        exact ih buf
      · rw [listStep_live hi hdot, if_neg hdot]
        exact congrArg (_ :: ·) (ih buf)
    | long name frag e =>
      obtain ⟨hne, hlen, -, hfrag, hlive, hdot⟩ := hi
      have hpos := fragCount_pos hne
      have htext : LfnState.text { buf := storeListed name buf, len := true } = textListed name buf := rfl
      rw [DirItem.entries, List.append_assoc, listNamed_fragments hlen hfrag, List.singleton_append,
        listNamed, listStep_live hlive hdot, listed]
      simp only [hpos, decide_true, Bool.or_true, if_true]
      rw [htext]
      exact congrArg (_ :: ·) (ih (storeListed name buf))

end List

end SakuruBoot.Fat

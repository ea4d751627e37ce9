import SakuruBoot.Uefi.Ext4ImageRead

/-!
# Extent trees with unwritten extents

`ExtentTree` is an extent tree of depth 0 or 1 whose extents may be unwritten: allocated blocks that
read as zeros. An unwritten extent is marked in its length field, to which 32768 is added.

`extent_phys` takes that field for the length. An unwritten extent is then found for its own blocks and
for the 32768 blocks behind them, before the extents that really cover those. `extentPhys_iff` says for
which blocks the result is right all the same.
-/

namespace SakuruBoot
open CStr (Byte u8 u32 u64)
open Bytes

/-- The test of the leaf loop on the fields of an extent, in 32 bits. -/
def Extent.hit (lblock : Nat) (e : Extent) : Bool := e.first ≤ lblock && lblock < u32 (e.first + e.len)

theorem Extent.hit_iff {lblock : Nat} {e : Extent} :
    e.hit lblock = true ↔ e.first ≤ lblock ∧ lblock < u32 (e.first + e.len) := by
  simp [Extent.hit]

/-- An extent of `len` blocks from logical block `first` on. -/
structure TreeExtent where
  first : Nat
  len : Nat
  start : Nat
  unwritten : Bool

namespace TreeExtent

/-- The extent with the length field that is on disk. -/
def raw (e : TreeExtent) : Extent :=
  { first := e.first, len := if e.unwritten then e.len + extInitMaxLen else e.len, start := e.start }

/-- 1 to 32768 initialised or 1 to 32767 unwritten blocks, below the largest block number. -/
structure Ok (e : TreeExtent) : Prop where
  len_pos : 0 < e.len
  len_le : e.len + (if e.unwritten then 1 else 0) ≤ extInitMaxLen
  last_lt : e.first + e.len < 2 ^ 32
  start_pos : 0 < e.start
  start_lt : e.start < 2 ^ 48

def covers (lblock : Nat) (e : TreeExtent) : Bool := e.first ≤ lblock && lblock < e.first + e.len

/-- Sorted, without overlap. -/
def Sorted (es : List TreeExtent) : Prop := es.Pairwise fun a b => a.first + a.len ≤ b.first

/-- What a block is mapped to; zero for a hole. -/
def phys (es : List TreeExtent) (lblock : Nat) : Nat :=
  match es.find? (covers lblock) with
  | some e => if e.unwritten then 0 else e.start + (lblock - e.first)
  | none => 0

/-- The test of the leaf loop: the length field is taken for a length, in 32 bits. -/
def hit (lblock : Nat) (e : TreeExtent) : Bool := e.raw.hit lblock

/-- An unwritten extent that the leaf loop takes for one that covers the block. -/
def shadows (lblock : Nat) (e : TreeExtent) : Bool := e.unwritten && e.hit lblock

/-- What the leaf loop returns. -/
def scan (es : List TreeExtent) (lblock : Nat) : Nat :=
  match es.find? (hit lblock) with
  | some e => e.start + (lblock - e.first)
  | none => 0

/-- The first unwritten extent that is taken for the block maps it where it belongs. -/
def Right (es : List TreeExtent) (lblock : Nat) : Prop :=
  ∀ u, es.find? (shadows lblock) = some u →
    ∃ e ∈ es, e.unwritten = false ∧ e.covers lblock = true ∧ e.start + u.first = u.start + e.first

/-! ## Lists of extents -/

variable {es : List TreeExtent} {lblock : Nat}

theorem covers_iff {e : TreeExtent} : e.covers lblock = true ↔ e.first ≤ lblock ∧ lblock < e.first + e.len := by
  simp [covers]

theorem hit_eq_covers {e : TreeExtent} (hok : e.Ok) (hinit : e.unwritten = false) : e.hit lblock = e.covers lblock := by
  have hlast : u32 (e.first + e.len) = e.first + e.len := Nat.mod_eq_of_lt hok.last_lt
  simp [hit, Extent.hit, covers, raw, hinit, hlast]

theorem first_le_of_shadows {e : TreeExtent} (h : e.shadows lblock = true) : e.first ≤ lblock :=
  (Extent.hit_iff.mp (Bool.and_eq_true_iff.mp h).2).1

theorem covers_unique (hsorted : Sorted es) {a b : TreeExtent} (ha : a ∈ es) (hb : b ∈ es)
    (hca : a.covers lblock = true) (hcb : b.covers lblock = true) : a = b := by
  rw [covers_iff] at hca hcb
  by_contra hne
  have happart : es.Pairwise fun a b => a.first + a.len ≤ b.first ∨ b.first + b.len ≤ a.first :=
    hsorted.imp Or.inl
  have : Std.Symm fun a b : TreeExtent => a.first + a.len ≤ b.first ∨ b.first + b.len ≤ a.first :=
    ⟨fun _ _ => Or.symm⟩
  have := happart.forall ha hb hne
  omega

theorem find?_covers (hsorted : Sorted es) {e : TreeExtent} (he : e ∈ es) (hc : e.covers lblock = true) :
    es.find? (covers lblock) = some e := by
  cases hfind : es.find? (covers lblock) with
  | none => exact absurd hc (by simpa using List.find?_eq_none.mp hfind e he)
  | some d =>
    rw [covers_unique hsorted (List.mem_of_find?_eq_some hfind) he (List.find?_some hfind) hc]

/-- Before an unwritten extent that is found stands no initialised one that is. -/
theorem find?_hit_of_shadows (hsorted : Sorted es) (hok : ∀ e ∈ es, e.Ok) {u : TreeExtent}
    (hu : es.find? (shadows lblock) = some u) : es.find? (hit lblock) = some u := by
  induction es with
  | nil => cases hu
  | cons a es ih =>
    obtain ⟨hhead, htail⟩ := List.pairwise_cons.mp hsorted
    by_cases hhit : a.hit lblock = true
    · cases hw : a.unwritten with
      | true =>
        rw [List.find?_cons_of_pos (by simp [shadows, hw, hhit])] at hu
        rw [List.find?_cons_of_pos hhit, hu]
      | false =>
        rw [List.find?_cons_of_neg (by simp [shadows, hw])] at hu
        rw [hit_eq_covers (hok a List.mem_cons_self) hw, covers_iff] at hhit
        have hbehind := hhead u (List.mem_of_find?_eq_some hu)
        have hle := first_le_of_shadows (List.find?_some hu)
        omega
    · rw [List.find?_cons_of_neg (by simp [shadows, hhit])] at hu
      rw [List.find?_cons_of_neg hhit]
      exact ih htail (fun e he => hok e (List.mem_cons_of_mem _ he)) hu

/-- Without an unwritten extent in the way, the search finds the initialised extent that covers the block. -/
theorem scan_of_no_shadow (hsorted : Sorted es) (hok : ∀ e ∈ es, e.Ok)
    (hnone : es.find? (shadows lblock) = none) : scan es lblock = phys es lblock := by
  have hinit : ∀ e ∈ es, e.hit lblock = true → e.unwritten = false ∧ e.covers lblock = true := by
    intro e he hhit
    have hw : e.unwritten = false := by
      have := List.find?_eq_none.mp hnone e he
      simpa [shadows, hhit] using this
    exact ⟨hw, by rwa [← hit_eq_covers (hok e he) hw]⟩
  rw [scan, phys]
  cases hfind : es.find? (hit lblock) with
  | some e =>
    have he := List.mem_of_find?_eq_some hfind
    obtain ⟨hw, hc⟩ := hinit e he (List.find?_some hfind)
    rw [find?_covers hsorted he hc]
    simp [hw]
  | none =>
    cases hcov : es.find? (covers lblock) with
    | none => rfl
    | some e =>
      have he := List.mem_of_find?_eq_some hcov
      cases hw : e.unwritten with
      | true => simp [hw]
      | false =>
        have hhit : e.hit lblock = true := by
          rw [hit_eq_covers (hok e he) hw]
          exact List.find?_some hcov
        exact absurd hhit (by simpa using List.find?_eq_none.mp hfind e he)

theorem scan_eq_phys_iff (hsorted : Sorted es) (hok : ∀ e ∈ es, e.Ok) :
    scan es lblock = phys es lblock ↔ Right es lblock := by
  cases hshadow : es.find? (shadows lblock) with
  | none => simp [Right, hshadow, scan_of_no_shadow hsorted hok hshadow]
  | some u =>
    have hu := first_le_of_shadows (List.find?_some hshadow)
    have hstart := (hok u (List.mem_of_find?_eq_some hshadow)).start_pos
    rw [scan, find?_hit_of_shadows hsorted hok hshadow]
    simp only [Right, hshadow, Option.some.injEq, forall_eq']
    constructor
    · -- the result is not zero, so an initialised extent covers the block
      intro heq
      rw [phys] at heq
      cases hcov : es.find? (covers lblock) with
      | none =>
        rw [hcov] at heq
        dsimp only at heq
        omega
      | some e =>
        have hc := List.find?_some hcov
        rw [hcov] at heq
        dsimp only at heq
        cases hw : e.unwritten with
        | true =>
          rw [hw, if_pos rfl] at heq
          omega
        | false =>
          rw [hw, if_neg (by decide)] at heq
          rw [covers_iff] at hc
          exact ⟨e, List.mem_of_find?_eq_some hcov, hw, covers_iff.mpr hc, by omega⟩
    · rintro ⟨e, he, hw, hc, heq⟩
      rw [phys, find?_covers hsorted he hc]
      rw [covers_iff] at hc
      simp only [hw, Bool.false_eq_true, if_false]
      omega

end TreeExtent

/-- An index entry, and the extents of the leaf block it leads to. -/
structure TreeLeaf where
  key : Nat
  block : Nat
  unused : Nat
  extents : List TreeExtent

/-- The entry without what it leads to. -/
def TreeLeaf.entry (l : TreeLeaf) : ExtentLeaf := ⟨l.key, l.block, l.unused, []⟩

def TreeLeaf.encode (l : TreeLeaf) : List Byte := l.entry.encode

inductive ExtentTree
  | leaf (es : List TreeExtent)
  | index (ls : List TreeLeaf)

namespace ExtentTree

def extents : ExtentTree → List TreeExtent
  | leaf es => es
  | index ls => ls.flatMap (·.extents)

/-- The extents of the leaf that a block is looked up in. -/
def searched (lblock : Nat) : ExtentTree → List TreeExtent
  | leaf es => es
  | index ls => (((ls.takeWhile fun l => l.key ≤ lblock).getLast?).map (·.extents)).getD []

/-- Sorted, without overlap; the keys of an index separate the extents of its leaves. -/
def WellFormed : ExtentTree → Prop
  | leaf es => TreeExtent.Sorted es ∧ ∀ e ∈ es, e.Ok
  | index ls =>
    (∀ l ∈ ls, l.key < 2 ^ 32 ∧ l.block < 2 ^ 48 ∧ TreeExtent.Sorted l.extents ∧
      ∀ e ∈ l.extents, e.Ok ∧ l.key ≤ e.first) ∧
    ls.Pairwise fun a b => a.key < b.key ∧ ∀ e ∈ a.extents, e.first + e.len ≤ b.key

/-- The bytes of a leaf, and whatever follows them. -/
def LeafBytes (es : List TreeExtent) (bytes : List Byte) : Prop :=
  es.length < 2 ^ 16 ∧ ∃ maxEntries generation tail,
    bytes = nodeHeader es.length maxEntries 0 generation ++ es.flatMap (·.raw.encode) ++ tail

/-- The root is at `eh`, and the leaf blocks are on the volume. -/
def Written (pool : Pool) (v : Ext4Vol) (eh : List Byte) : ExtentTree → Prop
  | leaf es => LeafBytes es eh
  | index ls =>
    (ls.length < 2 ^ 16 ∧ ∃ maxEntries generation tail,
      eh = nodeHeader ls.length maxEntries 1 generation ++ ls.flatMap TreeLeaf.encode ++ tail) ∧
    ∀ l ∈ ls, (blkRead pool v l.block).1 = true ∧ LeafBytes l.extents (blkRead pool v l.block).2

/-- What a block is mapped to by the one extent of the tree that covers it. -/
def phys (t : ExtentTree) (lblock : Nat) : Nat := TreeExtent.phys t.extents lblock

/-! ## The code on a tree -/

theorem decode_raw {e : TreeExtent} (hok : e.Ok) (rest : List Byte) :
    decodeExtent (e.raw.encode ++ rest) = e.raw := by
  have hlast := hok.last_lt
  have hlen := hok.len_le
  unfold extInitMaxLen at hlen
  have hraw : e.raw.len < 2 ^ 16 := by
    unfold TreeExtent.raw extInitMaxLen
    dsimp only
    split_ifs at hlen ⊢
    · omega
    · omega
  exact decodeExtent_encode (show e.first < 2 ^ 32 by omega) hraw hok.start_lt rest

theorem leafScan_find? (eh : List Byte) (lblock n i : Nat) :
    leafScan eh lblock n i = (((List.range' i n).map fun k => decodeExtent (extentEntry eh k)).find?
      (Extent.hit lblock)).elim 0 fun e => e.start + (lblock - e.first) := by
  induction n generalizing i with
  | zero => rfl
  | succ n ih =>
    rw [leafScan, List.range'_succ, List.map_cons]
    split_ifs with hhit
    · rw [List.find?_cons_of_pos (Extent.hit_iff.mpr hhit)]
      rfl
    · rw [List.find?_cons_of_neg fun h => hhit (Extent.hit_iff.mp h)]
      exact ih (i + 1)

theorem leafScan_leafBytes {es : List TreeExtent} {bytes : List Byte} (hbytes : LeafBytes es bytes)
    (hok : ∀ e ∈ es, e.Ok) (lblock : Nat) :
    r16 bytes 0 = ext4ExtentHeaderMagic ∧ r16 bytes 6 = 0 ∧
      leafScan bytes lblock (r16 bytes 2) 0 = TreeExtent.scan es lblock := by
  obtain ⟨hn, m, g, tail, hnode⟩ := hbytes
  obtain ⟨hhead, hentries⟩ := encoded_node decodeExtent TreeExtent.raw hn (by omega)
    (fun e => length_encode_extent e.raw) (fun e he => decode_raw (hok e he)) hnode
  obtain ⟨hmagic, hdepth, -⟩ := nodeOk_iff.mp hhead
  refine ⟨hmagic, hdepth, ?_⟩
  rw [nodeEntries, List.map_map, List.range_eq_range'] at hentries
  rw [leafScan_find?]
  rw [show (fun k => decodeExtent (extentEntry bytes k)) = decodeExtent ∘ extentEntry bytes from rfl, hentries,
    List.find?_map, TreeExtent.scan]
  rw [show Extent.hit lblock ∘ TreeExtent.raw = TreeExtent.hit lblock from rfl]
  cases es.find? (TreeExtent.hit lblock) with
  | none => rfl
  | some e => rfl

theorem searched_sorted {t : ExtentTree} (hwf : t.WellFormed) (lblock : Nat) :
    TreeExtent.Sorted (t.searched lblock) ∧ ∀ e ∈ t.searched lblock, e.Ok := by
  cases t with
  | leaf es => exact hwf
  | index ls =>
    rw [searched]
    cases hlast : (ls.takeWhile fun l => l.key ≤ lblock).getLast? with
    | none => exact ⟨List.Pairwise.nil, by simp⟩
    | some l =>
      have hl : l ∈ ls := (List.takeWhile_sublist _).mem (List.mem_of_getLast? hlast)
      obtain ⟨-, -, hsorted, hok⟩ := hwf.1 l hl
      exact ⟨hsorted, fun e he => (hok e he).1⟩

/-- The extent that covers a block is in the leaf that it is looked up in. -/
theorem phys_searched {t : ExtentTree} (hwf : t.WellFormed) (lblock : Nat) :
    t.phys lblock = TreeExtent.phys (t.searched lblock) lblock := by
  cases t with
  | leaf es => rfl
  | index ls =>
    obtain ⟨hls, hpair⟩ := hwf
    have hfind : (ls.flatMap (·.extents)).find? (TreeExtent.covers lblock) =
        ((ls.takeWhile fun l => l.key ≤ lblock).getLast?).bind
          fun l => l.extents.find? (TreeExtent.covers lblock) := by
      refine find?_flatMap_keys (hpair.imp fun h => h.1) ?_ ?_
      · intro l hl hlt e he
        have := ((hls l hl).2.2.2 e he).2
        simp only [TreeExtent.covers, Bool.and_eq_false_iff, decide_eq_false_iff_not]
        omega
      · refine hpair.imp fun {a b} hab hle e he => ?_
        have := hab.2 e he
        simp only [TreeExtent.covers, Bool.and_eq_false_iff, decide_eq_false_iff_not]
        omega
    rw [phys, extents, TreeExtent.phys, hfind, searched]
    cases (ls.takeWhile fun l => l.key ≤ lblock).getLast? with
    | none => rfl
    | some l => rfl

theorem bestIndex_index {ls : List TreeLeaf} {eh : List Byte} {m g : Nat} {tail : List Byte} (hn : ls.length < 2 ^ 16)
    (hls : ∀ l ∈ ls, l.key < 2 ^ 32 ∧ l.block < 2 ^ 48)
    (hnode : eh = nodeHeader ls.length m 1 g ++ ls.flatMap TreeLeaf.encode ++ tail) (lblock : Nat) :
    r16 eh 0 = ext4ExtentHeaderMagic ∧ r16 eh 6 = 1 ∧
      (bestIndex eh lblock (r16 eh 2) 0 none).map indexLeaf =
        ((ls.takeWhile fun l => l.key ≤ lblock).getLast?).map (·.block) := by
  obtain ⟨hhead, hentries⟩ := encoded_node (fun ei => (r32 ei 0, indexLeaf ei)) (fun l : TreeLeaf => (l.key, l.block))
    hn (by omega) (fun l => length_encode_leaf _)
    (fun l hl => decodeIndex_encode (l := l.entry) (hls l hl).1 (hls l hl).2) hnode
  obtain ⟨hmagic, hdepth, hlen⟩ := nodeOk_iff.mp hhead
  refine ⟨hmagic, hdepth, ?_⟩
  have hbest : (bestIndex (eh ++ []) lblock (r16 eh 2) 0 none).map indexLeaf = (indexFor eh lblock).map indexLeaf :=
    bestIndex_indexFor [] hlen
  have hleaves : (indexFor eh lblock).map indexLeaf =
      (((ls.map TreeLeaf.entry).takeWhile fun l => l.key ≤ lblock).getLast?).map (·.block) :=
    indexFor_leaves lblock (by rw [hentries, List.map_map]; rfl)
  rw [List.append_nil] at hbest
  rw [hbest, hleaves, List.takeWhile_map, List.getLast?_map, Option.map_map]
  rfl

theorem extentPhys_scan {pool : Pool} {v : Ext4Vol} {eh : List Byte} {t : ExtentTree} (hwf : t.WellFormed)
    (hw : t.Written pool v eh) (lblock : Nat) {scratch : Nat} {blocks : List Byte} (hs : scratch ≤ blocks.length) :
    (extentPhys pool v eh lblock scratch blocks).1 = TreeExtent.scan (t.searched lblock) lblock := by
  cases t with
  | leaf es =>
    obtain ⟨hmagic, hdepth, hscan⟩ := leafScan_leafBytes hw hwf.2 lblock
    rw [extentPhys, if_neg (not_not.mpr hmagic), if_neg (by omega), hscan]
    rfl
  | index ls =>
    obtain ⟨⟨hn, m, g, tail, hnode⟩, hleaves⟩ := hw
    obtain ⟨hmagic, hdepth, hbest⟩ := bestIndex_index hn (fun l hl => ⟨(hwf.1 l hl).1, (hwf.1 l hl).2.1⟩) hnode lblock
    rw [extentPhys, if_neg (not_not.mpr hmagic), if_pos (by omega), searched]
    cases hlast : (ls.takeWhile fun l => l.key ≤ lblock).getLast? with
    | none =>
      rw [hlast, Option.map_none, Option.map_eq_none_iff] at hbest
      rw [hbest]
      rfl
    | some l =>
      have hl : l ∈ ls := (List.takeWhile_sublist _).mem (List.mem_of_getLast? hlast)
      obtain ⟨hread, hbytes⟩ := hleaves l hl
      rw [hlast, Option.map_some, Option.map_eq_some_iff] at hbest
      obtain ⟨ei, hei, hleaf⟩ := hbest
      have hblock : LeafBytes l.extents
          ((blkRead pool v l.block).2 ++ blocks.drop (scratch + (blkRead pool v l.block).2.length)) := by
        obtain ⟨hlen, m, g, tail, heq⟩ := hbytes
        exact ⟨hlen, m, g, tail ++ blocks.drop (scratch + (blkRead pool v l.block).2.length), by
          rw [← List.append_assoc, ← heq]⟩
      obtain ⟨hmagic', -, hscan⟩ := leafScan_leafBytes hblock (fun e he => ((hwf.1 l hl).2.2.2 e he).1) lblock
      rw [hei]
      dsimp only
      rw [hleaf, hread, drop_patch hs, if_neg (by decide), if_neg (not_not.mpr hmagic'), hscan]
      rfl

end ExtentTree

/-- A block is mapped by the extent that covers it, and to zero where none or an unwritten one does, exactly
when the first unwritten extent whose length field reaches the block, if there is one, continues in the blocks of
an initialised extent that covers it. Zero is read as a block of zeros. -/
theorem extentPhys_iff {pool : Pool} {v : Ext4Vol} {eh : List Byte} {t : ExtentTree} (hwf : t.WellFormed)
    (hw : t.Written pool v eh) (lblock : Nat) {scratch : Nat} {blocks : List Byte} (hs : scratch ≤ blocks.length) :
    ((extentPhys pool v eh lblock scratch blocks).1 = t.phys lblock ↔ TreeExtent.Right (t.searched lblock) lblock) ∧
    ∀ inode out, hasExtents inode = true → inode.drop 40 = eh →
      (extentPhys pool v eh lblock scratch blocks).1 = 0 →
      readLblock pool v inode lblock out scratch blocks =
        (true, patch (extentPhys pool v eh lblock scratch blocks).2 out (List.replicate v.blockSize 0)) := by
  obtain ⟨hsorted, hok⟩ := ExtentTree.searched_sorted hwf lblock
  constructor
  · rw [ExtentTree.extentPhys_scan hwf hw lblock hs, ExtentTree.phys_searched hwf,
      TreeExtent.scan_eq_phys_iff hsorted hok]
  · intro inode out hext hinode hzero
    rw [readLblock, if_pos hext, hinode]
    dsimp only
    rw [if_pos hzero]

/-! ## One such tree -/

/-- Block 0 is allocated and unwritten, block 1 is at 200. -/
def gapExtents : List TreeExtent := [⟨0, 1, 100, true⟩, ⟨1, 1, 200, false⟩]

def gapRoot : List Byte := nodeHeader 2 4 0 0 ++ gapExtents.flatMap (·.raw.encode) ++ []

def gapVol : Ext4Vol := { blankVol none none none 512 with blockSize := 1024 }

theorem gapExtents_wellFormed : (ExtentTree.leaf gapExtents).WellFormed := by
  refine ⟨?_, ?_⟩
  · simp [TreeExtent.Sorted, gapExtents]
  · intro e he
    simp only [gapExtents, List.mem_cons, List.not_mem_nil, or_false] at he
    rcases he with rfl | rfl
    · exact ⟨by decide, by decide, by decide, by decide, by decide⟩
    · exact ⟨by decide, by decide, by decide, by decide, by decide⟩

theorem gapRoot_written (pool : Pool) : (ExtentTree.leaf gapExtents).Written pool gapVol gapRoot :=
  ⟨by decide, 4, 0, [], rfl⟩

/-- Behind the reach of the unwritten extent the hole is found. -/
theorem extentPhys_behind : (extentPhys zeroPool gapVol gapRoot 40000 0 []).1 =
    (ExtentTree.leaf gapExtents).phys 40000 :=
  (extentPhys_iff gapExtents_wellFormed (gapRoot_written zeroPool) 40000 (Nat.zero_le _)).1.mpr (by
    intro u hu
    have hnone : gapExtents.find? (TreeExtent.shadows 40000) = none := by decide
    rw [ExtentTree.searched, hnone] at hu
    cases hu)

/-- Block 1 is read from behind the unwritten extent. -/
theorem extentPhys_shadowed : (ExtentTree.leaf gapExtents).WellFormed ∧
    (ExtentTree.leaf gapExtents).Written zeroPool gapVol gapRoot ∧
    (extentPhys zeroPool gapVol gapRoot 1 0 []).1 = 101 ∧ (ExtentTree.leaf gapExtents).phys 1 = 200 :=
  ⟨gapExtents_wellFormed, gapRoot_written zeroPool, by decide, by decide⟩

end SakuruBoot

import SakuruBoot.Uefi.Ext4Image

/-!
# Reading an image of the supported kind

The reference reading of a described image is the description: `blockMap_node` for the block map of an
inode, `blockEntries_records` for a directory block, `resolve_leads` and `resolve_misses` for a path.
With what is known about the code this gives `ext4ReadFile_image`: the code returns the bytes of every
file the path leads to.
-/

namespace SakuruBoot
open CStr (Byte u8 u32 u64)
open Bytes

/-! ## Bytes of the image -/

namespace Holds

variable {image : List Byte} {off : Nat}

theorem length_le {bytes : List Byte} (h : Holds image off bytes) (hne : 0 < bytes.length) :
    off + bytes.length ≤ image.length := by
  have hlen := congrArg List.length h
  rw [length_slice] at hlen
  omega

theorem slice_eq {bytes : List Byte} (h : Holds image off bytes) {n : Nat} (hn : bytes.length ≤ n) :
    slice image off n = bytes ++ slice image (off + bytes.length) (n - bytes.length) := by
  have hsplit := List.take_append_drop bytes.length (slice image off n)
  have hhead : (slice image off n).take bytes.length = bytes := by
    rw [slice, List.take_take, Nat.min_eq_left hn]
    exact h
  have htail : (slice image off n).drop bytes.length =
      slice image (off + bytes.length) (n - bytes.length) := by
    rw [slice, slice, List.drop_take, List.drop_drop]
  rw [hhead, htail] at hsplit
  exact hsplit.symm

theorem field {w n o x : Nat} (h : Holds image (o + off) (le w x)) (hw : 0 < w) (hn : off + w ≤ n) :
    leVal (fit ((slice image o n).drop off) w) = x % 256 ^ w := by
  have hlen := h.length_le (by rwa [Bytes.length_le])
  rw [Bytes.length_le] at hlen
  rw [Holds, Bytes.length_le] at h
  rw [fit_slice (by rw [length_slice]; omega), slice_slice hn, h, leVal_le]

theorem r32_eq {n o x : Nat} (h : Holds image (o + off) (le 4 x)) (hn : off + 4 ≤ n) :
    r32 (slice image o n) off = x % 2 ^ 32 := h.field (by omega) hn

theorem r16_eq {n o x : Nat} (h : Holds image (o + off) (le 2 x)) (hn : off + 2 ≤ n) :
    r16 (slice image o n) off = x % 2 ^ 16 := h.field (by omega) hn

end Holds

/-! ## Records -/

section Records

theorem r16_at {buf a b : List Byte} {off x : Nat} (hbuf : buf = a ++ (le 2 x ++ b))
    (hoff : a.length = off) : r16 buf off = x % 2 ^ 16 := hbuf ▸ leVal_field hoff x

theorem r32_at {buf a b : List Byte} {off x : Nat} (hbuf : buf = a ++ (le 4 x ++ b))
    (hoff : a.length = off) : r32 buf off = x % 2 ^ 32 := hbuf ▸ leVal_field hoff x

end Records

/-! ## Extent nodes -/

section Nodes

def decodeExtent (ex : List Byte) : Extent := ⟨r32 ex 0, r16 ex 4, extentStart ex⟩

theorem length_nodeHeader (e m d g : Nat) : (nodeHeader e m d g).length = 12 := by
  simp [nodeHeader]

theorem length_encode_extent (e : Extent) : e.encode.length = 12 := by simp [Extent.encode]

theorem length_encode_leaf (l : ExtentLeaf) : l.encode.length = 12 := by simp [ExtentLeaf.encode]

theorem decodeExtent_encode {e : Extent} (hfirst : e.first < 2 ^ 32) (hlen : e.len < 2 ^ 16)
    (hstart : e.start < 2 ^ 48) (rest : List Byte) : decodeExtent (e.encode ++ rest) = e := by
  have h0 : r32 (e.encode ++ rest) 0 = e.first % 2 ^ 32 :=
    r32_at (a := []) (by simp [Extent.encode]; rfl) rfl
  have h4 : r16 (e.encode ++ rest) 4 = e.len % 2 ^ 16 :=
    r16_at (a := le 4 e.first) (by simp [Extent.encode]; rfl) (by simp)
  have h6 : r16 (e.encode ++ rest) 6 = e.start / 2 ^ 32 % 2 ^ 16 :=
    r16_at (a := le 4 e.first ++ le 2 e.len) (by simp [Extent.encode]; rfl) (by simp)
  have h8 : r32 (e.encode ++ rest) 8 = e.start % 2 ^ 32 :=
    r32_at (a := le 4 e.first ++ le 2 e.len ++ le 2 (e.start / 2 ^ 32)) (by simp [Extent.encode]; rfl)
      (by simp)
  rw [decodeExtent, extentStart, h0, h4, h6, h8, Nat.mod_eq_of_lt hfirst, Nat.mod_eq_of_lt hlen,
    Nat.mod_eq_of_lt (show e.start / 2 ^ 32 < 2 ^ 16 by omega), Nat.mod_add_div]

theorem decodeIndex_encode {l : ExtentLeaf} (hkey : l.key < 2 ^ 32) (hblock : l.block < 2 ^ 48)
    (rest : List Byte) :
    (r32 (l.encode ++ rest) 0, indexLeaf (l.encode ++ rest)) = (l.key, l.block) := by
  have h0 : r32 (l.encode ++ rest) 0 = l.key % 2 ^ 32 :=
    r32_at (a := []) (by simp [ExtentLeaf.encode]; rfl) rfl
  have h4 : r32 (l.encode ++ rest) 4 = l.block % 2 ^ 32 :=
    r32_at (a := le 4 l.key) (by simp [ExtentLeaf.encode]; rfl) (by simp)
  have h8 : r16 (l.encode ++ rest) 8 = l.block / 2 ^ 32 % 2 ^ 16 :=
    r16_at (a := le 4 l.key ++ le 4 l.block) (by simp [ExtentLeaf.encode]; rfl) (by simp)
  rw [indexLeaf, h0, h4, h8, Nat.mod_eq_of_lt hkey,
    Nat.mod_eq_of_lt (show l.block / 2 ^ 32 < 2 ^ 16 by omega), Nat.mod_add_div]

variable {α : Type} {enc : α → List Byte} {xs : List α}

theorem encoded_node {β : Type} (dec : List Byte → β) (f : α → β) {m d g : Nat} {tail : List Byte}
    (hn : xs.length < 2 ^ 16) (hd : d < 2 ^ 16) (hlen : ∀ x, (enc x).length = 12)
    (hdec : ∀ x ∈ xs, ∀ rest, dec (enc x ++ rest) = f x) {node : List Byte}
    (hnode : node = nodeHeader xs.length m d g ++ xs.flatMap enc ++ tail) :
    nodeOk node d = true ∧ (nodeEntries node).map dec = xs.map f := by
  have h0 : r16 node 0 = ext4ExtentHeaderMagic % 2 ^ 16 :=
    r16_at (a := []) (by simp [hnode, nodeHeader]; rfl) rfl
  have h2 : r16 node 2 = xs.length % 2 ^ 16 :=
    r16_at (a := le 2 ext4ExtentHeaderMagic) (by simp [hnode, nodeHeader]; rfl) (by simp)
  have h6 : r16 node 6 = d % 2 ^ 16 :=
    r16_at (a := le 2 ext4ExtentHeaderMagic ++ le 2 xs.length ++ le 2 m)
      (by simp [hnode, nodeHeader]; rfl) (by simp)
  rw [Nat.mod_eq_of_lt hn] at h2
  rw [Nat.mod_eq_of_lt hd] at h6
  have hentries : ∀ i, dec (extentEntry node i) = dec ((xs.flatMap enc ++ tail).drop (12 * i)) := by
    intro i
    rw [extentEntry, hnode, List.append_assoc, ← List.drop_drop, List.drop_left' (length_nodeHeader _ _ _ _)]
  refine ⟨nodeOk_iff.mpr ⟨h0, h6, ?_⟩, ?_⟩
  · rw [h2, hnode, List.length_append, List.length_append, length_nodeHeader,
      length_flatMap_const fun x _ => hlen x]
    omega
  · rw [nodeEntries, h2, List.map_map]
    exact (List.map_congr_left fun i _ => hentries i).trans
      (map_records dec f hlen xs hdec tail)

theorem leafMap_extents {v : Ext4Vol} {node : List Byte} {es : List Extent} {nblk lblock : Nat}
    (hentries : (nodeEntries node).map decodeExtent = es) (hok : ∀ e ∈ es, e.Ok nblk)
    (hdev : nblk * v.blockSize < 2 ^ 64) : leafMap v node lblock = some (Extent.place es lblock) := by
  subst hentries
  rw [leafMap, Extent.place, List.find?_map]
  have hcovers : covers lblock = Extent.contains lblock ∘ decodeExtent := rfl
  rw [← hcovers]
  rcases hfind : (nodeEntries node).find? (covers lblock) with _ | ex
  · rfl
  · obtain ⟨-, -, hlen, hstart, -, hinside⟩ :=
      hok (decodeExtent ex) (List.mem_map_of_mem (List.mem_of_find?_eq_some hfind))
    have hcov := List.find?_some hfind
    simp only [covers, Bool.and_eq_true, decide_eq_true_eq] at hcov
    simp only [decodeExtent] at hlen hstart hinside
    have hblk : extentStart ex + (lblock - r32 ex 0) < nblk := by omega
    have hin : (extentStart ex + (lblock - r32 ex 0)) * v.blockSize < 2 ^ 64 :=
      (Nat.mul_le_mul_right _ hblk.le).trans_lt hdev
    dsimp only
    rw [if_pos hlen, dataBlock_eq_some.mpr ⟨rfl, by omega, hin⟩]
    rfl

theorem indexFor_leaves {node : List Byte} {ls : List ExtentLeaf} (lblock : Nat)
    (hentries : (nodeEntries node).map (fun ei => (r32 ei 0, indexLeaf ei)) =
      ls.map fun l => (l.key, l.block)) :
    (indexFor node lblock).map indexLeaf =
      ((ls.takeWhile fun l => l.key ≤ lblock).getLast?).map (·.block) := by
  have hleft : (indexFor node lblock).map indexLeaf =
      ((((nodeEntries node).map fun ei => (r32 ei 0, indexLeaf ei)).takeWhile
        fun q => q.1 ≤ lblock).getLast?).map Prod.snd := by
    rw [indexFor, List.takeWhile_map, List.getLast?_map, Option.map_map]
    rfl
  have hright : ((ls.takeWhile fun l => l.key ≤ lblock).getLast?).map (·.block) =
      (((ls.map fun l => (l.key, l.block)).takeWhile fun q => q.1 ≤ lblock).getLast?).map Prod.snd := by
    rw [List.takeWhile_map, List.getLast?_map, Option.map_map]
    rfl
  rw [hleft, hright, hentries]

/-- Where keys separate the lists they lead to, a search in all of them is a search in that of the last key
not behind `x`. -/
theorem find?_flatMap_keys {α β : Type} {key : α → Nat} {items : α → List β} {p : β → Bool} {x : Nat} {ls : List α}
    (hkeys : ls.Pairwise fun a b => key a < key b)
    (hbehind : ∀ l ∈ ls, x < key l → ∀ e ∈ items l, p e = false)
    (hbefore : ls.Pairwise fun a b => key b ≤ x → ∀ e ∈ items a, p e = false) :
    (ls.flatMap items).find? p =
      ((ls.takeWhile fun l => key l ≤ x).getLast?).bind fun l => (items l).find? p := by
  have hnone : ∀ l, (∀ e ∈ items l, p e = false) → (items l).find? p = none := by
    intro l hl
    exact List.find?_eq_none.mpr fun e he => by simp [hl e he]
  induction ls with
  | nil => rfl
  | cons l ls ih =>
    obtain ⟨hhead, htail⟩ := List.pairwise_cons.mp hkeys
    obtain ⟨hhead', htail'⟩ := List.pairwise_cons.mp hbefore
    have hih := ih htail (fun l hl => hbehind l (List.mem_cons_of_mem _ hl)) htail'
    rw [List.flatMap_cons, List.find?_append, hih]
    by_cases hlt : x < key l
    · -- the keys behind are larger still
      have hrest : ls.takeWhile (fun l => key l ≤ x) = [] := by
        cases ls with
        | nil => rfl
        | cons next ls =>
          have := hhead next List.mem_cons_self
          exact List.takeWhile_cons_of_neg (by simp; omega)
      rw [List.takeWhile_cons_of_neg (by simpa using hlt), hrest, hnone l (hbehind l List.mem_cons_self hlt)]
      rfl
    · rw [List.takeWhile_cons_of_pos (by simpa using hlt), List.getLast?_cons]
      cases hlast : (ls.takeWhile fun l => key l ≤ x).getLast? with
      | none => simp
      | some m =>
        -- a later list is searched, and nothing is found in this one
        have hm := List.mem_of_getLast? hlast
        have hle : key m ≤ x := by simpa using List.mem_takeWhile_imp hm
        rw [hnone l (hhead' m ((List.takeWhile_sublist _).mem hm) hle)]
        rfl

theorem place_flatMap {ls : List ExtentLeaf} (hsorted : ExtentLeaf.Sorted ls) (lblock : Nat) :
    Extent.place (ls.flatMap (·.extents)) lblock =
      ((ls.takeWhile fun l => l.key ≤ lblock).getLast?).bind fun l => Extent.place l.extents lblock := by
  obtain ⟨hkeys, hpair⟩ := hsorted
  have hbehind : ∀ l ∈ ls, lblock < l.key → ∀ e ∈ l.extents, Extent.contains lblock e = false := by
    intro l hl hlt e he
    have := hkeys l hl e he
    simp only [Extent.contains, Bool.and_eq_false_iff, decide_eq_false_iff_not]
    omega
  have hbefore : ls.Pairwise fun a b => b.key ≤ lblock → ∀ e ∈ a.extents, Extent.contains lblock e = false := by
    refine hpair.imp fun {a b} hab hle e he => ?_
    have := hab.2 e he
    simp only [Extent.contains, Bool.and_eq_false_iff, decide_eq_false_iff_not]
    omega
  rw [Extent.place, find?_flatMap_keys (hpair.imp fun h => h.1) hbehind hbefore, Option.map_bind]
  rfl

end Nodes

/-! ## Block maps -/

section Maps

variable {pool : Pool} {v : Ext4Vol} {image : List Byte}

theorem blockAt_image (hread : Delivers pool v image) (hlen : image.length < 2 ^ 64)
    (hbs : 0 < v.blockSize) {p : Nat} (hp : p < image.length / v.blockSize) :
    blockAt pool v p = some (slice image (p * v.blockSize) v.blockSize) := by
  have hle : (p + 1) * v.blockSize ≤ image.length := (Nat.le_div_iff_mul_le hbs).mp hp
  rw [Nat.succ_mul] at hle
  exact bytesAt_eq_some.mpr ⟨by omega, hread _ _ hbs hle⟩

theorem extentNode_image {off n : Nat} {es : List Extent} {m g nblk : Nat} (hn : es.length < 2 ^ 16)
    (hfit : 12 + 12 * es.length ≤ n) (hok : ∀ e ∈ es, e.Ok nblk)
    (h : Holds image off (nodeHeader es.length m 0 g ++ es.flatMap Extent.encode)) :
    nodeOk (slice image off n) 0 = true ∧ (nodeEntries (slice image off n)).map decodeExtent = es := by
  have hlen : (nodeHeader es.length m 0 g ++ es.flatMap Extent.encode).length = 12 + 12 * es.length := by
    rw [List.length_append, length_nodeHeader, length_flatMap_const fun e _ => length_encode_extent e]
  have hnode := h.slice_eq (n := n) (by omega)
  have hdec := encoded_node decodeExtent id hn (by omega) length_encode_extent
    (fun e he => decodeExtent_encode (hok e he).first_lt ((hok e he).len_le.trans_lt (by decide)) (hok e he).start_lt)
    hnode
  rwa [List.map_id] at hdec

theorem indexNode_image {off n : Nat} {ls : List ExtentLeaf} {m g : Nat} (hn : ls.length < 2 ^ 16)
    (hfit : 12 + 12 * ls.length ≤ n) (hok : ∀ l ∈ ls, l.key < 2 ^ 32 ∧ l.block < 2 ^ 48)
    (h : Holds image off (nodeHeader ls.length m 1 g ++ ls.flatMap ExtentLeaf.encode)) :
    nodeOk (slice image off n) 1 = true ∧
      (nodeEntries (slice image off n)).map (fun ei => (r32 ei 0, indexLeaf ei)) =
        ls.map fun l => (l.key, l.block) := by
  have hlen : (nodeHeader ls.length m 1 g ++ ls.flatMap ExtentLeaf.encode).length = 12 + 12 * ls.length := by
    rw [List.length_append, length_nodeHeader, length_flatMap_const fun l _ => length_encode_leaf l]
  have hnode := h.slice_eq (n := n) (by omega)
  exact encoded_node (fun ei => (r32 ei 0, indexLeaf ei)) (fun l => (l.key, l.block)) hn (by omega)
    length_encode_leaf (fun l hl => decodeIndex_encode (hok l hl).1 (hok l hl).2) hnode

theorem nodeOk_depth {node : List Byte} {d e : Nat} (h : nodeOk node d = true) (hne : d ≠ e) :
    nodeOk node e = false := by
  obtain ⟨-, hd, -⟩ := nodeOk_iff.mp h
  rw [← Bool.not_eq_true, nodeOk_iff]
  rintro ⟨-, he, -⟩
  omega

theorem direct_block {off lblock : Nat} {blocks : List Nat} (h : Holds image off (blocks.flatMap (le 4)))
    {n : Nat} (hn : 4 * blocks.length ≤ n) (hlb : lblock < blocks.length) :
    r32 (slice image off n) (4 * lblock) = blocks[lblock] % 2 ^ 32 := by
  have hlen : (blocks.flatMap (le 4)).length = 4 * blocks.length :=
    length_flatMap_const fun b _ => Bytes.length_le 4 b
  have hall := map_records (fun p => r32 p 0) (fun b => b % 2 ^ 32) (Bytes.length_le 4) blocks
    (fun b _ rest => r32_at (a := []) (List.nil_append _).symm rfl)
    (slice image (off + (blocks.flatMap (le 4)).length) (n - (blocks.flatMap (le 4)).length))
  rw [← h.slice_eq (by omega)] at hall
  have hget := congrArg (·[lblock]?) hall
  simp only [List.getElem?_map, List.getElem?_range hlb, List.getElem?_eq_getElem hlb, Option.map_some,
    Option.some.injEq, r32_drop, Nat.add_zero] at hget
  exact hget

variable {node : Ext4Node} {inodeSize off : Nat}

/-- The block map of a described inode is its mapping. -/
theorem blockMap_node (hread : Delivers pool v image) (hlen : image.length < 2 ^ 64)
    (hbs : 0 < v.blockSize) (hbs' : v.blockSize ≤ 4096) (hisz : 128 ≤ inodeSize)
    (hnode : node.LaidOut image v.blockSize inodeSize off) {lblock : Nat}
    (hlb : lblock < (node.size + v.blockSize - 1) / v.blockSize) :
    blockMap pool v (slice image off inodeSize) lblock = some (node.mapping.place lblock) := by
  have hdev : image.length / v.blockSize * v.blockSize < 2 ^ 64 :=
    (Nat.div_mul_le_self _ _).trans_lt hlen
  have hflag : hasExtents (slice image off inodeSize) = node.mapping.hasExtentTree := by
    rw [hasExtents, hnode.flags_at.r32_eq (by omega), Nat.mod_eq_of_lt hnode.flags_lt]
    exact hnode.extents_flag
  have hroot : extentRoot (slice image off inodeSize) = slice image (off + 40) 60 := by
    rw [extentRoot, slice_slice (by omega)]
  have hat := hnode.mapping_at
  have hok := hnode.mapping_ok
  rw [blockMap, hflag, hroot]
  dsimp only
  cases hm : node.mapping with
  | extents es =>
    rw [hm] at hat hok
    obtain ⟨hcount, m, g, hat⟩ := hat
    obtain ⟨hn, hentries⟩ := extentNode_image (n := 60) (by omega) (by omega) hok.2 hat
    have htree : (BlockMapping.extents es).hasExtentTree = true := rfl
    rw [htree, if_pos rfl, if_pos hn, leafMap_extents hentries hok.2 hdev]
    rfl
  | index ls =>
    rw [hm] at hat hok
    obtain ⟨hcount, ⟨m, g, hat⟩, hleaves⟩ := hat
    obtain ⟨hsorted, hkeys, hext⟩ := hok
    obtain ⟨hn, hentries⟩ := indexNode_image (n := 60) (by omega) (by omega)
      (fun l hl => ⟨(hkeys l hl).1, (hkeys l hl).2.1⟩) hat
    have hindex := indexFor_leaves lblock hentries
    have htree : (BlockMapping.index ls).hasExtentTree = true := rfl
    rw [htree, if_pos rfl, if_neg (by rw [nodeOk_depth hn (by omega)]; decide),
      if_pos hn, BlockMapping.place, place_flatMap hsorted]
    rcases hlast : (ls.takeWhile fun l => l.key ≤ lblock).getLast? with _ | l
    · rw [hlast, Option.map_none, Option.map_eq_none_iff] at hindex
      rw [hlast, hindex, Option.bind_none]
    · have hl : l ∈ ls := (List.takeWhile_sublist _).mem (List.mem_of_getLast? hlast)
      rw [hlast, Option.map_some, Option.map_eq_some_iff] at hindex
      obtain ⟨ei, hei, hblock⟩ := hindex
      obtain ⟨hfit, m', g', hleaf⟩ := hleaves l hl
      have hcount' : l.extents.length < 2 ^ 16 := by omega
      obtain ⟨hn', hentries'⟩ := extentNode_image hcount' hfit (hext l hl).2 hleaf
      rw [hlast, hei]
      dsimp only
      rw [hblock, blockAt_image hread hlen hbs (hkeys l hl).2.2]
      dsimp only
      rw [if_pos hn', leafMap_extents hentries' (hext l hl).2 hdev, Option.bind_some]
  | direct blocks =>
    rw [hm] at hat hok
    obtain ⟨hcount, hmax, hblocks⟩ := hok
    have hlb' : lblock < blocks.length := by omega
    have hfield : r32 (slice image off inodeSize) (40 + 4 * lblock) = blocks[lblock] := by
      have h := direct_block hat (n := 48) (by omega) hlb'
      have hin : slice (slice image off inodeSize) 40 48 = slice image (off + 40) 48 := slice_slice (by omega)
      rw [← hin, r32_slice (by omega) (by rw [length_slice]; have := hnode.inside; omega)] at h
      rw [h, Nat.mod_eq_of_lt (hblocks _ (List.getElem_mem hlb')).1]
    have hin : blocks[lblock] < image.length / v.blockSize := (hblocks _ (List.getElem_mem hlb')).2
    rw [BlockMapping.hasExtentTree, if_neg (by decide), if_pos (by omega), hfield, dataBlock,
      BlockMapping.place, List.getElem?_eq_getElem hlb', Option.bind_some]
    split_ifs with h0 hlt
    · rfl
    · rfl
    · exact absurd ((Nat.mul_le_mul_right _ hin.le).trans_lt hdev) hlt

end Maps

/-! ## Directories -/

section Directories

def DirRecord.entry (r : DirRecord) : DirEntry := ⟨r.ino, r.name, true⟩

theorem length_encode_record (r : DirRecord) : r.encode.length = r.recLen := by
  simp [DirRecord.encode, DirRecord.recLen]
  omega

theorem le_length_records (rs : List DirRecord) : rs.length ≤ (rs.flatMap DirRecord.encode).length := by
  induction rs with
  | nil => exact le_refl _
  | cons r rs ih =>
    rw [List.flatMap_cons, List.length_append, length_encode_record, List.length_cons, DirRecord.recLen]
    omega

theorem record_fields {de rest : List Byte} {r : DirRecord} (hr : r.Ok) (hde : de = r.encode ++ rest) :
    r32 de 0 = r.ino ∧ r16 de 4 = r.recLen ∧ (de.getD 6 0).toNat = r.name.length ∧ de.getD 7 0 = r.fileType ∧
      de.drop 8 = r.name ++ (r.padding ++ rest) := by
  have hino : r32 de 0 = r.ino % 2 ^ 32 := r32_at (a := []) (by simp [hde, DirRecord.encode]; rfl) rfl
  have hrec : r16 de 4 = r.recLen % 2 ^ 16 :=
    r16_at (a := le 4 r.ino) (by simp [hde, DirRecord.encode]; rfl) (by simp)
  have hsplit : de = (le 4 r.ino ++ le 2 r.recLen) ++
      (r.name.length.toUInt8 :: r.fileType :: (r.name ++ (r.padding ++ rest))) := by
    simp [hde, DirRecord.encode]
  have hlen6 : (le 4 r.ino ++ le 2 r.recLen).length = 6 := by simp
  rw [Nat.mod_eq_of_lt hr.ino_lt] at hino
  rw [Nat.mod_eq_of_lt hr.recLen_lt] at hrec
  refine ⟨hino, hrec, ?_, ?_, ?_⟩
  · rw [hsplit, List.getD_eq_getElem?_getD, List.getElem?_append_right (by omega), hlen6]
    exact Nat.mod_eq_of_lt hr.name_lt
  · rw [hsplit, List.getD_eq_getElem?_getD, List.getElem?_append_right (by omega), hlen6]
    rfl
  · rw [hsplit, show 8 = 6 + 2 from rfl, ← List.drop_drop, List.drop_left' hlen6]
    rfl

theorem entryAt_record {data : List Byte} {pos : Nat} {r : DirRecord} {rest : List Byte} (hr : r.Ok)
    (hdrop : data.drop pos = r.encode ++ rest) :
    entryAt data pos = r.entry ∧ r16 (data.drop pos) 4 = r.recLen := by
  obtain ⟨hino, hrec, hnl, -, hbehind⟩ := record_fields hr hdrop
  have hname : slice data (pos + 8) r.name.length = r.name := by
    rw [slice, ← List.drop_drop, hbehind, List.take_left]
  have hlen := congrArg List.length hdrop
  rw [List.length_drop, List.length_append, length_encode_record, DirRecord.recLen] at hlen
  have hinside : pos + 8 + r.name.length ≤ data.length := by omega
  refine ⟨?_, hrec⟩
  rw [entryAt]
  simp only [hnl, hino, hname, hinside, decide_true, DirRecord.entry]

theorem entriesFrom_records {data behind : List Byte} {limit : Nat} (rs : List DirRecord) (hrs : ∀ r ∈ rs, r.Ok)
    {fuel pos : Nat} (hdrop : data.drop pos = rs.flatMap DirRecord.encode ++ behind)
    (hlimit : limit = pos + (rs.flatMap DirRecord.encode).length) (hfuel : rs.length ≤ fuel) :
    entriesFrom data limit fuel pos = rs.map DirRecord.entry := by
  induction rs generalizing fuel pos with
  | nil =>
    cases fuel with
    | zero => rfl
    | succ fuel => exact if_pos (by simp at hlimit; omega)
  | cons r rs ih =>
    obtain ⟨fuel, rfl⟩ : ∃ k, fuel = k + 1 := ⟨fuel - 1, by rw [List.length_cons] at hfuel; omega⟩
    rw [List.flatMap_cons, List.append_assoc] at hdrop
    rw [List.flatMap_cons, List.length_append, length_encode_record] at hlimit
    obtain ⟨hentry, hrec⟩ := entryAt_record (hrs r (by simp)) hdrop
    have hge : 8 ≤ r.recLen := by rw [DirRecord.recLen]; omega
    rw [entriesFrom, if_neg (by omega), hrec, if_neg (by omega), hentry, List.map_cons]
    congr 1
    refine ih (fun r' hr' => hrs r' (by simp [hr'])) ?_ (by omega)
      (by rw [List.length_cons] at hfuel; omega)
    rw [← List.drop_drop, hdrop, List.drop_left' (length_encode_record r)]

theorem blockEntries_records {rs : List DirRecord} (hrs : ∀ r ∈ rs, r.Ok) (behind : List Byte) :
    blockEntries (rs.flatMap DirRecord.encode ++ behind) (rs.flatMap DirRecord.encode).length =
      rs.map DirRecord.entry :=
  entriesFrom_records rs hrs List.drop_zero (Nat.zero_add _).symm (le_length_records rs)

theorem entryFor_records (name : List Byte) (rs : List DirRecord) :
    entryFor name (rs.map DirRecord.entry) = some (DirRecord.lookup rs name) := by
  induction rs with
  | nil => rfl
  | cons r rs ih =>
    rw [List.map_cons, entryFor, ih, DirRecord.lookup, DirRecord.lookup]
    by_cases h0 : r.ino = 0
    · rw [if_pos (show r.entry.ino = 0 from h0), List.find?_cons_of_neg (by simp [h0])]
    · rw [if_neg (show ¬ r.entry.ino = 0 from h0), if_neg (show ¬ (!r.entry.inside) = true from Bool.false_ne_true)]
      by_cases hname : r.name = name
      · rw [if_pos (show r.entry.name = name from hname), List.find?_cons_of_pos (by simp [h0, hname])]
        rfl
      · rw [if_neg (show ¬ r.entry.name = name from hname), List.find?_cons_of_neg (by simp [hname])]

theorem DirRecord.Fills.size_eq {blockSize : Nat} {blocks : List (List DirRecord)} (h : DirRecord.Fills blockSize blocks)
    {i : Nat} {rs : List DirRecord} (hrs : blocks[i]? = some rs) (hlast : i + 1 = blocks.length) :
    (blocks.map fun rs => (rs.flatMap DirRecord.encode).length).sum =
      i * blockSize + (rs.flatMap DirRecord.encode).length := by
  rcases List.eq_nil_or_concat blocks with rfl | ⟨init, last, rfl⟩
  · cases hrs
  · have hi : i = init.length := by
      rw [List.concat_eq_append, List.length_append, List.length_singleton] at hlast
      exact Nat.succ_injective hlast
    subst hi
    rw [List.concat_eq_append] at h hrs ⊢
    rw [List.getElem?_concat_length, Option.some.injEq] at hrs
    subst hrs
    have hinit : ∀ n ∈ init.map (fun rs => (rs.flatMap DirRecord.encode).length), n = blockSize := by
      intro n hn
      obtain ⟨rs, hmem, rfl⟩ := List.mem_map.mp hn
      obtain ⟨k, hk⟩ := List.mem_iff_getElem?.mp hmem
      have hlt := (List.getElem?_eq_some_iff.mp hk).1
      exact h.full k rs (by rw [List.getElem?_append_left hlt, hk]) (by simp; omega)
    rw [List.map_append, List.sum_append, List.sum_eq_card_nsmul _ _ hinit, List.length_map, List.map_singleton,
      List.sum_singleton, smul_eq_mul]

theorem DirRecord.Fills.size_bounds {blockSize : Nat}
    {blocks : List (List DirRecord)} (h : DirRecord.Fills blockSize blocks) :
    (blocks.map fun rs => (rs.flatMap DirRecord.encode).length).sum ≤ blocks.length * blockSize ∧
      (∀ i < blocks.length, i * blockSize < (blocks.map fun rs => (rs.flatMap DirRecord.encode).length).sum) := by
  rcases Nat.eq_zero_or_pos blocks.length with h0 | hpos
  · rw [List.length_eq_zero_iff.mp h0]
    exact ⟨Nat.zero_le _, fun i hi => absurd hi (Nat.not_lt_zero i)⟩
  · obtain ⟨n, hn⟩ : ∃ n, blocks.length = n + 1 := ⟨blocks.length - 1, by omega⟩
    obtain ⟨rs, hrs⟩ : ∃ rs, blocks[n]? = some rs := ⟨_, List.getElem?_eq_getElem (by omega)⟩
    obtain ⟨hlt, hle⟩ := h.part rs (List.mem_of_getElem? hrs)
    rw [h.size_eq hrs hn.symm, hn, Nat.succ_mul]
    refine ⟨by omega, fun i hi => ?_⟩
    have := Nat.mul_le_mul_right blockSize (show i ≤ n by omega)
    omega

theorem DirRecord.Fills.round_up {blockSize : Nat} {blocks : List (List DirRecord)}
    (h : DirRecord.Fills blockSize blocks) (hpos : 0 < blockSize) :
    blocks.length * blockSize < (blocks.map fun rs => (rs.flatMap DirRecord.encode).length).sum + blockSize := by
  rcases Nat.eq_zero_or_pos blocks.length with h0 | hlen
  · rw [h0]
    omega
  · have hlast := h.size_bounds.2 (blocks.length - 1) (by omega)
    rw [Nat.sub_mul, Nat.one_mul] at hlast
    omega

variable {pool : Pool} {v : Ext4Vol}

/-- The limit that the reader takes from the size is the end of the records. -/
theorem DirRecord.Fills.limit_eq {blocks : List (List DirRecord)} (h : DirRecord.Fills v.blockSize blocks) {i : Nat}
    {rs : List DirRecord} (hi : blocks[i]? = some rs) :
    dirLimit v (blocks.map fun rs => (rs.flatMap DirRecord.encode).length).sum blocks.length i =
      (rs.flatMap DirRecord.encode).length := by
  obtain ⟨hpos, hle⟩ := h.part rs (List.mem_of_getElem? hi)
  have hlt := (List.getElem?_eq_some_iff.mp hi).1
  rw [dirLimit]
  by_cases hlast : i + 1 = blocks.length
  · -- the last block: what it holds is what is over in the size
    rw [h.size_eq hi hlast, Nat.mul_add_mod_self_right]
    rcases Nat.eq_or_lt_of_le hle with heq | hlt
    · rw [heq, Nat.mod_self, if_neg fun h => h.2 rfl]
    · rw [Nat.mod_eq_of_lt hlt, if_pos ⟨hlast, by omega⟩]
  · rw [if_neg fun h => hlast h.1, h.full i rs hi (by omega)]

theorem dirFind_records {inode name : List Byte} (blocks : List (List DirRecord)) (j : Nat)
    (hblocks : ∀ i rs, blocks[i]? = some rs → (∀ r ∈ rs, r.Ok) ∧
      (∃ behind, blockBytes pool v inode (j + i) = some (rs.flatMap DirRecord.encode ++ behind)) ∧
      dirLimit v (r32 inode 4) (dirBlocks v (r32 inode 4)) (j + i) =
        (rs.flatMap DirRecord.encode).length) :
    dirFind pool v inode name (List.range' j blocks.length) =
      some (DirRecord.lookup blocks.flatten name) := by
  induction blocks generalizing j with
  | nil => rfl
  | cons rs blocks ih =>
    obtain ⟨hrs, ⟨behind, hbytes⟩, hlimit⟩ := hblocks 0 rs rfl
    rw [Nat.add_zero] at hbytes hlimit
    have hrest := ih (j + 1) fun i rs' hi => by
      have h := hblocks (i + 1) rs' hi
      rwa [Nat.add_assoc, Nat.add_comm 1 i]
    rw [List.length_cons, List.range'_succ, dirFind, hbytes]
    dsimp only
    rw [hlimit, blockEntries_records hrs, entryFor_records, List.flatten_cons]
    have hlookup : DirRecord.lookup (rs ++ blocks.flatten) name =
        (DirRecord.lookup rs name).or (DirRecord.lookup blocks.flatten name) := by
      rw [DirRecord.lookup, List.find?_append, Option.map_or]
      rfl
    rcases hfound : DirRecord.lookup rs name with _ | ino
    · rw [hlookup, hfound, Option.none_or]
      exact hrest
    · rw [hlookup, hfound, Option.some_or]

end Directories

/-! ## Inodes and paths -/

namespace Ext4Image

variable (I : Ext4Image)

def inodeOff (ino : Nat) : Nat :=
  I.inodeTable ((ino - 1) / I.inodesPerGroup) * I.blockSize +
    (ino - 1) % I.inodesPerGroup * I.inodeSize

/-- The fields of a volume are those of the image, and it can be read. -/
structure MountedAs (pool : Pool) (v : Ext4Vol) : Prop where
  delivers : Delivers pool v I.image
  blockSize_eq : v.blockSize = I.blockSize
  inodesPerGroup_eq : v.inodesPerGroup = I.inodesPerGroup
  inodeSize_eq : v.inodeSize = I.inodeSize
  bgdtOff_eq : v.bgdtOff = (I.firstDataBlock + 1) * I.blockSize
  descSize_eq : v.descSize = I.descSize

theorem blockSize_bounds : 1024 ≤ I.blockSize ∧ I.blockSize ≤ 4096 := by
  have hlog := I.logBlockSize_le
  have hle : 2 ^ I.logBlockSize ≤ 2 ^ 2 := Nat.pow_le_pow_right (by omega) hlog
  have hpos : 0 < 2 ^ I.logBlockSize := Nat.two_pow_pos _
  unfold Ext4Super.blockSize
  omega

theorem inodeSize_ge : 128 ≤ I.inodeSize := by
  unfold Ext4Super.inodeSize
  split <;> omega

theorem blockSize_dvd : I.blockSize ∣ 2 ^ 32 := by
  have hpow : I.blockSize = 2 ^ (10 + I.logBlockSize) := by
    rw [Ext4Super.blockSize, Nat.pow_add]
  have hlog := I.logBlockSize_le
  rw [hpow]
  exact Nat.pow_dvd_pow 2 (by omega)

theorem mount_image (pool : AmplePool) :
    ∃ v, I.mount pool.toPool = some v ∧ I.MountedAs pool.toPool v := by
  have hmagic := I.magic_at.r16_eq (n := 1024) (by omega)
  have hlog := I.logBlockSize_at.r32_eq (n := 1024) (by omega)
  have hfirst := I.firstDataBlock_at.r32_eq (n := 1024) (by omega)
  have hipg := I.inodesPerGroup_at.r32_eq (n := 1024) (by omega)
  have hisz := I.inodeSize_at.r16_eq (n := 1024) (by omega)
  have hfeat := I.featureIncompat_at.r32_eq (n := 1024) (by omega)
  have hdesc := I.descSize_at.r16_eq (n := 1024) (by omega)
  have hlogle := I.logBlockSize_le
  have hbs := I.blockSize_bounds
  rw [Nat.mod_eq_of_lt (by omega)] at hlog
  rw [Nat.mod_eq_of_lt (by have := I.firstDataBlock_lt; omega)] at hfirst
  rw [Nat.mod_eq_of_lt I.inodesPerGroup_lt] at hipg
  rw [Nat.mod_eq_of_lt I.inodeSizeField_lt] at hisz
  rw [Nat.mod_eq_of_lt I.featureIncompat_lt] at hfeat
  rw [Nat.mod_eq_of_lt I.descSizeField_lt] at hdesc
  have hblock : u32 (1024 * 2 ^ (I.logBlockSize % 32)) = I.blockSize := by
    rw [Nat.mod_eq_of_lt (show I.logBlockSize < 32 by omega), ← Ext4Super.blockSize]
    exact Nat.mod_eq_of_lt (by omega)
  refine ⟨decodeSuperblock (slice I.image 1024 1024)
    (blankVol none I.dio (some I.bio) I.media.blockSize), ?_, ?_⟩
  · rw [mount_eq pool I.toPartition I.media_ok I.length_ge, hmagic, if_neg (by decide)]
  · refine ⟨delivers_plain pool I.toPartition rfl rfl rfl rfl, ?_, hipg, ?_, ?_, ?_⟩
    · rw [decodeSuperblock, hlog]
      exact hblock
    · rw [decodeSuperblock, hisz]
      rfl
    · rw [decodeSuperblock, hlog, hfirst, hblock]
      dsimp only
      rw [u32, Nat.mod_eq_of_lt I.firstDataBlock_lt]
    · rw [decodeSuperblock, hfeat, hdesc]
      dsimp only [Ext4Super.descSize]
      by_cases hwide : I.featureIncompat.testBit 7 = true
      · rw [if_pos ⟨hwide, (I.desc_ok hwide).ge⟩, if_pos hwide]
      · rw [if_neg (fun h => hwide h.1), if_neg hwide]

variable {I} {pool : Pool} {v : Ext4Vol}

theorem node_laidOut {ino : Nat} {node : Ext4Node} (hnode : I.nodes ino = some node) :
    node.LaidOut I.image I.blockSize I.inodeSize (I.inodeOff ino) := (I.node_at ino node hnode).2

theorem inodeAt_node (hv : I.MountedAs pool v) {ino : Nat} {node : Ext4Node}
    (hnode : I.nodes ino = some node) :
    inodeAt pool v ino = some (slice I.image (I.inodeOff ino) I.inodeSize) := by
  obtain ⟨hpos, hat⟩ := I.node_at ino node hnode
  have hdesc := I.desc_at ino node hnode
  have hlen := I.length_lt
  have hisz := I.inodeSize_ge
  have hdsz : 32 ≤ I.descSize := by
    unfold Ext4Super.descSize
    split <;> omega
  have htable : SakuruBoot.inodeTable pool v ((ino - 1) / v.inodesPerGroup) =
      some (I.inodeTable ((ino - 1) / I.inodesPerGroup)) := by
    have hin := hdesc.inside
    rw [Ext4Super.descOff] at hin
    have hread := hv.delivers _ _ (by omega) hin
    rw [SakuruBoot.inodeTable, hv.bgdtOff_eq, hv.descSize_eq, hv.inodesPerGroup_eq,
      bytesAt_eq_some.mpr ⟨by omega, hread⟩, Option.map_some]
    have hlow := hdesc.low_at.r32_eq (n := I.descSize) (by omega)
    have hhigh := hdesc.high_at
    rw [Ext4Super.descOff] at hlow hhigh
    rw [hlow]
    congr 1
    by_cases hwide : I.descSize = 64
    · rw [if_pos hwide] at hhigh
      rw [if_pos hwide.ge, hhigh.2.r32_eq (by omega), Nat.mod_eq_of_lt (a := _ / _) (by omega),
        Nat.mod_add_div]
    · have h32 : I.descSize = 32 := by
        unfold Ext4Super.descSize at hwide ⊢
        split at hwide <;> simp_all
      rw [if_neg hwide] at hhigh
      rw [if_neg (by omega), Nat.mod_eq_of_lt hhigh, Nat.mul_zero, Nat.add_zero]
  rw [inodeAt, if_neg (by omega), htable, Option.bind_some, hv.blockSize_eq, hv.inodesPerGroup_eq,
    hv.inodeSize_eq]
  have hin := hat.inside
  exact bytesAt_eq_some.mpr ⟨by omega, hv.delivers _ _ (by omega) hin⟩

theorem dirBlocks_eq {size k : Nat} (hbs : 0 < v.blockSize) (hk : k * v.blockSize < 2 ^ 32) (hdvd : v.blockSize ∣ 2 ^ 32)
    (hle : size ≤ k * v.blockSize) (hlt : k * v.blockSize < size + v.blockSize) : dirBlocks v size = k := by
  have hk' : (k + 1) * v.blockSize ≤ 2 ^ 32 := by
    obtain ⟨m, hm⟩ := hdvd
    rw [hm, Nat.mul_comm] at hk
    rw [hm, Nat.mul_comm v.blockSize]
    exact Nat.mul_le_mul_right _ (Nat.lt_of_mul_lt_mul_left hk)
  have hsucc : (k + 1) * v.blockSize = k * v.blockSize + v.blockSize := Nat.succ_mul ..
  rw [dirBlocks, u32, Nat.mod_eq_of_lt (by omega)]
  exact Nat.div_eq_of_lt_le (by omega) (by omega)

theorem place_lt {mapping : BlockMapping} {nblk count : Nat} (hok : mapping.Ok nblk count) {lblock p : Nat}
    (h : mapping.place lblock = some p) : p < nblk := by
  have hextents : ∀ es : List Extent, (∀ e ∈ es, e.Ok nblk) → Extent.place es lblock = some p →
      p < nblk := by
    intro es hes hp
    rw [Extent.place, Option.map_eq_some_iff] at hp
    obtain ⟨e, he, rfl⟩ := hp
    have hcov := List.find?_some he
    have hin := (hes e (List.mem_of_find?_eq_some he)).inside
    simp only [Extent.contains, Bool.and_eq_true, decide_eq_true_eq] at hcov
    omega
  cases mapping with
  | extents es => exact hextents es hok.2 h
  | index ls =>
    refine hextents _ (fun e he => ?_) h
    obtain ⟨l, hl, he⟩ := List.mem_flatMap.mp he
    exact (hok.2.2 l hl).2 e he
  | direct blocks =>
    rw [BlockMapping.place, Option.bind_eq_some_iff] at h
    obtain ⟨b, hb, hp⟩ := h
    rw [Option.ite_none_left_eq_some, Option.some.injEq] at hp
    exact hp.2 ▸ (hok.2.2 b (List.mem_of_getElem? hb)).2

theorem blockBytes_node (hv : I.MountedAs pool v) {ino : Nat} {node : Ext4Node}
    (hnode : I.nodes ino = some node) {lblock : Nat}
    (hlb : lblock < (node.size + I.blockSize - 1) / I.blockSize) :
    (blockMap pool v (slice I.image (I.inodeOff ino) I.inodeSize) lblock).isSome ∧
    blockBytes pool v (slice I.image (I.inodeOff ino) I.inodeSize) lblock =
      some (match node.mapping.place lblock with
        | none => List.replicate I.blockSize 0
        | some p => slice I.image (p * I.blockSize) I.blockSize) := by
  have hat := node_laidOut hnode
  have hbs := I.blockSize_bounds
  have hpos : 0 < v.blockSize := by rw [hv.blockSize_eq]; omega
  have hmap := blockMap_node (v := v) hv.delivers I.length_lt hpos (by rw [hv.blockSize_eq]; omega)
    I.inodeSize_ge (hv.blockSize_eq ▸ hat) (hv.blockSize_eq ▸ hlb)
  refine ⟨hmap ▸ rfl, ?_⟩
  rw [blockBytes, hmap]
  cases hp : node.mapping.place lblock with
  | none => rw [hv.blockSize_eq]
  | some p =>
    have hlt := place_lt hat.mapping_ok hp
    rw [← hv.blockSize_eq] at hlt ⊢
    exact blockAt_image hv.delivers I.length_lt hpos hlt

/-- The mode and the size that the reader finds in the inode of a described directory. -/
theorem inode_dir {ino : Nat} {node : Ext4Node} {blocks : List (List DirRecord)} (hnode : I.nodes ino = some node)
    (hdir : node.kind = .dir blocks) {inode : List Byte} (hinode : inode = slice I.image (I.inodeOff ino) I.inodeSize) :
    isDirectory inode = true ∧ r32 inode 4 = node.size := by
  have hat := node_laidOut hnode
  have hisz := I.inodeSize_ge
  have hkind := hat.kind_ok
  rw [Ext4Node.KindOk, hdir] at hkind
  obtain ⟨hmode, hlt, hfills, -⟩ := hkind
  have hsize : node.size ≤ blocks.length * I.blockSize := by
    rw [Ext4Node.size, hdir]
    exact hfills.size_bounds.1
  constructor
  · have hmodeEq : r16 inode 0 = node.mode := by
      rw [hinode, Holds.r16_eq (o := I.inodeOff ino) hat.mode_at (n := I.inodeSize) (by omega),
        Nat.mod_eq_of_lt hat.mode_lt]
    rw [isDirectory, hmodeEq, hmode]
    rfl
  · rw [hinode, hat.size_at.r32_eq (n := I.inodeSize) (by omega), Nat.mod_eq_of_lt (by omega)]

/-- The blocks of a described directory, as the reader sees them. -/
theorem dirBlocks_node (hv : I.MountedAs pool v) {ino : Nat} {node : Ext4Node}
    {blocks : List (List DirRecord)} (hnode : I.nodes ino = some node) (hdir : node.kind = .dir blocks)
    {inode : List Byte} (hinode : inode = slice I.image (I.inodeOff ino) I.inodeSize) :
    isDirectory inode = true ∧ dirBlocks v (r32 inode 4) = blocks.length ∧
      ∀ i rs, blocks[i]? = some rs → (∀ r ∈ rs, r.Ok) ∧
        (∃ behind, blockBytes pool v inode i = some (rs.flatMap DirRecord.encode ++ behind)) ∧
        dirLimit v (r32 inode 4) (dirBlocks v (r32 inode 4)) i = (rs.flatMap DirRecord.encode).length := by
  obtain ⟨hisdir, hsizeEq⟩ := inode_dir hnode hdir hinode
  have hbs := I.blockSize_bounds
  have hkind := (node_laidOut hnode).kind_ok
  rw [Ext4Node.KindOk, hdir] at hkind
  obtain ⟨-, hlt, hfills, hrecords⟩ := hkind
  have hsize : node.size = (blocks.map fun rs => (rs.flatMap DirRecord.encode).length).sum := by
    rw [Ext4Node.size, hdir]
  obtain ⟨hsizeLe, hsizeLt⟩ := hfills.size_bounds
  have hround := hfills.round_up (by omega)
  rw [← hsize] at hsizeLe hsizeLt hround
  have hcount : dirBlocks v (r32 inode 4) = blocks.length := by
    have hdvd := I.blockSize_dvd
    rw [hsizeEq]
    rw [← hv.blockSize_eq] at hlt hdvd hbs hsizeLe hround
    exact dirBlocks_eq (by omega) hlt hdvd hsizeLe hround
  refine ⟨hisdir, hcount, fun i rs hi => ?_⟩
  obtain ⟨hrs, p, hp, hholds⟩ := hrecords i rs hi
  have hle := (hfills.part rs (List.mem_of_getElem? hi)).2
  have hlb : i < (node.size + I.blockSize - 1) / I.blockSize := by
    refine (Nat.le_div_iff_mul_le (by omega)).mpr ?_
    have := hsizeLt i (List.getElem?_eq_some_iff.mp hi).1
    rw [Nat.succ_mul]
    omega
  refine ⟨hrs, ⟨(slice I.image (p * I.blockSize) I.blockSize).drop (rs.flatMap DirRecord.encode).length, ?_⟩, ?_⟩
  · have htake : (slice I.image (p * I.blockSize) I.blockSize).take (rs.flatMap DirRecord.encode).length =
        rs.flatMap DirRecord.encode := by
      rw [slice, List.take_take, Nat.min_eq_left hle]
      exact hholds
    have hsplit := List.take_append_drop (rs.flatMap DirRecord.encode).length (slice I.image (p * I.blockSize) I.blockSize)
    rw [htake] at hsplit
    rw [hinode, (blockBytes_node hv hnode hlb).2, hp, hsplit]
  · rw [hcount, hsizeEq, hsize]
    exact (hv.blockSize_eq ▸ hfills).limit_eq hi

theorem dirFind_node (hv : I.MountedAs pool v) {ino : Nat} {node : Ext4Node}
    {blocks : List (List DirRecord)} (hnode : I.nodes ino = some node) (hdir : node.kind = .dir blocks)
    (name : List Byte) :
    isDirectory (slice I.image (I.inodeOff ino) I.inodeSize) = true ∧
      dirFind pool v (slice I.image (I.inodeOff ino) I.inodeSize) name
        (List.range (dirBlocks v (r32 (slice I.image (I.inodeOff ino) I.inodeSize) 4))) =
        some (DirRecord.lookup blocks.flatten name) := by
  obtain ⟨hisdir, hcount, hblocks⟩ := dirBlocks_node hv hnode hdir rfl
  refine ⟨hisdir, ?_⟩
  rw [hcount, List.range_eq_range']
  refine dirFind_records blocks 0 fun i rs hi => ?_
  rw [Nat.zero_add]
  exact hblocks i rs hi

theorem resolve_leads (hv : I.MountedAs pool v) {ino target : Nat} {names : List (List Byte)}
    (h : I.Leads ino names target) : resolve pool v ino names = some (some target) := by
  induction h with
  | here ino => rfl
  | step hnode hdir hname hrest ih =>
    obtain ⟨hisdir, hfind⟩ := dirFind_node hv hnode hdir _
    rw [resolve, inodeAt_node hv hnode]
    dsimp only
    rw [hisdir, hfind, hname]
    exact ih

theorem resolve_misses (hv : I.MountedAs pool v) {ino : Nat} {names : List (List Byte)}
    (h : I.Misses ino names) : resolve pool v ino names = some none := by
  induction h with
  | here hnode hdir hname =>
    obtain ⟨hisdir, hfind⟩ := dirFind_node hv hnode hdir _
    rw [resolve, inodeAt_node hv hnode]
    dsimp only
    rw [hisdir, hfind, hname]
    rfl
  | step hnode hdir hname hrest ih =>
    obtain ⟨hisdir, hfind⟩ := dirFind_node hv hnode hdir _
    rw [resolve, inodeAt_node hv hnode]
    dsimp only
    rw [hisdir, hfind, hname]
    exact ih

end Ext4Image

/-! ## Reading files -/

namespace Ext4Image

variable {I : Ext4Image} {pool : Pool} {v : Ext4Vol}

def toFs (hv : I.MountedAs pool v) : Ext4Fs where
  toExt4Vol := v
  inodesPerGroup_pos := hv.inodesPerGroup_eq ▸ I.inodesPerGroup_pos
  inodeSize_ge := hv.inodeSize_eq ▸ I.inodeSize_ge
  blockSize_ge := hv.blockSize_eq ▸ I.blockSize_bounds.1
  blockSize_le := hv.blockSize_eq ▸ I.blockSize_bounds.2.trans (by norm_num)

theorem fileSize_node {ino : Nat} {node : Ext4Node} {size : Nat} (hnode : I.nodes ino = some node)
    (hfile : node.kind = .file size) : fileSize (slice I.image (I.inodeOff ino) I.inodeSize) = size := by
  have hat := node_laidOut hnode
  have hisz := I.inodeSize_ge
  have hkind := hat.kind_ok
  rw [Ext4Node.KindOk, hfile] at hkind
  obtain ⟨-, hlt, hhigh⟩ := hkind
  have hlow := hat.size_at
  rw [Ext4Node.size, hfile] at hlow
  rw [fileSize, hlow.r32_eq (by omega), hhigh.r32_eq (by omega),
    Nat.mod_eq_of_lt (show size / 2 ^ 32 < 2 ^ 32 by omega), Nat.mod_add_div]

/-- A byte of a described file, from the reference reading of its blocks. -/
theorem fileByte_node (hv : I.MountedAs pool v) {ino : Nat} {node : Ext4Node} {size : Nat}
    (hnode : I.nodes ino = some node) (hfile : node.kind = .file size) {i : Nat} (hi : i < size) {b : Byte}
    (hb : fileByte pool v (slice I.image (I.inodeOff ino) I.inodeSize) i = some b) :
    (I.contents node.mapping size)[i]? = some b := by
  have hbs := I.blockSize_bounds
  have hlb : i / I.blockSize < (node.size + I.blockSize - 1) / I.blockSize := by
    rw [Ext4Node.size, hfile]
    dsimp only
    refine (Nat.le_div_iff_mul_le (by omega)).mpr ?_
    have := Nat.div_mul_le_self i I.blockSize
    rw [Nat.succ_mul]
    omega
  have hmod : i % I.blockSize < I.blockSize := Nat.mod_lt _ (by omega)
  rw [fileByte, hv.blockSize_eq, (blockBytes_node hv hnode hlb).2, Option.bind_some] at hb
  rw [contents, List.getElem?_map, List.getElem?_range hi, Option.map_some]
  rcases hp : node.mapping.place (i / I.blockSize) with _ | p
  · rw [hp, List.getElem?_replicate, if_pos hmod] at hb
    exact hb
  · rw [hp] at hb
    dsimp only [slice] at hb ⊢
    rw [List.getElem?_take_of_lt hmod, List.getElem?_drop] at hb
    rw [List.getD_eq_getElem?_getD, hb, Option.getD_some]

/-- On an image of the supported kind, `ext4_read_file` returns the bytes and the size of the file
that the path leads to, and nothing when the path has a missing component. -/
theorem ext4ReadFile_image (I : Ext4Image) (pool : AmplePool) (path : List Byte)
    (hnames : ∀ name ∈ pathComponents path, name.length ≤ 255) :
    ∃ v, I.mount pool.toPool = some v ∧
      (∀ ino node size, I.Leads ext4RootIno (pathComponents path) ino → I.nodes ino = some node →
        node.kind = .file size → 1 ≤ size → size ≤ ext4MaxFile →
        ∃ buf, ext4ReadFile pool.toPool v path = some (buf, size) ∧
          buf.take size = I.contents node.mapping size) ∧
      (I.Misses ext4RootIno (pathComponents path) → ext4ReadFile pool.toPool v path = none) := by
  obtain ⟨v, hmount, hv⟩ := I.mount_image pool
  refine ⟨v, hmount, ?_, ?_⟩
  · intro ino node size hleads hnode hfile hpos hmax
    have hsize := fileSize_node hnode hfile
    have hres := resolve_leads hv hleads
    have hblocks : fileBlocks v (slice I.image (I.inodeOff ino) I.inodeSize) =
        (node.size + I.blockSize - 1) / I.blockSize := by
      rw [fileBlocks, hsize, hv.blockSize_eq, Ext4Node.size, hfile]
    have href := ext4ReadFile_ref (toFs hv) hres (inodeAt_node hv hnode)
      (fun blk hblk => (blockBytes_node hv hnode (hblocks ▸ hblk)).1)
    rw [hsize] at href
    rcases hcall : ext4ReadFile pool.toPool v path with _ | ⟨buf, size'⟩
    · -- none of the code's reasons to give up applies
      exfalso
      rw [show ext4ReadFile pool.toPool (toFs hv).toExt4Vol path = none from hcall] at href
      rcases href with halloc | h | h | h | ⟨k, hk, hnone⟩
      · rw [allocBufs, if_pos ⟨pool.alloc_eq _, pool.alloc_eq _⟩] at halloc
        cases halloc
      · omega
      · omega
      · rw [pool.alloc_eq] at h
        cases h
      · rw [show blockBytes pool.toPool (toFs hv).toExt4Vol _ k = some _ from
          (blockBytes_node hv hnode (hblocks ▸ hk)).2] at hnone
        cases hnone
    · rw [show ext4ReadFile pool.toPool (toFs hv).toExt4Vol path = some (buf, size') from hcall] at href
      obtain ⟨rfl, -, hbytes⟩ := href
      refine ⟨buf, rfl, List.ext_getElem? fun i => ?_⟩
      by_cases hi : i < size'
      · obtain ⟨b, hb, hget⟩ := hbytes i hi
        rw [List.getElem?_take_of_lt hi, hget, fileByte_node hv hnode hfile hi hb]
      · rw [List.getElem?_eq_none (by rw [List.length_take]; omega),
          List.getElem?_eq_none (by rw [contents, List.length_map, List.length_range]; omega)]
  · intro hmisses
    have hopen := openPath_missing (toFs hv) (resolve_misses hv hmisses)
      (fun name hname => by have := hnames name hname; omega)
    rw [ext4ReadFile, show openPath pool.toPool v path = none from hopen]

end Ext4Image

/-! A small image: the root directory holds `/k`, a file of three bytes. -/

/-- Blocks of 1 KiB: boot block, superblock, group descriptors, inode table, root directory, data. -/
def smallImage : List Byte :=
  [ -- superblock: first data block, inodes per group, magic
    (1044, le 4 1), (16, le 4 8), (12, le 2 0xEF53),
    -- inode table at block 3
    (974, le 4 3),
    -- inode 2: a directory of 1024 bytes at block 4
    (1140, le 2 0x4000), (2, le 4 1024), (32, le 4 4),
    -- inode 3: a regular file of three bytes, in one extent at block 5
    (84, le 2 0x8000), (2, le 4 3), (24, le 4 0x80000),
    (4, le 2 0xF30A), (0, le 2 1), (8, le 4 0), (0, le 2 1), (2, le 4 5),
    -- the entry for `k`
    (704, le 4 3), (0, le 2 1024), (0, [1, 1, 107]), (1015, [1, 2, 3]), (1021, [])].flatMap
    fun field => List.replicate field.1 0 ++ field.2

def smallRecord : DirRecord := ⟨3, [107], 1, List.replicate 1015 0⟩

def smallNodes (ino : Nat) : Option Ext4Node :=
  if ino = 2 then
    some ⟨0x4000, 0, .direct [4, 0, 0, 0, 0, 0, 0, 0, 0, 0, 0, 0], .dir [[smallRecord]]⟩
  else if ino = 3 then some ⟨0x8000, 0x80000, .extents [⟨0, 1, 5⟩], .file 3⟩
  else none

instance (image : List Byte) (off : Nat) (bytes : List Byte) : Decidable (Holds image off bytes) :=
  inferInstanceAs (Decidable (_ = _))

theorem length_smallImage : smallImage.length = 6144 := by decide +kernel

theorem smallRoot_laidOut : Ext4Node.LaidOut smallImage 1024 128 3200
    ⟨0x4000, 0, .direct [4, 0, 0, 0, 0, 0, 0, 0, 0, 0, 0, 0], .dir [[smallRecord]]⟩ where
  inside := by rw [length_smallImage]; decide
  mode_lt := by decide
  mode_at := by decide +kernel
  size_at := by decide +kernel
  flags_lt := by decide
  flags_at := by decide +kernel
  extents_flag := by decide
  mapping_at := show Holds _ _ _ by decide +kernel
  mapping_ok := by
    rw [length_smallImage]
    exact ⟨by decide, by decide +kernel, by decide⟩
  kind_ok := by
    have hlen : ([smallRecord].flatMap DirRecord.encode).length = 1024 := by decide +kernel
    refine ⟨by decide, by decide, ⟨fun i rs _ hi => absurd hi (by simp), fun rs hrs => ?_⟩, fun i rs hi => ?_⟩
    · rw [List.mem_singleton.mp hrs, hlen]
      decide
    cases i with
    | zero =>
      cases hi
      refine ⟨fun r hr => ?_, 4, rfl, by decide +kernel⟩
      obtain rfl := List.mem_singleton.mp hr
      exact ⟨by decide, by decide, by decide +kernel⟩
    | succ i => cases hi

theorem smallFile_laidOut : Ext4Node.LaidOut smallImage 1024 128 3328
    ⟨0x8000, 0x80000, .extents [⟨0, 1, 5⟩], .file 3⟩ where
  inside := by rw [length_smallImage]; decide
  mode_lt := by decide
  mode_at := by decide +kernel
  size_at := by decide +kernel
  flags_lt := by decide
  flags_at := by decide +kernel
  extents_flag := by decide
  mapping_at := ⟨by decide, 0, 0, by decide +kernel⟩
  mapping_ok := by
    rw [length_smallImage]
    refine ⟨List.pairwise_singleton _ _, fun e he => ?_⟩
    obtain rfl := List.mem_singleton.mp he
    exact ⟨by decide, by decide, by decide, by decide, by decide, by decide⟩
  kind_ok := ⟨by decide, by decide, by decide +kernel⟩

theorem small_image : ∃ I : Ext4Image, I.image = smallImage ∧ I.nodes = smallNodes ∧ I.logBlockSize = 0 := by
  let S : Ext4Super :=
    { image := smallImage, media := ⟨true, true, 512, 11⟩, hasDio := false
      length_lt := by rw [length_smallImage]; decide
      blockSize_pos := by decide
      length_eq := length_smallImage
      logBlockSize := 0, firstDataBlock := 1, inodesPerGroup := 8, inodeSizeField := 0
      featureIncompat := 0, descSizeField := 0
      media_ok := rfl
      length_ge := by rw [length_smallImage]; decide
      logBlockSize_le := by decide
      firstDataBlock_lt := by decide
      inodesPerGroup_pos := by decide
      inodesPerGroup_lt := by decide
      inodeSizeField_lt := by decide
      featureIncompat_lt := by decide
      descSizeField_lt := by decide
      desc_ok := nofun
      firstDataBlock_at := by decide +kernel
      logBlockSize_at := by decide +kernel
      inodesPerGroup_at := by decide +kernel
      magic_at := by decide +kernel
      inodeSize_at := by decide +kernel
      featureIncompat_at := by decide +kernel
      descSize_at := by decide +kernel }
  have hdesc : S.DescAt 0 3 := ⟨by rw [length_smallImage]; decide, by decide +kernel, by decide +kernel⟩
  have hnodes : ∀ ino node, smallNodes ino = some node →
      (ino = 2 ∧ node.LaidOut smallImage 1024 128 3200) ∨
        (ino = 3 ∧ node.LaidOut smallImage 1024 128 3328) := by
    intro ino node hnode
    unfold smallNodes at hnode
    split_ifs at hnode with h2 h3
    · exact .inl ⟨h2, Option.some.inj hnode ▸ smallRoot_laidOut⟩
    · exact .inr ⟨h3, Option.some.inj hnode ▸ smallFile_laidOut⟩
  have hipg : S.inodesPerGroup = 8 := rfl
  have hbs : S.blockSize = 1024 := rfl
  have hisz : S.inodeSize = 128 := rfl
  refine ⟨⟨S, fun _ => 3, smallNodes, fun ino node hnode => ?_, fun ino node hnode => ?_⟩, rfl, rfl, rfl⟩
  · rw [hipg]
    rcases hnodes ino node hnode with ⟨rfl, -⟩ | ⟨rfl, -⟩ <;> exact hdesc
  · rw [hipg, hbs, hisz]
    rcases hnodes ino node hnode with ⟨rfl, hat⟩ | ⟨rfl, hat⟩
    · exact ⟨Nat.two_pos, hat⟩
    · exact ⟨Nat.succ_pos 2, hat⟩

theorem ext4ReadFile_small : ∃ (I : Ext4Image) (pool : AmplePool) (v : Ext4Vol) (buf : List Byte),
    I.image = smallImage ∧ I.mount pool.toPool = some v ∧
      ext4ReadFile pool.toPool v [47, 107, 0] = some (buf, 3) ∧ buf.take 3 = [1, 2, 3] := by
  obtain ⟨I, himage, hnodes, hlog⟩ := small_image
  have hroot := congrFun hnodes 2
  have hfile := congrFun hnodes 3
  have hpath : pathComponents [47, 107, 0] = [[107]] := by decide
  obtain ⟨v, hmount, hread, -⟩ := Ext4Image.ext4ReadFile_image I ⟨zeroPool, fun _ => rfl⟩ [47, 107, 0]
    (by rw [hpath]; decide)
  have hleads : I.Leads ext4RootIno (pathComponents [47, 107, 0]) 3 := by
    rw [hpath]
    exact .step hroot rfl (by decide) (.here 3)
  obtain ⟨buf, hcall, hbuf⟩ := hread 3 _ 3 hleads hfile rfl (by decide) (by decide)
  refine ⟨I, _, v, buf, himage, hmount, hcall, ?_⟩
  rw [hbuf, Ext4Image.contents, Ext4Super.blockSize, hlog, himage]
  decide +kernel

end SakuruBoot

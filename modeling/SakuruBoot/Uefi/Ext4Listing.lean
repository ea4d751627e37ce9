import SakuruBoot.Uefi.Ext4ImageRead

/-!
# Listing a directory

On a directory of a supported image, `ext4_readdir` reports what its records say: `readdirLoop_records`
follows the blocks and the records of each block. `listing` is what should be reported, one event for each
regular file and each directory in use. The two differ by the names of 255 bytes, which the code leaves out:
`ext4Readdir_iff`. Every name that is listed can be looked up.
-/

namespace SakuruBoot
open CStr (Byte u8 u32 u64)
open Bytes

namespace DirRecord

/-- A regular file or a directory in use, other than the directory itself and its parent. -/
def listed (r : DirRecord) : Bool :=
  r.ino != 0 && (r.fileType == 1 || r.fileType == 2) && r.name != [46] && r.name != [46, 46]

def event (r : DirRecord) : DirEvent := { name := r.name, isDir := r.fileType == 2 }

/-- The calls of the callback that the records ask for. -/
def listing (rs : List DirRecord) : List DirEvent := (rs.filter listed).map event

/-- What the code calls the callback with. -/
def reported (r : DirRecord) : List DirEvent :=
  if r.ino ≠ 0 ∧ 0 < r.name.length ∧ r.name.length < 255 ∧ (r.fileType = 1 ∨ r.fileType = 2) then
    if isDotName r.name then [] else [r.event]
  else []

/-- The records in use have names, without slash and terminator, and no two have the same. -/
structure Named (rs : List DirRecord) : Prop where
  pos : ∀ r ∈ rs, r.ino ≠ 0 → r.name ≠ []
  chars : ∀ r ∈ rs, r.ino ≠ 0 → ∀ c ∈ r.name, c ≠ 47 ∧ c ≠ 0
  unique : rs.Pairwise fun a b => a.ino ≠ 0 → b.ino ≠ 0 → a.name ≠ b.name

end DirRecord

/-! ## The entry loop -/

section Walk

variable {data rest : List Byte} {pos : Nat} {r : DirRecord}

theorem readdirEvent_record (hr : r.Ok) : readdirEvent (r.encode ++ rest) = r.reported := by
  obtain ⟨hino, -, hnl, htype, hbehind⟩ := record_fields hr (Eq.refl (r.encode ++ rest))
  have hname : fit (r.name ++ (r.padding ++ rest)) r.name.length = r.name := by
    rw [fit, List.take_left, List.length_append, Nat.sub_eq_zero_of_le (by omega)]
    simp
  unfold readdirEvent DirRecord.reported
  simp only [hino, hnl, htype, hbehind, hname]
  rfl

theorem readdirWalk_records {limit : Nat} (rs : List DirRecord) (hrs : ∀ r ∈ rs, r.Ok) {behind : List Byte} {fuel : Nat}
    (hdrop : data.drop pos = rs.flatMap DirRecord.encode ++ behind)
    (hlimit : limit = pos + (rs.flatMap DirRecord.encode).length) (hfuel : rs.length ≤ fuel) :
    readdirWalk data limit fuel pos = rs.flatMap DirRecord.reported := by
  induction rs generalizing fuel pos with
  | nil =>
    cases fuel with
    | zero => rfl
    | succ fuel => exact if_pos (by simp at hlimit; omega)
  | cons r rs ih =>
    obtain ⟨fuel, rfl⟩ : ∃ k, fuel = k + 1 := ⟨fuel - 1, by rw [List.length_cons] at hfuel; omega⟩
    rw [List.flatMap_cons, List.append_assoc] at hdrop
    rw [List.flatMap_cons, List.length_append, length_encode_record] at hlimit
    have hrec := (entryAt_record (hrs r (by simp)) hdrop).2
    have hge : 8 ≤ r.recLen := by rw [DirRecord.recLen]; omega
    rw [readdirWalk, if_neg (by omega)]
    dsimp only
    rw [hrec, if_neg (by omega), List.flatMap_cons]
    congr 1
    · rw [hdrop, readdirEvent_record (hrs r (by simp))]
    · refine ih (fun r' hr' => hrs r' (by simp [hr'])) ?_ (by omega) (by rw [List.length_cons] at hfuel; omega)
      rw [← List.drop_drop, hdrop, List.drop_left' (length_encode_record r)]

end Walk

/-! ## The block loop -/

section Blocks

variable {pool : Pool} {v : Ext4Vol}

theorem readdirLoop_records {inode rest : List Byte} (hinode : 100 ≤ inode.length) (dirs : List (List DirRecord))
    {j : Nat} (hj : j + dirs.length ≤ 2 ^ 31) {blocks : List Byte} (hblocks : v.blockSize ≤ blocks.length)
    (hdirs : ∀ i rs, dirs[i]? = some rs → (∀ r ∈ rs, r.Ok) ∧
      (∃ behind, blockBytes pool v inode (j + i) = some (rs.flatMap DirRecord.encode ++ behind)) ∧
      dirLimit v (r32 inode 4) (dirBlocks v (r32 inode 4)) (j + i) = (rs.flatMap DirRecord.encode).length) :
    readdirLoop pool v (inode ++ rest) dirs.length j blocks = dirs.flatten.flatMap DirRecord.reported := by
  induction dirs generalizing j blocks with
  | nil => rfl
  | cons rs dirs ih =>
    obtain ⟨hrs, ⟨more, hbytes⟩, hlimit⟩ := hdirs 0 rs rfl
    rw [Nat.add_zero] at hbytes hlimit
    rw [List.length_cons] at hj
    obtain ⟨q, hmap⟩ := Option.isSome_iff_exists.mp (isSome_blockMap hbytes)
    obtain ⟨hlen, hok, hdata⟩ := readLblock_ref rest hinode (by omega) (Nat.zero_le _) hblocks hmap
    obtain ⟨behind, hbehind⟩ := hdata _ hbytes
    rw [List.append_assoc] at hbehind
    have hsize : r32 (inode ++ rest) 4 = r32 inode 4 := r32_append (by omega) _
    rw [hbytes, Option.isSome_some] at hok
    rw [List.length_cons, readdirLoop]
    dsimp only
    rw [hok, if_neg (by decide), hsize, hlimit, List.flatten_cons, List.flatMap_append]
    congr 1
    · exact readdirWalk_records rs hrs (by rw [List.drop_zero]; exact hbehind) (Nat.zero_add _).symm
        (le_length_records rs)
    · refine ih (by omega) (hblocks.trans hlen) fun i rs' hi => ?_
      have h := hdirs (i + 1) rs' hi
      rwa [Nat.add_assoc, Nat.add_comm 1 i]

end Blocks

/-! ## What should be listed -/

namespace DirRecord

theorem isDotName_iff {name : List Byte} (hchars : ∀ c ∈ name, c ≠ 0) :
    isDotName name = true ↔ name = [46] ∨ name = [46, 46] := by
  match name, hchars with
  | [], _ => decide
  | [a], _ => simp [isDotName]
  | [a, b], h =>
    have hb : b ≠ 0 := h b (by simp)
    simp [isDotName, hb]
  | a :: b :: c :: rest, h =>
    have hb : b ≠ 0 := h b (by simp)
    have hc : c ≠ 0 := h c (by simp)
    simp [isDotName, hb, hc]

/-- A record in use is reported when it should be listed and its name is not too long. -/
theorem reported_eq {r : DirRecord} (hname : r.ino ≠ 0 → r.name ≠ []) (hchars : r.ino ≠ 0 → ∀ c ∈ r.name, c ≠ 0) :
    r.reported = if r.listed && decide (r.name.length < 255) then [r.event] else [] := by
  unfold reported listed
  by_cases hino : r.ino = 0
  · simp [hino]
  · have hpos : 0 < r.name.length := List.length_pos_iff.mpr (hname hino)
    have hdot := isDotName_iff (hchars hino)
    by_cases hlive : r.name.length < 255 ∧ (r.fileType = 1 ∨ r.fileType = 2)
    · rw [if_pos ⟨hino, hpos, hlive⟩]
      by_cases hd : r.name = [46] ∨ r.name = [46, 46]
      · rw [if_pos (hdot.mpr hd)]
        rcases hd with hd | hd <;> simp [hd]
      · rw [if_neg (fun h => hd (hdot.mp h))]
        rw [not_or] at hd
        simp [hino, hlive, hd]
    · rw [if_neg (fun h => hlive h.2.2)]
      rw [if_neg]
      intro h
      simp only [Bool.and_eq_true, Bool.or_eq_true, bne_iff_ne, beq_iff_eq, decide_eq_true_eq] at h
      exact hlive ⟨h.2, h.1.1.1.2⟩

theorem flatMap_reported {rs : List DirRecord} (hnamed : Named rs) :
    rs.flatMap reported = (rs.filter fun r => r.listed && decide (r.name.length < 255)).map event := by
  have hone : ∀ r ∈ rs, r.reported = if r.listed && decide (r.name.length < 255) then [r.event] else [] :=
    fun r hr => reported_eq (hnamed.pos r hr) fun hino c hc => (hnamed.chars r hr hino c hc).2
  clear hnamed
  induction rs with
  | nil => rfl
  | cons r rs ih =>
    rw [List.flatMap_cons, hone r (by simp), ih fun r' hr' => hone r' (by simp [hr']), List.filter_cons]
    split <;> rfl

theorem reported_eq_listing_iff {rs : List DirRecord} (hnamed : Named rs) (hok : ∀ r ∈ rs, r.Ok) :
    rs.flatMap reported = listing rs ↔ ∀ r ∈ rs, r.listed = true → r.name.length ≠ 255 := by
  rw [flatMap_reported hnamed, listing]
  constructor
  · intro heq r hr hlisted
    have hsub : (rs.filter fun r => r.listed && decide (r.name.length < 255)).Sublist (rs.filter listed) :=
      List.monotone_filter_right rs fun r h => (Bool.and_eq_true_iff.mp h).1
    have hlen := congrArg List.length heq
    rw [List.length_map, List.length_map] at hlen
    have hmem : r ∈ rs.filter fun r => r.listed && decide (r.name.length < 255) :=
      hsub.eq_of_length hlen ▸ List.mem_filter.mpr ⟨hr, hlisted⟩
    have := (List.mem_filter.mp hmem).2
    simp only [Bool.and_eq_true, decide_eq_true_eq] at this
    omega
  · intro hlong
    congr 1
    refine List.filter_congr fun r hr => ?_
    have hlt := (hok r hr).name_lt
    cases hlisted : r.listed with
    | false => rfl
    | true =>
      have := hlong r hr hlisted
      simp
      omega

theorem ino_of_listed {r : DirRecord} (h : r.listed = true) : r.ino ≠ 0 := by
  simp only [listed, Bool.and_eq_true, bne_iff_ne] at h
  exact h.1.1.1

theorem lookup_of_mem {rs : List DirRecord} (hnamed : Named rs) {r : DirRecord} (hr : r ∈ rs) (hino : r.ino ≠ 0) :
    lookup rs r.name = some r.ino := by
  have hmatch : (r.ino != 0 && r.name == r.name) = true := by simp [hino]
  obtain ⟨found, hfound⟩ := Option.isSome_iff_exists.mp
    (List.find?_isSome (p := fun r' : DirRecord => r'.ino != 0 && r'.name == r.name) |>.mpr ⟨r, hr, hmatch⟩)
  have hp := List.find?_some hfound
  simp only [Bool.and_eq_true, bne_iff_ne, beq_iff_eq] at hp
  have hsame : found = r := by
    by_contra hne
    have : Std.Symm fun a b : DirRecord => a.ino ≠ 0 → b.ino ≠ 0 → a.name ≠ b.name :=
      ⟨fun a b hab hb ha => (hab ha hb).symm⟩
    exact hnamed.unique.forall (List.mem_of_find?_eq_some hfound) hr hne hp.1 hino hp.2
  rw [lookup, hfound, hsame]
  rfl

end DirRecord

/-! ## Names in a directory -/

theorem pathComponents_child (path : List Byte) {name : List Byte} (hne : name ≠ [])
    (hchars : ∀ c ∈ name, c ≠ 47 ∧ c ≠ 0) :
    pathComponents (CStr.str path ++ 47 :: name) = pathComponents path ++ [name] := by
  have hstr : CStr.str (CStr.str path ++ 47 :: name) = CStr.str path ++ 47 :: name := by
    refine CStr.str_of_no_nul fun c hc => ?_
    rcases List.mem_append.mp hc with hc | hc
    · simpa using List.mem_takeWhile_imp hc
    · rcases List.mem_cons.mp hc with rfl | hc
      · decide
      · exact (hchars c hc).2
  have hsplit : name.splitOn 47 = [name] := List.splitOn_eq_singleton fun h => (hchars 47 h).1 rfl
  rw [pathComponents, hstr, List.splitOn_append_cons_self, List.filter_append, hsplit, pathComponents]
  congr 1
  exact List.filter_cons_of_pos (by simpa using hne)

namespace Ext4Image

variable {I : Ext4Image}

theorem Leads.child {ino dir : Nat} {names : List (List Byte)} (h : I.Leads ino names dir) {node : Ext4Node}
    {blocks : List (List DirRecord)} (hnode : I.nodes dir = some node) (hdir : node.kind = .dir blocks)
    {name : List Byte} {next : Nat} (hname : DirRecord.lookup blocks.flatten name = some next) :
    I.Leads ino (names ++ [name]) next := by
  induction h with
  | here ino => exact .step hnode hdir hname (.here next)
  | step hnode' hdir' hname' _ ih => exact .step hnode' hdir' hname' (ih hnode)

variable {pool : AmplePool} {v : Ext4Vol} {path : List Byte} {ino : Nat} {node : Ext4Node}
  {blocks : List (List DirRecord)}

/-- What the code reports of a directory of the image. -/
theorem ext4Readdir_image (hv : I.MountedAs pool.toPool v) (hleads : I.Leads ext4RootIno (pathComponents path) ino)
    (hnode : I.nodes ino = some node) (hdir : node.kind = .dir blocks) :
    ext4Readdir pool.toPool v path = blocks.flatten.flatMap DirRecord.reported := by
  have hinode := inodeAt_node hv hnode
  obtain ⟨-, hcount, hblocks⟩ := dirBlocks_node hv hnode hdir rfl
  have hbs := I.blockSize_bounds
  have hisz := I.inodeSize_ge
  have hlen := (inodeRead_ref hinode []).2
  rw [hv.inodeSize_eq] at hlen
  have hcount_le := dirBlocks_le (hv.blockSize_eq ▸ hbs.1) (r32 (slice I.image (I.inodeOff ino) I.inodeSize) 4)
  rw [hcount] at hcount_le
  have href : resolve pool.toPool (toFs hv).toExt4Vol ext4RootIno (pathComponents path) = some (some ino) :=
    resolve_leads hv hleads
  rcases openPath_ref href hinode with ⟨-, halloc⟩ | ⟨rest, bufs, hopen, hbufs⟩
  · rw [allocBufs, if_pos ⟨pool.alloc_eq _, pool.alloc_eq _⟩] at halloc
    cases halloc
  · rw [ext4Readdir, show openPath pool.toPool v path = some _ from hopen]
    dsimp only
    rw [r32_append (by omega), hcount]
    refine readdirLoop_records (by omega) blocks (by rwa [Nat.zero_add]) hbufs fun i rs hi => ?_
    rw [Nat.zero_add]
    exact hblocks i rs hi

theorem pathLookup_child (hv : I.MountedAs pool.toPool v) (hleads : I.Leads ext4RootIno (pathComponents path) ino)
    (hnode : I.nodes ino = some node) (hdir : node.kind = .dir blocks) (hnamed : DirRecord.Named blocks.flatten)
    {r : DirRecord} (hr : r ∈ blocks.flatten) (hino : r.ino ≠ 0) {bufs : Ext4Bufs}
    (hbufs : v.blockSize ≤ bufs.blocks.length) :
    (pathLookup pool.toPool v (CStr.str path ++ 47 :: r.name) bufs).1 = r.ino := by
  have hcomps := pathComponents_child path (hnamed.pos r hr hino) (hnamed.chars r hr hino)
  have hres := resolve_leads hv (hleads.child hnode hdir (DirRecord.lookup_of_mem hnamed hr hino))
  rw [← hcomps] at hres
  exact (pathLookup_ref (toFs hv).blockSize_ge (toFs hv).inodeSize_ge hbufs (resolve_length hres) hres).1

/-- Every name of a directory can be looked up, and the listing is complete exactly when no name that should
be listed has 255 bytes. -/
theorem ext4Readdir_iff (I : Ext4Image) (pool : AmplePool) {path : List Byte} {ino : Nat} {node : Ext4Node}
    {blocks : List (List DirRecord)} (hleads : I.Leads ext4RootIno (pathComponents path) ino)
    (hnode : I.nodes ino = some node) (hdir : node.kind = .dir blocks)
    (hnamed : DirRecord.Named blocks.flatten) :
    ∃ v, I.mount pool.toPool = some v ∧
      (∀ r ∈ blocks.flatten, r.listed = true → ∀ bufs : Ext4Bufs, v.blockSize ≤ bufs.blocks.length →
        (pathLookup pool.toPool v (CStr.str path ++ 47 :: r.name) bufs).1 = r.ino) ∧
      (ext4Readdir pool.toPool v path = DirRecord.listing blocks.flatten ↔
        ∀ r ∈ blocks.flatten, r.listed = true → r.name.length ≠ 255) := by
  obtain ⟨v, hmount, hv⟩ := I.mount_image pool
  refine ⟨v, hmount, ?_, ?_⟩
  · intro r hr hlisted bufs hbufs
    exact pathLookup_child hv hleads hnode hdir hnamed hr (DirRecord.ino_of_listed hlisted) hbufs
  · obtain ⟨-, -, hblocks⟩ := dirBlocks_node hv hnode hdir rfl
    rw [ext4Readdir_image hv hleads hnode hdir]
    refine DirRecord.reported_eq_listing_iff hnamed fun r hr => ?_
    obtain ⟨rs, hrs, hmem⟩ := List.mem_flatten.mp hr
    obtain ⟨i, hi⟩ := List.mem_iff_getElem?.mp hrs
    exact (hblocks i rs hi).1 r hmem

end Ext4Image

/-! ## Images with one directory -/

theorem Holds.append {image bytes : List Byte} {off : Nat} (h : Holds image off bytes) (hne : 0 < bytes.length)
    (rest : List Byte) : Holds (image ++ rest) off bytes := by
  have hlen := h.length_le hne
  rw [Holds, slice_append_left hlen]
  exact h

/-- Blocks of 1 KiB: boot block, superblock, group descriptors, and the inode table with a root directory of `size` bytes
at blocks 4 and 5. -/
def dirHead (size : Nat) : List Byte :=
  [(1044, le 4 1), (16, le 4 8), (12, le 2 0xEF53), (974, le 4 3), (1140, le 2 0x4000), (2, le 4 size),
    (32, le 4 4 ++ le 4 5), (848, [])].flatMap fun field => List.replicate field.1 0 ++ field.2

theorem length_dirHead (size : Nat) : (dirHead size).length = 4096 := by
  simp only [dirHead, List.length_flatMap, List.map_cons, List.map_nil, List.length_append, List.length_replicate,
    length_le, List.length_nil, List.sum_cons, List.sum_nil, Nat.reduceAdd]

/-- What the superblock, the group descriptor and the root inode hold. -/
def headFields (size : Nat) : List (Nat × List Byte) :=
  [(1044, le 4 1), (1048, le 4 0), (1064, le 4 8), (1080, le 2 ext4SuperMagic), (1112, le 2 0), (1120, le 4 0),
    (1278, le 2 0), (2056, le 4 3), (3200, le 2 0x4000), (3204, le 4 size), (3232, le 4 0),
    (3240, [4, 5, 0, 0, 0, 0, 0, 0, 0, 0, 0, 0].flatMap (le 4))]

/-- The sizes of the directories below: one block, or a second one with 24 bytes. -/
def dirSizes : List Nat := [1024, 1048]

theorem dirHead_holds {size : Nat} (hsize : size ∈ dirSizes) (rest : List Byte) {off : Nat} {bytes : List Byte}
    (h : (off, bytes) ∈ headFields size) : Holds (dirHead size ++ rest) off bytes := by
  have hall : (dirSizes.all fun size => (headFields size).all fun f =>
      decide (Holds (dirHead size) f.1 f.2) && decide (0 < f.2.length)) = true := by
    decide +kernel
  have hone := List.all_eq_true.mp (List.all_eq_true.mp hall _ hsize) _ h
  simp only [Bool.and_eq_true, decide_eq_true_eq] at hone
  exact hone.1.append hone.2 rest

def rootNode (blocks : List (List DirRecord)) : Ext4Node :=
  ⟨0x4000, 0, .direct [4, 5, 0, 0, 0, 0, 0, 0, 0, 0, 0, 0], .dir blocks⟩

/-- The records, with zeros up to the end of the block. -/
def dirBlock (rs : List DirRecord) : List Byte := fit (rs.flatMap DirRecord.encode) 1024

def dirImage (blocks : List (List DirRecord)) : List Byte :=
  dirHead (rootNode blocks).size ++ (dirBlock (blocks.getD 0 []) ++ dirBlock (blocks.getD 1 []))

theorem length_dirBlock (rs : List DirRecord) : (dirBlock rs).length = 1024 := length_fit ..

theorem length_dirImage (blocks : List (List DirRecord)) : (dirImage blocks).length = 6144 := by
  rw [dirImage, List.length_append, List.length_append, length_dirHead, length_dirBlock, length_dirBlock]

theorem dirBlock_holds {rs : List DirRecord} (hle : (rs.flatMap DirRecord.encode).length ≤ 1024) {image : List Byte}
    {off : Nat} (rest : List Byte) (hdrop : image.drop off = dirBlock rs ++ rest) :
    Holds image off (rs.flatMap DirRecord.encode) := by
  rw [Holds, slice, hdrop, dirBlock, fit, List.take_of_length_le hle, List.append_assoc, List.take_left]

/-- A directory of one or two blocks that is laid out in them. -/
structure SmallDir (blocks : List (List DirRecord)) : Prop where
  length_le : blocks.length ≤ 2
  ok : ∀ rs ∈ blocks, ∀ r ∈ rs, r.Ok
  fills : DirRecord.Fills 1024 blocks
  size_mem : (rootNode blocks).size ∈ dirSizes

variable {blocks : List (List DirRecord)}

theorem SmallDir.laidOut (h : SmallDir blocks) : (rootNode blocks).LaidOut (dirImage blocks) 1024 128 3200 where
  inside := by rw [length_dirImage]; decide
  mode_lt := show 0x4000 < 2 ^ 16 by decide
  mode_at := show Holds _ 3200 (le 2 0x4000) from dirHead_holds h.size_mem _ (by simp [headFields])
  size_at := dirHead_holds h.size_mem _ (by simp [headFields])
  flags_lt := show 0 < 2 ^ 32 by decide
  flags_at := show Holds _ 3232 (le 4 0) from dirHead_holds h.size_mem _ (by simp [headFields])
  extents_flag := show Nat.testBit 0 19 = false by decide
  mapping_at := show Holds _ 3240 ([4, 5, 0, 0, 0, 0, 0, 0, 0, 0, 0, 0].flatMap (le 4)) from
    dirHead_holds h.size_mem _ (by simp [headFields])
  mapping_ok := by
    have hcount : ∀ size ∈ dirSizes, (size + 1024 - 1) / 1024 ≤ 12 := by decide
    rw [length_dirImage]
    exact ⟨by decide, hcount _ h.size_mem, by decide⟩
  kind_ok := by
    have hlen := h.length_le
    refine ⟨show 0x4000 / 4096 = 4 by decide, by omega, h.fills, fun i rs hi => ⟨?_, ?_⟩⟩
    · exact h.ok rs (List.mem_of_getElem? hi)
    · have hle := (h.fills.part rs (List.mem_of_getElem? hi)).2
      have hget : blocks.getD i [] = rs := by rw [List.getD_eq_getElem?_getD, hi, Option.getD_some]
      have hlt : i < blocks.length := (List.getElem?_eq_some_iff.mp hi).1
      match i, hget, hlt with
      | 0, hget, _ =>
        refine ⟨4, rfl, dirBlock_holds hle (dirBlock (blocks.getD 1 [])) ?_⟩
        rw [dirImage, hget, List.drop_left' (length_dirHead _)]
      | 1, hget, _ =>
        refine ⟨5, rfl, dirBlock_holds hle [] ?_⟩
        rw [dirImage, hget, ← List.append_assoc, List.drop_left', List.append_nil]
        rw [List.length_append, length_dirHead, length_dirBlock]
      | n + 2, _, hlt => omega

theorem SmallDir.image (h : SmallDir blocks) : ∃ I : Ext4Image, I.image = dirImage blocks ∧
    I.nodes 2 = some (rootNode blocks) := by
  have himage := length_dirImage blocks
  have hfield : ∀ {off bytes}, (off, bytes) ∈ headFields (rootNode blocks).size → Holds (dirImage blocks) off bytes :=
    fun hmem => dirHead_holds h.size_mem _ hmem
  let S : Ext4Super :=
    { image := dirImage blocks, media := ⟨true, true, 512, 11⟩, hasDio := false
      length_lt := by rw [himage]; decide
      blockSize_pos := by decide
      length_eq := himage
      logBlockSize := 0, firstDataBlock := 1, inodesPerGroup := 8, inodeSizeField := 0
      featureIncompat := 0, descSizeField := 0
      media_ok := rfl
      length_ge := by rw [himage]; decide
      logBlockSize_le := by decide
      firstDataBlock_lt := by decide
      inodesPerGroup_pos := by decide
      inodesPerGroup_lt := by decide
      inodeSizeField_lt := by decide
      featureIncompat_lt := by decide
      descSizeField_lt := by decide
      desc_ok := nofun
      firstDataBlock_at := hfield (by simp [headFields])
      logBlockSize_at := hfield (by simp [headFields])
      inodesPerGroup_at := hfield (by simp [headFields])
      magic_at := hfield (by simp [headFields])
      inodeSize_at := hfield (by simp [headFields])
      featureIncompat_at := hfield (by simp [headFields])
      descSize_at := hfield (by simp [headFields]) }
  have hipg : S.inodesPerGroup = 8 := rfl
  have hbs : S.blockSize = 1024 := rfl
  have hdsz : S.descSize = 32 := if_neg (show ¬ Nat.testBit 0 7 = true by decide)
  have hoff : S.descOff 0 = 2048 := by rw [Ext4Super.descOff, hbs, hdsz, show S.firstDataBlock = 1 from rfl]
  have hdesc : S.DescAt 0 3 := by
    refine ⟨?_, ?_, ?_⟩
    · rw [hoff, hdsz, show S.image.length = 6144 from himage]
      decide
    · rw [hoff]
      exact hfield (by simp [headFields])
    · rw [hdsz, if_neg (by decide)]
      decide
  have hisz : S.inodeSize = 128 := rfl
  have honly : ∀ ino node, (if ino = 2 then some (rootNode blocks) else none) = some node →
      ino = 2 ∧ rootNode blocks = node := by
    intro ino node hnode
    exact (Option.ite_none_right_eq_some.mp hnode).imp_right Option.some.inj
  refine ⟨⟨S, fun _ => 3, fun ino => if ino = 2 then some (rootNode blocks) else none, fun ino node hnode => ?_,
    fun ino node hnode => ?_⟩, rfl, rfl⟩
  · obtain ⟨rfl, rfl⟩ := honly ino node hnode
    rw [hipg]
    exact hdesc
  · obtain ⟨rfl, rfl⟩ := honly ino node hnode
    rw [hipg, hbs, hisz]
    exact ⟨Nat.two_pos, h.laidOut⟩

/-- A file with a name of 255 bytes. -/
def longRecord : DirRecord := ⟨3, List.replicate 255 97, 1, List.replicate 761 0⟩

theorem longRecord_dir : SmallDir [[longRecord]] := by
  have hlen : ([longRecord].flatMap DirRecord.encode).length = 1024 := by decide +kernel
  refine ⟨by decide, fun rs hrs r hr => ?_, ⟨fun i rs _ hi => absurd hi (by simp), fun rs hrs => ?_⟩, by decide +kernel⟩
  · rw [List.mem_singleton.mp hrs] at hr
    rw [List.mem_singleton.mp hr]
    exact ⟨by decide, by decide +kernel, by decide +kernel⟩
  · rw [List.mem_singleton.mp hrs, hlen]
    decide

theorem longRecord_named : DirRecord.Named [longRecord] := by
  refine ⟨fun r hr _ => ?_, fun r hr _ c hc => ?_, List.pairwise_singleton _ _⟩
  · rw [List.mem_singleton.mp hr]
    exact List.cons_ne_nil _ _
  · rw [List.mem_singleton.mp hr] at hc
    rw [List.eq_of_mem_replicate hc]
    decide

/-- The file with the long name should be listed and is not. -/
theorem ext4Readdir_longName : ∃ (I : Ext4Image) (pool : AmplePool) (v : Ext4Vol),
    I.nodes ext4RootIno = some (rootNode [[longRecord]]) ∧ DirRecord.Named [longRecord] ∧
      I.mount pool.toPool = some v ∧
      DirRecord.listing [longRecord] = [⟨List.replicate 255 97, false⟩] ∧ ext4Readdir pool.toPool v [47, 0] = [] := by
  obtain ⟨I, -, hnode⟩ := longRecord_dir.image
  obtain ⟨v, hmount, hv⟩ := I.mount_image ⟨zeroPool, fun _ => rfl⟩
  have hroot : I.Leads ext4RootIno (pathComponents [47, 0]) 2 := Ext4Image.Leads.here 2
  have hlisted : longRecord.listed = true := by decide
  have hreported : longRecord.reported = [] := if_neg (by decide +kernel)
  refine ⟨I, _, v, hnode, longRecord_named, hmount, ?_, ?_⟩
  · rw [DirRecord.listing, List.filter_cons_of_pos hlisted]
    rfl
  · rw [Ext4Image.ext4Readdir_image hv hroot hnode rfl]
    show List.flatMap DirRecord.reported [longRecord] = []
    rw [List.flatMap_singleton, hreported]

/-- The directory itself and its parent, a deleted file, a file and a symbolic link; a directory and a record that is not
in use end the last block. -/
def mixedBlocks : List (List DirRecord) :=
  [[⟨2, [46], 2, List.replicate 3 0⟩, ⟨2, [46, 46], 2, List.replicate 2 0⟩, ⟨0, [120], 1, List.replicate 3 0⟩,
      ⟨3, [107], 1, List.replicate 3 0⟩, ⟨4, [108], 7, List.replicate 967 0⟩],
    [⟨5, [98], 2, List.replicate 3 0⟩, ⟨0, [], 0, List.replicate 4 0⟩]]

theorem mixedBlocks_dir : SmallDir mixedBlocks := by
  have hok : ∀ rs ∈ mixedBlocks, ∀ r ∈ rs, r.ino < 2 ^ 32 ∧ r.name.length < 256 ∧ r.recLen < 2 ^ 16 := by decide +kernel
  have hlens : mixedBlocks.map (fun rs : List DirRecord => (rs.flatMap DirRecord.encode).length) =
    [1024, 24] := by decide +kernel
  have hlen : ∀ (i : Nat) (rs : List DirRecord),
    mixedBlocks[i]? = some rs → [1024, 24][i]? = some (rs.flatMap DirRecord.encode).length := by
    intro i rs hi
    rw [← hlens, List.getElem?_map, hi, Option.map_some]
  refine ⟨by decide, fun rs hrs r hr => ?_, ⟨fun i rs hi hnext => ?_, fun rs hrs => ?_⟩, ?_⟩
  · obtain ⟨hino, hname, hrec⟩ := hok rs hrs r hr
    exact ⟨hino, hname, hrec⟩
  · obtain rfl : i = 0 := Nat.lt_one_iff.mp (Nat.lt_of_succ_lt_succ hnext)
    exact (Option.some.inj (hlen 0 rs hi)).symm
  · obtain ⟨i, hi⟩ := List.mem_iff_getElem?.mp hrs
    have hsizes : ∀ n ∈ [1024, 24], 0 < n ∧ n ≤ 1024 := by decide
    exact hsizes _ (List.mem_of_getElem? (hlen i rs hi))
  · show (mixedBlocks.map _).sum ∈ dirSizes
    rw [hlens]
    decide

theorem mixedBlocks_named : DirRecord.Named mixedBlocks.flatten := by
  have hchars : (mixedBlocks.flatten.all fun r => r.name.all fun c => c != 47 && c != 0) = true := by decide
  refine ⟨by decide, fun r hr _ c hc => ?_, by decide⟩
  have hone := List.all_eq_true.mp (List.all_eq_true.mp hchars r hr) c hc
  simpa using hone

/-- The file and the directory are listed, in this order. -/
theorem ext4Readdir_mixed : ∃ (I : Ext4Image) (pool : AmplePool) (v : Ext4Vol),
    I.nodes ext4RootIno = some (rootNode mixedBlocks) ∧ I.mount pool.toPool = some v ∧
      ext4Readdir pool.toPool v [47, 0] = [⟨[107], false⟩, ⟨[98], true⟩] := by
  obtain ⟨I, -, hnode⟩ := mixedBlocks_dir.image
  have hroot : I.Leads ext4RootIno (pathComponents [47, 0]) 2 := Ext4Image.Leads.here 2
  obtain ⟨v, hmount, -, hiff⟩ :=
    Ext4Image.ext4Readdir_iff I ⟨zeroPool, fun _ => rfl⟩ hroot hnode rfl mixedBlocks_named
  have hlist : DirRecord.listing mixedBlocks.flatten = [⟨[107], false⟩, ⟨[98], true⟩] := by decide
  have hshort : ∀ r ∈ mixedBlocks.flatten, r.listed = true → r.name.length ≠ 255 := by decide
  exact ⟨I, _, v, hnode, hmount, (hiff.mpr hshort).trans hlist⟩

end SakuruBoot

import SakuruBoot.Bios.FatText

/-!
# Names and paths on a FAT32 volume

`FatTree` is a volume whose directories are well-formed. `find_in_dir`, `fat_readdir` and `fat_open` agree with the names
on it (`NamesRight`) exactly under `NamesClear`: no text that a lookup compares is mistaken, every listed name leads back
to its entry, and the path has no empty component.
-/

namespace SakuruBoot.Fat
open CStr Bytes

/-! ## Directories and their tree -/

/-- The entries of all clusters of the directory are those of the items, up to its end mark. -/
structure IsDirectory (vol : FatVol) (cluster : Nat) (items : List DirItem) : Prop where
  ok : ∀ i ∈ items, i.Ok
  distinct : Distinct items
  stored : ∃ tail : List DirEntry, (∀ e ∈ tail.head?, e.first = 0) ∧
    ∀ n, vol.clusterLimit ≤ n → vol.dirEntries n cluster = items.flatMap DirItem.entries ++ tail

/-- The directories of a volume by their first clusters. -/
structure FatTree (vol : FatVol) where
  dir : Nat → Option (List DirItem)
  stored : ∀ {c items}, dir c = some items → IsDirectory vol c items
  root : (dir vol.rootCluster).isSome
  sub : ∀ {c items i e}, dir c = some items → i ∈ items → i.live = some e → e.isDir = true → (dir e.firstCluster).isSome

variable {vol : FatVol}

theorem IsDirectory.findInDir {c : Nat} {items : List DirItem} (h : IsDirectory vol c items) {target : List Byte}
    (htarget : ∀ c ∈ target, c ≠ 0) (junk : List Byte) (b : Bufs) :
    (vol.findInDir c target junk b).1 = found target junk items := by
  obtain ⟨tail, htail, hstored⟩ := h.stored
  rw [FatVol.findInDir_fst, FatVol.directory, hstored _ (Nat.le_refl _), findEntries_items h.ok htarget htail]

/-- The names `fat_readdir` hands to its callback for a directory, with the entries they stand for. -/
def FatVol.listing (vol : FatVol) (cluster : Nat) (lfnJunk : List Byte) : List (List Byte × DirEntry) :=
  listNamed (vol.directory cluster) { buf := lfnJunk, len := false }

theorem IsDirectory.listing {c : Nat} {items : List DirItem} (h : IsDirectory vol c items) (lfnJunk : List Byte) :
    vol.listing c lfnJunk = listed lfnJunk items := by
  obtain ⟨tail, htail, hstored⟩ := h.stored
  rw [FatVol.listing, FatVol.directory, hstored _ (Nat.le_refl _), listNamed_items h.ok htail]

/-- A path without the slash in front. -/
def stripSlash (path : List Byte) : List Byte := if deref path == 47 then path.tail else path

/-- The callbacks of `fat_readdir` are those of the listing. -/
theorem fatReaddir_calls {σ : Type} (cb : List Byte → Bool → σ → σ) {junk : Nat → List Byte} {path : List Byte}
    {st : Bufs × σ} {c : Nat}
    (hwalk : (walkDir vol junk (stripSlash path).length vol.rootCluster (stripSlash path) st.1).1 = some c)
    (lfnJunk : List Byte) :
    (fatReaddir vol (plainCb cb) junk lfnJunk path st).2.2 =
      calls cb ((vol.listing c lfnJunk).map fun p => (p.1, p.2.isDir)) st.2 := by
  rw [stripSlash] at hwalk
  rw [fatReaddir]
  rcases hw : walkDir vol junk _ vol.rootCluster (if deref path == 47 then path.tail else path) st.1 with ⟨found, b⟩
  rw [hw] at hwalk
  dsimp only at hwalk
  subst hwalk
  dsimp only
  rw [listClusters_snd, listAll_snd]
  rfl

namespace FatTree

variable (T : FatTree vol)

/-- The entry of the first item of a directory that bears a name. -/
def find (cluster : Nat) (name : List Byte) : Option DirEntry := lookup name ((T.dir cluster).getD [])

/-- The directory a path leads to, over its components; empty ones are passed over. -/
def walk : Nat → Nat → List Byte → Option Nat
  | 0, cluster, _ => some cluster
  | n + 1, cluster, p =>
    if p = [] then some cluster
    else
      let (component, p) := FatVol.nextComponent p
      if component = [] then walk n cluster p
      else
        match T.find cluster component with
        | none => none
        | some e => if e.isDir then walk n e.firstCluster p else none

/-- No lookup on the way is mistaken, whichever member of `J` the stack holds. -/
def ClearWalk (J : Set (List Byte)) : Nat → Nat → List Byte → Prop
  | 0, _, _ => True
  | n + 1, cluster, p =>
    p ≠ [] →
      let (component, p) := FatVol.nextComponent p
      if component = [] then ClearWalk J n cluster p
      else
        (∀ items, T.dir cluster = some items → ∀ junk ∈ J, Clear component junk items) ∧
          ∀ e, T.find cluster component = some e → e.isDir = true → ClearWalk J n e.firstCluster p

/-- The entry a path leads to; a path with an empty component leads nowhere. -/
def openWalk : Nat → Nat → List Byte → Option DirEntry
  | 0, _, _ => none
  | n + 1, cluster, p =>
    if p = [] then none
    else
      let (component, p) := FatVol.nextComponent p
      if component = [] then none
      else
        match T.find cluster component with
        | none => none
        | some e => if p = [] then some e else if e.isDir then openWalk n e.firstCluster p else none

/-- The first cluster of the directory at a path. -/
def cluster (path : List Byte) : Option Nat := T.walk (stripSlash path).length vol.rootCluster (stripSlash path)

/-- The lookups of `fat_readdir` for a path are clear. -/
def ClearPath (J : Set (List Byte)) (path : List Byte) : Prop :=
  T.ClearWalk J (stripSlash path).length vol.rootCluster (stripSlash path)

/-- The entry at a path. -/
def leads (path : List Byte) : Option DirEntry := T.openWalk (stripSlash path).length vol.rootCluster (stripSlash path)

end FatTree

/-- The path has no empty component, other than behind a slash at its end. -/
def properPath : Nat → List Byte → Bool
  | 0, _ => true
  | n + 1, p =>
    if p = [] then true
    else
      let (component, p) := FatVol.nextComponent p
      !component.isEmpty && properPath n p

/-! ## Components -/

section Components

variable {p : List Byte}

theorem deref_beq_zero (hp : ∀ c ∈ p, c ≠ 0) : (deref p == 0) = true ↔ p = [] := by
  cases p with
  | nil => exact iff_of_true rfl rfl
  | cons c p =>
    rw [beq_iff_eq]
    exact iff_of_false (hp c List.mem_cons_self) (List.cons_ne_nil c p)

theorem no_nul_component (p : List Byte) : ∀ c ∈ (FatVol.nextComponent p).1, c ≠ 0 := fun _ hc =>
  (mem_takeC (List.mem_of_mem_take hc)).1

theorem rest_suffix (p : List Byte) : (FatVol.nextComponent p).2 <:+ p := by
  rw [FatVol.nextComponent]
  dsimp only
  split
  · exact (List.tail_suffix _).trans (List.drop_suffix _ _)
  · exact List.drop_suffix _ _

theorem no_nul_rest (hp : ∀ c ∈ p, c ≠ 0) : ∀ c ∈ (FatVol.nextComponent p).2, c ≠ 0 := fun c hc =>
  hp c ((rest_suffix p).subset hc)

theorem length_rest_lt (hp : ∀ c ∈ p, c ≠ 0) (hne : p ≠ []) : (FatVol.nextComponent p).2.length < p.length := by
  have hpos := List.length_pos_iff.mpr hne
  rw [FatVol.nextComponent]
  dsimp only
  by_cases hc : (takeC (· != 47) p).take 255 = []
  · obtain ⟨c, q, rfl⟩ := List.exists_cons_of_ne_nil hne
    have hslash : c = 47 := by
      by_contra hns
      rw [takeC, List.takeWhile_cons_of_pos (by simp [hp c List.mem_cons_self, hns])] at hc
      cases hc
    rw [hc, hslash]
    exact Nat.lt_succ_self _
  · have hcpos := List.length_pos_iff.mpr hc
    split
    · rw [List.length_tail, List.length_drop]
      omega
    · rw [List.length_drop]
      omega

end Components

/-! ## Walks over the tree -/

theorem lookup_nil {items : List DirItem} (hok : ∀ i ∈ items, i.Ok) : lookup [] items = none := by
  rw [← Option.not_isSome_iff_eq_none, Option.isSome_iff_exists]
  rintro ⟨e, he⟩
  obtain ⟨i, hi, hlive, hnamed⟩ := mem_live_of_lookup he
  have hi := hok i hi
  have hshort {e : DirEntry} (h : LiveEntry e) : ¬ SameName (byteUnits e.shortName) [] := by
    intro hs
    rw [SameName, List.map_nil, List.map_eq_nil_iff, byteUnits, List.map_eq_nil_iff] at hs
    exact h.name_ne hs
  cases i with
  | deleted d => exact hnamed
  | label d => exact hnamed
  | file d => exact hshort hi hnamed
  | long name frag d =>
    obtain ⟨hne, -, -, -, hd, -⟩ := hi
    rcases hnamed with hl | hs
    · rw [SameName, List.map_nil, List.map_eq_nil_iff, List.map_eq_nil_iff] at hl
      exact hne hl
    · exact hshort hd hs

namespace FatTree

variable {T : FatTree vol}

theorem find_eq {c : Nat} {items : List DirItem} (h : T.dir c = some items) (name : List Byte) :
    T.find c name = lookup name items := by
  rw [find, h, Option.getD_some]

theorem find_nil (c : Nat) : T.find c [] = none := by
  cases h : T.dir c with
  | none =>
    rw [find, h]
    rfl
  | some items =>
    rw [find_eq h]
    exact lookup_nil (T.stored h).ok

theorem dir_of_find {c : Nat} {name : List Byte} {e : DirEntry} (h : T.find c name = some e) (hdir : e.isDir = true) :
    (T.dir e.firstCluster).isSome := by
  cases hc : T.dir c with
  | none =>
    rw [find, hc] at h
    cases h
  | some items =>
    rw [find_eq hc] at h
    obtain ⟨i, hi, hlive, -⟩ := mem_live_of_lookup h
    exact T.sub hc hi hlive hdir

theorem dir_of_walk {n c c' : Nat} {p : List Byte} (hc : (T.dir c).isSome) (h : T.walk n c p = some c') :
    (T.dir c').isSome := by
  induction n generalizing c p with
  | zero =>
    obtain rfl := Option.some.inj h
    exact hc
  | succ n ih =>
    rw [walk] at h
    split at h
    · obtain rfl := Option.some.inj h
      exact hc
    · dsimp only at h
      split at h
      · exact ih hc h
      · cases hf : T.find c (FatVol.nextComponent p).1 with
        | none =>
          rw [hf] at h
          cases h
        | some e =>
          rw [hf] at h
          dsimp only at h
          split at h
          · rename_i hdir
            exact ih (dir_of_find hf hdir) h
          · cases h

/-- Whether a path leads to a directory does not depend on the walk that is made, unless it has an empty component. -/
theorem openWalk_iff {n c : Nat} {p : List Byte} (hp : ∀ c ∈ p, c ≠ 0) (hne : p ≠ []) (hn : p.length ≤ n)
    (hproper : properPath n p = true) :
    (∃ e, T.openWalk n c p = some e ∧ e.isDir = true) ↔ (T.walk n c p).isSome := by
  induction n generalizing c p with
  | zero => exact absurd (List.eq_nil_of_length_eq_zero (Nat.le_zero.mp hn)) hne
  | succ n ih =>
    have hrest := no_nul_rest hp
    have hlt := length_rest_lt hp hne
    rw [properPath, if_neg hne, Bool.and_eq_true, Bool.not_eq_true', List.isEmpty_eq_false_iff] at hproper
    rw [openWalk, if_neg hne, walk, if_neg hne]
    dsimp only
    rw [if_neg hproper.1, if_neg hproper.1]
    cases T.find c (FatVol.nextComponent p).1 with
    | none => simp
    | some e =>
      dsimp only
      by_cases hend : (FatVol.nextComponent p).2 = []
      · have hdone : T.walk n e.firstCluster [] = some e.firstCluster := by cases n <;> rfl
        rw [hend, if_pos rfl, hdone]
        by_cases hdir : e.isDir = true
        · simp [hdir]
        · simp [hdir]
      · rw [if_neg hend]
        by_cases hdir : e.isDir = true
        · rw [if_pos hdir, if_pos hdir]
          exact ih hrest hend (by omega) hproper.2
        · rw [if_neg hdir, if_neg hdir]
          simp

theorem openWalk_of_not_proper {n c : Nat} {p : List Byte} (hproper : properPath n p = false) :
    T.openWalk n c p = none := by
  induction n generalizing c p with
  | zero => cases hproper
  | succ n ih =>
    rw [properPath] at hproper
    by_cases hp : p = []
    · rw [if_pos hp] at hproper
      cases hproper
    · rw [if_neg hp] at hproper
      rw [openWalk, if_neg hp]
      dsimp only at hproper ⊢
      by_cases hc : (FatVol.nextComponent p).1 = []
      · rw [if_pos hc]
      · rw [if_neg hc]
        rw [← List.isEmpty_iff, Bool.not_eq_true] at hc
        rw [hc, Bool.not_false, Bool.true_and] at hproper
        cases T.find c (FatVol.nextComponent p).1 with
        | none => rfl
        | some e =>
          dsimp only
          by_cases hend : (FatVol.nextComponent p).2 = []
          · rw [hend] at hproper
            cases n <;> cases hproper
          · rw [if_neg hend]
            split_ifs
            · exact ih hproper
            · rfl

end FatTree

/-! ## A name behind a path -/

section Join

variable {q text : List Byte}

theorem takeC_join (q text : List Byte) : takeC (· != 47) (q ++ 47 :: text) = takeC (· != 47) q := by
  rw [takeC, takeC, List.takeWhile_append]
  split_ifs with h
  · rw [List.takeWhile_cons_of_neg (by decide), List.append_nil, (List.takeWhile_prefix _).eq_of_length h]
  · rfl

theorem nextComponent_join (q text : List Byte) :
    (FatVol.nextComponent (q ++ 47 :: text)).1 = (FatVol.nextComponent q).1 := by
  rw [FatVol.nextComponent, FatVol.nextComponent, takeC_join]

theorem rest_join (hlast : q.getLast? ≠ some 47) : (FatVol.nextComponent (q ++ 47 :: text)).2 =
    if (FatVol.nextComponent q).2 = [] then text else (FatVol.nextComponent q).2 ++ 47 :: text := by
  have hle : ((takeC (· != 47) q).take 255).length ≤ q.length :=
    (List.length_take_le' _ _).trans (List.takeWhile_sublist _).length_le
  rw [FatVol.nextComponent, FatVol.nextComponent, takeC_join]
  dsimp only
  rw [List.drop_append_of_le_length hle]
  generalize hk : ((takeC (· != 47) q).take 255).length = k at hle
  cases hrest : q.drop k with
  | nil => rfl
  | cons x r =>
    have hsplit := List.take_append_drop k q
    rw [hrest] at hsplit
    show (if (x == 47) = true then r ++ 47 :: text else x :: (r ++ 47 :: text)) =
      if (if (x == 47) = true then r else x :: r) = [] then text else (if (x == 47) = true then r else x :: r) ++ 47 :: text
    by_cases hx : (x == 47) = true
    · rw [if_pos hx, if_pos hx, if_neg]
      rintro rfl
      rw [beq_iff_eq] at hx
      rw [← hsplit, hx] at hlast
      simp at hlast
    · rw [if_neg hx, if_neg hx, if_neg (List.cons_ne_nil x r), List.cons_append]

theorem rest_join_trailing (hlast : q.getLast? = some 47) :
    (FatVol.nextComponent (q ++ 47 :: text)).2 = (FatVol.nextComponent q).2 ++ 47 :: text := by
  have hmem : (47 : Byte) ∈ q := List.mem_of_getLast? hlast
  have hlt : ((takeC (· != 47) q).take 255).length < q.length := by
    refine (List.length_take_le' _ _).trans_lt (lt_of_le_of_ne (List.takeWhile_sublist _).length_le fun h => ?_)
    have hall := List.takeWhile_eq_self_iff.mp ((List.takeWhile_prefix _).eq_of_length h) 47 hmem
    simp at hall
  rw [FatVol.nextComponent, FatVol.nextComponent, takeC_join]
  dsimp only
  rw [List.drop_append_of_le_length hlt.le]
  generalize ((takeC (· != 47) q).take 255).length = k at hlt
  obtain ⟨x, r, hrest⟩ := List.exists_cons_of_length_pos (show 0 < (q.drop k).length by rw [List.length_drop]; omega)
  rw [hrest]
  show (if (x == 47) = true then r ++ 47 :: text else x :: (r ++ 47 :: text)) =
    (if (x == 47) = true then r else x :: r) ++ 47 :: text
  split_ifs
  · rfl
  · rfl

theorem getLast?_rest (h : (FatVol.nextComponent q).2 ≠ []) : (FatVol.nextComponent q).2.getLast? = q.getLast? := by
  obtain ⟨front, hfront⟩ := rest_suffix q
  conv_rhs => rw [← hfront]
  exact (List.getLast?_append_of_ne_nil front h).symm

theorem properPath_trailing {n : Nat} (hq : ∀ c ∈ q, c ≠ 0) (hlast : q.getLast? = some 47) (hn : q.length < n) :
    properPath n (q ++ 47 :: text) = false := by
  induction n generalizing q with
  | zero => cases hn
  | succ n ih =>
    have hne : q ≠ [] := by
      rintro rfl
      cases hlast
    have hlt := length_rest_lt hq hne
    rw [properPath, if_neg (List.append_ne_nil_of_left_ne_nil hne _)]
    dsimp only
    rw [rest_join_trailing hlast, Bool.and_eq_false_iff]
    right
    by_cases hrest : (FatVol.nextComponent q).2 = []
    · rw [hrest, List.nil_append]
      cases n with
      | zero => omega
      | succ n => rfl
    · exact ih (no_nul_rest hq) ((getLast?_rest hrest).trans hlast) (by omega)

end Join

namespace FatTree

variable {T : FatTree vol}

theorem openWalk_fuel {n c : Nat} {p : List Byte} (hp : ∀ c ∈ p, c ≠ 0) (hn : p.length ≤ n) :
    T.openWalk n c p = T.openWalk p.length c p := by
  suffices h : ∀ m, p.length ≤ m → T.openWalk n c p = T.openWalk m c p from h _ (le_refl _)
  induction n generalizing c p with
  | zero =>
    obtain rfl := List.eq_nil_of_length_eq_zero (Nat.le_zero.mp hn)
    intro m _
    cases m with
    | zero => rfl
    | succ m => rfl
  | succ n ih =>
    intro m hm
    by_cases hne : p = []
    · subst hne
      cases m with
      | zero => rfl
      | succ m => rfl
    · have hlt := length_rest_lt hp hne
      obtain ⟨m, rfl⟩ : ∃ k, m = k + 1 := ⟨m - 1, by omega⟩
      have hrest (e : DirEntry) : T.openWalk n e.firstCluster (FatVol.nextComponent p).2 =
          T.openWalk m e.firstCluster (FatVol.nextComponent p).2 := ih (no_nul_rest hp) (by omega) m (by omega)
      rw [openWalk, openWalk]
      simp only [hrest]

theorem openWalk_join {n m c d : Nat} {q text : List Byte} (hq : ∀ c ∈ q, c ≠ 0) (htext : ∀ c ∈ text, c ≠ 0) (hne : q ≠ [])
    (hlast : q.getLast? ≠ some 47) (hproper : properPath n q = true) (hn : q.length ≤ n)
    (hm : q.length + text.length < m) (hwalk : T.walk n c q = some d) :
    T.openWalk m c (q ++ 47 :: text) = if text = [] then T.openWalk n c q else T.openWalk text.length d text := by
  induction n generalizing m c q with
  | zero => exact absurd (List.eq_nil_of_length_eq_zero (Nat.le_zero.mp hn)) hne
  | succ n ih =>
    have hlt := length_rest_lt hq hne
    obtain ⟨m, rfl⟩ : ∃ k, m = k + 1 := ⟨m - 1, by omega⟩
    rw [properPath, if_neg hne, Bool.and_eq_true, Bool.not_eq_true', List.isEmpty_eq_false_iff] at hproper
    rw [walk, if_neg hne] at hwalk
    dsimp only at hwalk
    rw [if_neg hproper.1] at hwalk
    rw [openWalk, openWalk, if_neg hne, if_neg (List.append_ne_nil_of_left_ne_nil hne _)]
    dsimp only
    rw [nextComponent_join, rest_join hlast, if_neg hproper.1, if_neg hproper.1]
    cases hf : T.find c (FatVol.nextComponent q).1 with
    | none =>
      rw [hf] at hwalk
      cases hwalk
    | some e =>
      rw [hf] at hwalk
      dsimp only at hwalk ⊢
      by_cases hdir : e.isDir = true
      · rw [if_pos hdir] at hwalk
        by_cases hend : (FatVol.nextComponent q).2 = []
        · have hd : e.firstCluster = d := by
            rw [hend] at hwalk
            cases n <;> exact Option.some.inj hwalk
          rw [if_pos hend, if_pos hend, if_pos hdir, hd]
          split_ifs
          · rfl
          · exact openWalk_fuel htext (by omega)
        · rw [if_neg hend, if_neg hend, if_pos hdir, if_pos hdir,
            if_neg (List.append_ne_nil_of_left_ne_nil hend _)]
          exact ih (no_nul_rest hq) hend (by rwa [getLast?_rest hend]) hproper.2 (by omega) (by omega) hwalk
      · rw [if_neg hdir] at hwalk
        cases hwalk

theorem openWalk_component {c : Nat} {text : List Byte} (htext : ∀ c ∈ text, c ≠ 0) (hne : text ≠ []) (hslash : 47 ∉ text)
    (hlen : text.length ≤ 255) : T.openWalk text.length c text = T.find c text := by
  have hall : takeC (· != 47) text = text := by
    rw [takeC, List.takeWhile_eq_self_iff]
    intro x hx
    have hx47 : x ≠ 47 := fun h => hslash (h ▸ hx)
    simp [htext x hx, hx47]
  have hnext : FatVol.nextComponent text = (text, []) := by
    rw [FatVol.nextComponent, hall, List.take_of_length_le hlen, List.drop_length]
    rfl
  obtain ⟨n, hn⟩ : ∃ n, text.length = n + 1 := ⟨text.length - 1, by
    have := List.length_pos_iff.mpr hne
    omega⟩
  rw [hn, openWalk, if_neg hne, hnext]
  dsimp only
  rw [if_neg hne]
  cases T.find c text with
  | none => rfl
  | some e => exact if_pos rfl

end FatTree


/-! ## The driver's walks -/

/-- Whatever the stack holds, every lookup finds the first item that bears the name. -/
def FindsRight (T : FatTree vol) (J : Set (List Byte)) : Prop :=
  ∀ c items, T.dir c = some items → ∀ target : List Byte, (∀ c ∈ target, c ≠ 0) → ∀ junk ∈ J, ∀ b,
    (vol.findInDir c target junk b).1 = lookup target items

section Walks

variable {T : FatTree vol} {J : Set (List Byte)} {junk : Nat → List Byte}

theorem findsRight_iff : FindsRight T J ↔
    ∀ c items, T.dir c = some items → ∀ target : List Byte, (∀ c ∈ target, c ≠ 0) → ∀ junk ∈ J,
      Clear target junk items := by
  have hiff {c : Nat} {items : List DirItem} (hc : T.dir c = some items) {target : List Byte}
      (htarget : ∀ c ∈ target, c ≠ 0) (junk : List Byte) (b : Bufs) :
      (vol.findInDir c target junk b).1 = lookup target items ↔ Clear target junk items := by
    have hdir := T.stored hc
    rw [hdir.findInDir htarget, found_eq_lookup_iff hdir.ok hdir.distinct]
  constructor
  · intro h c items hc target htarget junk hjunk
    exact (hiff hc htarget junk ⟨[], [], [], []⟩).mp (h c items hc target htarget junk hjunk _)
  · intro h c items hc target htarget junk hjunk b
    exact (hiff hc htarget junk b).mpr (h c items hc target htarget junk hjunk)

theorem findsRight_iff_unmistaken (hbuf : ∀ junk ∈ J, junk.length = 256) : FindsRight T J ↔
    ∀ c items, T.dir c = some items → ∀ junk ∈ J, ∀ before i after, items = before ++ i :: after →
      i.Unmistaken junk before := by
  rw [findsRight_iff]
  refine forall₃_congr fun c items hc => ?_
  have hclear {junk : List Byte} (hjunk : junk ∈ J) :=
    clear_iff (T.stored hc).ok (show 255 ≤ junk.length by rw [hbuf junk hjunk]; omega)
  constructor
  · exact fun h junk hjunk => (hclear hjunk).mp fun target htarget => h target htarget junk hjunk
  · exact fun h target htarget junk hjunk => (hclear hjunk).mpr (h junk hjunk) target htarget

theorem FindsRight.clearWalk (h : FindsRight T J) (n c : Nat) {p : List Byte} (hp : ∀ c ∈ p, c ≠ 0) :
    T.ClearWalk J n c p := by
  induction n generalizing c p with
  | zero => trivial
  | succ n ih =>
    intro hne
    dsimp only
    split_ifs with hcomp
    · exact ih c (no_nul_rest hp)
    · refine ⟨fun items hc junk hjunk => ?_, fun e _ _ => ih _ (no_nul_rest hp)⟩
      exact findsRight_iff.mp h c items hc _ (no_nul_component p) junk hjunk

theorem findInDir_clear {c : Nat} (hc : (T.dir c).isSome) {name junk : List Byte} (hname : ∀ c ∈ name, c ≠ 0)
    (h : ∀ items, T.dir c = some items → Clear name junk items) (b : Bufs) :
    (vol.findInDir c name junk b).1 = T.find c name := by
  obtain ⟨items, hitems⟩ := Option.isSome_iff_exists.mp hc
  have hdir := T.stored hitems
  rw [hdir.findInDir hname, FatTree.find_eq hitems, found_eq_lookup_iff hdir.ok hdir.distinct]
  exact h items hitems

theorem walkDir_clear (hjunk : ∀ i, junk i ∈ J) {n c : Nat} {p : List Byte} (h : T.ClearWalk J n c p)
    (hp : ∀ c ∈ p, c ≠ 0) (hc : (T.dir c).isSome) (b : Bufs) : (walkDir vol junk n c p b).1 = T.walk n c p := by
  induction n generalizing c p b with
  | zero => rfl
  | succ n ih =>
    rw [walkDir, FatTree.walk]
    simp only [deref_beq_zero hp]
    by_cases hne : p = []
    · rw [if_pos hne, if_pos hne]
    · rw [if_neg hne, if_neg hne]
      have h := h hne
      dsimp only at h
      simp only [List.isEmpty_iff]
      by_cases hcomp : (FatVol.nextComponent p).1 = []
      · rw [if_pos hcomp] at h
        rw [if_pos hcomp, if_pos hcomp]
        exact ih h (no_nul_rest hp) hc b
      · rw [if_neg hcomp] at h
        rw [if_neg hcomp, if_neg hcomp]
        have hfind := findInDir_clear hc (no_nul_component p) (fun items hi => h.1 items hi _ (hjunk n)) b
        generalize vol.findInDir c (FatVol.nextComponent p).1 (junk n) b = r at hfind
        obtain ⟨r, b'⟩ := r
        obtain rfl : r = _ := hfind
        cases hf : T.find c (FatVol.nextComponent p).1 with
        | none => rfl
        | some e =>
          dsimp only
          by_cases hdir : e.isDir = true
          · rw [if_pos hdir, if_pos hdir]
            exact ih (h.2 e hf hdir) (no_nul_rest hp) (FatTree.dir_of_find hf hdir) b'
          · rw [if_neg hdir, if_neg hdir]

theorem walkDir_tree (h : FindsRight T J) (hjunk : ∀ i, junk i ∈ J) {n c : Nat} {p : List Byte} (hp : ∀ c ∈ p, c ≠ 0)
    (hc : (T.dir c).isSome) (b : Bufs) : (walkDir vol junk n c p b).1 = T.walk n c p :=
  walkDir_clear hjunk (h.clearWalk n c hp) hp hc b

theorem walk_tree (h : FindsRight T J) (hjunk : ∀ i, junk i ∈ J) {n c : Nat} {p : List Byte} (hp : ∀ c ∈ p, c ≠ 0)
    (hc : (T.dir c).isSome) (b : Bufs) : (vol.walk junk n c p b).1 = T.openWalk n c p := by
  induction n generalizing c p b with
  | zero => rfl
  | succ n ih =>
    rw [FatVol.walk, FatTree.openWalk]
    simp only [deref_beq_zero hp, deref_beq_zero (no_nul_rest hp)]
    by_cases hne : p = []
    · rw [if_pos hne, if_pos hne]
    · rw [if_neg hne, if_neg hne]
      have hclear := fun items hi => findsRight_iff.mp h c items hi _ (no_nul_component p) _ (hjunk n)
      have hfind := findInDir_clear hc (no_nul_component p) hclear b
      generalize vol.findInDir c (FatVol.nextComponent p).1 (junk n) b = r at hfind
      obtain ⟨r, b'⟩ := r
      obtain rfl : r = _ := hfind
      by_cases hcomp : (FatVol.nextComponent p).1 = []
      · rw [if_pos hcomp, hcomp, FatTree.find_nil]
      · rw [if_neg hcomp]
        cases hf : T.find c (FatVol.nextComponent p).1 with
        | none => rfl
        | some e =>
          dsimp only
          by_cases hend : (FatVol.nextComponent p).2 = []
          · rw [if_pos hend, if_pos hend]
          · rw [if_neg hend, if_neg hend]
            by_cases hdir : e.isDir = true
            · rw [if_pos hdir, if_pos hdir]
              exact ih (no_nul_rest hp) (FatTree.dir_of_find hf hdir) b'
            · rw [if_neg hdir, if_neg hdir]

theorem no_nul_stripSlash {path : List Byte} (hpath : ∀ c ∈ path, c ≠ 0) : ∀ c ∈ stripSlash path, c ≠ 0 := by
  intro c hc
  rw [stripSlash] at hc
  split at hc
  · exact hpath c (List.mem_of_mem_tail hc)
  · exact hpath c hc

theorem lookupPath_tree (h : FindsRight T J) (hjunk : ∀ i, junk i ∈ J) {path : List Byte} (hpath : ∀ c ∈ path, c ≠ 0)
    (b : Bufs) : (vol.lookupPath junk path b).1 = T.leads path :=
  walk_tree h hjunk (no_nul_stripSlash hpath) T.root b

theorem fatReaddir_fst {σ : Type} (cb : List Byte → Bool → Bufs × σ → Bufs × σ) (junk : Nat → List Byte)
    (lfnJunk path : List Byte) (st : Bufs × σ) :
    (fatReaddir vol cb junk lfnJunk path st).1 =
      (walkDir vol junk (stripSlash path).length vol.rootCluster (stripSlash path) st.1).1.isSome := by
  rw [fatReaddir, stripSlash]
  rcases walkDir vol junk _ vol.rootCluster _ st.1 with ⟨_ | c, b⟩
  · rfl
  · rfl

end Walks

/-! ## When names and paths are right -/

section Names

variable (T : FatTree vol) (J : Set (List Byte)) (dir : List Byte)

/-- Lookups are right, the names that `fat_readdir` passes to its callback for the directory are those of its listing and
lead `fat_open` to their entries, and `fat_readdir` takes the path exactly if `fat_open` finds a directory there. The
stack may hold any member of `J`. -/
structure NamesRight : Prop where
  finds : FindsRight T J
  reports : ∀ junk : Nat → List Byte, (∀ i, junk i ∈ J) → ∀ b c,
    (walkDir vol junk (stripSlash dir).length vol.rootCluster (stripSlash dir) b).1 = some c →
    ∀ lfnJunk ∈ J, ∀ (σ : Type) (cb : List Byte → Bool → σ → σ) (st : σ),
      (fatReaddir vol (plainCb cb) junk lfnJunk dir (b, st)).2.2 =
        calls cb ((vol.listing c lfnJunk).map fun p => (p.1, p.2.isDir)) st
  lists : ∀ junk : Nat → List Byte, (∀ i, junk i ∈ J) → ∀ b c,
    (walkDir vol junk (stripSlash dir).length vol.rootCluster (stripSlash dir) b).1 = some c →
    ∀ lfnJunk ∈ J, ∀ p ∈ vol.listing c lfnJunk, ∀ junk' : Nat → List Byte, (∀ i, junk' i ∈ J) → ∀ b',
      (vol.lookupPath junk' (dir ++ 47 :: p.1) b').1 = some p.2
  accepts : ∀ junk junk' : Nat → List Byte, (∀ i, junk i ∈ J) → (∀ i, junk' i ∈ J) →
    ∀ (σ : Type) (cb : List Byte → Bool → Bufs × σ → Bufs × σ) (lfnJunk : List Byte) (b : Bufs) (st : Bufs × σ),
      (∃ e, (vol.lookupPath junk dir b).1 = some e ∧ e.isDir = true) ↔
        (fatReaddir vol cb junk' lfnJunk dir st).1 = true

/-- The text in directory `c` means the entry of item `i`, behind the items `before`. A text that is one component must be
a name of the item and of none before it. -/
def FatTree.LeadsBack (c : Nat) (before : List DirItem) (i : DirItem) (text : List Byte) (e : DirEntry) : Prop :=
  if text = [] then T.leads dir = some e
  else if 47 ∈ text then T.openWalk text.length c text = some e
  else i.Named text ∧ ∀ j ∈ before, ¬ j.Named text

/-- No directory holds an item that lookups mistake, the items of the directory are listed under names that mean them, and
the path is not the root and has no empty component, unless it leads nowhere. -/
structure NamesClear : Prop where
  clear : ∀ c items, T.dir c = some items → ∀ junk ∈ J, ∀ before i after, items = before ++ i :: after →
    i.Unmistaken junk before
  listed : ∀ c items, T.cluster dir = some c → T.dir c = some items → ∀ junk ∈ J, ∀ before i after,
    items = before ++ i :: after → ∀ text ∈ i.listedAs junk before, ∀ e ∈ i.live,
      dir.getLast? ≠ some 47 ∧ T.LeadsBack dir c before i text e
  proper : (T.cluster dir).isSome → stripSlash dir ≠ [] ∧ properPath (stripSlash dir).length (stripSlash dir) = true

variable {T J dir}

theorem no_nul_listed {items : List DirItem} (hok : ∀ i ∈ items, i.Ok) {buf : List Byte} {p : List Byte × DirEntry}
    (hp : p ∈ Fat.listed buf items) : ∀ c ∈ p.1, c ≠ 0 := by
  induction items generalizing buf with
  | nil => cases hp
  | cons i is ih =>
    have hrest : ∀ j ∈ is, j.Ok := fun j hj => hok j (List.mem_cons_of_mem _ hj)
    have hi := hok i List.mem_cons_self
    cases i with
    | deleted d => exact ih hrest hp
    | label d => exact ih hrest hp
    | file d =>
      rw [Fat.listed] at hp
      split at hp
      · exact ih hrest hp
      · rcases List.mem_cons.mp hp with rfl | hp
        · exact hi.name_chars
        · exact ih hrest hp
    | long name frag d =>
      rw [Fat.listed] at hp
      rcases List.mem_cons.mp hp with rfl | hp
      · exact fun c hc => (mem_takeC hc).1
      · exact ih hrest hp

theorem no_nul_join {name : List Byte} (hdir : ∀ c ∈ dir, c ≠ 0) (hname : ∀ c ∈ name, c ≠ 0) :
    ∀ c ∈ dir ++ 47 :: name, c ≠ 0 := by
  intro c hc
  rcases List.mem_append.mp hc with hc | hc
  · exact hdir c hc
  · rcases List.mem_cons.mp hc with rfl | hc
    · decide
    · exact hname c hc

variable (T)

/-- Where a path leads to a directory, both walks say so exactly if it is not the root and has no empty component. -/
theorem leads_iff_cluster (hdir : ∀ c ∈ dir, c ≠ 0) :
    ((∃ e, T.leads dir = some e ∧ e.isDir = true) ↔ (T.cluster dir).isSome = true) ↔
      ((T.cluster dir).isSome = true →
        stripSlash dir ≠ [] ∧ properPath (stripSlash dir).length (stripSlash dir) = true) := by
  have hp := no_nul_stripSlash hdir
  by_cases hgood : stripSlash dir ≠ [] ∧ properPath (stripSlash dir).length (stripSlash dir) = true
  · have hiff : (∃ e, T.leads dir = some e ∧ e.isDir = true) ↔ (T.cluster dir).isSome = true :=
      FatTree.openWalk_iff hp hgood.1 (Nat.le_refl _) hgood.2
    exact iff_of_true hiff fun _ => hgood
  · have hnowhere : T.leads dir = none := by
      rw [FatTree.leads]
      by_cases hroot : stripSlash dir = []
      · rw [hroot]
        rfl
      · refine FatTree.openWalk_of_not_proper ?_
        rw [← Bool.not_eq_true]
        exact fun h => hgood ⟨hroot, h⟩
    have hnone : ¬ ∃ e, T.leads dir = some e ∧ e.isDir = true := by
      rw [hnowhere]
      rintro ⟨e, he, -⟩
      cases he
    constructor
    · intro h hsome
      exact absurd (h.mpr hsome) hnone
    · intro h
      exact iff_of_false hnone fun hsome => hgood (h hsome)

theorem stripSlash_join {text : List Byte} (h : stripSlash dir ≠ []) :
    stripSlash (dir ++ 47 :: text) = stripSlash dir ++ 47 :: text := by
  cases dir with
  | nil => exact absurd rfl h
  | cons x dir =>
    rw [stripSlash] at h ⊢
    rw [stripSlash]
    show (if (x == 47) = true then dir ++ 47 :: text else x :: (dir ++ 47 :: text)) =
      (if (x == 47) = true then dir else x :: dir) ++ 47 :: text
    split_ifs
    · rfl
    · rfl

theorem getLast?_stripSlash (h : stripSlash dir ≠ []) : (stripSlash dir).getLast? = dir.getLast? := by
  have hsuffix : stripSlash dir <:+ dir := by
    rw [stripSlash]
    split
    · exact List.tail_suffix dir
    · exact List.suffix_refl dir
  obtain ⟨front, hfront⟩ := hsuffix
  conv_rhs => rw [← hfront]
  exact (List.getLast?_append_of_ne_nil front h).symm

theorem leads_join {c : Nat} (hdir : ∀ c ∈ dir, c ≠ 0) (hc : T.cluster dir = some c) (hne : stripSlash dir ≠ [])
    (hproper : properPath (stripSlash dir).length (stripSlash dir) = true) {text : List Byte} (htext : ∀ c ∈ text, c ≠ 0)
    (e : DirEntry) : T.leads (dir ++ 47 :: text) = some e ↔ dir.getLast? ≠ some 47 ∧
      if text = [] then T.leads dir = some e else T.openWalk text.length c text = some e := by
  have hp := no_nul_stripSlash hdir
  have hlen : (stripSlash dir ++ 47 :: text).length = (stripSlash dir).length + text.length + 1 := by
    rw [List.length_append, List.length_cons]
    omega
  rw [FatTree.leads, stripSlash_join hne, ← getLast?_stripSlash hne]
  by_cases hlast : (stripSlash dir).getLast? = some 47
  · rw [FatTree.openWalk_of_not_proper (properPath_trailing hp hlast (by omega))]
    exact iff_of_false nofun fun h => h.1 hlast
  · rw [FatTree.openWalk_join hp htext hne hlast hproper (le_refl _) (by omega) hc]
    split_ifs
    · exact (and_iff_right hlast).symm
    · exact (and_iff_right hlast).symm

theorem lookup_eq_some_iff {before after : List DirItem} {i : DirItem} {e : DirEntry} {name : List Byte}
    (hok : ∀ j ∈ before ++ i :: after, j.Ok) (hdistinct : Distinct (before ++ i :: after)) (he : i.live = some e) :
    lookup name (before ++ i :: after) = some e ↔ i.Named name ∧ ∀ j ∈ before, ¬ j.Named name := by
  induction before with
  | nil =>
    by_cases hnamed : i.Named name
    · rw [List.nil_append, lookup_cons_of_named hnamed]
      exact iff_of_true he ⟨hnamed, nofun⟩
    · rw [List.nil_append, lookup_cons_of_not_named hnamed]
      exact iff_of_false (not_found_behind hdistinct hok he).2 fun h => hnamed h.1
  | cons j before ih =>
    rw [List.cons_append] at hok hdistinct ⊢
    have ih := ih (fun k hk => hok k (List.mem_cons_of_mem _ hk)) hdistinct.tail
    by_cases hnamed : j.Named name
    · rw [lookup_cons_of_named hnamed]
      refine iff_of_false (fun hj => ?_) fun h => h.2 j List.mem_cons_self hnamed
      rw [Distinct, List.filterMap_cons_some hj, List.nodup_cons, List.mem_filterMap] at hdistinct
      exact hdistinct.1 ⟨i, by simp, he⟩
    · rw [lookup_cons_of_not_named hnamed, ih, List.forall_mem_cons]
      exact and_congr_right fun _ => (and_iff_right hnamed).symm

theorem leads_iff {c : Nat} {before after : List DirItem} {i : DirItem} (hdir : ∀ c ∈ dir, c ≠ 0)
    (hc : T.cluster dir = some c) (hitems : T.dir c = some (before ++ i :: after))
    (hproper : stripSlash dir ≠ [] ∧ properPath (stripSlash dir).length (stripSlash dir) = true) {junk text : List Byte}
    (htext : i.listedAs junk before = some text) {e : DirEntry} (he : i.live = some e) :
    T.leads (dir ++ 47 :: text) = some e ↔ dir.getLast? ≠ some 47 ∧ T.LeadsBack dir c before i text e := by
  have hstored := T.stored hitems
  have hi := hstored.ok i (by simp)
  have hnul := listedAs_ne_zero hi htext
  rw [leads_join T hdir hc hproper.1 hproper.2 hnul, FatTree.LeadsBack]
  refine and_congr_right fun _ => ?_
  split_ifs with hempty hslash
  · rfl
  · rfl
  · rw [FatTree.openWalk_component hnul hempty hslash (length_listedAs hi htext), FatTree.find_eq hitems,
      lookup_eq_some_iff hstored.ok hstored.distinct he]

section Right

variable (hfinds : FindsRight T J) {j : List Byte} (hj : j ∈ J) (hdir : ∀ c ∈ dir, c ≠ 0)

include hfinds hdir

theorem walkDir_cluster {junk : Nat → List Byte} (hjunk : ∀ i, junk i ∈ J) (b : Bufs) :
    (walkDir vol junk (stripSlash dir).length vol.rootCluster (stripSlash dir) b).1 = T.cluster dir :=
  walkDir_tree hfinds hjunk (no_nul_stripSlash hdir) T.root b

include hj

/-- Where the lookups are right, what is listed and looked up is a question about the items of the directory. -/
theorem lists_iff_listed : (∀ junk : Nat → List Byte, (∀ i, junk i ∈ J) → ∀ b c,
      (walkDir vol junk (stripSlash dir).length vol.rootCluster (stripSlash dir) b).1 = some c →
      ∀ lfnJunk ∈ J, ∀ p ∈ vol.listing c lfnJunk, ∀ junk' : Nat → List Byte, (∀ i, junk' i ∈ J) → ∀ b',
        (vol.lookupPath junk' (dir ++ 47 :: p.1) b').1 = some p.2) ↔
    ∀ c items, T.cluster dir = some c → T.dir c = some items → ∀ lfnJunk ∈ J, ∀ p ∈ listed lfnJunk items,
      T.leads (dir ++ 47 :: p.1) = some p.2 := by
  constructor
  · intro h c items hc hitems lfnJunk hlfn p hmem
    have hname := no_nul_join hdir (no_nul_listed (T.stored hitems).ok hmem)
    rw [← lookupPath_tree hfinds (fun _ => hj) hname ⟨[], [], [], []⟩]
    rw [← (T.stored hitems).listing] at hmem
    exact h (fun _ => j) (fun _ => hj) ⟨[], [], [], []⟩ c (by rw [walkDir_cluster T hfinds hdir fun _ => hj]; exact hc)
      lfnJunk hlfn p hmem _ (fun _ => hj) _
  · intro h junk hjunk b c hc lfnJunk hlfn p hmem junk' hjunk' b'
    rw [walkDir_cluster T hfinds hdir hjunk] at hc
    obtain ⟨items, hitems⟩ := Option.isSome_iff_exists.mp (FatTree.dir_of_walk T.root hc)
    rw [(T.stored hitems).listing] at hmem
    rw [lookupPath_tree hfinds hjunk' (no_nul_join hdir (no_nul_listed (T.stored hitems).ok hmem))]
    exact h c items hc hitems lfnJunk hlfn p hmem

theorem accepts_iff_proper : (∀ junk junk' : Nat → List Byte, (∀ i, junk i ∈ J) → (∀ i, junk' i ∈ J) →
      ∀ (σ : Type) (cb : List Byte → Bool → Bufs × σ → Bufs × σ) (lfnJunk : List Byte) (b : Bufs) (st : Bufs × σ),
        (∃ e, (vol.lookupPath junk dir b).1 = some e ∧ e.isDir = true) ↔
          (fatReaddir vol cb junk' lfnJunk dir st).1 = true) ↔
    ((T.cluster dir).isSome → stripSlash dir ≠ [] ∧ properPath (stripSlash dir).length (stripSlash dir) = true) := by
  rw [← leads_iff_cluster T hdir]
  constructor
  · intro h
    have h := h (fun _ => j) (fun _ => j) (fun _ => hj) (fun _ => hj) Unit (fun _ _ st => st) [] ⟨[], [], [], []⟩
      (⟨[], [], [], []⟩, ())
    rwa [lookupPath_tree hfinds (fun _ => hj) hdir, fatReaddir_fst, walkDir_cluster T hfinds hdir fun _ => hj] at h
  · intro h junk junk' hjunk hjunk' σ cb lfnJunk b st
    rwa [lookupPath_tree hfinds hjunk hdir, fatReaddir_fst, walkDir_cluster T hfinds hdir hjunk']

end Right

/-- The listed names, item by item. -/
theorem listed_iff_leadsBack (hsize : ∀ junk ∈ J, 255 ≤ junk.length) (hdir : ∀ c ∈ dir, c ≠ 0)
    (hproper : (T.cluster dir).isSome →
      stripSlash dir ≠ [] ∧ properPath (stripSlash dir).length (stripSlash dir) = true) :
    (∀ c items, T.cluster dir = some c → T.dir c = some items → ∀ lfnJunk ∈ J, ∀ p ∈ listed lfnJunk items,
      T.leads (dir ++ 47 :: p.1) = some p.2) ↔
    ∀ c items, T.cluster dir = some c → T.dir c = some items → ∀ junk ∈ J, ∀ before i after,
      items = before ++ i :: after → ∀ text ∈ i.listedAs junk before, ∀ e ∈ i.live,
        dir.getLast? ≠ some 47 ∧ T.LeadsBack dir c before i text e := by
  refine forall₄_congr fun c items hc hitems => forall₂_congr fun junk hjunk => ?_
  rw [@forall_listed_iff (fun p => T.leads (dir ++ 47 :: p.1) = some p.2) junk junk [] (holds_self (hsize junk hjunk))
    items (T.stored hitems).ok]
  refine forall₄_congr fun before i after hsplit => forall₂_congr fun text htext => forall₂_congr fun e he => ?_
  subst hsplit
  exact leads_iff T hdir hc hitems (hproper (Option.isSome_of_mem hc)) htext he

/-- Exactly when the FAT driver is right about the names of the volume and a path on it. -/
theorem names_right_iff (hJ : J.Nonempty) (hbuf : ∀ junk ∈ J, junk.length = 256) (hdir : ∀ c ∈ dir, c ≠ 0) :
    NamesRight T J dir ↔ NamesClear T J dir := by
  obtain ⟨j, hj⟩ := hJ
  have hsize : ∀ junk ∈ J, 255 ≤ junk.length := by
    intro junk h
    rw [hbuf junk h]
    omega
  constructor
  · intro h
    have hproper := (accepts_iff_proper T h.finds hj hdir).mp h.accepts
    refine ⟨(findsRight_iff_unmistaken hbuf).mp h.finds, ?_, hproper⟩
    exact (listed_iff_leadsBack T hsize hdir hproper).mp ((lists_iff_listed T h.finds hj hdir).mp h.lists)
  · intro h
    have hfinds := (findsRight_iff_unmistaken hbuf).mpr h.clear
    refine ⟨hfinds, fun junk _ b c hwalk lfnJunk _ σ cb st => ?_, ?_, (accepts_iff_proper T hfinds hj hdir).mpr h.proper⟩
    · exact fatReaddir_calls cb hwalk lfnJunk
    · exact (lists_iff_listed T hfinds hj hdir).mpr ((listed_iff_leadsBack T hsize hdir h.proper).mpr h.listed)

end Names

/-! ## A volume with short names, and one with a long name -/

theorem isDirectory_of_cluster {c : Nat} {items : List DirItem} {tail : List DirEntry} (hlimit : 0 < vol.clusterLimit)
    (hc : isCluster c = true) (hnext : isCluster (vol.next c) = false) (hok : ∀ i ∈ items, i.Ok)
    (hdistinct : Distinct items) (htail : ∀ e ∈ tail.head?, e.first = 0)
    (hentries : vol.clusterEntries c = items.flatMap DirItem.entries ++ tail) : IsDirectory vol c items := by
  refine ⟨hok, hdistinct, tail, htail, fun n hn => ?_⟩
  obtain ⟨n, rfl⟩ : ∃ k, n = k + 1 := ⟨n - 1, by omega⟩
  have hend : vol.dirEntries n (vol.next c) = [] := by
    cases n with
    | zero => rfl
    | succ n => rw [FatVol.dirEntries, hnext, if_neg Bool.false_ne_true]
  rw [FatVol.dirEntries, if_pos hc, hend, List.append_nil, hentries]

theorem no_nul_of_all {s : List Byte} (h : (s.all fun c => c != 0) = true) : ∀ c ∈ s, c ≠ 0 := fun c hc =>
  bne_iff_ne.mp (List.all_eq_true.mp h c hc)

theorem liveEntries_of_all {es : List DirEntry} (h : (es.all fun e => e.first != 0 && e.first != 0xE5 && !e.isVolumeId &&
    e.shortName != [] && e.shortName.all fun c => c != 0) = true) : ∀ e ∈ es, LiveEntry e := by
  intro e he
  have hall := List.all_eq_true.mp h e he
  simp only [Bool.and_eq_true, bne_iff_ne, Bool.not_eq_true'] at hall
  obtain ⟨⟨⟨⟨h0, h5⟩, hlabel⟩, hne⟩, hchars⟩ := hall
  exact ⟨h0, h5, hlabel, hne, no_nul_of_all hchars⟩

theorem isDirectory_files {c : Nat} {es : List DirEntry} (hlimit : 0 < vol.clusterLimit) (hc : isCluster c = true)
    (hnext : isCluster (vol.next c) = false) (hlive : ∀ e ∈ es, LiveEntry e) (hdistinct : es.Nodup)
    (hhead : (vol.clusterEntries c).take es.length = es)
    (htail : ∀ e ∈ ((vol.clusterEntries c).drop es.length).head?, e.first = 0) :
    IsDirectory vol c (es.map .file) := by
  have hentries : (es.map DirItem.file).flatMap DirItem.entries = es := by
    rw [List.flatMap_map]
    exact List.flatMap_singleton' es
  refine isDirectory_of_cluster hlimit hc hnext (fun i hi => ?_) ?_ htail ?_
  · obtain ⟨e, he, rfl⟩ := List.mem_map.mp hi
    exact hlive e he
  · rwa [Distinct, List.filterMap_map, show (DirItem.live ∘ DirItem.file) = some from rfl, List.filterMap_some]
  · have hsplit := List.take_append_drop es.length (vol.clusterEntries c)
    rw [hhead] at hsplit
    rw [hentries, hsplit]

instance (e : DirEntry) : Decidable (LiveEntry e) :=
  decidable_of_iff (e.first ≠ 0 ∧ e.first ≠ 0xE5 ∧ e.isVolumeId = false ∧ e.shortName ≠ [] ∧ ∀ c ∈ e.shortName, c ≠ 0)
    ⟨fun h => ⟨h.1, h.2.1, h.2.2.1, h.2.2.2.1, h.2.2.2.2⟩,
      fun h => ⟨h.first_ne, h.not_deleted, h.not_label, h.name_ne, h.name_chars⟩⟩

/-- An entry with 11 characters of name, an attribute and a first cluster. -/
def plainEntry (name : String) (attr : Byte) (cluster : Nat) : DirEntry :=
  lit name ++ [attr] ++ List.replicate 14 0 ++ le 2 cluster ++ le 4 0

def bootEntry : DirEntry := plainEntry "BOOT       " 0x10 3
def kernelEntry : DirEntry := plainEntry "KERNEL  BIN" 0x20 4

def shortDisk : Disk :=
  .ofSectors [edgeBoot 8, List.replicate 8 0 ++ le 4 0x0FFFFFFF ++ le 4 0x0FFFFFFF, bootEntry, kernelEntry]

def shortVol : FatVol := bootVol shortDisk 8

def shortDir (c : Nat) : Option (List DirItem) :=
  if c = 2 then some [.file bootEntry] else if c = 3 then some [.file kernelEntry] else none

theorem shortDir_cases {c : Nat} {items : List DirItem} (h : shortDir c = some items) :
    c = 2 ∧ items = [.file bootEntry] ∨ c = 3 ∧ items = [.file kernelEntry] := by
  unfold shortDir at h
  split_ifs at h with h2 h3
  · exact .inl ⟨h2, (Option.some.inj h).symm⟩
  · exact .inr ⟨h3, (Option.some.inj h).symm⟩

theorem shortDir_stored {c : Nat} {items : List DirItem} (h : shortDir c = some items) :
    IsDirectory shortVol c items := by
  rcases shortDir_cases h with ⟨rfl, rfl⟩ | ⟨rfl, rfl⟩
  · show IsDirectory shortVol 2 ([bootEntry].map .file)
    exact isDirectory_files (by decide) (by decide) (by decide) (liveEntries_of_all (by decide))
      (by decide) (by decide) (by decide)
  · show IsDirectory shortVol 3 ([kernelEntry].map .file)
    exact isDirectory_files (by decide) (by decide) (by decide) (liveEntries_of_all (by decide))
      (by decide) (by decide) (by decide)

theorem shortDir_sub {c : Nat} {items : List DirItem} {i : DirItem} {e : DirEntry} (h : shortDir c = some items)
    (hi : i ∈ items) (he : i.live = some e) (hdir : e.isDir = true) : (shortDir e.firstCluster).isSome := by
  rcases shortDir_cases h with ⟨rfl, rfl⟩ | ⟨rfl, rfl⟩
  · rw [List.mem_singleton.mp hi] at he
    obtain rfl := Option.some.inj he
    decide
  · rw [List.mem_singleton.mp hi] at he
    obtain rfl := Option.some.inj he
    exact absurd hdir (by decide)

theorem shortDir_root : (shortDir shortVol.rootCluster).isSome := rfl

def shortTree : FatTree shortVol where
  dir := shortDir
  stored := shortDir_stored
  root := shortDir_root
  sub := shortDir_sub

/-- Short names are found whatever the stack holds. -/
theorem names_right_short : NamesRight shortTree {junk | junk.length = 256} (lit "/boot") := by
  refine (names_right_iff shortTree ⟨List.replicate 256 0, List.length_replicate⟩ (fun _ h => h)
    (no_nul_of_all (by decide))).mpr ⟨?_, ?_, ?_⟩
  · intro c items h junk _ before i after hsplit
    have hi : i ∈ items := by
      rw [hsplit]
      simp
    rcases shortDir_cases h with ⟨-, rfl⟩ | ⟨-, rfl⟩
    · rw [List.mem_singleton.mp hi]
      trivial
    · rw [List.mem_singleton.mp hi]
      trivial
  · intro c items hc h junk _ before i after hsplit text htext e he
    have hc3 : shortTree.cluster (lit "/boot") = some 3 := by decide
    obtain rfl := Option.some.inj (hc3.symm.trans hc)
    obtain rfl : [.file kernelEntry] = items := Option.some.inj h
    obtain ⟨rfl, rfl, rfl⟩ : before = [] ∧ i = .file kernelEntry ∧ after = [] := by
      cases before with
      | nil =>
        obtain ⟨rfl, rfl⟩ := List.cons.inj hsplit
        exact ⟨rfl, rfl, rfl⟩
      | cons j before => simp at hsplit
    obtain rfl : kernelEntry.shortName = text := Option.some.inj htext
    obtain rfl : kernelEntry = e := Option.some.inj he
    refine ⟨by decide, ?_⟩
    rw [FatTree.LeadsBack, if_neg (by decide), if_neg (by decide)]
    exact ⟨sameName_self _, nofun⟩
  · intro _
    decide

/-- The entry of a long name's only fragment. -/
def longEntry : DirEntry :=
  [0x41] ++ [114, 101, 97, 100, 109].flatMap (le 2) ++ [0x0F, 0, 0] ++ [101, 46, 109, 100, 0, 0xFFFF].flatMap (le 2) ++
    le 2 0 ++ [0xFFFF, 0xFFFF].flatMap (le 2)

def readmeEntry : DirEntry := plainEntry "README~1MD " 0x20 3

def longItem : DirItem := .long [114, 101, 97, 100, 109, 101, 46, 109, 100] (fun _ => longEntry) readmeEntry

def longDisk : Disk := .ofSectors [edgeBoot 8, List.replicate 8 0 ++ le 4 0x0FFFFFFF, longEntry ++ readmeEntry]

def longVol : FatVol := bootVol longDisk 8

def longDir (c : Nat) : Option (List DirItem) := if c = 2 then some [longItem] else none

theorem longEntry_fragment : LongFragment [114, 101, 97, 100, 109, 101, 46, 109, 100] 0 longEntry :=
  ⟨by decide, by decide, by decide, by decide⟩

theorem longItem_ok : longItem.Ok := by
  refine ⟨List.cons_ne_nil _ _, show 9 ≤ 255 by omega, by simp, fun k hk => ?_, @liveEntries_of_all [readmeEntry] (by decide) _ (by simp),
    by decide⟩
  obtain rfl : k = 0 := by
    rw [fragCount] at hk
    simpa using hk
  exact longEntry_fragment

theorem longDir_stored {c : Nat} {items : List DirItem} (h : longDir c = some items) :
    IsDirectory longVol c items := by
  unfold longDir at h
  split_ifs at h with hc
  subst hc
  obtain rfl := Option.some.inj h
  have hentries : longVol.clusterEntries 2 =
      [longItem].flatMap DirItem.entries ++ (longVol.clusterEntries 2).drop 2 := by
    have htake : (longVol.clusterEntries 2).take 2 = [longItem].flatMap DirItem.entries := by decide
    rw [← htake, List.take_append_drop]
  exact isDirectory_of_cluster (by decide) (by decide) (by decide)
    (fun i hi => by rw [List.mem_singleton.mp hi]; exact longItem_ok) (List.nodup_singleton readmeEntry)
    (by decide) hentries

theorem longDir_sub {c : Nat} {items : List DirItem} {i : DirItem} {e : DirEntry} (h : longDir c = some items)
    (hi : i ∈ items) (he : i.live = some e) (hdir : e.isDir = true) : (longDir e.firstCluster).isSome := by
  unfold longDir at h
  split_ifs at h with hc
  obtain rfl := Option.some.inj h
  rw [List.mem_singleton.mp hi] at he
  obtain rfl := Option.some.inj he
  exact absurd hdir (by decide)

theorem longDir_root : (longDir longVol.rootCluster).isSome := rfl

def longTree : FatTree longVol where
  dir := longDir
  stored := longDir_stored
  root := longDir_root
  sub := longDir_sub

/-- A long name is not found where the stack holds no NUL behind it. -/
theorem names_wrong_long : fatInit longDisk 0 = some longVol ∧
    ∀ dir, ¬ NamesRight longTree {List.replicate 256 65} dir := by
  refine ⟨fatInit_edge rfl (by decide), fun dir h => ?_⟩
  have hfind := h.finds 2 [longItem] rfl (lit "readme.md") (no_nul_of_all (by decide)) _ rfl ⟨[], [], [], []⟩
  rw [(longTree.stored rfl).findInDir (no_nul_of_all (by decide))] at hfind
  revert hfind
  decide

end SakuruBoot.Fat

import SakuruBoot.Os.LinuxUefi
import SakuruBoot.Uefi.DiscoveryFacts

/-!
# The command line of a loader entry

`scan_loader_entries` keeps four initrd paths of a `.conf` file and appends them to the options, each copy cut silently at
the end of its buffer. `confCmdline` is the command line the file asks for. What is stored is that of the first four
initrds, cut at 255 bytes, so it is right exactly when there are no more of them and all of it fits.
-/

namespace SakuruBoot
open CStr

/-! ## The file -/

/-- Key and value of a line, the value in full. -/
def confPair (line : List Byte) : Option (List Byte × List Byte) :=
  let key := line.takeWhile fun c => !isSpace c
  let val := (line.dropWhile fun c => !isSpace c).dropWhile isSpace
  if line.isEmpty || line.head? == some 35 then none
  else if key.isEmpty || val.isEmpty then none
  else some (str (key.take 31), str val)

/-- The value of a line that has the key. -/
def confValue (word line : List Byte) : Option (List Byte) :=
  match confPair line with
  | none => none
  | some (key, val) => if strEq key word then some val else none

def confLines (text : List Byte) : List (List Byte) := text.splitOnP isNewline

/-- The last `options` line counts. -/
def confOptions (text : List Byte) : List Byte := ((confLines text).reverse.findSome? (confValue (lit "options"))).getD []

def confInitrds (text : List Byte) : List (List Byte) := (confLines text).filterMap (confValue (lit "initrd"))

def initrdArg (path : List Byte) : List Byte := initrdPfx ++ path.map efiSlash

/-- The arguments with single blanks between them. -/
def joinCmdline (options : List Byte) (initrds : List (List Byte)) : List Byte :=
  List.intercalate [32] ((if options = [] then [] else [options]) ++ initrds.map initrdArg)

/-- The options, and an argument for each initrd. -/
def confCmdline (text : List Byte) : List Byte := joinCmdline (confOptions text) (confInitrds text)

/-- No value is longer than the arrays for values. -/
def ShortValues (text : List Byte) : Prop :=
  ∀ line ∈ confLines text, ∀ val, confValue (lit "options") line = some val ∨ confValue (lit "initrd") line = some val →
    val.length ≤ 255

theorem shortValues_of_getD {text : List Byte}
    (h : ∀ line ∈ confLines text, ((confValue (lit "options") line).getD []).length ≤ 255 ∧
      ((confValue (lit "initrd") line).getD []).length ≤ 255) : ShortValues text := by
  rintro line hline val (hval | hval)
  · have hle := (h line hline).1
    rwa [hval] at hle
  · have hle := (h line hline).2
    rwa [hval] at hle

/-! ## What is read -/

/-- The value `scan_loader_entries` reads of a line that has the key. -/
def readValue (word line : List Byte) : Option (List Byte) :=
  match scanSetting line with
  | none => none
  | some (key, val) => if strEq key word then some (strCopy val maxStrLen) else none

theorem scanSetting_eq (line : List Byte) : scanSetting line = (confPair line).map fun s => (s.1, s.2.take 255) := by
  unfold scanSetting confPair
  dsimp only
  split
  · rfl
  · split
    · rfl
    · rw [str_take 255]
      rfl

theorem confPair_str {line key val : List Byte} (h : confPair line = some (key, val)) : str val = val := by
  unfold confPair at h
  dsimp only at h
  split_ifs at h
  rw [← (Prod.mk.inj (Option.some.inj h)).2, str_str]

theorem confValue_str {word line val : List Byte} (h : confValue word line = some val) : str val = val := by
  rw [confValue] at h
  cases hpair : confPair line with
  | none =>
    rw [hpair] at h
    cases h
  | some pair =>
    rw [hpair] at h
    dsimp only at h
    split_ifs at h
    exact Option.some.inj h ▸ confPair_str hpair

theorem readValue_eq {word line : List Byte} (h : ∀ val, confValue word line = some val → val.length ≤ 255) :
    readValue word line = confValue word line := by
  rw [readValue, scanSetting_eq]
  rw [confValue] at h ⊢
  cases hpair : confPair line with
  | none => rfl
  | some pair =>
    obtain ⟨key, val⟩ := pair
    rw [hpair] at h
    dsimp only [Option.map_some] at h ⊢
    split
    · have hlen := h val (by rw [if_pos ‹_›])
      rw [List.take_of_length_le hlen, strCopy, confPair_str hpair, maxStrLen, List.take_of_length_le hlen]
    · rfl

theorem initrds_confLine {f : ConfFields} (hf : f.initrds.length ≤ 4) (line : List Byte) :
    (confLine f line).initrds = (f.initrds ++ (readValue (lit "initrd") line).toList).take 4 := by
  have hdistinct : str (lit "title") ≠ str (lit "initrd") ∧ str (lit "linux") ≠ str (lit "initrd") := by decide
  have hkeep : f.initrds = f.initrds.take 4 := (List.take_of_length_le hf).symm
  unfold confLine readValue
  rcases scanSetting line with _ | ⟨key, val⟩
  · simpa using hkeep
  · dsimp only
    rw [setConfKey]
    by_cases hi : strEq key (lit "initrd") = true
    · have ht : strEq key (lit "title") = false := strEq_word_ne hi hdistinct.1.symm
      have hl : strEq key (lit "linux") = false := strEq_word_ne hi hdistinct.2.symm
      rw [ht, hl, hi]
      simp only [Bool.false_eq_true, if_false, if_true, Bool.true_and, decide_eq_true_eq, Option.toList_some]
      by_cases hroom : f.initrds.length < 4
      · rw [if_pos hroom, List.take_of_length_le (by simp; omega)]
      · have hfour : f.initrds.length = 4 := by omega
        rw [if_neg hroom, List.take_left' hfour]
        split
        · rfl
        · rfl
    · rw [Bool.not_eq_true] at hi
      rw [hi]
      simp only [Bool.false_and, Bool.false_eq_true, if_false, Option.toList_none, List.append_nil, ← hkeep]
      split
      · rfl
      · split
        · rfl
        · split
          · rfl
          · rfl

theorem take_take_append {α : Type} (n : Nat) (a b : List α) : (a.take n ++ b).take n = (a ++ b).take n := by
  rw [List.take_append, List.take_append, List.take_take, Nat.min_self, List.length_take]
  congr 2
  omega

theorem initrds_foldl (lines : List (List Byte)) (f : ConfFields) (hf : f.initrds.length ≤ 4) :
    (lines.foldl confLine f).initrds = (f.initrds ++ lines.filterMap (readValue (lit "initrd"))).take 4 := by
  induction lines generalizing f with
  | nil => rw [List.foldl_nil, List.filterMap_nil, List.append_nil, List.take_of_length_le hf]
  | cons line lines ih =>
    have hline := initrds_confLine hf line
    have hlen : (confLine f line).initrds.length ≤ 4 := by
      rw [hline, List.length_take]
      exact Nat.min_le_left _ _
    have hcons : (line :: lines).filterMap (readValue (lit "initrd")) =
        (readValue (lit "initrd") line).toList ++ lines.filterMap (readValue (lit "initrd")) := by
      rw [List.filterMap_cons]
      cases readValue (lit "initrd") line with
      | none => rfl
      | some val => rfl
    rw [List.foldl_cons, ih _ hlen, hline, take_take_append, hcons, List.append_assoc]

theorem filterMap_readValue {word : List Byte} {lines : List (List Byte)}
    (h : ∀ line ∈ lines, ∀ val, confValue word line = some val → val.length ≤ 255) :
    lines.filterMap (readValue word) = lines.filterMap (confValue word) :=
  List.filterMap_congr fun line hline => readValue_eq (h line hline)

theorem findSome_readValue (word : List Byte) (lines : List (List Byte))
    (h : ∀ line ∈ lines, ∀ val, confValue word line = some val → val.length ≤ 255) :
    lines.findSome? (readValue word) = lines.findSome? (confValue word) := by
  induction lines with
  | nil => rfl
  | cons line lines ih =>
    rw [List.findSome?_cons, List.findSome?_cons, readValue_eq (h line List.mem_cons_self),
      ih fun l hl => h l (List.mem_cons_of_mem _ hl)]

theorem scanConf_fields {text : List Byte} (h : ShortValues text) :
    (scanConf text).options = confOptions text ∧ (scanConf text).initrds = (confInitrds text).take 4 := by
  rw [scanConf_pieces]
  constructor
  · have hlast := Lines.foldl_lastSet (scanned_confLine .options) (text.splitOnP isNewline) {}
    have hread := findSome_readValue (lit "options") (confLines text).reverse
      fun line hline val hval => h line (List.mem_reverse.mp hline) val (.inl hval)
    rw [confOptions, ← hread]
    exact hlast
  · rw [initrds_foldl _ _ (Nat.zero_le _), confInitrds, ← filterMap_readValue]
    · rfl
    · exact fun line hline val hval => h line hline val (.inr hval)

/-! ## What is stored -/

theorem slCat_take {u s : List Byte} (hs : str s = s) : slCat (u.take 255) 256 s = (u ++ s).take 255 := by
  have hlen : (u.take 255).length ≤ 255 := by
    rw [List.length_take]
    exact Nat.min_le_left _ _
  rw [slCat, hs, ← take_take_append, List.take_append, List.take_of_length_le hlen]

/-- One initrd, without an end to the buffer. -/
def appendInitrd (cmdline initrd : List Byte) : List Byte :=
  if initrd = [] then cmdline else (if cmdline = [] then [] else cmdline ++ [32]) ++ initrdArg initrd

theorem str_map_efiSlash {path : List Byte} (h : str path = path) : str (path.map efiSlash) = path.map efiSlash := by
  refine str_of_no_nul fun c hc => ?_
  obtain ⟨d, hd, rfl⟩ := List.mem_map.mp hc
  have hne : d ≠ 0 := by
    rw [← h] at hd
    simpa using List.mem_takeWhile_imp hd
  rw [efiSlash]
  split
  · decide
  · exact hne

/-- The buffer holds the first 255 bytes of what is appended to it. -/
theorem loaderCmdline_eq {f : ConfFields} (hi : ∀ path ∈ f.initrds, str path = path) :
    loaderCmdline f = (f.initrds.foldl appendInitrd (str f.options)).take 255 := by
  rw [loaderCmdline, strCopy]
  generalize str f.options = u
  revert hi
  generalize f.initrds = paths
  intro hi
  induction paths generalizing u with
  | nil => rfl
  | cons path paths ih =>
    have hpath := hi path List.mem_cons_self
    have hempty : u.take 255 = [] ↔ u = [] := by
      rw [List.take_eq_nil_iff]
      simp
    rw [List.foldl_cons, List.foldl_cons, ← ih _ (fun p hp => hi p (List.mem_cons_of_mem _ hp))]
    congr 1
    rw [appendInitrd]
    by_cases hnil : path = []
    · rw [if_pos hnil, if_pos hnil]
    · rw [if_neg hnil, if_neg hnil]
      have hpfx : str (lit "initrd=") = lit "initrd=" := by decide
      by_cases hu : u = []
      · rw [if_pos (hempty.mpr hu), if_pos hu, hu]
        have h1 := slCat_take (u := []) hpfx
        have h2 := slCat_take (u := [] ++ lit "initrd=") (str_map_efiSlash hpath)
        rw [← h1] at h2
        exact h2
      · rw [if_neg (hempty.not.mpr hu), if_neg hu]
        have h0 := slCat_take (u := u) (s := lit " ") (by decide)
        have h1 := slCat_take (u := u ++ lit " ") hpfx
        have h2 := slCat_take (u := u ++ lit " " ++ lit "initrd=") (str_map_efiSlash hpath)
        rw [← h1, ← h0, List.append_assoc (u ++ lit " ")] at h2
        exact h2

/-! ## The arguments -/

theorem intercalate_cons (x : List Byte) (xs : List (List Byte)) :
    List.intercalate [32] (x :: xs) = x ++ xs.flatMap fun y => 32 :: y := by
  induction xs generalizing x with
  | nil => simp [List.intercalate]
  | cons y xs ih =>
    have hstep : List.intercalate [32] (x :: y :: xs) = x ++ 32 :: List.intercalate [32] (y :: xs) := by
      simp [List.intercalate]
    rw [hstep, ih, List.flatMap_cons]
    rfl

theorem initrdArg_ne_nil (path : List Byte) : initrdArg path ≠ [] := by
  rw [initrdArg]
  exact List.append_ne_nil_of_left_ne_nil (by decide) _

/-- The paths that are not empty, as arguments behind the options. -/
theorem foldl_appendInitrd (options : List Byte) (paths : List (List Byte)) :
    paths.foldl appendInitrd options = joinCmdline options (paths.filter (· ≠ [])) := by
  induction paths generalizing options with
  | nil =>
    rw [List.foldl_nil, List.filter_nil, joinCmdline]
    by_cases h : options = []
    · rw [if_pos h, h]
      rfl
    · rw [if_neg h, List.map_nil, List.append_nil, intercalate_cons, List.flatMap_nil, List.append_nil]
  | cons path paths ih =>
    rw [List.foldl_cons, ih, appendInitrd]
    by_cases hnil : path = []
    · rw [if_pos hnil, List.filter_cons_of_neg (by simpa using hnil)]
    · have hne : (if options = [] then [] else options ++ [32]) ++ initrdArg path ≠ [] :=
        List.append_ne_nil_of_right_ne_nil _ (initrdArg_ne_nil path)
      rw [if_neg hnil, List.filter_cons_of_pos (by simpa using hnil), joinCmdline, joinCmdline, if_neg hne]
      by_cases h : options = []
      · rw [if_pos h, if_pos h]
        rfl
      · rw [if_neg h, if_neg h, List.map_cons, List.singleton_append, List.singleton_append, intercalate_cons,
          intercalate_cons, List.flatMap_cons, List.append_assoc, List.append_assoc]
        rfl

/-- The bytes of the arguments, each with a blank. -/
def argBytes (paths : List (List Byte)) : Nat := (paths.map fun path => (initrdArg path).length + 1).sum

theorem length_joinCmdline (options : List Byte) (paths : List (List Byte)) :
    (joinCmdline options paths).length ≤ options.length + argBytes paths ∧
      options.length + argBytes paths ≤ (joinCmdline options paths).length + 1 := by
  have hflat : ∀ xs : List (List Byte), (xs.flatMap fun y => 32 :: y).length = (xs.map fun x => x.length + 1).sum := by
    intro xs
    rw [List.length_flatMap]
    rfl
  have hmap : ((paths.map initrdArg).map fun x => x.length + 1).sum = argBytes paths := by
    rw [List.map_map]
    rfl
  rw [joinCmdline]
  by_cases h : options = []
  · rw [if_pos h, h, List.nil_append, List.length_nil, Nat.zero_add]
    cases paths with
    | nil => exact ⟨le_rfl, Nat.zero_le _⟩
    | cons path paths =>
      rw [List.map_cons] at hmap ⊢
      rw [intercalate_cons, List.length_append, hflat, ← hmap, List.map_cons, List.sum_cons]
      omega
  · rw [if_neg h, List.singleton_append, intercalate_cons, List.length_append, hflat, hmap]
    omega

theorem argBytes_sublist {kept paths : List (List Byte)} (h : kept.Sublist paths) :
    argBytes kept + 8 * (paths.length - kept.length) ≤ argBytes paths := by
  induction h with
  | slnil => exact le_rfl
  | @cons l₁ l₂ path hs ih =>
    have hlen := hs.length_le
    have harg : 7 ≤ (initrdArg path).length := by
      have hpfx : initrdPfx.length = 7 := by decide
      rw [initrdArg, List.length_append, hpfx]
      omega
    have hsum : argBytes (path :: l₂) = (initrdArg path).length + 1 + argBytes l₂ := rfl
    rw [hsum, List.length_cons]
    omega
  | @cons_cons l₁ l₂ path hs ih =>
    have hsum : ∀ l, argBytes (path :: l) = (initrdArg path).length + 1 + argBytes l := fun l => rfl
    rw [hsum, hsum, List.length_cons, List.length_cons]
    omega

/-- The first four paths, cut, are all of them exactly when there are no more, none is empty and all fit. -/
theorem joinCmdline_eq_iff (options : List Byte) (paths : List (List Byte)) :
    (joinCmdline options ((paths.take 4).filter (· ≠ []))).take 255 = joinCmdline options paths ↔
      paths.length ≤ 4 ∧ [] ∉ paths ∧ (joinCmdline options paths).length ≤ 255 := by
  constructor
  · intro heq
    have hsub : ((paths.take 4).filter (· ≠ [])).Sublist paths := List.filter_sublist.trans (List.take_sublist 4 paths)
    have hall : (paths.take 4).filter (· ≠ []) = paths := by
      by_contra hne
      have hlt : ((paths.take 4).filter (· ≠ [])).length < paths.length :=
        lt_of_le_of_ne hsub.length_le fun h => hne (hsub.eq_of_length h)
      have hbytes := argBytes_sublist hsub
      have hkept := (length_joinCmdline options ((paths.take 4).filter (· ≠ []))).1
      have hfull := (length_joinCmdline options paths).2
      have hlen := congrArg List.length heq
      rw [List.length_take] at hlen
      omega
    refine ⟨?_, fun hmem => ?_, ?_⟩
    · have hlen := congrArg List.length hall
      have hle := (List.length_filter_le (· ≠ []) (paths.take 4)).trans (List.length_take_le 4 paths)
      omega
    · rw [← hall] at hmem
      simp at hmem
    · rw [hall] at heq
      have hlen := congrArg List.length heq
      rw [List.length_take] at hlen
      omega
  · rintro ⟨hfour, hnil, hfit⟩
    have hfilter : paths.filter (· ≠ []) = paths := by
      rw [List.filter_eq_self]
      intro path hpath
      simpa using fun h : path = [] => hnil (h ▸ hpath)
    rw [List.take_of_length_le hfour, hfilter, List.take_of_length_le hfit]

theorem str_append {a b : List Byte} (ha : str a = a) (hb : str b = b) : str (a ++ b) = a ++ b := by
  have hmem : ∀ {p : List Byte}, str p = p → ∀ c ∈ p, c ≠ 0 := by
    intro p hp c hc
    rw [← hp] at hc
    simpa using List.mem_takeWhile_imp hc
  refine str_of_no_nul fun c hc => ?_
  rcases List.mem_append.mp hc with h | h
  · exact hmem ha c h
  · exact hmem hb c h

theorem str_foldl_appendInitrd (paths : List (List Byte)) (options : List Byte) (ho : str options = options)
    (hp : ∀ path ∈ paths, str path = path) :
    str (paths.foldl appendInitrd options) = paths.foldl appendInitrd options := by
  induction paths generalizing options with
  | nil => exact ho
  | cons path paths ih =>
    refine ih _ ?_ fun p h => hp p (List.mem_cons_of_mem _ h)
    have harg : str (initrdArg path) = initrdArg path :=
      str_append (by decide) (str_map_efiSlash (hp path List.mem_cons_self))
    rw [appendInitrd]
    split
    · exact ho
    · split
      · exact harg
      · exact str_append (str_append ho (by decide)) harg

/-- The stored command line is the one the file asks for exactly when it has no more than four initrds and all of it
fits. -/
theorem loaderEntry_cmdline_iff (vol : FatVolume) (s : ScanState) (info : FileInfo) (text : List Byte)
    (htext : vol.confText info.name = some text) (hshort : ShortValues text)
    (hadded : (scanLoaderInfo vol s info).cfg.numEntries ≠ s.cfg.numEntries) :
    (scanLoaderInfo vol s info).cfg.entries.getLast?.map BootEntry.cmdline = some (confCmdline text) ↔
      (confInitrds text).length ≤ 4 ∧ [] ∉ confInitrds text ∧ (confCmdline text).length ≤ 255 := by
  rcases scanLoaderInfo_cases vol s info with hc | ⟨-, cbuf, hcbuf, hc⟩
  · rw [hc] at hadded
    exact absurd rfl hadded
  · obtain rfl := Option.some.inj (htext.symm.trans hcbuf)
    obtain ⟨hopt, hinit⟩ := scanConf_fields hshort
    have hlast : (scanLoaderInfo vol s info).cfg.entries.getLast? =
        some (confEntry info.name text) := by
      rw [hc]
      exact List.getLast?_concat
    have hpath : ∀ path ∈ (scanConf text).initrds, str path = path := by
      intro path hp
      rw [hinit] at hp
      obtain ⟨line, -, hval⟩ := List.mem_filterMap.mp (List.mem_of_mem_take hp)
      exact confValue_str hval
    have ho : str (confOptions text) = confOptions text := by
      rw [confOptions]
      cases hfind : (confLines text).reverse.findSome? (confValue (lit "options")) with
      | none => rfl
      | some val =>
        obtain ⟨line, -, hval⟩ := List.exists_of_findSome?_eq_some hfind
        exact confValue_str hval
    have hstored : (confEntry info.name text).cmdline =
        (joinCmdline (confOptions text) (((confInitrds text).take 4).filter (· ≠ []))).take 255 := by
      show strCopy (loaderCmdline (scanConf text)) 256 = _
      rw [loaderCmdline_eq hpath, hopt, ho, strCopy, str_take,
        str_foldl_appendInitrd _ _ ho hpath, List.take_take, hinit, foldl_appendInitrd]
      rfl
    rw [hlast, Option.map_some, hstored, Option.some.injEq]
    exact joinCmdline_eq_iff (confOptions text) (confInitrds text)

/-- A volume whose files all hold the text, and the record of a file `ab.conf`. -/
def textVolume (text : List Byte) : FatVolume :=
  { sfs := 1, root := 2, dir := fun _ => none, file := fun _ => some text, opens := fun _ => false,
    entryFile := fun _ => none }

def abConf : FileInfo := { name := [97, 98, 46, 99, 111, 110, 102], isDir := false }

def noEntries : ScanState := { cfg := {} }

/-- Microcode and a main initrd. -/
def twoInitrds : List Byte :=
  lit "linux /k" ++ 10 :: lit "initrd /u" ++ 10 :: lit "initrd /i" ++ 10 :: lit "options rw" ++ [10]

theorem twoInitrds_cmdline : (scanLoaderInfo (textVolume twoInitrds) noEntries abConf).cfg.entries.getLast?.map
    BootEntry.cmdline = some (confCmdline twoInitrds) := by
  have hshort : ShortValues twoInitrds := shortValues_of_getD (by decide)
  rw [loaderEntry_cmdline_iff (textVolume twoInitrds) noEntries abConf twoInitrds rfl hshort (by decide)]
  decide

/-- Five initrds. -/
def fiveInitrds : List Byte := lit "linux /k" ++ 10 :: (List.replicate 5 (lit "initrd /i" ++ [10])).flatten

/-- The fifth one is dropped. -/
theorem fiveInitrds_cmdline : ShortValues fiveInitrds ∧
    (scanLoaderInfo (textVolume fiveInitrds) noEntries abConf).cfg.numEntries = 1 ∧
    (scanLoaderInfo (textVolume fiveInitrds) noEntries abConf).cfg.entries.getLast?.map BootEntry.cmdline ≠
      some (confCmdline fiveInitrds) := by
  exact ⟨shortValues_of_getD (by decide), by decide, by decide⟩

end SakuruBoot

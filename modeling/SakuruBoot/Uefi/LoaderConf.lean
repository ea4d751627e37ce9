import SakuruBoot.Common.LoaderEntry

/-!
# The two readers of loader entries

`scan_loader_entries` in `uefi/uefi_loader.c` has a line splitter of its own, `scanConf`, beside `parseEntryConf`
of `common/loader_entry.c`. Both take a file line by line, so what they extract is decided by what each takes from
a line (`scanSets`, `entrySets`): the last line that sets a key wins.

`extract_agree_iff` says for which files the two extract the same title, kernel path and options. They differ on
lines that start with a blank (only one reader takes them), values with blanks behind them (only one trims),
keys without a value (only one clears the field), a carriage return inside a line (a line end for one of them)
and keys or values with a NUL.
-/

namespace SakuruBoot
open CStr

/-- What `scan_loader_entries` keeps of a `.conf` file. -/
structure ConfFields where
  title : List Byte := []
  linuxPath : List Byte := []
  options : List Byte := []
  initrds : List (List Byte) := []
  deriving DecidableEq, Repr

def setConfKey (f : ConfFields) (key val : List Byte) : ConfFields :=
  if strEq key (lit "title") then { f with title := strCopy val maxStrLen }
  else if strEq key (lit "linux") then { f with linuxPath := strCopy val maxStrLen }
  else if strEq key (lit "initrd") && f.initrds.length < 4 then
    { f with initrds := f.initrds ++ [strCopy val maxStrLen] }
  else if strEq key (lit "options") then { f with options := strCopy val maxStrLen }
  else f

/-- Key and value of a line; the arrays `key[32]` and `val[256]` start zeroed. -/
def scanSetting (line : List Byte) : Option (List Byte × List Byte) :=
  let key := line.takeWhile fun c => !isSpace c
  let val := (line.dropWhile fun c => !isSpace c).dropWhile isSpace
  if line.isEmpty || line.head? == some 35 then none
  else if key.isEmpty || val.isEmpty then none
  else some (str (key.take 31), str (val.take 255))

def confLine (f : ConfFields) (line : List Byte) : ConfFields :=
  match scanSetting line with
  | none => f
  | some (key, val) => setConfKey f key val

/-- One iteration of the line loop: a run of line ends is skipped behind the line. -/
def confStep (p : List Byte) (f : ConfFields) : List Byte × ConfFields :=
  ((p.dropWhile fun c => !isNewline c).dropWhile isNewline, confLine f (p.takeWhile fun c => !isNewline c))

def scanConf (buf : List Byte) : ConfFields := Lines.readText confStep buf {}

/-! ## Line by line -/

theorem scanConf_pieces (buf : List Byte) : scanConf buf = (buf.splitOnP isNewline).foldl confLine {} := by
  refine Lines.readText_splitOnP (g := confLine) (fun f => rfl) ?_ ?_ buf {}
  · intro l f _ hl
    have hall : ∀ c ∈ l, (!isNewline c) = true := fun c hc => by simp [hl c hc]
    rw [confStep, List.takeWhile_eq_self_iff.mpr hall, List.dropWhile_eq_nil_iff.mpr hall]
    rfl
  · intro l c rest f hl hc
    have hall : ∀ c ∈ l, (!isNewline c) = true := fun c hc => by simp [hl c hc]
    refine ⟨rest.takeWhile isNewline, rest.dropWhile isNewline, fun d hd => List.mem_takeWhile_imp hd,
      List.takeWhile_append_dropWhile.symm, ?_⟩
    rw [confStep, List.takeWhile_append_of_pos hall, List.dropWhile_append_of_pos hall]
    simp [hc]

/-- The keys both readers have a field for. -/
inductive LoaderKey
  | title
  | linux
  | options

namespace LoaderKey

def word : LoaderKey → List Byte
  | title => lit "title"
  | linux => lit "linux"
  | options => lit "options"

/-- The field of `scan_loader_entries`. -/
def scanned : LoaderKey → ConfFields → List Byte
  | title => ConfFields.title
  | linux => ConfFields.linuxPath
  | options => ConfFields.options

/-- The field of `parse_entry_conf`. -/
def parsed : LoaderKey → BootEntry → List Byte
  | title => BootEntry.name
  | linux => BootEntry.kernel
  | options => BootEntry.cmdline

end LoaderKey

/-- What `scan_loader_entries` sets the key to on a piece of the text without line ends. -/
def pieceSets (k : LoaderKey) (piece : List Byte) : Option (List Byte) :=
  match scanSetting piece with
  | none => none
  | some (key, val) => if strEq key k.word then some (strCopy val maxStrLen) else none

/-- The same for a line up to its line feed: every carriage return in it ends a piece. -/
def scanSets (k : LoaderKey) (line : List Byte) : Option (List Byte) :=
  (line.splitOn 13).reverse.findSome? (pieceSets k)

/-- What `parse_entry_conf` sets the key to on a line. -/
def entrySets (k : LoaderKey) (line : List Byte) : Option (List Byte) :=
  match entrySetting line with
  | none => none
  | some (key, val) => if key = k.word then some (fieldOf val) else none

theorem strEq_word_ne {key a b : List Byte} (ha : strEq key a = true) (hab : str a ≠ str b) :
    strEq key b = false := by
  rw [Bool.eq_false_iff]
  intro hb
  exact hab (((strEq_iff key a).mp ha).symm.trans ((strEq_iff key b).mp hb))

theorem scanned_confLine (k : LoaderKey) (f : ConfFields) (piece : List Byte) :
    k.scanned (confLine f piece) = (pieceSets k piece).getD (k.scanned f) := by
  have hdistinct : str (lit "title") ≠ str (lit "linux") ∧ str (lit "title") ≠ str (lit "options") ∧
      str (lit "linux") ≠ str (lit "options") ∧ str (lit "initrd") ≠ str (lit "options") ∧
      str (lit "initrd") ≠ str (lit "title") ∧ str (lit "initrd") ≠ str (lit "linux") := by decide
  obtain ⟨htl, hto, hlo, hio, hit, hil⟩ := hdistinct
  unfold confLine pieceSets
  rcases scanSetting piece with _ | ⟨key, val⟩
  · rfl
  · simp only [setConfKey]
    -- which of the words the key is
    by_cases ht : strEq key (lit "title") = true
    · have hl := strEq_word_ne ht htl
      have ho := strEq_word_ne ht hto
      cases k <;> simp [LoaderKey.scanned, LoaderKey.word, ht, hl, ho]
    · by_cases hl : strEq key (lit "linux") = true
      · have ho := strEq_word_ne hl hlo
        cases k <;> simp [LoaderKey.scanned, LoaderKey.word, ht, hl, ho]
      · by_cases hi : strEq key (lit "initrd") = true
        · have ho := strEq_word_ne hi hio
          by_cases hroom : f.initrds.length < 4 <;>
            cases k <;> simp [LoaderKey.scanned, LoaderKey.word, ht, hl, hi, ho, hroom]
        · by_cases ho : strEq key (lit "options") = true <;>
            cases k <;> simp [LoaderKey.scanned, LoaderKey.word, ht, hl, hi, ho]

theorem parsed_entryLine (k : LoaderKey) (e : BootEntry) (line : List Byte) :
    k.parsed (entryLine e line) = (entrySets k line).getD (k.parsed e) := by
  have hdistinct : lit "linux" ≠ lit "title" ∧ lit "options" ≠ lit "title" ∧ lit "options" ≠ lit "linux" ∧
      lit "initrd" ≠ lit "options" ∧ lit "initrd" ≠ lit "title" ∧ lit "initrd" ≠ lit "linux" ∧
      lit "options" ≠ lit "initrd" := by decide
  obtain ⟨hlt, hot, hol, hio, hit, hil, hoi⟩ := hdistinct
  unfold entryLine entrySets
  rcases entrySetting line with _ | ⟨key, val⟩
  · rfl
  · simp only [setLoaderKey]
    by_cases ht : key = lit "title"
    · cases k <;> simp [LoaderKey.parsed, LoaderKey.word, ht, hlt.symm, hot.symm]
    · by_cases hl : key = lit "linux"
      · cases k <;> simp [LoaderKey.parsed, LoaderKey.word, hl, hlt, hol.symm]
      · by_cases hi : key = lit "initrd"
        · cases k <;> simp [LoaderKey.parsed, LoaderKey.word, hi, hit, hil, hio]
        · by_cases ho : key = lit "options"
          · cases k <;> simp [LoaderKey.parsed, LoaderKey.word, ho, hot, hol, hoi]
          · cases k <;> simp [LoaderKey.parsed, LoaderKey.word, ht, hl, hi, ho]

/-- The last line that sets a key decides, for both readers. -/
theorem scanned_scanConf (k : LoaderKey) (buf : List Byte) :
    k.scanned (scanConf buf) = ((buf.splitOn 10).reverse.findSome? (scanSets k)).getD [] := by
  have hpieces : scanConf buf = (buf.splitOn 10).foldl (fun f line => (line.splitOn 13).foldl confLine f) {} := by
    rw [scanConf_pieces, List.splitOn_eq_splitOnP, ← List.foldl_flatMap]
    congr 1
    exact Lines.splitOnP_flatMap (fun c => rfl) buf
  have hline : ∀ (f : ConfFields) (line : List Byte), k.scanned ((line.splitOn 13).foldl confLine f) =
      (scanSets k line).getD (k.scanned f) := fun f line =>
    Lines.foldl_lastSet (scanned_confLine k) _ f
  have hempty : k.scanned {} = [] := by cases k <;> rfl
  rw [hpieces, Lines.foldl_lastSet hline, hempty]

theorem parsed_parseEntryConf (k : LoaderKey) (buf : List Byte) :
    k.parsed (parseEntryConf buf {}) = ((buf.splitOn 10).reverse.findSome? (entrySets k)).getD [] := by
  have hfield : k.parsed (parseEntryConf buf {}) = k.parsed ((buf.splitOn 10).foldl entryLine {}) := by
    rw [parseEntryConf_lines]
    cases k <;> rfl
  have hempty : k.parsed {} = [] := by cases k <;> rfl
  rw [hfield, Lines.foldl_lastSet (parsed_entryLine k), hempty]

/-! ## When the readers agree -/

/-- The readers extract the same values. -/
def ExtractAgree (buf : List Byte) : Prop :=
  (scanConf buf).title = (parseEntryConf buf {}).name ∧
    (scanConf buf).linuxPath = (parseEntryConf buf {}).kernel ∧
    (scanConf buf).options = (parseEntryConf buf {}).cmdline

/-- The lines from the last one on: the first line that either reader takes as setting the key is taken by both,
with the same value, or it repeats what the other reader has from the lines before it. -/
def AlikeFromEnd (k : LoaderKey) : List (List Byte) → Prop
  | [] => True
  | line :: before =>
    match scanSets k line, entrySets k line with
    | none, none => AlikeFromEnd k before
    | some a, some b => a = b
    | some a, none => a = (before.findSome? (entrySets k)).getD []
    | none, some b => b = (before.findSome? (scanSets k)).getD []

theorem alikeFromEnd_iff (k : LoaderKey) (lines : List (List Byte)) :
    (lines.findSome? (scanSets k)).getD [] = (lines.findSome? (entrySets k)).getD [] ↔
      AlikeFromEnd k lines := by
  induction lines with
  | nil => exact ⟨fun _ => trivial, fun _ => rfl⟩
  | cons line before ih =>
    rw [AlikeFromEnd, List.findSome?_cons, List.findSome?_cons]
    cases scanSets k line with
    | none =>
      cases entrySets k line with
      | none => exact ih
      | some b => exact eq_comm
    | some a =>
      cases entrySets k line with
      | none => exact Iff.rfl
      | some b => exact Iff.rfl

theorem key_agree_iff (k : LoaderKey) (buf : List Byte) :
    k.scanned (scanConf buf) = k.parsed (parseEntryConf buf {}) ↔ AlikeFromEnd k (buf.splitOn 10).reverse := by
  rw [scanned_scanConf, parsed_parseEntryConf]
  exact alikeFromEnd_iff k _

theorem extractAgree_iff_keys (buf : List Byte) :
    ExtractAgree buf ↔ ∀ k : LoaderKey, k.scanned (scanConf buf) = k.parsed (parseEntryConf buf {}) := by
  constructor
  · rintro ⟨ht, hl, ho⟩ k
    cases k with
    | title => exact ht
    | linux => exact hl
    | options => exact ho
  · intro h
    exact ⟨h .title, h .linux, h .options⟩

/-- `key value`, with blanks only between the two and at most a carriage return behind the value. -/
structure PlainLine (line : List Byte) : Prop where
  parts : ∃ key blanks val cr, line = key ++ (blanks ++ (val ++ cr)) ∧
    (∀ c ∈ key, isSpace c = false ∧ c ≠ 13 ∧ c ≠ 0) ∧ key ≠ [] ∧ key.head? ≠ some 35 ∧ key.length ≤ 31 ∧
    (∀ c ∈ blanks, isSpace c = true) ∧ blanks ≠ [] ∧
    (∀ c ∈ val, c ≠ 13) ∧ val ≠ [] ∧ (∀ c ∈ val.head?, isSpace c = false) ∧
    (∀ c ∈ val.getLast?, isSpace c = false) ∧ (cr = [] ∨ cr = [13])

theorem str_take_idem (val : List Byte) : strCopy (str (val.take 255)) maxStrLen = fieldOf val := by
  have hstr : str (str (val.take 255)) = str (val.take 255) :=
    str_of_no_nul fun c hc => (mem_takeC hc).1
  have hlen : (str (val.take 255)).length ≤ 255 := by
    have h := (List.takeWhile_sublist (fun c : Byte => c != 0 && true) (l := val.take 255)).length_le
    rw [List.length_take] at h
    exact le_trans h (by omega)
  rw [strCopy, hstr]
  exact List.take_of_length_le hlen

theorem takeWhile_append_stop {f : Byte → Bool} {a b : List Byte} (ha : ∀ c ∈ a, f c = true)
    (hb : ∀ c ∈ b.head?, f c = false) :
    (a ++ b).takeWhile f = a ∧ (a ++ b).dropWhile f = b := by
  rw [List.takeWhile_append_of_pos ha, List.dropWhile_append_of_pos ha]
  cases b with
  | nil => simp
  | cons x b =>
    have hx : f x = false := hb x rfl
    simp [hx]

theorem plain_key {key blanks : List Byte} (hkey : ∀ c ∈ key, isSpace c = false)
    (hblanks : ∀ c ∈ blanks, isSpace c = true) (hblanksNe : blanks ≠ []) (l : List Byte) :
    (key ++ (blanks ++ l)).takeWhile (fun c => !isSpace c) = key ∧
      (key ++ (blanks ++ l)).dropWhile (fun c => !isSpace c) = blanks ++ l := by
  refine takeWhile_append_stop (fun c hc => by simp [hkey c hc]) fun c hc => ?_
  obtain ⟨b, bs, rfl⟩ := List.exists_cons_of_ne_nil hblanksNe
  obtain rfl : b = c := by simpa using hc
  simp [hblanks b (by simp)]

theorem plain_blanks {blanks val : List Byte} (hblanks : ∀ c ∈ blanks, isSpace c = true) (hvalNe : val ≠ [])
    (hvalHead : ∀ c ∈ val.head?, isSpace c = false) (l : List Byte) :
    (blanks ++ (val ++ l)).dropWhile isSpace = val ++ l := by
  refine (takeWhile_append_stop hblanks fun c hc => ?_).2
  obtain ⟨v, vs, rfl⟩ := List.exists_cons_of_ne_nil hvalNe
  exact hvalHead c hc

theorem scanSets_cr (k : LoaderKey) {body cr : List Byte} (hbody : ∀ c ∈ body, (c == 13) = false)
    (hcr : cr = [] ∨ cr = [13]) : scanSets k (body ++ cr) = pieceSets k body := by
  rcases hcr with rfl | rfl
  · rw [List.append_nil, scanSets, List.splitOn_eq_splitOnP, List.splitOnP_eq_singleton hbody]
    cases h : pieceSets k body <;> simp [h]
  · have hnone : pieceSets k [] = none := rfl
    rw [scanSets, List.splitOn_eq_splitOnP, List.splitOnP_append_cons_of_forall_mem hbody 13 rfl, List.splitOnP_nil]
    cases h : pieceSets k body <;> simp [h, hnone]

theorem plainLine_alike {line : List Byte} (h : PlainLine line) (k : LoaderKey) :
    scanSets k line = entrySets k line := by
  obtain ⟨key, blanks, val, cr, rfl, hkey, hkeyNe, hkeyHead, hkeyLen, hblanks, hblanksNe, hval, hvalNe,
    hvalHead, hvalLast, hcr⟩ := h.parts
  have hkeySplit := plain_key (fun c hc => (hkey c hc).1) hblanks hblanksNe
  have hblankSplit := plain_blanks hblanks hvalNe hvalHead
  have hbody : ∀ c ∈ key ++ (blanks ++ val), (c == 13) = false := by
    intro c hc
    rcases List.mem_append.mp hc with hc | hc
    · simpa using (hkey c hc).2.1
    · rcases List.mem_append.mp hc with hc | hc
      · have hs := hblanks c hc
        rcases Bool.or_eq_true_iff.mp hs with h | h <;> rw [eq_of_beq h] <;> rfl
      · simpa using hval c hc
  have hscanLine : scanSets k (key ++ (blanks ++ (val ++ cr))) = pieceSets k (key ++ (blanks ++ val)) := by
    rw [← scanSets_cr k hbody hcr, List.append_assoc, List.append_assoc]
  obtain ⟨c, cs, hkeyCons⟩ := List.exists_cons_of_ne_nil hkeyNe
  have hc35 : c ≠ 35 := fun h => hkeyHead (by rw [hkeyCons, h]; rfl)
  have hscan : scanSetting (key ++ (blanks ++ val)) = some (key, str (val.take 255)) := by
    have hsplit := hkeySplit val
    have hb := hblankSplit []
    rw [List.append_nil] at hb
    rw [scanSetting, hsplit.1, hsplit.2, hb, List.take_of_length_le hkeyLen, str_of_no_nul fun c hc => (hkey c hc).2.2,
      if_neg, if_neg]
    · simp [hkeyNe, hvalNe]
    · rw [hkeyCons]
      simp [hc35]
  have hentry : entrySetting (key ++ (blanks ++ (val ++ cr))) = some (key, val) := by
    have hsplit := hkeySplit (val ++ cr)
    have hcfacts := hkey c (by simp [hkeyCons])
    have hfirst : (key ++ (blanks ++ (val ++ cr))).dropWhile isSpace = key ++ (blanks ++ (val ++ cr)) := by
      rw [hkeyCons, List.cons_append, List.dropWhile_cons_of_neg (by simp [hcfacts.1])]
    have hstop : ∀ d ∈ cr.head?, (d != 13) = false := by
      rcases hcr with rfl | rfl
      · simp
      · intro d hd
        obtain rfl : (13 : Byte) = d := by simpa using hd
        rfl
    have htake : (val ++ cr).takeWhile (· != 13) = val :=
      (takeWhile_append_stop (fun d hd => by simpa using hval d hd) hstop).1
    have htrim : val.rdropWhile isSpace = val := by
      refine List.rdropWhile_eq_self_iff.mpr fun hne => ?_
      rw [hvalLast _ (List.getLast?_eq_some_getLast hne)]
      decide
    have hline : key ++ (blanks ++ (val ++ cr)) = c :: (cs ++ (blanks ++ (val ++ cr))) := by
      rw [hkeyCons, List.cons_append]
    have hcond : ¬(c == 35 || c == 13) = true := by simp [hc35, hcfacts.2.1]
    unfold entrySetting
    rw [hfirst, hline]
    dsimp only
    rw [if_neg hcond, ← hline, hsplit.1, hsplit.2, hblankSplit cr, htake, htrim]
  have hword : strEq key k.word = true ↔ key = k.word := by
    have hwordStr : str k.word = k.word := by cases k <;> decide
    rw [strEq_iff, str_of_no_nul fun c hc => (hkey c hc).2.2, hwordStr]
  rw [hscanLine, pieceSets, hscan, entrySets, hentry]
  dsimp only
  rw [str_take_idem]
  by_cases hk : key = k.word
  · rw [if_pos hk, if_pos (hword.mpr hk)]
  · rw [if_neg hk, if_neg fun h => hk (hword.mp h)]

theorem alikeFromEnd_of_forall {k : LoaderKey} {lines : List (List Byte)}
    (h : ∀ line ∈ lines, scanSets k line = entrySets k line) : AlikeFromEnd k lines := by
  induction lines with
  | nil => trivial
  | cons line before ih =>
    rw [AlikeFromEnd, h line (by simp)]
    cases entrySets k line with
    | none => exact ih fun l hl => h l (by simp [hl])
    | some b => rfl

/-- A file of lines of the documented form and empty lines is read alike. -/
theorem extractAgree_of_plain {buf : List Byte} (h : ∀ line ∈ buf.splitOn 10, PlainLine line ∨ line = []) :
    ExtractAgree buf := by
  refine (extractAgree_iff_keys buf).mpr fun k => (key_agree_iff k buf).mpr ?_
  refine alikeFromEnd_of_forall fun line hline => ?_
  rcases h line (List.mem_reverse.mp hline) with hplain | rfl
  · exact plainLine_alike hplain k
  · cases k <;> rfl

end SakuruBoot

import SakuruBoot.Uefi.Discovery
import SakuruBoot.Uefi.LoaderConf

/-!
# Names taken from files

A kernel gets its display name from its file name without `.elf`, and a loader entry without a title from its file name
without `.conf`. Both loops stop at the first dot of the name (`stripElf_append`), so the name is the base exactly when the
base has no dot; the title must be ASCII as well (`defaultTitle_iff`, `entryNames_iff`).
-/

namespace SakuruBoot
open CStr

/-! ## Extensions -/

theorem toLower_eq_iff : ∀ c : Byte, (toLower c = 0 ↔ c = 0) ∧ (toLower c = 46 ↔ c = 46) := by decide +kernel

/-- A spelling of `.elf`. -/
def SpellsElf (ext : List Byte) : Prop := ext.map toLower = lit ".elf"

theorem SpellsElf.no_nul {ext : List Byte} (h : SpellsElf ext) : ∀ c ∈ ext, c ≠ 0 := by
  rintro c hc rfl
  have hmem : toLower 0 ∈ ext.map toLower := List.mem_map_of_mem hc
  rw [h] at hmem
  exact absurd hmem (by decide)

theorem SpellsElf.head {ext : List Byte} (h : SpellsElf ext) : ∃ rest, ext = 46 :: rest := by
  cases ext with
  | nil => exact absurd (show [] = lit ".elf" from h) (by decide)
  | cons c rest =>
    have hc : toLower c = 46 := List.head_eq_of_cons_eq (h.trans (by decide : lit ".elf" = 46 :: lit "elf"))
    exact ⟨rest, by rw [((toLower_eq_iff c).2).mp hc]⟩

theorem endsWithCi_elf {b ext : List Byte} (hb : ∀ c ∈ b, c ≠ 0) (hext : SpellsElf ext) :
    endsWithCi (b ++ ext) (lit ".elf") = true := by
  have hno : ∀ c ∈ b ++ ext, c ≠ 0 := by
    intro c hc
    rcases List.mem_append.mp hc with h | h
    · exact hb c h
    · exact hext.no_nul c h
  have hword : str (lit ".elf") = lit ".elf" ∧ (lit ".elf").map toLower = lit ".elf" ∧ (lit ".elf").length = 4 := by
    decide
  have hlen : ext.length = 4 := by
    rw [← List.length_map (f := toLower), hext, hword.2.2]
  unfold endsWithCi
  dsimp only
  rw [str_of_no_nul hno, hword.1, hword.2.1, hword.2.2, List.length_append, hlen, if_neg (by omega),
    Nat.add_sub_cancel, List.drop_left, hext]
  exact beq_self_eq_true _

theorem stripElf_append {b ext : List Byte} (hb : ∀ c ∈ b, c ≠ 0) (hext : SpellsElf ext) :
    stripElf (b ++ ext) = b.takeWhile (· != 46) := by
  induction b with
  | nil =>
    have hends := endsWithCi_elf hb hext
    obtain ⟨rest, rfl⟩ := hext.head
    rw [List.nil_append] at hends ⊢
    rw [stripElf, if_pos (by simp [hends])]
    rfl
  | cons c b ih =>
    have hc : c ≠ 0 := hb c List.mem_cons_self
    have hrest := ih fun d hd => hb d (List.mem_cons_of_mem _ hd)
    have hends := endsWithCi_elf hb hext
    rw [List.cons_append] at hends ⊢
    rw [stripElf, hends, Bool.and_true, List.takeWhile_cons]
    by_cases hdot : c = 46
    · rw [if_pos (by simp [hdot]), if_neg (by simp [hdot])]
    · rw [if_neg (by simp [hc, hdot]), if_pos (by simpa using hdot), hrest]

theorem cfgStrEqCi_iff (a b : List Byte) : cfgStrEqCi a b = true ↔ (str a).map toLower = (str b).map toLower := by
  induction a generalizing b with
  | nil =>
    cases b with
    | nil => simp [cfgStrEqCi, deref, str, takeC]
    | cons y b => by_cases hy : y = 0 <;> simp [cfgStrEqCi, deref, hy, str, takeC]
  | cons x a ih =>
    cases b with
    | nil => by_cases hx : x = 0 <;> simp [cfgStrEqCi, hx, str, takeC]
    | cons y b =>
      by_cases hx : x = 0
      · by_cases hy : y = 0 <;> simp [cfgStrEqCi, str_cons, hx, hy]
      · by_cases hy : y = 0
        · simp [cfgStrEqCi, str_cons, hx, hy]
        · by_cases heq : toLower x = toLower y <;> simp [cfgStrEqCi, str_cons, hx, hy, heq, ih]

theorem cfgStrEqCi_kernel {b ext : List Byte} (hb : ∀ c ∈ b, c ≠ 0) (hext : SpellsElf ext) :
    cfgStrEqCi (b ++ ext) (lit "kernel.elf") = decide (b.map toLower = lit "kernel") ∧
      cfgStrEqCi (b ++ ext) (lit "kernel") = false := by
  have hno : ∀ c ∈ b ++ ext, c ≠ 0 := by
    intro c hc
    rcases List.mem_append.mp hc with h | h
    · exact hb c h
    · exact hext.no_nul c h
  have hwords : (str (lit "kernel.elf")).map toLower = lit "kernel" ++ lit ".elf" ∧
      (str (lit "kernel")).map toLower = lit "ke" ++ lit "rnel" ∧ lit "rnel" ≠ lit ".elf" ∧
      (lit "rnel").length = (lit ".elf").length := by
    decide
  obtain ⟨helf, hplain, hne, hlen⟩ := hwords
  constructor
  · rw [Bool.eq_iff_iff, cfgStrEqCi_iff, str_of_no_nul hno, List.map_append, hext, helf, decide_eq_true_iff]
    exact List.append_left_inj (lit ".elf")
  · rw [Bool.eq_false_iff, Ne, cfgStrEqCi_iff, str_of_no_nul hno, List.map_append, hext, hplain]
    intro h
    exact hne (List.append_inj_right' h hlen.symm).symm

/-- The display name of a kernel is the part of its base before the first dot. -/
theorem configMakeName_elf (dir : List Byte) {b ext : List Byte} {max : Nat} (hb : ∀ c ∈ b, c ≠ 0)
    (hext : SpellsElf ext) (hmax : b.length < max) (hkernel : b.map toLower ≠ lit "kernel") :
    configMakeName dir (b ++ ext) .elf64 max = b.takeWhile (· != 46) := by
  obtain ⟨helf, hplain⟩ := cfgStrEqCi_kernel hb hext
  have hshort : (b.takeWhile (· != 46)).length ≤ max - 1 := by
    have := (List.takeWhile_sublist (· != 46) (l := b)).length_le
    omega
  unfold configMakeName
  dsimp only
  rw [helf, hplain, decide_eq_false hkernel, Bool.or_false, if_neg Bool.false_ne_true, stripElf_append hb hext,
    List.take_of_length_le hshort]

/-! ## Titles of loader entries -/

/-- The title before the file is read. -/
def defaultTitle (fname : List UInt16) : List Byte := (ucs2ToAscii fname maxStrLen).takeWhile (· != 46)

theorem entryOfFile_name {root : FatVolume} {info : FileInfo} {fbuf : List Byte} {e : BootEntry}
    (hfile : root.entryFile info.name = some fbuf)
    (htitle : ∀ line ∈ (fbuf.take 4095).splitOn 10, entrySets .title line = none)
    (he : entryOfFile root info = some e) : e.name = defaultTitle info.name := by
  have hname : ∀ e : BootEntry, (parseEntryConf (fbuf.take 4095) e).name = e.name := by
    intro e
    have hlast := Lines.foldl_lastSet (parsed_entryLine .title) ((fbuf.take 4095).splitOn 10) e
    have hnone : (((fbuf.take 4095).splitOn 10).reverse.findSome? (entrySets .title)) = none := by
      rw [List.findSome?_eq_none_iff]
      intro line hline
      exact htitle line (List.mem_reverse.mp hline)
    rw [hnone] at hlast
    rw [parseEntryConf_lines]
    exact hlast
  unfold entryOfFile at he
  rw [hfile] at he
  dsimp only at he
  split_ifs at he
  rw [← Option.some.inj he, hname]
  rfl

theorem mask_lt (w : UInt16) : (w &&& 0x7f).toUInt8.toUInt16 < 128 := by
  have hand : w.toNat &&& 127 ≤ 127 := Nat.and_le_right
  rw [UInt16.lt_iff_toNat_lt]
  simp only [UInt8.toNat_toUInt16, UInt16.toNat_toUInt8, UInt16.toNat_and, UInt16.reduceToNat]
  omega

theorem mask_of_lt {w : UInt16} (h : w < 128) : (w &&& 0x7f).toUInt8.toUInt16 = w := by
  have hlt : w.toNat < 128 := UInt16.lt_iff_toNat_lt.mp h
  have hand : w.toNat &&& 127 = w.toNat := (Nat.and_two_pow_sub_one_eq_mod w.toNat 7).trans (Nat.mod_eq_of_lt hlt)
  apply UInt16.toNat_inj.mp
  simp only [UInt8.toNat_toUInt16, UInt16.toNat_toUInt8, UInt16.toNat_and, UInt16.reduceToNat, hand]
  omega

/-- The default title keeps the base of an ASCII name without dots, and no other. -/
theorem defaultTitle_iff {b ext : List UInt16} (hb : ∀ c ∈ b, c ≠ 0) (hlen : b.length < maxStrLen)
    (hext : ext.head? = some 46) :
    (defaultTitle (b ++ ext)).map UInt8.toUInt16 = b ↔ ∀ c ∈ b, c < 128 ∧ c ≠ 46 := by
  constructor
  · intro h c hc
    rw [← h] at hc
    obtain ⟨d, hd, rfl⟩ := List.mem_map.mp hc
    have hdot : d ≠ 46 := by simpa using List.mem_takeWhile_imp hd
    obtain ⟨w, -, rfl⟩ := List.mem_map.mp ((List.takeWhile_sublist _).mem ((List.takeWhile_sublist _).mem hd))
    refine ⟨mask_lt w, fun h46 => hdot ?_⟩
    exact UInt8.toNat_inj.mp (by simpa using congrArg UInt16.toNat h46)
  · intro h
    have hmask : ∀ c ∈ b, (c &&& 0x7f).toUInt8 ≠ 0 ∧ (c &&& 0x7f).toUInt8 ≠ 46 := by
      intro c hc
      have hback := mask_of_lt (h c hc).1
      constructor
      · intro h0
        rw [h0] at hback
        exact hb c hc hback.symm
      · intro h46
        rw [h46] at hback
        exact (h c hc).2 hback.symm
    -- what is left of the extension starts with its dot
    obtain ⟨rest, rfl⟩ : ∃ rest, ext = 46 :: rest := List.head?_eq_some_iff.mp hext
    have htail : ∀ n, (str (((46 :: rest : List UInt16).take n).map fun c => (c &&& 0x7f).toUInt8)).takeWhile (· != 46) =
        [] := by
      intro n
      cases n with
      | zero => rfl
      | succ n =>
        have hdot : ((46 : UInt16) &&& 0x7f).toUInt8 = 46 := rfl
        rw [List.take_succ_cons, List.map_cons, hdot, str_cons, if_neg (by decide)]
        rfl
    have htake : (b ++ 46 :: rest).take (maxStrLen - 1) = b ++ (46 :: rest).take (maxStrLen - 1 - b.length) := by
      rw [List.take_append, List.take_of_length_le (by omega)]
    have hstr : ∀ l : List Byte, str (b.map (fun c => (c &&& 0x7f).toUInt8) ++ l) =
        b.map (fun c => (c &&& 0x7f).toUInt8) ++ str l := by
      intro l
      apply List.takeWhile_append_of_pos
      intro d hd
      obtain ⟨c, hc, rfl⟩ := List.mem_map.mp hd
      simpa using (hmask c hc).1
    unfold defaultTitle ucs2ToAscii
    rw [htake, List.map_append, hstr, List.takeWhile_append_of_pos, htail, List.append_nil, List.map_map]
    · conv_rhs => rw [← List.map_id b]
      exact List.map_congr_left fun c hc => mask_of_lt (h c hc).1
    · intro d hd
      obtain ⟨c, hc, rfl⟩ := List.mem_map.mp hd
      simpa using (hmask c hc).2

/-! ## Both kinds of names -/

/-- A file of `/loader/entries` with a kernel and no title of its own. -/
structure UntitledConf (root : FatVolume) (info : FileInfo) (e : BootEntry) : Prop where
  entry_eq : entryOfFile root info = some e
  no_title : ∀ fbuf, root.entryFile info.name = some fbuf →
    ∀ line ∈ (fbuf.take 4095).splitOn 10, entrySets .title line = none

theorem UntitledConf.name_eq {root : FatVolume} {info : FileInfo} {e : BootEntry} (h : UntitledConf root info e) :
    e.name = defaultTitle info.name := by
  cases hfile : root.entryFile info.name with
  | none =>
    have he := h.entry_eq
    unfold entryOfFile at he
    rw [hfile] at he
    split_ifs at he
  | some fbuf => exact entryOfFile_name hfile (h.no_title fbuf hfile) h.entry_eq

theorem takeWhile_dot_iff (b : List Byte) : b.takeWhile (· != 46) = b ↔ 46 ∉ b := by
  rw [List.takeWhile_eq_self_iff]
  constructor
  · intro h hmem
    exact absurd (h 46 hmem) (by decide)
  · intro h c hc
    have hne : c ≠ 46 := fun heq => h (heq ▸ hc)
    simpa using hne

/-- A kernel file `b ++ ext` whose base is shorter than the output limit; `kernel.elf` is named after its directory. -/
structure ElfFile (b ext : List Byte) (max : Nat) : Prop where
  no_nul : ∀ c ∈ b, c ≠ 0
  spells : SpellsElf ext
  length_lt : b.length < max
  ne_kernel : b.map toLower ≠ lit "kernel"

theorem configMakeName_iff (dir : List Byte) {b ext : List Byte} {max : Nat} (h : ElfFile b ext max) :
    configMakeName dir (b ++ ext) .elf64 max = b ↔ 46 ∉ b := by
  rw [configMakeName_elf dir h.no_nul h.spells h.length_lt h.ne_kernel]
  exact takeWhile_dot_iff b

/-- A loader entry from the file `b ++ ext` with the title `b` is to be. -/
structure ConfFile (b : List UInt16) (e : BootEntry) : Prop where
  untitled : ∃ root info ext, UntitledConf root info e ∧ info.name = b ++ ext ∧ ext.length = 5
  no_nul : ∀ c ∈ b, c ≠ 0
  length_lt : b.length < maxStrLen

theorem title_iff {b : List UInt16} {e : BootEntry} (h : ConfFile b e) :
    e.name.map UInt8.toUInt16 = b ↔ ∀ c ∈ b, c < 128 ∧ c ≠ 46 := by
  obtain ⟨root, info, ext, hconf, hname, hlen⟩ := h.untitled
  have hext : ext.head? = some 46 := by
    have he := hconf.entry_eq
    unfold entryOfFile at he
    split_ifs at he with hskip
    rw [Bool.or_eq_true, not_or] at hskip
    have hends : ucs2EndsWithConf (b ++ ext) = true := by
      rw [← hname]
      simpa using hskip.2
    unfold ucs2EndsWithConf at hends
    rw [List.length_append, hlen, Nat.add_sub_cancel, List.drop_left] at hends
    rcases ext with _ | ⟨dot, ext⟩
    · cases hlen
    · split at hends
      · rename_i heq
        have hdot : dot = 46 := by
          obtain ⟨rfl, -⟩ := List.cons.inj heq
          simp only [Bool.and_eq_true, beq_iff_eq] at hends
          exact hends.2.1.1.1.1
        rw [hdot]
        rfl
      · simp at hends
  rw [hconf.name_eq, hname]
  exact defaultTitle_iff h.no_nul h.length_lt hext

/-- The name of a kernel file is its base exactly when the base has no dot, and the title of a loader entry when it is
ASCII without a dot. Different bases of that kind have different names. -/
theorem entryNames_iff (max : Nat) :
    (∀ dir b ext : List Byte, ElfFile b ext max →
        (configMakeName dir (b ++ ext) .elf64 max = b ↔ 46 ∉ b)) ∧
      (∀ dir b ext dir' b' ext' : List Byte, ElfFile b ext max → ElfFile b' ext' max → 46 ∉ b → 46 ∉ b' →
        b ≠ b' → configMakeName dir (b ++ ext) .elf64 max ≠ configMakeName dir' (b' ++ ext') .elf64 max) ∧
      (∀ (b : List UInt16) (e : BootEntry), ConfFile b e →
        (e.name.map UInt8.toUInt16 = b ↔ ∀ c ∈ b, c < 128 ∧ c ≠ 46)) ∧
      ∀ (b b' : List UInt16) (e e' : BootEntry), ConfFile b e → ConfFile b' e' → (∀ c ∈ b, c < 128 ∧ c ≠ 46) →
        (∀ c ∈ b', c < 128 ∧ c ≠ 46) → b ≠ b' → e.name ≠ e'.name := by
  refine ⟨?_, ?_, ?_, ?_⟩
  · intro dir b ext h
    exact configMakeName_iff dir h
  · intro dir b ext dir' b' ext' h h' hdot hdot' hne heq
    rw [(configMakeName_iff dir h).mpr hdot, (configMakeName_iff dir' h').mpr hdot'] at heq
    exact hne heq
  · intro b e h
    exact title_iff h
  · intro b b' e e' h h' hok hok' hne heq
    apply hne
    rw [← (title_iff h).mpr hok, ← (title_iff h').mpr hok', heq]

theorem elfFile_myos : ElfFile (lit "myos") (lit ".ELF") 256 where
  no_nul := by decide +kernel
  spells := show (lit ".ELF").map toLower = lit ".elf" by decide
  length_lt := by decide
  ne_kernel := by decide

theorem entryNames_myos : ElfFile (lit "myos") (lit ".ELF") 256 ∧
    configMakeName (lit "/boot") (lit "myos" ++ lit ".ELF") .elf64 256 = lit "myos" :=
  ⟨elfFile_myos, ((entryNames_iff 256).1 (lit "/boot") (lit "myos") (lit ".ELF") elfFile_myos).mpr (by decide)⟩

/-- A version number is cut at its dot, and two of them get one name. -/
theorem version_name_cut :
    configMakeName (lit "/boot") (lit "vios-1.2.elf") .elf64 256 = lit "vios-1" ∧
      configMakeName (lit "/boot") (lit "vios-1.3.elf") .elf64 256 = lit "vios-1" ∧ lit "vios-1" ≠ lit "vios-1.2" ∧
      lit "vios-1.2.elf" = lit "vios-1.2" ++ lit ".elf" ∧
      defaultTitle ((lit "linux-6.12.1.conf").map UInt8.toUInt16) = lit "linux-6" := by
  decide

end SakuruBoot

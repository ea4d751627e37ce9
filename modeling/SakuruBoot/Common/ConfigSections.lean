import SakuruBoot.Common.ConfigText

/-!
# Sections and the table limit

A document is a list of global lines and a list of sections. While the table has room every section
becomes an entry of its own (`foldl_sections`); a header on a full table is skipped, but the parser's
pointer stays on the last entry, so the settings behind it go there (`foldl_overflow`).
`sections_isolated_iff` says when that makes no difference.
-/

namespace SakuruBoot
open CStr

def ConfigItem.isHeader : ConfigItem → Bool
  | .header _ => true
  | _ => false

structure ConfigSection where
  name : List Byte
  body : List ConfigItem
  body_ok : ∀ item ∈ body, item.isHeader = false

structure ConfigDoc where
  globals : List ConfigItem
  sections : List ConfigSection
  globals_ok : ∀ item ∈ globals, item.isHeader = false

/-- What a line of a section does to its entry. -/
def settingEntry (e : BootEntry) : ConfigItem → BootEntry
  | .setting line =>
    match parseKv line 64 maxStrLen with
    | none => e
    | some (key, val) => setEntry e key val
  | _ => e

namespace ConfigSection

def items (s : ConfigSection) : List ConfigItem := .header s.name :: s.body

/-- The entry of a section on its own. -/
def entry (s : ConfigSection) : BootEntry := s.body.foldl settingEntry (newEntry s.name)

end ConfigSection

def ConfigDoc.items (doc : ConfigDoc) : List ConfigItem :=
  doc.globals ++ doc.sections.flatMap ConfigSection.items

variable {merge : Bool} {cfg : BootConfig}

/-! ## Lines of a section -/

theorem modify_modify {α : Type} (l : List α) (i : Nat) (f g : α → α) :
    (l.modify i f).modify i g = l.modify i (g ∘ f) := by
  refine List.ext_getElem? fun j => ?_
  by_cases h : i = j
  · subst h
    simp
  · simp [h]

theorem foldl_body {body : List ConfigItem} (hbody : ∀ item ∈ body, item.isHeader = false)
    (entries : List BootEntry) (i : Nat) :
    body.foldl (ConfigItem.apply merge) ({ cfg with entries := entries }, some i) =
      ({ cfg with entries := entries.modify i fun e => body.foldl settingEntry e }, some i) := by
  induction body generalizing entries with
  | nil =>
    have hid : entries.modify i (fun e => [].foldl settingEntry e) = entries := List.modify_id i entries
    rw [hid]
    rfl
  | cons item body ih =>
    have hstep : ConfigItem.apply merge ({ cfg with entries := entries }, some i) item =
        ({ cfg with entries := entries.modify i fun e => settingEntry e item }, some i) := by
      cases item with
      | comment mark text =>
        have hid : entries.modify i (fun e => settingEntry e (.comment mark text)) = entries :=
          List.modify_id i entries
        rw [hid]
        rfl
      | header name => exact Bool.noConfusion (hbody (.header name) List.mem_cons_self)
      | setting line =>
        rcases hkv : parseKv line 64 maxStrLen with _ | ⟨key, val⟩
        · have hid : entries.modify i (fun e => settingEntry e (.setting line)) = entries := by
            simp only [settingEntry, hkv]
            exact List.modify_id i entries
          rw [hid]
          simp only [ConfigItem.apply, applyLine, hkv]
        · simp only [ConfigItem.apply, applyLine, hkv, applySetting, settingEntry]
    rw [List.foldl_cons, hstep, ih fun item hitem => hbody item (by simp [hitem]), modify_modify]
    rfl

theorem foldl_section (merge : Bool) (cfg : BootConfig) (s : ConfigSection) {entries : List BootEntry}
    (hroom : entries.length < maxEntries) (cur : Option Nat) :
    s.items.foldl (ConfigItem.apply merge) ({ cfg with entries := entries }, cur) =
      ({ cfg with entries := entries ++ [s.entry] }, some entries.length) := by
  have hheader : ConfigItem.apply merge ({ cfg with entries := entries }, cur) (.header s.name) =
      ({ cfg with entries := entries ++ [newEntry s.name] }, some entries.length) := if_pos hroom
  have hlast : (entries ++ [newEntry s.name]).modify entries.length
      (fun e => s.body.foldl settingEntry e) = entries ++ [s.entry] := by
    refine List.ext_getElem? fun j => ?_
    rcases Nat.lt_trichotomy j entries.length with h | h | h
    · rw [List.getElem?_modify_ne _ _ (by omega), List.getElem?_append_left h,
        List.getElem?_append_left h]
    · subst h
      simp [ConfigSection.entry]
    · rw [List.getElem?_eq_none (by simp; omega), List.getElem?_eq_none (by simp; omega)]
  rw [ConfigSection.items, List.foldl_cons, hheader, foldl_body s.body_ok, hlast]

theorem foldl_sections (merge : Bool) (cfg : BootConfig) (sections : List ConfigSection)
    {entries : List BootEntry} (hroom : entries.length + sections.length ≤ maxEntries) (cur : Option Nat) :
    (sections.flatMap ConfigSection.items).foldl (ConfigItem.apply merge)
        ({ cfg with entries := entries }, cur) =
      ({ cfg with entries := entries ++ sections.map ConfigSection.entry },
        if sections = [] then cur else some (entries.length + sections.length - 1)) := by
  induction sections generalizing entries cur with
  | nil => simp
  | cons s sections ih =>
    rw [List.length_cons] at hroom
    rw [List.flatMap_cons, List.foldl_append, foldl_section merge cfg s (by omega),
      ih (by rw [List.length_append, List.length_singleton]; omega)]
    rw [List.append_assoc, List.map_cons, List.singleton_append, List.length_append]
    congr 1
    by_cases hnil : sections = []
    · subst hnil
      simp
    · rw [if_neg hnil, if_neg (by simp), List.length_singleton, List.length_cons]
      congr 1
      omega

/-! ## A full table -/

/-- On a full table the lines of all further sections go to the current entry. -/
theorem foldl_overflow (sections : List ConfigSection) {entries : List BootEntry}
    (hfull : maxEntries ≤ entries.length) (i : Nat) :
    (sections.flatMap ConfigSection.items).foldl (ConfigItem.apply merge)
        ({ cfg with entries := entries }, some i) =
      ({ cfg with entries := entries.modify i fun e =>
          (sections.flatMap ConfigSection.body).foldl settingEntry e }, some i) := by
  induction sections generalizing entries with
  | nil =>
    have hid : entries.modify i (fun e => (([] : List ConfigSection).flatMap ConfigSection.body).foldl
        settingEntry e) = entries := List.modify_id i entries
    rw [hid]
    rfl
  | cons s sections ih =>
    have hheader : ConfigItem.apply merge ({ cfg with entries := entries }, some i) (.header s.name) =
        ({ cfg with entries := entries }, some i) := if_neg (by dsimp only [BootConfig.numEntries]; omega)
    rw [List.flatMap_cons, List.foldl_append, ConfigSection.items, List.foldl_cons, hheader,
      foldl_body s.body_ok, ih (by rw [List.length_modify]; exact hfull), modify_modify, List.flatMap_cons]
    simp only [List.foldl_append]
    rfl

theorem foldl_merge_full {items : List ConfigItem} (hfull : maxEntries ≤ cfg.numEntries) :
    items.foldl (ConfigItem.apply true) (cfg, none) = (cfg, none) := by
  induction items with
  | nil => rfl
  | cons item items ih =>
    have hstep : ConfigItem.apply true (cfg, none) item = (cfg, none) := by
      cases item with
      | comment mark body => rfl
      | header name => exact if_neg (by dsimp only; omega)
      | setting line =>
        simp only [ConfigItem.apply, applyLine]
        rcases parseKv line 64 maxStrLen with _ | ⟨key, val⟩ <;> rfl
    rw [List.foldl_cons, hstep, ih]

theorem foldl_globals (merge : Bool) {items : List ConfigItem} (hitems : ∀ item ∈ items, item.isHeader = false)
    (cfg : BootConfig) :
    (items.foldl (ConfigItem.apply merge) (cfg, none)).1.entries = cfg.entries ∧
      (items.foldl (ConfigItem.apply merge) (cfg, none)).2 = none := by
  induction items generalizing cfg with
  | nil => exact ⟨rfl, rfl⟩
  | cons item items ih =>
    have hstep : ∃ cfg', ConfigItem.apply merge (cfg, none) item = (cfg', none) ∧
        cfg'.entries = cfg.entries := by
      cases item with
      | comment mark body => exact ⟨cfg, rfl, rfl⟩
      | header name => exact Bool.noConfusion (hitems (.header name) List.mem_cons_self)
      | setting line =>
        refine ⟨applyLine merge cfg none line, rfl, ?_⟩
        unfold applyLine
        rcases parseKv line 64 maxStrLen with _ | ⟨key, val⟩
        · rfl
        · cases merge
          · exact setGlobal_entries cfg key val
          · rfl
    obtain ⟨cfg', hcfg', hentries⟩ := hstep
    obtain ⟨h1, h2⟩ := ih (fun item hitem => hitems item (by simp [hitem])) cfg'
    rw [List.foldl_cons, hcfg']
    exact ⟨h1.trans hentries, h2⟩

/-! ## Isolation -/

namespace ConfigDoc

/-- The table as the document means it: the global lines decide the globals, and each of the sections
there is room for is an entry of its own. -/
def isolated (doc : ConfigDoc) (merge : Bool) (cfg : BootConfig) : BootConfig :=
  clampDefault { (doc.globals.foldl (ConfigItem.apply merge) (startConfig merge cfg, none)).1 with
    entries := (startConfig merge cfg).entries ++
      (doc.sections.take (maxEntries - (startConfig merge cfg).numEntries)).map ConfigSection.entry }

/-- The lines of the sections behind the first `room` change nothing on the last of these. -/
def OverflowIdle (doc : ConfigDoc) (room : Nat) : Prop :=
  0 < room → ∀ s, doc.sections[room - 1]? = some s →
    ((doc.sections.drop room).flatMap ConfigSection.body).foldl settingEntry s.entry = s.entry

end ConfigDoc

theorem clampDefault_inj {cfg : BootConfig} {a b : List BootEntry} :
    clampDefault { cfg with entries := a } = clampDefault { cfg with entries := b } ↔ a = b := by
  constructor
  · intro h
    have h := congrArg BootConfig.entries h
    rwa [clampDefault_entries, clampDefault_entries] at h
  · rintro rfl
    rfl

/-- The sections of a document, read from a table with `room` free places. -/
theorem foldl_all_sections {sections : List ConfigSection} {g : BootConfig} {room : Nat}
    (hroom : g.entries.length + room = maxEntries) (hmerge : room = 0 → merge = true) :
    ((sections.flatMap ConfigSection.items).foldl (ConfigItem.apply merge) (g, none)).1 =
      { g with
        entries := (g.entries ++ (sections.take room).map ConfigSection.entry).modify (maxEntries - 1)
          fun e => if room = 0 then e else
            ((sections.drop room).flatMap ConfigSection.body).foldl settingEntry e } := by
  have hsplit : sections.flatMap ConfigSection.items =
      (sections.take room).flatMap ConfigSection.items ++
        (sections.drop room).flatMap ConfigSection.items := by
    rw [← List.flatMap_append, List.take_append_drop]
  have htake : g.entries.length + (sections.take room).length ≤ maxEntries := by
    rw [List.length_take]
    omega
  have hfirst := foldl_sections merge g (sections.take room) htake none
  rw [hsplit, List.foldl_append, hfirst]
  have hmodify_id : ∀ l : List BootEntry, l.modify (maxEntries - 1) (fun e => e) = l :=
    fun l => List.modify_id _ l
  rcases Nat.eq_zero_or_pos room with rfl | hpos
  · -- a merge into a full table
    obtain rfl := hmerge rfl
    have hnone : ((sections.drop 0).flatMap ConfigSection.items).foldl (ConfigItem.apply true)
        (g, none) = (g, none) := foldl_merge_full hroom.ge
    simp only [List.take_zero, List.map_nil, List.append_nil, if_true, hmodify_id]
    exact congrArg Prod.fst hnone
  · have hne : ¬ room = 0 := by omega
    simp only [if_neg hne]
    rcases Nat.lt_or_ge room sections.length with hlt | hge
    · -- the table is full and its last entry is the current one
      have hlen : (sections.take room).length = room := by rw [List.length_take]; omega
      have hnil : sections.take room ≠ [] := by
        intro h
        rw [h] at hlen
        exact hne hlen.symm
      have hcur : g.entries.length + room - 1 = maxEntries - 1 := by omega
      rw [if_neg hnil, hlen, hcur, foldl_overflow]
      rw [List.length_append, List.length_map, hlen]
      exact hroom.ge
    · have hdrop : sections.drop room = [] := List.drop_eq_nil_of_le hge
      rw [hdrop]
      simp only [List.flatMap_nil, List.foldl_nil, hmodify_id]

theorem isolated_iff (merge : Bool) (cfg : BootConfig) (doc : ConfigDoc) {text : List Byte} (htext : Renders doc.items text)
    (hmax : (startConfig merge cfg).numEntries ≤ maxEntries)
    (hmerge : (startConfig merge cfg).numEntries = maxEntries → merge = true) :
    (doParse text cfg merge).2 = doc.isolated merge cfg ↔
      doc.OverflowIdle (maxEntries - (startConfig merge cfg).numEntries) := by
  obtain ⟨hentries, hcur⟩ := foldl_globals merge doc.globals_ok (startConfig merge cfg)
  rw [doParse_renders merge htext, ← startConfig, ConfigDoc.items, List.foldl_append, ConfigDoc.isolated]
  generalize hg : doc.globals.foldl (ConfigItem.apply merge) (startConfig merge cfg, none) = g at *
  obtain ⟨g, cur⟩ := g
  dsimp only at hentries hcur ⊢
  rw [hcur]
  have hroom : g.entries.length + (maxEntries - (startConfig merge cfg).numEntries) = maxEntries := by
    rw [hentries]
    exact Nat.add_sub_cancel' hmax
  rw [foldl_all_sections hroom (fun h => hmerge (by omega)), clampDefault_inj, ← hentries]
  generalize maxEntries - (startConfig merge cfg).numEntries = room at hroom
  unfold ConfigDoc.OverflowIdle
  rcases Nat.eq_zero_or_pos room with rfl | hpos
  · simp only [if_true, lt_self_iff_false, false_implies, iff_true]
    exact List.modify_id _ _
  · have hne : ¬ room = 0 := by omega
    simp only [if_neg hne, hpos, true_implies]
    -- only the last place of the table can differ
    have hlast : (g.entries ++ (doc.sections.take room).map ConfigSection.entry)[maxEntries - 1]? =
        (doc.sections[room - 1]?).map ConfigSection.entry := by
      rw [List.getElem?_append_right (by omega), List.getElem?_map,
        show maxEntries - 1 - g.entries.length = room - 1 by omega, List.getElem?_take_of_lt (by omega)]
    constructor
    · intro h s hs
      have h := congrArg (·[maxEntries - 1]?) h
      simp only [List.getElem?_modify_eq, hlast, hs, Option.map_some, Option.map_eq_map,
        Option.some.injEq] at h
      exact h
    · intro h
      refine List.ext_getElem? fun j => ?_
      by_cases hj : maxEntries - 1 = j
      · subst hj
        rw [List.getElem?_modify_eq, hlast]
        rcases hs : doc.sections[room - 1]? with _ | s
        · rfl
        · simp only [Option.map_some, Option.map_eq_map, h s hs]
      · rw [List.getElem?_modify_ne _ _ hj]

/-- The sections of a text are stored, each as if it were alone, and the lines behind the table's limit
have no effect, exactly when these lines change nothing on the last stored section. -/
theorem sections_isolated_iff (cfg : BootConfig) (hmax : cfg.numEntries ≤ maxEntries) (doc : ConfigDoc)
    (text : List Byte) (htext : Renders doc.items text) :
    ((configParse text cfg).2 = doc.isolated false cfg ↔ doc.OverflowIdle maxEntries) ∧
      ((configParseMerge text cfg).2 = doc.isolated true cfg ↔
        doc.OverflowIdle (maxEntries - cfg.numEntries)) ∧
      ∀ s ∈ doc.sections, ∀ alone base, Renders s.items alone →
        (configParse alone base).2.entries = [s.entry] := by
  refine ⟨?_, ?_, fun s _ alone base halone => ?_⟩
  · exact isolated_iff false cfg doc htext (Nat.zero_le _) nofun
  · exact isolated_iff true cfg doc htext hmax (fun _ => rfl)
  · have h := doParse_renders false halone base
    have hempty : ([] : List BootEntry).length < maxEntries := by decide
    have hsec := foldl_section false (resetConfig base) s hempty none
    rw [configParse, h, clampDefault_entries]
    exact congrArg (fun q => q.1.entries) hsec

/-! Seventeen sections: the setting of the last one lands in the sixteenth entry. -/

def kernelSection (name path : List Byte) : ConfigSection where
  name := name
  body := [.setting (lit "kernel=" ++ path)]
  body_ok := by simp [ConfigItem.isHeader]

def overflowDoc : ConfigDoc where
  globals := []
  sections := List.replicate 16 (kernelSection (lit "A") (lit "/a")) ++ [kernelSection (lit "B") (lit "/b")]
  globals_ok := nofun

def overflowText : List Byte := overflowDoc.items.flatMap fun item => item.bytes ++ [10]

theorem renders_overflow : Renders overflowDoc.items overflowText := by
  rw [overflowText, ← List.nil_append (overflowDoc.items.flatMap _)]
  refine renders_lines (fun item hitem => ?_) nofun
  have hline : ∀ path : List Byte, path = lit "/a" ∨ path = lit "/b" → IsLine (lit "kernel=" ++ path) := by
    have hfacts : ∀ path ∈ [lit "/a", lit "/b"], (∀ b ∈ lit "kernel=" ++ path, b ≠ 0 ∧ isNewline b = false) ∧
        (lit "kernel=" ++ path).length < maxStrLen * 2 ∧ (lit "kernel=" ++ path).head? = some 107 := by
      decide +kernel
    intro path hpath
    obtain ⟨hbytes, hlen, hhead⟩ := hfacts path (by simpa using hpath)
    refine ⟨hbytes, hlen, fun b hb => ?_, fun hnil => ?_⟩
    · rw [hhead, Option.some.injEq] at hb
      rw [← hb]
      decide
    · rw [hnil] at hhead
      cases hhead
  have hsection : ∀ name path : List Byte, (∀ b ∈ name, b ≠ 0 ∧ b ≠ 93 ∧ isNewline b = false) →
      IsLine (lit "kernel=" ++ path) → ∀ item ∈ (kernelSection name path).items, item.Ok := by
    intro name path hname hpath item hitem
    rcases List.mem_cons.mp hitem with rfl | hitem
    · exact hname
    · obtain rfl := List.mem_singleton.mp hitem
      exact hpath
  rw [ConfigDoc.items, overflowDoc, List.nil_append, List.mem_flatMap] at hitem
  obtain ⟨s, hs, hitem⟩ := hitem
  rcases List.mem_append.mp hs with hs | hs
  · obtain rfl := List.eq_of_mem_replicate hs
    exact hsection _ _ (by decide +kernel) (hline _ (.inl rfl)) item hitem
  · obtain rfl := List.mem_singleton.mp hs
    exact hsection _ _ (by decide +kernel) (hline _ (.inr rfl)) item hitem

theorem overflow_not_isolated : Renders overflowDoc.items overflowText ∧
    (configParse overflowText {}).2 ≠ overflowDoc.isolated false {} := by
  refine ⟨renders_overflow, fun h => ?_⟩
  have hidle := (isolated_iff false {} overflowDoc renders_overflow (Nat.zero_le _) nofun).mp h
  have hbody := hidle (by decide) (kernelSection (lit "A") (lit "/a")) (by rfl)
  have hkernel := congrArg BootEntry.kernel hbody
  revert hkernel
  decide

theorem sections_isolated_overflow :
    (configParse overflowText {}).2 = overflowDoc.isolated false {} ↔ overflowDoc.OverflowIdle maxEntries :=
  (sections_isolated_iff {} (by decide) overflowDoc overflowText renders_overflow).1
end SakuruBoot

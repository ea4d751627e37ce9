import SakuruBoot.Common.Config

/-!
# What the parser can do to the table

`parseStep_cases` lists everything one iteration of the main loop can change. From it: every
iteration shortens the text, so the loop always reads it to its end (`parseLoop_rest`), the table
never shrinks and never exceeds sixteen entries, and a merge leaves the globals and the entries that
were there alone (`configParseMerge_frame`).
-/

namespace SakuruBoot
open CStr

variable {merge : Bool} {s : ParseState}

/-! ## The text gets shorter -/

theorem length_drop_bracket_le (p : List Byte) :
    (if deref (dropC (· != 93) p) == 93 then (dropC (· != 93) p).tail
      else dropC (· != 93) p).length ≤ p.length := by
  have := length_dropC_le (· != 93) p
  split
  · rw [List.length_tail]; omega
  · exact this

theorem length_parseSection_rest_le (p : List Byte) (cfg : BootConfig) (cur : Option Nat) :
    (parseSection p cfg cur).rest.length ≤ p.length := by
  unfold parseSection
  dsimp only
  split
  · split
    · refine le_trans (length_drop_bracket_le _) (le_trans (length_dropC_le _ _) ?_)
      rw [List.length_drop]; omega
    · refine le_trans (length_drop_bracket_le _) ?_
      rw [List.length_drop]; omega
  · exact length_drop_bracket_le p

theorem parseLine_rest (p : List Byte) (cfg : BootConfig) (cur : Option Nat) :
    (parseLine merge p cfg cur).rest =
      p.drop ((takeC (fun c => !isNewline c) p).take (maxStrLen * 2 - 1)).length := by
  unfold parseLine
  dsimp only
  split <;> rfl

theorem takeC_line_ne_nil {p : List Byte}
    (h0 : deref (dropC (fun c => isSpace c || isNewline c) p) ≠ 0) :
    takeC (fun c => !isNewline c) (dropC (fun c => isSpace c || isNewline c) p) ≠ [] := by
  cases hq : dropC (fun c => isSpace c || isNewline c) p with
  | nil => simp [hq, deref] at h0
  | cons x q =>
    have hx0 : x ≠ 0 := by simpa [hq, deref] using h0
    have hstop : ¬(x != 0 && (isSpace x || isNewline x)) = true := by
      have := List.head?_dropWhile_not (fun c => c != 0 && (isSpace c || isNewline c)) p
      rw [show p.dropWhile (fun c => c != 0 && (isSpace c || isNewline c)) = x :: q from hq] at this
      simpa using this
    have hnl : isNewline x = false := by
      by_contra hnl
      exact hstop (by simp [hx0, Bool.not_eq_false _ ▸ hnl])
    simp [takeC, hx0, hnl]

theorem length_parseStep_rest_lt (merge : Bool) (s : ParseState) :
    (parseStep merge s).rest.length < s.rest.length ∨ deref (parseStep merge s).rest = 0 := by
  have hle := length_dropC_le (fun c => isSpace c || isNewline c) s.rest
  unfold parseStep
  dsimp only
  generalize hp : dropC (fun c => isSpace c || isNewline c) s.rest = p at hle
  by_cases h0 : deref p = 0
  · right; simp [h0]
  · have hcons : ∃ x q, p = x :: q := by
      cases p with
      | nil => simp [deref] at h0
      | cons x q => exact ⟨x, q, rfl⟩
    obtain ⟨x, q, rfl⟩ := hcons
    have hx : x ≠ 0 := by simpa [deref] using h0
    left
    simp only [deref, List.headD_cons, beq_iff_eq, hx, if_false, Bool.or_eq_true]
    rw [List.length_cons] at hle
    split
    · rename_i hc
      -- a comment is at least its first byte long
      have hstep : dropC (fun c => !isNewline c) (x :: q) = dropC (fun c => !isNewline c) q := by
        have : isNewline x = false := by rcases hc with rfl | rfl <;> rfl
        simp [dropC, hx, this]
      have := length_dropC_le (fun c => !isNewline c) q
      simp only [hstep]
      omega
    · split
      · have := length_parseSection_rest_le q s.cfg s.cur
        simp only [List.tail_cons]
        omega
      · have hne := takeC_line_ne_nil (p := s.rest) (by rw [hp]; exact h0)
        rw [hp] at hne
        have hpos : 0 < (takeC (fun c => !isNewline c) (x :: q)).length :=
          List.length_pos_iff.mpr hne
        rw [parseLine_rest, List.length_drop, List.length_take, List.length_cons]
        simp only [maxStrLen]
        omega

/-- The main loop always reaches the end of the text. -/
theorem parseLoop_rest (n : Nat) (hn : s.rest.length ≤ n) :
    deref (parseLoop merge n s).rest = 0 := by
  induction n generalizing s with
  | zero =>
    have : s.rest = [] := List.length_eq_zero_iff.mp (by omega)
    simp [parseLoop, this, deref]
  | succ n ih =>
    rw [parseLoop]
    split
    · rename_i h; simpa using h
    · rcases length_parseStep_rest_lt merge s with hlt | hend
      · exact ih (by omega)
      · cases n with
        | zero => simpa [parseLoop] using hend
        | succ n => simp [parseLoop, hend]

/-! ## What an iteration changes -/

/-- Everything one iteration can do to the table: nothing, open a new entry, or one setting. -/
theorem parseStep_cases (merge : Bool) (s : ParseState) :
    ((parseStep merge s).cfg = s.cfg ∧ (parseStep merge s).cur = s.cur) ∨
    (s.cfg.numEntries < maxEntries ∧ (parseStep merge s).cur = some s.cfg.numEntries ∧
      ∃ e, (parseStep merge s).cfg = { s.cfg with entries := s.cfg.entries ++ [e] }) ∨
    ((parseStep merge s).cur = s.cur ∧
      ∃ key val, (parseStep merge s).cfg = applySetting merge s.cfg s.cur key val) := by
  unfold parseStep parseSection parseLine
  dsimp only
  split
  · exact .inl ⟨rfl, rfl⟩
  · split
    · exact .inl ⟨rfl, rfl⟩
    · split
      · split
        · split
          · exact .inr (.inl ⟨by assumption, rfl, _, rfl⟩)
          · exact .inl ⟨rfl, rfl⟩
        · exact .inl ⟨rfl, rfl⟩
      · split
        · exact .inl ⟨rfl, rfl⟩
        · exact .inr (.inr ⟨rfl, _, _, rfl⟩)

/-- The rule of the main loop: what every iteration preserves holds after it. -/
theorem parseLoop_invariant {P : ParseState → Prop}
    (hstep : ∀ s, P s → P (parseStep merge s)) (n : Nat) (h : P s) : P (parseLoop merge n s) := by
  induction n generalizing s with
  | zero => exact h
  | succ n ih =>
    rw [parseLoop]
    split
    · exact h
    · exact ih (hstep s h)

theorem setGlobal_entries (cfg : BootConfig) (key val : List Byte) :
    (setGlobal cfg key val).entries = cfg.entries := by
  unfold setGlobal
  dsimp only
  split_ifs <;> rfl

theorem clampDefault_entries (cfg : BootConfig) : (clampDefault cfg).entries = cfg.entries := by
  unfold clampDefault; split <;> rfl

theorem applySetting_numEntries (merge : Bool) (cfg : BootConfig) (cur : Option Nat)
    (key val : List Byte) : (applySetting merge cfg cur key val).numEntries = cfg.numEntries := by
  cases cur with
  | none => cases merge <;> simp [applySetting, setGlobal_entries, BootConfig.numEntries]
  | some i => simp [applySetting, BootConfig.numEntries]

theorem parseStep_numEntries (merge : Bool) (s : ParseState) :
    s.cfg.numEntries ≤ (parseStep merge s).cfg.numEntries ∧
      (s.cfg.numEntries ≤ maxEntries → (parseStep merge s).cfg.numEntries ≤ maxEntries) := by
  obtain ⟨hc, -⟩ | ⟨hlt, -, e, hc⟩ | ⟨-, key, val, hc⟩ := parseStep_cases merge s
  · rw [hc]; exact ⟨le_refl _, id⟩
  · rw [hc]; simp [BootConfig.numEntries] at hlt ⊢; omega
  · rw [hc, applySetting_numEntries]; exact ⟨le_refl _, id⟩

/-! ## What a merge leaves alone -/

/-- The parser of a merge into `base`: the globals and the entries of `base` are as they were, and the
current entry is not one of them. -/
structure MergeFrame (base : BootConfig) (s : ParseState) : Prop where
  timeout_eq : s.cfg.timeout = base.timeout
  defaultEntry_eq : s.cfg.defaultEntry = base.defaultEntry
  themeColor_eq : s.cfg.themeColor = base.themeColor
  accentColor_eq : s.cfg.accentColor = base.accentColor
  entries_prefix : base.entries <+: s.cfg.entries
  numEntries_le : s.cfg.numEntries ≤ maxEntries
  cur_ge : ∀ i, s.cur = some i → base.numEntries ≤ i

theorem prefix_modify {α : Type} {a b : List α} (h : a <+: b) {i : Nat} (hi : a.length ≤ i) (f : α → α) :
    a <+: b.modify i f := by
  obtain ⟨c, rfl⟩ := h
  refine List.prefix_iff_getElem?.mpr fun j hj => ?_
  rw [List.getElem?_modify_ne f _ (by omega), List.getElem?_append_left hj, List.getElem?_eq_getElem hj]

theorem parseStep_mergeFrame {base : BootConfig} (s : ParseState) (h : MergeFrame base s) :
    MergeFrame base (parseStep true s) := by
  obtain ⟨ht, hd, hth, hac, hpre, hmax, hcur⟩ := h
  obtain ⟨hc, hk⟩ | ⟨hlt, hk, e, hc⟩ | ⟨hk, key, val, hc⟩ := parseStep_cases true s
  · exact ⟨hc ▸ ht, hc ▸ hd, hc ▸ hth, hc ▸ hac, hc ▸ hpre, hc ▸ hmax, hk ▸ hcur⟩
  · -- the new entry is behind those of `base`
    refine ⟨hc ▸ ht, hc ▸ hd, hc ▸ hth, hc ▸ hac, ?_, ?_, ?_⟩
    · rw [hc]
      exact hpre.trans (List.prefix_append _ _)
    · rw [hc, BootConfig.numEntries, List.length_append]
      exact hlt
    · intro i hi
      rw [hk, Option.some.injEq] at hi
      exact hi ▸ hpre.length_le
  · rcases hcase : s.cur with _ | i
    · rw [hcase] at hc
      exact ⟨hc ▸ ht, hc ▸ hd, hc ▸ hth, hc ▸ hac, hc ▸ hpre, hc ▸ hmax, hk ▸ hcur⟩
    · rw [hcase] at hc
      refine ⟨hc ▸ ht, hc ▸ hd, hc ▸ hth, hc ▸ hac, ?_, ?_, hk ▸ hcur⟩
      · rw [hc]
        exact prefix_modify hpre (hcur i hcase) _
      · rw [hc, applySetting_numEntries]
        exact hmax

theorem parseLoop_mergeFrame {cfg : BootConfig} (hmax : cfg.numEntries ≤ maxEntries) (buf : List Byte) :
    MergeFrame cfg (parseLoop true buf.length { rest := buf, cfg := cfg, cur := none }) :=
  parseLoop_invariant parseStep_mergeFrame buf.length ⟨rfl, rfl, rfl, rfl, List.prefix_rfl, hmax, nofun⟩

/-- The settings of the whole menu, as far as a file sets them for good. -/
def BootConfig.globals (cfg : BootConfig) : UInt32 × UInt8 × UInt8 :=
  (cfg.timeout, cfg.themeColor, cfg.accentColor)

theorem clampDefault_globals (cfg : BootConfig) : (clampDefault cfg).globals = cfg.globals := by
  unfold clampDefault; split <;> rfl

theorem configParseMerge_keeps {cfg : BootConfig} (hmax : cfg.numEntries ≤ maxEntries) (buf : List Byte) :
    (configParseMerge buf cfg).2.globals = cfg.globals ∧ cfg.entries <+: (configParseMerge buf cfg).2.entries := by
  obtain ⟨ht, -, hth, hac, hpre, -, -⟩ := parseLoop_mergeFrame hmax buf
  have hparse : (configParseMerge buf cfg).2 =
      clampDefault (parseLoop true buf.length { rest := buf, cfg := cfg, cur := none }).cfg := rfl
  rw [hparse, clampDefault_globals, clampDefault_entries]
  refine ⟨?_, hpre⟩
  rw [BootConfig.globals, ht, hth, hac]
  rfl

/-- `config_parse_merge` changes no global and no entry that was there, and keeps to the table. -/
theorem configParseMerge_frame (cfg : BootConfig) (hdef : cfg.defaultEntry.toNat < cfg.numEntries)
    (hmax : cfg.numEntries ≤ maxEntries) (buf : List Byte) :
    (configParseMerge buf cfg).2.timeout = cfg.timeout ∧
      (configParseMerge buf cfg).2.defaultEntry = cfg.defaultEntry ∧
      (configParseMerge buf cfg).2.themeColor = cfg.themeColor ∧
      (configParseMerge buf cfg).2.accentColor = cfg.accentColor ∧
      cfg.entries <+: (configParseMerge buf cfg).2.entries ∧
      cfg.numEntries ≤ (configParseMerge buf cfg).2.numEntries ∧
      (configParseMerge buf cfg).2.numEntries ≤ maxEntries := by
  obtain ⟨ht, hd, hth, hac, hpre, hmax', -⟩ := parseLoop_mergeFrame hmax buf
  have hlen : cfg.numEntries ≤
      (parseLoop true buf.length { rest := buf, cfg := cfg, cur := none }).cfg.numEntries := hpre.length_le
  -- the default is still below the number of entries, so the clamp does nothing
  have hclamp : (configParseMerge buf cfg).2 =
      (parseLoop true buf.length { rest := buf, cfg := cfg, cur := none }).cfg := by
    refine if_neg fun h => ?_
    have hge : (parseLoop true buf.length { rest := buf, cfg := cfg, cur := none }).cfg.numEntries ≤
        (parseLoop true buf.length { rest := buf, cfg := cfg, cur := none }).cfg.defaultEntry.toNat := h.1
    rw [hd] at hge
    omega
  rw [hclamp]
  exact ⟨ht, hd, hth, hac, hpre, hlen, hmax'⟩

/-- One entry and its globals, merged with a text that sets them all. -/
theorem configParseMerge_frame_one :
    (configParseMerge (lit "timeout = 99\n[entry:B]\nkernel=/b\n")
        { timeout := 8, entries := [{ name := lit "A", kernel := lit "/a" }] }).2.timeout = 8 ∧
      [{ name := lit "A", kernel := lit "/a" }] <+:
        (configParseMerge (lit "timeout = 99\n[entry:B]\nkernel=/b\n")
          { timeout := 8, entries := [{ name := lit "A", kernel := lit "/a" }] }).2.entries := by
  obtain ⟨ht, -, -, -, hpre, -⟩ := configParseMerge_frame
    { timeout := 8, entries := [{ name := lit "A", kernel := lit "/a" }] } (by decide) (by decide)
    (lit "timeout = 99\n[entry:B]\nkernel=/b\n")
  exact ⟨ht, hpre⟩

end SakuruBoot

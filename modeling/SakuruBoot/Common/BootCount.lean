import SakuruBoot.Common.Selection

/-!
# Boot counters and the fallback (`common/bootcount.c`, `common/efivar.c`)

The NVRAM variables behind the boot counters and the last selection, and what `uefi_main` does with them in
one boot: restore the last selection, fall back to entry 0 when its counter is at the limit, run the menu,
save the selection and count the attempt. The OS clears counters between boots.

`presentsLive_run_iff` says which runs keep the promise of the design comment, that a machine is not left on
an entry at its limit while another is below it. The fallback only ever goes to entry 0 and nothing looks at
entry 0's own counter, so a run breaks it exactly when an attempt uses up an entry that entry 0 cannot
stand in for (`BootStepOk`).
-/

namespace SakuruBoot
open CStr

def bootcountMax : UInt32 := 3

/-! ## Variables -/

/-- A variable name in UCS-2, without the final NUL. -/
abbrev VarName := List UInt16

/-- The 32-bit variables under the vendor GUID. -/
abbrev Nvram := VarName → Option UInt32

def Nvram.set (nv : Nvram) (name : VarName) (val : UInt32) : Nvram := Function.update nv name (some val)

def wide (s : String) : VarName := (lit s).map (·.toUInt16)

def buildVarName (index : UInt32) : VarName :=
  wide "SakuruBC" ++ (if 10 ≤ index then [48 + (index / 10 % 10).toUInt16] else []) ++
    [48 + (index % 10).toUInt16]

def bootcountGet (nv : Nvram) (entryIndex : UInt32) : UInt32 := (nv (buildVarName entryIndex)).getD 0

def bootcountIncrement (nv : Nvram) (entryIndex : UInt32) : Nvram :=
  nv.set (buildVarName entryIndex) (bootcountGet nv entryIndex + 1)

def bootcountClear (nv : Nvram) (entryIndex : UInt32) : Nvram := nv.set (buildVarName entryIndex) 0

def bootcountShouldFallback (nv : Nvram) (entryIndex : UInt32) : Bool :=
  bootcountMax ≤ bootcountGet nv entryIndex

def lastEntryVar : VarName := wide "SakuruLastEntry"

def efivarSaveLastEntry (nv : Nvram) (index : UInt32) : Nvram := nv.set lastEntryVar index

def efivarLoadLastEntry (nv : Nvram) : Option UInt32 := nv lastEntryVar

/-! ## One boot -/

/-- The last selection becomes the default when the menu still has it. -/
def restoreDefault (nv : Nvram) (cfg : BootConfig) : BootConfig :=
  match efivarLoadLastEntry nv with
  | some last => if last.toNat < cfg.numEntries then { cfg with defaultEntry := last } else cfg
  | none => cfg

def applyFallback (nv : Nvram) (cfg : BootConfig) : BootConfig :=
  if bootcountShouldFallback nv cfg.defaultEntry && 1 < cfg.numEntries then { cfg with defaultEntry := 0 }
  else cfg

/-- The configuration `uefi_main` runs the menu on. -/
def menuConfig (nv : Nvram) (cfg : BootConfig) : BootConfig := applyFallback nv (restoreDefault nv cfg)

/-- The entry a boot starts, when the keys it was given end the menu. -/
def chosen (nv : Nvram) (cfg : BootConfig) (ops : MenuOps) (keys : List Int) : Option UInt32 :=
  (menuRun (menuConfig nv cfg) ops keys).2.map fun sel => UInt32.ofNat (toU32 sel)

/-- What happens to the variables. -/
inductive BootEvent
  | boot (ops : MenuOps) (keys : List Int)
  | clear (index : UInt32)

def BootEvent.apply (cfg : BootConfig) (nv : Nvram) : BootEvent → Nvram
  | .boot ops keys =>
    match chosen nv cfg ops keys with
    | some sel => bootcountIncrement (efivarSaveLastEntry nv sel) sel
    | none => nv
  | .clear index => bootcountClear nv index

def runBoots (cfg : BootConfig) (nv : Nvram) (events : List BootEvent) : Nvram :=
  events.foldl (BootEvent.apply cfg) nv

/-! ## Counters and names -/

variable {nv : Nvram}

theorem buildVarName_ne_lastEntry (i : UInt32) : buildVarName i ≠ lastEntryVar := by
  intro h
  have hlen := congrArg List.length h
  have hpre : (wide "SakuruBC").length = 8 := by decide
  have hlast : lastEntryVar.length = 15 := by decide
  simp only [buildVarName, List.length_append, List.length_singleton, hpre, hlast] at hlen
  split at hlen <;> simp at hlen

theorem bootcountGet_clear (i j : UInt32) :
    bootcountGet (bootcountClear nv i) j = if buildVarName j = buildVarName i then 0 else bootcountGet nv j := by
  unfold bootcountGet bootcountClear Nvram.set
  rw [Function.update_apply]
  split <;> rfl

/-- The counter of `j` once an attempt with `i` is counted. -/
def countAfter (nv : Nvram) (i j : UInt32) : UInt32 :=
  if buildVarName j = buildVarName i then bootcountGet nv i + 1 else bootcountGet nv j

theorem bootcountGet_attempt (i j : UInt32) :
    bootcountGet (bootcountIncrement (efivarSaveLastEntry nv i) i) j = countAfter nv i j := by
  have hsave : ∀ k, bootcountGet (efivarSaveLastEntry nv i) k = bootcountGet nv k := by
    intro k
    unfold bootcountGet efivarSaveLastEntry Nvram.set
    rw [Function.update_of_ne (buildVarName_ne_lastEntry k)]
  have hinc : bootcountGet (bootcountIncrement (efivarSaveLastEntry nv i) i) j =
      if buildVarName j = buildVarName i then bootcountGet (efivarSaveLastEntry nv i) i + 1
      else bootcountGet (efivarSaveLastEntry nv i) j := by
    conv_lhs => rw [bootcountGet, bootcountIncrement, Nvram.set, Function.update_apply]
    split <;> rfl
  rw [hinc, hsave, hsave, countAfter]

theorem efivarLoadLastEntry_attempt (i : UInt32) :
    efivarLoadLastEntry (bootcountIncrement (efivarSaveLastEntry nv i) i) = some i := by
  unfold efivarLoadLastEntry bootcountIncrement efivarSaveLastEntry Nvram.set
  rw [Function.update_of_ne (buildVarName_ne_lastEntry i).symm, Function.update_self]

theorem efivarLoadLastEntry_clear (i : UInt32) :
    efivarLoadLastEntry (bootcountClear nv i) = efivarLoadLastEntry nv := by
  unfold efivarLoadLastEntry bootcountClear Nvram.set
  rw [Function.update_of_ne (buildVarName_ne_lastEntry i).symm]

/-! ## What a boot presents -/

variable {cfg : BootConfig}

/-- The entry has attempts left. -/
def Live (nv : Nvram) (i : UInt32) : Prop := bootcountGet nv i < bootcountMax

def SomeLive (cfg : BootConfig) (nv : Nvram) : Prop := ∃ i : UInt32, i.toNat < cfg.numEntries ∧ Live nv i

/-- A boot with an entry left to try presents such an entry. -/
def PresentsLive (cfg : BootConfig) (nv : Nvram) : Prop :=
  SomeLive cfg nv → Live nv (menuConfig nv cfg).defaultEntry

/-- The last selection, or the configured default without one. -/
def lastSelection (nv : Nvram) (cfg : BootConfig) : UInt32 := (restoreDefault nv cfg).defaultEntry

/-- The last selection has attempts left, or entry 0 can stand in for it. -/
def Covered (cfg : BootConfig) (nv : Nvram) : Prop :=
  SomeLive cfg nv → Live nv (lastSelection nv cfg) ∨ Live nv 0

theorem restoreDefault_numEntries (nv : Nvram) (cfg : BootConfig) :
    (restoreDefault nv cfg).numEntries = cfg.numEntries := by
  unfold restoreDefault
  split
  · split <;> rfl
  · rfl

theorem shouldFallback_iff (i : UInt32) : bootcountShouldFallback nv i = true ↔ ¬Live nv i := by
  rw [bootcountShouldFallback, Live, decide_eq_true_eq, UInt32.not_lt]

theorem presentsLive_iff (hn : 1 < cfg.numEntries) : PresentsLive cfg nv ↔ Covered cfg nv := by
  refine imp_congr_right fun _ => ?_
  have hn' : 1 < (restoreDefault nv cfg).numEntries := by rwa [restoreDefault_numEntries]
  by_cases hlive : Live nv (lastSelection nv cfg)
  · have hkeep : menuConfig nv cfg = restoreDefault nv cfg := by
      refine if_neg fun h => ?_
      exact (shouldFallback_iff _).mp (Bool.and_eq_true_iff.mp h).1 hlive
    rw [hkeep]
    exact ⟨fun _ => .inl hlive, fun _ => hlive⟩
  · have hfall : (menuConfig nv cfg).defaultEntry = 0 := by
      have hcond : (bootcountShouldFallback nv (restoreDefault nv cfg).defaultEntry &&
          1 < (restoreDefault nv cfg).numEntries) = true :=
        Bool.and_eq_true_iff.mpr ⟨(shouldFallback_iff _).mpr hlive, decide_eq_true hn'⟩
      rw [menuConfig, applyFallback, if_pos hcond]
    rw [hfall]
    exact ⟨.inr, fun h => h.resolve_left hlive⟩

/-! ## What one event does -/

/-- What the next boot restores after `sel` was started. -/
def keptSelection (cfg : BootConfig) (sel : UInt32) : UInt32 :=
  if sel.toNat < cfg.numEntries then sel else cfg.defaultEntry

/-- An event that leaves an entry to present. An attempt does not use up the entry it starts, or leaves entry
0 below the limit, or all entries are at the limit after it. And a counter is not cleared when the last
selection and entry 0 are both at the limit, unless it is one of theirs or no entry's. -/
def BootStepOk (cfg : BootConfig) (nv : Nvram) : BootEvent → Prop
  | .boot ops keys => ∀ sel, chosen nv cfg ops keys = some sel →
    countAfter nv sel (keptSelection cfg sel) < bootcountMax ∨ countAfter nv sel 0 < bootcountMax ∨
      ∀ i : UInt32, i.toNat < cfg.numEntries → ¬countAfter nv sel i < bootcountMax
  | .clear index => Live nv (lastSelection nv cfg) ∨ Live nv 0 ∨
    buildVarName index = buildVarName (lastSelection nv cfg) ∨ buildVarName index = buildVarName 0 ∨
      ∀ i : UInt32, i.toNat < cfg.numEntries → buildVarName index ≠ buildVarName i

theorem covered_attempt_iff (sel : UInt32) :
    Covered cfg (bootcountIncrement (efivarSaveLastEntry nv sel) sel) ↔
      countAfter nv sel (keptSelection cfg sel) < bootcountMax ∨ countAfter nv sel 0 < bootcountMax ∨
        ∀ i : UInt32, i.toNat < cfg.numEntries → ¬countAfter nv sel i < bootcountMax := by
  have hlive : ∀ j, Live (bootcountIncrement (efivarSaveLastEntry nv sel) sel) j ↔
      countAfter nv sel j < bootcountMax := by
    intro j
    rw [Live, bootcountGet_attempt]
  have hlast : lastSelection (bootcountIncrement (efivarSaveLastEntry nv sel) sel) cfg =
      keptSelection cfg sel := by
    rw [lastSelection, restoreDefault, efivarLoadLastEntry_attempt, keptSelection]
    dsimp only
    split_ifs <;> rfl
  rw [Covered, hlast, hlive, hlive]
  constructor
  · intro hcov
    by_cases hsome : SomeLive cfg (bootcountIncrement (efivarSaveLastEntry nv sel) sel)
    · exact (hcov hsome).imp_right .inl
    · refine .inr (.inr fun i hi hcount => hsome ⟨i, hi, ?_⟩)
      exact (hlive i).mpr hcount
  · rintro (hkept | h0 | hnone) ⟨i, hi, hcount⟩
    · exact .inl hkept
    · exact .inr h0
    · exact absurd ((hlive i).mp hcount) (hnone i hi)

theorem covered_clear_iff (index : UInt32) (h : Covered cfg nv) :
    Covered cfg (bootcountClear nv index) ↔ Live nv (lastSelection nv cfg) ∨ Live nv 0 ∨
      buildVarName index = buildVarName (lastSelection nv cfg) ∨ buildVarName index = buildVarName 0 ∨
        ∀ i : UInt32, i.toNat < cfg.numEntries → buildVarName index ≠ buildVarName i := by
  have hlive : ∀ j, Live (bootcountClear nv index) j ↔ buildVarName index = buildVarName j ∨ Live nv j := by
    intro j
    rw [Live, bootcountGet_clear]
    split_ifs with hj
    · exact ⟨fun _ => .inl hj.symm, fun _ => show (0 : UInt32) < 3 by decide⟩
    · exact ⟨.inr, fun h => h.resolve_left (Ne.symm hj)⟩
  have hlast : lastSelection (bootcountClear nv index) cfg = lastSelection nv cfg := by
    rw [lastSelection, restoreDefault, efivarLoadLastEntry_clear]
    rfl
  rw [Covered, hlast, hlive, hlive]
  constructor
  · intro hcov
    by_cases hname : ∀ i : UInt32, i.toNat < cfg.numEntries → buildVarName index ≠ buildVarName i
    · exact .inr (.inr (.inr (.inr hname)))
    push Not at hname
    obtain ⟨i, hi, hname⟩ := hname
    rcases hcov ⟨i, hi, (hlive i).mpr (.inl hname)⟩ with (hl | hl) | (hl | hl)
    · exact .inr (.inr (.inl hl))
    · exact .inl hl
    · exact .inr (.inr (.inr (.inl hl)))
    · exact .inr (.inl hl)
  · rintro (hl | h0 | hl | h0 | hnone) ⟨i, hi, hafter⟩
    · exact .inl (.inr hl)
    · exact .inr (.inr h0)
    · exact .inl (.inl hl)
    · exact .inr (.inl h0)
    · -- the counter is no entry's, so the entry was live before
      have hbefore := ((hlive i).mp hafter).resolve_left (hnone i hi)
      exact (h ⟨i, hi, hbefore⟩).imp .inr .inr

theorem covered_step_iff (ev : BootEvent) (h : Covered cfg nv) :
    Covered cfg (ev.apply cfg nv) ↔ BootStepOk cfg nv ev := by
  cases ev with
  | clear index => exact covered_clear_iff index h
  | boot ops keys =>
    rw [BootEvent.apply, BootStepOk]
    cases hsel : chosen nv cfg ops keys with
    | none =>
      refine ⟨fun _ s hs => ?_, fun _ => h⟩
      cases hs
    | some sel =>
      refine (covered_attempt_iff sel).trans ⟨?_, ?_⟩
      · rintro hone s ⟨⟩
        exact hone
      · intro hall
        exact hall sel rfl

/-! ## Whole runs -/

/-- The variables before the first boot. -/
def freshNvram : Nvram := fun _ => none

/-- From fresh variables, every boot of a run presents an entry with attempts left whenever there is one
exactly when every event leaves one to present. -/
theorem presentsLive_run_iff (hn : 1 < cfg.numEntries) (events : List BootEvent) :
    (∀ pre, pre <+: events → PresentsLive cfg (runBoots cfg freshNvram pre)) ↔
      ∀ pre ev, pre ++ [ev] <+: events → BootStepOk cfg (runBoots cfg freshNvram pre) ev := by
  have hfresh : Covered cfg freshNvram := fun _ => .inr (show (0 : UInt32) < 3 by decide)
  have hrun := Runs.forall_prefix_iff (fun _ ev hcov => covered_step_iff ev hcov) hfresh events
  refine Iff.trans ?_ hrun
  exact forall_congr' fun pre => imp_congr_right fun _ => presentsLive_iff hn

/-! Three attempts with the first of two entries: the fallback goes to the entry it falls back from. -/

def pairConfig : BootConfig where
  entries := [{ name := lit "A", kernel := lit "/a" }, { name := lit "B", kernel := lit "/b" }]

def threeBoots : List BootEvent := List.replicate 3 (.boot {} [keyEnter])

theorem presentsLive_run_pair :
    (∀ pre, pre <+: threeBoots → PresentsLive pairConfig (runBoots pairConfig freshNvram pre)) ↔
      ∀ pre ev, pre ++ [ev] <+: threeBoots → BootStepOk pairConfig (runBoots pairConfig freshNvram pre) ev :=
  presentsLive_run_iff (by decide) threeBoots

theorem threeBoots_not_presentsLive :
    bootcountGet (runBoots pairConfig freshNvram threeBoots) 1 = 0 ∧
      (menuConfig (runBoots pairConfig freshNvram threeBoots) pairConfig).defaultEntry = 0 ∧
      bootcountGet (runBoots pairConfig freshNvram threeBoots) 0 = 3 ∧
      ¬PresentsLive pairConfig (runBoots pairConfig freshNvram threeBoots) := by
  have hone : bootcountGet (runBoots pairConfig freshNvram threeBoots) 1 = 0 := by decide
  have hdefault : (menuConfig (runBoots pairConfig freshNvram threeBoots) pairConfig).defaultEntry = 0 := by
    decide
  have hzero : bootcountGet (runBoots pairConfig freshNvram threeBoots) 0 = 3 := by decide
  refine ⟨hone, hdefault, hzero, fun h => ?_⟩
  have hlive := h ⟨1, by decide, by rw [Live, hone]; decide⟩
  rw [hdefault, Live, hzero] at hlive
  exact absurd hlive (by decide)

end SakuruBoot

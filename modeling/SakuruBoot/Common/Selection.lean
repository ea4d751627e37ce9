import SakuruBoot.Common.ConfigFacts
import SakuruBoot.Common.Menu
import SakuruBoot.Lib.Runs

/-!
# The menu's index over whole discovery runs

A run is any sequence of `config_parse`, `config_parse_merge` and `config_add_kernel` calls from the
configuration the two entry points set up. The index `menu_run` returns stays inside the table as
long as `default_entry` does, and `default_entry` is only clamped by the parser, and only when the
table is not empty. So a `default =` line in a text without sections survives until
`config_add_kernel` makes the table non-empty behind the parser's back.

`DefaultInRange` is the invariant; `step_defaultInRange` is its step lemma and
`run_defaultInRange_iff` says which runs keep it.
-/

namespace SakuruBoot
open CStr

/-- A call that changes the boot table. -/
inductive ConfigOp
  | parse (buf : List Byte)
  | parseMerge (buf : List Byte)
  | addKernel (name : List Byte) (type : OSType) (kernelPath : List Byte)
      (initrdPath : Option (List Byte))
  deriving DecidableEq, Repr

def ConfigOp.apply (cfg : BootConfig) : ConfigOp → BootConfig
  | .parse buf => (configParse buf cfg).2
  | .parseMerge buf => (configParseMerge buf cfg).2
  | .addKernel name type kernelPath initrdPath =>
    (configAddKernel cfg name type kernelPath initrdPath).2

def ConfigOp.isAddKernel : ConfigOp → Bool
  | .addKernel .. => true
  | _ => false

def runOps (cfg : BootConfig) (ops : List ConfigOp) : BootConfig := ops.foldl ConfigOp.apply cfg

/-- The configuration `stage2_main` and `uefi_main` start from; the BIOS path leaves the colours
unset. -/
def initialConfig (theme accent : UInt8) : BootConfig :=
  { timeout := defaultTimeout, defaultEntry := 0, entries := [], themeColor := theme,
    accentColor := accent }

/-- Whatever keys are pressed, an index `menu_run` returns on a non-empty table is in the table. -/
def MenuInRange (cfg : BootConfig) : Prop :=
  0 < cfg.numEntries → ∀ (ops : MenuOps) (keys : List Int) (sel : Int),
    (menuRun cfg ops keys).2 = some sel → Selects cfg sel

/-- The default is an entry of the table, unless there is none. -/
def DefaultInRange (cfg : BootConfig) : Prop :=
  cfg.numEntries = 0 ∨ cfg.defaultEntry.toNat < cfg.numEntries

theorem menuInRange_iff {cfg : BootConfig} (hmax : cfg.numEntries ≤ maxEntries) :
    MenuInRange cfg ↔ DefaultInRange cfg := by
  have hmax' : cfg.numEntries ≤ 16 := hmax
  constructor
  · intro h
    rcases Nat.eq_zero_or_pos cfg.numEntries with h0 | hpos
    · exact .inl h0
    · right
      -- Enter as the first key shows the default as it stands
      have hsel := h hpos {} [keyEnter] _ (menuRun_enter (by omega))
      obtain ⟨hlo, hhi⟩ := hsel
      have hwidth : cfg.defaultEntry.toNat < 2 ^ 32 := cfg.defaultEntry.toNat_lt
      by_contra hge
      unfold i32 at hlo hhi
      rw [Int.bmod_def] at hlo hhi
      split at hlo <;> omega
  · intro h hpos ops keys sel hret
    have hlt : cfg.defaultEntry.toNat < cfg.numEntries := by
      rcases h with h0 | hlt
      · omega
      · exact hlt
    rw [menuRun, if_neg (by omega)] at hret
    refine menuLoop_selects keys (by omega) ?_ hret
    have : i32 cfg.defaultEntry.toNat = cfg.defaultEntry.toNat := i32_of_bounds (by omega) (by omega)
    simp only [menuInit_selected, Selects, this]
    omega

/-! ## One call -/

theorem clampDefault_inRange (cfg : BootConfig) : DefaultInRange (clampDefault cfg) := by
  unfold clampDefault DefaultInRange
  split
  · rename_i h; exact .inr h.2
  · rename_i h
    simp only [not_and, not_lt] at h
    omega

theorem doParse_inRange (buf : List Byte) (cfg : BootConfig) (merge : Bool) :
    DefaultInRange (doParse buf cfg merge).2 :=
  clampDefault_inRange _

theorem doParse_numEntries_le (buf : List Byte) {cfg : BootConfig} (merge : Bool)
    (h : cfg.numEntries ≤ maxEntries) : (doParse buf cfg merge).2.numEntries ≤ maxEntries := by
  have hstart : (if merge then cfg else resetConfig cfg).numEntries ≤ maxEntries := by
    cases merge
    · exact Nat.zero_le _
    · exact h
  unfold doParse BootConfig.numEntries
  rw [clampDefault_entries]
  exact parseLoop_invariant (P := fun s => s.cfg.numEntries ≤ maxEntries)
    (fun s hs => (parseStep_numEntries merge s).2 hs) _ hstart

/-- `config_add_kernel` either leaves the table alone or appends one entry below the limit. -/
theorem configAddKernel_cases (cfg : BootConfig) (name : List Byte) (type : OSType)
    (kernelPath : List Byte) (initrdPath : Option (List Byte)) :
    (configAddKernel cfg name type kernelPath initrdPath).2 = cfg ∨
      (cfg.numEntries < maxEntries ∧ ∃ e, (configAddKernel cfg name type kernelPath initrdPath).2 =
        { cfg with entries := cfg.entries ++ [e] }) := by
  unfold configAddKernel
  split
  · exact .inl rfl
  · split
    · exact .inl rfl
    · exact .inr ⟨by omega, _, rfl⟩

theorem configAddKernel_empty {cfg : BootConfig} (h : cfg.numEntries = 0) (name : List Byte)
    (type : OSType) (kernelPath : List Byte) (initrdPath : Option (List Byte)) :
    (configAddKernel cfg name type kernelPath initrdPath).2.numEntries = 1 ∧
      (configAddKernel cfg name type kernelPath initrdPath).2.defaultEntry = cfg.defaultEntry := by
  have hnil : cfg.entries = [] := List.length_eq_zero_iff.mp h
  simp [configAddKernel, hnil, BootConfig.numEntries, maxEntries]

theorem apply_numEntries_le {cfg : BootConfig} (op : ConfigOp) (h : cfg.numEntries ≤ maxEntries) :
    (op.apply cfg).numEntries ≤ maxEntries := by
  cases op with
  | parse buf => exact doParse_numEntries_le buf false h
  | parseMerge buf => exact doParse_numEntries_le buf true h
  | addKernel name type kernelPath initrdPath =>
    rcases configAddKernel_cases cfg name type kernelPath initrdPath with hc | ⟨hlt, e, hc⟩
    · simpa [ConfigOp.apply, hc] using h
    · simp only [ConfigOp.apply, hc, BootConfig.numEntries, List.length_append,
        List.length_singleton]
      exact hlt

/-- The call that goes wrong: `config_add_kernel` on an empty table with a default already set. -/
def StaleDefault (cfg : BootConfig) (op : ConfigOp) : Prop :=
  op.isAddKernel = true ∧ cfg.numEntries = 0 ∧ cfg.defaultEntry ≠ 0

/-- One call keeps the default in range exactly when it is not that call. -/
theorem step_defaultInRange {cfg : BootConfig} (op : ConfigOp) (h : DefaultInRange cfg) :
    DefaultInRange (op.apply cfg) ↔ ¬StaleDefault cfg op := by
  cases op with
  | parse buf => simp [StaleDefault, ConfigOp.isAddKernel, ConfigOp.apply, configParse,
      doParse_inRange]
  | parseMerge buf => simp [StaleDefault, ConfigOp.isAddKernel, ConfigOp.apply, configParseMerge,
      doParse_inRange]
  | addKernel name type kernelPath initrdPath =>
    by_cases h0 : cfg.numEntries = 0
    · obtain ⟨hn, hd⟩ := configAddKernel_empty h0 name type kernelPath initrdPath
      have hzero : cfg.defaultEntry = 0 ↔ cfg.defaultEntry.toNat = 0 := by
        rw [← UInt32.toNat_inj]; rfl
      simp [ConfigOp.apply, DefaultInRange, StaleDefault, ConfigOp.isAddKernel, hn, hd, h0, hzero]
    · have hgoal : DefaultInRange (ConfigOp.apply cfg (.addKernel name type kernelPath initrdPath)) := by
        rcases configAddKernel_cases cfg name type kernelPath initrdPath with hc | ⟨-, e, hc⟩
        · simpa [ConfigOp.apply, hc] using h
        · simp only [ConfigOp.apply, hc, DefaultInRange, BootConfig.numEntries, List.length_append,
            List.length_singleton] at h h0 ⊢
          omega
      simp [hgoal, StaleDefault, h0]

/-! ## Whole runs -/

theorem run_numEntries_le {cfg : BootConfig} (ops : List ConfigOp)
    (h : cfg.numEntries ≤ maxEntries) : (runOps cfg ops).numEntries ≤ maxEntries :=
  List.foldlRecOn (motive := fun cfg : BootConfig => cfg.numEntries ≤ maxEntries) ops _ h
    fun _ hcfg op _ => apply_numEntries_le op hcfg

theorem run_defaultInRange_iff {cfg : BootConfig} (ops : List ConfigOp) (h : DefaultInRange cfg) :
    (∀ pre, pre <+: ops → DefaultInRange (runOps cfg pre)) ↔
      ∀ pre op, pre ++ [op] <+: ops → ¬StaleDefault (runOps cfg pre) op :=
  Runs.forall_prefix_iff (fun _ op hcfg => step_defaultInRange op hcfg) h ops

/-- In a run from the initial configuration, the menu only ever returns entries of the table, after
every call of the run, exactly when `config_add_kernel` is never called on an empty table with a
nonzero default. -/
theorem menu_inRange_iff_no_staleDefault (theme accent : UInt8) (ops : List ConfigOp) :
    (∀ pre, pre <+: ops → MenuInRange (runOps (initialConfig theme accent) pre)) ↔
      ∀ pre op, pre ++ [op] <+: ops →
        ¬StaleDefault (runOps (initialConfig theme accent) pre) op := by
  have hinit : (initialConfig theme accent).numEntries ≤ maxEntries := Nat.zero_le _
  rw [← run_defaultInRange_iff ops (.inl rfl)]
  refine forall_congr' fun pre => imp_congr_right fun _ => ?_
  exact menuInRange_iff (run_numEntries_le pre hinit)

/-- The run that breaks it: `default = 5` and no section, then one discovered kernel. -/
def staleRun : List ConfigOp :=
  [.parse (lit "default = 5\n"), .addKernel (lit "Linux") .linux (lit "/boot/vmlinuz") none]

theorem menu_out_of_range_after_staleRun :
    (runOps (initialConfig 5 14) staleRun).numEntries = 1 ∧
      (menuRun (runOps (initialConfig 5 14) staleRun) {} [keyEnter]).2 = some 5 ∧
      ¬MenuInRange (runOps (initialConfig 5 14) staleRun) := by
  have hone : (runOps (initialConfig 5 14) staleRun).numEntries = 1 := by decide
  have hfive : (menuRun (runOps (initialConfig 5 14) staleRun) {} [keyEnter]).2 = some 5 := by
    decide
  refine ⟨hone, hfive, fun h => ?_⟩
  have hsel := h (by omega) {} [keyEnter] 5 hfive
  unfold Selects at hsel
  omega

end SakuruBoot

import SakuruBoot.Common.Config
import SakuruBoot.Lib.Table

/-!
# Kernels added by discovery

Discovery calls `config_add_kernel` for every kernel it meets, and meets many of them more than once. `addKernels` is a
list of such calls. The boot table is a table of at most sixteen rows keyed by the kernel path (`addKernels_table`), so
the calls add the first request for each new path until it is full (`addKernels_spec`).
-/

namespace SakuruBoot
open CStr

/-- The arguments of `config_add_kernel`. -/
structure KernelRequest where
  name : List Byte
  type : OSType
  kernel : List Byte
  initrd : Option (List Byte)
  deriving DecidableEq, Repr

namespace KernelRequest

/-- The paths fit their fields. -/
def Fits (r : KernelRequest) : Prop :=
  (str r.kernel).length ≤ 255 ∧ ∀ p ∈ r.initrd, (str p).length ≤ 255

def path (r : KernelRequest) : List Byte := str r.kernel

/-- The entry that holds the request; only its name may be cut. -/
def entry (r : KernelRequest) : BootEntry where
  name := strCopy r.name maxStrLen
  type := r.type
  kernel := r.path
  initrd := str (r.initrd.getD [])

end KernelRequest

/-- The path an entry has in the table. -/
def BootEntry.path (e : BootEntry) : List Byte := str e.kernel

/-- The calls in order: what each returns, and the table after them. -/
def addKernels (cfg : BootConfig) : List KernelRequest → List Int × BootConfig
  | [] => ([], cfg)
  | r :: rs =>
    let a := configAddKernel cfg r.name r.type r.kernel r.initrd
    let b := addKernels a.2 rs
    (a.1 :: b.1, b.2)

/-- The path is new while the table is full. -/
def Refused (cfg : BootConfig) (r : KernelRequest) : Prop :=
  r.path ∉ cfg.entries.map BootEntry.path ∧ maxEntries ≤ cfg.numEntries

instance (cfg : BootConfig) (r : KernelRequest) : Decidable (Refused cfg r) :=
  inferInstanceAs (Decidable (r.path ∉ cfg.entries.map BootEntry.path ∧ maxEntries ≤ cfg.numEntries))

theorem strCopy_of_length {s : List Byte} (h : (str s).length ≤ 255) : strCopy s maxStrLen = str s :=
  List.take_of_length_le h

theorem any_strEq_iff (cfg : BootConfig) (r : KernelRequest) :
    (cfg.entries.any fun e => strEq e.kernel r.kernel) = true ↔ r.path ∈ cfg.entries.map BootEntry.path := by
  simp only [List.any_eq_true, List.mem_map, strEq_iff]
  rfl

theorem configAddKernel_request (cfg : BootConfig) {r : KernelRequest} (hr : r.Fits) :
    configAddKernel cfg r.name r.type r.kernel r.initrd =
      (if Refused cfg r then -1 else 0,
        { cfg with
          entries := Table.add maxEntries KernelRequest.path BootEntry.path KernelRequest.entry cfg.entries r }) := by
  have hinitrd : ∀ p ∈ r.initrd, (if deref p != 0 then strCopy p maxStrLen else []) = str p := by
    intro p hp
    rw [strCopy_of_length (hr.2 p hp)]
    cases p with
    | nil => rfl
    | cons c p => by_cases hc : c = 0 <;> simp [deref, str_cons, hc]
  unfold configAddKernel Table.add
  by_cases hmem : r.path ∈ cfg.entries.map BootEntry.path
  · have hnot : ¬Refused cfg r := fun h => h.1 hmem
    rw [if_pos ((any_strEq_iff cfg r).mpr hmem), if_neg hnot, if_pos hmem]
  · rw [if_neg ((any_strEq_iff cfg r).not.mpr hmem), if_neg hmem]
    by_cases hfull : maxEntries ≤ cfg.numEntries
    · have hrefused : Refused cfg r := ⟨hmem, hfull⟩
      rw [if_pos hfull, if_pos hrefused, if_pos hfull]
    · have hnot : ¬Refused cfg r := fun h => hfull h.2
      rw [if_neg hfull, if_neg hnot, if_neg hfull]
      rw [strCopy_of_length hr.1]
      unfold KernelRequest.entry
      cases hp : r.initrd with
      | none => rfl
      | some p =>
        simp only [hinitrd p hp]
        rfl

/-- The boot table is a table keyed by the kernel path. -/
theorem addKernels_table (cfg : BootConfig) {rs : List KernelRequest} (hrs : ∀ r ∈ rs, r.Fits) :
    (addKernels cfg rs).2 = { cfg with
      entries := rs.foldl (Table.add maxEntries KernelRequest.path BootEntry.path KernelRequest.entry) cfg.entries } := by
  induction rs generalizing cfg with
  | nil => rfl
  | cons r rs ih =>
    rw [addKernels, configAddKernel_request cfg (hrs r List.mem_cons_self)]
    exact ih _ fun r hr => hrs r (List.mem_cons_of_mem _ hr)

theorem addKernels_returns (cfg : BootConfig) {pre post : List KernelRequest} {r : KernelRequest} (hr : r.Fits) :
    (addKernels cfg (pre ++ r :: post)).1[pre.length]? =
      some (if Refused (addKernels cfg pre).2 r then -1 else 0) := by
  induction pre generalizing cfg with
  | nil =>
    rw [List.nil_append]
    show some (configAddKernel cfg r.name r.type r.kernel r.initrd).1 = _
    rw [configAddKernel_request cfg hr]
    rfl
  | cons q pre ih => exact ih (configAddKernel cfg q.name q.type q.kernel q.initrd).2

theorem path_entry (r : KernelRequest) : r.entry.path = r.path :=
  str_of_no_nul fun _ hc => (mem_takeC hc).1

/-- A list of calls appends the requests with a path that is neither in the table nor that of an earlier request, in
order and up to sixteen entries; each returns -1 exactly when its path is new and the table full; and the same calls
again change nothing. -/
theorem addKernels_spec {cfg : BootConfig} (hcfg : cfg.numEntries ≤ maxEntries) {rs : List KernelRequest}
    (hrs : ∀ r ∈ rs, r.Fits) :
    (addKernels cfg rs).2 = { cfg with entries := cfg.entries ++
        ((Table.firsts KernelRequest.path (cfg.entries.map BootEntry.path) rs).take
          (maxEntries - cfg.numEntries)).map KernelRequest.entry } ∧
      (∀ pre r post, rs = pre ++ r :: post → (addKernels cfg rs).1[pre.length]? =
        some (if Refused (addKernels cfg pre).2 r then -1 else 0)) ∧
      (addKernels (addKernels cfg rs).2 rs).2 = (addKernels cfg rs).2 := by
  have hrow : ∀ r ∈ rs, r.entry.path = r.path := fun r _ => path_entry r
  refine ⟨?_, ?_, ?_⟩
  · rw [addKernels_table cfg hrs, Table.foldl_add hrow hcfg]
  · intro pre r post hsplit
    subst hsplit
    exact addKernels_returns cfg (hrs r (List.mem_append_right _ List.mem_cons_self))
  · rw [addKernels_table _ hrs, addKernels_table cfg hrs]
    simp only [Table.foldl_add_twice hrow]

def elfRequest (path : String) : KernelRequest :=
  { name := lit "vios", type := .elf64, kernel := lit path, initrd := none }

/-- A path met twice. -/
def overlapping : List KernelRequest :=
  [elfRequest "/boot/a.elf", elfRequest "/boot/b.elf", elfRequest "/boot/a.elf"]

theorem addKernels_spec_overlapping :
    (addKernels {} overlapping).2 =
        { entries := [(elfRequest "/boot/a.elf").entry, (elfRequest "/boot/b.elf").entry] } ∧
      (addKernels (addKernels {} overlapping).2 overlapping).2 = (addKernels {} overlapping).2 := by
  have hfits : ∀ r ∈ overlapping, r.Fits := by
    intro r hr
    have hshort : ∀ r ∈ overlapping, (str r.kernel).length ≤ 255 ∧ r.initrd = none := by decide
    obtain ⟨hlen, hnone⟩ := hshort r hr
    refine ⟨hlen, ?_⟩
    rw [hnone]
    nofun
  have hspec := @addKernels_spec {} (by decide) _ hfits
  refine ⟨hspec.1.trans ?_, hspec.2.2⟩
  decide

end SakuruBoot

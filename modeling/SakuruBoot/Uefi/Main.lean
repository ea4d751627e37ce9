import SakuruBoot.Common.BootCount
import SakuruBoot.Common.Passphrase
import SakuruBoot.Os.OsLoader
import SakuruBoot.Uefi.DiscoveryFacts

/-!
# Booting an entry (`uefi_main` behind the menu)

`uefiMain` is discovery, the menu and the boot of the chosen entry: the unlock of an encrypted one, the choice of a
loader and its `load` and `boot`. It gives the calls of interest in order, and the status returned when it returns.
Console output is left out, and so are the screen and firmware tables put in the boot information.

Only an entry of a `sakuru.cfg` can be encrypted, and such an entry is bound to the FAT volume of that file
(`encrypted_ctx`), while the unlock is for ext4 contexts: it is never reached (`encrypted_not_unlocked`).
-/

namespace SakuruBoot
open CStr

/-! ## The program -/

inductive EfiStatus
  | loadError
  | accessDenied
  | exitFailed
  | shell
  deriving DecidableEq, Repr

inductive MainEvent
  /-- `luks_open_efi`, and whether a filesystem was mounted on what it opened. -/
  | luksOpen (bio : Handle) (pass : List Byte) (mounted : Bool)
  /-- A loader's `load`. -/
  | load (loader : Loader) (entry : BootEntry) (ctx : FsCtx)
  | boot (loader : Loader)
  | shell
  deriving DecidableEq

def MainEvent.isLoad : MainEvent → Bool
  | load .. => true
  | _ => false

def MainEvent.isLuksOpen : MainEvent → Bool
  | luksOpen .. => true
  | _ => false

/-- Drivers and firmware, as `uefi_main` calls them. The number of the attempt stands for the static memory of the
unlock functions. -/
structure MainFw where
  /-- `ext4_get_part_handle`. -/
  partHandle : Handle → Option Handle
  /-- `HandleProtocol` for block I/O. -/
  blockIo : Handle → Option Handle
  /-- What is read of a key file of the boot volume. -/
  keyFile : List Byte → Option (List Byte)
  luksOpenEfi : Nat → Handle → List Byte → Option Handle
  ext4MountLuks : Handle → Option Handle
  /-- The pool has room for the boot information. -/
  allocInfo : Bool
  /-- The entry point a loader returns, 0 when it fails. -/
  load : Loader → BootEntry → FsCtx → Nat
  exitBootServices : Bool

/-- What becomes of the unlock: the context to load from, no success, or a prompt still open. -/
inductive Unlock
  | proceed (ctx : Option FsCtx)
  | denied
  | waiting
  deriving DecidableEq

/-- The attempts left, from number `attempt` on. `buf` is the passphrase buffer; it is wiped after every attempt. -/
def unlockLoop (fw : MainFw) (bio : Handle) (keyfile : Bool) (typed : Nat → List Int) :
    Nat → Nat → Buffer Byte 256 → List MainEvent × Unlock
  | 0, _, _ => ([], .denied)
  | tries + 1, attempt, buf =>
    match if keyfile then some (str buf.data) else passphraseRead buf (typed attempt) with
    | none => ([], .waiting)
    | some pass =>
      match (fw.luksOpenEfi attempt bio pass).bind fw.ext4MountLuks with
      | some vol => ([.luksOpen bio pass true], .proceed (some (.ext4 vol)))
      | none =>
        let rest := unlockLoop fw bio keyfile typed tries (attempt + 1) (Buffer.fill 256 0)
        (.luksOpen bio pass false :: rest.1, rest.2)

/-- The passphrase buffer with a key file read into it: 255 bytes at most, and a NUL. -/
def keyFileBuf (key : List Byte) : Buffer Byte 256 := ⟨Bytes.fit (key.take 255 ++ [0]) 256, Bytes.length_fit ..⟩

/-- The unlock of an encrypted entry. -/
def unlockEntry (fw : MainFw) (hasRoot : Bool) (entry : BootEntry) (ctx : Option FsCtx) (typed : Nat → List Int) :
    List MainEvent × Unlock :=
  match ctx with
  | some (.ext4 vol) =>
    match (fw.partHandle vol).bind fw.blockIo with
    | none => ([], .proceed ctx)
    | some bio =>
      let tries := if 0 < entry.luksTries then entry.luksTries else 3
      let keyfile := !entry.luksKeyfile.isEmpty
      match if keyfile && hasRoot then fw.keyFile entry.luksKeyfile else none with
      | some key => unlockLoop fw bio keyfile typed 1 0 (keyFileBuf key)
      | none => unlockLoop fw bio keyfile typed tries.toNat 0 (Buffer.fill 256 0)
  | _ => ([], .proceed ctx)

/-- The loader, its `load` and the hand-off. -/
def loadEntry (fw : MainFw) (entry : BootEntry) (ctx : Option FsCtx) : List MainEvent × Option EfiStatus :=
  match findLoader entry with
  | none => ([], some .loadError)
  | some loader =>
    if !fw.allocInfo then ([], some .loadError)
    else
      match ctx with
      | none => ([], some .loadError)
      | some ctx =>
        if fw.load loader entry ctx = 0 then ([.load loader entry ctx], some .loadError)
        else if !fw.exitBootServices then ([.load loader entry ctx], some .exitFailed)
        else ([.load loader entry ctx, .boot loader], none)

/-- Everything behind the menu. -/
def bootEntry (fw : MainFw) (hasRoot : Bool) (entry : BootEntry) (ctx : Option FsCtx) (typed : Nat → List Int) :
    List MainEvent × Option EfiStatus :=
  if entry.type = .uefiShell then ([.shell], some .shell)
  else
    let unlock := if entry.encrypted ≠ 0 then unlockEntry fw hasRoot entry ctx typed else ([], .proceed ctx)
    match unlock.2 with
    | .denied => (unlock.1, some .accessDenied)
    | .waiting => (unlock.1, none)
    | .proceed ctx =>
      let load := loadEntry fw entry ctx
      (unlock.1 ++ load.1, load.2)

/-- What a boot finds: the volumes, the variables, the keys of the menu and those typed at each passphrase prompt. -/
structure MainInput where
  boot : Option FatVolume
  vols : List FatVolume
  ext4s : List Ext4Volume
  nv : Nvram
  ops : MenuOps
  keys : List Int
  typed : Nat → List Int
  fw : MainFw

namespace MainInput

variable (m : MainInput)

def found : ScanState := discover m.boot m.vols m.ext4s startScan

/-- The index the menu returns, when it is one. -/
def sel : Option Nat :=
  (menuRun (menuConfig m.nv m.found.cfg) m.ops m.keys).2.bind fun sel => if 0 ≤ sel then some sel.toNat else none

def entry : Option BootEntry := m.sel.bind fun sel => m.found.cfg.entries[sel]?

/-- `load_ctx`. -/
def loadCtx (sel : Nat) : Option FsCtx := (m.found.entryCtx sel).or (m.boot.map fun root => .fat root.root none)

end MainInput

/-- `uefi_main`. An index outside the table selects memory that is not modelled. -/
def uefiMain (m : MainInput) : List MainEvent × Option EfiStatus :=
  if m.found.cfg.numEntries = 0 then ([], some .loadError)
  else
    match m.sel, m.entry with
    | some sel, some entry => bootEntry m.fw m.boot.isSome entry (m.loadCtx sel) m.typed
    | _, _ => ([], none)

/-! ## Where encrypted entries come from -/

theorem setLoaderKey_encrypted (e : BootEntry) (key val : List Byte) :
    (setLoaderKey e key val).encrypted = e.encrypted := by
  unfold setLoaderKey
  split_ifs <;> rfl

/-- A loader entry cannot ask for an unlock. -/
theorem parseEntryConf_encrypted (buf : List Byte) (e : BootEntry) :
    (parseEntryConf buf e).encrypted = e.encrypted := by
  rw [parseEntryConf_lines]
  show ((buf.splitOn 10).foldl entryLine e).encrypted = e.encrypted
  refine List.foldlRecOn (motive := fun e' : BootEntry => e'.encrypted = e.encrypted) _ _ rfl fun e' he' line _ => ?_
  unfold entryLine
  split
  · exact he'
  · rw [setLoaderKey_encrypted, he']

theorem entryOfFile_encrypted {root : FatVolume} {info : FileInfo} {e : BootEntry} (h : entryOfFile root info = some e) :
    e.encrypted = 0 := by
  unfold entryOfFile at h
  split at h
  · cases h
  split at h
  · cases h
  · dsimp only at h
    split at h
    · cases h
    · rw [← Option.some.inj h, parseEntryConf_encrypted]

/-- The scans behind the first three only append entries that are not encrypted. -/
structure Appended (s t : ScanState) : Prop where
  entryCtx : t.entryCtx = s.entryCtx
  entries : ∃ more, t.cfg.entries = s.cfg.entries ++ more ∧ ∀ e ∈ more, e.encrypted = 0
  origins : s.origins <+: t.origins

variable {s t : ScanState}

theorem Appended.refl (s : ScanState) : Appended s s where
  entryCtx := rfl
  entries := ⟨[], (List.append_nil _).symm, nofun⟩
  origins := List.prefix_rfl

theorem Appended.append {e : BootEntry} {origin : Origin} (h : Appended s t) (he : e.encrypted = 0) :
    Appended s { t with cfg := { t.cfg with entries := t.cfg.entries ++ [e] }, origins := t.origins ++ [origin] } where
  entryCtx := h.entryCtx
  entries := by
    obtain ⟨more, hmore, hplain⟩ := h.entries
    refine ⟨more ++ [e], ?_, ?_⟩
    · show t.cfg.entries ++ [e] = _
      rw [hmore, List.append_assoc]
    · intro e' he'
      rcases List.mem_append.mp he' with hold | hnew
      · exact hplain e' hold
      · rw [List.mem_singleton.mp hnew, he]
  origins := h.origins.trans (List.prefix_append _ _)

theorem appended_discover (boot : Option FatVolume) (vols : List FatVolume) (ext4s : List Ext4Volume) (s : ScanState) :
    Appended (scanVolumes boot vols ext4s s) (discover boot vols ext4s s) := by
  unfold discover
  dsimp only
  generalize scanVolumes boot vols ext4s s = s
  have hshell : Appended s (addShell s) := by
    unfold addShell
    split_ifs
    · exact (Appended.refl s).append rfl
    · exact .refl s
  cases boot with
  | none => exact hshell
  | some root =>
    show Appended s (loaderEntryScan root (addShell s))
    unfold loaderEntryScan
    split
    · exact hshell
    · refine List.foldlRecOn _ _ hshell fun t ht info _ => ?_
      split_ifs
      · split
        · exact ht
        · rename_i e he
          exact ht.append (entryOfFile_encrypted he)
      · exact ht

/-- Only a `sakuru.cfg` of one of the volumes makes an encrypted entry. -/
def FromSakuruCfg (vols : List FatVolume) (o : Origin) (e : BootEntry) : Prop :=
  e.encrypted ≠ 0 → ∃ vol ∈ vols, o = .sakuruCfg vol.ctx

theorem accounted_fromSakuruCfg (vols : List FatVolume) (ext4s : List Ext4Volume) :
    Accounted vols ext4s (FromSakuruCfg vols) where
  sakuruCfg vol hvol _ _ _ _ _ _ _ := ⟨vol, hvol, rfl⟩
  loaderConf _ _ _ _ _ _ _ _ h := absurd rfl h
  kernelFile _ _ _ _ _ _ h := absurd rfl h
  ext4File _ _ _ _ _ _ _ _ h := absurd rfl h

/-- An encrypted entry is bound to the FAT volume that holds its `sakuru.cfg`. -/
theorem encrypted_ctx {boot : Option FatVolume} {vols : List FatVolume} {ext4s : List Ext4Volume} {i : Nat}
    {e : BootEntry} (he : (discover boot vols ext4s startScan).cfg.entries[i]? = some e) (hcrypt : e.encrypted ≠ 0) :
    ∃ vol ∈ boot.toList ++ vols, (discover boot vols ext4s startScan).origins[i]? = some (.sakuruCfg vol.ctx) ∧
      (discover boot vols ext4s startScan).entryCtx i = some vol.ctx := by
  have hrec := records_scanVolumes (accounted_fromSakuruCfg (boot.toList ++ vols) ext4s) records_startScan
  have happ := appended_discover boot vols ext4s startScan
  obtain ⟨more, hmore, hplain⟩ := happ.entries
  rw [hmore] at he
  -- the entries behind those of the first three scans are not encrypted
  rcases Nat.lt_or_ge i (scanVolumes boot vols ext4s startScan).cfg.numEntries with hlt | hge
  · rw [List.getElem?_append_left hlt] at he
    have hi : i < (scanVolumes boot vols ext4s startScan).origins.length := hrec.length_eq ▸ hlt
    obtain ⟨vol, hvol, ho⟩ := hrec.accounts i _ e (List.getElem?_eq_getElem hi) he hcrypt
    have horigin : (scanVolumes boot vols ext4s startScan).origins[i]? = some (.sakuruCfg vol.ctx) := by
      rw [List.getElem?_eq_getElem hi, ho]
    refine ⟨vol, hvol, ?_, ?_⟩
    · obtain ⟨rest, hrest⟩ := happ.origins
      rw [← hrest, List.getElem?_append_left hi, horigin]
    · rw [happ.entryCtx, hrec.ctx_eq i, horigin]
      rfl
  · rw [List.getElem?_append_right hge] at he
    exact absurd (hplain e (List.mem_of_getElem? he)) hcrypt

/-! ## The unlock is not reached -/

theorem loadEntry_not_luksOpen (fw : MainFw) (entry : BootEntry) (ctx : Option FsCtx) :
    ∀ ev ∈ (loadEntry fw entry ctx).1, ev.isLuksOpen = false := by
  unfold loadEntry
  cases findLoader entry with
  | none => nofun
  | some loader =>
    cases ctx with
    | none =>
      dsimp only
      split_ifs <;> nofun
    | some ctx =>
      dsimp only
      split_ifs <;> simp [MainEvent.isLuksOpen]

/-- On a FAT context an entry is loaded as if it were not encrypted. -/
theorem bootEntry_fat (fw : MainFw) (hasRoot : Bool) (entry : BootEntry) (root : Handle) (sfs : Option Handle)
    (typed : Nat → List Int) (hshell : entry.type ≠ .uefiShell) :
    bootEntry fw hasRoot entry (some (.fat root sfs)) typed = loadEntry fw entry (some (.fat root sfs)) := by
  have hunlock : (if entry.encrypted ≠ 0 then unlockEntry fw hasRoot entry (some (.fat root sfs)) typed
      else ([], .proceed (some (.fat root sfs)))) = ([], .proceed (some (.fat root sfs))) := by
    split_ifs <;> rfl
  unfold bootEntry
  rw [if_neg hshell, hunlock]
  rfl

theorem loadEntry_not_denied (fw : MainFw) (entry : BootEntry) (ctx : Option FsCtx) :
    (loadEntry fw entry ctx).2 ≠ some .accessDenied := by
  unfold loadEntry
  cases findLoader entry with
  | none => nofun
  | some loader =>
    cases ctx with
    | none =>
      dsimp only
      split_ifs <;> nofun
    | some ctx =>
      dsimp only
      split_ifs <;> nofun

theorem encrypted_not_unlocked (m : MainInput) {e : BootEntry} (he : m.entry = some e) (hcrypt : e.encrypted ≠ 0) :
    (∀ ev ∈ (uefiMain m).1, ev.isLuksOpen = false) ∧ (uefiMain m).2 ≠ some .accessDenied := by
  obtain ⟨sel, hsel, hentry⟩ := Option.bind_eq_some_iff.mp he
  obtain ⟨vol, -, -, hctx⟩ := encrypted_ctx hentry hcrypt
  have hload : m.loadCtx sel = some vol.ctx := by
    show ((discover m.boot m.vols m.ext4s startScan).entryCtx sel).or _ = _
    rw [hctx, Option.some_or]
  unfold uefiMain
  split_ifs
  · exact ⟨nofun, nofun⟩
  · rw [hsel, he]
    dsimp only
    rw [hload]
    by_cases hshell : e.type = .uefiShell
    · unfold bootEntry
      rw [if_pos hshell]
      simp [MainEvent.isLuksOpen]
    · rw [FatVolume.ctx, bootEntry_fat _ _ _ _ _ _ hshell]
      exact ⟨loadEntry_not_luksOpen m.fw e _, loadEntry_not_denied m.fw e _⟩

/-! ## The unlock itself -/

/-- The attempts only try passphrases, and go on to a load only with a filesystem mounted. -/
theorem unlockLoop_proceed (fw : MainFw) (bio : Handle) (keyfile : Bool) (typed : Nat → List Int) (tries attempt : Nat)
    (buf : Buffer Byte 256) :
    (∀ ev ∈ (unlockLoop fw bio keyfile typed tries attempt buf).1, ev.isLoad = false) ∧
    ∀ ctx, (unlockLoop fw bio keyfile typed tries attempt buf).2 = .proceed ctx →
      ∃ pass, .luksOpen bio pass true ∈ (unlockLoop fw bio keyfile typed tries attempt buf).1 := by
  induction tries generalizing attempt buf with
  | zero => exact ⟨nofun, nofun⟩
  | succ tries ih =>
    unfold unlockLoop
    split
    · exact ⟨nofun, nofun⟩
    · rename_i pass _
      split
      · exact ⟨by simp [MainEvent.isLoad], fun _ _ => ⟨pass, List.mem_singleton.mpr rfl⟩⟩
      · obtain ⟨hload, hopen⟩ := ih (attempt + 1) (Buffer.fill 256 0)
        refine ⟨?_, fun ctx hctx => ?_⟩
        · intro ev hev
          rcases List.mem_cons.mp hev with rfl | hev
          · rfl
          · exact hload ev hev
        · obtain ⟨pass', hmem⟩ := hopen ctx hctx
          exact ⟨pass', List.mem_cons_of_mem _ hmem⟩

/-- Where the unlock is reached, on an ext4 context with a block device behind it, nothing is loaded before a passphrase
has opened it. -/
theorem bootEntry_ext4_unlocked (fw : MainFw) (hasRoot : Bool) {entry : BootEntry} {vol bio : Handle}
    (typed : Nat → List Int) (hcrypt : entry.encrypted ≠ 0) (hbio : (fw.partHandle vol).bind fw.blockIo = some bio)
    {ev : MainEvent} (hev : ev ∈ (bootEntry fw hasRoot entry (some (.ext4 vol)) typed).1) (hload : ev.isLoad = true) :
    ∃ pre post pass, (bootEntry fw hasRoot entry (some (.ext4 vol)) typed).1 = pre ++ post ∧
      .luksOpen bio pass true ∈ pre ∧ ∀ ev ∈ pre, ev.isLoad = false := by
  obtain ⟨keyfile, tries, buf, hunlock⟩ : ∃ keyfile tries buf, unlockEntry fw hasRoot entry (some (.ext4 vol)) typed =
      unlockLoop fw bio keyfile typed tries 0 buf := by
    unfold unlockEntry
    dsimp only
    rw [hbio]
    dsimp only
    split
    · exact ⟨_, _, _, rfl⟩
    · exact ⟨_, _, _, rfl⟩
  obtain ⟨hnone, hopen⟩ := unlockLoop_proceed fw bio keyfile typed tries 0 buf
  unfold bootEntry at hev ⊢
  split_ifs at hev ⊢
  · rw [List.mem_singleton.mp hev] at hload
    cases hload
  · dsimp only at hev ⊢
    rw [hunlock] at hev ⊢
    cases hres : (unlockLoop fw bio keyfile typed tries 0 buf).2 with
    | denied =>
      rw [hres] at hev
      exact absurd hload (by rw [hnone ev hev]; decide)
    | waiting =>
      rw [hres] at hev
      exact absurd hload (by rw [hnone ev hev]; decide)
    | proceed ctx =>
      obtain ⟨pass, hmem⟩ := hopen ctx hres
      exact ⟨_, _, pass, rfl, hmem, hnone⟩

/-! ## The contract of an encrypted entry -/

/-- The selected entry is encrypted, and its kernel is not on the FAT volume of its `sakuru.cfg`. -/
def MainInput.KernelSealed (m : MainInput) : Prop :=
  ∃ sel e, m.sel = some sel ∧ m.found.cfg.entries[sel]? = some e ∧ e.encrypted ≠ 0 ∧
    ∃ vol ∈ m.boot.toList ++ m.vols, m.found.origins[sel]? = some (.sakuruCfg vol.ctx) ∧ vol.opens e.kernel = false

/-- A passphrase is tried on a partition before anything is loaded. -/
def OpensFirst (m : MainInput) : Prop :=
  ∃ pre bio pass ok post, (uefiMain m).1 = pre ++ .luksOpen bio pass ok :: post ∧ ∀ ev ∈ pre, ev.isLoad = false

/-- Without a success nothing is loaded and access is denied. -/
def DeniesAccess (m : MainInput) : Prop :=
  (∀ bio pass, .luksOpen bio pass true ∉ (uefiMain m).1) →
    (uefiMain m).2 = some .accessDenied ∧ ∀ ev ∈ (uefiMain m).1, ev.isLoad = false

/-- No boot of such an entry does either. -/
theorem kernelSealed_not_unlocked (m : MainInput) (h : m.KernelSealed) : ¬OpensFirst m ∧ ¬DeniesAccess m := by
  obtain ⟨sel, e, hsel, he, hcrypt, -⟩ := h
  have hentry : m.entry = some e := by rw [MainInput.entry, hsel, Option.bind_some, he]
  obtain ⟨hnone, hstatus⟩ := encrypted_not_unlocked m hentry hcrypt
  constructor
  · rintro ⟨pre, bio, pass, ok, post, htrace, -⟩
    cases hnone (.luksOpen bio pass ok) (by rw [htrace]; simp)
  · intro hdenies
    exact hstatus (hdenies fun bio pass hmem => Bool.false_ne_true (hnone _ hmem).symm).1

/-- One FAT volume with a `sakuru.cfg` for an encrypted kernel that is not there; Enter at the menu; and drivers that
would open the encrypted partition. -/
def sealedBoot : MainInput where
  boot := none
  vols := [{ sfs := 1, root := 2, dir := fun _ => none, opens := fun _ => false, entryFile := fun _ => none
             file := fun p => if p = lit "/sakuru.cfg" then
               some (lit "[entry:A]\ntype=linux\nkernel=/vmlinuz\nencrypted=yes\n") else none }]
  ext4s := []
  nv := freshNvram
  ops := {}
  keys := [keyEnter]
  typed := fun _ => [keyEnter]
  fw :=
    { partHandle := some, blockIo := some, keyFile := fun _ => none, luksOpenEfi := fun _ bio _ => some bio
      ext4MountLuks := some, allocInfo := true, load := fun _ _ _ => 0, exitBootServices := true }

theorem sealedBoot_trace : uefiMain sealedBoot = ([.load .linux
    { name := lit "A", type := .linux, kernel := lit "/vmlinuz", encrypted := 1, luksTries := 3 } (.fat 2 (some 1))],
    some .loadError) := by
  decide

theorem sealedBoot_kernelSealed : sealedBoot.KernelSealed := by
  refine ⟨0, { name := lit "A", type := .linux, kernel := lit "/vmlinuz", encrypted := 1, luksTries := 3 }, ?_, ?_, ?_,
    _, List.mem_singleton.mpr rfl, ?_, rfl⟩
  · decide
  · decide
  · decide
  · decide

theorem sealedBoot_not_unlocked : sealedBoot.KernelSealed ∧ ¬OpensFirst sealedBoot ∧ ¬DeniesAccess sealedBoot :=
  ⟨sealedBoot_kernelSealed, kernelSealed_not_unlocked sealedBoot sealedBoot_kernelSealed⟩

/-- The kernel is loaded from the FAT volume, and its absence is the error reported. -/
theorem sealedBoot_loads : ¬∀ m : MainInput, m.KernelSealed → OpensFirst m ∧ DeniesAccess m := by
  intro hall
  obtain ⟨pre, bio, pass, ok, post, htrace, -⟩ := (hall sealedBoot sealedBoot_kernelSealed).1
  rw [sealedBoot_trace] at htrace
  have hmem : MainEvent.luksOpen bio pass ok ∈ pre ++ .luksOpen bio pass ok :: post := by simp
  rw [← htrace] at hmem
  cases List.mem_singleton.mp hmem

end SakuruBoot

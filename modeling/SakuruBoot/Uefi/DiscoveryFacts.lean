import SakuruBoot.Common.Selection
import SakuruBoot.Uefi.Discovery

/-!
# What discovery records

`Records` says that the table, `g_entry_ctx` and the origins are in step: every entry has an origin, and its context is
the volume of that origin. Every scan keeps it, because every scan either leaves the table alone or extends all three
(`addKernel_cases`, `assignCtx`); `entryCtx_scanVolumes` is the result for `uefi_main`.
-/

namespace SakuruBoot
open CStr

variable {s t : ScanState}

/-! ## Scans as folds -/

section Rules

variable {vol : FatVolume} {R : ScanState → ScanState → Prop}

/-- The name is that of a record of the directory. -/
def FatVolume.Lists (vol : FatVolume) (dirPath name : List Byte) : Prop :=
  ∃ infos, vol.dir dirPath = some infos ∧ ∃ info ∈ infos, ucs2ToAscii info.name 256 = name

/-- What one file keeps, a directory scan keeps. -/
theorem scanDirUefi_rel {allowEfi : Bool}
    (hfile : ∀ s t dirPath name, vol.Lists dirPath name → R s t →
      R (scanFile vol allowEfi dirPath s name) (scanFile vol allowEfi dirPath t name)) (dirPath : List Byte)
    (h : R s t) : R (scanDirUefi vol dirPath allowEfi s) (scanDirUefi vol dirPath allowEfi t) := by
  have hinfos : ∀ (sub : List Byte → ScanState → ScanState), (∀ s t d, R s t → R (sub d s) (sub d t)) →
      ∀ s t d, R s t → R (scanInfos vol allowEfi sub d s) (scanInfos vol allowEfi sub d t) := by
    intro sub hsub s t d hst
    unfold scanInfos
    split
    · exact hst
    · rename_i infos hdir
      refine List.foldl_rel hst fun info hinfo s t hst => ?_
      dsimp only
      split_ifs
      · exact hst
      · exact hsub s t _ hst
      · exact hfile s t d _ ⟨infos, hdir, info, (List.takeWhile_sublist _).mem hinfo, rfl⟩ hst
  exact hinfos _ (hinfos _ fun _ _ _ hst => hst) s t dirPath h

theorem scanLoaderEntries_rel (vol : FatVolume)
    (hinfo : ∀ s t info, R s t → R (scanLoaderInfo vol s info) (scanLoaderInfo vol t info)) (h : R s t) :
    R (scanLoaderEntries vol s) (scanLoaderEntries vol t) := by
  unfold scanLoaderEntries
  split
  · exact h
  · exact List.foldl_rel h fun info _ s t hst => hinfo s t info hst

variable {I : ScanState → Prop}

theorem scanDirUefi_invariant {allowEfi : Bool}
    (hfile : ∀ s dirPath name, vol.Lists dirPath name → I s → I (scanFile vol allowEfi dirPath s name))
    (dirPath : List Byte) (h : I s) : I (scanDirUefi vol dirPath allowEfi s) := by
  have hrel : I (scanDirUefi vol dirPath allowEfi s) ∧
      scanDirUefi vol dirPath allowEfi s = scanDirUefi vol dirPath allowEfi s :=
    scanDirUefi_rel (R := fun s t => I s ∧ s = t) 
      (fun s t d name hname hst => ⟨hfile s d name hname hst.1, by rw [hst.2]⟩) dirPath ⟨h, rfl⟩
  exact hrel.1

theorem scanLoaderEntries_invariant
    (hinfo : ∀ s infos info, vol.dir (lit "/loader/entries") = some infos → info ∈ infos → I s →
      I (scanLoaderInfo vol s info)) (h : I s) : I (scanLoaderEntries vol s) := by
  unfold scanLoaderEntries
  split
  · exact h
  · rename_i infos hdir
    exact List.foldlRecOn _ _ h fun s hs info hmem =>
      hinfo s infos info hdir ((List.takeWhile_sublist _).mem hmem) hs

end Rules

/-! ## One entry -/

/-- A new entry at the end of the table, with its context and origin. -/
def ScanState.push (s : ScanState) (e : BootEntry) (ctx : FsCtx) (origin : Origin) : ScanState :=
  { s with
    cfg := { s.cfg with entries := s.cfg.entries ++ [e] }
    entryCtx := Function.update s.entryCtx s.cfg.numEntries (some ctx)
    origins := s.origins ++ [origin] }

@[simp] theorem push_numEntries (s : ScanState) (e : BootEntry) (ctx : FsCtx) (origin : Origin) :
    (s.push e ctx origin).cfg.numEntries = s.cfg.numEntries + 1 := by
  simp [ScanState.push, BootConfig.numEntries]

/-- The entry `config_add_kernel` makes. -/
def kernelEntry (name : List Byte) (type : OSType) (kernelPath : List Byte) (initrdPath : Option (List Byte)) :
    BootEntry where
  type := type
  name := strCopy name maxStrLen
  kernel := strCopy kernelPath maxStrLen
  initrd := match initrdPath with
    | some p => if deref p != 0 then strCopy p maxStrLen else []
    | none => []

/-- A kernel is not added, or it is pushed. -/
theorem addKernel_cases (s : ScanState) (name : List Byte) (type : OSType) (kernelPath : List Byte)
    (initrdPath : Option (List Byte)) (ctx : FsCtx) (origin : Origin) :
    addKernel s name type kernelPath initrdPath ctx origin = s ∨
      s.cfg.numEntries < maxEntries ∧ addKernel s name type kernelPath initrdPath ctx origin =
        s.push (kernelEntry name type kernelPath initrdPath) ctx origin := by
  have hcases : (configAddKernel s.cfg name type kernelPath initrdPath).2 = s.cfg ∨
      s.cfg.numEntries < maxEntries ∧ (configAddKernel s.cfg name type kernelPath initrdPath).2 =
        { s.cfg with entries := s.cfg.entries ++ [kernelEntry name type kernelPath initrdPath] } := by
    unfold configAddKernel
    split
    · exact .inl rfl
    · split
      · exact .inl rfl
      · exact .inr ⟨by omega, rfl⟩
  unfold addKernel
  dsimp only
  generalize kernelEntry name type kernelPath initrdPath = e at *
  rcases hcases with hc | ⟨hlt, hc⟩
  · left
    rw [hc, if_neg (lt_irrefl _)]
  · right
    refine ⟨hlt, ?_⟩
    have hlen : ({ s.cfg with entries := s.cfg.entries ++ [e] } : BootConfig).numEntries = s.cfg.numEntries + 1 := by
      simp [BootConfig.numEntries]
    rw [hc, hlen, if_pos (Nat.lt_succ_self _), Nat.add_sub_cancel, ScanState.push]

/-- The text of a loader entry. -/
def FatVolume.confText (vol : FatVolume) (file : List UInt16) : Option (List Byte) :=
  vol.file (efiPathJoin (lit "/loader/entries") (ucs2ToAscii file 256) 256)

/-- The entry made from the text of a loader entry. -/
def confEntry (file : List UInt16) (cbuf : List Byte) : BootEntry :=
  let f := scanConf cbuf
  let title := if f.title = [] then strCopy (ucs2ToAscii file 256) 256 else f.title
  { kernelEntry title .linux f.linuxPath f.initrds.head? with cmdline := strCopy (loaderCmdline f) 256 }

theorem scanLoaderInfo_cases (vol : FatVolume) (s : ScanState) (info : FileInfo) :
    scanLoaderInfo vol s info = s ∨ s.cfg.numEntries < maxEntries ∧
      ∃ cbuf, vol.confText info.name = some cbuf ∧
        scanLoaderInfo vol s info = s.push (confEntry info.name cbuf) vol.ctx (.loaderConf vol.ctx info.name) := by
  unfold scanLoaderInfo
  dsimp only
  split
  · exact .inl rfl
  split
  · exact .inl rfl
  rename_i cbuf hcbuf
  split
  · exact .inl rfl
  rcases addKernel_cases s (if (scanConf cbuf).title = [] then strCopy (ucs2ToAscii info.name 256) 256
      else (scanConf cbuf).title) .linux (scanConf cbuf).linuxPath (scanConf cbuf).initrds.head? vol.ctx
      (.loaderConf vol.ctx info.name) with hc | ⟨hlt, hc⟩
  · left
    rw [hc, if_neg (lt_irrefl _)]
  · -- the command line is stored in the entry just added
    right
    refine ⟨hlt, cbuf, hcbuf, ?_⟩
    rw [hc, push_numEntries, if_pos (Nat.lt_succ_self _), Nat.add_sub_cancel,
      List.modify_eq_take_cons_drop (by simp [ScanState.push])]
    simp [ScanState.push, confEntry]

/-- The type a file is taken for. -/
def fileType (allowEfi : Bool) (name : List Byte) : OSType :=
  if configGuessType name = .unknown ∧ allowEfi ∧ isEfiName name then .linux else configGuessType name

/-- The entry made from a kernel file. -/
def fileEntry (vol : FatVolume) (allowEfi : Bool) (dirPath name : List Byte) : BootEntry :=
  let type := fileType allowEfi name
  let initrd := if type = .linux ∧ !allowEfi then
      ((initrdCandidates name).map fun c => efiPathJoin dirPath c 256).find? vol.opens
    else none
  kernelEntry (configMakeName dirPath name type 256) type (efiPathJoin dirPath name 256)
    (initrd.bind fun p => if p = [] then none else some p)

theorem scanFile_cases (vol : FatVolume) (allowEfi : Bool) (dirPath : List Byte) (s : ScanState) (name : List Byte) :
    scanFile vol allowEfi dirPath s name = s ∨ s.cfg.numEntries < maxEntries ∧
      scanFile vol allowEfi dirPath s name = s.push (fileEntry vol allowEfi dirPath name)
        (.fat vol.root s.currentSfs) (.kernelFile vol.ctx (efiPathJoin dirPath name 256)) := by
  have hfile : scanFile vol allowEfi dirPath s name = if fileType allowEfi name = .unknown then s else
      addKernel s (configMakeName dirPath name (fileType allowEfi name) 256) (fileType allowEfi name)
        (efiPathJoin dirPath name 256)
        ((if fileType allowEfi name = .linux ∧ !allowEfi then
          ((initrdCandidates name).map fun c => efiPathJoin dirPath c 256).find? vol.opens else none).bind
          fun p => if p = [] then none else some p)
        (.fat vol.root s.currentSfs) (.kernelFile vol.ctx (efiPathJoin dirPath name 256)) := rfl
  rw [hfile]
  split
  · exact .inl rfl
  · exact addKernel_cases _ _ _ _ _ _ _

theorem ext4ScanCb_cases (vol : Ext4Volume) (dir : List Byte) (s : ScanState) (item : List Byte × Bool) :
    ext4ScanCb vol dir s item = s ∨ s.cfg.numEntries < maxEntries ∧
      ∃ name type initrd, ext4ScanCb vol dir s item =
        s.push (kernelEntry name type (efiPathJoin dir item.1 256) initrd) vol.ctx
          (.kernelFile vol.ctx (efiPathJoin dir item.1 256)) := by
  unfold ext4ScanCb
  dsimp only
  split
  · exact .inl rfl
  · refine (addKernel_cases s _ _ _ _ _ _).imp_right fun h => ⟨h.1, _, _, _, h.2⟩

/-! ## The table, the contexts and the origins -/

/-- Every entry has an origin that accounts for it, and its context is the volume of that origin. -/
structure Records (Accounts : Origin → BootEntry → Prop) (s : ScanState) : Prop where
  length_eq : s.origins.length = s.cfg.numEntries
  numEntries_le : s.cfg.numEntries ≤ maxEntries
  ctx_eq : ∀ i, s.entryCtx i = (s.origins[i]?).bind Origin.volume?
  accounts : ∀ (i : Nat) (o : Origin) (e : BootEntry), s.origins[i]? = some o → s.cfg.entries[i]? = some e →
    Accounts o e

variable {Accounts : Origin → BootEntry → Prop}

theorem Records.push {e : BootEntry} {ctx : FsCtx} {origin : Origin} (h : Records Accounts s)
    (hroom : s.cfg.numEntries < maxEntries) (horigin : origin.volume? = some ctx) (he : Accounts origin e) :
    Records Accounts (s.push e ctx origin) := by
  refine ⟨?_, ?_, fun i => ?_, fun i o e' ho he' => ?_⟩
  · rw [push_numEntries, ← h.length_eq]
    simp [ScanState.push]
  · rw [push_numEntries]
    exact hroom
  · show Function.update s.entryCtx s.cfg.numEntries (some ctx) i = ((s.origins ++ [origin])[i]?).bind Origin.volume?
    rw [Function.update_apply, ← h.length_eq]
    split_ifs with hi
    · rw [hi, List.getElem?_concat_length, Option.bind_some, horigin]
    · rw [h.ctx_eq i]
      rcases Nat.lt_or_gt_of_ne hi with hlt | hgt
      · rw [List.getElem?_append_left hlt]
      · rw [List.getElem?_eq_none (by omega), List.getElem?_eq_none (by simp; omega)]
  · have hlen := h.length_eq
    have ho' : (s.origins ++ [origin])[i]? = some o := ho
    have he'' : (s.cfg.entries ++ [e])[i]? = some e' := he'
    rcases Nat.lt_or_ge i s.cfg.numEntries with hlt | hge
    · rw [List.getElem?_append_left (by omega)] at ho' he''
      exact h.accounts i o e' ho' he''
    · have hi : i = s.cfg.numEntries := by
        have hbound := (List.getElem?_eq_some_iff.mp he'').1
        rw [List.length_append, List.length_singleton] at hbound
        exact Nat.le_antisymm (by have : i < s.cfg.numEntries + 1 := hbound; omega) hge
      rw [hi, List.getElem?_concat_length, Option.some.injEq] at he''
      rw [hi, ← hlen, List.getElem?_concat_length, Option.some.injEq] at ho'
      rw [← ho', ← he'']
      exact he

/-- A file that keeps the entries there were gets its context for the new ones. -/
theorem Records.assignCtx {cfg : BootConfig} {ctx : FsCtx} (h : Records Accounts s)
    (hgrow : s.cfg.entries <+: cfg.entries) (hmax : cfg.numEntries ≤ maxEntries)
    (hnew : ∀ e ∈ cfg.entries.drop s.cfg.numEntries, Accounts (.sakuruCfg ctx) e) :
    Records Accounts (assignCtx s s.cfg.numEntries cfg ctx (.sakuruCfg ctx)) := by
  have hle : s.cfg.numEntries ≤ cfg.numEntries := hgrow.length_le
  have htake : s.origins.take s.cfg.numEntries = s.origins := by
    rw [← h.length_eq, List.take_length]
  have horigins : (SakuruBoot.assignCtx s s.cfg.numEntries cfg ctx (.sakuruCfg ctx)).origins =
      s.origins ++ List.replicate (cfg.numEntries - s.cfg.numEntries) (.sakuruCfg ctx) := by
    show s.origins.take s.cfg.numEntries ++ _ = _
    rw [htake]
  refine ⟨?_, hmax, fun i => ?_, fun i o e ho he => ?_⟩
  · rw [horigins, List.length_append, List.length_replicate, h.length_eq]
    show s.cfg.numEntries + (cfg.numEntries - s.cfg.numEntries) = cfg.numEntries
    omega
  · show (if s.cfg.numEntries ≤ i ∧ i < cfg.numEntries ∧ s.entryCtx i = none then some ctx else s.entryCtx i) = _
    rw [horigins]
    rcases Nat.lt_or_ge i s.cfg.numEntries with hlt | hge
    · rw [if_neg (by omega), List.getElem?_append_left (by rw [h.length_eq]; exact hlt), h.ctx_eq i]
    · have hnone : s.entryCtx i = none := by
        rw [h.ctx_eq i, List.getElem?_eq_none (by rw [h.length_eq]; exact hge)]
        rfl
      rw [List.getElem?_append_right (by rw [h.length_eq]; exact hge), h.length_eq, List.getElem?_replicate, hnone]
      by_cases hi : i < cfg.numEntries
      · rw [if_pos ⟨hge, hi, rfl⟩, if_pos (by omega)]
        rfl
      · rw [if_neg (by omega), if_neg (by omega)]
        rfl
  · rw [horigins] at ho
    rcases Nat.lt_or_ge i s.cfg.numEntries with hlt | hge
    · rw [List.getElem?_append_left (by rw [h.length_eq]; exact hlt)] at ho
      obtain ⟨more, hmore⟩ := hgrow
      have he' : cfg.entries[i]? = some e := he
      rw [← hmore, List.getElem?_append_left hlt] at he'
      exact h.accounts i o e ho he'
    · rw [List.getElem?_append_right (by rw [h.length_eq]; exact hge), List.getElem?_replicate] at ho
      split_ifs at ho
      rw [← Option.some.inj ho]
      refine hnew e (List.mem_of_getElem? (i := i - s.cfg.numEntries) ?_)
      rw [List.getElem?_drop, Nat.add_sub_cancel' hge]
      exact he

/-! ## Every scan keeps them in step -/

/-- The entries the text of a `sakuru.cfg` adds to a table: a full parse starts it afresh, a merge goes on behind it. -/
def sakuruEntries (buf : List Byte) (cfg : BootConfig) : List BootEntry :=
  if cfg.numEntries = 0 then (configParse buf cfg).2.entries
  else (configParseMerge buf cfg).2.entries.drop cfg.numEntries

/-- What each kind of origin says about its entry: the volume is one of those given, and it has the file the entry is
made from. -/
def Found (vols : List FatVolume) (ext4s : List Ext4Volume) (o : Origin) (e : BootEntry) : Prop :=
  match o with
  | .sakuruCfg v => ∃ vol ∈ vols, vol.ctx = v ∧ ∃ buf, vol.file (lit "/sakuru.cfg") = some buf ∧
    ∃ before : BootConfig, before.numEntries ≤ maxEntries ∧ e ∈ sakuruEntries buf before
  | .loaderConf v file => ∃ vol ∈ vols, vol.ctx = v ∧
    (∃ infos, vol.dir (lit "/loader/entries") = some infos ∧ ∃ info ∈ infos, info.name = file) ∧
    ∃ cbuf, vol.confText file = some cbuf ∧ e.kernel = strCopy (scanConf cbuf).linuxPath maxStrLen
  | .kernelFile v path => e.kernel = strCopy path maxStrLen ∧
    ((∃ vol ∈ vols, vol.ctx = v ∧ ∃ d name, vol.Lists d name ∧ path = efiPathJoin d name 256) ∨
      ∃ vol ∈ ext4s, vol.ctx = v ∧ ∃ d, ∃ item ∈ vol.readdir d, path = efiPathJoin d item.1 256)
  | .shell => False

/-- The entries the scans make are accounted for by what they are made from. -/
structure Accounted (vols : List FatVolume) (ext4s : List Ext4Volume) (Accounts : Origin → BootEntry → Prop) :
    Prop where
  sakuruCfg : ∀ vol ∈ vols, ∀ buf, vol.file (lit "/sakuru.cfg") = some buf → ∀ before : BootConfig,
    before.numEntries ≤ maxEntries → ∀ e ∈ sakuruEntries buf before, Accounts (.sakuruCfg vol.ctx) e
  loaderConf : ∀ vol ∈ vols, ∀ infos, vol.dir (lit "/loader/entries") = some infos → ∀ info ∈ infos, ∀ cbuf,
    vol.confText info.name = some cbuf → Accounts (.loaderConf vol.ctx info.name) (confEntry info.name cbuf)
  kernelFile : ∀ vol ∈ vols, ∀ allowEfi d name, vol.Lists d name →
    Accounts (.kernelFile vol.ctx (efiPathJoin d name 256)) (fileEntry vol allowEfi d name)
  ext4File : ∀ vol ∈ ext4s, ∀ d, ∀ item ∈ vol.readdir d, ∀ name type initrd,
    Accounts (.kernelFile vol.ctx (efiPathJoin d item.1 256)) (kernelEntry name type (efiPathJoin d item.1 256) initrd)

variable {vols : List FatVolume} {ext4s : List Ext4Volume} {vol : FatVolume}

theorem accounted_found (vols : List FatVolume) (ext4s : List Ext4Volume) : Accounted vols ext4s (Found vols ext4s) where
  sakuruCfg vol hvol buf hbuf before hbefore _ he := ⟨vol, hvol, rfl, buf, hbuf, before, hbefore, he⟩
  loaderConf vol hvol infos hdir info hinfo cbuf hcbuf :=
    ⟨vol, hvol, rfl, ⟨infos, hdir, info, hinfo, rfl⟩, cbuf, hcbuf, rfl⟩
  kernelFile vol hvol _ d name hname := ⟨rfl, .inl ⟨vol, hvol, rfl, d, name, hname, rfl⟩⟩
  ext4File vol hvol d item hitem _ _ _ := ⟨rfl, .inr ⟨vol, hvol, rfl, d, item, hitem, rfl⟩⟩

/-- In step, with the handle of the volume being scanned. -/
def ScansOn (Accounts : Origin → BootEntry → Prop) (vol : FatVolume) (s : ScanState) : Prop :=
  Records Accounts s ∧ s.currentSfs = some vol.sfs

theorem scansOn_readSakuruCfg (hA : Accounted vols ext4s Accounts) (hvol : vol ∈ vols)
    (h : ScansOn Accounts vol s) :
    ScansOn Accounts vol (readSakuruCfg vol s) := by
  unfold readSakuruCfg
  split
  · exact h
  · rename_i buf hbuf
    dsimp only
    refine ⟨h.1.assignCtx ?_ ?_ fun e he => hA.sakuruCfg vol hvol buf hbuf s.cfg h.1.numEntries_le e ?_, h.2⟩
    · split_ifs with h0
      · rw [List.length_eq_zero_iff.mp h0]
        exact List.nil_prefix
      · exact (configParseMerge_keeps h.1.numEntries_le buf).2
    · split_ifs
      · exact doParse_numEntries_le buf false h.1.numEntries_le
      · exact doParse_numEntries_le buf true h.1.numEntries_le
    · unfold sakuruEntries
      split_ifs at he ⊢ with h0
      · rwa [h0] at he
      · exact he

theorem scansOn_scanLoaderEntries (hA : Accounted vols ext4s Accounts) (hvol : vol ∈ vols)
    (h : ScansOn Accounts vol s) :
    ScansOn Accounts vol (scanLoaderEntries vol s) := by
  refine scanLoaderEntries_invariant (I := ScansOn Accounts vol) (fun s infos info hdir hinfo hs => ?_) h
  rcases scanLoaderInfo_cases vol s info with hc | ⟨hroom, cbuf, hcbuf, hc⟩
  · rwa [hc]
  · rw [hc]
    exact ⟨hs.1.push hroom rfl (hA.loaderConf vol hvol infos hdir info hinfo cbuf hcbuf), hs.2⟩

theorem scansOn_scanDirUefi (hA : Accounted vols ext4s Accounts) (hvol : vol ∈ vols) (dirPath : List Byte)
    (allowEfi : Bool)
    (h : ScansOn Accounts vol s) : ScansOn Accounts vol (scanDirUefi vol dirPath allowEfi s) := by
  refine scanDirUefi_invariant (I := ScansOn Accounts vol) (fun s d name hname hs => ?_) dirPath h
  rcases scanFile_cases vol allowEfi d s name with hc | ⟨hroom, hc⟩
  · rwa [hc]
  · rw [hc, hs.2]
    exact ⟨hs.1.push hroom rfl (hA.kernelFile vol hvol allowEfi d name hname), hs.2⟩

theorem records_scanVolume (hA : Accounted vols ext4s Accounts) (hvol : vol ∈ vols) (h : Records Accounts s) :
    Records Accounts (scanVolume vol s) := by
  have hstart : ScansOn Accounts vol { s with currentSfs := some vol.sfs } := ⟨⟨h.1, h.2, h.3, h.4⟩, rfl⟩
  have hcfg := scansOn_readSakuruCfg hA hvol hstart
  have hloader := scansOn_scanLoaderEntries hA hvol hcfg
  have hboot := scansOn_scanDirUefi hA hvol (lit "/boot") false hloader
  have hefi := scansOn_scanDirUefi hA hvol (lit "/EFI/Linux") true hboot
  exact (scansOn_scanDirUefi hA hvol (lit "/") false hefi).1

theorem bootFirst_perm (bootSfs : Option Handle) (vs : List FatVolume) : (bootFirst bootSfs vs).Perm vs := by
  unfold bootFirst
  cases bootSfs with
  | none => exact .refl _
  | some b =>
    cases vs with
    | nil => exact .refl _
    | cons first rest =>
      dsimp only
      split
      · exact .refl _
      · exact List.getD_set_perm_cons rest _ first

theorem records_scanAllFilesystems (hA : Accounted vols ext4s Accounts) (bootSfs : Option Handle)
    {vs : List FatVolume} (hvs : ∀ v ∈ vs, v ∈ vols)
    (h : Records Accounts s) : Records Accounts (scanAllFilesystems bootSfs vs s) := by
  refine List.foldlRecOn _ _ h fun s hs vol hvol => ?_
  split_ifs
  · exact records_scanVolume hA (hvs vol ((bootFirst_perm bootSfs vs).mem_iff.mp hvol)) hs
  · exact hs

theorem records_scanAllExt4 (hA : Accounted vols ext4s Accounts) (h : Records Accounts s) :
    Records Accounts (scanAllExt4 ext4s s) := by
  refine List.foldlRecOn _ _ h fun s hs vol hvol => ?_
  have hcb : ∀ (dir : List Byte) (s : ScanState), Records Accounts s →
      Records Accounts ((vol.readdir dir).foldl (ext4ScanCb vol dir) s) := by
    intro dir s hs
    refine List.foldlRecOn _ _ hs fun s hs item hitem => ?_
    rcases ext4ScanCb_cases vol dir s item with hc | ⟨hroom, kname, type, initrd, hc⟩
    · rwa [hc]
    · rw [hc]
      exact hs.push hroom rfl (hA.ext4File vol hvol dir item hitem kname type initrd)
  exact hcb _ _ (hcb _ _ hs)

theorem records_rescanBoot (hA : Accounted vols ext4s Accounts) {boot : FatVolume} (hboot : boot ∈ vols)
    (h : Records Accounts s) :
    Records Accounts (rescanBoot boot s) := by
  unfold rescanBoot
  dsimp only
  generalize hs' : ite (s.cfg.numEntries = 0) _ s = s'
  have hcfg : Records Accounts s' := by
    rw [← hs']
    split_ifs with h0
    · split
      · exact h
      · rename_i buf hbuf
        have hempty : s.cfg.entries <+: (configParse buf s.cfg).2.entries := by
          rw [List.length_eq_zero_iff.mp h0]
          exact List.nil_prefix
        have hnew : ∀ e ∈ (configParse buf s.cfg).2.entries.drop s.cfg.numEntries,
            Accounts (.sakuruCfg boot.ctx) e := by
          intro e he
          rw [h0, List.drop_zero] at he
          exact hA.sakuruCfg boot hboot buf hbuf s.cfg h.numEntries_le e (by rwa [sakuruEntries, if_pos h0])
        have hassign := h.assignCtx hempty (doParse_numEntries_le buf false h.numEntries_le) hnew
        rwa [h0] at hassign
    · exact h
  have hstart : ScansOn Accounts boot { s' with currentSfs := some boot.sfs } :=
    ⟨⟨hcfg.1, hcfg.2, hcfg.3, hcfg.4⟩, rfl⟩
  exact (scansOn_scanDirUefi hA hboot _ true (scansOn_scanDirUefi hA hboot _ false hstart)).1

theorem records_scanVolumes {boot : Option FatVolume} (hA : Accounted (boot.toList ++ vols) ext4s Accounts)
    (h : Records Accounts s) :
    Records Accounts (scanVolumes boot vols ext4s s) := by
  have hall := records_scanAllExt4 hA
    (records_scanAllFilesystems hA (boot.map FatVolume.sfs) (fun v hv => List.mem_append_right boot.toList hv) h)
  unfold scanVolumes
  cases boot with
  | none => exact hall
  | some boot => exact records_rescanBoot hA (by simp) hall

theorem records_startScan : Records Accounts startScan := ⟨rfl, Nat.zero_le _, fun _ => rfl, nofun⟩

/-- After the three scans of `uefi_main`, whatever the volumes hold: the contexts are set exactly for the entries of
the table, and each is the volume on which the section, loader entry or kernel file of its entry was found. -/
theorem entryCtx_scanVolumes (boot : Option FatVolume) (vols : List FatVolume) (ext4s : List Ext4Volume) :
    (∀ i, ((scanVolumes boot vols ext4s startScan).entryCtx i).isSome ↔
      i < (scanVolumes boot vols ext4s startScan).cfg.numEntries) ∧
    ∀ i e, (scanVolumes boot vols ext4s startScan).cfg.entries[i]? = some e →
      ∃ o, (scanVolumes boot vols ext4s startScan).origins[i]? = some o ∧ Found (boot.toList ++ vols) ext4s o e ∧
        (scanVolumes boot vols ext4s startScan).entryCtx i = o.volume? := by
  have h := records_scanVolumes (accounted_found (boot.toList ++ vols) ext4s) records_startScan
  generalize scanVolumes boot vols ext4s startScan = s at h
  have hentry : ∀ i e, s.cfg.entries[i]? = some e → ∃ o, s.origins[i]? = some o ∧
      Found (boot.toList ++ vols) ext4s o e ∧ s.entryCtx i = o.volume? := by
    intro i e he
    have hi : i < s.origins.length := h.length_eq ▸ (List.getElem?_eq_some_iff.mp he).1
    have ho : s.origins[i]? = some s.origins[i] := List.getElem?_eq_getElem hi
    refine ⟨s.origins[i], ho, h.accounts i _ e ho he, ?_⟩
    rw [h.ctx_eq i, ho, Option.bind_some]
  refine ⟨fun i => ?_, hentry⟩
  constructor
  · intro hsome
    by_contra hge
    rw [h.ctx_eq i, List.getElem?_eq_none (by rw [h.length_eq]; omega)] at hsome
    cases hsome
  · intro hi
    obtain ⟨o, -, hfound, hctx⟩ := hentry i _ (List.getElem?_eq_getElem hi)
    rw [hctx]
    cases o with
    | shell => exact hfound.elim
    | sakuruCfg v => rfl
    | loaderConf v file => rfl
    | kernelFile v path => rfl

end SakuruBoot

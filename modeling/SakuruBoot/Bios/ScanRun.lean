import SakuruBoot.Bios.Scan

/-!
# What discovery visits

An enumeration of `/boot` whose callback enumerates a subdirectory goes on over the cluster that was read last for the
subdirectory. It is right if behind the entry of each subdirectory that cluster shows the same as the directory's own
(`FatVol.Calm`). Then discovery calls `scan_cb` once for each live entry of `/boot` and of its subdirectories, in the
directory where it lives (`scan_boot_right`).
-/

namespace SakuruBoot.Fat
open CStr Bytes

/-! ## What an enumeration makes of an entry -/

inductive EntryKind
  | stop
  | gap
  | frag (ord : Nat) (chars : List Byte)
  | live (shortName : List Byte) (isDir : Bool)
  deriving DecidableEq

def DirEntry.kind (e : DirEntry) : EntryKind :=
  if e.first = 0 then .stop
  else if e.first = 0xE5 then .gap
  else if e.first = 46 then .gap
  else if e.isVolumeId && !e.isLfn then .gap
  else if e.isLfn then
    if e.first % 64 = 0 || 20 < e.first % 64 then .gap else .frag (e.first % 64 - 1) e.lfnChars
  else .live (str (fat83ToStr e.name e.ext)) e.isDir

def EntryKind.act (s : LfnState) : EntryKind → Listing
  | stop => .stop
  | gap => .skip { s with len := false }
  | frag ord chars => .skip { buf := placeLfn s.buf ord chars, len := true }
  | live shortName _ =>
    if s.len then .entry s.text { s with len := false }
    else if shortName.isEmpty then .skip s else .entry shortName s

theorem listStep_kind (s : LfnState) (e : DirEntry) : listStep s e = e.kind.act s := by
  rw [listStep, DirEntry.kind]
  dsimp only
  split_ifs
  all_goals first
    | rfl
    | simp_all [EntryKind.act]

theorem kind_eq_stop_iff (e : DirEntry) : e.kind = .stop ↔ e.first = 0 := by
  rw [DirEntry.kind]
  split_ifs with h0
  all_goals simp [h0]

theorem kind_live {e : DirEntry} {name : List Byte} {isDir : Bool} (h : e.kind = .live name isDir) :
    e.isDir = isDir := by
  rw [DirEntry.kind] at h
  split_ifs at h
  exact (EntryKind.live.inj h).2

theorem live_of_listStep {s s' : LfnState} {e : DirEntry} {name : List Byte} (h : listStep s e = .entry name s') :
    ∃ shortName, e.kind = .live shortName e.isDir := by
  rw [listStep_kind] at h
  cases hk : e.kind with
  | stop =>
    rw [hk] at h
    cases h
  | gap =>
    rw [hk] at h
    cases h
  | frag ord chars =>
    rw [hk] at h
    cases h
  | live shortName isDir => exact ⟨shortName, by rw [kind_live hk]⟩

/-- What an enumeration sees of entries: their kinds up to the end mark. -/
def seen (es : List DirEntry) : List EntryKind := (es.map DirEntry.kind).takeWhile fun k => k ≠ .stop

theorem seen_cons (e : DirEntry) (es : List DirEntry) :
    seen (e :: es) = if e.kind = .stop then [] else e.kind :: seen es := by
  rw [seen, List.map_cons, List.takeWhile_cons]
  by_cases h : e.kind = .stop
  · simp [h]
  · simp [h, seen]

theorem seen_cons_inj {e f : DirEntry} {es fs : List DirEntry} (h : seen (f :: fs) = seen (e :: es)) :
    f.kind = e.kind ∧ (e.first ≠ 0 → seen fs = seen es) := by
  rw [seen_cons, seen_cons] at h
  by_cases he : e.kind = .stop
  · rw [if_pos he] at h
    have hf : f.kind = .stop := by
      by_contra hne
      rw [if_neg hne] at h
      cases h
    exact ⟨hf.trans he.symm, fun h0 => absurd ((kind_eq_stop_iff e).mp he) h0⟩
  · rw [if_neg he] at h
    by_cases hf : f.kind = .stop
    · rw [if_pos hf] at h
      cases h
    · rw [if_neg hf, List.cons.injEq] at h
      exact ⟨h.1, fun _ => h.2⟩

/-! ## When an enumeration of `/boot` is not disturbed -/

namespace FatVol

variable (vol : FatVol)

/-- Behind each subdirectory among the entries of a cluster from number `i` on, the cluster that is read last for it
shows the same. -/
def Calm : List DirEntry → Nat → Prop
  | [], _ => True
  | e :: es, i => e.first = 0 ∨
      (∀ shortName, e.kind = .live shortName true → ∀ l, vol.lastRead vol.clusterLimit e.firstCluster = some l →
        seen ((vol.clusterEntries l).drop (i + 1)) = seen es) ∧ Calm es (i + 1)

/-- The clusters of a directory are calm, up to its end mark. -/
def CalmFrom : Nat → Nat → Prop
  | 0, _ => True
  | n + 1, c => isCluster c = true → vol.Calm (vol.clusterEntries c) 0 ∧
      ((vol.clusterEntries c).any (fun e => e.first == 0) = false → CalmFrom n (vol.next c))

end FatVol

/-! ## The calls of `scan_cb` -/

def bootDir : List Byte := lit "/boot"

section Visits

variable {vol : FatVol} (T : FatTree vol) (J : Set (List Byte))

/-- The calls for the names of `/boot` and, behind that of each subdirectory, the calls for the names in it. -/
inductive Visits : List (List Byte × DirEntry) → List ScanCall → Prop
  | nil : Visits [] []
  | file {p ps cs} : p.2.isDir = false → Visits ps cs → Visits (p :: ps) (⟨bootDir, 0, p.1, false⟩ :: cs)
  | sub {p ps cs items lfn} : p.2.isDir = true → T.dir p.2.firstCluster = some items → lfn ∈ J → Visits ps cs →
      Visits (p :: ps) (⟨bootDir, 0, p.1, true⟩ ::
        (callsAt (bootDir ++ 47 :: p.1) 1 ((listed lfn items).map fun q => (q.1, q.2.isDir)) ++ cs))

variable {T J}

theorem Visits.append {ps qs : List (List Byte × DirEntry)} {cs ds : List ScanCall} (h : Visits T J ps cs)
    (h' : Visits T J qs ds) : Visits T J (ps ++ qs) (cs ++ ds) := by
  induction h with
  | nil => exact h'
  | file hfile _ ih => exact .file hfile ih
  | @sub p ps cs items lfn hdir hitems hlfn _ ih =>
    rw [List.cons_append, List.cons_append, List.append_assoc]
    exact .sub hdir hitems hlfn ih

/-- What the enumeration of a subdirectory records, and leaves in `enum_buf`. -/
def Nested (T : FatTree vol) (J : Set (List Byte)) (stack : Nat → Stack) (p : List Byte × DirEntry) : Prop :=
  ∀ st, (∃ items, T.dir p.2.firstCluster = some items ∧ ∃ lfn ∈ J,
      (scanDir vol stack 1 (pathJoin bootDir p.1 fatMaxPath) 1 st).2.calls =
        st.2.calls ++ callsAt (bootDir ++ 47 :: p.1) 1 ((listed lfn items).map fun q => (q.1, q.2.isDir))) ∧
    EnumAfter vol vol.clusterLimit p.2.firstCluster st.1 (scanDir vol stack 1 (pathJoin bootDir p.1 fatMaxPath) 1 st).1

theorem listNamed_append (es fs : List DirEntry) (s : LfnState) :
    listNamed (es ++ fs) s = listNamed es s ++ (listAll es s).1.elim [] (listNamed fs) := by
  induction es generalizing s with
  | nil => rfl
  | cons e es ih =>
    rw [List.cons_append, listNamed, listNamed, listAll]
    cases listStep s e with
    | stop => rfl
    | skip s => exact ih s
    | entry name s => exact congrArg (_ :: ·) (ih s)

theorem drop_map_entryAt {buf : List Byte} {i n : Nat} {es : List DirEntry} (hlen : i + es.length = n) :
    ((List.range n).map (entryAt buf)).drop i = (List.range' i es.length).map (entryAt buf) := by
  rw [← List.map_drop, List.range_eq_range', List.drop_range', Nat.zero_add, Nat.mul_one]
  congr 2
  omega

variable (stack : Nat → Stack)

/-- A call of `scan_cb` in `/boot`: what it records for the entry, and that `enum_buf` shows the same behind it. -/
theorem scanCb_visit {e : DirEntry} {es : List DirEntry} {i : Nat} (hlen : i + 1 + es.length = vol.spc * 512 / 32)
    (hbehind : e.isDir = true → ∀ l, vol.lastRead vol.clusterLimit e.firstCluster = some l →
      seen ((vol.clusterEntries l).drop (i + 1)) = seen es) {name : List Byte}
    (hnested : e.isDir = true → Nested T J stack (name, e)) {st : Bufs × Scan}
    (hsame : seen ((List.range' (i + 1) es.length).map (entryAt st.1.enum)) = seen es) :
    (∃ ds, (∀ ps cs, Visits T J ps cs → Visits T J ((name, e) :: ps) (ds ++ cs)) ∧
        (scanCb vol stack (scanDir vol stack 1) bootDir 0 name e.isDir st).2.calls = st.2.calls ++ ds) ∧
      seen ((List.range' (i + 1) es.length).map
        (entryAt (scanCb vol stack (scanDir vol stack 1) bootDir 0 name e.isDir st).1.enum)) = seen es := by
  cases hdir : e.isDir with
  | false =>
    obtain ⟨henum, hcalls⟩ := scanKernel_frame vol stack bootDir name
      (st.1, { st.2 with calls := st.2.calls ++ [⟨bootDir, 0, name, false⟩] })
    refine ⟨⟨_, fun ps cs hcs => .file hdir hcs, hcalls⟩, ?_⟩
    rw [scanCb, if_neg Bool.false_ne_true, henum]
    exact hsame
  | true =>
    obtain ⟨⟨items, hitems, lfn, hlfn, hsub⟩, henum⟩ := hnested hdir
      (st.1, { st.2 with calls := st.2.calls ++ [⟨bootDir, 0, name, true⟩] })
    rw [List.append_assoc] at hsub
    refine ⟨⟨_, fun ps cs hcs => .sub hdir hitems hlfn hcs, hsub⟩, ?_⟩
    rw [scanCb, if_pos rfl, if_neg (by decide)]
    cases hl : vol.lastRead vol.clusterLimit e.firstCluster with
    | none =>
      rw [henum.untouched hl]
      exact hsame
    | some l =>
      rw [← drop_map_entryAt hlen, henum.filled l hl]
      exact hbehind hdir l hl

/-- The enumeration of `/boot` over the rest of a cluster, while `enum_buf` shows the same as that rest. -/
theorem listEntries_scan {es : List DirEntry} {i : Nat} (hlen : i + es.length = vol.spc * 512 / 32)
    (hcalm : vol.Calm es i) {s : LfnState} {st : Bufs × Scan}
    (hsame : seen ((List.range' i es.length).map (entryAt st.1.enum)) = seen es)
    (hnested : ∀ p ∈ listNamed es s, p.2.isDir = true → Nested T J stack p) :
    (listEntries (scanCb vol stack (scanDir vol stack 1) bootDir 0) (List.range' i es.length) s st).1 =
        (listAll es s).1 ∧
      ∃ cs, Visits T J (listNamed es s) cs ∧
        (listEntries (scanCb vol stack (scanDir vol stack 1) bootDir 0) (List.range' i es.length) s st).2.2.calls =
          st.2.calls ++ cs := by
  induction es generalizing i s st with
  | nil => exact ⟨rfl, [], .nil, (List.append_nil _).symm⟩
  | cons e es ih =>
    rw [List.length_cons] at hlen
    rw [List.length_cons, List.range'_succ, List.map_cons] at hsame
    obtain ⟨hkind, hrest⟩ := seen_cons_inj hsame
    have hstep : listStep s (entryAt st.1.enum i) = listStep s e := by
      rw [listStep_kind, listStep_kind, hkind]
    have hlen' : i + 1 + es.length = vol.spc * 512 / 32 := by omega
    rw [listNamed] at hnested
    rw [List.length_cons, List.range'_succ, listEntries, listAll, listNamed, hstep]
    rcases listStep_cases s e with ⟨-, hact⟩ | ⟨h0, ⟨s', hact⟩ | ⟨name, s', hact⟩⟩
    · rw [hact]
      exact ⟨rfl, [], .nil, (List.append_nil _).symm⟩
    · rw [hact] at hnested ⊢
      exact ih hlen' (hcalm.resolve_left h0).2 (hrest h0) hnested
    · obtain ⟨shortName, hlive⟩ := live_of_listStep hact
      have hisDir : (entryAt st.1.enum i).isDir = e.isDir := kind_live (hkind.trans hlive)
      obtain ⟨hbehind, hcalm⟩ := hcalm.resolve_left h0
      rw [hact] at hnested ⊢
      dsimp only at hnested ⊢
      rw [hisDir]
      obtain ⟨⟨ds, hvisit, hcalls⟩, hnow⟩ := scanCb_visit stack hlen' (fun hdir => hbehind shortName (hdir ▸ hlive))
        (hnested (name, e) List.mem_cons_self) (hrest h0)
      obtain ⟨h1, cs, hcs, h2⟩ := ih hlen' hcalm hnow fun p hp => hnested p (List.mem_cons_of_mem _ hp)
      refine ⟨h1, ds ++ cs, hvisit _ cs hcs, ?_⟩
      rw [h2, hcalls, List.append_assoc]

theorem listClusters_scan {n c : Nat} (hcalm : vol.CalmFrom n c) {s : LfnState} (st : Bufs × Scan)
    (hnested : ∀ p ∈ listNamed (vol.dirEntries n c) s, p.2.isDir = true → Nested T J stack p) :
    ∃ cs, Visits T J (listNamed (vol.dirEntries n c) s) cs ∧
      (listClusters vol (scanCb vol stack (scanDir vol stack 1) bootDir 0) n c s st).2.calls = st.2.calls ++ cs := by
  induction n generalizing c s st with
  | zero => exact ⟨[], .nil, (List.append_nil _).symm⟩
  | succ n ih =>
    rw [FatVol.dirEntries] at hnested ⊢
    rw [listClusters]
    by_cases hc : isCluster c = true
    · rw [if_pos hc] at hnested ⊢
      rw [if_pos hc]
      obtain ⟨hown, hnext⟩ := hcalm hc
      dsimp only
      generalize hst : (({ st.1 with enum := patch st.1.enum 0 (vol.clusterData c) }, st.2) : Bufs × Scan) = st'
      have hlen : (vol.clusterEntries c).length = vol.spc * 512 / 32 := by
        rw [FatVol.clusterEntries, List.length_map, List.length_range]
      have hread : (List.range' 0 (vol.clusterEntries c).length).map (entryAt st'.1.enum) = vol.clusterEntries c := by
        rw [hlen, ← List.range_eq_range', ← hst]
        exact vol.map_entryAt_patch _ c
      have hcalls : st'.2.calls = st.2.calls := by rw [← hst]
      rw [listNamed_append] at hnested ⊢
      obtain ⟨h1, cs, hcs, h2⟩ := listEntries_scan (T := T) (J := J) stack
        (show 0 + (vol.clusterEntries c).length = _ by rw [Nat.zero_add, hlen]) hown (congrArg seen hread)
        fun p hp => hnested p (List.mem_append_left _ hp)
      rw [hcalls] at h2
      rw [hlen, ← List.range_eq_range'] at h1 h2
      generalize listEntries _ (List.range (vol.spc * 512 / 32)) s st' = r at h1 h2
      obtain ⟨r, st₁⟩ := r
      dsimp only at h1 h2
      have hend := listAll_fst_eq_none_iff (vol.clusterEntries c) s
      rw [← h1] at hend hnested ⊢
      cases r with
      | none =>
        refine ⟨cs, ?_, h2⟩
        rw [Option.elim_none, List.append_nil]
        exact hcs
      | some s' =>
        have hno : (vol.clusterEntries c).any (fun e => e.first == 0) = false := by
          rw [← Bool.not_eq_true]
          exact fun h => Option.some_ne_none s' (hend.mpr h)
        rw [Option.elim_some] at hnested ⊢
        obtain ⟨ds, hds, h3⟩ := ih (hnext hno) ((vol.nextCluster c st₁.1).2, st₁.2) fun p hp =>
          hnested p (List.mem_append_right _ hp)
        refine ⟨cs ++ ds, hcs.append hds, ?_⟩
        dsimp only
        rw [FatVol.nextCluster_fst, h3, ← List.append_assoc, ← h2]
    · rw [if_neg hc, if_neg hc]
      exact ⟨[], .nil, (List.append_nil _).symm⟩

end Visits

/-! ## The requests of a run -/

/-- The call is for a kernel. -/
def ScanCall.isKernel (c : ScanCall) : Bool := !c.isDir && decide (configGuessType c.name ≠ .unknown)

/-- The path of the call's file. -/
def ScanCall.path (c : ScanCall) : List Byte := c.dir ++ 47 :: c.name

theorem addKernels_append (cfg : BootConfig) (rs qs : List KernelRequest) :
    (addKernels cfg (rs ++ qs)).2 = (addKernels (addKernels cfg rs).2 qs).2 := by
  induction rs generalizing cfg with
  | nil => rfl
  | cons r rs ih => exact ih _

/-- From one state to a later one: the new calls, and a request for each that is for a kernel. -/
def Offers (x y : Scan) : Prop :=
  ∃ cs rs, y.calls = x.calls ++ cs ∧ y.cfg = (addKernels x.cfg rs).2 ∧ (∀ r ∈ rs, r.Fits) ∧
    rs.map KernelRequest.kernel = (cs.filter ScanCall.isKernel).map fun c => pathJoin c.dir c.name maxStrLen

theorem Offers.refl (x : Scan) : Offers x x := ⟨[], [], (List.append_nil _).symm, rfl, by simp, rfl⟩

theorem Offers.trans (x y z : Scan) (h : Offers x y) (h' : Offers y z) : Offers x z := by
  obtain ⟨cs, rs, hcalls, hcfg, hfits, hkernels⟩ := h
  obtain ⟨ds, qs, hcalls', hcfg', hfits', hkernels'⟩ := h'
  refine ⟨cs ++ ds, rs ++ qs, ?_, ?_, fun r hr => ?_, ?_⟩
  · rw [hcalls', hcalls, List.append_assoc]
  · rw [hcfg', hcfg, addKernels_append]
  · exact (List.mem_append.mp hr).elim (hfits r) (hfits' r)
  · rw [List.map_append, hkernels, hkernels', List.filter_append, List.map_append]

section Requests

variable (vol : FatVol) (stack : Nat → Stack)

theorem offers_file (dir name : List Byte) (depth : Nat) (st : Bufs × Scan) :
    Offers st.2
      (scanKernel vol stack dir name (st.1, { st.2 with calls := st.2.calls ++ [⟨dir, depth, name, false⟩] })).2 := by
  have hcalls := (scanKernel_frame vol stack dir name
    (st.1, { st.2 with calls := st.2.calls ++ [⟨dir, depth, name, false⟩] })).2
  obtain ⟨initrd, hinitrd, hcfg⟩ := scanKernel_cfg vol stack dir name
    (st.1, { st.2 with calls := st.2.calls ++ [⟨dir, depth, name, false⟩] })
  refine ⟨_, _, hcalls, hcfg, fun r hr => ?_, ?_⟩
  · split at hr
    · cases hr
    · obtain rfl := List.mem_singleton.mp hr
      exact ⟨(length_str_le _).trans (length_pathJoin_le _ _ _), fun p hp => (length_str_le p).trans (hinitrd p hp)⟩
  · by_cases hunknown : configGuessType name = .unknown
    · simp [hunknown, ScanCall.isKernel]
    · simp [hunknown, ScanCall.isKernel, kernelRequest]

theorem scanDir_offers (n : Nat) (path : List Byte) (depth : Nat) (st : Bufs × Scan) :
    Offers st.2 (scanDir vol stack n path depth st).2 := by
  induction n generalizing path depth st with
  | zero => exact .refl _
  | succ n ih =>
    rw [scanDir]
    dsimp only
    refine fatReaddir_rel (R := Offers) Offers.refl Offers.trans (fun name isDir st => ?_) _ _ path
      (st.1, { st.2 with clock := st.2.clock + 1 })
    cases isDir with
    | false => exact offers_file vol stack _ name depth st
    | true =>
      have hcall : Offers st.2 { st.2 with calls := st.2.calls ++ [⟨strCopy path fatMaxPath, depth, name, true⟩] } :=
        ⟨_, [], rfl, rfl, by simp, rfl⟩
      rw [scanCb, if_pos rfl]
      split_ifs
      · exact hcall
      · exact hcall.trans _ _ _ (ih _ _ _)

end Requests

/-! ## Discovery -/

section Discovery

variable {vol : FatVol}

/-- The entries of live items, without `.` and `..`. -/
def itemEntries (items : List DirItem) : List DirEntry := (items.filterMap DirItem.live).filter fun e => e.first ≠ 46

theorem listed_entries {items : List DirItem} (hok : ∀ i ∈ items, i.Ok) (lfn : List Byte) :
    (listed lfn items).map Prod.snd = itemEntries items := by
  induction items generalizing lfn with
  | nil => rfl
  | cons i is ih =>
    have hrest : ∀ j ∈ is, j.Ok := fun j hj => hok j (List.mem_cons_of_mem _ hj)
    have hi := hok i List.mem_cons_self
    unfold itemEntries at ih ⊢
    cases i with
    | deleted e => exact ih hrest lfn
    | label e => exact ih hrest lfn
    | file e =>
      rw [listed, List.filterMap_cons_some (show (DirItem.file e).live = some e from rfl), List.filter_cons]
      by_cases hdot : e.first = 46
      · simpa [hdot] using ih hrest lfn
      · simpa [hdot] using ih hrest lfn
    | long name frag e =>
      have hdot : e.first ≠ 46 := hi.2.2.2.2.2
      rw [listed, List.filterMap_cons_some (show (DirItem.long name frag e).live = some e from rfl), List.filter_cons]
      simpa [hdot] using ih hrest (storeListed name lfn)

variable (T : FatTree vol) (J : Set (List Byte))

/-- `scan_cb` is called once for each live entry of `/boot` and of its subdirectories, with the directory it lives in,
and the table has the kernels among them, up to its limit. -/
structure ScanRight (cfg : BootConfig) (s : Scan) : Prop where
  visits : ∀ c items, T.cluster bootDir = some c → T.dir c = some items →
    ∃ lfn ∈ J, Visits T J (listed lfn items) s.calls
  once : ∀ c items, T.dir c = some items → ∀ lfn ∈ J, (listed lfn items).map Prod.snd = itemEntries items
  nothing : T.cluster bootDir = none → s.calls = []
  kernels : s.cfg.entries.map BootEntry.path = cfg.entries.map BootEntry.path ++
    (Table.firsts id (cfg.entries.map BootEntry.path) ((s.calls.filter ScanCall.isKernel).map ScanCall.path)).take
      (maxEntries - cfg.numEntries)

/-- A name listed in `/boot` leads to its subdirectory, and the paths in it fit. -/
structure SubClear (p : List Byte × DirEntry) : Prop where
  clear : T.ClearPath J (bootDir ++ 47 :: p.1)
  leads : T.cluster (bootDir ++ 47 :: p.1) = some p.2.firstCluster
  fits : (bootDir ++ 47 :: p.1).length ≤ 255
  kernel : ∀ items, T.dir p.2.firstCluster = some items → ∀ lfn ∈ J, ∀ q ∈ listed lfn items, q.2.isDir = false →
    configGuessType q.1 ≠ .unknown → (bootDir ++ 47 :: p.1 ++ 47 :: q.1).length ≤ 255

/-- The paths of `/boot` and of what is listed in it are not mistaken, and the enumeration of `/boot` is calm. -/
structure ScanClear : Prop where
  boot : T.ClearPath J bootDir
  sub : ∀ c items, T.cluster bootDir = some c → T.dir c = some items → ∀ lfn ∈ J, ∀ p ∈ listed lfn items,
    p.2.isDir = true → SubClear T J p
  kernel : ∀ c items, T.cluster bootDir = some c → T.dir c = some items → ∀ lfn ∈ J, ∀ p ∈ listed lfn items,
    p.2.isDir = false → configGuessType p.1 ≠ .unknown → (bootDir ++ 47 :: p.1).length ≤ 255
  calm : ∀ c, T.cluster bootDir = some c → vol.CalmFrom vol.clusterLimit c

variable {T J} {stack : Nat → Stack}

theorem no_nul_bootDir : ∀ c ∈ bootDir, c ≠ 0 := no_nul_of_all (by decide)

theorem pathJoin_of_fits {dir name : List Byte} (hdir : ∀ c ∈ dir, c ≠ 0) (hname : ∀ c ∈ name, c ≠ 0)
    (hfits : (dir ++ 47 :: name).length ≤ 255) : pathJoin dir name 256 = dir ++ 47 :: name := by
  rw [pathJoin, str_of_no_nul hdir, str_of_no_nul hname]
  exact List.take_of_length_le hfits

theorem nested_of_clear (hstack : ∀ k, (∀ i, (stack k).lookup i ∈ J) ∧ (stack k).list ∈ J) {p : List Byte × DirEntry}
    (hname : ∀ c ∈ p.1, c ≠ 0) (h : SubClear T J p) : Nested T J stack p := by
  intro st
  have hpath := no_nul_join no_nul_bootDir hname
  have hjoin : pathJoin bootDir p.1 fatMaxPath = bootDir ++ 47 :: p.1 :=
    pathJoin_of_fits no_nul_bootDir hname h.fits
  have hcopy : strCopy (bootDir ++ 47 :: p.1) fatMaxPath = bootDir ++ 47 :: p.1 := by
    rw [strCopy, str_of_no_nul hpath]
    exact List.take_of_length_le h.fits
  have hwalk := walkDir_clear (hstack st.2.clock).1 h.clear (no_nul_stripSlash hpath) T.root st.1
  have henum := walkDir_enum vol (stack st.2.clock).lookup (stripSlash (bootDir ++ 47 :: p.1)).length
    vol.rootCluster (stripSlash (bootDir ++ 47 :: p.1)) st.1
  rw [show T.walk _ _ _ = some p.2.firstCluster from h.leads] at hwalk
  obtain ⟨items, hitems⟩ := Option.isSome_iff_exists.mp (FatTree.dir_of_walk T.root h.leads)
  rw [hjoin, scanDir, hcopy, fatReaddir]
  dsimp only
  rw [stripSlash] at hwalk henum
  generalize walkDir vol (stack st.2.clock).lookup _ vol.rootCluster _ st.1 = r at hwalk henum ⊢
  obtain ⟨r, b⟩ := r
  obtain rfl : r = some p.2.firstCluster := hwalk
  obtain ⟨h1, h2⟩ := listClusters_quiet vol (scanCb_quiet vol stack (scanDir vol stack 0) (bootDir ++ 47 :: p.1))
    vol.clusterLimit p.2.firstCluster { buf := (stack st.2.clock).list, len := false }
    (b, { st.2 with clock := st.2.clock + 1 })
  have hlisting := (T.stored hitems).listing (stack st.2.clock).list
  rw [FatVol.listing, FatVol.directory] at hlisting
  rw [listAll_snd, hlisting] at h1
  refine ⟨⟨items, hitems, _, (hstack st.2.clock).2, h1⟩, fun hnone => ?_, h2.filled⟩
  exact (h2.untouched hnone).trans henum

theorem Visits.paths {ps : List (List Byte × DirEntry)} {cs : List ScanCall} (h : Visits T J ps cs)
    (hnames : ∀ p ∈ ps, ∀ c ∈ p.1, c ≠ 0) (hsub : ∀ p ∈ ps, p.2.isDir = true → SubClear T J p)
    (hkernel : ∀ p ∈ ps, p.2.isDir = false → configGuessType p.1 ≠ .unknown → (bootDir ++ 47 :: p.1).length ≤ 255) :
    ∀ c ∈ cs, c.isKernel = true → str (pathJoin c.dir c.name maxStrLen) = c.path := by
  have hpath {dir name : List Byte} (hdir : ∀ c ∈ dir, c ≠ 0) (hname : ∀ c ∈ name, c ≠ 0)
      (hfits : (dir ++ 47 :: name).length ≤ 255) : str (pathJoin dir name maxStrLen) = dir ++ 47 :: name := by
    rw [maxStrLen, pathJoin_of_fits hdir hname hfits, str_of_no_nul (no_nul_join hdir hname)]
  induction h with
  | nil => exact fun c hc => absurd hc (List.not_mem_nil)
  | @file p ps cs hfile _ ih =>
    intro c hc hk
    rcases List.mem_cons.mp hc with rfl | hc
    · rw [ScanCall.isKernel, Bool.and_eq_true, decide_eq_true_eq] at hk
      exact hpath no_nul_bootDir (hnames p List.mem_cons_self) (hkernel p List.mem_cons_self hfile hk.2)
    · exact ih (fun q hq => hnames q (List.mem_cons_of_mem _ hq)) (fun q hq => hsub q (List.mem_cons_of_mem _ hq))
        (fun q hq => hkernel q (List.mem_cons_of_mem _ hq)) c hc hk
  | @sub p ps cs items lfn hdir hitems hlfn _ ih =>
    intro c hc hk
    have hclear := hsub p List.mem_cons_self hdir
    rcases List.mem_cons.mp hc with rfl | hc
    · cases hk
    rcases List.mem_append.mp hc with hc | hc
    · rw [callsAt, List.map_map, List.mem_map] at hc
      obtain ⟨q, hq, rfl⟩ := hc
      rw [ScanCall.isKernel, Bool.and_eq_true, Bool.not_eq_true', decide_eq_true_eq] at hk
      exact hpath (no_nul_join no_nul_bootDir (hnames p List.mem_cons_self)) (no_nul_listed (T.stored hitems).ok hq)
        (hclear.kernel items hitems lfn hlfn q hq hk.1 hk.2)
    · exact ih (fun q hq => hnames q (List.mem_cons_of_mem _ hq)) (fun q hq => hsub q (List.mem_cons_of_mem _ hq))
        (fun q hq => hkernel q (List.mem_cons_of_mem _ hq)) c hc hk

theorem Offers.table {x y : Scan} (h : Offers x y) (hcalls : x.calls = []) (hcfg : x.cfg.numEntries ≤ maxEntries)
    (hpaths : ∀ c ∈ y.calls, c.isKernel = true → str (pathJoin c.dir c.name maxStrLen) = c.path) :
    y.cfg.entries.map BootEntry.path = x.cfg.entries.map BootEntry.path ++
      (Table.firsts id (x.cfg.entries.map BootEntry.path) ((y.calls.filter ScanCall.isKernel).map ScanCall.path)).take
        (maxEntries - x.cfg.numEntries) := by
  obtain ⟨cs, rs, hcs, hrun, hfits, hkernels⟩ := h
  rw [hcalls, List.nil_append] at hcs
  subst hcs
  have hkeys : rs.map KernelRequest.path = (y.calls.filter ScanCall.isKernel).map ScanCall.path := by
    have hstr : rs.map KernelRequest.path = (rs.map KernelRequest.kernel).map str := by
      rw [List.map_map]
      rfl
    rw [hstr, hkernels, List.map_map]
    refine List.map_congr_left fun c hc => ?_
    exact hpaths c (List.mem_of_mem_filter hc) (List.mem_filter.mp hc).2
  rw [hrun, addKernels_table _ hfits, Table.foldl_add (fun r _ => path_entry r) hcfg]
  dsimp only
  rw [List.map_append, List.map_map, ← hkeys, ← Table.map_firsts, ← List.map_take]
  congr 1
  exact List.map_congr_left fun r _ => path_entry r

/-- A calm discovery is right. -/
theorem scan_boot_right (hstack : ∀ k, (∀ i, (stack k).lookup i ∈ J) ∧ (stack k).list ∈ J) (hclear : ScanClear T J)
    (n : Nat) (st : Bufs × Scan) (hcalls : st.2.calls = []) (hcfg : st.2.cfg.numEntries ≤ maxEntries) :
    ScanRight T J st.2.cfg (scanDir vol stack (n + 2) bootDir 0 st).2 := by
  rw [scanDir_levels]
  have honce : ∀ c items, T.dir c = some items → ∀ lfn ∈ J, (listed lfn items).map Prod.snd = itemEntries items :=
    fun c items hitems lfn _ => listed_entries (T.stored hitems).ok lfn
  have hoffers := scanDir_offers vol stack 2 bootDir 0 st
  have hwalk := walkDir_clear (hstack st.2.clock).1 hclear.boot (no_nul_stripSlash no_nul_bootDir) T.root st.1
  rw [show T.walk _ _ _ = T.cluster bootDir from rfl, stripSlash] at hwalk
  have hcopy : strCopy bootDir fatMaxPath = bootDir := by decide
  -- what is recorded: nothing, or a run over the clusters of the directory
  have hrun : (T.cluster bootDir = none ∧ (scanDir vol stack 2 bootDir 0 st).2.calls = []) ∨
      ∃ c items, T.cluster bootDir = some c ∧ T.dir c = some items ∧
        Visits T J (listed (stack st.2.clock).list items) (scanDir vol stack 2 bootDir 0 st).2.calls := by
    rw [scanDir, hcopy, fatReaddir]
    dsimp only
    generalize walkDir vol (stack st.2.clock).lookup _ vol.rootCluster _ st.1 = r at hwalk
    obtain ⟨_ | c, b⟩ := r
    · exact .inl ⟨hwalk.symm, hcalls⟩
    · have hc : T.cluster bootDir = some c := hwalk.symm
      obtain ⟨items, hitems⟩ := Option.isSome_iff_exists.mp (FatTree.dir_of_walk T.root hc)
      have hlisting := (T.stored hitems).listing (stack st.2.clock).list
      rw [FatVol.listing, FatVol.directory] at hlisting
      obtain ⟨cs, hcs, hvisited⟩ := listClusters_scan (T := T) (J := J) stack (hclear.calm c hc)
        (s := { buf := (stack st.2.clock).list, len := false }) (b, { st.2 with clock := st.2.clock + 1 })
        fun p hp hdir => by
          rw [hlisting] at hp
          exact nested_of_clear hstack (no_nul_listed (T.stored hitems).ok hp)
            (hclear.sub c items hc hitems _ (hstack st.2.clock).2 p hp hdir)
      rw [hlisting] at hcs
      refine .inr ⟨c, items, hc, hitems, ?_⟩
      dsimp only
      rw [hvisited, hcalls, List.nil_append]
      exact hcs
  generalize scanDir vol stack 2 bootDir 0 st = r at hoffers hrun
  obtain ⟨hnone, hempty⟩ | ⟨c, items, hc, hitems, hvisits⟩ := hrun
  · refine ⟨fun c items hc => ?_, honce, fun _ => hempty, hoffers.table hcalls hcfg ?_⟩
    · rw [hnone] at hc
      cases hc
    · rw [hempty]
      exact fun c hc => absurd hc List.not_mem_nil
  · refine ⟨fun c' items' hc' hitems' => ?_, honce, fun hnone => ?_, hoffers.table hcalls hcfg ?_⟩
    · obtain rfl := Option.some.inj (hc.symm.trans hc')
      obtain rfl := Option.some.inj (hitems.symm.trans hitems')
      exact ⟨_, (hstack st.2.clock).2, hvisits⟩
    · rw [hc] at hnone
      cases hnone
    · exact hvisits.paths (fun p hp => no_nul_listed (T.stored hitems).ok hp)
        (fun p hp => hclear.sub c items hc hitems _ (hstack st.2.clock).2 p hp)
        fun p hp => hclear.kernel c items hc hitems _ (hstack st.2.clock).2 p hp

end Discovery

/-! ## A volume whose `/boot` is calm, and one whose `/boot` is not -/

section Disks

variable {vol : FatVol}

theorem clear_files (target : List Byte) (es : List DirEntry) (buf : List Byte) :
    Clear target buf (es.map .file) := by
  induction es with
  | nil => trivial
  | cons e es ih => exact .inr ih

theorem listed_files {es : List DirEntry} (hdot : ∀ e ∈ es, e.first ≠ 46) (buf : List Byte) :
    listed buf (es.map .file) = es.map fun e => (e.shortName, e) := by
  induction es with
  | nil => rfl
  | cons e es ih =>
    rw [List.map_cons, listed, if_neg (hdot e List.mem_cons_self), ih fun e he => hdot e (List.mem_cons_of_mem _ he)]
    rfl

/-- `/boot` in cluster 3 and a subdirectory in cluster 4. -/
def scanDisk (boot sub : List DirEntry) : Disk := .ofSectors
  [edgeBoot 8, List.replicate 8 0 ++ (List.replicate 3 (le 4 0x0FFFFFFF)).flatten, bootEntry, boot.flatten, sub.flatten]

def scanVol (boot sub : List DirEntry) : FatVol := bootVol (scanDisk boot sub) 8

def scanEntries (boot sub : List DirEntry) (c : Nat) : Option (List DirEntry) :=
  if c = 2 then some [bootEntry] else if c = 3 then some boot else if c = 4 then some sub else none

theorem scanEntries_cases {boot sub es : List DirEntry} {c : Nat} (h : scanEntries boot sub c = some es) :
    c = 2 ∧ es = [bootEntry] ∨ c = 3 ∧ es = boot ∨ c = 4 ∧ es = sub := by
  unfold scanEntries at h
  split_ifs at h with h2 h3 h4
  · exact .inl ⟨h2, (Option.some.inj h).symm⟩
  · exact .inr (.inl ⟨h3, (Option.some.inj h).symm⟩)
  · exact .inr (.inr ⟨h4, (Option.some.inj h).symm⟩)

/-- What makes a tree of the disk. -/
structure ScanDisk (boot sub : List DirEntry) : Prop where
  rootDir : IsDirectory (scanVol boot sub) 2 ([bootEntry].map .file)
  bootDir : IsDirectory (scanVol boot sub) 3 (boot.map .file)
  subDir : IsDirectory (scanVol boot sub) 4 (sub.map .file)
  dirs : ∀ e ∈ bootEntry :: (boot ++ sub), e.isDir = true → (scanEntries boot sub e.firstCluster).isSome

def scanDirItems (boot sub : List DirEntry) (c : Nat) : Option (List DirItem) :=
  (scanEntries boot sub c).map fun es => es.map .file

theorem ScanDisk.stored {boot sub : List DirEntry} (h : ScanDisk boot sub) {c : Nat} {items : List DirItem}
    (hc : scanDirItems boot sub c = some items) : IsDirectory (scanVol boot sub) c items := by
  obtain ⟨es, hes, rfl⟩ := Option.map_eq_some_iff.mp hc
  rcases scanEntries_cases hes with ⟨rfl, rfl⟩ | ⟨rfl, rfl⟩ | ⟨rfl, rfl⟩
  · exact h.rootDir
  · exact h.bootDir
  · exact h.subDir

theorem ScanDisk.sub_isSome {boot sub : List DirEntry} (h : ScanDisk boot sub) {c : Nat} {items : List DirItem}
    {i : DirItem} {e : DirEntry} (hc : scanDirItems boot sub c = some items) (hi : i ∈ items) (he : i.live = some e)
    (hdir : e.isDir = true) : (scanDirItems boot sub e.firstCluster).isSome := by
  obtain ⟨es, hes, rfl⟩ := Option.map_eq_some_iff.mp hc
  obtain ⟨d, hd, rfl⟩ := List.mem_map.mp hi
  obtain rfl := Option.some.inj he
  rw [scanDirItems, Option.isSome_map]
  refine h.dirs d ?_ hdir
  rcases scanEntries_cases hes with ⟨-, rfl⟩ | ⟨-, rfl⟩ | ⟨-, rfl⟩
  · exact List.mem_singleton.mp hd ▸ List.mem_cons_self
  · exact List.mem_cons_of_mem _ (List.mem_append_left _ hd)
  · exact List.mem_cons_of_mem _ (List.mem_append_right _ hd)

theorem scanDirItems_root (boot sub : List DirEntry) :
    (scanDirItems boot sub (scanVol boot sub).rootCluster).isSome := rfl

def ScanDisk.tree {boot sub : List DirEntry} (h : ScanDisk boot sub) : FatTree (scanVol boot sub) where
  dir := scanDirItems boot sub
  stored := h.stored
  root := scanDirItems_root boot sub
  sub := h.sub_isSome

theorem ScanDisk.clearPath {boot sub : List DirEntry} (h : ScanDisk boot sub) {path : List Byte}
    (hpath : ∀ c ∈ path, c ≠ 0) : h.tree.ClearPath Set.univ path := by
  have hfinds : FindsRight h.tree Set.univ := findsRight_iff.mpr fun c items hc target _ junk _ => by
    obtain ⟨es, -, rfl⟩ := Option.map_eq_some_iff.mp hc
    exact clear_files target es junk
  exact hfinds.clearWalk _ _ (no_nul_stripSlash hpath)

def kernelElf : DirEntry := plainEntry "KERNEL  ELF" 0x20 5
def subDir : DirEntry := plainEntry "SUB        " 0x10 4
def aElf : DirEntry := plainEntry "A       ELF" 0x20 5
def bElf : DirEntry := plainEntry "B       ELF" 0x20 5

theorem scanDisk_calm : ScanDisk [kernelElf, subDir] [aElf] where
  rootDir := isDirectory_files (by decide) (by decide) (by decide) (liveEntries_of_all (by decide)) (by decide)
    (by decide) (by decide)
  bootDir := isDirectory_files (by decide) (by decide) (by decide) (liveEntries_of_all (by decide)) (by decide)
    (by decide) (by decide)
  subDir := isDirectory_files (by decide) (by decide) (by decide) (liveEntries_of_all (by decide)) (by decide)
    (by decide) (by decide)
  dirs := by decide

theorem scanDisk_disturbed : ScanDisk [subDir, kernelElf] [aElf, bElf] where
  rootDir := isDirectory_files (by decide) (by decide) (by decide) (liveEntries_of_all (by decide)) (by decide)
    (by decide) (by decide)
  bootDir := isDirectory_files (by decide) (by decide) (by decide) (liveEntries_of_all (by decide)) (by decide)
    (by decide) (by decide)
  subDir := isDirectory_files (by decide) (by decide) (by decide) (liveEntries_of_all (by decide)) (by decide)
    (by decide) (by decide)
  dirs := by decide

/-- The state before discovery, with an empty table. -/
def freshScan : Bufs × Scan :=
  (zeroBufs, { pool := fun _ => zeroFile, used := fun _ => false, cfg := {}, clock := 0, calls := [] })

def zeroStack : Stack := { lookup := fun _ => [], list := [] }

theorem calm_of_end {es : List DirEntry} (h : ∀ e ∈ es.head?, e.first = 0) (i : Nat) : vol.Calm es i := by
  cases es with
  | nil => trivial
  | cons e es => exact .inl (h e rfl)

theorem scanVol_calm :
    (scanVol [kernelElf, subDir] [aElf]).CalmFrom (scanVol [kernelElf, subDir] [aElf]).clusterLimit 3 := by
  have hhead : ((scanVol [kernelElf, subDir] [aElf]).clusterEntries 3).take 2 = [kernelElf, subDir] := by
    decide
  have hsplit := List.take_append_drop 2 ((scanVol [kernelElf, subDir] [aElf]).clusterEntries 3)
  rw [hhead] at hsplit
  have hend : ∀ e ∈ (((scanVol [kernelElf, subDir] [aElf]).clusterEntries 3).drop 2).head?, e.first = 0 := by
    decide
  have hlast : (scanVol [kernelElf, subDir] [aElf]).lastRead (scanVol [kernelElf, subDir] [aElf]).clusterLimit
      subDir.firstCluster = some 4 := by decide
  have hsame : seen (((scanVol [kernelElf, subDir] [aElf]).clusterEntries 4).drop 2) =
      seen (((scanVol [kernelElf, subDir] [aElf]).clusterEntries 3).drop 2) := by decide
  have hany : (((scanVol [kernelElf, subDir] [aElf]).clusterEntries 3).any fun e => e.first == 0) = true := by
    decide
  refine fun _ => ⟨?_, fun hno => absurd (hany.symm.trans hno) (by decide)⟩
  rw [← hsplit]
  refine .inr ⟨fun name hk => absurd (kind_live hk) (by decide), .inr ⟨fun name hk l hl => ?_, ?_⟩⟩
  · obtain rfl := Option.some.inj (hlast.symm.trans hl)
    exact hsame
  · exact calm_of_end hend _

theorem listed_calm {c : Nat} {items : List DirItem} (hc : scanDisk_calm.tree.cluster bootDir = some c)
    (hitems : scanDisk_calm.tree.dir c = some items) {lfn : List Byte} {p : List Byte × DirEntry}
    (hp : p ∈ listed lfn items) : p = (kernelElf.shortName, kernelElf) ∨ p = (subDir.shortName, subDir) := by
  have hboot : scanDisk_calm.tree.cluster bootDir = some 3 := by decide
  obtain rfl := Option.some.inj (hboot.symm.trans hc)
  obtain rfl : [kernelElf, subDir].map DirItem.file = items := Option.some.inj hitems
  rw [listed_files (by decide)] at hp
  exact List.mem_pair.mp hp

theorem scanClear_calm : ScanClear scanDisk_calm.tree Set.univ where
  boot := scanDisk_calm.clearPath no_nul_bootDir
  sub c items hc hitems lfn _ p hp hdir := by
    rcases listed_calm hc hitems hp with rfl | rfl
    · exact absurd hdir (by decide)
    · refine ⟨scanDisk_calm.clearPath (no_nul_of_all (by decide)), by decide, by decide, ?_⟩
      intro items hitems lfn _ q hq _ _
      have hcluster : subDir.firstCluster = 4 := by decide
      rw [hcluster] at hitems
      obtain rfl : [aElf].map DirItem.file = items := Option.some.inj hitems
      rw [listed_files (by decide)] at hq
      obtain rfl := List.mem_singleton.mp hq
      decide
  kernel c items hc hitems lfn _ p hp _ _ := by
    rcases listed_calm hc hitems hp with rfl | rfl
    · decide
    · decide
  calm c hc := by
    have hboot : scanDisk_calm.tree.cluster bootDir = some 3 := by decide
    obtain rfl := Option.some.inj (hboot.symm.trans hc)
    exact scanVol_calm

/-- A kernel, and a subdirectory behind it. -/
theorem scan_boot_calm : ScanRight scanDisk_calm.tree Set.univ {}
    (scanDir (scanVol [kernelElf, subDir] [aElf]) (fun _ => zeroStack) 2 bootDir 0 freshScan).2 :=
  scan_boot_right (fun _ => ⟨fun _ => Set.mem_univ _, Set.mem_univ _⟩) scanClear_calm 0 freshScan rfl
    (Nat.zero_le _)

theorem Visits.mem {T : FatTree vol} {J : Set (List Byte)} {ps : List (List Byte × DirEntry)} {cs : List ScanCall}
    (h : Visits T J ps cs) {p : List Byte × DirEntry} (hp : p ∈ ps) : ⟨bootDir, 0, p.1, p.2.isDir⟩ ∈ cs := by
  induction h with
  | nil => cases hp
  | file hfile _ ih =>
    rcases List.mem_cons.mp hp with rfl | hp
    · rw [hfile]
      exact List.mem_cons_self
    · exact List.mem_cons_of_mem _ (ih hp)
  | sub hdir _ _ _ ih =>
    rcases List.mem_cons.mp hp with rfl | hp
    · rw [hdir]
      exact List.mem_cons_self
    · exact List.mem_cons_of_mem _ (List.mem_append_right _ (ih hp))

/-- A subdirectory in front of a kernel: behind its entry the enumeration goes on over the files of the subdirectory. -/
theorem scanDir_disturbed :
    (scanDir (scanVol [subDir, kernelElf] [aElf, bElf]) (fun _ => zeroStack) 2 bootDir 0 freshScan).2.calls =
      [⟨lit "/boot", 0, lit "SUB", true⟩, ⟨lit "/boot/SUB", 1, lit "A.ELF", false⟩,
        ⟨lit "/boot/SUB", 1, lit "B.ELF", false⟩, ⟨lit "/boot", 0, lit "B.ELF", false⟩] := by
  decide

/-- The kernel is not visited, in whatever order the calls are taken. -/
theorem scan_boot_disturbed :
    fatInit (scanDisk [subDir, kernelElf] [aElf, bElf]) 0 = some (scanVol [subDir, kernelElf] [aElf, bElf]) ∧
      scanDisk_disturbed.tree.cluster bootDir = some 3 ∧
      scanDisk_disturbed.tree.dir 3 = some ([subDir, kernelElf].map .file) ∧
      ∀ J lfn cs, Visits scanDisk_disturbed.tree J (listed lfn ([subDir, kernelElf].map .file)) cs →
        ¬ cs.Perm
          (scanDir (scanVol [subDir, kernelElf] [aElf, bElf]) (fun _ => zeroStack) 2 bootDir 0 freshScan).2.calls := by
  refine ⟨fatInit_edge rfl (by decide), by decide, rfl, fun J lfn cs hvisits hperm => ?_⟩
  have hmem : (kernelElf.shortName, kernelElf) ∈ listed lfn ([subDir, kernelElf].map .file) := by
    rw [listed_files (by decide)]
    exact List.mem_cons_of_mem _ List.mem_cons_self
  have hcall := hperm.mem_iff.mp (hvisits.mem hmem)
  rw [scanDir_disturbed] at hcall
  revert hcall
  decide

end Disks

end SakuruBoot.Fat

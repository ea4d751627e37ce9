import SakuruBoot.Bios.Scan

/-!
# What the FAT driver reads and where it writes

The cluster loops take the size of a cluster, the numbers of the chain and the ordinals of long-name entries from the
disk. `EventOk` is what should hold of them: a cluster fits the static buffer it is read into, it is a data cluster of
the volume, and the characters of long names are stored inside their buffer. For a directory (`findInDir_safe_iff`,
`listDir_safe_iff`) and for a read of a file (`fatRead_safe_iff`) it is said which contents of the disk this needs.

A callback that lists another directory overwrites the buffer of the listing that calls it, end marks included, so that
one may go on to the next cluster (`listDir_nested_safe`).
-/

namespace SakuruBoot.Fat
open CStr Bytes

def EventOk (d : Disk) (part : Nat) : FatEvent → Prop
  | .readCluster cluster count => count ≤ 64 ∧ DataCluster d part cluster
  | .storeLfn index => 0 ≤ index ∧ index < 256

/-! ## How far the loops get -/

namespace FatVol

variable (vol : FatVol)

/-- No entry of the cluster ends the directory. -/
def Open (c : Nat) : Prop := ∀ e ∈ vol.clusterEntries c, e.first ≠ 0

/-- A loop that gets past the clusters `goes` gets to the `i`-th cluster from `first` on, unless it returns before. -/
structure Reached (goes : Nat → Prop) (first i : Nat) : Prop where
  counted : i < vol.clusterLimit ∨ vol.clusterLimit = 2 ^ 32 - 1
  clusters : ∀ j ≤ i, isCluster (vol.chainAt first j) = true
  passed : ∀ j < i, goes (vol.chainAt first j)

/-- Lookups get to the `i`-th cluster from `first` on. -/
def Scanned (first i : Nat) : Prop := vol.Reached vol.Open first i

end FatVol

section loop

variable {ρ σ : Type} {vol : FatVol} {body : Nat → σ → Traced FatEvent (Round ρ σ)} {giveUp : σ → ρ} {first : Nat}
  {goes : Nat → Prop}

theorem u32_succ_u32 (i : Nat) : u32 (u32 i + 1) = u32 (i + 1) := Nat.mod_add_mod i (2 ^ 32) 1

theorem clusterLimit_lt (vol : FatVol) : vol.clusterLimit < 2 ^ 32 := by
  rw [FatVol.clusterLimit]
  split
  · exact Nat.mod_lt _ (by decide)
  · decide

theorem counted_iff {i : Nat} (h : i ≤ vol.clusterLimit ∨ vol.clusterLimit = 2 ^ 32 - 1) :
    ¬vol.clusterLimit < u32 (u32 i + 1) ↔ i < vol.clusterLimit ∨ vol.clusterLimit = 2 ^ 32 - 1 := by
  have hlt := clusterLimit_lt vol
  have hcount : u32 (i + 1) < 2 ^ 32 := Nat.mod_lt _ (by decide)
  rw [u32_succ_u32]
  by_cases hmax : vol.clusterLimit = 2 ^ 32 - 1
  · exact iff_of_true (by omega) (.inr hmax)
  · have hi : i ≤ vol.clusterLimit := h.resolve_right hmax
    rw [u32, Nat.mod_eq_of_lt (by omega)]
    omega

theorem FatVol.Reached.of_le {i j : Nat} (h : vol.Reached goes first i) (hj : j ≤ i) : vol.Reached goes first j :=
  ⟨h.counted.imp_left fun hi => by omega, fun k hk => h.clusters k (hk.trans hj), fun k hk => h.passed k (by omega)⟩

theorem events_clusterLoop {i : Nat} (h : vol.Reached goes first i) (fuel : Nat) (st : σ) :
    (clusterLoop vol body giveUp (fuel + 1) (u32 i) (vol.chainAt first i) st).events =
      .readCluster (vol.chainAt first i) vol.spc :: (body (vol.chainAt first i) st).events ++
        match (body (vol.chainAt first i) st).val with
        | .done _ => []
        | .more next st => (clusterLoop vol body giveUp fuel (u32 (i + 1)) next st).events := by
  have hlimit := (counted_iff (h.counted.imp_left Nat.le_of_lt)).mpr h.counted
  rw [clusterLoop, if_pos (h.clusters i le_rfl)]
  dsimp only
  rw [if_neg hlimit, u32_succ_u32]
  simp only [Traced.events_bind, Traced.events_emit]
  cases (body (vol.chainAt first i) st).val <;> rfl

/-- What a loop reports is the read of a cluster it gets to, or comes from the round there; its result does too, or the
loop gave up. -/
theorem clusterLoop_rounds
    (hmove : ∀ c st next st', (body c st).val = .more next st' → next = vol.next c ∧ goes c) {i : Nat}
    (hcount : i ≤ vol.clusterLimit ∨ vol.clusterLimit = 2 ^ 32 - 1)
    (hclusters : ∀ j < i, isCluster (vol.chainAt first j) = true) (hgoes : ∀ j < i, goes (vol.chainAt first j))
    (fuel : Nat) (st : σ) :
    (∀ ev ∈ (clusterLoop vol body giveUp fuel (u32 i) (vol.chainAt first i) st).events, ∃ j st',
      vol.Reached goes first j ∧ (ev = .readCluster (vol.chainAt first j) vol.spc ∨
        ev ∈ (body (vol.chainAt first j) st').events)) ∧
    ∀ r, (clusterLoop vol body giveUp fuel (u32 i) (vol.chainAt first i) st).val = some r →
      (∃ st', r = giveUp st') ∨ ∃ j st', vol.Reached goes first j ∧ (body (vol.chainAt first j) st').val = .done r := by
  induction fuel generalizing i st with
  | zero => exact ⟨fun ev h => absurd h List.not_mem_nil, fun r h => by cases h⟩
  | succ fuel ih =>
    have hstopped : (∀ ev ∈ (pure (some (giveUp st)) : Traced FatEvent (Option ρ)).events, ∃ j st',
        vol.Reached goes first j ∧ (ev = .readCluster (vol.chainAt first j) vol.spc ∨
          ev ∈ (body (vol.chainAt first j) st').events)) ∧
        ∀ r, (pure (some (giveUp st)) : Traced FatEvent (Option ρ)).val = some r →
          (∃ st', r = giveUp st') ∨ ∃ j st', vol.Reached goes first j ∧ (body (vol.chainAt first j) st').val = .done r :=
      ⟨fun ev h => absurd h List.not_mem_nil, fun r h => .inl ⟨st, (Option.some.inj h).symm⟩⟩
    by_cases hc : isCluster (vol.chainAt first i) = true
    · by_cases hlimit : vol.clusterLimit < u32 (u32 i + 1)
      · rw [clusterLoop, if_pos hc]
        dsimp only
        rw [if_pos hlimit]
        exact hstopped
      · have hcounted := (counted_iff hcount).mp hlimit
        have hclusters' : ∀ j < i + 1, isCluster (vol.chainAt first j) = true := by
          intro j hj
          rcases Nat.lt_succ_iff_lt_or_eq.mp hj with hj | rfl
          · exact hclusters j hj
          · exact hc
        have hreached : vol.Reached goes first i := ⟨hcounted, fun j hj => hclusters' j (by omega), hgoes⟩
        rw [events_clusterLoop hreached, clusterLoop_succ_val, if_pos hc, if_neg hlimit, u32_succ_u32]
        cases hround : (body (vol.chainAt first i) st).val with
        | done r =>
          refine ⟨fun ev h => ?_, fun r' h => .inr ⟨i, st, hreached, by rw [hround, Option.some.inj h]⟩⟩
          rw [List.append_nil, List.mem_cons] at h
          exact ⟨i, st, hreached, h⟩
        | more next st' =>
          obtain ⟨rfl, hpassed⟩ := hmove _ _ _ _ hround
          have hgoes' : ∀ j < i + 1, goes (vol.chainAt first j) := by
            intro j hj
            rcases Nat.lt_succ_iff_lt_or_eq.mp hj with hj | rfl
            · exact hgoes j hj
            · exact hpassed
          obtain ⟨hevents, hresult⟩ := ih (i := i + 1) (hcounted.imp_left fun h => h) hclusters' hgoes' st'
          rw [vol.chainAt_succ] at hevents hresult
          refine ⟨fun ev h => ?_, hresult⟩
          rcases List.mem_append.mp h with h | h
          · exact ⟨i, st, hreached, List.mem_cons.mp h⟩
          · exact hevents ev h
    · rw [clusterLoop, if_neg hc]
      exact hstopped

/-- A loop that returns at end marks only does get to the clusters of the directory. -/
theorem events_of_reached (giveUp : σ → ρ)
    (hgo : ∀ c st, goes c → ∃ st', (body c st).val = .more (vol.next c) st') {j k fuel : Nat}
    (h : vol.Reached goes first (j + k)) (hfuel : k < fuel) (st : σ) :
    ∃ st', ∀ ev, (ev = .readCluster (vol.chainAt first (j + k)) vol.spc ∨
        ev ∈ (body (vol.chainAt first (j + k)) st').events) →
      ev ∈ (clusterLoop vol body giveUp fuel (u32 j) (vol.chainAt first j) st).events := by
  induction k generalizing j fuel st with
  | zero =>
    obtain ⟨fuel, rfl⟩ : ∃ n, fuel = n + 1 := ⟨fuel - 1, by omega⟩
    rw [Nat.add_zero] at h ⊢
    refine ⟨st, fun ev hev => ?_⟩
    rw [events_clusterLoop h]
    rcases hev with rfl | hev
    · simp
    · simp only [List.mem_append, List.mem_cons]
      exact .inl (.inr hev)
  | succ k ih =>
    obtain ⟨fuel, rfl⟩ : ∃ n, fuel = n + 1 := ⟨fuel - 1, by omega⟩
    obtain ⟨st₁, hround⟩ := hgo _ st (h.passed j (by omega))
    have hsum : j + (k + 1) = j + 1 + k := by omega
    rw [hsum] at h ⊢
    obtain ⟨st₂, hmem⟩ := ih h (show k < fuel by omega) st₁
    refine ⟨st₂, fun ev hev => ?_⟩
    rw [events_clusterLoop (h.of_le (by omega)), hround, ← vol.chainAt_succ]
    exact List.mem_append_right _ (hmem ev hev)

end loop

/-! ## Entries -/

section entries

variable {d : Disk} {part : Nat}

/-- A long-name entry with ordinal bits 0 and a first character: `find_in_dir` stores it 13 bytes below the buffer. -/
def BelowBuffer (e : DirEntry) : Prop := e.isLfn = true ∧ e.first % 64 = 0 ∧ deref e.lfnChars ≠ 0

theorem str_eq_nil_iff (p : List Byte) : str p = [] ↔ deref p = 0 := by
  cases p with
  | nil => exact iff_of_true rfl rfl
  | cons x p =>
    rw [str_cons]
    split
    · exact iff_of_true rfl ‹_›
    · exact iff_of_false (List.cons_ne_nil _ _) ‹_›

theorem findStores_ok_iff (e : DirEntry) :
    (∀ ev ∈ findStores e, EventOk d part ev) ↔ (e.first ≠ 0 → ¬BelowBuffer e) := by
  rw [findStores]
  split
  · rename_i hlive
    obtain ⟨h0, -, hlfn⟩ := hlive
    simp only [List.mem_map, List.mem_filter, List.mem_range, decide_eq_true_eq]
    constructor
    · rintro hall - ⟨-, hord, hchar⟩
      have hlen : 0 < (str e.lfnChars).length := List.length_pos_iff.mpr fun h => hchar ((str_eq_nil_iff _).mp h)
      have hev := hall _ ⟨_, ⟨⟨0, hlen, rfl⟩, by rw [hord]; decide⟩, rfl⟩
      rw [hord] at hev
      exact absurd hev.1 (by decide)
    · rintro hbelow ev ⟨index, ⟨⟨k, hk, rfl⟩, hlt⟩, rfl⟩
      have hord : e.first % 64 ≠ 0 := by
        intro hord
        refine hbelow h0 ⟨hlfn, hord, fun hchar => ?_⟩
        rw [(str_eq_nil_iff _).mpr hchar] at hk
        cases hk
      refine ⟨?_, by omega⟩
      omega
  · rename_i hdead
    refine iff_of_true (fun ev hev => absurd hev (List.not_mem_nil)) ?_
    rintro h0 ⟨hlfn, hord, -⟩
    have hdel : e.first = 0xE5 := by
      by_contra hdel
      exact hdead ⟨h0, hdel, hlfn⟩
    rw [hdel] at hord
    cases hord

theorem listStores_ok {e : DirEntry} {ev : FatEvent} (h : ev ∈ listStores e) : EventOk d part ev := by
  rw [listStores] at h
  split at h
  · dsimp only at h
    split at h
    · cases h
    · simp only [List.mem_map, List.mem_filter, List.mem_range, decide_eq_true_eq] at h
      obtain ⟨index, ⟨⟨k, hk, rfl⟩, hlt⟩, rfl⟩ := h
      constructor <;> omega
  · cases h

/-- The entries that listings hand to their callback as directories, if they have a name. -/
def DirEntry.isSubdir (e : DirEntry) : Bool :=
  e.isDir && e.first != 0 && e.first != 0xE5 && e.first != 46 && !e.isVolumeId && !e.isLfn

/-- The entries of a cluster before an end mark. -/
def liveEntries (es : List DirEntry) : List DirEntry := es.takeWhile fun e => e.first != 0

theorem liveEntries_ne {es : List DirEntry} {e : DirEntry} (h : e ∈ liveEntries es) : e.first ≠ 0 := by
  simpa using List.mem_takeWhile_imp h

theorem mem_events_findEntriesTr {target : List Byte} {es : List DirEntry} {s : LfnState} {ev : FatEvent}
    (h : ev ∈ (findEntriesTr target es s).events) : ∃ e ∈ liveEntries es, ev ∈ findStores e := by
  induction es generalizing s with
  | nil => cases h
  | cons e es ih =>
    by_cases h0 : e.first = 0
    · simp [findEntriesTr, findStores, findStep, h0] at h
    · have hlive : liveEntries (e :: es) = e :: liveEntries es := List.takeWhile_cons_of_pos (by simpa using h0)
      rw [hlive]
      rw [findEntriesTr, Traced.events_bind, List.mem_append] at h
      rcases h with h | h
      · exact ⟨e, List.mem_cons_self, h⟩
      · cases hstep : findStep target s e with
        | done r =>
          rw [hstep] at h
          cases h
        | more s =>
          rw [hstep] at h
          obtain ⟨e', he', hev⟩ := ih h
          exact ⟨e', List.mem_cons_of_mem _ he', hev⟩

theorem findEntries_more {target : List Byte} {es : List DirEntry} {s s' : LfnState}
    (h : findEntries target es s = .more s') : ∀ e ∈ es, e.first ≠ 0 := by
  induction es generalizing s with
  | nil => intro e he; cases he
  | cons e es ih =>
    rw [findEntries] at h
    cases hstep : findStep target s e with
    | done r =>
      rw [hstep] at h
      cases h
    | more s₁ =>
      rw [hstep] at h
      intro e' he'
      rcases List.mem_cons.mp he' with rfl | he'
      · intro h0
        rw [findStep, if_pos h0] at hstep
        cases hstep
      · exact ih h e' he'

theorem findStep_done {target : List Byte} {s : LfnState} {e e' : DirEntry} (h : findStep target s e = .done (some e')) :
    e' = e := by
  rw [findStep] at h
  split at h
  · cases h
  · split at h
    · cases h
    · split at h
      · dsimp only at h
        split at h <;> cases h
      · split at h
        · cases h
          rfl
        · split at h
          · cases h
            rfl
          · cases h

/-! A name that no entry can have: neither a long nor a short name has 256 characters. -/

def longName : List Byte := List.replicate 256 97

theorem length_str_longName : (str longName).length = 256 := by
  rw [str_of_no_nul, longName, List.length_replicate]
  intro c hc
  rw [List.eq_of_mem_replicate hc]
  decide

theorem nameMatch_length {a b : List Byte} (h : nameMatch a b = true) : (str a).length = (str b).length := by
  induction a generalizing b with
  | nil =>
    rw [nameMatch, beq_iff_eq] at h
    rw [(str_eq_nil_iff b).mpr h]
    rfl
  | cons x a ih =>
    cases b with
    | nil =>
      rw [nameMatch, beq_iff_eq] at h
      rw [str_cons, if_pos h]
      rfl
    | cons y b =>
      rw [nameMatch] at h
      rw [str_cons, str_cons]
      split at h
      · rename_i hne
        rw [Bool.and_eq_true, bne_iff_ne, bne_iff_ne] at hne
        split at h
        · cases h
        · rw [if_neg hne.1, if_neg hne.2, List.length_cons, List.length_cons, ih h]
      · rw [Bool.and_eq_true, beq_iff_eq, beq_iff_eq] at h
        rw [if_pos h.1, if_pos h.2]

theorem nameMatch_longName {a : List Byte} (h : a.length ≤ 255) : nameMatch a longName = false := by
  rw [← Bool.not_eq_true]
  intro hmatch
  have hlen := nameMatch_length hmatch
  have hle := length_str_le a
  rw [length_str_longName] at hlen
  omega

theorem length_fat83ToStr (e : DirEntry) : (fat83ToStr e.name e.ext).length ≤ 12 := by
  have hname : (e.name.rdropWhile (· == 32)).length ≤ 8 :=
    (List.rdropWhile_prefix _ _).length_le.trans (by rw [DirEntry.name, length_slice]; omega)
  have hext : (e.ext.rdropWhile (· == 32)).length ≤ 3 :=
    (List.rdropWhile_prefix _ _).length_le.trans (by rw [DirEntry.ext, length_slice]; omega)
  rw [fat83ToStr]
  split
  · omega
  · rw [List.length_append, List.length_cons]
    omega

theorem findStep_longName (s : LfnState) {e : DirEntry} (h0 : e.first ≠ 0) : ∃ s', findStep longName s e = .more s' := by
  have htext : nameMatch s.text longName = false :=
    nameMatch_longName ((length_str_le _).trans (List.length_take_le _ _))
  have hshort : nameMatch (fat83ToStr e.name e.ext) longName = false :=
    nameMatch_longName ((length_fat83ToStr e).trans (by decide))
  rw [findStep, if_neg h0, htext, hshort]
  simp only [Bool.and_false, Bool.false_eq_true, if_false]
  split
  · exact ⟨_, rfl⟩
  · split
    · split <;> exact ⟨_, rfl⟩
    · exact ⟨_, rfl⟩

theorem findEntriesTr_longName (es : List DirEntry) (s : LfnState) :
    (∀ e ∈ liveEntries es, ∀ ev ∈ findStores e, ev ∈ (findEntriesTr longName es s).events) ∧
      ((∀ e ∈ es, e.first ≠ 0) → ∃ s', findEntries longName es s = .more s') := by
  induction es generalizing s with
  | nil => exact ⟨fun e he => absurd he List.not_mem_nil, fun _ => ⟨s, rfl⟩⟩
  | cons e es ih =>
    by_cases h0 : e.first = 0
    · have hlive : liveEntries (e :: es) = [] := List.takeWhile_cons_of_neg (by simpa using h0)
      rw [hlive]
      exact ⟨fun e he => absurd he List.not_mem_nil, fun hall => absurd h0 (hall e List.mem_cons_self)⟩
    · obtain ⟨s', hstep⟩ := findStep_longName s h0
      obtain ⟨hstores, hmore⟩ := ih s'
      have hlive : liveEntries (e :: es) = e :: liveEntries es := List.takeWhile_cons_of_pos (by simpa using h0)
      rw [hlive, findEntriesTr, findEntries, hstep, Traced.events_bind]
      refine ⟨fun e' he' ev hev => ?_, fun hall => hmore fun e' he' => hall e' (List.mem_cons_of_mem _ he')⟩
      rcases List.mem_cons.mp he' with rfl | he'
      · exact List.mem_append_left _ hev
      · exact List.mem_append_right _ (hstores e' he' ev hev)

end entries

/-! ## Directories -/

namespace FatVol

variable {d : Disk} {part : Nat} {vol : FatVol}

/-- What a lookup in a directory needs: clusters of at most 64 sectors, data clusters, and no long-name entry with
ordinal bits 0, as far as the directory goes. -/
def FindSafe (d : Disk) (part : Nat) (vol : FatVol) (first : Nat) : Prop :=
  ∀ i, vol.Scanned first i → vol.spc ≤ 64 ∧ DataCluster d part (vol.chainAt first i) ∧
    ∀ e ∈ liveEntries (vol.clusterEntries (vol.chainAt first i)), ¬BelowBuffer e

/-- What a listing of a directory needs. -/
def ListSafe (d : Disk) (part : Nat) (vol : FatVol) (first : Nat) : Prop :=
  ∀ i, vol.Scanned first i → vol.spc ≤ 64 ∧ DataCluster d part (vol.chainAt first i)

/-- No entry in front of the first subdirectory ends the directory: behind a subdirectory the listing goes on with what
its callback left in the buffer. -/
def Passable (c : Nat) : Prop := ∀ e ∈ (vol.clusterEntries c).takeWhile fun e => !e.isSubdir, e.first ≠ 0

/-- What a listing of a directory needs whose callback lists the subdirectories it is called for. -/
def NestedSafe (d : Disk) (part : Nat) (vol : FatVol) (first : Nat) : Prop :=
  ∀ i, vol.Reached vol.Passable first i → vol.spc ≤ 64 ∧ DataCluster d part (vol.chainAt first i)

theorem findRound_eq (target : List Byte) (cluster : Nat) (st : LfnState × Bufs) :
    (vol.findRound target cluster st).events = (findEntriesTr target (vol.clusterEntries cluster) st.1).events ∧
      (vol.findRound target cluster st).val =
        let b := { st.2 with dir := patch st.2.dir 0 (vol.clusterData cluster) }
        match findEntries target (vol.clusterEntries cluster) st.1 with
        | .done r => .done (r, b)
        | .more s => .more (vol.next cluster) (s, (vol.nextCluster cluster b).2) := by
  simp only [findRound, Traced.val_bind, Traced.events_bind, findEntriesTr_val, map_entryAt_patch, nextCluster_fst]
  constructor
  · cases findEntries target (vol.clusterEntries cluster) st.1 <;> simp
  · cases findEntries target (vol.clusterEntries cluster) st.1 <;> rfl

theorem findRound_move {target : List Byte} {c next : Nat} {st st' : LfnState × Bufs}
    (h : (vol.findRound target c st).val = .more next st') : next = vol.next c ∧ vol.Open c := by
  rw [(findRound_eq target c st).2] at h
  cases hfound : findEntries target (vol.clusterEntries c) st.1 with
  | done r =>
    rw [hfound] at h
    cases h
  | more s =>
    rw [hfound] at h
    cases h
    exact ⟨rfl, findEntries_more hfound⟩

theorem findInDirRun_rounds (first : Nat) (target junk : List Byte) (b : Bufs) (fuel : Nat) :
    (∀ ev ∈ (vol.findInDirRun fuel first target junk b).events, ∃ j st', vol.Scanned first j ∧
      (ev = .readCluster (vol.chainAt first j) vol.spc ∨ ev ∈ (vol.findRound target (vol.chainAt first j) st').events)) ∧
    ∀ r, (vol.findInDirRun fuel first target junk b).val = some r →
      (∃ st' : LfnState × Bufs, r = (none, st'.2)) ∨
        ∃ j st', vol.Scanned first j ∧ (vol.findRound target (vol.chainAt first j) st').val = .done r :=
  clusterLoop_rounds (i := 0) (fun _ _ _ _ => findRound_move) (.inl (Nat.zero_le _))
    (fun j hj => absurd hj (Nat.not_lt_zero j)) (fun j hj => absurd hj (Nat.not_lt_zero j)) fuel _

theorem findInDir_safe_iff (first : Nat) :
    (∀ target junk b fuel, ∀ ev ∈ (vol.findInDirRun fuel first target junk b).events, EventOk d part ev) ↔
      vol.FindSafe d part first := by
  constructor
  · intro hall i hi
    have hgo : ∀ c (st : LfnState × Bufs), vol.Open c →
        ∃ st', (vol.findRound longName c st).val = .more (vol.next c) st' := by
      intro c st hopen
      obtain ⟨s', hmore⟩ := (findEntriesTr_longName (vol.clusterEntries c) st.1).2 hopen
      rw [(findRound_eq longName c st).2, hmore]
      exact ⟨_, rfl⟩
    obtain ⟨st', hmem⟩ := events_of_reached (j := 0) (fun st : LfnState × Bufs => (none, st.2)) hgo
      (by rwa [Nat.zero_add]) (Nat.lt_succ_self i) ({ buf := [], len := false }, ⟨[], [], [], []⟩)
    rw [Nat.zero_add] at hmem
    have hok : ∀ ev, _ → EventOk d part ev := fun ev hev => hall longName [] ⟨[], [], [], []⟩ (i + 1) ev (hmem ev hev)
    obtain ⟨hspc, hdata⟩ := hok _ (.inl rfl)
    refine ⟨hspc, hdata, fun e he hbelow => ?_⟩
    refine (findStores_ok_iff e).mp (fun ev hev => hok ev (.inr ?_)) (liveEntries_ne he) hbelow
    rw [(findRound_eq longName _ st').1]
    exact (findEntriesTr_longName _ _).1 e he ev hev
  · intro hsafe target junk b fuel ev hev
    obtain ⟨i, st, hi, hev⟩ := (findInDirRun_rounds first target junk b fuel).1 ev hev
    obtain ⟨hspc, hdata, hentries⟩ := hsafe i hi
    rcases hev with rfl | hev
    · exact ⟨hspc, hdata⟩
    · rw [(findRound_eq target _ st).1] at hev
      obtain ⟨e, he, hev⟩ := mem_events_findEntriesTr hev
      exact (findStores_ok_iff e).mpr (fun _ => hentries e he) ev hev

end FatVol

section listing

variable {d : Disk} {part : Nat} {vol : FatVol} {σ : Type} {cb : List Byte → Bool → Bufs × σ → Bufs × σ}

theorem listStep_stop_iff (s : LfnState) (e : DirEntry) : listStep s e = .stop ↔ e.first = 0 := by
  constructor
  · intro h
    by_contra h0
    rw [listStep, if_neg h0] at h
    split at h
    · cases h
    · split at h
      · cases h
      · split at h
        · cases h
        · split at h
          · dsimp only at h
            split at h <;> cases h
          · split at h
            · cases h
            · dsimp only at h
              split at h <;> cases h
  · intro h0
    rw [listStep, if_pos h0]

theorem mem_events_listEntriesTr {is : List Nat} {s : LfnState} {st : Bufs × σ} {ev : FatEvent}
    (h : ev ∈ (listEntriesTr cb is s st).events) : ∃ e, ev ∈ listStores e := by
  induction is generalizing s st with
  | nil => cases h
  | cons i is ih =>
    rw [listEntriesTr, Traced.events_bind, List.mem_append] at h
    rcases h with h | h
    · exact ⟨_, h⟩
    · cases hstep : listStep s (entryAt st.1.enum i) with
      | stop =>
        rw [hstep] at h
        cases h
      | skip s =>
        rw [hstep] at h
        exact ih h
      | entry name s =>
        rw [hstep] at h
        exact ih h

theorem isSome_listEntries (hcb : ∀ name isDir st, (cb name isDir st).1.enum = st.1.enum) (is : List Nat)
    (s : LfnState) (st : Bufs × σ) :
    (listEntries cb is s st).1.isSome = true ↔ ∀ e ∈ is.map (entryAt st.1.enum), e.first ≠ 0 := by
  induction is generalizing s st with
  | nil => exact iff_of_true rfl fun e he => absurd he List.not_mem_nil
  | cons i is ih =>
    rw [List.map_cons, List.forall_mem_cons, ne_eq, ← listStep_stop_iff s, listEntries]
    cases hstep : listStep s (entryAt st.1.enum i) with
    | stop => simp
    | skip s => exact (ih s st).trans (by simp)
    | entry name s =>
      refine (ih s _).trans ?_
      rw [hcb]
      simp

theorem isDir_eq_false_of_listStep {s s' : LfnState} {e : DirEntry} {name : List Byte} (h : listStep s e = .entry name s')
    (hsub : e.isSubdir = false) : e.isDir = false := by
  by_contra hdir
  have hdir' : e.isDir = true := by simpa using hdir
  rw [listStep] at h
  dsimp only at h
  split_ifs at h with h0 hE5 h46 hlabel hlfn
  all_goals
    have hvol : e.isVolumeId = false := by simpa [hlfn] using hlabel
    simp [DirEntry.isSubdir, hdir', h0, hE5, h46, hvol, hlfn] at hsub

/-- A listing that goes on behind a cluster, with a callback that leaves the buffer alone when it is called for a file. -/
theorem listEntries_passed (hcb : ∀ name st, (cb name false st).1.enum = st.1.enum) (is : List Nat) (s : LfnState)
    (st : Bufs × σ) (h : (listEntries cb is s st).1.isSome = true) :
    ∀ e ∈ (is.map (entryAt st.1.enum)).takeWhile fun e => !e.isSubdir, e.first ≠ 0 := by
  induction is generalizing s st with
  | nil => exact fun e he => absurd he List.not_mem_nil
  | cons i is ih =>
    rw [List.map_cons]
    cases hsub : (entryAt st.1.enum i).isSubdir with
    | true => simp [hsub]
    | false =>
      rw [List.takeWhile_cons_of_pos (by simp [hsub]), List.forall_mem_cons, ne_eq, ← listStep_stop_iff s]
      rw [listEntries] at h
      cases hstep : listStep s (entryAt st.1.enum i) with
      | stop => simp [hstep] at h
      | skip s =>
        rw [hstep] at h
        exact ⟨by simp, ih s st h⟩
      | entry name s =>
        simp only [hstep, isDir_eq_false_of_listStep hstep hsub] at h
        have hrest := ih s _ h
        rw [hcb] at hrest
        exact ⟨by simp, hrest⟩

theorem listRound_val (cluster : Nat) (st : LfnState × Bufs × σ) :
    (listRound vol cb cluster st).val =
      match listEntries cb (List.range (vol.spc * 512 / 32)) st.1
        ({ st.2.1 with enum := patch st.2.1.enum 0 (vol.clusterData cluster) }, st.2.2) with
      | (none, st) => .done st
      | (some s, st) => .more (vol.next cluster) (s, (vol.nextCluster cluster st.1).2, st.2) := by
  simp only [listRound, Traced.val_bind, listEntriesTr_val, FatVol.nextCluster_fst]
  generalize listEntries cb _ st.1 _ = r
  rcases r with ⟨_ | s, st⟩ <;> rfl

theorem listRound_events {cluster : Nat} {st : LfnState × Bufs × σ} {ev : FatEvent}
    (h : ev ∈ (listRound vol cb cluster st).events) : ∃ e, ev ∈ listStores e := by
  rw [listRound, Traced.events_bind, List.mem_append] at h
  rcases h with h | h
  · exact mem_events_listEntriesTr h
  · revert h
    generalize (listEntriesTr cb _ st.1 _).val = r
    rcases r with ⟨_ | s, st⟩ <;> exact fun h => absurd h List.not_mem_nil

/-- A listing whose rounds go on over clusters of one kind is safe where the clusters it gets to are. -/
theorem listDir_safe_of_reached {goes : Nat → Prop} (hmove : ∀ c (st : LfnState × Bufs × σ) next st',
      (listRound vol cb c st).val = .more next st' → next = vol.next c ∧ goes c) {first : Nat}
    (hsafe : ∀ i, vol.Reached goes first i → vol.spc ≤ 64 ∧ DataCluster d part (vol.chainAt first i))
    (lfnJunk : List Byte) (st : Bufs × σ) (fuel : Nat) :
    ∀ ev ∈ (listDirRun vol cb fuel first lfnJunk st).events, EventOk d part ev := by
  intro ev hev
  obtain ⟨i, st, hi, hev⟩ := (clusterLoop_rounds (i := 0) hmove (.inl (Nat.zero_le _))
    (fun j hj => absurd hj (Nat.not_lt_zero j)) (fun j hj => absurd hj (Nat.not_lt_zero j)) fuel _).1 ev hev
  rcases hev with rfl | hev
  · exact hsafe i hi
  · obtain ⟨e, he⟩ := listRound_events hev
    exact listStores_ok he

theorem listDir_safe_iff (hcb : ∀ name isDir st, (cb name isDir st).1.enum = st.1.enum) (first : Nat)
    (lfnJunk : List Byte) (st : Bufs × σ) :
    (∀ fuel, ∀ ev ∈ (listDirRun vol cb fuel first lfnJunk st).events, EventOk d part ev) ↔
      vol.ListSafe d part first := by
  have hround : ∀ c (st : LfnState × Bufs × σ),
      (vol.Open c → ∃ st', (listRound vol cb c st).val = .more (vol.next c) st') ∧
      ∀ next st', (listRound vol cb c st).val = .more next st' → next = vol.next c ∧ vol.Open c := by
    intro c st
    have hsome := isSome_listEntries hcb (List.range (vol.spc * 512 / 32)) st.1
      ({ st.2.1 with enum := patch st.2.1.enum 0 (vol.clusterData c) }, st.2.2)
    dsimp only at hsome
    rw [vol.map_entryAt_patch] at hsome
    rw [listRound_val]
    generalize listEntries cb _ st.1 _ = r at hsome ⊢
    rcases r with ⟨_ | s, st⟩
    · exact ⟨fun hopen => absurd (hsome.mpr hopen) (by simp), fun next st' h => by cases h⟩
    · exact ⟨fun _ => ⟨_, rfl⟩, fun next st' h => by cases h; exact ⟨rfl, hsome.mp rfl⟩⟩
  constructor
  · intro hall i hi
    obtain ⟨st', hmem⟩ := events_of_reached (j := 0) Prod.snd (fun c st => (hround c st).1)
      (by rwa [Nat.zero_add]) (Nat.lt_succ_self i) ({ buf := lfnJunk, len := false }, st)
    rw [Nat.zero_add] at hmem
    exact hall (i + 1) _ (hmem _ (.inl rfl))
  · exact fun hsafe => listDir_safe_of_reached (fun c st => (hround c st).2) hsafe lfnJunk st

theorem listDir_nested_safe (hcb : ∀ name st, (cb name false st).1.enum = st.1.enum) {first : Nat}
    (hsafe : vol.NestedSafe d part first) (lfnJunk : List Byte) (st : Bufs × σ) (fuel : Nat) :
    ∀ ev ∈ (listDirRun vol cb fuel first lfnJunk st).events, EventOk d part ev := by
  have hround : ∀ c (st : LfnState × Bufs × σ) next st',
      (listRound vol cb c st).val = .more next st' → next = vol.next c ∧ vol.Passable c := by
    intro c st next st' h
    have hpassed := listEntries_passed hcb (List.range (vol.spc * 512 / 32)) st.1
      ({ st.2.1 with enum := patch st.2.1.enum 0 (vol.clusterData c) }, st.2.2)
    dsimp only at hpassed
    rw [vol.map_entryAt_patch] at hpassed
    rw [listRound_val] at h
    generalize listEntries cb _ st.1 _ = r at h hpassed
    rcases r with ⟨_ | s, st⟩
    · cases h
    · cases h
      exact ⟨rfl, hpassed rfl⟩
  exact listDir_safe_of_reached hround hsafe lfnJunk st fuel

end listing

/-! ## Reading a file -/

namespace FatVol

variable (vol : FatVol)

/-- The loop of `fat_read`. With clusters of no sectors it divides by zero: nothing is read any more. -/
def readLoopTr : Nat → FatFile → Nat → Bufs → Traced FatEvent (List Byte × FatFile × Bufs)
  | 0, f, _, b => pure ([], f, b)
  | n + 1, f, len, b =>
    if 0 < len && isCluster f.curCluster then
      let clustSz := vol.spc * 512
      if clustSz = 0 then pure ([], f, b)
      else do
        let clustOff := f.offset % clustSz
        let inClust := min (clustSz - clustOff) len
        Traced.emit (.readCluster f.curCluster vol.spc)
        let b := { b with clust := patch b.clust 0 (vol.clusterData f.curCluster) }
        let bytes := slice b.clust clustOff inClust
        let f := { f with offset := f.offset + inClust }
        let q :=
          if f.offset % clustSz = 0 then
            ({ f with curCluster := (vol.nextCluster f.curCluster b).1 }, (vol.nextCluster f.curCluster b).2)
          else (f, b)
        let r ← readLoopTr n q.1 (len - inClust) q.2
        return (bytes ++ r.1, r.2.1, r.2.2)
    else pure ([], f, b)

def fatReadTr (s : FatState) (h : Option FatHandle) (len : Nat) : Traced FatEvent (List Byte × FatState) :=
  match h with
  | none => pure ([], s)
  | some i =>
    let f := s.pool i
    if f.fileSize ≤ f.offset then pure ([], s)
    else do
      let len := min len (f.fileSize - f.offset)
      let r ← vol.readLoopTr len f len s.bufs
      return (r.1, { s with pool := Function.update s.pool i r.2.1, bufs := r.2.2 })

theorem readLoopTr_val (hspc : 0 < vol.spc) (n : Nat) (f : FatFile) (len : Nat) (b : Bufs) :
    (vol.readLoopTr n f len b).val = vol.readLoop n f len b := by
  induction n generalizing f len b with
  | zero => rfl
  | succ n ih =>
    rw [readLoopTr, readLoop]
    split
    · dsimp only
      rw [if_neg (by omega)]
      simp only [Traced.val_bind, ih]
      split <;> rfl
    · rfl

/-- The trace is that of `fat_read`. -/
theorem fatReadTr_val (hspc : 0 < vol.spc) (s : FatState) (h : Option FatHandle) (len : Nat) :
    (vol.fatReadTr s h len).val = vol.fatRead s h len := by
  cases h with
  | none => rfl
  | some i =>
    rw [fatReadTr, fatRead]
    dsimp only
    split
    · rfl
    · rw [Traced.val_bind, readLoopTr_val vol hspc]
      rfl

variable {vol}

/-- A read of `len` bytes from the handle's offset on needs its `j`-th cluster from the current one on. -/
def Needed (vol : FatVol) (f : FatFile) (len j : Nat) : Prop :=
  0 < len ∧ j * vol.clusterSz < f.offset % vol.clusterSz + len ∧
    ∀ k ≤ j, isCluster (vol.chainAt f.curCluster k) = true

theorem chainAt_next (c j : Nat) : vol.chainAt (vol.next c) j = vol.chainAt c (j + 1) :=
  (Function.iterate_succ_apply _ _ _).symm

theorem mem_events_readLoopTr (hpos : 0 < vol.clusterSz) {n : Nat} {f : FatFile} {len : Nat} {b : Bufs} (hlen : len ≤ n)
    {ev : FatEvent} : ev ∈ (vol.readLoopTr n f len b).events ↔
      ∃ j, vol.Needed f len j ∧ ev = .readCluster (vol.chainAt f.curCluster j) vol.spc := by
  induction n generalizing f len b with
  | zero =>
    refine iff_of_false (fun h => by cases h) ?_
    rintro ⟨j, ⟨h, -⟩, -⟩
    omega
  | succ n ih =>
    by_cases hrun : 0 < len ∧ isCluster f.curCluster = true
    · obtain ⟨hlenPos, hcluster⟩ := hrun
      have hmod := Nat.mod_lt f.offset hpos
      have hdiv := Nat.div_add_mod f.offset vol.clusterSz
      have hcs : vol.spc * 512 = vol.clusterSz := rfl
      rw [readLoopTr, if_pos (by simp [hlenPos, hcluster])]
      dsimp only
      rw [hcs, if_neg (by omega)]
      simp only [Traced.events_bind, Traced.events_emit, Traced.events_pure, List.append_nil, List.mem_append,
        List.mem_singleton]
      by_cases hfits : f.offset % vol.clusterSz + len ≤ vol.clusterSz
      · -- the rest of the read is in this cluster
        have hin : min (vol.clusterSz - f.offset % vol.clusterSz) len = len := Nat.min_eq_right (by omega)
        rw [hin, Nat.sub_self, ih (Nat.zero_le n)]
        constructor
        · rintro (rfl | ⟨j, ⟨h, -⟩, -⟩)
          · refine ⟨0, ⟨hlenPos, by omega, fun k hk => ?_⟩, rfl⟩
            rwa [Nat.le_zero.mp hk]
          · cases h
        · rintro ⟨j, ⟨-, hj, -⟩, rfl⟩
          obtain rfl : j = 0 := by
            by_contra hne
            have := Nat.le_mul_of_pos_left vol.clusterSz (Nat.pos_of_ne_zero hne)
            omega
          exact .inl rfl
      · have hin : min (vol.clusterSz - f.offset % vol.clusterSz) len = vol.clusterSz - f.offset % vol.clusterSz :=
          Nat.min_eq_left (by omega)
        have hend : (f.offset + (vol.clusterSz - f.offset % vol.clusterSz)) % vol.clusterSz = 0 := by
          have hsum : f.offset + (vol.clusterSz - f.offset % vol.clusterSz) =
              vol.clusterSz * (f.offset / vol.clusterSz + 1) := by
            rw [Nat.mul_succ]
            omega
          rw [hsum, Nat.mul_mod_right]
        rw [hin, if_pos hend, ih (by omega)]
        simp only [Needed, hend, nextCluster_fst, chainAt_next, Nat.zero_add]
        constructor
        · rintro (rfl | ⟨j, ⟨-, hj, hclusters⟩, rfl⟩)
          · refine ⟨0, ⟨hlenPos, by omega, fun k hk => ?_⟩, rfl⟩
            rwa [Nat.le_zero.mp hk]
          · refine ⟨j + 1, ⟨hlenPos, ?_, fun k hk => ?_⟩, rfl⟩
            · rw [Nat.succ_mul]
              omega
            · cases k with
              | zero => exact hcluster
              | succ k => exact hclusters k (by omega)
        · rintro ⟨j, ⟨-, hj, hclusters⟩, rfl⟩
          cases j with
          | zero => exact .inl rfl
          | succ j =>
            rw [Nat.succ_mul] at hj
            exact .inr ⟨j, ⟨by omega, by omega, fun k hk => hclusters (k + 1) (by omega)⟩, rfl⟩
    · rw [readLoopTr, if_neg (by simpa using hrun)]
      refine iff_of_false (fun h => by cases h) ?_
      rintro ⟨j, ⟨hlenPos, -, hclusters⟩, -⟩
      exact hrun ⟨hlenPos, hclusters 0 (Nat.zero_le j)⟩

theorem readLoopTr_no_sectors (hspc : vol.spc = 0) (n : Nat) (f : FatFile) (len : Nat) (b : Bufs) :
    (vol.readLoopTr n f len b).events = [] := by
  cases n with
  | zero => rfl
  | succ n =>
    rw [readLoopTr, hspc]
    split <;> rfl

/-- What a read needs: clusters of at most 64 sectors, and data clusters, as far as it goes along the chain. -/
def ReadSafe (d : Disk) (part : Nat) (vol : FatVol) (f : FatFile) (len : Nat) : Prop :=
  0 < vol.spc → ∀ j, vol.Needed f (min len (f.fileSize - f.offset)) j →
    vol.spc ≤ 64 ∧ DataCluster d part (vol.chainAt f.curCluster j)

theorem fatRead_safe_iff {d : Disk} {part : Nat} (s : FatState) (i : FatHandle) (len : Nat) :
    (∀ ev ∈ (vol.fatReadTr s (some i) len).events, EventOk d part ev) ↔ vol.ReadSafe d part (s.pool i) len := by
  by_cases hdone : (s.pool i).fileSize ≤ (s.pool i).offset
  · rw [fatReadTr]
    dsimp only
    rw [if_pos hdone]
    refine iff_of_true (fun ev hev => absurd hev List.not_mem_nil) fun _ j hj => ?_
    have := hj.1
    omega
  · rw [fatReadTr]
    dsimp only
    rw [if_neg hdone, Traced.events_bind, Traced.events_pure, List.append_nil]
    rcases Nat.eq_zero_or_pos vol.spc with hspc | hspc
    · rw [readLoopTr_no_sectors hspc]
      exact iff_of_true (fun ev hev => absurd hev List.not_mem_nil) fun h => absurd hspc h.ne'
    · have hpos : 0 < vol.clusterSz := Nat.mul_pos hspc (by decide)
      constructor
      · intro hall _ j hj
        exact hall _ ((mem_events_readLoopTr hpos le_rfl).mpr ⟨j, hj, rfl⟩)
      · intro hsafe ev hev
        obtain ⟨j, hj, rfl⟩ := (mem_events_readLoopTr hpos le_rfl).mp hev
        exact hsafe hspc j hj

end FatVol

/-! ## Listing by path -/

/-- The directories that a path can lead to: the root directory, and those that entries of such directories name. -/
inductive DirReach (vol : FatVol) : Nat → Prop
  | root : DirReach vol vol.rootCluster
  | sub {c i : Nat} {e : DirEntry} (hc : DirReach vol c) (hi : vol.Scanned c i)
      (he : e ∈ liveEntries (vol.clusterEntries (vol.chainAt c i))) (hdir : e.isDir = true) : DirReach vol e.firstCluster

section paths

variable {d : Disk} {part : Nat} {vol : FatVol}

theorem findEntries_done {target : List Byte} {es : List DirEntry} {s : LfnState} {e : DirEntry}
    (h : findEntries target es s = .done (some e)) : e ∈ liveEntries es := by
  induction es generalizing s with
  | nil => cases h
  | cons e' es ih =>
    have h0 : e'.first ≠ 0 := by
      intro h0
      rw [findEntries, findStep, if_pos h0] at h
      cases h
    have hlive : liveEntries (e' :: es) = e' :: liveEntries es := List.takeWhile_cons_of_pos (by simpa using h0)
    rw [hlive]
    rw [findEntries] at h
    cases hstep : findStep target s e' with
    | done r =>
      rw [hstep] at h
      obtain rfl : r = some e := Lookup.done.inj h
      rw [findStep_done hstep]
      exact List.mem_cons_self
    | more s =>
      rw [hstep] at h
      exact List.mem_cons_of_mem _ (ih h)

theorem DirReach.found {c fuel : Nat} (hc : DirReach vol c) {target junk : List Byte} {b b' : Bufs} {e : DirEntry}
    (h : (vol.findInDirRun fuel c target junk b).val = some (some e, b')) (hdir : e.isDir = true) :
    DirReach vol e.firstCluster := by
  rcases (FatVol.findInDirRun_rounds c target junk b fuel).2 _ h with ⟨st', hgave⟩ | ⟨i, st', hi, hround⟩
  · cases hgave
  · rw [(FatVol.findRound_eq target _ st').2] at hround
    cases hfound : findEntries target (vol.clusterEntries (vol.chainAt c i)) st'.1 with
    | done r =>
      rw [hfound] at hround
      cases hround
      exact .sub hc hi (findEntries_done hfound) hdir
    | more s =>
      rw [hfound] at hround
      cases hround

theorem walkDirRun_safe (hsafe : ∀ c, DirReach vol c → vol.FindSafe d part c) (fuel : Nat) (junk : Nat → List Byte)
    (n : Nat) {cluster : Nat} (p : List Byte) (b : Bufs) (hc : DirReach vol cluster) :
    (∀ ev ∈ (walkDirRun vol fuel junk n cluster p b).events, EventOk d part ev) ∧
      ∀ c b', (walkDirRun vol fuel junk n cluster p b).val = some (some c, b') → DirReach vol c := by
  induction n generalizing cluster p b with
  | zero =>
    refine ⟨fun ev h => absurd h List.not_mem_nil, fun c b' h => ?_⟩
    cases h
    exact hc
  | succ n ih =>
    rw [walkDirRun]
    split
    · refine ⟨fun ev h => absurd h List.not_mem_nil, fun c b' h => ?_⟩
      cases h
      exact hc
    · dsimp only
      split
      · exact ih _ _ hc
      · rw [Traced.events_bind, Traced.val_bind]
        have hfind := (FatVol.findInDir_safe_iff cluster).mpr (hsafe cluster hc) (FatVol.nextComponent p).1 (junk n) b fuel
        rcases hval : (vol.findInDirRun fuel cluster (FatVol.nextComponent p).1 (junk n) b).val with _ | ⟨_ | e, b'⟩
        · exact ⟨fun ev h => hfind ev (by simpa using h), fun c b' h => by cases h⟩
        · exact ⟨fun ev h => hfind ev (by simpa using h), fun c b' h => by cases h⟩
        · dsimp only
          split
          · rename_i hdir
            obtain ⟨hevents, hresult⟩ := ih (FatVol.nextComponent p).2 b' (hc.found hval hdir)
            refine ⟨fun ev h => ?_, hresult⟩
            rcases List.mem_append.mp h with h | h
            · exact hfind ev h
            · exact hevents ev h
          · exact ⟨fun ev h => hfind ev (by simpa using h), fun c b' h => by cases h⟩

theorem fatReaddirRun_safe (hsafe : ∀ c, DirReach vol c → vol.FindSafe d part c) {σ : Type}
    {cb : List Byte → Bool → Bufs × σ → Bufs × σ} {fuel : Nat} {lfnJunk : List Byte}
    (hlist : ∀ c, DirReach vol c → ∀ st, ∀ ev ∈ (listDirRun vol cb fuel c lfnJunk st).events, EventOk d part ev)
    (junk : Nat → List Byte) (dirPath : List Byte) (st : Bufs × σ) :
    ∀ ev ∈ (fatReaddirRun vol cb fuel junk lfnJunk dirPath st).events, EventOk d part ev := by
  intro ev hev
  rw [fatReaddirRun, Traced.events_bind] at hev
  obtain ⟨hwalk, hresult⟩ := walkDirRun_safe hsafe fuel junk
    (if deref dirPath == 47 then dirPath.tail else dirPath).length
    (if deref dirPath == 47 then dirPath.tail else dirPath) st.1 DirReach.root
  rcases List.mem_append.mp hev with hev | hev
  · exact hwalk ev hev
  · generalize walkDirRun vol fuel junk _ vol.rootCluster _ st.1 = r at hev hresult
    rcases hval : r.val with _ | ⟨_ | c, b⟩
    · rw [hval] at hev
      cases hev
    · rw [hval] at hev
      cases hev
    · rw [hval] at hev
      refine hlist c (hresult c b hval) (b, st.2) ev ?_
      simpa using hev

theorem FatVol.FindSafe.list {c : Nat} (h : vol.FindSafe d part c) : vol.ListSafe d part c := fun i hi =>
  ⟨(h i hi).1, (h i hi).2.1⟩

end paths

/-- For every volume: which directories are looked up in and listed safely, which reads of files are safe, and that
safe directories make listings by path safe, those of `scan_cb` with the listings it makes in between. -/
theorem driver_safe_iff {d : Disk} {part : Nat} {vol : FatVol} (_hinit : fatInit d part = some vol) :
    (∀ first, (∀ target junk b fuel, ∀ ev ∈ (vol.findInDirRun fuel first target junk b).events, EventOk d part ev) ↔
      vol.FindSafe d part first) ∧
    (∀ (σ : Type) (cb : List Byte → Bool → Bufs × σ → Bufs × σ),
      (∀ name isDir st, (cb name isDir st).1.enum = st.1.enum) →
      (∀ first lfnJunk st, (∀ fuel, ∀ ev ∈ (listDirRun vol cb fuel first lfnJunk st).events, EventOk d part ev) ↔
        vol.ListSafe d part first) ∧
      ((∀ c, DirReach vol c → vol.FindSafe d part c) → ∀ fuel junk lfnJunk dirPath st,
        ∀ ev ∈ (fatReaddirRun vol cb fuel junk lfnJunk dirPath st).events, EventOk d part ev)) ∧
    (∀ stack scan dir depth,
      (∀ first, vol.NestedSafe d part first → ∀ lfnJunk st fuel,
        ∀ ev ∈ (listDirRun vol (scanCb vol stack scan dir depth) fuel first lfnJunk st).events, EventOk d part ev) ∧
      ((∀ c, DirReach vol c → vol.FindSafe d part c ∧ vol.NestedSafe d part c) → ∀ fuel junk lfnJunk dirPath st,
        ∀ ev ∈ (fatReaddirRun vol (scanCb vol stack scan dir depth) fuel junk lfnJunk dirPath st).events,
          EventOk d part ev)) ∧
    ∀ s i len, (∀ ev ∈ (vol.fatReadTr s (some i) len).events, EventOk d part ev) ↔
      vol.ReadSafe d part (s.pool i) len := by
  refine ⟨FatVol.findInDir_safe_iff, fun σ cb hcb => ⟨listDir_safe_iff hcb, fun hsafe fuel junk lfnJunk => ?_⟩,
    fun stack scan dir depth => ⟨fun first hsafe lfnJunk st fuel => ?_, fun hsafe fuel junk lfnJunk => ?_⟩,
    FatVol.fatRead_safe_iff⟩
  · exact fatReaddirRun_safe hsafe (fun c hc st => (listDir_safe_iff hcb c lfnJunk st).mpr (hsafe c hc).list fuel) junk
  · exact listDir_nested_safe (scanCb_file_enum vol stack scan dir depth) hsafe lfnJunk st fuel
  · exact fatReaddirRun_safe (fun c hc => (hsafe c hc).1) (fun c hc st =>
      listDir_nested_safe (scanCb_file_enum vol stack scan dir depth) (hsafe c hc).2 lfnJunk st fuel) junk

/-- The root directory of the small volume. -/
theorem smallVol_safe : smallVol.FindSafe smallDisk 0 2 ∧
    ∀ target junk b fuel, ∀ ev ∈ (smallVol.findInDirRun fuel 2 target junk b).events, EventOk smallDisk 0 ev := by
  have hsafe : smallVol.FindSafe smallDisk 0 2 := by
    intro i hi
    have hnext : isCluster (smallVol.chainAt 2 1) = false := by decide
    obtain rfl : i = 0 := by
      by_contra hne
      have hcluster := hi.clusters 1 (by omega)
      rw [hnext] at hcluster
      cases hcluster
    have hlive : liveEntries (smallVol.clusterEntries (smallVol.chainAt 2 0)) =
        [lit "A          " ++ [0x20] ++ List.replicate 14 0 ++ le 2 3 ++ le 4 5] := by decide
    refine ⟨by decide, by decide, fun e he hbelow => ?_⟩
    rw [hlive, List.mem_singleton] at he
    rw [he] at hbelow
    exact absurd hbelow.1 (by decide)
  exact ⟨hsafe, ((driver_safe_iff smallVol_valid.init_eq).1 2).mpr hsafe⟩

/-- The small volume with a long-name entry of ordinal 0x40 in the root directory, behind which the FAT has the
bad-cluster mark. -/
def badDisk : Disk := .ofSectors
  [edgeBoot 8, le 4 0x0FFFFFF8 ++ le 4 0x0FFFFFFF ++ le 4 fat32Bad,
    [0x40, 97, 0] ++ List.replicate 8 0 ++ [0x0F] ++ List.replicate 20 0 ++ List.replicate 480 0xE5]

def badVol : FatVol := bootVol badDisk 8

/-- A lookup stores a character below the buffer and reads the cluster of the bad-cluster mark. -/
theorem findInDir_badVol : fatInit badDisk 0 = some badVol ∧
    (badVol.findInDirRun 2 badVol.rootCluster (lit "A") [] zeroBufs).events =
      [.readCluster 2 1, .storeLfn (-13), .readCluster fat32Bad 1] ∧
    ¬EventOk badDisk 0 (.storeLfn (-13)) ∧ ¬EventOk badDisk 0 (.readCluster fat32Bad 1) := by
  exact ⟨fatInit_edge rfl (by decide +kernel), by decide +kernel, fun h => absurd h.1 (by decide),
    fun h => absurd h.2.2.1 (by decide)⟩

end SakuruBoot.Fat

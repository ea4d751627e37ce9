import SakuruBoot.Bios.FatChain
import SakuruBoot.Lib.Traced

/-!
# The directory loops, round by round

`find_in_dir` and `fat_readdir` count the clusters they visit in 32 bits and give up when the count exceeds a limit. The
loops of `Fat` are bounded by the limit itself; here they run as in the source, with the counter, for as long as they
are given fuel, and report what they do to memory and disk on the way. With a limit below `2 ^ 32 - 1` the two agree
(`findInDirRun_val`, `listDirRun_val`); with the largest 32-bit number the comparison never holds.
-/

namespace SakuruBoot.Fat
open CStr Bytes

inductive FatEvent
  /-- `count` sectors at the address of `cluster` are read into a static buffer of 64 sectors. -/
  | readCluster (cluster count : Nat)
  /-- A character is stored to `lfn_buf[index]`. -/
  | storeLfn (index : Int)
  deriving DecidableEq

/-- The stores of `find_in_dir` for an entry: the characters up to the first NUL, below index 255. -/
def findStores (e : DirEntry) : List FatEvent :=
  if e.first ≠ 0 ∧ e.first ≠ 0xE5 ∧ e.isLfn then
    let ord : Int := (e.first % 64 : Nat) - 1
    (((List.range (str e.lfnChars).length).map fun k => ord * 13 + (k : Nat)).filter (· < 255)).map .storeLfn
  else []

/-- The stores of `fat_readdir` for an entry. -/
def listStores (e : DirEntry) : List FatEvent :=
  if e.first ≠ 0 ∧ e.first ≠ 0xE5 ∧ e.first ≠ 46 ∧ e.isLfn then
    let ord : Int := (e.first % 64 : Nat) - 1
    if ord < 0 ∨ 20 ≤ ord then []
    else (((List.range 13).map fun k => ord * 13 + (k : Nat)).filter (· < 255)).map .storeLfn
  else []

/-! ## Along a cluster chain -/

/-- What a loop does behind a cluster: it returns, or goes on with the next cluster. -/
inductive Round (ρ σ : Type)
  | done (r : ρ)
  | more (next : Nat) (st : σ)

section loop

variable {ρ σ : Type} (vol : FatVol) (body : Nat → σ → Traced FatEvent (Round ρ σ)) (giveUp : σ → ρ)

/-- The cluster loop that `find_in_dir` and `fat_readdir` have in common: a cluster is read if the count of visited
clusters does not exceed the limit. `none` when the loop still runs. -/
def clusterLoop : Nat → Nat → Nat → σ → Traced FatEvent (Option ρ)
  | 0, _, _, _ => pure none
  | fuel + 1, visited, cluster, st =>
    if isCluster cluster then
      let visited := u32 (visited + 1)
      if vol.clusterLimit < visited then pure (some (giveUp st))
      else do
        Traced.emit (.readCluster cluster vol.spc)
        let r ← body cluster st
        match r with
        | .done r => pure (some r)
        | .more next st => clusterLoop fuel visited next st
    else pure (some (giveUp st))

theorem clusterLoop_succ_val (fuel visited cluster : Nat) (st : σ) :
    (clusterLoop vol body giveUp (fuel + 1) visited cluster st).val =
      if isCluster cluster then
        if vol.clusterLimit < u32 (visited + 1) then some (giveUp st)
        else
          match (body cluster st).val with
          | .done r => some r
          | .more next st => (clusterLoop vol body giveUp fuel (u32 (visited + 1)) next st).val
      else some (giveUp st) := by
  rw [clusterLoop]
  split
  · dsimp only
    split
    · rfl
    · simp only [Traced.val_bind]
      cases (body cluster st).val <;> rfl
  · rfl

variable {vol body giveUp}

/-- A limit that the counter can exceed bounds the loop: `f n` is the loop for `n` more clusters. -/
theorem clusterLoop_val (hlimit : vol.clusterLimit < 2 ^ 32 - 1) {f : Nat → Nat → σ → ρ}
    (hzero : ∀ cluster st, f 0 cluster st = giveUp st)
    (hsucc : ∀ n cluster st, f (n + 1) cluster st =
      if isCluster cluster then
        match (body cluster st).val with
        | .done r => r
        | .more next st => f n next st
      else giveUp st)
    (n : Nat) {visited fuel : Nat} (hvisited : visited + n = vol.clusterLimit) (hfuel : n < fuel) (cluster : Nat)
    (st : σ) : (clusterLoop vol body giveUp fuel visited cluster st).val = some (f n cluster st) := by
  induction n generalizing visited fuel cluster st with
  | zero =>
    obtain ⟨fuel, rfl⟩ : ∃ k, fuel = k + 1 := ⟨fuel - 1, by omega⟩
    have hstep : u32 (visited + 1) = visited + 1 := Nat.mod_eq_of_lt (by omega)
    rw [clusterLoop_succ_val, hzero, hstep, if_pos (show vol.clusterLimit < visited + 1 by omega), ite_self]
  | succ n ih =>
    obtain ⟨fuel, rfl⟩ : ∃ k, fuel = k + 1 := ⟨fuel - 1, by omega⟩
    have hstep : u32 (visited + 1) = visited + 1 := Nat.mod_eq_of_lt (by omega)
    rw [clusterLoop_succ_val, hsucc, hstep, if_neg (show ¬vol.clusterLimit < visited + 1 by omega)]
    split
    · cases (body cluster st).val with
      | done r => rfl
      | more next st => exact ih (by omega) (by omega) _ _
    · rfl

theorem clusterLoop_mono {fuel more : Nat} (hle : fuel ≤ more) {visited cluster : Nat} {st : σ} {r : ρ}
    (h : (clusterLoop vol body giveUp fuel visited cluster st).val = some r) :
    (clusterLoop vol body giveUp more visited cluster st).val = some r := by
  induction fuel generalizing more visited cluster st with
  | zero => cases h
  | succ fuel ih =>
    obtain ⟨more, rfl⟩ : ∃ k, more = k + 1 := ⟨more - 1, by omega⟩
    rw [clusterLoop_succ_val] at h ⊢
    split_ifs at h ⊢
    · exact h
    · cases hround : (body cluster st).val with
      | done r => rwa [hround] at h
      | more next st =>
        rw [hround] at h
        exact ih (by omega) h
    · exact h

end loop

/-! ## Lookup -/

def findEntriesTr (target : List Byte) : List DirEntry → LfnState → Traced FatEvent Lookup
  | [], s => pure (.more s)
  | e :: es, s => do
    Traced.emitAll (findStores e)
    match findStep target s e with
    | .done r => pure (.done r)
    | .more s => findEntriesTr target es s

theorem findEntriesTr_val (target : List Byte) (es : List DirEntry) (s : LfnState) :
    (findEntriesTr target es s).val = findEntries target es s := by
  induction es generalizing s with
  | nil => rfl
  | cons e es ih =>
    rw [findEntriesTr, findEntries, Traced.val_bind]
    cases findStep target s e with
    | done r => rfl
    | more s => exact ih s

namespace FatVol

variable (vol : FatVol)

/-- A round of `find_in_dir`: the entries of the cluster, and the next cluster. -/
def findRound (target : List Byte) (cluster : Nat) (st : LfnState × Bufs) :
    Traced FatEvent (Round (Option DirEntry × Bufs) (LfnState × Bufs)) := do
  let b := { st.2 with dir := patch st.2.dir 0 (vol.clusterData cluster) }
  let r ← findEntriesTr target ((List.range (vol.spc * 512 / 32)).map (entryAt b.dir)) st.1
  match r with
  | .done r => return .done (r, b)
  | .more s =>
    let next := vol.nextCluster cluster b
    return .more next.1 (s, next.2)

def findInDirRun (fuel dirCluster : Nat) (target junk : List Byte) (b : Bufs) :
    Traced FatEvent (Option (Option DirEntry × Bufs)) :=
  clusterLoop vol (vol.findRound target) (fun st => (none, st.2)) fuel 0 dirCluster ({ buf := junk, len := false }, b)

/-- The walk of `fat_open`. -/
def walkRun (fuel : Nat) (junk : Nat → List Byte) :
    Nat → Nat → List Byte → Bufs → Traced FatEvent (Option (Option DirEntry × Bufs))
  | 0, _, _, b => pure (some (none, b))
  | n + 1, cluster, p, b =>
    if deref p == 0 then pure (some (none, b))
    else do
      let q := nextComponent p
      let r ← vol.findInDirRun fuel cluster q.1 (junk n) b
      match r with
      | none => pure none
      | some (none, b) => pure (some (none, b))
      | some (some e, b) =>
        if deref q.2 == 0 then pure (some (some e, b))
        else if e.isDir then walkRun fuel junk n e.firstCluster q.2 b
        else pure (some (none, b))

end FatVol

/-- The end of `fat_open`: a handle for the entry that was found. -/
def openFound (s : FatState) : Option DirEntry × Bufs → Option FatHandle × FatState
  | (none, b) => (none, { s with bufs := b })
  | (some e, b) =>
    match (List.finRange maxOpenFiles).find? fun i => !s.used i with
    | none => (none, { s with bufs := b })
    | some i =>
      (some i, { pool := Function.update s.pool i (freshFile e), used := Function.update s.used i true, bufs := b })

namespace FatVol

variable (vol : FatVol)

def fatOpenRun (fuel : Nat) (s : FatState) (junk : Nat → List Byte) (path : List Byte) :
    Traced FatEvent (Option (Option FatHandle × FatState)) := do
  let p := if deref path == 47 then path.tail else path
  let r ← vol.walkRun fuel junk p.length vol.rootCluster p s.bufs
  return r.map (openFound s)

end FatVol

/-! ## Listing -/

section listing

variable {σ : Type} (vol : FatVol) (cb : List Byte → Bool → Bufs × σ → Bufs × σ)

def listEntriesTr : List Nat → LfnState → Bufs × σ → Traced FatEvent (Option LfnState × Bufs × σ)
  | [], s, st => pure (some s, st)
  | i :: is, s, st => do
    let e := entryAt st.1.enum i
    Traced.emitAll (listStores e)
    match listStep s e with
    | .stop => pure (none, st)
    | .skip s => listEntriesTr is s st
    | .entry name s => listEntriesTr is s (cb name e.isDir st)

/-- A round of `fat_readdir`. -/
def listRound (cluster : Nat) (st : LfnState × Bufs × σ) : Traced FatEvent (Round (Bufs × σ) (LfnState × Bufs × σ)) := do
  let b := { st.2.1 with enum := patch st.2.1.enum 0 (vol.clusterData cluster) }
  let r ← listEntriesTr cb (List.range (vol.spc * 512 / 32)) st.1 (b, st.2.2)
  match r with
  | (none, st) => return .done st
  | (some s, st) =>
    let next := vol.nextCluster cluster st.1
    return .more next.1 (s, next.2, st.2)

/-- The part of `fat_readdir` behind the walk. -/
def listDirRun (fuel cluster : Nat) (lfnJunk : List Byte) (st : Bufs × σ) : Traced FatEvent (Option (Bufs × σ)) :=
  clusterLoop vol (listRound vol cb) Prod.snd fuel 0 cluster ({ buf := lfnJunk, len := false }, st)

/-- The walk of `fat_readdir`. -/
def walkDirRun (fuel : Nat) (junk : Nat → List Byte) :
    Nat → Nat → List Byte → Bufs → Traced FatEvent (Option (Option Nat × Bufs))
  | 0, cluster, _, b => pure (some (some cluster, b))
  | n + 1, cluster, p, b =>
    if deref p == 0 then pure (some (some cluster, b))
    else do
      let q := FatVol.nextComponent p
      if q.1.isEmpty then walkDirRun fuel junk n cluster q.2 b
      else
        let r ← vol.findInDirRun fuel cluster q.1 (junk n) b
        match r with
        | none => pure none
        | some (none, b) => pure (some (none, b))
        | some (some e, b) => if e.isDir then walkDirRun fuel junk n e.firstCluster q.2 b else pure (some (none, b))

def fatReaddirRun (fuel : Nat) (junk : Nat → List Byte) (lfnJunk dirPath : List Byte) (st : Bufs × σ) :
    Traced FatEvent (Option (Bool × Bufs × σ)) := do
  let p := if deref dirPath == 47 then dirPath.tail else dirPath
  let r ← walkDirRun vol fuel junk p.length vol.rootCluster p st.1
  match r with
  | none => pure none
  | some (none, b) => pure (some (false, b, st.2))
  | some (some cluster, b) =>
    let r ← listDirRun vol cb fuel cluster lfnJunk (b, st.2)
    return r.map fun st => (true, st)

end listing

/-! ## With a limit that the counter can exceed -/

section values

variable {vol : FatVol}

theorem FatVol.findInDirRun_val (hlimit : vol.clusterLimit < 2 ^ 32 - 1) {fuel : Nat} (hfuel : vol.clusterLimit < fuel)
    (dirCluster : Nat) (target junk : List Byte) (b : Bufs) :
    (vol.findInDirRun fuel dirCluster target junk b).val = some (vol.findInDir dirCluster target junk b) := by
  refine clusterLoop_val (f := fun n cluster (st : LfnState × Bufs) => vol.findClusters target n cluster st.1 st.2) hlimit
    (fun _ _ => rfl) (fun n cluster st => ?_) _ (Nat.zero_add _) hfuel _ _
  rw [FatVol.findClusters]
  split
  · simp only [FatVol.findRound, Traced.val_bind, findEntriesTr_val]
    generalize findEntries target _ st.1 = r
    cases r <;> rfl
  · rfl

theorem FatVol.walkRun_val (hlimit : vol.clusterLimit < 2 ^ 32 - 1) {fuel : Nat} (hfuel : vol.clusterLimit < fuel)
    (junk : Nat → List Byte) (n cluster : Nat) (p : List Byte) (b : Bufs) :
    (vol.walkRun fuel junk n cluster p b).val = some (vol.walk junk n cluster p b) := by
  induction n generalizing cluster p b with
  | zero => rfl
  | succ n ih =>
    rw [FatVol.walkRun, FatVol.walk]
    split
    · rfl
    · simp only [Traced.val_bind, vol.findInDirRun_val hlimit hfuel]
      rcases vol.findInDir cluster (FatVol.nextComponent p).1 (junk n) b with ⟨_ | e, b⟩
      · rfl
      · dsimp only
        split
        · rfl
        · split
          · exact ih _ _ _
          · rfl

theorem FatVol.fatOpen_eq (s : FatState) (junk : Nat → List Byte) (path : List Byte) :
    vol.fatOpen s junk path = openFound s (vol.lookupPath junk path s.bufs) := by
  rw [FatVol.fatOpen]
  rcases vol.lookupPath junk path s.bufs with ⟨_ | e, b⟩ <;> rfl

theorem FatVol.fatOpenRun_val (hlimit : vol.clusterLimit < 2 ^ 32 - 1) {fuel : Nat} (hfuel : vol.clusterLimit < fuel)
    (s : FatState) (junk : Nat → List Byte) (path : List Byte) :
    (vol.fatOpenRun fuel s junk path).val = some (vol.fatOpen s junk path) := by
  rw [FatVol.fatOpenRun, Traced.val_bind, vol.walkRun_val hlimit hfuel, fatOpen_eq]
  rfl

variable {σ : Type} {cb : List Byte → Bool → Bufs × σ → Bufs × σ}

theorem listEntriesTr_val (is : List Nat) (s : LfnState) (st : Bufs × σ) :
    (listEntriesTr cb is s st).val = listEntries cb is s st := by
  induction is generalizing s st with
  | nil => rfl
  | cons i is ih =>
    rw [listEntriesTr, listEntries, Traced.val_bind]
    cases listStep s (entryAt st.1.enum i) with
    | stop => rfl
    | skip s => exact ih _ _
    | entry name s => exact ih _ _

theorem listDirRun_val (hlimit : vol.clusterLimit < 2 ^ 32 - 1) {fuel : Nat} (hfuel : vol.clusterLimit < fuel)
    (cluster : Nat) (lfnJunk : List Byte) (st : Bufs × σ) :
    (listDirRun vol cb fuel cluster lfnJunk st).val =
      some (listClusters vol cb vol.clusterLimit cluster { buf := lfnJunk, len := false } st) := by
  refine clusterLoop_val (f := fun n cluster (st : LfnState × Bufs × σ) => listClusters vol cb n cluster st.1 st.2) hlimit
    (fun _ _ => rfl) (fun n cluster st => ?_) _ (Nat.zero_add _) hfuel _ _
  rw [listClusters]
  split
  · simp only [listRound, Traced.val_bind, listEntriesTr_val]
    generalize listEntries cb _ st.1 _ = r
    rcases r with ⟨_ | s, st⟩ <;> rfl
  · rfl

theorem walkDirRun_val (hlimit : vol.clusterLimit < 2 ^ 32 - 1) {fuel : Nat} (hfuel : vol.clusterLimit < fuel)
    (junk : Nat → List Byte) (n cluster : Nat) (p : List Byte) (b : Bufs) :
    (walkDirRun vol fuel junk n cluster p b).val = some (walkDir vol junk n cluster p b) := by
  induction n generalizing cluster p b with
  | zero => rfl
  | succ n ih =>
    rw [walkDirRun, walkDir]
    split
    · rfl
    · dsimp only
      split
      · exact ih _ _ _
      · simp only [Traced.val_bind, vol.findInDirRun_val hlimit hfuel]
        rcases vol.findInDir cluster (FatVol.nextComponent p).1 (junk n) b with ⟨_ | e, b⟩
        · rfl
        · dsimp only
          split
          · exact ih _ _ _
          · rfl

theorem fatReaddirRun_val (hlimit : vol.clusterLimit < 2 ^ 32 - 1) {fuel : Nat} (hfuel : vol.clusterLimit < fuel)
    (junk : Nat → List Byte) (lfnJunk dirPath : List Byte) (st : Bufs × σ) :
    (fatReaddirRun vol cb fuel junk lfnJunk dirPath st).val = some (fatReaddir vol cb junk lfnJunk dirPath st) := by
  simp only [fatReaddirRun, fatReaddir, Traced.val_bind, walkDirRun_val hlimit hfuel]
  generalize walkDir vol junk _ vol.rootCluster _ st.1 = r
  rcases r with ⟨_ | cluster, b⟩
  · rfl
  · simp only [Traced.val_bind, listDirRun_val hlimit hfuel]
    rfl

end values

end SakuruBoot.Fat

import SakuruBoot.Os.ElfLoad

/-!
# Malformed ELF images

A header that `elf64_valid` accepts may put its program headers or a segment's bytes anywhere. `InBounds` are the checks
the loader does not make. Where they fail, the loader should return 0 and write nothing; it does so only when the walk
over the headers comes to nothing by itself (`Idle`).
-/

namespace SakuruBoot
open CStr Memory

variable {buf : ElfBuf} {m : Machine} {mem : Nat → Byte} {arch : Arch}

/-- The program header table and the bytes of the loadable segments lie in the buffer, and those bytes fit the
segments. Nothing here wraps around. An entry is `e_phentsize` bytes, and no fewer than a program header has. -/
structure InBounds (buf : ElfBuf) (mem : Nat → Byte) : Prop where
  table : ∀ i < buf.phnum mem, buf.phoff mem + i * buf.phentsize mem + max 56 (buf.phentsize mem) ≤ buf.size
  file : ∀ i < buf.phnum mem, (buf.phdr mem i).type = 1 →
    (buf.phdr mem i).filesz = 0 ∨ (buf.phdr mem i).offset + (buf.phdr mem i).filesz ≤ buf.size
  fits : ∀ i < buf.phnum mem, (buf.phdr mem i).type = 1 → (buf.phdr mem i).filesz ≤ (buf.phdr mem i).memsz

/-- A header the walk reads in the buffer and has nothing to do for. -/
structure QuietHeader (buf : ElfBuf) (mem : Nat → Byte) (i : Nat) : Prop where
  type : ∀ a, InRange (buf.phAddr mem i) 4 a → buf.Contains a
  memsz : (buf.phdr mem i).type = 1 → ∀ a, InRange (buf.phAddr mem i + 40) 8 a → buf.Contains a
  skipped : ¬(buf.phdr mem i).loads

/-- There is nothing to load, and the entry point is 0. -/
structure Idle (buf : ElfBuf) (mem : Nat → Byte) : Prop where
  entry : buf.entry mem = 0
  quiet : ∀ i < buf.phnum mem, QuietHeader buf mem i

/-- The loader reads the buffer only and writes the segments only, and rejects what is not in bounds. -/
structure Safe (arch : Arch) (buf : ElfBuf) (mem : Nat → Byte) : Prop where
  reads : ∀ a ∈ (elf64Load arch buf ⟨mem, [], []⟩).2.reads, buf.Contains a
  writes : ∀ a ∈ (elf64Load arch buf ⟨mem, [], []⟩).2.writes,
    ∃ i < buf.phnum mem, (buf.phdr mem i).type = 1 ∧ (buf.phdr mem i).Target a
  rejects : ¬InBounds buf mem → (elf64Load arch buf ⟨mem, [], []⟩).1 = 0 ∧
    (elf64Load arch buf ⟨mem, [], []⟩).2.writes = [] ∧ (elf64Load arch buf ⟨mem, [], []⟩).2.mem = mem

/-! ## Images in bounds -/

theorem InBounds.followed (hb : InBounds buf mem) (hk : KeepsHeaders buf mem) : buf.Followed mem where
  table := fun i hi => le_trans (by omega) (hb.table i hi)
  sound := fun i hi ht => ⟨hb.file i hi ht, hb.fits i hi ht⟩
  keeps := hk

theorem safe_of_inBounds (hv : buf.valid mem arch = true) (hb : InBounds buf mem) (hk : KeepsHeaders buf mem) :
    Safe arch buf mem := by
  obtain ⟨-, hw⟩ := elf64Load_spec hv (hb.followed hk)
  refine ⟨hw.reads, fun a ha => ?_, fun hnot => absurd hb hnot⟩
  obtain ⟨i, hi, hload, htarget⟩ := hw.writes a ha
  exact ⟨i, hi, hload.1, htarget⟩

theorem safe_of_not_valid (hv : buf.valid mem arch = false) : Safe arch buf mem := by
  obtain ⟨hval, hmem, hwrites, hreads⟩ := elf64Valid_spec arch buf ⟨mem, [], []⟩
  have hload : elf64Load arch buf ⟨mem, [], []⟩ = (0, (elf64Valid arch buf ⟨mem, [], []⟩).2) := by
    rw [elf64Load_eq, hval, hv]
    rfl
  constructor
  · rw [hload]
    exact fun a ha => (hreads a ha).resolve_left List.not_mem_nil
  · rw [hload, hwrites]
    exact fun a ha => absurd ha List.not_mem_nil
  · rw [hload]
    exact fun _ => ⟨rfl, hwrites, hmem⟩

/-! ## Walks that come to nothing -/

theorem later_elfStep (i : Nat) : Later m (elfStep buf i m) := by
  have hcopy : ∀ (m : Machine) ph dest, Later m (copyFile buf ph dest m) := by
    intro m ph dest
    rw [copyFile_eq]
    split
    · exact ((later_seen ..).trans (later_seen ..)).trans (later_copy ..)
    · exact later_seen ..
  have hzero : ∀ (m : Machine) ph dest, Later m (zeroBss ph dest m) := by
    intro m ph dest
    rw [zeroBss_eq]
    split
    · exact ((later_seen ..).trans (later_seen ..)).trans (later_fill ..)
    · exact (later_seen ..).trans (later_seen ..)
  have hheader : Later m (buf.readHeader i m) := ((later_seen ..).trans (later_seen ..)).trans (later_seen ..)
  rw [elfStep_eq]
  split
  · exact hheader
  · split
    · exact hheader.trans (later_seen ..)
    · exact (((hheader.trans (later_seen ..)).trans (later_seen ..)).trans (hcopy ..)).trans (hzero ..)

theorem later_elfLoop (n i : Nat) : Later m (elfLoop buf n i m) := by
  induction n generalizing i m with
  | zero => exact Later.refl m
  | succ n ih =>
    rw [elfLoop_succ]
    split
    · exact ((later_seen ..).trans (later_elfStep i)).trans (ih (i + 1))
    · exact later_seen ..

theorem load_writes_ne_nil {ph dest : Nat} (h : word m.mem (ph + 40) 8 ≠ 0) :
    (zeroBss ph dest (copyFile buf ph dest m)).writes ≠ [] := by
  apply List.ne_nil_of_mem
  rw [mem_zeroBss_writes, mem_copyFile_writes]
  by_cases hz : word m.mem (ph + 32) 8 = 0
  · have hmem : (copyFile buf ph dest m).mem = m.mem := by
      rw [copyFile_eq, if_neg (not_not.mpr hz)]
      rfl
    rw [hmem, hz]
    exact .inr ⟨0, Nat.pos_of_ne_zero h, rfl⟩
  · exact .inl (.inr ⟨0, Nat.pos_of_ne_zero hz, rfl⟩)

theorem elfStep_writes_ne_nil {i : Nat} (h : (buf.phdr m.mem i).loads) : (elfStep buf i m).writes ≠ [] := by
  rw [elfStep_eq, if_neg (not_not.mpr h.1), if_neg h.2]
  exact load_writes_ne_nil h.2

theorem elfStep_skipped {i : Nat} (h : ¬(buf.phdr m.mem i).loads) : elfStep buf i m =
    if (buf.phdr m.mem i).type = 1 then (buf.readHeader i m).seen (buf.phAddr m.mem i + 40) 8
    else buf.readHeader i m := by
  rw [elfStep_eq]
  by_cases ht : (buf.phdr m.mem i).type = 1
  · have hz : (buf.phdr m.mem i).memsz = 0 := by
      by_contra hne
      exact h ⟨ht, hne⟩
    rw [if_neg (not_not.mpr ht), if_pos hz, if_pos ht]
  · rw [if_pos ht, if_neg ht]

theorem elfStep_skipped_mem {i : Nat} (h : ¬(buf.phdr m.mem i).loads) :
    (elfStep buf i m).mem = m.mem ∧ (elfStep buf i m).writes = m.writes := by
  rw [elfStep_skipped h]
  split
  · exact ⟨rfl, rfl⟩
  · exact ⟨rfl, rfl⟩

theorem readsIn_seen_iff {ad n : Nat} :
    ReadsIn buf (m.seen ad n) ↔ ReadsIn buf m ∧ ∀ a, InRange ad n a → buf.Contains a := by
  constructor
  · exact fun h => ⟨fun a ha => h a (mem_seen_reads.mpr (.inl ha)), fun a ha => h a (mem_seen_reads.mpr (.inr ha))⟩
  · rintro ⟨hold, hnew⟩ a ha
    exact (mem_seen_reads.mp ha).elim (hold a) (hnew a)

theorem ElfBuf.readsIn_readHeader_iff (hsize : 64 ≤ buf.size) {i : Nat} :
    ReadsIn buf (buf.readHeader i m) ↔ ReadsIn buf m ∧ ∀ a, InRange (buf.phAddr m.mem i) 4 a → buf.Contains a := by
  have hfields : ReadsIn buf ((m.seen (buf.base + 32) 8).seen (buf.base + 54) 2) ↔ ReadsIn buf m := by
    rw [readsIn_seen_iff, readsIn_seen_iff]
    refine ⟨fun h => h.1.1, fun h => ⟨⟨h, fun a ha => ?_⟩, fun a ha => ?_⟩⟩
    · exact ElfBuf.contains_of_inRange (by omega) ha
    · exact ElfBuf.contains_of_inRange (by omega) ha
  rw [ElfBuf.readHeader, readsIn_seen_iff, hfields]

/-- A step that writes nothing and reads the buffer only is one for a quiet header. -/
theorem elfStep_quiet_iff (hsize : 64 ≤ buf.size) (hm : ReadsIn buf m) (hw : m.writes = []) {i : Nat} :
    (elfStep buf i m).writes = [] ∧ ReadsIn buf (elfStep buf i m) ↔ QuietHeader buf m.mem i := by
  by_cases hload : (buf.phdr m.mem i).loads
  · exact ⟨fun h => absurd h.1 (elfStep_writes_ne_nil hload), fun h => absurd hload h.skipped⟩
  · rw [(elfStep_skipped_mem hload).2, elfStep_skipped hload]
    split
    · rw [readsIn_seen_iff, ElfBuf.readsIn_readHeader_iff hsize]
      exact ⟨fun ⟨_, ⟨_, ht⟩, hz⟩ => ⟨ht, fun _ => hz, hload⟩, fun h => ⟨hw, ⟨hm, h.type⟩, h.memsz ‹_›⟩⟩
    · rw [ElfBuf.readsIn_readHeader_iff hsize]
      exact ⟨fun ⟨_, _, ht⟩ => ⟨ht, fun h => absurd h ‹_›, hload⟩, fun h => ⟨hw, hm, h.type⟩⟩

theorem elfLoop_quiet (hsize : 64 ≤ buf.size) {n k : Nat} (hm : ReadsIn buf m) (hw : m.writes = [])
    (hq : ∀ i, k ≤ i → i < buf.phnum m.mem → QuietHeader buf m.mem i) :
    (elfLoop buf n k m).writes = [] ∧ ReadsIn buf (elfLoop buf n k m) ∧ (elfLoop buf n k m).mem = m.mem := by
  induction n generalizing k m with
  | zero => exact ⟨hw, hm, rfl⟩
  | succ n ih =>
    have hm' : ReadsIn buf (m.seen (buf.base + 56) 2) := hm.seen ⟨56, rfl, by omega⟩
    rw [elfLoop_succ]
    split
    · have hquiet := hq k le_rfl ‹_›
      obtain ⟨hw', hr'⟩ := (elfStep_quiet_iff (m := m.seen (buf.base + 56) 2) hsize hm' hw).mpr hquiet
      have hmem := (elfStep_skipped_mem (m := m.seen (buf.base + 56) 2) hquiet.skipped).1
      rw [seen_mem] at hmem
      rw [← hmem]
      exact ih hr' hw' (by rw [hmem]; exact fun i hk hi => hq i (by omega) hi)
    · exact ⟨hw, hm', rfl⟩

/-- Nothing written and nothing read outside: every header was quiet. -/
theorem quiet_of_elfLoop (hsize : 64 ≤ buf.size) {n k : Nat} (hn : buf.phnum m.mem < k + n) (hm : ReadsIn buf m)
    (hw : m.writes = []) (hw' : (elfLoop buf n k m).writes = []) (hr' : ReadsIn buf (elfLoop buf n k m)) :
    ∀ i, k ≤ i → i < buf.phnum m.mem → QuietHeader buf m.mem i := by
  induction n generalizing k m with
  | zero =>
    intro i hk hi
    omega
  | succ n ih =>
    have hm' : ReadsIn buf (m.seen (buf.base + 56) 2) := hm.seen ⟨56, rfl, by omega⟩
    intro i hk hi
    rw [elfLoop_succ, if_pos (by omega)] at hw' hr'
    have hlater : Later (elfStep buf k (m.seen (buf.base + 56) 2))
        (elfLoop buf n (k + 1) (elfStep buf k (m.seen (buf.base + 56) 2))) := later_elfLoop n (k + 1)
    have hnone : (elfStep buf k (m.seen (buf.base + 56) 2)).writes = [] :=
      List.eq_nil_iff_forall_not_mem.mpr fun a ha => List.not_mem_nil (hw' ▸ hlater.writes a ha)
    have hreads : ReadsIn buf (elfStep buf k (m.seen (buf.base + 56) 2)) := fun a ha => hr' a (hlater.reads a ha)
    have hquiet : QuietHeader buf m.mem k :=
      (elfStep_quiet_iff (m := m.seen (buf.base + 56) 2) hsize hm' hw).mp ⟨hnone, hreads⟩
    have hmem := (elfStep_skipped_mem (m := m.seen (buf.base + 56) 2) hquiet.skipped).1
    rw [seen_mem] at hmem
    rcases Nat.eq_or_lt_of_le hk with rfl | hlt
    · exact hquiet
    · rw [← hmem] at hi hn ⊢
      exact ih (by omega) hreads hnone hw' hr' i hlt hi

theorem elf64Load_valid (hv : buf.valid mem arch = true) : ∃ m : Machine, m.mem = mem ∧ ReadsIn buf m ∧ m.writes = [] ∧
    elf64Load arch buf ⟨mem, [], []⟩ = (elfLoop buf 65536 0 m).rd (buf.base + 24) 8 := by
  obtain ⟨hval, hmem, hwrites, hreads⟩ := elf64Valid_spec arch buf ⟨mem, [], []⟩
  refine ⟨(elf64Valid arch buf ⟨mem, [], []⟩).2, hmem, fun a ha => (hreads a ha).resolve_left List.not_mem_nil, hwrites, ?_⟩
  rw [elf64Load_eq, hval, if_pos hv]

theorem safe_of_idle (hv : buf.valid mem arch = true) (hi : Idle buf mem) : Safe arch buf mem := by
  have hsize := ElfBuf.size_of_valid hv
  obtain ⟨m, rfl, hreads, hwrites, hload⟩ := elf64Load_valid hv
  obtain ⟨hw, hr, hmem⟩ := elfLoop_quiet (n := 65536) (k := 0) hsize hreads hwrites fun i _ hlt => hi.quiet i hlt
  constructor
  · rw [hload]
    exact hr.seen ⟨24, rfl, by omega⟩
  · rw [hload]
    intro a ha
    exact absurd (hw ▸ ha : a ∈ []) List.not_mem_nil
  · rw [hload]
    refine fun _ => ⟨?_, hw, hmem⟩
    show word (elfLoop buf 65536 0 m).mem (buf.base + 24) 8 = 0
    rw [hmem]
    exact hi.entry

theorem idle_of_safe (hv : buf.valid mem arch = true) (hb : ¬InBounds buf mem) (hs : Safe arch buf mem) :
    Idle buf mem := by
  have hsize := ElfBuf.size_of_valid hv
  obtain ⟨hreads', -, hrejects⟩ := hs
  obtain ⟨m, rfl, hreads, hwrites, hload⟩ := elf64Load_valid hv
  obtain ⟨hret, hw, hmem⟩ := hrejects hb
  rw [hload] at hret hw hmem hreads'
  have hloop : ReadsIn buf (elfLoop buf 65536 0 m) := (readsIn_seen_iff.mp hreads').1
  refine ⟨?_, fun i hi => ?_⟩
  · have hmem' : (elfLoop buf 65536 0 m).mem = m.mem := hmem
    have hret' : word (elfLoop buf 65536 0 m).mem (buf.base + 24) 8 = 0 := hret
    rw [ElfBuf.entry, ← hmem']
    exact hret'
  · exact quiet_of_elfLoop (n := 65536) (k := 0) hsize (by have := buf.phnum_lt m.mem; omega) hreads hwrites hw hloop i
      (Nat.zero_le i) hi

/-- Every image the loader handles safely is rejected, in bounds or idle; and those that are handled safely are at least
all of them that do not overwrite header bytes before these are read. -/
theorem elf64Load_safe (arch : Arch) (buf : ElfBuf) (mem : Nat → Byte) :
    (buf.valid mem arch = false ∨ (InBounds buf mem ∧ KeepsHeaders buf mem) ∨ Idle buf mem → Safe arch buf mem) ∧
      (Safe arch buf mem → buf.valid mem arch = false ∨ InBounds buf mem ∨ Idle buf mem) := by
  cases hv : buf.valid mem arch with
  | false => exact ⟨fun _ => safe_of_not_valid hv, fun _ => .inl rfl⟩
  | true =>
    constructor
    · rintro (h | ⟨hb, hk⟩ | hi)
      · cases h
      · exact safe_of_inBounds hv hb hk
      · exact safe_of_idle hv hi
    · intro hs
      by_cases hb : InBounds buf mem
      · exact .inr (.inl hb)
      · exact .inr (.inr (idle_of_safe hv hb hs))

/-- One segment, whose only byte is the one behind the end of the file. -/
def strayImage : List Byte := elfImage 5 [⟨1, 120, 0x3000, 1, 1⟩]

theorem strayImage_not_safe : strayImage.length = 120 ∧ ¬InBounds (bufOf 120) (memOf strayImage) ∧
    ¬Safe .x86_64 (bufOf 120) (memOf strayImage) := by
  have hout : ¬InBounds (bufOf 120) (memOf strayImage) := by
    intro hb
    have hfile := hb.file 0 (by decide) (by decide)
    revert hfile
    decide
  refine ⟨by decide, hout, fun hs => ?_⟩
  have hentry := (idle_of_safe (by decide) hout hs).entry
  revert hentry
  decide

end SakuruBoot

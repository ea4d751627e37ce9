import SakuruBoot.Os.Elf

/-!
# What the ELF64 loader reads and writes

`elf64_load` checks the ELF header and nothing else: not where the program headers are, not where a segment's bytes are
in the file, not that the file part of a segment fits its memory part. For an image that would pass those checks and
does not overwrite its own headers, one iteration copies the segment and clears the rest of it (`elfStep_spec`), and the
loop does that for each header (`elfLoop_spec`).
-/

namespace SakuruBoot
open CStr Memory

variable {buf : ElfBuf} {m : Machine} {mem mem' : Nat → Byte}

/-! ## The buffer -/

theorem ElfBuf.contains_of_inRange {off n a : Nat} (h : off + n ≤ buf.size) (ha : InRange (buf.base + off) n a) :
    buf.Contains a := by
  have hfits := buf.fits
  rw [inRange_iff (by omega)] at ha
  exact ⟨by omega, by omega⟩

/-- The memories agree on the bytes to be kept. -/
def SameOn (keep : Nat → Prop) (mem mem' : Nat → Byte) : Prop := ∀ a, keep a → mem a = mem' a

variable {keep : Nat → Prop}

theorem SameOn.word_eq (h : SameOn keep mem mem') {start len : Nat} (hk : ∀ a, InRange start len a → keep a)
    (off n : Nat) (hn : off + n ≤ len) : word mem (start + off) n = word mem' (start + off) n :=
  word_congr fun a ha => h a (hk a (ha.within hn))

/-! ## The header checks -/

theorem runChecks_cons (off n : Nat) (ok : Nat → Bool) (checks : List (Nat × Nat × (Nat → Bool))) (m : Machine) :
    runChecks buf ((off, n, ok) :: checks) m =
      if ok (word m.mem (buf.base + off) n) then runChecks buf checks (m.seen (buf.base + off) n)
      else (false, m.seen (buf.base + off) n) := rfl

theorem runChecks_spec (checks : List (Nat × Nat × (Nat → Bool))) (hin : ∀ c ∈ checks, c.1 + c.2.1 ≤ buf.size)
    (m : Machine) :
    (runChecks buf checks m).1 = checks.all (fun c => c.2.2 (word m.mem (buf.base + c.1) c.2.1)) ∧
      (runChecks buf checks m).2.mem = m.mem ∧ (runChecks buf checks m).2.writes = m.writes ∧
      ∀ a ∈ (runChecks buf checks m).2.reads, a ∈ m.reads ∨ buf.Contains a := by
  induction checks generalizing m with
  | nil => exact ⟨rfl, rfl, rfl, fun a ha => .inl ha⟩
  | cons c checks ih =>
    obtain ⟨off, n, ok⟩ := c
    have hread : ∀ a ∈ (m.seen (buf.base + off) n).reads, a ∈ m.reads ∨ buf.Contains a := by
      intro a ha
      rcases mem_seen_reads.mp ha with h | h
      · exact .inl h
      · exact .inr (ElfBuf.contains_of_inRange (hin (off, n, ok) (by simp)) h)
    rw [List.all_cons, runChecks_cons]
    by_cases hok : ok (word m.mem (buf.base + off) n) = true
    · obtain ⟨hval, hmem, hwrites, hreads⟩ := ih (fun c hc => hin c (by simp [hc])) (m.seen (buf.base + off) n)
      rw [if_pos hok]
      dsimp only
      rw [hok, Bool.true_and]
      refine ⟨hval, hmem, hwrites, fun a ha => ?_⟩
      rcases hreads a ha with h | h
      · exact hread a h
      · exact .inr h
    · rw [if_neg hok]
      exact ⟨by simp [hok], rfl, rfl, hread⟩

theorem elf64Valid_spec (arch : Arch) (buf : ElfBuf) (m : Machine) :
    (elf64Valid arch buf m).1 = buf.valid m.mem arch ∧ (elf64Valid arch buf m).2.mem = m.mem ∧
      (elf64Valid arch buf m).2.writes = m.writes ∧
      ∀ a ∈ (elf64Valid arch buf m).2.reads, a ∈ m.reads ∨ buf.Contains a := by
  unfold elf64Valid ElfBuf.valid
  by_cases hsize : buf.size < 64
  · rw [if_pos hsize, decide_eq_false (by omega), Bool.false_and]
    exact ⟨rfl, rfl, rfl, fun a ha => .inl ha⟩
  · rw [if_neg hsize, decide_eq_true (by omega), Bool.true_and]
    refine runChecks_spec _ (fun c hc => ?_) m
    have hsmall : ∀ c ∈ elfChecks arch, c.1 + c.2.1 ≤ 64 := by simp [elfChecks]
    exact le_trans (hsmall c hc) (by omega)

/-! ## One program header -/

/-- The machine behind the reads of `e_phoff`, `e_phentsize` and `p_type`. -/
def ElfBuf.readHeader (buf : ElfBuf) (i : Nat) (m : Machine) : Machine :=
  ((m.seen (buf.base + 32) 8).seen (buf.base + 54) 2).seen (buf.phAddr m.mem i) 4

theorem elfStep_eq (i : Nat) : elfStep buf i m =
    if (buf.phdr m.mem i).type ≠ 1 then buf.readHeader i m
    else if (buf.phdr m.mem i).memsz = 0 then (buf.readHeader i m).seen (buf.phAddr m.mem i + 40) 8
    else
      zeroBss (buf.phAddr m.mem i) (buf.phdr m.mem i).paddr
        (copyFile buf (buf.phAddr m.mem i) (buf.phdr m.mem i).paddr
          (((buf.readHeader i m).seen (buf.phAddr m.mem i + 40) 8).seen (buf.phAddr m.mem i + 24) 8)) := rfl

/-- All the reads so far are of the buffer. -/
def ReadsIn (buf : ElfBuf) (m : Machine) : Prop := ∀ a ∈ m.reads, buf.Contains a

theorem ReadsIn.seen (h : ReadsIn buf m) {ad n : Nat} (hin : ∃ off, ad = buf.base + off ∧ off + n ≤ buf.size) :
    ReadsIn buf (m.seen ad n) := by
  obtain ⟨off, rfl, hin⟩ := hin
  intro a ha
  rcases mem_seen_reads.mp ha with hold | hnew
  · exact h a hold
  · exact ElfBuf.contains_of_inRange hin hnew

/-- The memory and a header to load found in it at `ph`: the header is in the buffer, and so is what it wants copied. -/
structure HeaderIn (buf : ElfBuf) (mem : Nat → Byte) (ph : Nat) (h : Phdr) : Prop where
  inside : ∃ off, ph = buf.base + off ∧ off + 56 ≤ buf.size
  offset : h.filesz ≠ 0 → word mem (ph + 8) 8 = h.offset
  filesz : word mem (ph + 32) 8 = h.filesz
  memsz : word mem (ph + 40) 8 = h.memsz
  file : h.filesz = 0 ∨ h.offset + h.filesz ≤ buf.size

section part
variable {ph dest : Nat}

theorem copyFile_eq : copyFile buf ph dest m =
    if word m.mem (ph + 32) 8 ≠ 0 then
      ((m.seen (ph + 32) 8).seen (ph + 8) 8).copy dest (buf.base + word m.mem (ph + 8) 8) (word m.mem (ph + 32) 8)
    else m.seen (ph + 32) 8 := rfl

theorem zeroBss_eq : zeroBss ph dest m =
    if word m.mem (ph + 32) 8 < word m.mem (ph + 40) 8 then
      ((m.seen (ph + 40) 8).seen (ph + 32) 8).set (dest + word m.mem (ph + 32) 8) 0
        (word m.mem (ph + 40) 8 - word m.mem (ph + 32) 8)
    else (m.seen (ph + 40) 8).seen (ph + 32) 8 := rfl

theorem mem_copyFile_writes {a : Nat} :
    a ∈ (copyFile buf ph dest m).writes ↔ a ∈ m.writes ∨ InRange dest (word m.mem (ph + 32) 8) a := by
  rw [copyFile_eq]
  by_cases h : word m.mem (ph + 32) 8 = 0
  · rw [if_neg (not_not.mpr h), h]
    exact ⟨.inl, fun h => h.resolve_right inRange_zero⟩
  · rw [if_pos h]
    exact mem_copy_writes

theorem mem_zeroBss_writes {a : Nat} : a ∈ (zeroBss ph dest m).writes ↔ a ∈ m.writes ∨
    InRange (dest + word m.mem (ph + 32) 8) (word m.mem (ph + 40) 8 - word m.mem (ph + 32) 8) a := by
  rw [zeroBss_eq]
  by_cases h : word m.mem (ph + 32) 8 < word m.mem (ph + 40) 8
  · rw [if_pos h]
    exact mem_fill_writes
  · rw [if_neg h, Nat.sub_eq_zero_of_le (Nat.le_of_not_lt h)]
    exact ⟨.inl, fun h => h.resolve_right inRange_zero⟩

theorem copyFile_mem_other {a : Nat} (ha : ¬InRange dest (word m.mem (ph + 32) 8) a) :
    (copyFile buf ph dest m).mem a = m.mem a := by
  rw [copyFile_eq]
  by_cases h : word m.mem (ph + 32) 8 = 0
  · rw [if_neg (not_not.mpr h)]
    rfl
  · rw [if_pos h]
    exact copy_mem_other ha

theorem zeroBss_mem_other {a : Nat}
    (ha : ¬InRange (dest + word m.mem (ph + 32) 8) (word m.mem (ph + 40) 8 - word m.mem (ph + 32) 8) a) :
    (zeroBss ph dest m).mem a = m.mem a := by
  rw [zeroBss_eq]
  by_cases h : word m.mem (ph + 32) 8 < word m.mem (ph + 40) 8
  · rw [if_pos h]
    exact set_mem_other ha
  · rw [if_neg h]
    rfl

theorem readsIn_zeroBss (hin : ∃ off, ph = buf.base + off ∧ off + 56 ≤ buf.size) (hm : ReadsIn buf m) :
    ReadsIn buf (zeroBss ph dest m) := by
  obtain ⟨off, rfl, hoff⟩ := hin
  have hsizes : ReadsIn buf ((m.seen (buf.base + off + 40) 8).seen (buf.base + off + 32) 8) :=
    (hm.seen ⟨off + 40, by omega, by omega⟩).seen ⟨off + 32, by omega, by omega⟩
  rw [zeroBss_eq]
  split
  · intro a ha
    rw [Machine.set, fill_reads] at ha
    exact hsizes a ha
  · exact hsizes

variable {h : Phdr} (hh : HeaderIn buf m.mem ph h)
include hh

theorem HeaderIn.word_in (off n : Nat) (hn : off + n ≤ 56) :
    ∃ o, ph + off = buf.base + o ∧ o + n ≤ buf.size := by
  obtain ⟨o, rfl, ho⟩ := hh.inside
  exact ⟨o + off, by omega, by omega⟩

theorem readsIn_copyFile (hm : ReadsIn buf m) : ReadsIn buf (copyFile buf ph dest m) := by
  have hsize : ReadsIn buf (m.seen (ph + 32) 8) := hm.seen (hh.word_in 32 8 (by omega))
  rw [copyFile_eq, hh.filesz]
  by_cases hz : h.filesz = 0
  · rw [if_neg (not_not.mpr hz)]
    exact hsize
  · rw [if_pos hz, hh.offset hz]
    intro a ha
    rcases mem_copy_reads.mp ha with hold | hnew
    · exact hsize.seen (hh.word_in 8 8 (by omega)) a hold
    · exact ElfBuf.contains_of_inRange (hh.file.resolve_left hz) hnew

end part

/-- What the file and the rest of the target hold at `k`. -/
def Phdr.byteAt (h : Phdr) (buf : ElfBuf) (mem : Nat → Byte) (k : Nat) : Byte :=
  if k < h.filesz then mem (buf.base + h.offset + k) else 0

/-- A header that can be followed: its bytes are in the file and fit the target. -/
structure Phdr.Sound (h : Phdr) (buf : ElfBuf) : Prop where
  file : h.filesz = 0 ∨ h.offset + h.filesz ≤ buf.size
  fits : h.filesz ≤ h.memsz

/-- The sizes at `ph` are read again behind the copy, which leaves them alone. -/
def Phdr.KeepsSizes (h : Phdr) (ph : Nat) : Prop := ∀ a, InRange h.paddr h.filesz a → ¬InRange (ph + 32) 16 a

/-- What a sound header does to the machine. -/
structure Stepped (buf : ElfBuf) (h : Phdr) (m m' : Machine) : Prop where
  reads : ReadsIn buf m → ReadsIn buf m'
  writes : ∀ a ∈ m'.writes, a ∈ m.writes ∨ (h.loads ∧ h.Target a)
  other : ∀ a, ¬(h.loads ∧ h.Target a) → m'.mem a = m.mem a
  bytes : (∀ a, h.Target a → ¬buf.Contains a) → h.loads → ∀ k < h.memsz,
    m'.mem (u64 (h.paddr + k)) = h.byteAt buf m.mem k

theorem ElfBuf.readHeader_readsIn (hsize : 64 ≤ buf.size) {i : Nat}
    (hin : buf.phoff m.mem + i * buf.phentsize m.mem + 56 ≤ buf.size) (hm : ReadsIn buf m) :
    ReadsIn buf (buf.readHeader i m) := by
  have hfields : ReadsIn buf ((m.seen (buf.base + 32) 8).seen (buf.base + 54) 2) :=
    (hm.seen ⟨32, rfl, by omega⟩).seen ⟨54, rfl, by omega⟩
  refine hfields.seen ⟨buf.phoff m.mem + i * buf.phentsize m.mem, ?_, by omega⟩
  rw [ElfBuf.phAddr]
  omega

/-- The memory holds, where header `i` is, what the loop reads of `h`. -/
structure ElfBuf.HeaderAt (buf : ElfBuf) (mem : Nat → Byte) (i : Nat) (h : Phdr) : Prop where
  type : word mem (buf.phAddr mem i) 4 = h.type
  memsz : h.type = 1 → word mem (buf.phAddr mem i + 40) 8 = h.memsz
  paddr : h.loads → word mem (buf.phAddr mem i + 24) 8 = h.paddr
  filesz : h.loads → word mem (buf.phAddr mem i + 32) 8 = h.filesz
  offset : h.loads → h.filesz ≠ 0 → word mem (buf.phAddr mem i + 8) 8 = h.offset

theorem ElfBuf.HeaderAt.headerIn {i : Nat} {h : Phdr} (hh : buf.HeaderAt m.mem i h)
    (hin : buf.phoff m.mem + i * buf.phentsize m.mem + 56 ≤ buf.size) (hl : h.loads) (hs : h.Sound buf) :
    HeaderIn buf m.mem (buf.phAddr m.mem i) h where
  inside := ⟨buf.phoff m.mem + i * buf.phentsize m.mem, by rw [ElfBuf.phAddr]; omega, hin⟩
  offset := hh.offset hl
  filesz := hh.filesz hl
  memsz := hh.memsz hl.1
  file := hs.file

theorem stepped_load {ph : Nat} {h : Phdr} (hh : HeaderIn buf m.mem ph h) (hs : h.Sound buf) (hk : h.KeepsSizes ph)
    (hl : h.loads) (hmem : h.memsz ≤ 2 ^ 64) :
    Stepped buf h m (zeroBss ph h.paddr (copyFile buf ph h.paddr m)) := by
  have htarget : ∀ a, InRange h.paddr h.filesz a → h.Target a := fun a ha => ha.mono hs.fits
  have hsame : SameOn (InRange (ph + 32) 16) m.mem (copyFile buf ph h.paddr m).mem := by
    intro a ha
    rw [copyFile_mem_other]
    rw [hh.filesz]
    exact fun hr => hk a hr ha
  have hfilesz' : word (copyFile buf ph h.paddr m).mem (ph + 32) 8 = h.filesz :=
    (hsame.word_eq (fun _ ha => ha) 0 8 (by omega)).symm.trans hh.filesz
  have hmemsz' : word (copyFile buf ph h.paddr m).mem (ph + 40) 8 = h.memsz :=
    (hsame.word_eq (fun _ ha => ha) 8 8 (by omega)).symm.trans hh.memsz
  have hsplit : ∀ a, h.Target a ↔ InRange h.paddr h.filesz a ∨ InRange (h.paddr + h.filesz) (h.memsz - h.filesz) a := by
    intro a
    rw [← inRange_add, Nat.add_sub_cancel' hs.fits]
    rfl
  refine ⟨fun hm => readsIn_zeroBss hh.inside (readsIn_copyFile hh hm), fun a ha => ?_, fun a ha => ?_,
    fun hapart _ k hk => ?_⟩
  · rw [mem_zeroBss_writes, mem_copyFile_writes, hh.filesz, hfilesz', hmemsz', or_assoc, ← hsplit] at ha
    exact ha.imp_right fun ht => ⟨hl, ht⟩
  · have hout : ¬h.Target a := fun ht => ha ⟨hl, ht⟩
    rw [hsplit, not_or] at hout
    rw [zeroBss_mem_other, copyFile_mem_other]
    · rw [hh.filesz]
      exact hout.1
    · rw [hfilesz', hmemsz']
      exact hout.2
  · rw [Phdr.byteAt]
    by_cases hfile : k < h.filesz
    · have hnz : h.filesz ≠ 0 := by omega
      have hfits := buf.fits
      have hoff := hs.file.resolve_left hnz
      rw [if_pos hfile, zeroBss_mem_other]
      · rw [copyFile_eq, hh.filesz, hh.offset hnz, if_pos hnz, copy_mem _ _ hfile, seen_mem, seen_mem, u64,
          Nat.mod_eq_of_lt (by omega)]
        · omega
        · intro b hb hb'
          exact hapart b (htarget b hb') (ElfBuf.contains_of_inRange hoff hb)
      · -- the part that is cleared comes after the file part
        rw [hfilesz', hmemsz']
        rintro ⟨j, hj, heq⟩
        simp only [u64] at heq
        omega
    · rw [if_neg hfile, zeroBss_eq, hfilesz', hmemsz', if_pos (by omega)]
      refine set_mem ⟨k - h.filesz, by omega, ?_⟩
      rw [show h.paddr + h.filesz + (k - h.filesz) = h.paddr + k by omega]

theorem elfStep_spec (hsize : 64 ≤ buf.size) {i : Nat} {h : Phdr} (hh : buf.HeaderAt m.mem i h)
    (hin : buf.phoff m.mem + i * buf.phentsize m.mem + 56 ≤ buf.size) (hs : h.type = 1 → h.Sound buf)
    (hk : h.loads → h.KeepsSizes (buf.phAddr m.mem i)) (hmem : h.memsz ≤ 2 ^ 64) :
    Stepped buf h m (elfStep buf i m) := by
  have hread := fun hm => ElfBuf.readHeader_readsIn (m := m) hsize hin hm
  have htype : (buf.phdr m.mem i).type = h.type := hh.type
  rw [elfStep_eq, htype]
  by_cases ht : h.type = 1
  · have hmemsz : (buf.phdr m.mem i).memsz = h.memsz := hh.memsz ht
    have hread' : ReadsIn buf m → ReadsIn buf ((buf.readHeader i m).seen (buf.phAddr m.mem i + 40) 8) := by
      refine fun hm => (hread hm).seen ⟨buf.phoff m.mem + i * buf.phentsize m.mem + 40, ?_, by omega⟩
      rw [ElfBuf.phAddr]
      omega
    rw [if_neg (not_not.mpr ht), hmemsz]
    by_cases hz : h.memsz = 0
    · rw [if_pos hz]
      exact ⟨hread', fun a ha => .inl ha, fun a _ => rfl, fun _ hl => absurd hz hl.2⟩
    · have hl : h.loads := ⟨ht, hz⟩
      have hpaddr : (buf.phdr m.mem i).paddr = h.paddr := hh.paddr hl
      have hheader := hh.headerIn hin hl (hs ht)
      rw [if_neg hz, hpaddr]
      obtain ⟨hr, hw, ho, hb⟩ := stepped_load
        (m := ((buf.readHeader i m).seen (buf.phAddr m.mem i + 40) 8).seen (buf.phAddr m.mem i + 24) 8)
        hheader (hs ht) (hk hl) hl hmem
      exact ⟨fun hm => hr ((hread' hm).seen (hheader.word_in 24 8 (by omega))), hw, ho, hb⟩
  · rw [if_pos ht]
    exact ⟨hread, fun a ha => .inl ha, fun a _ => rfl, fun _ hl => absurd hl.1 ht⟩

/-! ## The loop -/

variable {mem₀ : Nat → Byte}

/-- The bytes of header `i` that the loop reads: a header that is skipped is not read to its end. -/
def ElfBuf.HeaderRead (buf : ElfBuf) (mem : Nat → Byte) (i a : Nat) : Prop :=
  InRange (buf.phAddr mem i) 4 a ∨ ((buf.phdr mem i).type = 1 ∧ InRange (buf.phAddr mem i + 40) 8 a) ∨
    ((buf.phdr mem i).loads ∧ (InRange (buf.phAddr mem i + 24) 16 a ∨
      ((buf.phdr mem i).filesz ≠ 0 ∧ InRange (buf.phAddr mem i + 8) 8 a)))

/-- The header bytes that are read once `k` iterations are done: `e_entry` and `e_phnum`, and while there are headers
left `e_phoff`, `e_phentsize` and those headers. -/
def ElfBuf.StillRead (buf : ElfBuf) (mem : Nat → Byte) (k a : Nat) : Prop :=
  InRange (buf.base + 24) 8 a ∨ InRange (buf.base + 56) 2 a ∨
    ∃ i, k ≤ i ∧ i < buf.phnum mem ∧
      (InRange (buf.base + 32) 8 a ∨ InRange (buf.base + 54) 2 a ∨ buf.HeaderRead mem i a)

/-- No segment goes over header bytes that are still to be read. -/
def KeepsHeaders (buf : ElfBuf) (mem : Nat → Byte) : Prop :=
  ∀ i < buf.phnum mem, (buf.phdr mem i).loads → (buf.phdr mem i).KeepsSizes (buf.phAddr mem i) ∧
    ∀ a, (buf.phdr mem i).Target a → ¬buf.StillRead mem (i + 1) a

/-- Every header is in the buffer, those of loadable segments are sound, and they are kept as long as they are read. -/
structure ElfBuf.Followed (buf : ElfBuf) (mem : Nat → Byte) : Prop where
  table : ∀ i < buf.phnum mem, buf.phoff mem + i * buf.phentsize mem + 56 ≤ buf.size
  sound : ∀ i < buf.phnum mem, (buf.phdr mem i).type = 1 → (buf.phdr mem i).Sound buf
  keeps : KeepsHeaders buf mem

/-- No segment goes over the buffer. -/
def ElfBuf.Apart (buf : ElfBuf) (mem : Nat → Byte) : Prop :=
  ∀ i < buf.phnum mem, (buf.phdr mem i).type = 1 → ∀ a, (buf.phdr mem i).Target a → ¬buf.Contains a

/-- No two segments share an address. -/
def ElfBuf.Separate (buf : ElfBuf) (mem : Nat → Byte) : Prop :=
  ∀ i < buf.phnum mem, ∀ j < buf.phnum mem, i ≠ j → (buf.phdr mem i).loads → (buf.phdr mem j).loads →
    ∀ a, (buf.phdr mem i).Target a → ¬(buf.phdr mem j).Target a

/-- The first `k` headers of the image in `mem₀` are done. -/
structure Walked (buf : ElfBuf) (mem₀ : Nat → Byte) (k : Nat) (m : Machine) : Prop where
  reads : ReadsIn buf m
  writes : ∀ a ∈ m.writes, ∃ i < k, (buf.phdr mem₀ i).loads ∧ (buf.phdr mem₀ i).Target a
  other : ∀ a, (∀ i < k, ¬((buf.phdr mem₀ i).loads ∧ (buf.phdr mem₀ i).Target a)) → m.mem a = mem₀ a
  bytes : buf.Separate mem₀ → buf.Apart mem₀ → ∀ i < k, (buf.phdr mem₀ i).loads →
    ∀ j < (buf.phdr mem₀ i).memsz, m.mem (u64 ((buf.phdr mem₀ i).paddr + j)) = (buf.phdr mem₀ i).byteAt buf mem₀ j

theorem ElfBuf.StillRead.mono {k k' a : Nat} (h : buf.StillRead mem k' a) (hle : k ≤ k') : buf.StillRead mem k a := by
  rcases h with h | h | ⟨i, hi, h⟩
  · exact .inl h
  · exact .inr (.inl h)
  · exact .inr (.inr ⟨i, hle.trans hi, h⟩)

/-- What is still to be read is as it was. -/
theorem Walked.same (hf : buf.Followed mem₀) {k : Nat} (hk : k ≤ buf.phnum mem₀) (hw : Walked buf mem₀ k m) :
    SameOn (buf.StillRead mem₀ k) mem₀ m.mem := by
  intro a ha
  refine (hw.other a fun i hi hload => ?_).symm
  exact (hf.keeps i (by omega) hload.1).2 a hload.2 (ha.mono hi)

theorem SameOn.stillRead {k : Nat} (h : SameOn (buf.StillRead mem₀ k) mem₀ mem) :
    buf.phnum mem₀ = buf.phnum mem ∧ buf.entry mem₀ = buf.entry mem :=
  ⟨word_congr fun a ha => h a (.inr (.inl ha)), word_congr fun a ha => h a (.inl ha)⟩

/-- The next header is where it was, and what the loop reads of it is what it was. -/
theorem SameOn.header {k : Nat} (h : SameOn (buf.StillRead mem₀ k) mem₀ mem) (hk : k < buf.phnum mem₀) :
    buf.phoff mem₀ = buf.phoff mem ∧ buf.phentsize mem₀ = buf.phentsize mem ∧
      buf.HeaderAt mem k (buf.phdr mem₀ k) := by
  have hread : ∀ a, InRange (buf.base + 32) 8 a ∨ InRange (buf.base + 54) 2 a ∨ buf.HeaderRead mem₀ k a →
      mem₀ a = mem a := fun a ha => h a (.inr (.inr ⟨k, le_rfl, hk, ha⟩))
  have hoff : buf.phoff mem₀ = buf.phoff mem := word_congr fun a ha => hread a (.inl ha)
  have hent : buf.phentsize mem₀ = buf.phentsize mem := word_congr fun a ha => hread a (.inr (.inl ha))
  have haddr : buf.phAddr mem k = buf.phAddr mem₀ k := by rw [ElfBuf.phAddr, ElfBuf.phAddr, hoff, hent]
  have hheader : ∀ a, buf.HeaderRead mem₀ k a → mem a = mem₀ a := fun a ha => (hread a (.inr (.inr ha))).symm
  have hplace : ∀ a, (buf.phdr mem₀ k).loads → InRange (buf.phAddr mem₀ k + 24) 16 a → mem a = mem₀ a :=
    fun a hl ha => hheader a (.inr (.inr ⟨hl, .inl ha⟩))
  refine ⟨hoff, hent, ⟨?_, fun ht => ?_, fun hl => ?_, fun hl => ?_, fun hl hnz => ?_⟩⟩ <;> rw [haddr]
  · exact word_congr fun a ha => hheader a (.inl ha)
  · exact word_congr fun a ha => hheader a (.inr (.inl ⟨ht, ha⟩))
  · exact word_congr fun a ha => hplace a hl (ha.mono (by omega))
  · exact word_congr fun a ha => hplace a hl
      ((show InRange (buf.phAddr mem₀ k + 24 + 8) 8 a from ha).within (by omega))
  · exact word_congr fun a ha => hheader a (.inr (.inr ⟨hl, .inr ⟨hnz, ha⟩⟩))

theorem Walked.byteAt_eq (hap : buf.Apart mem₀) {k : Nat} (hk : k ≤ buf.phnum mem₀) (hw : Walked buf mem₀ k m)
    {p : Phdr} (hp : p.Sound buf) (j : Nat) : p.byteAt buf mem₀ j = p.byteAt buf m.mem j := by
  rw [Phdr.byteAt, Phdr.byteAt]
  split
  · have hfile := hp.file.resolve_left (by omega)
    refine (hw.other _ fun i hi hload => ?_).symm
    exact hap i (by omega) hload.1.1 _ hload.2 ⟨by omega, by omega⟩
  · rfl

theorem Walked.step (hsize : 64 ≤ buf.size) (hf : buf.Followed mem₀) {k : Nat} (hk : k < buf.phnum mem₀)
    (hw : Walked buf mem₀ k m) : Walked buf mem₀ (k + 1) (elfStep buf k (m.seen (buf.base + 56) 2)) := by
  obtain ⟨hoff, hent, hheader⟩ := (hw.same hf (by omega)).header hk
  have hstep : Stepped buf (buf.phdr mem₀ k) (m.seen (buf.base + 56) 2) (elfStep buf k (m.seen (buf.base + 56) 2)) := by
    refine elfStep_spec (m := m.seen (buf.base + 56) 2) hsize hheader ?_ (hf.sound k hk) (fun hl => ?_)
      (word_lt mem₀ _ 8).le
    · rw [seen_mem, ← hoff, ← hent]
      exact hf.table k hk
    · have hsizes := (hf.keeps k hk hl).1
      rwa [ElfBuf.phAddr, hoff, hent, ← ElfBuf.phAddr] at hsizes
  refine ⟨hstep.reads (hw.reads.seen ⟨56, rfl, by omega⟩), fun a ha => ?_, fun a ha => ?_,
    fun hsep hap i hi hl j hj => ?_⟩
  · rcases hstep.writes a ha with hold | hnew
    · obtain ⟨i, hi, hload⟩ := hw.writes a hold
      exact ⟨i, by omega, hload⟩
    · exact ⟨k, by omega, hnew⟩
  · rw [hstep.other a (ha k (by omega))]
    exact hw.other a fun i hi => ha i (by omega)
  · rcases Nat.lt_succ_iff_lt_or_eq.mp hi with hlt | rfl
    · -- an earlier segment keeps its bytes
      rw [hstep.other, ← hw.bytes hsep hap i hlt hl j hj]
      · rfl
      · rintro ⟨hlk, ht⟩
        exact hsep i (by omega) k hk (by omega) hl hlk _ ⟨j, hj, rfl⟩ ht
    · rw [hstep.bytes (hap i hk hl.1) hl j hj]
      exact (hw.byteAt_eq hap hk.le (hf.sound i hk hl.1) j).symm

theorem elfLoop_succ (n i : Nat) : elfLoop buf (n + 1) i m =
    if i < buf.phnum m.mem then elfLoop buf n (i + 1) (elfStep buf i (m.seen (buf.base + 56) 2))
    else m.seen (buf.base + 56) 2 := rfl

theorem elfLoop_spec (hsize : 64 ≤ buf.size) (hf : buf.Followed mem₀) {n k : Nat} (hk : k ≤ buf.phnum mem₀)
    (hn : buf.phnum mem₀ < k + n) (hw : Walked buf mem₀ k m) :
    Walked buf mem₀ (buf.phnum mem₀) (elfLoop buf n k m) := by
  induction n generalizing k m with
  | zero => omega
  | succ n ih =>
    have hphnum := (hw.same hf hk).stillRead.1
    rw [elfLoop_succ, ← hphnum]
    by_cases hlt : k < buf.phnum mem₀
    · rw [if_pos hlt]
      exact ih hlt (by omega) (hw.step hsize hf hlt)
    · obtain rfl : k = buf.phnum mem₀ := by omega
      rw [if_neg hlt]
      exact ⟨hw.reads.seen ⟨56, rfl, by omega⟩, hw.writes, hw.other, hw.bytes⟩

theorem elf64Load_eq (arch : Arch) (m : Machine) : elf64Load arch buf m =
    if (elf64Valid arch buf m).1 then (elfLoop buf 65536 0 (elf64Valid arch buf m).2).rd (buf.base + 24) 8
    else (0, (elf64Valid arch buf m).2) := rfl

theorem ElfBuf.size_of_valid {arch : Arch} (h : buf.valid mem arch = true) : 64 ≤ buf.size := by
  rw [ElfBuf.valid, Bool.and_eq_true, decide_eq_true_eq] at h
  exact h.1

theorem ElfBuf.phnum_lt (buf : ElfBuf) (mem : Nat → Byte) : buf.phnum mem < 65536 := word_lt mem (buf.base + 56) 2

/-- The whole call: the last read is `e_entry`. -/
theorem elf64Load_spec {arch : Arch} (hv : buf.valid mem arch = true) (hf : buf.Followed mem) :
    (elf64Load arch buf ⟨mem, [], []⟩).1 = buf.entry mem ∧
      Walked buf mem (buf.phnum mem) (elf64Load arch buf ⟨mem, [], []⟩).2 := by
  have hsize := ElfBuf.size_of_valid hv
  obtain ⟨hval, hmem, hwrites, hreads⟩ := elf64Valid_spec arch buf ⟨mem, [], []⟩
  rw [elf64Load_eq, hval, if_pos hv]
  have hstart : Walked buf mem 0 (elf64Valid arch buf ⟨mem, [], []⟩).2 := by
    refine ⟨fun a ha => (hreads a ha).resolve_left List.not_mem_nil, fun a ha => ?_, fun a _ => by rw [hmem],
      fun _ _ i hi => absurd hi (Nat.not_lt_zero i)⟩
    rw [hwrites] at ha
    exact absurd ha List.not_mem_nil
  have hw := elfLoop_spec (n := 65536) hsize hf (Nat.zero_le _) (by have := buf.phnum_lt mem; omega) hstart
  have hentry := (hw.same hf le_rfl).stillRead.2
  exact ⟨hentry.symm, hw.reads.seen ⟨24, rfl, by omega⟩, hw.writes, hw.other, hw.bytes⟩

/-! ## Well-formed images -/

/-- An image that can be loaded: the headers and the segments' bytes are in the buffer, and the places the segments go to
neither wrap around nor meet each other or the buffer. -/
structure WellFormed (arch : Arch) (buf : ElfBuf) (mem : Nat → Byte) : Prop where
  valid : buf.valid mem arch = true
  table : ∀ i < buf.phnum mem, buf.phoff mem + i * buf.phentsize mem + 56 ≤ buf.size
  file : ∀ i < buf.phnum mem, (buf.phdr mem i).type = 1 →
    (buf.phdr mem i).filesz = 0 ∨ (buf.phdr mem i).offset + (buf.phdr mem i).filesz ≤ buf.size
  fits : ∀ i < buf.phnum mem, (buf.phdr mem i).type = 1 → (buf.phdr mem i).filesz ≤ (buf.phdr mem i).memsz
  noWrap : ∀ i < buf.phnum mem, (buf.phdr mem i).type = 1 → (buf.phdr mem i).paddr + (buf.phdr mem i).memsz ≤ 2 ^ 64
  apart : ∀ i < buf.phnum mem, (buf.phdr mem i).type = 1 → ∀ a, (buf.phdr mem i).Target a → ¬buf.Contains a
  separate : ∀ i < buf.phnum mem, ∀ j < buf.phnum mem, i ≠ j → (buf.phdr mem i).type = 1 →
    (buf.phdr mem j).type = 1 → ∀ a, (buf.phdr mem i).Target a → ¬(buf.phdr mem j).Target a

def ElfBuf.phdrs (buf : ElfBuf) (mem : Nat → Byte) : List Phdr := (List.range (buf.phnum mem)).map (buf.phdr mem)

/-- The same image with its program headers in another order: the same headers, entry point and segment bytes, in the
same surroundings. -/
structure Reordered (buf : ElfBuf) (mem mem' : Nat → Byte) : Prop where
  entry : buf.entry mem' = buf.entry mem
  phdrs : (buf.phdrs mem').Perm (buf.phdrs mem)
  file : ∀ h ∈ buf.phdrs mem, h.type = 1 → ∀ k < h.filesz,
    mem' (buf.base + h.offset + k) = mem (buf.base + h.offset + k)
  outside : ∀ a, ¬buf.Contains a → mem' a = mem a

namespace WellFormed
variable {arch : Arch} (hw : WellFormed arch buf mem)
include hw

theorem contains_header {i : Nat} (hi : i < buf.phnum mem) {a : Nat} (ha : InRange (buf.phAddr mem i) 56 a) :
    buf.Contains a := by
  rw [ElfBuf.phAddr, Nat.add_assoc] at ha
  exact ElfBuf.contains_of_inRange (hw.table i hi) ha

theorem contains_stillRead {k a : Nat} (ha : buf.StillRead mem k a) : buf.Contains a := by
  have hsize := ElfBuf.size_of_valid hw.valid
  have hehdr : ∀ {off n}, InRange (buf.base + off) n a → off + n ≤ 64 → buf.Contains a := fun hr hle =>
    ElfBuf.contains_of_inRange (by omega) hr
  rcases ha with h | h | ⟨i, -, hi, h | h | h⟩
  · exact hehdr h (by omega)
  · exact hehdr h (by omega)
  · exact hehdr h (by omega)
  · exact hehdr h (by omega)
  · refine hw.contains_header hi ?_
    rcases h with h | ⟨-, h⟩ | ⟨-, h | ⟨-, h⟩⟩
    · exact h.mono (by omega)
    · exact h.within (by omega)
    · exact h.within (by omega)
    · exact h.within (by omega)

theorem followed : buf.Followed mem where
  table := hw.table
  sound := fun i hi ht => ⟨hw.file i hi ht, hw.fits i hi ht⟩
  keeps := by
    refine fun i hi hl => ⟨fun a ha hin => ?_, fun a ha hread => ?_⟩
    · exact hw.apart i hi hl.1 a (ha.mono (hw.fits i hi hl.1)) (hw.contains_header hi (hin.within (by omega)))
    · exact hw.apart i hi hl.1 a ha (hw.contains_stillRead hread)

theorem separate' : buf.Separate mem :=
  fun i hi j hj hne hli hlj => hw.separate i hi j hj hne hli.1 hlj.1

theorem load_bytes {h : Phdr} (hh : h ∈ buf.phdrs mem) (ht : h.type = 1) {k : Nat} (hk : k < h.memsz) :
    (elf64Load arch buf ⟨mem, [], []⟩).2.mem (h.paddr + k) = h.byteAt buf mem k := by
  obtain ⟨i, hi, rfl⟩ := List.mem_map.mp hh
  have hi := List.mem_range.mp hi
  have hbytes := (elf64Load_spec hw.valid hw.followed).2.bytes hw.separate' hw.apart i hi ⟨ht, by omega⟩ k hk
  have hwrap := hw.noWrap i hi ht
  rwa [u64, Nat.mod_eq_of_lt (by omega)] at hbytes

theorem load_other {a : Nat} (ha : ∀ h ∈ buf.phdrs mem, h.type = 1 → ¬h.Target a) :
    (elf64Load arch buf ⟨mem, [], []⟩).2.mem a = mem a := by
  refine (elf64Load_spec hw.valid hw.followed).2.other a fun i hi hload => ?_
  exact ha _ (List.mem_map.mpr ⟨i, List.mem_range.mpr hi, rfl⟩) hload.1.1 hload.2

end WellFormed

/-- A well-formed image is loaded as its headers say, whatever their order. -/
theorem elf64Load_wellFormed (arch : Arch) (buf : ElfBuf) (mem : Nat → Byte) (hw : WellFormed arch buf mem) :
    (elf64Load arch buf ⟨mem, [], []⟩).1 = buf.entry mem ∧
      (∀ h ∈ buf.phdrs mem, h.type = 1 → ∀ k < h.memsz, (elf64Load arch buf ⟨mem, [], []⟩).2.mem (h.paddr + k) =
        if k < h.filesz then mem (buf.base + h.offset + k) else 0) ∧
      (∀ a, (∀ h ∈ buf.phdrs mem, h.type = 1 → ¬(h.paddr ≤ a ∧ a < h.paddr + h.memsz)) →
        (elf64Load arch buf ⟨mem, [], []⟩).2.mem a = mem a) ∧
      ∀ mem', WellFormed arch buf mem' → Reordered buf mem mem' →
        (elf64Load arch buf ⟨mem', [], []⟩).1 = (elf64Load arch buf ⟨mem, [], []⟩).1 ∧
          ∀ a, ¬buf.Contains a →
            (elf64Load arch buf ⟨mem', [], []⟩).2.mem a = (elf64Load arch buf ⟨mem, [], []⟩).2.mem a := by
  have htarget : ∀ h ∈ buf.phdrs mem, h.type = 1 → ∀ a, h.Target a ↔ h.paddr ≤ a ∧ a < h.paddr + h.memsz := by
    intro h hh ht a
    obtain ⟨i, hi, rfl⟩ := List.mem_map.mp hh
    exact inRange_iff (hw.noWrap i (List.mem_range.mp hi) ht)
  have hentry := (elf64Load_spec hw.valid hw.followed).1
  refine ⟨hentry, fun h hh ht k hk => hw.load_bytes hh ht hk, fun a ha => ?_, fun mem' hw' hr => ⟨?_, fun a ha => ?_⟩⟩
  · exact hw.load_other fun h hh ht => (htarget h hh ht a).not.mpr (ha h hh ht)
  · rw [(elf64Load_spec hw'.valid hw'.followed).1, hentry, hr.entry]
  · by_cases hex : ∃ h ∈ buf.phdrs mem, h.type = 1 ∧ h.Target a
    · obtain ⟨h, hh, ht, hta⟩ := hex
      obtain ⟨hlo, hhi⟩ := (htarget h hh ht a).mp hta
      obtain ⟨k, rfl⟩ := Nat.exists_eq_add_of_le hlo
      rw [hw.load_bytes hh ht (by omega), hw'.load_bytes (hr.phdrs.mem_iff.mpr hh) ht (by omega), Phdr.byteAt, Phdr.byteAt]
      split
      · exact hr.file h hh ht k ‹_›
      · rfl
    · have hout : ∀ h ∈ buf.phdrs mem, h.type = 1 → ¬h.Target a := fun h hh ht hta => hex ⟨h, hh, ht, hta⟩
      rw [hw.load_other hout, hw'.load_other fun h hh => hout h (hr.phdrs.mem_iff.mp hh), hr.outside a ha]

/-! An image of two segments, one of them without file bytes, and the same image with the headers swapped. -/

def Phdr.bytes (h : Phdr) : List Byte :=
  Bytes.le 4 h.type ++ Bytes.le 4 0 ++ Bytes.le 8 h.offset ++ Bytes.le 8 0 ++ Bytes.le 8 h.paddr ++ Bytes.le 8 h.filesz ++
    Bytes.le 8 h.memsz ++ Bytes.le 8 0

/-- An executable for x86-64: the header, and the program headers behind it. -/
def elfImage (entry : Nat) (hs : List Phdr) : List Byte :=
  [0x7F, 69, 76, 70, 2, 1, 1, 0, 0, 0, 0, 0, 0, 0, 0, 0] ++ Bytes.le 2 2 ++ Bytes.le 2 62 ++ Bytes.le 4 1 ++
    Bytes.le 8 entry ++ Bytes.le 8 64 ++ Bytes.le 8 0 ++ Bytes.le 4 0 ++ Bytes.le 2 64 ++ Bytes.le 2 56 ++
    Bytes.le 2 hs.length ++ List.replicate 6 0 ++ hs.flatMap Phdr.bytes

/-- Bytes at `0x1000`, and nothing but zeros elsewhere. -/
def memOf (bytes : List Byte) (a : Nat) : Byte := if a < 0x1000 then 0 else bytes.getD (a - 0x1000) 0

theorem small_fits (size : Fin 65536) : 0x1000 + size.val ≤ 2 ^ 64 := by omega

def bufOf (size : Fin 65536) : ElfBuf := { base := 0x1000, size := size, fits := small_fits size }

def twoSegments (swap : Bool) : List Byte :=
  let text : Phdr := ⟨1, 0, 0x2000, 2, 3⟩
  let bss : Phdr := ⟨1, 0, 0x3000, 0, 1⟩
  elfImage 0x2000 (if swap then [bss, text] else [text, bss])

def twoBuf : ElfBuf := bufOf 176

theorem twoSegments_phdr (swap : Bool) :
    twoBuf.phnum (memOf (twoSegments swap)) = 2 ∧
      twoBuf.phdr (memOf (twoSegments swap)) 0 = ⟨1, 0, if swap then 0x3000 else 0x2000, if swap then 0 else 2,
        if swap then 1 else 3⟩ ∧
      twoBuf.phdr (memOf (twoSegments swap)) 1 = ⟨1, 0, if swap then 0x2000 else 0x3000, if swap then 2 else 0,
        if swap then 3 else 1⟩ := by
  cases swap <;> decide

theorem twoSegments_wellFormed (swap : Bool) : WellFormed .x86_64 twoBuf (memOf (twoSegments swap)) := by
  obtain ⟨hnum, h0, h1⟩ := twoSegments_phdr swap
  have hcases : ∀ i < 2, i = 0 ∨ i = 1 := by omega
  have htarget : ∀ h : Phdr, h.paddr + h.memsz ≤ 2 ^ 64 → ∀ a, h.Target a ↔ h.paddr ≤ a ∧ a < h.paddr + h.memsz :=
    fun h hh a => inRange_iff hh
  have hsize : twoBuf.size = 176 := by decide
  have hbase : twoBuf.base = 0x1000 := rfl
  constructor
  case valid => cases swap <;> decide
  case table =>
    have hoff : twoBuf.phoff (memOf (twoSegments swap)) = 64 ∧ twoBuf.phentsize (memOf (twoSegments swap)) = 56 := by
      cases swap <;> decide
    intro i hi
    rw [hoff.1, hoff.2, hsize]
    omega
  case separate =>
    intro i hi j hj hne _ _ a
    rw [hnum] at hi hj
    rcases hcases i hi with rfl | rfl <;> rcases hcases j hj with rfl | rfl
    · exact absurd rfl hne
    · rw [h0, h1, htarget _ (by cases swap <;> decide), htarget _ (by cases swap <;> decide)]
      cases swap <;> dsimp <;> omega
    · rw [h0, h1, htarget _ (by cases swap <;> decide), htarget _ (by cases swap <;> decide)]
      cases swap <;> dsimp <;> omega
    · exact absurd rfl hne
  case apart =>
    intro i hi _ a
    rw [hnum] at hi
    rw [ElfBuf.Contains, hsize, hbase]
    rcases hcases i hi with rfl | rfl
    · rw [h0, htarget _ (by cases swap <;> decide)]
      cases swap <;> dsimp <;> omega
    · rw [h1, htarget _ (by cases swap <;> decide)]
      cases swap <;> dsimp <;> omega
  all_goals
    intro i hi _
    rw [hnum] at hi
    rcases hcases i hi with rfl | rfl
    · rw [h0]
      cases swap <;> decide
    · rw [h1]
      cases swap <;> decide

theorem twoSegments_reordered : Reordered twoBuf (memOf (twoSegments false)) (memOf (twoSegments true)) where
  entry := by decide
  phdrs := by
    obtain ⟨hnum, h0, h1⟩ := twoSegments_phdr false
    obtain ⟨hnum', h0', h1'⟩ := twoSegments_phdr true
    simp only [ElfBuf.phdrs, hnum, hnum', List.range, List.range.loop, List.map, h0, h1, h0', h1']
    exact .swap ..
  file := by
    have hfile : ∀ h ∈ twoBuf.phdrs (memOf (twoSegments false)), ∀ k < h.filesz,
        memOf (twoSegments true) (twoBuf.base + h.offset + k) = memOf (twoSegments false) (twoBuf.base + h.offset + k) := by
      decide
    exact fun h hh _ => hfile h hh
  outside := by
    intro a ha
    have hlen : ∀ swap, (twoSegments swap).length = 176 := by decide +kernel
    have hsize : twoBuf.size = 176 := by decide
    have hbase : twoBuf.base = 0x1000 := rfl
    rw [ElfBuf.Contains, hsize, hbase] at ha
    rw [memOf, memOf]
    split
    · rfl
    · rw [List.getD_eq_default, List.getD_eq_default]
      · rw [hlen]; omega
      · rw [hlen]; omega

theorem twoSegments_loaded : (elf64Load .x86_64 twoBuf ⟨memOf (twoSegments true), [], []⟩).1 = 0x2000 ∧
    (elf64Load .x86_64 twoBuf ⟨memOf (twoSegments true), [], []⟩).2.mem 0x2001 = 69 ∧
    (elf64Load .x86_64 twoBuf ⟨memOf (twoSegments false), [], []⟩).2.mem 0x2001 = 69 := by
  obtain ⟨hret, hbytes, -, hperm⟩ :=
    elf64Load_wellFormed .x86_64 twoBuf (memOf (twoSegments false)) (twoSegments_wellFormed false)
  obtain ⟨hret', hmem⟩ := hperm _ (twoSegments_wellFormed true) twoSegments_reordered
  have hin : ⟨1, 0, 0x2000, 2, 3⟩ ∈ twoBuf.phdrs (memOf (twoSegments false)) := by decide
  have hbyte := hbytes _ hin rfl 1 (by decide)
  refine ⟨?_, ?_, ?_⟩
  · rw [hret', hret]
    decide
  · rw [hmem 0x2001 (by rw [ElfBuf.Contains, show twoBuf.size = 176 by decide]; decide), hbyte]
    decide
  · rw [hbyte]
    decide

end SakuruBoot

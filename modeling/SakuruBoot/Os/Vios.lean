import SakuruBoot.Os.ElfBounds

/-!
# Reserving the pages of a ViOS kernel (`os/vios.c`)

`vios_reserve_elf_pages` walks the program headers before `elf64_load` does, and asks the firmware for the pages of each
segment. The firmware is a parameter: `AllocatesAddress` is what is documented of `AllocatePages(AllocateAddress)`. A
request is refused when the address is not page aligned or a page is not free, and the loader ignores that, so what
counts in the end is which requests were granted (`Granted`).
-/

namespace SakuruBoot
open CStr Memory

/-- `g` is one of the `n` pages from `addr` on. -/
def PageOf (addr n g : Nat) : Prop := addr / 4096 ≤ g ∧ g < addr / 4096 + n

structure Firmware (σ : Type) where
  free : σ → Nat → Prop
  allocatePages : σ → Nat → Nat → Bool × σ

/-- `AllocatePages` with `AllocateAddress`: it grants free page-aligned ranges, and takes the pages then; it refuses
addresses that are not aligned and ranges that are not free, and changes nothing then. -/
structure Firmware.AllocatesAddress {σ : Type} (fw : Firmware σ) : Prop where
  unaligned : ∀ s addr n, addr % 4096 ≠ 0 → (fw.allocatePages s addr n).1 = false
  taken : ∀ s addr n g, PageOf addr n g → ¬fw.free s g → (fw.allocatePages s addr n).1 = false
  grants : ∀ s addr n, 0 < n → addr % 4096 = 0 → (∀ g, PageOf addr n g → fw.free s g) →
    (fw.allocatePages s addr n).1 = true
  granted : ∀ s addr n, (fw.allocatePages s addr n).1 = true →
    ∀ g, fw.free (fw.allocatePages s addr n).2 g ↔ fw.free s g ∧ ¬PageOf addr n g
  refused : ∀ s addr n, (fw.allocatePages s addr n).1 = false →
    ∀ g, fw.free (fw.allocatePages s addr n).2 g ↔ fw.free s g

/-- `(UINTN)((ph->p_memsz + 0xFFFu) >> 12)`. -/
def Phdr.pages (h : Phdr) : Nat := u64 (h.memsz + 0xFFF) / 4096

section model
variable {σ : Type} (fw : Firmware σ) (buf : ElfBuf) (mem : Nat → Byte)

/-- One iteration; the second part lists the ranges reserved so far. -/
def reserveStep (x : σ × List (Nat × Nat)) (i : Nat) : σ × List (Nat × Nat) :=
  let ph := buf.phdr mem i
  if ph.type ≠ 1 ∨ ph.memsz = 0 then x
  else
    let (ok, s) := fw.allocatePages x.1 ph.paddr ph.pages
    (s, if ok then x.2 ++ [(ph.paddr, ph.pages)] else x.2)

def viosReserveElfPages (s : σ) : σ × List (Nat × Nat) :=
  if buf.size < 64 then (s, [])
  else if word mem buf.base 1 ≠ 0x7F ∨ word mem (buf.base + 1) 1 ≠ 69 ∨ word mem (buf.base + 2) 1 ≠ 76 ∨
      word mem (buf.base + 3) 1 ≠ 70 then (s, [])
  else (List.range (buf.phnum mem)).foldl (reserveStep fw buf mem) (s, [])

end model

/-- `a` is written for the segment: `[p_paddr, p_paddr + max(p_filesz, p_memsz))`. -/
def Phdr.Written (h : Phdr) (a : Nat) : Prop := InRange h.paddr (max h.filesz h.memsz) a

/-- The ranges cover every byte of every loadable segment. -/
def Reserves (buf : ElfBuf) (mem : Nat → Byte) (ranges : List (Nat × Nat)) : Prop :=
  ∀ i < buf.phnum mem, (buf.phdr mem i).loads → ∀ a, (buf.phdr mem i).Written a →
    ∃ r ∈ ranges, PageOf r.1 r.2 (a / 4096)

/-- The request for header `i` is one the firmware grants: the address is aligned, the pages are free from the start, and
no earlier request that was granted has one of them. -/
def Granted (hs : Nat → Phdr) (free : Nat → Prop) (i : Nat) : Prop :=
  (hs i).loads ∧ 0 < (hs i).pages ∧ (hs i).paddr % 4096 = 0 ∧ (∀ g, PageOf (hs i).paddr (hs i).pages g → free g) ∧
    ∀ j, (_ : j < i) → Granted hs free j →
      ∀ g, PageOf (hs j).paddr (hs j).pages g → ¬PageOf (hs i).paddr (hs i).pages g

section
variable {σ : Type} {fw : Firmware σ} {buf : ElfBuf} {mem : Nat → Byte} {s : σ} {free : Nat → Prop}

/-- The firmware and the ranges behind the first `k` headers. -/
structure Reserved (fw : Firmware σ) (buf : ElfBuf) (mem : Nat → Byte) (free : Nat → Prop) (k : Nat)
    (x : σ × List (Nat × Nat)) : Prop where
  left : ∀ g, fw.free x.1 g ↔ free g ∧
    ∀ j < k, Granted (buf.phdr mem) free j → ¬PageOf (buf.phdr mem j).paddr (buf.phdr mem j).pages g
  ranges : ∀ g, (∃ r ∈ x.2, PageOf r.1 r.2 g) ↔
    ∃ j < k, Granted (buf.phdr mem) free j ∧ PageOf (buf.phdr mem j).paddr (buf.phdr mem j).pages g

/-- What the firmware says is what `Granted` says, empty requests apart. -/
theorem Reserved.ok_iff (hfw : fw.AllocatesAddress) {k : Nat} {x : σ × List (Nat × Nat)}
    (hx : Reserved fw buf mem free k x) (hl : (buf.phdr mem k).loads) (hn : 0 < (buf.phdr mem k).pages) :
    (fw.allocatePages x.1 (buf.phdr mem k).paddr (buf.phdr mem k).pages).1 = true ↔ Granted (buf.phdr mem) free k := by
  rw [Granted]
  constructor
  · intro hok
    have haligned : (buf.phdr mem k).paddr % 4096 = 0 := by
      by_contra hne
      exact Bool.noConfusion (hok.symm.trans (hfw.unaligned _ _ _ hne))
    have hfree : ∀ g, PageOf (buf.phdr mem k).paddr (buf.phdr mem k).pages g → fw.free x.1 g := by
      intro g hg
      by_contra hnot
      exact Bool.noConfusion (hok.symm.trans (hfw.taken _ _ _ g hg hnot))
    exact ⟨hl, hn, haligned, fun g hg => ((hx.left g).mp (hfree g hg)).1,
      fun j hj hgr g hgj hg => ((hx.left g).mp (hfree g hg)).2 j hj hgr hgj⟩
  · rintro ⟨-, -, haligned, hfree, hearlier⟩
    refine hfw.grants _ _ _ hn haligned fun g hg => (hx.left g).mpr ⟨hfree g hg, fun j hj hgr hgj => ?_⟩
    exact hearlier j hj hgr g hgj hg

theorem Reserved.skip {k : Nat} {x : σ × List (Nat × Nat)} (hx : Reserved fw buf mem free k x) {x' : σ × List (Nat × Nat)}
    (hnot : ¬Granted (buf.phdr mem) free k) (hfree : ∀ g, fw.free x'.1 g ↔ fw.free x.1 g)
    (hranges : ∀ g, (∃ r ∈ x'.2, PageOf r.1 r.2 g) ↔ ∃ r ∈ x.2, PageOf r.1 r.2 g) :
    Reserved fw buf mem free (k + 1) x' := by
  refine ⟨fun g => ?_, fun g => ?_⟩
  · rw [hfree, hx.left]
    refine and_congr_right fun _ => ⟨fun h j hj hgr => ?_, fun h j hj => h j (by omega)⟩
    rcases Nat.lt_succ_iff_lt_or_eq.mp hj with hlt | rfl
    · exact h j hlt hgr
    · exact absurd hgr hnot
  · rw [hranges, hx.ranges]
    constructor
    · rintro ⟨j, hj, h⟩
      exact ⟨j, by omega, h⟩
    · rintro ⟨j, hj, hgr, h⟩
      rcases Nat.lt_succ_iff_lt_or_eq.mp hj with hlt | rfl
      · exact ⟨j, hlt, hgr, h⟩
      · exact absurd hgr hnot

theorem Reserved.step (hfw : fw.AllocatesAddress) {k : Nat} {x : σ × List (Nat × Nat)}
    (hx : Reserved fw buf mem free k x) : Reserved fw buf mem free (k + 1) (reserveStep fw buf mem x k) := by
  rw [reserveStep]
  by_cases hl : (buf.phdr mem k).loads
  · rw [if_neg (by rintro (h | h); exacts [h hl.1, hl.2 h])]
    dsimp only
    set h := buf.phdr mem k with hh
    by_cases hn : 0 < h.pages
    · by_cases hok : (fw.allocatePages x.1 h.paddr h.pages).1 = true
      · have hgr : Granted (buf.phdr mem) free k := (hx.ok_iff hfw hl hn).mp hok
        rw [hok, if_pos rfl]
        refine ⟨fun g => ?_, fun g => ?_⟩
        · rw [hfw.granted _ _ _ hok, hx.left, and_assoc]
          refine and_congr_right fun _ => ⟨fun hg j hj hgr' => ?_,
            fun hg => ⟨fun j hj => hg j (by omega), hg k (by omega) hgr⟩⟩
          rcases Nat.lt_succ_iff_lt_or_eq.mp hj with hlt | rfl
          · exact hg.1 j hlt hgr'
          · exact hg.2
        · constructor
          · rintro ⟨r, hr, hg⟩
            rcases List.mem_append.mp hr with hold | hnew
            · obtain ⟨j, hj, h⟩ := (hx.ranges g).mp ⟨r, hold, hg⟩
              exact ⟨j, by omega, h⟩
            · rw [List.mem_singleton.mp hnew] at hg
              exact ⟨k, by omega, hgr, hg⟩
          · rintro ⟨j, hj, hgr', hg⟩
            rcases Nat.lt_succ_iff_lt_or_eq.mp hj with hlt | rfl
            · obtain ⟨r, hr, hg⟩ := (hx.ranges g).mpr ⟨j, hlt, hgr', hg⟩
              exact ⟨r, List.mem_append_left _ hr, hg⟩
            · exact ⟨(h.paddr, h.pages), by simp, hg⟩
      · have hnot : ¬Granted (buf.phdr mem) free k := fun hgr => hok ((hx.ok_iff hfw hl hn).mpr hgr)
        rw [Bool.not_eq_true] at hok
        rw [hok, if_neg Bool.false_ne_true]
        exact hx.skip hnot (hfw.refused _ _ _ hok) fun g => Iff.rfl
    · -- a request for no pages changes nothing, granted or not
      have hz : h.pages = 0 := by omega
      have hempty : ∀ g, ¬PageOf h.paddr h.pages g := by
        rintro g ⟨hlo, hhi⟩
        omega
      refine hx.skip (fun hgr => ?_) (fun g => ?_) fun g => ?_
      · rw [Granted] at hgr
        exact hn hgr.2.1
      · cases hok : (fw.allocatePages x.1 h.paddr h.pages).1 with
        | true => rw [hfw.granted _ _ _ hok, and_iff_left (hempty g)]
        | false => exact hfw.refused _ _ _ hok g
      · split
        · constructor
          · rintro ⟨r, hr, hg⟩
            rcases List.mem_append.mp hr with hold | hnew
            · exact ⟨r, hold, hg⟩
            · rw [List.mem_singleton.mp hnew] at hg
              exact absurd hg (hempty g)
          · rintro ⟨r, hr, hg⟩
            exact ⟨r, List.mem_append_left _ hr, hg⟩
        · rfl
  · have hskip : (buf.phdr mem k).type ≠ 1 ∨ (buf.phdr mem k).memsz = 0 := by
      by_contra hnot
      rw [not_or, not_not] at hnot
      exact hl hnot
    rw [if_pos hskip]
    refine hx.skip (fun hgr => ?_) (fun g => Iff.rfl) fun g => Iff.rfl
    rw [Granted] at hgr
    exact hl hgr.1

theorem reserved_foldl (hfw : fw.AllocatesAddress) (buf : ElfBuf) (mem : Nat → Byte) (s : σ) (n : Nat) :
    Reserved fw buf mem (fw.free s) n ((List.range n).foldl (reserveStep fw buf mem) (s, [])) := by
  induction n with
  | zero =>
    refine ⟨fun g => ?_, fun g => ?_⟩
    · exact ⟨fun h => ⟨h, fun j hj => absurd hj (Nat.not_lt_zero j)⟩, fun h => h.1⟩
    · simp
  | succ n ih =>
    rw [List.range_succ, List.foldl_append]
    exact ih.step hfw

theorem viosReserveElfPages_eq {arch : Arch} (hv : buf.valid mem arch = true) : viosReserveElfPages fw buf mem s =
    (List.range (buf.phnum mem)).foldl (reserveStep fw buf mem) (s, []) := by
  have hsize := ElfBuf.size_of_valid hv
  rw [ElfBuf.valid, Bool.and_eq_true] at hv
  obtain ⟨-, hall⟩ := hv
  simp only [elfChecks, List.all_cons, Bool.and_eq_true, beq_iff_eq, Nat.add_zero] at hall
  obtain ⟨h0, h1, h2, h3, -⟩ := hall
  rw [viosReserveElfPages, if_neg (by omega), if_neg]
  simp [h0, h1, h2, h3]

end

/-! ## What is written -/

/-- An address of the ELF header or of a program header. -/
def ElfBuf.Headers (buf : ElfBuf) (mem : Nat → Byte) (a : Nat) : Prop :=
  InRange buf.base 64 a ∨ ∃ i < buf.phnum mem, InRange (buf.phAddr mem i) 56 a

/-- No segment goes over the headers, whatever the sizes in them. -/
def OffHeaders (buf : ElfBuf) (mem : Nat → Byte) : Prop :=
  ∀ i < buf.phnum mem, (buf.phdr mem i).loads → ∀ a, (buf.phdr mem i).Written a → ¬buf.Headers mem a

section
variable {buf : ElfBuf} {m : Machine} {mem mem' mem₀ : Nat → Byte} {keep : Nat → Prop}

theorem SameOn.ehdr_eq (h : SameOn keep mem mem') (hk : ∀ a, InRange buf.base 64 a → keep a) :
    buf.phnum mem = buf.phnum mem' ∧ buf.phoff mem = buf.phoff mem' ∧ buf.phentsize mem = buf.phentsize mem' ∧
      buf.entry mem = buf.entry mem' :=
  ⟨h.word_eq hk 56 2 (by omega), h.word_eq hk 32 8 (by omega), h.word_eq hk 54 2 (by omega),
    h.word_eq hk 24 8 (by omega)⟩

theorem SameOn.phAddr_eq (h : SameOn keep mem mem') (hk : ∀ a, InRange buf.base 64 a → keep a) (i : Nat) :
    buf.phAddr mem i = buf.phAddr mem' i := by
  obtain ⟨-, hoff, hent, -⟩ := h.ehdr_eq hk
  rw [ElfBuf.phAddr, ElfBuf.phAddr, hoff, hent]

theorem SameOn.phdr_eq (h : SameOn keep mem mem') (hk : ∀ a, InRange buf.base 64 a → keep a) {i : Nat}
    (hki : ∀ a, InRange (buf.phAddr mem i) 56 a → keep a) : buf.phdr mem i = buf.phdr mem' i := by
  have htype := h.word_eq hki 0 4 (by omega)
  have hoffset := h.word_eq hki 8 8 (by omega)
  have hpaddr := h.word_eq hki 24 8 (by omega)
  have hfilesz := h.word_eq hki 32 8 (by omega)
  have hmemsz := h.word_eq hki 40 8 (by omega)
  rw [Nat.add_zero] at htype
  simp only [ElfBuf.phdr, ← h.phAddr_eq hk i, htype, hoffset, hpaddr, hfilesz, hmemsz]

theorem written_iff {h : Phdr} {a : Nat} : h.Written a ↔
    InRange h.paddr h.filesz a ∨ InRange (h.paddr + h.filesz) (h.memsz - h.filesz) a := by
  rw [← inRange_add, Phdr.Written]
  by_cases hle : h.filesz ≤ h.memsz
  · rw [Nat.max_eq_right hle, Nat.add_sub_cancel' hle]
  · rw [Nat.max_eq_left (by omega), Nat.sub_eq_zero_of_le (by omega), Nat.add_zero]

theorem mem_load_writes (m : Machine) (ph : Nat) (h : Phdr) (hfilesz : word m.mem (ph + 32) 8 = h.filesz)
    (hmemsz : word m.mem (ph + 40) 8 = h.memsz) (hoff : ∀ a, h.Written a → ¬InRange ph 56 a) (a : Nat) :
    (a ∈ (zeroBss ph h.paddr (copyFile buf ph h.paddr m)).writes ↔ a ∈ m.writes ∨ h.Written a) ∧
      (¬h.Written a → (zeroBss ph h.paddr (copyFile buf ph h.paddr m)).mem a = m.mem a) := by
  have hsame : SameOn (InRange ph 56) m.mem (copyFile buf ph h.paddr m).mem := by
    intro b hb
    refine (copyFile_mem_other fun hr => ?_).symm
    rw [hfilesz] at hr
    exact hoff b (written_iff.mpr (.inl hr)) hb
  have hfilesz' := (hsame.word_eq (fun _ hb => hb) 32 8 (by omega)).symm.trans hfilesz
  have hmemsz' := (hsame.word_eq (fun _ hb => hb) 40 8 (by omega)).symm.trans hmemsz
  rw [mem_zeroBss_writes, mem_copyFile_writes, hfilesz, hfilesz', hmemsz', or_assoc, ← written_iff]
  refine ⟨Iff.rfl, fun hout => ?_⟩
  rw [written_iff, not_or] at hout
  rw [zeroBss_mem_other, copyFile_mem_other]
  · rw [hfilesz]
    exact hout.1
  · rw [hfilesz', hmemsz']
    exact hout.2

theorem mem_elfStep_writes {i : Nat} (hoff : (buf.phdr m.mem i).loads → ∀ a, (buf.phdr m.mem i).Written a →
      ¬InRange (buf.phAddr m.mem i) 56 a) (a : Nat) :
    (a ∈ (elfStep buf i m).writes ↔ a ∈ m.writes ∨ ((buf.phdr m.mem i).loads ∧ (buf.phdr m.mem i).Written a)) ∧
      (¬((buf.phdr m.mem i).loads ∧ (buf.phdr m.mem i).Written a) → (elfStep buf i m).mem a = m.mem a) := by
  by_cases hl : (buf.phdr m.mem i).loads
  · rw [and_iff_right hl, elfStep_eq, if_neg (not_not.mpr hl.1), if_neg hl.2]
    exact mem_load_writes (((buf.readHeader i m).seen (buf.phAddr m.mem i + 40) 8).seen (buf.phAddr m.mem i + 24) 8)
      (buf.phAddr m.mem i) (buf.phdr m.mem i) rfl rfl (hoff hl) a
  · obtain ⟨hmem, hwrites⟩ := elfStep_skipped_mem hl
    rw [hmem, hwrites]
    exact ⟨⟨.inl, fun h => h.resolve_right fun h => hl h.1⟩, fun _ => rfl⟩

/-- The first `k` headers have been followed. -/
structure Wrote (buf : ElfBuf) (mem₀ : Nat → Byte) (k : Nat) (m : Machine) : Prop where
  writes : ∀ a, a ∈ m.writes ↔ ∃ i < k, (buf.phdr mem₀ i).loads ∧ (buf.phdr mem₀ i).Written a
  other : ∀ a, (∀ i < k, ¬((buf.phdr mem₀ i).loads ∧ (buf.phdr mem₀ i).Written a)) → m.mem a = mem₀ a

theorem Wrote.same (hoff : OffHeaders buf mem₀) {k : Nat} (hk : k ≤ buf.phnum mem₀) (hw : Wrote buf mem₀ k m) :
    SameOn (buf.Headers mem₀) mem₀ m.mem :=
  fun a ha => (hw.other a fun i hi h => hoff i (by omega) h.1 a h.2 ha).symm

theorem Wrote.step (hoff : OffHeaders buf mem₀) {k : Nat} (hk : k < buf.phnum mem₀) (hw : Wrote buf mem₀ k m) :
    Wrote buf mem₀ (k + 1) (elfStep buf k (m.seen (buf.base + 56) 2)) := by
  have hsame := hw.same hoff hk.le
  have haddr := hsame.phAddr_eq (fun _ ha => .inl ha) k
  have hphdr : buf.phdr mem₀ k = buf.phdr (m.seen (buf.base + 56) 2).mem k :=
    hsame.phdr_eq (fun _ ha => .inl ha) fun _ ha => .inr ⟨k, hk, ha⟩
  have hown : (buf.phdr mem₀ k).loads → ∀ a, (buf.phdr mem₀ k).Written a → ¬InRange (buf.phAddr mem₀ k) 56 a :=
    fun hl a ha hin => hoff k hk hl a ha (.inr ⟨k, hk, hin⟩)
  rw [hphdr, haddr] at hown
  have hstep := mem_elfStep_writes (m := m.seen (buf.base + 56) 2) hown
  rw [← hphdr] at hstep
  refine ⟨fun a => ?_, fun a ha => ?_⟩
  · rw [(hstep a).1, seen_writes, hw.writes]
    constructor
    · rintro (⟨i, hi, h⟩ | h)
      · exact ⟨i, by omega, h⟩
      · exact ⟨k, by omega, h⟩
    · rintro ⟨i, hi, h⟩
      rcases Nat.lt_succ_iff_lt_or_eq.mp hi with hlt | rfl
      · exact .inl ⟨i, hlt, h⟩
      · exact .inr h
  · rw [(hstep a).2 (ha k (by omega))]
    exact hw.other a fun i hi => ha i (by omega)

theorem elfLoop_wrote (hoff : OffHeaders buf mem₀) {n k : Nat} (hk : k ≤ buf.phnum mem₀) (hn : buf.phnum mem₀ < k + n)
    (hw : Wrote buf mem₀ k m) : Wrote buf mem₀ (buf.phnum mem₀) (elfLoop buf n k m) := by
  induction n generalizing k m with
  | zero => omega
  | succ n ih =>
    have hphnum := ((hw.same hoff hk).ehdr_eq fun _ ha => .inl ha).1
    rw [elfLoop_succ, ← hphnum]
    by_cases hlt : k < buf.phnum mem₀
    · rw [if_pos hlt]
      exact ih hlt (by omega) (hw.step hoff hlt)
    · obtain rfl : k = buf.phnum mem₀ := by omega
      rw [if_neg hlt]
      exact ⟨hw.writes, hw.other⟩

/-- The whole call, for an image that does not overwrite its headers. -/
theorem elf64Load_wrote {arch : Arch} (hv : buf.valid mem₀ arch = true) (hoff : OffHeaders buf mem₀) :
    (elf64Load arch buf ⟨mem₀, [], []⟩).1 = buf.entry mem₀ ∧
      Wrote buf mem₀ (buf.phnum mem₀) (elf64Load arch buf ⟨mem₀, [], []⟩).2 := by
  obtain ⟨m, rfl, -, hwrites, hload⟩ := elf64Load_valid hv
  have hstart : Wrote buf m.mem 0 m := by
    refine ⟨fun a => ?_, fun a _ => rfl⟩
    rw [hwrites]
    simp
  have hphnum := buf.phnum_lt m.mem
  have hw := elfLoop_wrote (n := 65536) hoff (Nat.zero_le _) (by omega) hstart
  have hentry := ((hw.same hoff le_rfl).ehdr_eq fun _ ha => .inl ha).2.2.2
  rw [hload]
  exact ⟨hentry.symm, hw.writes, hw.other⟩

theorem mem_elf64Load_writes {arch : Arch} (hv : buf.valid mem₀ arch = true) (hoff : OffHeaders buf mem₀) (a : Nat) :
    a ∈ (elf64Load arch buf ⟨mem₀, [], []⟩).2.writes ↔
      ∃ i < buf.phnum mem₀, (buf.phdr mem₀ i).loads ∧ (buf.phdr mem₀ i).Written a :=
  (elf64Load_wrote hv hoff).2.writes a

end

/-- The reservation covers the segments exactly when each page touched is in a request that is granted; and the segments
are what is written, unless the image overwrites its headers. -/
theorem reserves_iff {σ : Type} (fw : Firmware σ) (hfw : fw.AllocatesAddress) (arch : Arch) (buf : ElfBuf)
    (mem : Nat → Byte) (hv : buf.valid mem arch = true) (s : σ) :
    (Reserves buf mem (viosReserveElfPages fw buf mem s).2 ↔
      ∀ i < buf.phnum mem, (buf.phdr mem i).loads → ∀ a, (buf.phdr mem i).Written a →
        ∃ j < buf.phnum mem, Granted (buf.phdr mem) (fw.free s) j ∧
          PageOf (buf.phdr mem j).paddr (buf.phdr mem j).pages (a / 4096)) ∧
      (OffHeaders buf mem → ∀ a, a ∈ (elf64Load arch buf ⟨mem, [], []⟩).2.writes ↔
        ∃ i < buf.phnum mem, (buf.phdr mem i).loads ∧ (buf.phdr mem i).Written a) := by
  have hranges := (reserved_foldl hfw buf mem s (buf.phnum mem)).ranges
  refine ⟨?_, fun hoff => mem_elf64Load_writes hv hoff⟩
  rw [viosReserveElfPages_eq hv, Reserves]
  simp only [hranges]

/-- A firmware that only keeps track of the free pages. -/
def pageMap : Firmware (Nat → Bool) where
  free := fun s g => s g = true
  allocatePages := fun s addr n =>
    if addr % 4096 = 0 ∧ ∀ k < n, s (addr / 4096 + k) = true then
      (true, fun g => s g && !(decide (addr / 4096 ≤ g) && decide (g < addr / 4096 + n)))
    else (false, s)

theorem pageMap_grant {s : Nat → Bool} {addr n : Nat} (h : addr % 4096 = 0 ∧ ∀ k < n, s (addr / 4096 + k) = true) :
    pageMap.allocatePages s addr n =
      (true, fun g => s g && !(decide (addr / 4096 ≤ g) && decide (g < addr / 4096 + n))) := if_pos h

theorem pageMap_refuse {s : Nat → Bool} {addr n : Nat} (h : ¬(addr % 4096 = 0 ∧ ∀ k < n, s (addr / 4096 + k) = true)) :
    pageMap.allocatePages s addr n = (false, s) := if_neg h

theorem pageMap_allocatesAddress : pageMap.AllocatesAddress where
  unaligned := by
    intro s addr n h
    rw [pageMap_refuse fun hc => h hc.1]
  taken := by
    intro s addr n g hg h
    rw [pageMap_refuse]
    intro hc
    have hfree := hc.2 (g - addr / 4096) (by rw [PageOf] at hg; omega)
    rw [Nat.add_sub_cancel' hg.1] at hfree
    exact h hfree
  grants := by
    intro s addr n _ ha h
    rw [pageMap_grant ⟨ha, fun k hk => h _ ⟨by omega, by omega⟩⟩]
  granted := by
    intro s addr n hok g
    by_cases hc : addr % 4096 = 0 ∧ ∀ k < n, s (addr / 4096 + k) = true
    · rw [pageMap_grant hc]
      show (s g && !(decide (addr / 4096 ≤ g) && decide (g < addr / 4096 + n))) = true ↔ s g = true ∧ ¬PageOf addr n g
      rw [Bool.and_eq_true, Bool.not_eq_true', ← Bool.not_eq_true, Bool.and_eq_true, decide_eq_true_eq, decide_eq_true_eq]
      rfl
    · rw [pageMap_refuse hc] at hok
      cases hok
  refused := by
    intro s addr n hok g
    by_cases hc : addr % 4096 = 0 ∧ ∀ k < n, s (addr / 4096 + k) = true
    · rw [pageMap_grant hc] at hok
      cases hok
    · rw [pageMap_refuse hc]

/-- The two segments lie at the start of pages 2 and 3. -/
theorem reserves_twoSegments : Reserves twoBuf (memOf (twoSegments false))
    (viosReserveElfPages pageMap twoBuf (memOf (twoSegments false)) fun _ => true).2 := by
  apply (reserves_iff pageMap pageMap_allocatesAddress .x86_64 twoBuf (memOf (twoSegments false)) (by decide) _).1.mpr
  obtain ⟨hnum, h0, h1⟩ := twoSegments_phdr false
  have hcases : ∀ i < 2, i = 0 ∨ i = 1 := by omega
  have hgranted : ∀ i < 2, Granted (twoBuf.phdr (memOf (twoSegments false))) (pageMap.free fun _ => true) i := by
    intro i hi
    rw [Granted]
    rcases hcases i hi with rfl | rfl
    · rw [h0]
      exact ⟨⟨rfl, by decide⟩, by decide, by decide, fun _ _ => rfl, fun j hj => absurd hj (Nat.not_lt_zero j)⟩
    · rw [h1]
      refine ⟨⟨rfl, by decide⟩, by decide, by decide, fun _ _ => rfl, fun j hj _ g hg => ?_⟩
      obtain rfl : j = 0 := by omega
      rw [h0] at hg
      exact fun hg' => absurd (lt_of_le_of_lt hg'.1 hg.2) (by decide)
  rw [hnum]
  intro i hi _ a ha
  refine ⟨i, hi, hgranted i hi, ?_⟩
  rcases hcases i hi with rfl | rfl
  · rw [h0] at ha ⊢
    have hrange := (inRange_iff (by decide)).mp ha
    exact ⟨Nat.div_le_div_right hrange.1, Nat.div_lt_of_lt_mul (lt_of_lt_of_le hrange.2 (by decide))⟩
  · rw [h1] at ha ⊢
    have hrange := (inRange_iff (by decide)).mp ha
    exact ⟨Nat.div_le_div_right hrange.1, Nat.div_lt_of_lt_mul (lt_of_lt_of_le hrange.2 (by decide))⟩

/-- One segment in the middle of a page. -/
def unalignedImage : List Byte := elfImage 0x2800 [⟨1, 0, 0x2800, 2, 2⟩]

theorem unalignedImage_not_reserved : (bufOf 120).valid (memOf unalignedImage) .x86_64 = true ∧
    ¬Reserves (bufOf 120) (memOf unalignedImage)
      (viosReserveElfPages pageMap (bufOf 120) (memOf unalignedImage) fun _ => true).2 := by
  refine ⟨by decide, fun h => ?_⟩
  have hnone : (viosReserveElfPages pageMap (bufOf 120) (memOf unalignedImage) fun _ => true).2 = [] := by
    decide
  have hphdr : (bufOf 120).phdr (memOf unalignedImage) 0 = ⟨1, 0, 0x2800, 2, 2⟩ := by decide
  obtain ⟨r, hr, -⟩ :=
    h 0 (by decide) (by rw [hphdr]; exact ⟨rfl, by decide⟩) 0x2800 (by rw [hphdr]; exact ⟨0, by decide, rfl⟩)
  rw [hnone] at hr
  exact List.not_mem_nil hr

end SakuruBoot

import SakuruBoot.Uefi.DiscoveryFacts
import SakuruBoot.Uefi.LoaderCmdline

/-!
# The initrd beside a kernel file

`scan_dir_uefi` looks for an initrd among fixed names and two names derived from the suffix of the kernel. The derived
names come first in an array that ends at a null pointer, so that without a suffix no name is tried at all; the second
is built in 80 bytes, which a suffix of 57 overruns; and a path is cut at 255 bytes before it is opened.
`InitrdFound` collects what has to be the case for the search to be right.
-/

namespace SakuruBoot
open CStr

/-! ## What should be found -/

/-- `S` of a kernel `vmlinuz-S`, cut to 63 bytes. -/
def kernelSuffix (name : List Byte) : List Byte :=
  if strStarts name (lit "vmlinuz-") then (name.drop 8).take 63 else []

/-- The names made from a suffix, in full. -/
def derivedNames (suffix : List Byte) : List (List Byte) :=
  if suffix = [] then []
  else [lit "initramfs-" ++ suffix ++ lit ".img", lit "initramfs-" ++ suffix ++ lit "-fallback.img"]

def generalNames : List (List Byte) :=
  [lit "initramfs-linux.img", lit "initramfs-linux-fallback.img", lit "initrd.img", lit "initramfs.img",
    lit "initrd", lit "initramfs"]

/-- The names an initrd may have beside a kernel, the preferred ones first. -/
def initrdNames (name : List Byte) : List (List Byte) := derivedNames (kernelSuffix name) ++ generalNames

/-- The path of a file of a directory, however long. -/
def siblingPath (dirPath child : List Byte) : List Byte :=
  str dirPath ++ (if str dirPath ≠ [] ∧ (str dirPath).getLast? ≠ some 47 then [47] else []) ++ child

def FatVolume.HasSibling (vol : FatVolume) (dirPath child : List Byte) : Bool := vol.opens (siblingPath dirPath child)

/-- The path of the first of the names that exists, nothing when none does. -/
def firstSibling (vol : FatVolume) (dirPath : List Byte) (names : List (List Byte)) : List Byte :=
  ((names.find? (vol.HasSibling dirPath)).map (siblingPath dirPath)).getD []

/-- The initrd of an entry is the first sibling, and the derived names are complete in their 80 bytes. -/
structure AttachesInitrd (vol : FatVolume) (dirPath name : List Byte) (e : BootEntry) : Prop where
  initrd : e.initrd = firstSibling vol dirPath (initrdNames name)
  complete : (initrdCandidates name).take 2 = derivedNames (kernelSuffix name)
  fits : ∀ c ∈ (initrdCandidates name).take 2, c.length + 1 ≤ 80

/-! ## When it is -/

/-- What is left of a path in 256 bytes. -/
def cutPath (dirPath child : List Byte) : List Byte := (siblingPath dirPath child).take 255

/-- The first name there under its path or under what is left of it has a path that fits, or what is left of it is the
path to be found. -/
def PathFits (vol : FatVolume) (dirPath : List Byte) (names : List (List Byte)) : Prop :=
  ∀ c, names.find? (fun c => vol.HasSibling dirPath c || vol.opens (cutPath dirPath c)) = some c →
    (siblingPath dirPath c).length ≤ 255 ∨
      vol.HasSibling dirPath c = false ∧ firstSibling vol dirPath names = cutPath dirPath c

/-- Without a suffix, there is nothing to be found; with one, it is short enough and so are the paths. -/
def InitrdFound (vol : FatVolume) (dirPath name : List Byte) : Prop :=
  if kernelSuffix name = [] then ∀ c ∈ generalNames, vol.HasSibling dirPath c = false
  else (kernelSuffix name).length ≤ 56 ∧ PathFits vol dirPath (initrdNames name)

/-! ## Paths -/

theorem str_siblingPath {dirPath child : List Byte} (hchild : ∀ c ∈ child, c ≠ 0) :
    str (siblingPath dirPath child) = siblingPath dirPath child := by
  apply str_of_no_nul
  intro c hc
  simp only [siblingPath, List.mem_append] at hc
  rcases hc with (hc | hc) | hc
  · exact (mem_takeC hc).1
  · split_ifs at hc
    · rw [List.mem_singleton.mp hc]
      decide
    · cases hc
  · exact hchild c hc

theorem efiPathJoin_eq_cutPath (dirPath : List Byte) {child : List Byte} (hchild : ∀ c ∈ child, c ≠ 0)
    (hhead : child.head? ≠ some 47) : efiPathJoin dirPath child 256 = cutPath dirPath child := by
  have hdrop : (str child).dropWhile (· == 47) = child := by
    rw [str_of_no_nul hchild]
    cases child with
    | nil => rfl
    | cons c child => exact List.dropWhile_cons_of_neg (by simpa using hhead)
  unfold efiPathJoin cutPath siblingPath
  dsimp only
  rw [hdrop]
  rcases Nat.lt_or_ge (str dirPath).length 255 with hlt | hge
  · have htake : (str dirPath).take (256 - 1) = str dirPath := List.take_of_length_le (by omega)
    rw [htake]
    have hlen : (str dirPath).length + 1 < 256 := by omega
    simp only [hlen, and_true]
    split_ifs <;> simp
  · -- the directory alone fills the buffer
    have hfull : ((str dirPath).take 255).length = 255 := by simp [hge]
    rw [if_neg (by rw [hfull]; omega), List.append_assoc, List.take_append_of_le_length hfull.ge,
      List.take_append_of_le_length hge, List.take_take, Nat.min_self]

theorem length_cutPath_le (dirPath child : List Byte) : (cutPath dirPath child).length ≤ 255 := List.length_take_le _ _

theorem cutPath_of_le {dirPath child : List Byte} (h : (siblingPath dirPath child).length ≤ 255) :
    cutPath dirPath child = siblingPath dirPath child := List.take_of_length_le h

theorem siblingPath_ne_nil (dirPath : List Byte) {child : List Byte} (h : child ≠ []) :
    siblingPath dirPath child ≠ [] := List.append_ne_nil_of_right_ne_nil _ h

/-! ## The search -/

/-- What the loop over the candidates leaves in `initrd_path`. -/
def searchPath (vol : FatVolume) (dirPath : List Byte) (names : List (List Byte)) : List Byte :=
  ((names.find? fun c => vol.opens (cutPath dirPath c)).map (cutPath dirPath)).getD []

theorem length_searchPath_le (vol : FatVolume) (dirPath : List Byte) (names : List (List Byte)) :
    (searchPath vol dirPath names).length ≤ 255 := by
  unfold searchPath
  cases names.find? fun c => vol.opens (cutPath dirPath c) with
  | none => exact Nat.zero_le _
  | some c => exact length_cutPath_le dirPath c

/-- Trying the cut paths finds the first sibling exactly when the cut does no harm. -/
theorem searchPath_eq_iff (vol : FatVolume) (dirPath : List Byte) (names : List (List Byte)) :
    searchPath vol dirPath names = firstSibling vol dirPath names ↔ PathFits vol dirPath names := by
  induction names with
  | nil => exact ⟨fun _ => nofun, fun _ => rfl⟩
  | cons c names ih =>
    -- the first name is there under its path, only under the cut path, or not at all
    cases hfull : vol.HasSibling dirPath c with
    | true =>
      have hfirst : firstSibling vol dirPath (c :: names) = siblingPath dirPath c := by
        simp [firstSibling, hfull]
      have hfound : (c :: names).find? (fun c => vol.HasSibling dirPath c || vol.opens (cutPath dirPath c)) =
          some c := by simp [hfull]
      rw [hfirst]
      constructor
      · intro heq c' hc'
        have hlen := length_searchPath_le vol dirPath (c :: names)
        rw [heq] at hlen
        rw [hfound] at hc'
        exact .inl (Option.some.inj hc' ▸ hlen)
      · intro hfits
        rcases hfits c hfound with hle | ⟨hno, -⟩
        · have hcut : vol.opens (cutPath dirPath c) = true := by rw [cutPath_of_le hle]; exact hfull
          have hsearch : searchPath vol dirPath (c :: names) = cutPath dirPath c := by simp [searchPath, hcut]
          rw [hsearch, cutPath_of_le hle]
        · rw [hfull] at hno
          cases hno
    | false =>
      have hfirst : firstSibling vol dirPath (c :: names) = firstSibling vol dirPath names := by
        simp [firstSibling, hfull]
      cases hcut : vol.opens (cutPath dirPath c) with
      | true =>
        have hlong : ¬(siblingPath dirPath c).length ≤ 255 := by
          intro hle
          rw [cutPath_of_le hle] at hcut
          exact Bool.false_ne_true (hfull.symm.trans hcut)
        have hsearch : searchPath vol dirPath (c :: names) = cutPath dirPath c := by simp [searchPath, hcut]
        have hfound : (c :: names).find? (fun c => vol.HasSibling dirPath c || vol.opens (cutPath dirPath c)) =
            some c := by simp [hcut]
        rw [hsearch]
        constructor
        · intro heq c' hc'
          rw [hfound] at hc'
          obtain rfl := Option.some.inj hc'
          exact .inr ⟨hfull, heq.symm⟩
        · intro hfits
          exact ((hfits c hfound).resolve_left hlong).2.symm
      | false =>
        have hsearch : searchPath vol dirPath (c :: names) = searchPath vol dirPath names := by simp [searchPath, hcut]
        rw [hsearch, hfirst, ih]
        simp [PathFits, hfull, hcut, hfirst]

/-! ## The candidates -/

theorem initrdCandidates_eq (name : List Byte) : initrdCandidates name =
    if kernelSuffix name = [] then []
    else [lit "initramfs-" ++ (kernelSuffix name).take 64 ++ lit ".img",
      lit "initramfs-" ++ (kernelSuffix name).take 60 ++ lit "-fallback.img"] ++ generalNames := rfl

theorem initrdCandidates_of_short {name : List Byte} (hne : kernelSuffix name ≠ [])
    (hshort : (kernelSuffix name).length ≤ 56) : initrdCandidates name = initrdNames name := by
  rw [initrdCandidates_eq, if_neg hne, initrdNames, derivedNames, if_neg hne, List.take_of_length_le (by omega),
    List.take_of_length_le (by omega)]

theorem names_no_nul {name : List Byte} (hname : ∀ c ∈ name, c ≠ 0) :
    ∀ child ∈ initrdNames name, (∀ c ∈ child, c ≠ 0) ∧ child.head? = some 105 := by
  have hgeneral : ∀ child ∈ generalNames, (∀ c ∈ child, c ≠ 0) ∧ child.head? = some 105 := by
    have hall : generalNames.all (fun child => child.all (· != 0) && child.head? == some 105) = true := by
      decide
    simpa using hall
  have hsuffix : ∀ c ∈ kernelSuffix name, c ≠ 0 := by
    intro c hc
    unfold kernelSuffix at hc
    split_ifs at hc
    · exact hname c (List.mem_of_mem_drop (List.mem_of_mem_take hc))
    · cases hc
  have haround : ∀ post : List Byte, (∀ c ∈ post, c ≠ 0) →
      ∀ c ∈ lit "initramfs-" ++ kernelSuffix name ++ post, c ≠ 0 := by
    intro post hpost c hc
    simp only [List.mem_append] at hc
    rcases hc with (hc | hc) | hc
    · revert c
      decide +kernel
    · exact hsuffix c hc
    · exact hpost c hc
  have hhead : ∀ post : List Byte, (lit "initramfs-" ++ kernelSuffix name ++ post).head? = some 105 := by
    intro post
    have hfirst : lit "initramfs-" = 105 :: lit "nitramfs-" := by decide
    rw [hfirst]
    rfl
  intro child hchild
  rw [initrdNames, List.mem_append] at hchild
  rcases hchild with hd | hg
  · unfold derivedNames at hd
    split_ifs at hd
    · cases hd
    · rcases List.mem_pair.mp hd with rfl | rfl
      · exact ⟨haround _ (by decide +kernel), hhead _⟩
      · exact ⟨haround _ (by decide +kernel), hhead _⟩
  · exact hgeneral child hg

theorem fileEntry_initrd_of_short (vol : FatVolume) (dirPath : List Byte) {name : List Byte}
    (hname : ∀ c ∈ name, c ≠ 0) (hlinux : fileType false name = .linux) (hne : kernelSuffix name ≠ [])
    (hshort : (kernelSuffix name).length ≤ 56) :
    (fileEntry vol false dirPath name).initrd = searchPath vol dirPath (initrdNames name) := by
  have hmap : (initrdCandidates name).map (fun c => efiPathJoin dirPath c 256) =
      (initrdNames name).map (cutPath dirPath) := by
    rw [initrdCandidates_of_short hne hshort]
    apply List.map_congr_left
    intro c hc
    obtain ⟨hnul, hhead⟩ := names_no_nul hname c hc
    exact efiPathJoin_eq_cutPath dirPath hnul (by rw [hhead]; decide)
  unfold fileEntry searchPath
  dsimp only
  rw [hlinux, if_pos ⟨rfl, rfl⟩, hmap, List.find?_map]
  show (kernelEntry _ _ _ ((((initrdNames name).find? fun c => vol.opens (cutPath dirPath c)).map
    (cutPath dirPath)).bind _)).initrd = _
  cases hfind : (initrdNames name).find? fun c => vol.opens (cutPath dirPath c) with
  | none => rfl
  | some c =>
    obtain ⟨hnul, hhead⟩ := names_no_nul hname c (List.mem_of_find?_eq_some hfind)
    have hstr : str (cutPath dirPath c) = cutPath dirPath c := by rw [cutPath, str_take, str_siblingPath hnul]
    have hpath : cutPath dirPath c ≠ [] := by
      have hc : c ≠ [] := by rintro rfl; cases hhead
      intro hnil
      exact siblingPath_ne_nil dirPath hc ((List.take_eq_nil_iff.mp hnil).resolve_left (by decide))
    rw [Option.map_some, Option.bind_some, if_neg hpath, Option.getD_some]
    have hderef : (deref (cutPath dirPath c) != 0) = true := by
      rw [bne_iff_ne, ne_eq, deref_eq_zero_iff, hstr]
      exact hpath
    show (if deref (cutPath dirPath c) != 0 then strCopy (cutPath dirPath c) maxStrLen else []) = _
    rw [if_pos hderef, strCopy, hstr]
    exact List.take_of_length_le (length_cutPath_le dirPath c)

theorem fileEntry_initrd_of_no_suffix (vol : FatVolume) (dirPath : List Byte) {name : List Byte}
    (h : kernelSuffix name = []) : (fileEntry vol false dirPath name).initrd = [] := by
  unfold fileEntry
  dsimp only
  rw [initrdCandidates_eq, if_pos h]
  split_ifs <;> rfl

theorem firstSibling_eq_nil_iff (vol : FatVolume) (dirPath : List Byte) {names : List (List Byte)}
    (hnames : [] ∉ names) : firstSibling vol dirPath names = [] ↔ ∀ c ∈ names, vol.HasSibling dirPath c = false := by
  unfold firstSibling
  cases hfind : names.find? (vol.HasSibling dirPath) with
  | none => simpa using hfind
  | some c =>
    have hmem := List.mem_of_find?_eq_some hfind
    have hc : c ≠ [] := fun h => hnames (h ▸ hmem)
    constructor
    · intro hnil
      exact absurd hnil (siblingPath_ne_nil dirPath hc)
    · intro hnone
      have hhas := List.find?_some hfind
      rw [hnone c hmem] at hhas
      cases hhas

/-! ## The scan -/

/-- The entry of a kernel file has the right initrd exactly when the search can find it. -/
theorem fileEntry_attaches_iff (vol : FatVolume) (dirPath : List Byte) {name : List Byte} (hname : ∀ c ∈ name, c ≠ 0)
    (hlinux : fileType false name = .linux) :
    AttachesInitrd vol dirPath name (fileEntry vol false dirPath name) ↔ InitrdFound vol dirPath name := by
  unfold InitrdFound
  split_ifs with hsuffix
  · have hnames : initrdNames name = generalNames := by rw [initrdNames, derivedNames, if_pos hsuffix, List.nil_append]
    have hcand : initrdCandidates name = [] := by rw [initrdCandidates_eq, if_pos hsuffix]
    rw [← firstSibling_eq_nil_iff vol dirPath (by decide), ← hnames, eq_comm,
      ← fileEntry_initrd_of_no_suffix vol dirPath hsuffix]
    constructor
    · exact fun h => h.initrd
    · intro h
      refine ⟨h, ?_, ?_⟩
      · rw [hcand, derivedNames, if_pos hsuffix]
        rfl
      · rw [hcand]
        nofun
  · constructor
    · intro h
      have hshort : (kernelSuffix name).length ≤ 56 := by
        have hsecond := h.fits (lit "initramfs-" ++ (kernelSuffix name).take 60 ++ lit "-fallback.img")
          (by rw [initrdCandidates_eq, if_neg hsuffix]; simp)
        have hpre : (lit "initramfs-").length = 10 := rfl
        have hpost : (lit "-fallback.img").length = 13 := rfl
        rw [List.length_append, List.length_append, List.length_take, hpre, hpost] at hsecond
        omega
      refine ⟨hshort, ?_⟩
      rw [← searchPath_eq_iff, ← fileEntry_initrd_of_short vol dirPath hname hlinux hsuffix hshort]
      exact h.initrd
    · rintro ⟨hshort, hfits⟩
      have htake : (initrdCandidates name).take 2 = derivedNames (kernelSuffix name) := by
        rw [initrdCandidates_of_short hsuffix hshort, initrdNames, derivedNames, if_neg hsuffix]
        rfl
      refine ⟨?_, htake, ?_⟩
      · rw [fileEntry_initrd_of_short vol dirPath hname hlinux hsuffix hshort]
        exact (searchPath_eq_iff vol dirPath _).mpr hfits
      · have hpre : (lit "initramfs-").length = 10 := rfl
        have himg : (lit ".img").length = 4 := rfl
        have hpost : (lit "-fallback.img").length = 13 := rfl
        rw [htake, derivedNames, if_neg hsuffix]
        intro c hc
        rcases List.mem_pair.mp hc with rfl | rfl <;>
          rw [List.length_append, List.length_append] <;> omega

theorem scanDirUefi_added (vol : FatVolume) (dirPath : List Byte) (allowEfi : Bool) (s : ScanState) :
    ∃ added, (scanDirUefi vol dirPath allowEfi s).cfg.entries = s.cfg.entries ++ added ∧
      ∀ e ∈ added, ∃ d name, vol.Lists d name ∧ e = fileEntry vol allowEfi d name := by
  refine scanDirUefi_invariant (I := fun t => ∃ added, t.cfg.entries = s.cfg.entries ++ added ∧
    ∀ e ∈ added, ∃ d name, vol.Lists d name ∧ e = fileEntry vol allowEfi d name) ?_ dirPath
    ⟨[], (List.append_nil _).symm, nofun⟩
  rintro t d name hlists ⟨added, hentries, hadded⟩
  rcases scanFile_cases vol allowEfi d t name with hc | ⟨-, hc⟩
  · rw [hc]
    exact ⟨added, hentries, hadded⟩
  · rw [hc]
    refine ⟨added ++ [fileEntry vol allowEfi d name], ?_, ?_⟩
    · show t.cfg.entries ++ [fileEntry vol allowEfi d name] = _
      rw [hentries, List.append_assoc]
    · intro e he
      rcases List.mem_append.mp he with hold | hnew
      · exact hadded e hold
      · exact ⟨d, name, hlists, List.mem_singleton.mp hnew⟩

/-- Every entry a scan for kernels adds is that of a file it lists, and a Linux kernel has the right initrd exactly when
the search can find it. -/
theorem scanDirUefi_initrd_iff (vol : FatVolume) (dirPath : List Byte) (s : ScanState) (e : BootEntry)
    (he : e ∈ (scanDirUefi vol dirPath false s).cfg.entries.drop s.cfg.numEntries) (hlinux : e.type = .linux) :
    ∃ d name, vol.Lists d name ∧ configGuessType name = .linux ∧
      e.kernel = strCopy (efiPathJoin d name 256) maxStrLen ∧
      (AttachesInitrd vol d name e ↔ InitrdFound vol d name) := by
  obtain ⟨added, hentries, hadded⟩ := scanDirUefi_added vol dirPath false s
  rw [hentries, List.drop_left] at he
  obtain ⟨d, name, hlists, rfl⟩ := hadded e he
  have hname : ∀ c ∈ name, c ≠ 0 := by
    obtain ⟨infos, -, info, -, rfl⟩ := hlists
    exact fun c hc => (mem_takeC hc).1
  have htype : fileType false name = configGuessType name := if_neg fun h => Bool.false_ne_true h.2.1
  have hguess : configGuessType name = .linux := htype ▸ hlinux
  exact ⟨d, name, hlists, hguess, rfl, fileEntry_attaches_iff vol d hname hlinux⟩

/-- A volume with one kernel in `/boot` and one more file there. -/
def bootVolume (kernel initrd : String) : FatVolume :=
  { sfs := 1, root := 2
    dir := fun p => if p = lit "/boot" then some [⟨(lit kernel).map UInt8.toUInt16, false⟩] else none
    file := fun _ => none
    opens := fun p => p == lit "/boot/" ++ lit initrd
    entryFile := fun _ => none }

/-- `vmlinuz-linux` beside `initramfs-linux.img`. -/
theorem suffixedKernel_attached :
    ∃ e ∈ (scanDirUefi (bootVolume "vmlinuz-linux" "initramfs-linux.img") (lit "/boot") false noEntries).cfg.entries.drop
        noEntries.cfg.numEntries,
      e.type = .linux ∧ e.initrd = lit "/boot/initramfs-linux.img" ∧
      ∃ d name, (bootVolume "vmlinuz-linux" "initramfs-linux.img").Lists d name ∧ configGuessType name = .linux ∧
        e.kernel = strCopy (efiPathJoin d name 256) maxStrLen ∧
        (AttachesInitrd (bootVolume "vmlinuz-linux" "initramfs-linux.img") d name e ↔
          InitrdFound (bootVolume "vmlinuz-linux" "initramfs-linux.img") d name) := by
  have hentry : (scanDirUefi (bootVolume "vmlinuz-linux" "initramfs-linux.img") (lit "/boot") false noEntries).cfg.entries =
      [fileEntry (bootVolume "vmlinuz-linux" "initramfs-linux.img") false (lit "/boot") (lit "vmlinuz-linux")] := by
    decide
  refine ⟨_, by rw [hentry]; exact List.mem_singleton.mpr rfl, by decide, by decide, ?_⟩
  exact scanDirUefi_initrd_iff _ (lit "/boot") noEntries _ (by rw [hentry]; exact List.mem_singleton.mpr rfl)
    (by decide)

/-- `vmlinuz` beside `initrd.img`: no name is tried. -/
theorem bareKernel_not_attached :
    (bootVolume "vmlinuz" "initrd.img").HasSibling (lit "/boot") (lit "initrd.img") = true ∧
    ∃ e ∈ (scanDirUefi (bootVolume "vmlinuz" "initrd.img") (lit "/boot") false noEntries).cfg.entries.drop
        noEntries.cfg.numEntries,
      e.type = .linux ∧ e.kernel = lit "/boot/vmlinuz" ∧ e.initrd = [] ∧
      ∀ d name, (bootVolume "vmlinuz" "initrd.img").Lists d name →
        ¬AttachesInitrd (bootVolume "vmlinuz" "initrd.img") d name e := by
  have hentry : (scanDirUefi (bootVolume "vmlinuz" "initrd.img") (lit "/boot") false noEntries).cfg.entries =
      [fileEntry (bootVolume "vmlinuz" "initrd.img") false (lit "/boot") (lit "vmlinuz")] := by
    decide
  have hinitrd : (fileEntry (bootVolume "vmlinuz" "initrd.img") false (lit "/boot") (lit "vmlinuz")).initrd = [] := by
    decide
  refine ⟨by decide, _, by rw [hentry]; exact List.mem_singleton.mpr rfl, by decide, by decide,
    hinitrd, ?_⟩
  rintro d name ⟨infos, hdir, info, hinfo, rfl⟩ hattach
  simp only [bootVolume] at hdir
  split_ifs at hdir with hd
  obtain rfl := Option.some.inj hdir
  obtain rfl := List.mem_singleton.mp hinfo
  have hfirst := hattach.initrd
  rw [hinitrd, hd] at hfirst
  revert hfirst
  decide

end SakuruBoot

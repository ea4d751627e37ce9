import SakuruBoot.Common.Config

/-!
# The command line of the UEFI Linux loader (`os/linux.c`)

The UEFI `linux_load` starts the kernel as an EFI application and passes the command line as its load options. The text is
built in a buffer of 512 bytes: an `initrd=` argument when the entry has an initrd and the command line does not look as if
it had one, and then the command line. "Looks as if" is a search for `initrd=` anywhere in the text, where the kernel
looks for an argument of that name (`NamesInitrd`).
-/

namespace SakuruBoot
open CStr

def initrdPfx : List Byte := lit "initrd="

/-- Forward slashes become backslashes. -/
def efiSlash (c : Byte) : Byte := if c == 47 then 92 else c

/-- `cmd[j]=='i' && cmd[j+1]=='n' && ...`. -/
def startsInitrd (p : List Byte) : Bool :=
  deref p == 105 && deref (p.drop 1) == 110 && deref (p.drop 2) == 105 && deref (p.drop 3) == 116 &&
    deref (p.drop 4) == 114 && deref (p.drop 5) == 100 && deref (p.drop 6) == 61

/-- "Check if cmdline already has initrd=". -/
def hasInitrd : List Byte → Bool
  | [] => false
  | c :: p => if c == 0 then false else if startsInitrd (c :: p) then true else hasInitrd p

/-- `for (int j = 0; src[j] && fc < 510; j++) full_cmd[fc++] = f(src[j])`. -/
def appendCmd (buf src : List Byte) (f : Byte → Byte) : List Byte := buf ++ ((str src).map f).take (510 - buf.length)

/-- `full_cmd`, up to its NUL. -/
def fullCmd (entry : BootEntry) : List Byte :=
  let cmd := entry.cmdline
  let buf :=
    if !hasInitrd cmd && deref entry.initrd != 0 then
      let buf := appendCmd [] initrdPfx id
      let buf := appendCmd buf entry.initrd efiSlash
      if deref cmd != 0 then buf ++ [32] else buf
    else []
  appendCmd buf cmd id

/-- The answers `linux_load` gets: the file it reads, and whether `LoadImage`, `HandleProtocol` and `AllocatePool` give it
what it asks for. -/
structure EfiAnswers where
  file : Option (List Byte)
  loadImage : Bool
  loadedImage : Bool
  pool : Bool

/-- `wopt`: the text and its NUL as `CHAR16`s. -/
def wideText (text : List Byte) : List Nat := (text ++ [0]).map UInt8.toNat

/-- The load options of the image when `linux_load` gets as far as `StartImage`. -/
def linuxLoadEfi (fw : EfiAnswers) (entry : BootEntry) : Option (Option (List Nat)) :=
  match fw.file with
  | none => none
  | some bytes =>
    if bytes.length < 512 then none
    else if fw.loadImage then some (if fw.loadedImage && fw.pool then some (wideText (fullCmd entry)) else none)
    else none

/-! ## What the options should be -/

/-- A blank-separated argument of the text begins with `initrd=`. -/
def NamesInitrd (text : List Byte) : Prop := ∃ arg ∈ text.splitOnP (· == 32), initrdPfx <+: arg

/-- The initrd as an argument, unless there is none or the command line has one, and the command line. -/
def initrdArgument (entry : BootEntry) : List Byte := initrdPfx ++ (str entry.initrd).map efiSlash

noncomputable def loadOptionsText (entry : BootEntry) : List Byte :=
  open Classical in
  if str entry.initrd ≠ [] ∧ ¬NamesInitrd (str entry.cmdline) then
    initrdArgument entry ++ (if str entry.cmdline = [] then [] else 32 :: str entry.cmdline)
  else str entry.cmdline

/-! ## The search -/

theorem infix_of_mem_splitOnP {p : Byte → Bool} {text arg : List Byte} (h : arg ∈ text.splitOnP p) : arg <:+: text := by
  -- the first argument is a prefix of the text, the others come later in it
  have key : (∀ arg ∈ text.splitOnP p, arg <:+: text) ∧ ∀ arg, (text.splitOnP p).head? = some arg → arg <+: text := by
    clear h
    induction text with
    | nil => simp
    | cons c text ih =>
      obtain ⟨hall, hhead⟩ := ih
      rw [List.splitOnP_cons_eq_if_modifyHead]
      split
      · refine ⟨fun arg harg => ?_, fun arg harg => ?_⟩
        · rcases List.mem_cons.mp harg with rfl | harg
          · exact List.nil_infix
          · exact (hall arg harg).trans (List.suffix_cons c text).isInfix
        · obtain rfl : [] = arg := Option.some.inj harg
          exact List.nil_prefix
      · cases hs : text.splitOnP p with
        | nil => exact absurd hs (List.splitOnP_ne_nil p text)
        | cons a as =>
          rw [hs] at hall hhead
          have hcons : c :: a <+: c :: text := List.cons_prefix_cons.mpr ⟨rfl, hhead a rfl⟩
          refine ⟨fun arg harg => ?_, fun arg harg => ?_⟩
          · rcases List.mem_cons.mp harg with rfl | harg
            · exact hcons.isInfix
            · exact (hall arg (List.mem_cons_of_mem _ harg)).trans (List.suffix_cons c text).isInfix
          · obtain rfl : c :: a = arg := Option.some.inj harg
            exact hcons
  exact key.1 arg h

theorem cons_prefix_str {c : Byte} (hc : c ≠ 0) (w p : List Byte) :
    c :: w <+: str p ↔ deref p = c ∧ w <+: str (p.drop 1) := by
  cases p with
  | nil => simp [str, takeC, deref, hc.symm]
  | cons x p =>
    by_cases hx : x = 0
    · simp [str, takeC, deref, hx, hc.symm]
    · have hstr : str (x :: p) = x :: str p := by simp [str, takeC, hx]
      rw [hstr, List.cons_prefix_cons, List.drop_succ_cons, List.drop_zero]
      exact and_congr_left fun _ => eq_comm

theorem startsInitrd_iff (p : List Byte) : startsInitrd p = true ↔ initrdPfx <+: str p := by
  have hpfx : initrdPfx = [105, 110, 105, 116, 114, 100, 61] := by decide
  rw [hpfx, cons_prefix_str (by decide), cons_prefix_str (by decide), cons_prefix_str (by decide),
    cons_prefix_str (by decide), cons_prefix_str (by decide), cons_prefix_str (by decide), cons_prefix_str (by decide)]
  simp [startsInitrd, List.drop_drop, and_assoc]

theorem hasInitrd_iff (p : List Byte) : hasInitrd p = true ↔ initrdPfx <:+: str p := by
  have hne : ¬initrdPfx <:+: [] := by decide
  induction p with
  | nil => exact iff_of_false Bool.false_ne_true hne
  | cons c p ih =>
    rw [hasInitrd]
    by_cases hc : c = 0
    · rw [if_pos (by simpa using hc)]
      refine iff_of_false Bool.false_ne_true ?_
      rwa [hc, show str (0 :: p) = [] from rfl]
    · have hstr : str (c :: p) = c :: str p := by simp [str, takeC, hc]
      have hstep : (if startsInitrd (c :: p) then true else hasInitrd p) = true ↔
          startsInitrd (c :: p) = true ∨ hasInitrd p = true := by
        cases startsInitrd (c :: p)
        · simp
        · simp
      rw [if_neg (by simpa using hc), hstep, startsInitrd_iff, hstr, List.infix_cons_iff]
      exact or_congr_right ih

theorem hasInitrd_of_namesInitrd {cmd : List Byte} (h : NamesInitrd (str cmd)) : hasInitrd cmd = true := by
  obtain ⟨arg, harg, hpfx⟩ := h
  exact (hasInitrd_iff cmd).mpr (hpfx.isInfix.trans (infix_of_mem_splitOnP harg))

/-! ## The text -/

theorem deref_eq_zero_iff (p : List Byte) : deref p = 0 ↔ str p = [] := by
  cases p with
  | nil => simp [deref, str, takeC]
  | cons c p =>
    by_cases hc : c = 0
    · simp [deref, str, takeC, hc]
    · simp [deref, str, takeC, hc]

/-- Where nothing looks like an initrd, the text is what it should be, cut at 510 bytes. -/
theorem fullCmd_prepend {entry : BootEntry} (hi : str entry.initrd ≠ []) (hlen : (str entry.initrd).length ≤ 255)
    (hno : hasInitrd entry.cmdline = false) : fullCmd entry =
      (initrdArgument entry ++ (if str entry.cmdline = [] then [] else 32 :: str entry.cmdline)).take 510 := by
  have hpfx : str initrdPfx = initrdPfx := by decide
  have hpfxLen : initrdPfx.length = 7 := by decide
  have harg : appendCmd (appendCmd [] initrdPfx id) entry.initrd efiSlash = initrdArgument entry := by
    rw [appendCmd, appendCmd, hpfx, List.map_id, List.nil_append, List.take_of_length_le (by decide),
      List.take_of_length_le (by rw [List.length_map, hpfxLen]; omega), initrdArgument]
  have hargLen : (initrdArgument entry).length ≤ 262 := by
    rw [initrdArgument, List.length_append, List.length_map, hpfxLen]
    omega
  have hne : deref entry.initrd ≠ 0 := (deref_eq_zero_iff _).not.mpr hi
  rw [fullCmd, hno]
  dsimp only
  rw [if_pos (by simpa using hne), harg]
  by_cases hc : str entry.cmdline = []
  · rw [if_neg (by simpa using (deref_eq_zero_iff _).mpr hc), if_pos hc, appendCmd, hc, List.map_nil, List.take_nil,
      List.append_nil, List.take_of_length_le (by omega)]
  · have hlen' : (initrdArgument entry ++ [32]).length = (initrdArgument entry).length + 1 := by simp
    have hshort : (initrdArgument entry ++ [32]).take 510 = initrdArgument entry ++ [32] :=
      List.take_of_length_le (by omega)
    have hcut : (initrdArgument entry ++ 32 :: str entry.cmdline).take 510 =
        initrdArgument entry ++ [32] ++ (str entry.cmdline).take (510 - (initrdArgument entry ++ [32]).length) := by
      rw [List.append_cons, List.take_append, hshort]
    rw [if_pos (by simpa using (deref_eq_zero_iff _).not.mpr hc), if_neg hc, appendCmd, List.map_id, hcut]

theorem fullCmd_verbatim {entry : BootEntry} (hlen : (str entry.cmdline).length ≤ 255)
    (h : hasInitrd entry.cmdline = true ∨ str entry.initrd = []) : fullCmd entry = str entry.cmdline := by
  have hnot : (!hasInitrd entry.cmdline && deref entry.initrd != 0) = false := by
    rcases h with h | h
    · rw [h]
      rfl
    · rw [(deref_eq_zero_iff _).mpr h]
      simp
  rw [fullCmd, hnot]
  dsimp only
  rw [if_neg Bool.false_ne_true, appendCmd, List.map_id, List.nil_append, List.length_nil,
    List.take_of_length_le (by omega)]

theorem wideText_inj {a b : List Byte} : wideText a = wideText b ↔ a = b := by
  constructor
  · intro h
    have := List.map_injective_iff.mpr (fun x y hxy => UInt8.toNat_inj.mp hxy) h
    exact List.append_cancel_right this
  · rintro rfl
    rfl

/-- The options are right exactly for entries without an initrd, for command lines that name one, and for those that do
not have `initrd=` anywhere if everything fits. -/
theorem loadOptions_iff (fw : EfiAnswers) (entry : BootEntry) (hcmd : (str entry.cmdline).length ≤ 255)
    (hinitrd : (str entry.initrd).length ≤ 255) (opts : List Nat) (hopts : linuxLoadEfi fw entry = some (some opts)) :
    opts = wideText (loadOptionsText entry) ↔
      str entry.initrd = [] ∨ NamesInitrd (str entry.cmdline) ∨
        (¬initrdPfx <:+: str entry.cmdline ∧
          7 + (str entry.initrd).length +
            (if str entry.cmdline = [] then 0 else 1 + (str entry.cmdline).length) ≤ 510) := by
  have hfull : opts = wideText (fullCmd entry) := by
    rw [linuxLoadEfi] at hopts
    split at hopts
    · cases hopts
    · split_ifs at hopts
      · exact (Option.some.inj (Option.some.inj hopts)).symm
      · cases Option.some.inj hopts
  rw [hfull, wideText_inj, ← hasInitrd_iff, loadOptionsText]
  by_cases hi : str entry.initrd = []
  · rw [fullCmd_verbatim hcmd (.inr hi), if_neg fun h => h.1 hi]
    exact iff_of_true rfl (.inl hi)
  · by_cases hnames : NamesInitrd (str entry.cmdline)
    · rw [fullCmd_verbatim hcmd (.inl (hasInitrd_of_namesInitrd hnames)), if_neg fun h => h.2 hnames]
      exact iff_of_true rfl (.inr (.inl hnames))
    · rw [if_pos ⟨hi, hnames⟩]
      set text := initrdArgument entry ++ (if str entry.cmdline = [] then [] else 32 :: str entry.cmdline) with htext
      have hlen : text.length =
          7 + (str entry.initrd).length + (if str entry.cmdline = [] then 0 else 1 + (str entry.cmdline).length) := by
        have hpfxLen : initrdPfx.length = 7 := by decide
        rw [htext, List.length_append, initrdArgument, List.length_append, List.length_map, hpfxLen]
        split
        · rfl
        · rw [List.length_cons, Nat.add_comm _ 1]
      rw [← hlen]
      cases hno : hasInitrd entry.cmdline with
      | true =>
        -- found, but not as an argument: nothing is put in front
        rw [fullCmd_verbatim hcmd (.inl hno)]
        refine iff_of_false (fun heq => ?_) (by simp [hi, hnames])
        have hl := congrArg List.length heq
        rw [hlen] at hl
        split at hl
        · rename_i hc
          rw [hc, List.length_nil] at hl
          omega
        · omega
      | false =>
        rw [fullCmd_prepend hi hinitrd hno, ← htext, List.take_eq_self_iff]
        simp only [hi, hnames, false_or, Bool.false_eq_true, not_false_eq_true, true_and]

/-- A firmware that gives the loader all it asks for. -/
def willing : EfiAnswers := { file := some (List.replicate 512 0), loadImage := true, loadedImage := true, pool := true }

theorem linuxLoadEfi_willing (entry : BootEntry) : linuxLoadEfi willing entry = some (some (wideText (fullCmd entry))) := by
  rw [linuxLoadEfi]
  show (if (List.replicate 512 (0 : Byte)).length < 512 then none else _) = _
  rw [List.length_replicate]
  rfl

theorem loadOptions_quiet : ∃ opts,
    linuxLoadEfi willing { initrd := lit "/i", cmdline := lit "quiet" } = some (some opts) ∧
      opts = wideText (loadOptionsText { initrd := lit "/i", cmdline := lit "quiet" }) := by
  refine ⟨_, linuxLoadEfi_willing _, ?_⟩
  rw [loadOptions_iff willing { initrd := lit "/i", cmdline := lit "quiet" } (by decide) (by decide) _
    (linuxLoadEfi_willing _)]
  exact .inr (.inr (by decide))

/-- An argument that ends in `initrd=` is taken for one that begins with it. -/
theorem loadOptions_lost : ∃ opts,
    linuxLoadEfi willing { initrd := lit "/i", cmdline := lit "my.initrd=1" } = some (some opts) ∧
      opts ≠ wideText (loadOptionsText { initrd := lit "/i", cmdline := lit "my.initrd=1" }) := by
  refine ⟨_, linuxLoadEfi_willing _, ?_⟩
  have hnames : ¬NamesInitrd (lit "my.initrd=1") := by
    rw [NamesInitrd]
    decide
  have htext : loadOptionsText { initrd := lit "/i", cmdline := lit "my.initrd=1" } = lit "initrd=\\i my.initrd=1" := by
    rw [loadOptionsText, if_pos ⟨by decide, hnames⟩]
    decide
  rw [htext]
  decide

end SakuruBoot

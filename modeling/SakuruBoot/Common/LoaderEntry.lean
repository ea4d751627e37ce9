import SakuruBoot.Common.Config
import SakuruBoot.Lib.Lines

/-!
# Loader entries (`common/loader_entry.c`)

The parser of one `.conf` file, `parseEntryConf`. It works on the bytes of the buffer up to its length, so a NUL
is a byte like any other until a field is read back as a string. `parseEntryConf_lines` says that it reads the
text one line (up to a line feed) at a time, and `entrySetting` what it takes from a line.
-/

namespace SakuruBoot
open CStr

/-- The rest of the text behind the next line feed. -/
def skipLine (p : List Byte) : List Byte := (p.dropWhile (· != 10)).tail

/-- A field filled by `memcpy` of at most `MAX_STR_LEN - 1` bytes and a NUL. -/
def fieldOf (val : List Byte) : List Byte := str (val.take (maxStrLen - 1))

/-- What a key does to the entry. -/
def setLoaderKey (e : BootEntry) (key val : List Byte) : BootEntry :=
  if key = lit "title" then { e with name := fieldOf val }
  else if key = lit "linux" then { e with kernel := fieldOf val }
  else if key = lit "initrd" then { e with initrd := fieldOf val }
  else if key = lit "options" then { e with cmdline := fieldOf val }
  else e

/-- One iteration of the main loop. -/
def entryConfStep (p : List Byte) (e : BootEntry) : List Byte × BootEntry :=
  let p := p.dropWhile isSpace
  match p with
  | [] => (skipLine p, e)
  | c :: _ =>
    if c == 35 || c == 10 || c == 13 then (skipLine p, e)
    else
      let inKey := fun c => !isSpace c && c != 10
      let key := p.takeWhile inKey
      let p := (p.dropWhile inKey).dropWhile isSpace
      let val := p.takeWhile fun c => !isNewline c
      (skipLine (p.dropWhile fun c => !isNewline c), setLoaderKey e key (val.rdropWhile isSpace))

def parseEntryConf (buf : List Byte) (e : BootEntry) : BootEntry :=
  let e := Lines.readText entryConfStep buf e
  { e with type := .linux, luksTries := if e.luksTries = 0 then 3 else e.luksTries }

/-! ## Line by line -/

/-- The key and value taken from a line: blanks in front are skipped, those behind the value trimmed, and a
carriage return ends the value (but not the key). -/
def entrySetting (line : List Byte) : Option (List Byte × List Byte) :=
  match line.dropWhile isSpace with
  | [] => none
  | c :: l =>
    if c == 35 || c == 13 then none
    else
      let key := (c :: l).takeWhile fun c => !isSpace c
      let rest := ((c :: l).dropWhile fun c => !isSpace c).dropWhile isSpace
      some (key, (rest.takeWhile (· != 13)).rdropWhile isSpace)

def entryLine (e : BootEntry) (line : List Byte) : BootEntry :=
  match entrySetting line with
  | none => e
  | some (key, val) => setLoaderKey e key val

theorem takeWhile_line {f : Byte → Bool} (hf : f 10 = false) (line rest : List Byte) :
    (line ++ 10 :: rest).takeWhile f = line.takeWhile f := by
  induction line with
  | nil => simp [hf]
  | cons x line ih => by_cases hx : f x = true <;> simp [hx, ih]

theorem dropWhile_line {f : Byte → Bool} (hf : f 10 = false) (line rest : List Byte) :
    (line ++ 10 :: rest).dropWhile f = line.dropWhile f ++ 10 :: rest := by
  induction line with
  | nil => simp [hf]
  | cons x line ih => by_cases hx : f x = true <;> simp [hx, ih]

theorem skipLine_line {line : List Byte} (hline : ∀ c ∈ line, c ≠ 10) (rest : List Byte) :
    skipLine (line ++ 10 :: rest) = rest := by
  have hall : line.dropWhile (· != 10) = [] := by
    rw [List.dropWhile_eq_nil_iff]
    intro c hc
    simpa using hline c hc
  rw [skipLine, dropWhile_line (by decide), hall]
  rfl

theorem skipLine_last {line : List Byte} (hline : ∀ c ∈ line, c ≠ 10) : skipLine line = [] := by
  have hall : line.dropWhile (· != 10) = [] := by
    rw [List.dropWhile_eq_nil_iff]
    intro c hc
    simpa using hline c hc
  rw [skipLine, hall]
  rfl

theorem takeWhile_congr {f g : Byte → Bool} {line : List Byte} (h : ∀ c ∈ line, f c = g c) :
    line.takeWhile f = line.takeWhile g := by
  induction line with
  | nil => rfl
  | cons x line ih =>
    rw [List.takeWhile_cons, List.takeWhile_cons, h x (by simp), ih fun c hc => h c (by simp [hc])]

theorem dropWhile_congr {f g : Byte → Bool} {line : List Byte} (h : ∀ c ∈ line, f c = g c) :
    line.dropWhile f = line.dropWhile g := by
  induction line with
  | nil => rfl
  | cons x line ih =>
    rw [List.dropWhile_cons, List.dropWhile_cons, h x (by simp), ih fun c hc => h c (by simp [hc])]

/-- An iteration takes what `entrySetting` says from the line it is on. -/
theorem entryConfStep_line {line tail : List Byte} (hline : ∀ c ∈ line, c ≠ 10)
    (htail : tail = [] ∨ ∃ rest, tail = 10 :: rest) (e : BootEntry) :
    entryConfStep (line ++ tail) e = (tail.tail, entryLine e line) := by
  have htake : ∀ f : Byte → Bool, f 10 = false → ∀ l : List Byte,
      (l ++ tail).takeWhile f = l.takeWhile f ∧ (l ++ tail).dropWhile f = l.dropWhile f ++ tail := by
    intro f hf l
    rcases htail with rfl | ⟨rest, rfl⟩
    · simp
    · exact ⟨takeWhile_line hf l rest, dropWhile_line hf l rest⟩
  have hskip : ∀ l : List Byte, (∀ c ∈ l, c ≠ 10) → skipLine (l ++ tail) = tail.tail := by
    intro l hl
    rcases htail with rfl | ⟨rest, rfl⟩
    · rw [List.append_nil]
      exact skipLine_last hl
    · exact skipLine_line hl rest
  have hsub : ∀ {f : Byte → Bool} {l : List Byte}, (∀ c ∈ l, c ≠ 10) → ∀ c ∈ l.dropWhile f, c ≠ 10 :=
    fun hl c hc => hl c ((List.dropWhile_sublist _).mem hc)
  unfold entryConfStep entryLine entrySetting
  dsimp only
  rw [(htake isSpace rfl line).2]
  cases hrest : line.dropWhile isSpace with
  | nil =>
    rcases htail with rfl | ⟨rest, rfl⟩
    · rfl
    · rfl
  | cons c l =>
    have hcl : ∀ d ∈ c :: l, d ≠ 10 := by
      rw [← hrest]
      exact hsub hline
    have hc : c ≠ 10 := hcl c (by simp)
    have hkey : (fun c : Byte => !isSpace c && c != 10) 10 = false := rfl
    have hval : (fun c : Byte => !isNewline c) 10 = false := rfl
    -- on a line, stopping at a line feed as well makes no difference
    have hkeyEq : ∀ d ∈ c :: l, (!isSpace d && d != 10) = !isSpace d := by
      intro d hd
      simp [hcl d hd]
    have hvalEq : ∀ d ∈ (((c :: l).dropWhile fun c => !isSpace c).dropWhile isSpace), (!isNewline d) = (d != 13) := by
      intro d hd
      have hd10 : (d == 10) = false := by simpa using hsub (hsub hcl) d hd
      rw [isNewline, hd10, Bool.false_or, bne]
    simp only [List.cons_append]
    by_cases hskipped : (c == 35 || c == 13) = true
    · have hcond : (c == 35 || c == 10 || c == 13) = true := by
        rcases Bool.or_eq_true_iff.mp hskipped with h | h <;> simp [h]
      have hs := hskip (c :: l) hcl
      rw [List.cons_append] at hs
      rw [if_pos hcond, if_pos hskipped, hs]
    · have hcond : ¬(c == 35 || c == 10 || c == 13) = true := by simpa [hc] using hskipped
      rw [if_neg hcond, if_neg hskipped, ← List.cons_append, (htake _ hkey (c :: l)).1,
        (htake _ hkey (c :: l)).2, (htake _ rfl _).2, (htake _ hval _).1, (htake _ hval _).2,
        takeWhile_congr hkeyEq, dropWhile_congr hkeyEq, takeWhile_congr hvalEq, hskip _ (hsub (hsub (hsub hcl)))]

theorem readText_entryConf (buf : List Byte) (e : BootEntry) :
    Lines.readText entryConfStep buf e = (buf.splitOn 10).foldl entryLine e := by
  rw [List.splitOn_eq_splitOnP]
  refine Lines.readText_splitOnP (fun e => rfl) ?_ ?_ buf e
  · intro l e _ hl
    have hl' : ∀ c ∈ l, c ≠ 10 := fun c hc => by simpa using hl c hc
    have h := entryConfStep_line hl' (.inl rfl) e
    rwa [List.append_nil] at h
  · intro l c rest e hl hc
    have hl' : ∀ c ∈ l, c ≠ 10 := fun c hc => by simpa using hl c hc
    obtain rfl : c = 10 := by simpa using hc
    exact ⟨[], rest, nofun, rfl, entryConfStep_line hl' (.inr ⟨rest, rfl⟩) e⟩

theorem parseEntryConf_lines (buf : List Byte) (e : BootEntry) :
    parseEntryConf buf e = { (buf.splitOn 10).foldl entryLine e with
      type := .linux
      luksTries := if ((buf.splitOn 10).foldl entryLine e).luksTries = 0 then 3
        else ((buf.splitOn 10).foldl entryLine e).luksTries } := by
  rw [parseEntryConf, readText_entryConf]

end SakuruBoot

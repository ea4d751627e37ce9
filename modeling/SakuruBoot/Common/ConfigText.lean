import SakuruBoot.Common.ConfigFacts

/-!
# Texts made of lines

`parseText` is the parser's main loop as a function of the text. On blanks, comments, section headers and
settings it does one thing each (`parseText_blank`, `parseText_comment`, `parseText_section`,
`parseText_line`), so a text of such lines is parsed line by line.
-/

namespace SakuruBoot
open CStr

variable {merge : Bool}

/-! ## The loop as a function of the text -/

/-- The table and the current entry after the text was read to its end. -/
def parseText (merge : Bool) (text : List Byte) (cfg : BootConfig) (cur : Option Nat) :
    BootConfig × Option Nat :=
  let s := parseLoop merge text.length { rest := text, cfg := cfg, cur := cur }
  (s.cfg, s.cur)

/-- The table `do_parse` starts its main loop with. -/
def startConfig (merge : Bool) (cfg : BootConfig) : BootConfig := if merge then cfg else resetConfig cfg

theorem parseLoop_fuel {s : ParseState} {n m : Nat} (hn : s.rest.length ≤ n) (hm : s.rest.length ≤ m) :
    parseLoop merge n s = parseLoop merge m s := by
  induction n generalizing s m with
  | zero =>
    have hrest : s.rest = [] := List.length_eq_zero_iff.mp (by omega)
    cases m with
    | zero => rfl
    | succ m => simp [parseLoop, hrest, deref]
  | succ n ih =>
    by_cases h0 : deref s.rest = 0
    · cases m with
      | zero => simp [parseLoop, h0]
      | succ m => simp [parseLoop, h0]
    · have hne : s.rest ≠ [] := by
        intro h
        rw [h] at h0
        exact h0 rfl
      have hpos := List.length_pos_iff.mpr hne
      obtain ⟨m, rfl⟩ : ∃ k, m = k + 1 := ⟨m - 1, by omega⟩
      rw [parseLoop, parseLoop, if_neg (by simpa using h0), if_neg (by simpa using h0)]
      rcases length_parseStep_rest_lt merge s with hlt | hend
      · exact ih (by omega) (by omega)
      · -- at the end of the text the rounds left do nothing
        have hstay : ∀ k, parseLoop merge k (parseStep merge s) = parseStep merge s := by
          intro k
          cases k <;> simp [parseLoop, hend]
        rw [hstay, hstay]

theorem parseText_step {text : List Byte} {cfg : BootConfig} {cur : Option Nat} (h : deref text ≠ 0) :
    parseText merge text cfg cur =
      parseText merge (parseStep merge ⟨text, cfg, cur⟩).rest (parseStep merge ⟨text, cfg, cur⟩).cfg
        (parseStep merge ⟨text, cfg, cur⟩).cur := by
  have hne : text ≠ [] := by
    intro hnil
    rw [hnil] at h
    exact h rfl
  have hpos := List.length_pos_iff.mpr hne
  obtain ⟨n, hn⟩ : ∃ k, text.length = k + 1 := ⟨text.length - 1, by omega⟩
  have hloop : parseLoop merge text.length ⟨text, cfg, cur⟩ =
      parseLoop merge (parseStep merge ⟨text, cfg, cur⟩).rest.length (parseStep merge ⟨text, cfg, cur⟩) := by
    rw [hn, parseLoop, if_neg (by simpa using h)]
    rcases length_parseStep_rest_lt merge ⟨text, cfg, cur⟩ with hlt | hend
    · exact parseLoop_fuel (by dsimp only at hlt; omega) (le_refl _)
    · have hstay : ∀ k, parseLoop merge k (parseStep merge ⟨text, cfg, cur⟩) =
          parseStep merge ⟨text, cfg, cur⟩ := by
        intro k
        cases k <;> simp [parseLoop, hend]
      rw [hstay, hstay]
  rw [parseText, hloop]
  rfl

theorem parseText_end {text : List Byte} {cfg : BootConfig} {cur : Option Nat} (h : deref text = 0) :
    parseText merge text cfg cur = (cfg, cur) := by
  cases text with
  | nil => rfl
  | cons x text =>
    have hx : x = 0 := h
    simp [parseText, parseLoop, deref, hx]

theorem parseText_nil {cfg : BootConfig} {cur : Option Nat} : parseText merge [] cfg cur = (cfg, cur) :=
  parseText_end rfl

/-! ## Blanks, comments, headers, settings -/

/-- A byte the parser skips between lines. -/
def isBlank (c : Byte) : Bool := isSpace c || isNewline c

theorem isBlank_ne_zero {c : Byte} (h : isBlank c = true) : c ≠ 0 := by
  rintro rfl
  exact absurd h (by decide)

theorem dropC_append_of_all {f : Byte → Bool} {a : List Byte} (h : ∀ c ∈ a, c ≠ 0 ∧ f c = true)
    (b : List Byte) : dropC f (a ++ b) = dropC f b := by
  induction a with
  | nil => rfl
  | cons x a ih =>
    obtain ⟨h0, hf⟩ := h x (by simp)
    rw [List.cons_append, dropC, List.dropWhile_cons_of_pos (by simp [h0, hf]), ← dropC]
    exact ih fun c hc => h c (by simp [hc])

theorem takeC_append_of_all {f : Byte → Bool} {a : List Byte} (h : ∀ c ∈ a, c ≠ 0 ∧ f c = true)
    (b : List Byte) : takeC f (a ++ b) = a ++ takeC f b := by
  induction a with
  | nil => rfl
  | cons x a ih =>
    obtain ⟨h0, hf⟩ := h x (by simp)
    rw [List.cons_append, takeC, List.takeWhile_cons_of_pos (by simp [h0, hf]), ← takeC,
      ih fun c hc => h c (by simp [hc]), List.cons_append]

/-- A text at which a loop over `f` stops. -/
def Stops (f : Byte → Bool) (p : List Byte) : Prop := deref p = 0 ∨ f (deref p) = false

theorem dropC_of_stops {f : Byte → Bool} {p : List Byte} (h : Stops f p) : dropC f p = p := by
  cases p with
  | nil => rfl
  | cons x p =>
    refine List.dropWhile_cons_of_neg ?_
    rcases h with h | h
    · have hx : x = 0 := h
      simp [hx]
    · have hx : f x = false := h
      simp [hx]

theorem takeC_of_stops {f : Byte → Bool} {p : List Byte} (h : Stops f p) : takeC f p = [] := by
  cases p with
  | nil => rfl
  | cons x p =>
    refine List.takeWhile_cons_of_neg ?_
    rcases h with h | h
    · have hx : x = 0 := h
      simp [hx]
    · have hx : f x = false := h
      simp [hx]

variable {cfg : BootConfig} {cur : Option Nat}

theorem parseText_blank {ws : List Byte} (hws : ∀ c ∈ ws, isBlank c = true) (text : List Byte) :
    parseText merge (ws ++ text) cfg cur = parseText merge text cfg cur := by
  cases ws with
  | nil => rfl
  | cons w ws =>
    have hw0 : w ≠ 0 := isBlank_ne_zero (hws w (by simp))
    have hdrop : dropC (fun c => isSpace c || isNewline c) (w :: ws ++ text) =
        dropC (fun c => isSpace c || isNewline c) text :=
      dropC_append_of_all (fun c hc => ⟨isBlank_ne_zero (hws c hc), hws c hc⟩) text
    have hstep : parseStep merge ⟨w :: ws ++ text, cfg, cur⟩ = parseStep merge ⟨text, cfg, cur⟩ := by
      unfold parseStep
      dsimp only
      rw [hdrop]
    rw [parseText_step (by exact hw0), hstep]
    by_cases h0 : deref text = 0
    · -- nothing is left to read
      have hstay : dropC (fun c => isSpace c || isNewline c) text = text := dropC_of_stops (.inl h0)
      have hend : parseStep merge ⟨text, cfg, cur⟩ = ⟨text, cfg, cur⟩ := by
        unfold parseStep
        dsimp only
        rw [hstay, h0]
        rfl
      rw [hend]
    · rw [← parseText_step h0]

theorem parseText_comment {c : Byte} (hc : c = 35 ∨ c = 59) {body rest : List Byte}
    (hbody : ∀ b ∈ body, b ≠ 0 ∧ isNewline b = false) (hrest : Stops (fun c => !isNewline c) rest) :
    parseText merge (c :: body ++ rest) cfg cur = parseText merge rest cfg cur := by
  have hc0 : c ≠ 0 := by rcases hc with rfl | rfl <;> decide
  have hcb : (isSpace c || isNewline c) = false := by rcases hc with rfl | rfl <;> rfl
  have hcn : isNewline c = false := by rcases hc with rfl | rfl <;> rfl
  have hdrop : dropC (fun c => isSpace c || isNewline c) (c :: body ++ rest) = c :: body ++ rest :=
    dropC_of_stops (.inr hcb)
  have hskip : dropC (fun c => !isNewline c) (c :: body ++ rest) = rest := by
    rw [dropC_append_of_all _ rest, dropC_of_stops hrest]
    intro b hb
    rcases List.mem_cons.mp hb with rfl | hb
    · exact ⟨hc0, by simp [hcn]⟩
    · exact ⟨(hbody b hb).1, by simp [(hbody b hb).2]⟩
  have hstep : parseStep merge ⟨c :: body ++ rest, cfg, cur⟩ = ⟨rest, cfg, cur⟩ := by
    have hd : deref (c :: body ++ rest) = c := rfl
    unfold parseStep
    dsimp only
    rw [hdrop, hd, if_neg (by simpa using hc0), if_pos (by simpa using hc), hskip]
  rw [parseText_step (by exact hc0), hstep]

/-- The line that opens a section. -/
def headerLine (name : List Byte) : List Byte := 91 :: (lit "entry:" ++ name ++ [93])

/-- The entry a header creates. -/
def newEntry (name : List Byte) : BootEntry :=
  { type := .elf64, luksTries := 3, name := name.take (maxStrLen - 1) }

theorem parseText_section {name : List Byte}
    (hname : ∀ b ∈ name, b ≠ 0 ∧ b ≠ 93 ∧ isNewline b = false) (rest : List Byte) :
    parseText merge (headerLine name ++ rest) cfg cur =
      if cfg.numEntries < maxEntries then
        parseText merge rest { cfg with entries := cfg.entries ++ [newEntry name] } (some cfg.numEntries)
      else parseText merge rest cfg cur := by
  have htext : headerLine name ++ rest = 91 :: (lit "entry:" ++ (name ++ 93 :: rest)) := by
    simp [headerLine]
  have hdrop : dropC (fun c => isSpace c || isNewline c) (headerLine name ++ rest) =
      headerLine name ++ rest := dropC_of_stops (.inr rfl)
  have hafter : (lit "entry:" ++ (name ++ 93 :: rest)).drop 6 = name ++ 93 :: rest :=
    List.drop_left' rfl
  have hstop : ∀ f : Byte → Bool, f 93 = false → Stops f (93 :: rest) := fun f hf => .inr hf
  -- both ways of reading the name end at its bracket
  have htake : takeC (fun c => c != 93 && !isNewline c) (name ++ 93 :: rest) = name := by
    rw [takeC_append_of_all, takeC_of_stops (hstop _ rfl), List.append_nil]
    intro b hb
    obtain ⟨h0, h93, hnl⟩ := hname b hb
    exact ⟨h0, by simp [h93, hnl]⟩
  have hskip : dropC (fun c => c != 93 && !isNewline c) (name ++ 93 :: rest) = 93 :: rest := by
    rw [dropC_append_of_all, dropC_of_stops (hstop _ rfl)]
    intro b hb
    obtain ⟨h0, h93, hnl⟩ := hname b hb
    exact ⟨h0, by simp [h93, hnl]⟩
  have hbracket : dropC (fun c => c != 93) (93 :: rest) = 93 :: rest := dropC_of_stops (hstop _ rfl)
  have hbracket' : dropC (fun c => c != 93) (name ++ 93 :: rest) = 93 :: rest := by
    rw [dropC_append_of_all, hbracket]
    intro b hb
    exact ⟨(hname b hb).1, by simp [(hname b hb).2.1]⟩
  have hstep : parseStep merge ⟨headerLine name ++ rest, cfg, cur⟩ =
      if cfg.numEntries < maxEntries then
        ⟨rest, { cfg with entries := cfg.entries ++ [newEntry name] }, some cfg.numEntries⟩
      else ⟨rest, cfg, cur⟩ := by
    have hd : deref (headerLine name ++ rest) = 91 := rfl
    unfold parseStep
    dsimp only
    rw [hdrop, hd, if_neg (by decide), if_neg (by decide), if_pos (by decide), htext, List.tail_cons,
      parseSection]
    dsimp only
    rw [if_pos (strStarts_append _ _), hafter, htake, hskip, hbracket, hbracket']
    rfl
  have hne : deref (headerLine name ++ rest) ≠ 0 := show (91 : Byte) ≠ 0 by decide
  rw [parseText_step hne, hstep]
  split <;> rfl

/-- What a line of settings does. -/
def applyLine (merge : Bool) (cfg : BootConfig) (cur : Option Nat) (line : List Byte) : BootConfig :=
  match parseKv line 64 maxStrLen with
  | none => cfg
  | some (key, val) => applySetting merge cfg cur key val

/-- A line that is neither a comment nor a header. -/
structure IsLine (line : List Byte) : Prop where
  bytes_ok : ∀ b ∈ line, b ≠ 0 ∧ isNewline b = false
  length_lt : line.length < maxStrLen * 2
  first_ok : ∀ b, line.head? = some b → isSpace b = false ∧ b ≠ 35 ∧ b ≠ 59 ∧ b ≠ 91
  ne_nil : line ≠ []

theorem parseText_line {line rest : List Byte} (hline : IsLine line)
    (hrest : Stops (fun c => !isNewline c) rest) :
    parseText merge (line ++ rest) cfg cur =
      parseText merge rest (applyLine merge cfg cur line) cur := by
  obtain ⟨hbytes, hlen, hfirst, hne⟩ := hline
  obtain ⟨x, l, rfl⟩ := List.exists_cons_of_ne_nil hne
  obtain ⟨hx0, hxn⟩ := hbytes x (by simp)
  obtain ⟨hxs, h35, h59, h91⟩ := hfirst x rfl
  have hdrop : dropC (fun c => isSpace c || isNewline c) (x :: l ++ rest) = x :: l ++ rest :=
    dropC_of_stops (.inr (by simp [deref, hxs, hxn]))
  have htake : (takeC (fun c => !isNewline c) (x :: l ++ rest)).take (maxStrLen * 2 - 1) = x :: l := by
    rw [takeC_append_of_all, takeC_of_stops hrest, List.append_nil, List.take_of_length_le (by omega)]
    intro b hb
    exact ⟨(hbytes b hb).1, by simp [(hbytes b hb).2]⟩
  have hstep : parseStep merge ⟨x :: l ++ rest, cfg, cur⟩ =
      ⟨rest, applyLine merge cfg cur (x :: l), cur⟩ := by
    have hd : deref (x :: l ++ rest) = x := rfl
    unfold parseStep
    dsimp only
    rw [hdrop, hd, if_neg (by simpa using hx0), if_neg (by simp [h35, h59]), if_neg (by simpa using h91),
      parseLine, htake, List.drop_left, applyLine]
    rcases parseKv (x :: l) 64 maxStrLen with _ | ⟨key, val⟩ <;> rfl
  rw [parseText_step (by exact hx0), hstep]

/-! ## Documents -/

/-- A line of a configuration file. -/
inductive ConfigItem
  | comment (mark : Byte) (body : List Byte)
  | header (name : List Byte)
  | setting (line : List Byte)

namespace ConfigItem

def bytes : ConfigItem → List Byte
  | comment mark body => mark :: body
  | header name => headerLine name
  | setting line => line

def Ok : ConfigItem → Prop
  | comment mark body => (mark = 35 ∨ mark = 59) ∧ ∀ b ∈ body, b ≠ 0 ∧ isNewline b = false
  | header name => ∀ b ∈ name, b ≠ 0 ∧ b ≠ 93 ∧ isNewline b = false
  | setting line => IsLine line

/-- What the parser does with the line. -/
def apply (merge : Bool) (s : BootConfig × Option Nat) : ConfigItem → BootConfig × Option Nat
  | comment .. => s
  | header name =>
    if s.1.numEntries < maxEntries then
      ({ s.1 with entries := s.1.entries ++ [newEntry name] }, some s.1.numEntries)
    else s
  | setting line => (applyLine merge s.1 s.2 line, s.2)

end ConfigItem

/-- The text consists of the lines, with blanks and empty lines between them: each line is followed
by the end of a line or of the text. -/
inductive Renders : List ConfigItem → List Byte → Prop
  | nil {ws : List Byte} (hws : ∀ c ∈ ws, isBlank c = true) : Renders [] ws
  | cons {ws rest : List Byte} {item : ConfigItem} {items : List ConfigItem}
      (hws : ∀ c ∈ ws, isBlank c = true) (hitem : item.Ok)
      (hstop : Stops (fun c => !isNewline c) rest) (hrest : Renders items rest) :
      Renders (item :: items) (ws ++ (item.bytes ++ rest))

/-- A text is parsed line by line. -/
theorem parseText_renders {items : List ConfigItem} {text : List Byte} (h : Renders items text)
    (s : BootConfig × Option Nat) :
    parseText merge text s.1 s.2 = items.foldl (ConfigItem.apply merge) s := by
  induction h generalizing s with
  | @nil ws hws =>
    rw [← List.append_nil ws, parseText_blank hws]
    rfl
  | @cons ws rest item items hws hitem hstop _ ih =>
    rw [parseText_blank hws, List.foldl_cons, ← ih]
    cases item with
    | comment mark body => exact parseText_comment hitem.1 hitem.2 hstop
    | header name =>
      rw [ConfigItem.bytes, parseText_section hitem, ConfigItem.apply]
      split <;> rfl
    | setting line => exact parseText_line hitem hstop

theorem doParse_renders (merge : Bool) {items : List ConfigItem} {text : List Byte} (h : Renders items text)
    (cfg : BootConfig) :
    (doParse text cfg merge).2 = clampDefault
      (items.foldl (ConfigItem.apply merge) (if merge then cfg else resetConfig cfg, none)).1 := by
  rw [← parseText_renders h]
  rfl

theorem renders_lines {items : List ConfigItem} (hitems : ∀ item ∈ items, item.Ok) {ws : List Byte}
    (hws : ∀ c ∈ ws, isBlank c = true) :
    Renders items (ws ++ items.flatMap fun item => item.bytes ++ [10]) := by
  induction items generalizing ws with
  | nil =>
    rw [List.flatMap_nil, List.append_nil]
    exact .nil hws
  | cons item items ih =>
    have hnl : ∀ c ∈ [(10 : Byte)], isBlank c = true := by decide +kernel
    have hrest := ih (fun i hi => hitems i (by simp [hi])) hnl
    rw [List.flatMap_cons, List.append_assoc]
    exact .cons hws (hitems item (by simp)) (.inr rfl) hrest

end SakuruBoot

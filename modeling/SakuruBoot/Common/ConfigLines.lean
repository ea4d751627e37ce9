import SakuruBoot.Common.ConfigText
import SakuruBoot.Lib.Buffer

/-!
# Where the parser reads

`starts` lists the positions of a text at which an iteration of the main loop finds something; what the loop does is
the fold of what it does there (`parseText_starts`). Behind a line end the positions are those of the rest of the text
(`starts_append`), unless a section header before it has no closing bracket: then the loop goes on behind the next
bracket, wherever that is.

So parsing composes at a line end exactly when no header is open there, at all line ends of a text exactly when every
header is closed on its own line (`composes_iff`), and a line is read once, from its beginning, exactly when no header
is open before it and nothing can be read where the parser goes on behind the first 511 bytes (`oneSetting_iff`).
-/

namespace SakuruBoot
open CStr

variable {merge : Bool}

/-! ## Positions -/

def skipBlanks (text : List Byte) : List Byte := dropC (fun c => isSpace c || isNewline c) text

/-- The text behind the next closing bracket. -/
def skipBracket (p : List Byte) : List Byte :=
  let p := dropC (· != 93) p
  if deref p == 93 then p.tail else p

/-- The text after an iteration that found something at `p`. -/
def stepRest (p : List Byte) : List Byte :=
  if deref p == 35 || deref p == 59 then dropC (fun c => !isNewline c) p
  else if deref p == 91 then skipBracket p.tail
  else p.drop ((takeC (fun c => !isNewline c) p).take (maxStrLen * 2 - 1)).length

def startsLoop : Nat → List Byte → List (List Byte)
  | 0, _ => []
  | n + 1, text =>
    let p := skipBlanks text
    if deref p == 0 then [] else p :: startsLoop n (stepRest p)

/-- The positions at which an iteration finds something, each as the text from there on. -/
def starts (text : List Byte) : List (List Byte) := startsLoop text.length text

/-- What an iteration at `p` does to the table and the current entry. -/
def readAt (merge : Bool) (s : BootConfig × Option Nat) (p : List Byte) : BootConfig × Option Nat :=
  ((parseStep merge ⟨p, s.1, s.2⟩).cfg, (parseStep merge ⟨p, s.1, s.2⟩).cur)

theorem dropC_dropC {f g : Byte → Bool} (h : ∀ c, f c = true → g c = true) (p : List Byte) :
    dropC g (dropC f p) = dropC g p := by
  induction p with
  | nil => rfl
  | cons c p ih =>
    by_cases hc : (c != 0 && f c) = true
    · have hg : (c != 0 && g c) = true := by
        rw [Bool.and_eq_true] at hc ⊢
        exact ⟨hc.1, h c hc.2⟩
      rw [dropC_cons_of_pos hc, dropC_cons_of_pos hg, ih]
    · rw [dropC_cons_of_neg hc]

theorem skipBracket_dropC {f : Byte → Bool} (h : ∀ c, f c = true → (c != 93) = true) (p : List Byte) :
    skipBracket (dropC f p) = skipBracket p := by
  unfold skipBracket
  rw [dropC_dropC h]

theorem no_nul_entry : ∀ c ∈ lit "entry:", c ≠ 0 := by decide +kernel

theorem parseSection_rest (p : List Byte) (cfg : BootConfig) (cur : Option Nat) :
    (parseSection p cfg cur).rest = skipBracket p := by
  have hname : ∀ p, skipBracket (dropC (fun c => c != 93 && !isNewline c) p) = skipBracket p := fun p =>
    skipBracket_dropC (fun c hc => (Bool.and_eq_true _ _ ▸ hc).1) p
  have hword : strStarts p (lit "entry:") = true → skipBracket (p.drop 6) = skipBracket p := by
    intro h
    obtain ⟨rest, rfl⟩ := strStarts_eq_append no_nul_entry h
    have hskip : dropC (· != 93) (lit "entry:" ++ rest) = dropC (· != 93) rest :=
      dropC_append_of_all (by decide +kernel) rest
    have hdrop : (lit "entry:" ++ rest).drop 6 = rest := List.drop_left' (by decide)
    rw [hdrop, skipBracket, skipBracket, hskip]
  unfold parseSection
  dsimp only
  by_cases hentry : strStarts p (lit "entry:") = true
  · by_cases hroom : cfg.numEntries < maxEntries
    · rw [if_pos hentry, if_pos hroom]
      exact (hname _).trans (hword hentry)
    · rw [if_pos hentry, if_neg hroom]
      exact hword hentry
  · rw [if_neg hentry]
    rfl

theorem parseStep_rest {s : ParseState} (h : deref (skipBlanks s.rest) ≠ 0) :
    (parseStep merge s).rest = stepRest (skipBlanks s.rest) := by
  have hp : dropC (fun c => isSpace c || isNewline c) s.rest = skipBlanks s.rest := rfl
  unfold parseStep stepRest
  dsimp only
  rw [hp, if_neg (by simpa using h)]
  split_ifs with hcomment hsection
  · rfl
  · exact parseSection_rest _ _ _
  · exact parseLine_rest _ _ _

theorem skipBlanks_idem (text : List Byte) : skipBlanks (skipBlanks text) = skipBlanks text :=
  dropC_dropC (fun _ h => h) text

theorem parseStep_skip (s : ParseState) : parseStep merge { s with rest := skipBlanks s.rest } = parseStep merge s := by
  have hp : dropC (fun c => isSpace c || isNewline c) s.rest = skipBlanks s.rest := rfl
  have hq : dropC (fun c => isSpace c || isNewline c) (skipBlanks s.rest) = skipBlanks s.rest := skipBlanks_idem s.rest
  unfold parseStep
  dsimp only
  rw [hp, hq]

theorem skipBlanks_suffix (text : List Byte) : skipBlanks text <:+ text := List.dropWhile_suffix _

theorem skipBracket_suffix (p : List Byte) : skipBracket p <:+ p := by
  unfold skipBracket
  dsimp only
  split_ifs
  · exact (List.tail_suffix _).trans (List.dropWhile_suffix _)
  · exact List.dropWhile_suffix _

theorem stepRest_suffix (p : List Byte) : stepRest p <:+ p := by
  unfold stepRest
  split_ifs
  · exact List.dropWhile_suffix _
  · exact (skipBracket_suffix _).trans (List.tail_suffix p)
  · exact List.drop_suffix _ p

theorem length_skipBlanks_le (text : List Byte) : (skipBlanks text).length ≤ text.length :=
  (skipBlanks_suffix text).length_le

theorem length_skipBracket_le (p : List Byte) : (skipBracket p).length ≤ p.length := (skipBracket_suffix p).length_le

theorem length_stepRest_lt {text : List Byte} (h : deref (skipBlanks text) ≠ 0) :
    (stepRest (skipBlanks text)).length < (skipBlanks text).length := by
  have hline : takeC (fun c => !isNewline c) (skipBlanks text) ≠ [] := takeC_line_ne_nil h
  have hlinePos := List.length_pos_iff.mpr hline
  cases hp : skipBlanks text with
  | nil => exact absurd (by rw [hp]; rfl) h
  | cons x q =>
    have hx : x ≠ 0 := by simpa [hp, deref] using h
    have hd : deref (x :: q) = x := rfl
    unfold stepRest
    rw [hd]
    split_ifs with hcomment hsection
    · have hnl : isNewline x = false := by
        rw [Bool.or_eq_true, beq_iff_eq, beq_iff_eq] at hcomment
        rcases hcomment with rfl | rfl <;> rfl
      have hstep : dropC (fun c => !isNewline c) (x :: q) = dropC (fun c => !isNewline c) q :=
        dropC_cons_of_pos (by simp [hx, hnl]) q
      have := length_dropC_le (fun c => !isNewline c) q
      rw [hstep, List.length_cons]
      omega
    · have := length_skipBracket_le q
      rw [List.tail_cons, List.length_cons]
      omega
    · rw [hp] at hlinePos
      rw [List.length_drop, List.length_take, List.length_cons, maxStrLen]
      omega

theorem startsLoop_fuel {n m : Nat} {text : List Byte} (hn : text.length ≤ n) (hm : text.length ≤ m) :
    startsLoop n text = startsLoop m text := by
  induction n generalizing m text with
  | zero =>
    have hnil : text = [] := List.length_eq_zero_iff.mp (by omega)
    subst hnil
    cases m <;> rfl
  | succ n ih =>
    cases m with
    | zero =>
      have hnil : text = [] := List.length_eq_zero_iff.mp (by omega)
      subst hnil
      rfl
    | succ m =>
      unfold startsLoop
      dsimp only
      by_cases h0 : deref (skipBlanks text) = 0
      · rw [if_pos (by simpa using h0), if_pos (by simpa using h0)]
      · have hlt := length_stepRest_lt h0
        have hle := length_skipBlanks_le text
        rw [if_neg (by simpa using h0), if_neg (by simpa using h0), ih (m := m) (by omega) (by omega)]

theorem starts_cons {text : List Byte} (h : deref (skipBlanks text) ≠ 0) :
    starts text = skipBlanks text :: starts (stepRest (skipBlanks text)) := by
  have hlt := length_stepRest_lt h
  have hle := length_skipBlanks_le text
  obtain ⟨n, hn⟩ : ∃ n, text.length = n + 1 := ⟨text.length - 1, by omega⟩
  rw [starts, hn, startsLoop, if_neg (by simpa using h), starts, startsLoop_fuel (m := n) (le_refl _) (by omega)]

theorem starts_end {text : List Byte} (h : deref (skipBlanks text) = 0) : starts text = [] := by
  unfold starts
  cases text with
  | nil => rfl
  | cons c text => rw [List.length_cons, startsLoop, if_pos (by simpa using h)]

theorem suffix_of_mem_starts {text p : List Byte} (h : p ∈ starts text) : p <:+ text := by
  induction hn : text.length using Nat.strong_induction_on generalizing text with
  | _ n ih =>
    by_cases h0 : deref (skipBlanks text) = 0
    · rw [starts_end h0] at h
      cases h
    · have hlt := length_stepRest_lt h0
      have hle := length_skipBlanks_le text
      rw [starts_cons h0] at h
      rcases List.mem_cons.mp h with rfl | hrest
      · exact skipBlanks_suffix text
      · have hin := ih _ (by omega) hrest rfl
        exact hin.trans ((stepRest_suffix _).trans (skipBlanks_suffix text))

/-- The main loop is the fold over the positions. -/
theorem parseText_starts (merge : Bool) (text : List Byte) (s : BootConfig × Option Nat) :
    parseText merge text s.1 s.2 = (starts text).foldl (readAt merge) s := by
  induction hn : text.length using Nat.strong_induction_on generalizing text s with
  | _ n ih =>
    by_cases hd : deref text = 0
    · have hskip : skipBlanks text = text := dropC_of_stops (.inl hd)
      rw [parseText_end hd, starts_end (by rw [hskip]; exact hd)]
      rfl
    · rw [parseText_step hd]
      have hsame := @parseStep_skip merge ⟨text, s.1, s.2⟩
      by_cases h0 : deref (skipBlanks text) = 0
      · -- only blanks are left
        have hstep : parseStep merge ⟨text, s.1, s.2⟩ = ⟨skipBlanks text, s.1, s.2⟩ := by
          unfold parseStep
          dsimp only
          exact if_pos (beq_iff_eq.mpr h0)
        rw [hstep, parseText_end h0, starts_end h0]
        rfl
      · have hlt := length_stepRest_lt h0
        have hle := length_skipBlanks_le text
        have hread : readAt merge s (skipBlanks text) =
            ((parseStep merge ⟨text, s.1, s.2⟩).cfg, (parseStep merge ⟨text, s.1, s.2⟩).cur) := by
          rw [readAt, ← hsame]
        rw [starts_cons h0, List.foldl_cons, hread, parseStep_rest h0]
        exact ih (stepRest (skipBlanks text)).length (by omega) _
          ((parseStep merge ⟨text, s.1, s.2⟩).cfg, (parseStep merge ⟨text, s.1, s.2⟩).cur) rfl

/-! ## Behind a line end -/

/-- A text that goes on behind a line end. -/
structure AtLineEnd (r : List Byte) : Prop where
  starts_newline : ∃ c x, r = c :: x ∧ isNewline c = true

theorem newline_facts {c : Byte} (h : isNewline c = true) :
    c ≠ 0 ∧ c ≠ 93 ∧ isSpace c = false ∧ (isSpace c || isNewline c) = true := by
  rw [isNewline, Bool.or_eq_true, beq_iff_eq, beq_iff_eq] at h
  rcases h with rfl | rfl <;> decide

theorem AtLineEnd.stops {r : List Byte} (h : AtLineEnd r) {f : Byte → Bool} (hf : ∀ c, isNewline c = true → f c = false) :
    Stops f r := by
  obtain ⟨c, x, rfl, hc⟩ := h.starts_newline
  exact .inr (hf c hc)

theorem dropC_append {f : Byte → Bool} {r : List Byte} (hr : Stops f r) (p : List Byte) (hp : ∀ c ∈ p, c ≠ 0) :
    dropC f (p ++ r) = dropC f p ++ r := by
  induction p with
  | nil => exact dropC_of_stops hr
  | cons c p ih =>
    have hrest := ih fun d hd => hp d (List.mem_cons_of_mem _ hd)
    by_cases hc : (c != 0 && f c) = true
    · rw [List.cons_append, dropC_cons_of_pos hc, dropC_cons_of_pos hc, hrest]
    · rw [List.cons_append, dropC_cons_of_neg hc, dropC_cons_of_neg hc, List.cons_append]

theorem takeC_append {f : Byte → Bool} {r : List Byte} (hr : Stops f r) (p : List Byte) :
    takeC f (p ++ r) = takeC f p := by
  induction p with
  | nil => exact takeC_of_stops hr
  | cons c p ih =>
    by_cases hc : (c != 0 && f c) = true
    · rw [List.cons_append, takeC_cons_of_pos hc, takeC_cons_of_pos hc, ih]
    · rw [List.cons_append, takeC_cons_of_neg hc, takeC_cons_of_neg hc]

theorem skipBlanks_append {p : List Byte} (h : skipBlanks p ≠ []) (r : List Byte) :
    skipBlanks (p ++ r) = skipBlanks p ++ r := by
  induction p with
  | nil => exact absurd rfl h
  | cons c p ih =>
    by_cases hc : (c != 0 && (isSpace c || isNewline c)) = true
    · have hdrop : ∀ l, skipBlanks (c :: l) = skipBlanks l := fun l => dropC_cons_of_pos hc l
      rw [hdrop] at h
      rw [List.cons_append, hdrop, hdrop, ih h]
    · have hstay : ∀ l, skipBlanks (c :: l) = c :: l := fun l => dropC_cons_of_neg hc l
      rw [List.cons_append, hstay, hstay, List.cons_append]

/-- A header whose bracket is missing in the text. -/
def isOpen (p : List Byte) : Bool := deref p == 91 && !p.contains 93

/-- A header of the text has no closing bracket. -/
def headerOpen (text : List Byte) : Bool := (starts text).any isOpen

theorem skipBracket_append {p : List Byte} (h : 93 ∈ p) (hp : ∀ c ∈ p, c ≠ 0) (r : List Byte) :
    skipBracket (p ++ r) = skipBracket p ++ r := by
  induction p with
  | nil => cases h
  | cons c p ih =>
    by_cases hc : c = 93
    · subst hc
      have hstay : ∀ l, skipBracket (93 :: l) = l := by
        intro l
        rw [skipBracket, dropC_cons_of_neg (by decide)]
        rfl
      rw [List.cons_append, hstay, hstay]
    · have hpos : (c != 0 && c != 93) = true := by simp [hp c List.mem_cons_self, hc]
      have hdrop : ∀ l, skipBracket (c :: l) = skipBracket l := by
        intro l
        rw [skipBracket, skipBracket, dropC_cons_of_pos hpos]
      have hmem : 93 ∈ p := by
        rcases List.mem_cons.mp h with heq | hmem
        · exact absurd heq.symm hc
        · exact hmem
      rw [List.cons_append, hdrop, hdrop, ih hmem fun d hd => hp d (List.mem_cons_of_mem _ hd)]

theorem skipBracket_past {p : List Byte} (h : 93 ∉ p) (hp : ∀ c ∈ p, c ≠ 0) (r : List Byte) :
    skipBracket (p ++ r) = skipBracket r := by
  have hskip : dropC (· != 93) (p ++ r) = dropC (· != 93) r := by
    apply dropC_append_of_all
    intro c hc
    exact ⟨hp c hc, by simpa using fun heq : c = 93 => h (heq ▸ hc)⟩
  rw [skipBracket, skipBracket, hskip]

theorem skipBracket_nil {p : List Byte} (h : 93 ∉ p) (hp : ∀ c ∈ p, c ≠ 0) : skipBracket p = [] := by
  have := skipBracket_past h hp []
  rwa [List.append_nil] at this

theorem skipBracket_lineEnd {c : Byte} (hc : isNewline c = true) (x : List Byte) :
    skipBracket (c :: x) = skipBracket x := by
  obtain ⟨h0, h93, -⟩ := newline_facts hc
  rw [skipBracket, skipBracket, dropC_cons_of_pos (by simp [h0, h93])]

theorem stepRest_append {p r : List Byte} (hne : p ≠ []) (hp : ∀ c ∈ p, c ≠ 0) (hopen : isOpen p = false)
    (hr : AtLineEnd r) : stepRest (p ++ r) = stepRest p ++ r := by
  have hstops : Stops (fun c => !isNewline c) r := hr.stops fun c hc => by simp [hc]
  obtain ⟨x, q, rfl⟩ := List.exists_cons_of_ne_nil hne
  have hd : deref (x :: q ++ r) = x ∧ deref (x :: q) = x := ⟨rfl, rfl⟩
  unfold stepRest
  rw [hd.1, hd.2]
  by_cases hcomment : (x == 35 || x == 59) = true
  · rw [if_pos hcomment, if_pos hcomment, dropC_append hstops _ hp]
  · rw [if_neg hcomment, if_neg hcomment]
    by_cases hsection : (x == 91) = true
    · have hx : x = 91 := by simpa using hsection
      have hmem : 93 ∈ q := by
        subst hx
        simpa [isOpen, deref] using hopen
      rw [if_pos hsection, if_pos hsection]
      exact skipBracket_append hmem (fun c hc => hp c (List.mem_cons_of_mem _ hc)) r
    · have hlen : ((takeC (fun c => !isNewline c) (x :: q)).take (maxStrLen * 2 - 1)).length ≤ (x :: q).length := by
        rw [List.length_take]
        have := (List.takeWhile_sublist (fun c => c != 0 && !isNewline c) (l := x :: q)).length_le
        exact le_trans (Nat.min_le_right _ _) this
      rw [if_neg hsection, if_neg hsection, takeC_append hstops, List.drop_append_of_le_length hlen]

/-- A header left open takes the rest of its text, and what is in front of the next bracket. -/
theorem stepRest_open {p : List Byte} (hp : ∀ c ∈ p, c ≠ 0) (hopen : isOpen p = true) {c : Byte} (hc : isNewline c = true)
    (x : List Byte) : stepRest p = [] ∧ stepRest (p ++ c :: x) = skipBracket x := by
  rw [isOpen, Bool.and_eq_true, beq_iff_eq, Bool.not_eq_true', List.contains_eq_mem, decide_eq_false_iff_not] at hopen
  cases p with
  | nil => exact absurd hopen.1 (by decide)
  | cons y q =>
    have hy : y = 91 := hopen.1
    subst hy
    have hnot : 93 ∉ q := fun h => hopen.2 (List.mem_cons_of_mem _ h)
    have hq : ∀ d ∈ q, d ≠ 0 := fun d hd => hp d (List.mem_cons_of_mem _ hd)
    have hstep : ∀ l, stepRest (91 :: l) = skipBracket l := fun l => rfl
    rw [List.cons_append, hstep, hstep, skipBracket_nil hnot hq, skipBracket_past hnot hq, skipBracket_lineEnd hc]
    exact ⟨rfl, rfl⟩

theorem starts_blank {ws : List Byte} (hws : ∀ c ∈ ws, isBlank c = true) (text : List Byte) :
    starts (ws ++ text) = starts text := by
  have hskip : skipBlanks (ws ++ text) = skipBlanks text :=
    dropC_append_of_all (fun c hc => ⟨isBlank_ne_zero (hws c hc), hws c hc⟩) text
  by_cases h0 : deref (skipBlanks text) = 0
  · rw [starts_end (by rw [hskip]; exact h0), starts_end h0]
  · rw [starts_cons (by rw [hskip]; exact h0), starts_cons h0, hskip]

theorem skipBlanks_cases {text : List Byte} (h : ∀ c ∈ text, c ≠ 0) :
    (∀ c ∈ text, isBlank c = true) ∨ (skipBlanks text ≠ [] ∧ deref (skipBlanks text) ≠ 0) := by
  cases hp : skipBlanks text with
  | nil =>
    left
    intro c hc
    have hall := List.dropWhile_eq_nil_iff.mp
      (show text.dropWhile (fun c => c != 0 && (isSpace c || isNewline c)) = [] from hp)
    exact (Bool.and_eq_true _ _ ▸ hall c hc).2
  | cons x q =>
    right
    exact ⟨List.cons_ne_nil x q, h x ((skipBlanks_suffix text).subset (by rw [hp]; exact List.mem_cons_self))⟩

/-- Behind a line end the positions are those of the text there, or of the text behind the bracket that closes the
header left open. -/
theorem starts_append {a : List Byte} (ha : ∀ c ∈ a, c ≠ 0) {c : Byte} (hc : isNewline c = true) (x : List Byte) :
    starts (a ++ c :: x) = (starts a).map (· ++ c :: x) ++
      if headerOpen a then starts (skipBracket x) else starts x := by
  induction hn : a.length using Nat.strong_induction_on generalizing a with
  | _ n ih =>
    have hr : AtLineEnd (c :: x) := ⟨c, x, rfl, hc⟩
    rcases skipBlanks_cases ha with hblank | ⟨hne, h0⟩
    · -- nothing but blanks up to the line end and behind it
      have hnone : starts a = [] := by
        have := starts_blank hblank []
        rwa [List.append_nil] at this
      have hfeed : starts (c :: x) = starts x :=
        @starts_blank [c] (fun d hd => List.mem_singleton.mp hd ▸ (newline_facts hc).2.2.2) x
      rw [starts_blank hblank, headerOpen, hnone, hfeed]
      rfl
    · have hbytes : ∀ d ∈ skipBlanks a, d ≠ 0 := fun d hd => ha d ((skipBlanks_suffix a).subset hd)
      have hlt := length_stepRest_lt h0
      have hle := length_skipBlanks_le a
      have happ := skipBlanks_append hne (c :: x)
      have happ0 : deref (skipBlanks (a ++ c :: x)) ≠ 0 := by
        rw [happ]
        obtain ⟨y, q, hq⟩ := List.exists_cons_of_ne_nil hne
        rw [hq] at h0 ⊢
        exact h0
      rw [starts_cons happ0, happ, starts_cons h0, List.map_cons, List.cons_append, headerOpen, starts_cons h0,
        List.any_cons]
      cases hopen : isOpen (skipBlanks a) with
      | false =>
        rw [stepRest_append hne hbytes hopen hr, Bool.false_or]
        exact congrArg (List.cons _)
          (ih (stepRest (skipBlanks a)).length (by omega) (fun d hd => hbytes d ((stepRest_suffix _).subset hd)) rfl)
      | true =>
        obtain ⟨hend, hpast⟩ := stepRest_open hbytes hopen hc x
        rw [hend, hpast, Bool.true_or, if_pos rfl]
        rfl

theorem strStarts_append_lineEnd {w : List Byte} (hw : ∀ c ∈ w, c ≠ 0 ∧ isNewline c = false) (q : List Byte) {r : List Byte}
    (hr : AtLineEnd r) : strStarts (q ++ r) w = strStarts q w := by
  obtain ⟨c, x, rfl, hc⟩ := hr.starts_newline
  induction w generalizing q with
  | nil => simp [strStarts]
  | cons d w ih =>
    have hd := hw d List.mem_cons_self
    cases q with
    | nil =>
      have hne : (c == d) = false := by
        rw [beq_eq_false_iff_ne]
        rintro rfl
        rw [hc] at hd
        exact absurd hd.2 (by decide)
      have hne0 : ((0 : Byte) == d) = false := by
        rw [beq_eq_false_iff_ne]
        exact Ne.symm hd.1
      simp [strStarts, deref, hne, hne0]
    | cons y q =>
      rw [List.cons_append, strStarts, strStarts, List.tail_cons, List.tail_cons,
        ih (fun e he => hw e (List.mem_cons_of_mem _ he))]
      rfl

theorem entry_bytes : ∀ c ∈ lit "entry:", c ≠ 0 ∧ isNewline c = false := by decide +kernel

/-- What an iteration does to the table is decided by the line it is on. -/
theorem readAt_append {p r : List Byte} (hstart : skipBlanks p = p) (hne : p ≠ []) (hp : ∀ c ∈ p, c ≠ 0) (hr : AtLineEnd r)
    (s : BootConfig × Option Nat) : readAt merge s (p ++ r) = readAt merge s p := by
  have hstops : Stops (fun c => !isNewline c) r := hr.stops fun c hc => by simp [hc]
  have hname : Stops (fun c => c != 93 && !isNewline c) r := hr.stops fun c hc => by simp [hc]
  have hskip : dropC (fun c => isSpace c || isNewline c) (p ++ r) = p ++ r := by
    have happ := skipBlanks_append (p := p) (by rw [hstart]; exact hne) r
    rw [hstart] at happ
    exact happ
  have hstay : dropC (fun c => isSpace c || isNewline c) p = p := hstart
  obtain ⟨y, q, rfl⟩ := List.exists_cons_of_ne_nil hne
  have hd : deref (y :: q ++ r) = y ∧ deref (y :: q) = y := ⟨rfl, rfl⟩
  have hy : ¬(y == 0) = true := by simpa using hp y List.mem_cons_self
  unfold readAt parseStep
  dsimp only
  rw [hskip, hstay, hd.1, hd.2, if_neg hy, if_neg hy]
  by_cases hcomment : (y == 35 || y == 59) = true
  · rw [if_pos hcomment, if_pos hcomment]
  · rw [if_neg hcomment, if_neg hcomment]
    by_cases hsection : (y == 91) = true
    · rw [if_pos hsection, if_pos hsection, List.cons_append, List.tail_cons, List.tail_cons]
      unfold parseSection
      dsimp only
      rw [strStarts_append_lineEnd entry_bytes q hr]
      by_cases hentry : strStarts q (lit "entry:") = true
      · obtain ⟨rest, rfl⟩ := strStarts_eq_append no_nul_entry hentry
        have hdrop : ∀ l, (lit "entry:" ++ l).drop 6 = l := fun l => List.drop_left' (by decide)
        rw [if_pos hentry, if_pos hentry, List.append_assoc, hdrop, hdrop, takeC_append hname]
        split_ifs <;> rfl
      · rw [if_neg hentry, if_neg hentry]
    · rw [if_neg hsection, if_neg hsection]
      unfold parseLine
      dsimp only
      rw [takeC_append hstops]
      split <;> rfl

theorem starts_facts {text p : List Byte} (htext : ∀ c ∈ text, c ≠ 0) (h : p ∈ starts text) :
    skipBlanks p = p ∧ p ≠ [] ∧ ∀ c ∈ p, c ≠ 0 := by
  induction hn : text.length using Nat.strong_induction_on generalizing text with
  | _ n ih =>
    rcases skipBlanks_cases htext with hblank | ⟨hne, h0⟩
    · have hnone := starts_blank hblank []
      rw [List.append_nil] at hnone
      rw [hnone] at h
      cases h
    · have hbytes : ∀ d ∈ skipBlanks text, d ≠ 0 := fun d hd => htext d ((skipBlanks_suffix text).subset hd)
      have hlt := length_stepRest_lt h0
      have hle := length_skipBlanks_le text
      rw [starts_cons h0] at h
      rcases List.mem_cons.mp h with rfl | hrest
      · exact ⟨skipBlanks_idem text, hne, hbytes⟩
      · exact ih (stepRest (skipBlanks text)).length (by omega)
          (fun d hd => hbytes d ((stepRest_suffix _).subset hd)) hrest rfl

theorem parseText_append {a : List Byte} (ha : ∀ c ∈ a, c ≠ 0) {c : Byte} (hc : isNewline c = true) (x : List Byte)
    (s : BootConfig × Option Nat) :
    parseText merge (a ++ c :: x) s.1 s.2 =
      parseText merge (if headerOpen a then skipBracket x else x) (parseText merge a s.1 s.2).1
        (parseText merge a s.1 s.2).2 := by
  have hfirst : ∀ (ps : List (List Byte)) (s : BootConfig × Option Nat), (∀ p ∈ ps, p ∈ starts a) →
      (ps.map (· ++ c :: x)).foldl (readAt merge) s = ps.foldl (readAt merge) s := by
    intro ps s hps
    rw [List.foldl_map]
    apply List.foldl_ext
    intro t p hp
    obtain ⟨hskip, hne, hbytes⟩ := starts_facts ha (hps p hp)
    exact readAt_append hskip hne hbytes ⟨c, x, rfl, hc⟩ t
  rw [parseText_starts merge _ s, parseText_starts merge a s, parseText_starts, starts_append ha hc, List.foldl_append,
    hfirst _ _ fun p hp => hp]
  split_ifs <;> rfl

theorem parseText_lineEnd {a : List Byte} (ha : ∀ c ∈ a, c ≠ 0) {c : Byte} (hc : isNewline c = true)
    (s : BootConfig × Option Nat) : parseText merge (a ++ [c]) s.1 s.2 = parseText merge a s.1 s.2 := by
  rw [parseText_append ha hc []]
  split_ifs <;> rfl

/-! ## Composition -/

/-- From wherever `do_parse` starts, the main loop on the text, a line end and another text is the main loop on the
other text after the text and the line end. -/
def Composes (merge : Bool) (a : List Byte) : Prop :=
  ∀ (cfg : BootConfig) (c : Byte) (b : List Byte), isNewline c = true →
    parseText merge (a ++ c :: b) (startConfig merge cfg) none =
      parseText merge b (parseText merge (a ++ [c]) (startConfig merge cfg) none).1
        (parseText merge (a ++ [c]) (startConfig merge cfg) none).2

/-- The current entry is in the table, and there is none only while the table is empty. -/
def CurOk (s : BootConfig × Option Nat) : Prop :=
  match s.2 with
  | none => s.1.entries = []
  | some i => i < s.1.numEntries

theorem readAt_curOk {s : BootConfig × Option Nat} (h : CurOk s) (p : List Byte) : CurOk (readAt merge s p) := by
  unfold readAt CurOk at *
  rcases parseStep_cases merge ⟨p, s.1, s.2⟩ with ⟨hcfg, hcur⟩ | ⟨-, hcur, e, hcfg⟩ | ⟨hcur, key, val, hcfg⟩
  · rw [hcfg, hcur]
    exact h
  · rw [hcfg, hcur]
    simp [BootConfig.numEntries]
  · rw [hcfg, hcur]
    rcases s with ⟨cfg, _ | i⟩
    · have hnum := applySetting_numEntries merge cfg none key val
      have hnil : cfg.entries = [] := h
      exact List.length_eq_zero_iff.mp (hnum.trans (by rw [BootConfig.numEntries, hnil]; rfl))
    · have hnum := applySetting_numEntries merge cfg (some i) key val
      have hlt : i < cfg.numEntries := h
      show i < (applySetting merge cfg (some i) key val).numEntries
      omega

theorem parseText_curOk {s : BootConfig × Option Nat} (h : CurOk s) (text : List Byte) :
    CurOk (parseText merge text s.1 s.2) := by
  rw [parseText_starts]
  exact List.foldlRecOn (motive := CurOk) (starts text) _ h fun t ht p _ => readAt_curOk ht p

theorem isLine_kernel {line : List Byte} (h : line = lit "kernel=a" ∨ line = lit "kernel=b") : IsLine line := by
  have hbytes : ∀ b ∈ lit "kernel=a" ++ lit "kernel=b", b ≠ 0 ∧ isNewline b = false := by decide +kernel
  have hshort : (lit "kernel=a").length < maxStrLen * 2 ∧ (lit "kernel=b").length < maxStrLen * 2 := by decide
  have hhead : (lit "kernel=a").head? = some 107 ∧ (lit "kernel=b").head? = some 107 := by decide
  have hfirst : ∀ b : Byte, some 107 = some b → isSpace b = false ∧ b ≠ 35 ∧ b ≠ 59 ∧ b ≠ 91 := by
    rintro b hb
    obtain rfl := Option.some.inj hb
    decide
  rcases h with rfl | rfl
  · exact ⟨fun b hb => hbytes b (List.mem_append_left _ hb), hshort.1, fun b hb => hfirst b (hhead.1 ▸ hb), by decide⟩
  · exact ⟨fun b hb => hbytes b (List.mem_append_right _ hb), hshort.2, fun b hb => hfirst b (hhead.2 ▸ hb), by decide⟩

theorem parseText_kernel {line val : List Byte} (hline : IsLine line)
    (hkv : parseKv line 64 maxStrLen = some (lit "kernel", val)) (cfg : BootConfig) (i : Nat) :
    (parseText merge line cfg (some i)).1.entries =
      cfg.entries.modify i fun e => { e with kernel := strCopy val maxStrLen } := by
  have hset : ∀ e : BootEntry, setEntry e (lit "kernel") val = { e with kernel := strCopy val maxStrLen } := by
    intro e
    have hnot : strEq (lit "kernel") (lit "type") = false ∧ strEq (lit "kernel") (lit "kernel") = true := by decide
    rw [setEntry, hnot.1, hnot.2]
    rfl
  have hparse : parseText merge (line ++ []) cfg (some i) = _ := parseText_line hline (.inl rfl)
  rw [List.append_nil] at hparse
  rw [hparse, parseText_end rfl, applyLine, hkv]
  simp only [applySetting, hset]

/-- In every state some text says something that is lost when it is searched for a bracket first. -/
theorem exists_lost (merge : Bool) {s : BootConfig × Option Nat} (h : CurOk s) :
    ∃ b, parseText merge (skipBracket b) s.1 s.2 ≠ parseText merge b s.1 s.2 := by
  by_contra hall
  have hlost : ∀ b, parseText merge (skipBracket b) s.1 s.2 = parseText merge b s.1 s.2 := by
    intro b
    by_contra hne
    exact hall ⟨b, hne⟩
  rcases s with ⟨cfg, _ | i⟩
  · -- a header
    have hnil : cfg.entries = [] := h
    have hskip : skipBracket (headerLine (lit "a")) = [] := by decide
    have hroom : cfg.numEntries < maxEntries := by rw [BootConfig.numEntries, hnil]; decide
    have hsection : parseText merge (headerLine (lit "a") ++ []) cfg none = _ :=
      parseText_section (by decide +kernel) []
    rw [List.append_nil, if_pos hroom, parseText_nil] at hsection
    have hheader := hlost (headerLine (lit "a"))
    rw [hskip, parseText_nil] at hheader
    dsimp only at hheader
    rw [hsection] at hheader
    have hentries := congrArg (fun t : BootConfig × Option Nat => t.1.entries) hheader
    dsimp only at hentries
    rw [hnil] at hentries
    cases hentries
  · -- two kernels the current entry cannot both have
    have hi : i < cfg.entries.length := h
    have hkernel : ∀ line val, IsLine line → parseKv line 64 maxStrLen = some (lit "kernel", val) →
        skipBracket line = [] → (cfg.entries[i]).kernel = strCopy val maxStrLen := by
      intro line val hline hkv hskip
      have heq := hlost line
      rw [hskip, parseText_nil] at heq
      have hentries := congrArg (fun t : BootConfig × Option Nat => t.1.entries) heq
      dsimp only at hentries
      rw [parseText_kernel hline hkv] at hentries
      have hget := congrArg (fun es : List BootEntry => es[i]?.map BootEntry.kernel) hentries
      simpa [hi] using hget
    have hvals : parseKv (lit "kernel=a") 64 maxStrLen = some (lit "kernel", lit "a") ∧
        parseKv (lit "kernel=b") 64 maxStrLen = some (lit "kernel", lit "b") ∧ skipBracket (lit "kernel=a") = [] ∧
        skipBracket (lit "kernel=b") = [] ∧ strCopy (lit "a") maxStrLen ≠ strCopy (lit "b") maxStrLen := by
      decide
    obtain ⟨hkva, hkvb, hskipa, hskipb, hne⟩ := hvals
    exact hne ((hkernel _ _ (isLine_kernel (.inl rfl)) hkva hskipa).symm.trans
      (hkernel _ _ (isLine_kernel (.inr rfl)) hkvb hskipb))

theorem composes_iff_closed (merge : Bool) {a : List Byte} (ha : ∀ c ∈ a, c ≠ 0) :
    Composes merge a ↔ headerOpen a = false := by
  have hend : ∀ (cfg : BootConfig) {c : Byte}, isNewline c = true →
      parseText merge (a ++ [c]) (startConfig merge cfg) none = parseText merge a (startConfig merge cfg) none :=
    fun cfg _ hc => parseText_lineEnd ha hc (startConfig merge cfg, none)
  have happ : ∀ (cfg : BootConfig) {c : Byte} (b : List Byte), isNewline c = true →
      parseText merge (a ++ c :: b) (startConfig merge cfg) none =
        parseText merge (if headerOpen a then skipBracket b else b) (parseText merge a (startConfig merge cfg) none).1
          (parseText merge a (startConfig merge cfg) none).2 :=
    fun cfg _ b hc => parseText_append ha hc b (startConfig merge cfg, none)
  constructor
  · intro h
    have hstart : CurOk (startConfig merge {}, none) := by
      cases merge <;> exact (rfl : ([] : List BootEntry) = [])
    obtain ⟨b, hlost⟩ := exists_lost merge (@parseText_curOk merge _ hstart a)
    have hb := h {} 10 b rfl
    rw [happ {} b rfl, hend {} rfl] at hb
    by_contra hopen
    rw [if_pos (by simpa using hopen)] at hb
    exact hlost hb
  · intro hclosed cfg c b hc
    rw [happ cfg b hc, hend cfg hc, hclosed]
    rfl

/-- What a header left open takes with it: the loop goes on behind the next bracket of the other text. -/
def Swallows (merge : Bool) (a : List Byte) : Prop :=
  ∀ (cfg : BootConfig) (c : Byte) (b : List Byte), isNewline c = true →
    parseText merge (a ++ c :: b) (startConfig merge cfg) none =
      parseText merge (skipBracket b) (parseText merge (a ++ [c]) (startConfig merge cfg) none).1
        (parseText merge (a ++ [c]) (startConfig merge cfg) none).2

theorem swallows_open (merge : Bool) {a : List Byte} (ha : ∀ c ∈ a, c ≠ 0) (h : headerOpen a = true) :
    Swallows merge a := by
  intro cfg c b hc
  have hsplit := @parseText_append merge a ha c hc b (startConfig merge cfg, none)
  have hend := @parseText_lineEnd merge a ha c hc (startConfig merge cfg, none)
  dsimp only at hsplit hend
  rw [hsplit, hend, if_pos h]

/-- The line at a position. -/
def lineAt (p : List Byte) : List Byte := takeC (fun c => !isNewline c) p

/-- Every section header of the text has its bracket on its own line. -/
def HeadersClosed (a : List Byte) : Prop := ∀ p ∈ starts a, deref p = 91 → 93 ∈ lineAt p

/-- Parsing composes at the end of the text and at every line end inside it. -/
def ComposesThroughout (merge : Bool) (a : List Byte) : Prop :=
  Composes merge a ∧ ∀ a₁ c a₂, a = a₁ ++ c :: a₂ → isNewline c = true → Composes merge a₁

theorem headerOpen_of_closed {a : List Byte} (h : HeadersClosed a) : headerOpen a = false := by
  rw [headerOpen, List.any_eq_false]
  intro p hp hopen
  rw [isOpen, Bool.and_eq_true, beq_iff_eq, Bool.not_eq_true', List.contains_eq_mem, decide_eq_false_iff_not] at hopen
  exact hopen.2 ((List.takeWhile_sublist _).mem (h p hp hopen.1))

theorem HeadersClosed.before {a₁ a₂ : List Byte} {c : Byte} (h : HeadersClosed (a₁ ++ c :: a₂))
    (ha : ∀ d ∈ a₁, d ≠ 0) (hc : isNewline c = true) : HeadersClosed a₁ := by
  intro p hp h91
  have hmem : p ++ c :: a₂ ∈ starts (a₁ ++ c :: a₂) := by
    rw [starts_append ha hc]
    exact List.mem_append_left _ (List.mem_map_of_mem hp)
  have hline : lineAt (p ++ c :: a₂) = lineAt p := takeC_append (.inr (by simp [deref, hc])) p
  obtain ⟨y, q, rfl⟩ := List.exists_cons_of_ne_nil (starts_facts ha hp).2.1
  rw [← hline]
  exact h _ hmem h91

theorem lineAt_cases {p : List Byte} (hp : ∀ d ∈ p, d ≠ 0) :
    p = lineAt p ∨ ∃ c x, isNewline c = true ∧ p = lineAt p ++ c :: x := by
  have hsplit : lineAt p ++ dropC (fun c => !isNewline c) p = p := takeC_append_dropC _ p
  cases hr : dropC (fun c => !isNewline c) p with
  | nil =>
    rw [hr, List.append_nil] at hsplit
    exact .inl hsplit.symm
  | cons c x =>
    rw [hr] at hsplit
    have h0 : c ≠ 0 := hp c (by rw [← hsplit]; simp)
    have hhead := List.head?_dropWhile_not (fun c => c != 0 && !isNewline c) p
    rw [show p.dropWhile (fun c => c != 0 && !isNewline c) = c :: x from hr] at hhead
    exact .inr ⟨c, x, by simpa [h0] using hhead, hsplit.symm⟩

theorem headerOpen_line {pre line : List Byte} (hmem : line ∈ starts (pre ++ line)) (h91 : deref line = 91)
    (hopen : 93 ∉ line) : headerOpen (pre ++ line) = true :=
  List.any_eq_true.mpr ⟨line, hmem, by simp [isOpen, h91, hopen]⟩

theorem mem_starts_line {pre line x : List Byte} {c : Byte} (ha : ∀ d ∈ pre ++ line, d ≠ 0) (hc : isNewline c = true)
    (h : line ++ c :: x ∈ starts (pre ++ (line ++ c :: x))) : line ∈ starts (pre ++ line) := by
  rw [← List.append_assoc, starts_append ha hc, List.mem_append] at h
  rcases h with hmap | htail
  · obtain ⟨q, hq, heq⟩ := List.mem_map.mp hmap
    rwa [List.append_cancel_right heq] at hq
  · -- the positions behind the line are too short
    have hle : (line ++ c :: x).length ≤ x.length := by
      split_ifs at htail
      · exact (suffix_of_mem_starts htail).length_le.trans (length_skipBracket_le x)
      · exact (suffix_of_mem_starts htail).length_le
    rw [List.length_append, List.length_cons] at hle
    omega

theorem deref_lineAt {p : List Byte} (h : deref p = 91) : deref (lineAt p) = 91 := by
  cases p with
  | nil => exact absurd h (by decide)
  | cons y q =>
    have hy : y = 91 := h
    subst hy
    rfl

theorem composesThroughout_iff (merge : Bool) {a : List Byte} (ha : ∀ c ∈ a, c ≠ 0) :
    ComposesThroughout merge a ↔ HeadersClosed a := by
  constructor
  · rintro ⟨hend, hinside⟩ p hp h91
    by_contra hopen
    obtain ⟨pre, rfl⟩ := suffix_of_mem_starts hp
    have h91' := deref_lineAt h91
    have hp0 : ∀ d ∈ p, d ≠ 0 := fun d hd => ha d (List.mem_append_right _ hd)
    rcases lineAt_cases hp0 with hline | ⟨c, x, hc, hline⟩
    · -- the last line of the text
      rw [hline] at hp
      have hclosed := (composes_iff_closed merge ha).mp hend
      rw [hline, headerOpen_line hp h91' hopen] at hclosed
      cases hclosed
    · have ha₁ : ∀ d ∈ pre ++ lineAt p, d ≠ 0 := fun d hd => ha d
        (List.append_subset.mpr ⟨List.subset_append_left _ _, fun e he =>
          List.mem_append_right _ ((List.takeWhile_sublist _).mem he)⟩ hd)
      have hclosed := (composes_iff_closed merge ha₁).mp
        (hinside (pre ++ lineAt p) c x (by rw [List.append_assoc, ← hline]) hc)
      rw [hline] at hp
      rw [headerOpen_line (mem_starts_line ha₁ hc hp) h91' hopen] at hclosed
      cases hclosed
  · intro h
    refine ⟨(composes_iff_closed merge ha).mpr (headerOpen_of_closed h), fun a₁ c a₂ heq hc => ?_⟩
    subst heq
    have ha₁ : ∀ d ∈ a₁, d ≠ 0 := fun d hd => ha d (List.mem_append_left _ hd)
    exact (composes_iff_closed merge ha₁).mpr (headerOpen_of_closed (h.before ha₁ hc))

/-- Parsing composes at the end of a text exactly when no section header of it is without its closing bracket; if one
is, the text behind it is lost up to the next bracket. It composes at every line end exactly when each header has its
bracket on its own line. -/
theorem composes_iff (merge : Bool) {a : List Byte} (ha : ∀ c ∈ a, c ≠ 0) :
    (Composes merge a ↔ headerOpen a = false) ∧ (headerOpen a = true → Swallows merge a) ∧
      (ComposesThroughout merge a ↔ HeadersClosed a) :=
  ⟨composes_iff_closed merge ha, swallows_open merge ha, composesThroughout_iff merge ha⟩

/-- A header without its bracket takes the header behind it with it. -/
theorem open_header_swallows : ¬Composes false (lit "[entry:a") ∧
    (parseText false (lit "[entry:a" ++ 10 :: lit "[entry:b]") {} none).1.entries.map BootEntry.name = [lit "a"] := by
  refine ⟨?_, by decide⟩
  intro h
  have hb := h {} 10 (lit "[entry:b]") rfl
  have hcount : (parseText false (lit "[entry:a" ++ 10 :: lit "[entry:b]") (startConfig false {}) none).1.numEntries ≠
      (parseText false (lit "[entry:b]") (parseText false (lit "[entry:a" ++ [10]) (startConfig false {}) none).1
        (parseText false (lit "[entry:a" ++ [10]) (startConfig false {}) none).2).1.numEntries := by decide
  exact hcount (congrArg (fun t : BootConfig × Option Nat => t.1.numEntries) hb)

theorem composes_closed : (∀ c ∈ lit "[entry:a]", c ≠ 0) ∧ Composes true (lit "[entry:a]") :=
  ⟨by decide +kernel, (composes_iff true (by decide +kernel)).1.mpr (by decide +kernel)⟩

/-! ## One line -/

/-- What an iteration takes a text for. -/
inductive Reading
  | comment
  | header
  | setting (key val : List Byte)
  deriving DecidableEq, Repr

/-- The reading at a position; a line that is not `key = value` has none. -/
def readingAt (p : List Byte) : Option Reading :=
  if deref p == 35 || deref p == 59 then some .comment
  else if deref p == 91 then some .header
  else (parseKv ((takeC (fun c => !isNewline c) p).take (maxStrLen * 2 - 1)) 64 maxStrLen).map fun kv =>
    .setting kv.1 kv.2

/-- The positions of the main loop of `do_parse`, iteration by iteration. -/
def parseStarts (merge : Bool) : Nat → ParseState → List (List Byte)
  | 0, _ => []
  | n + 1, s =>
    let p := dropC (fun c => isSpace c || isNewline c) s.rest
    if deref p == 0 then [] else p :: parseStarts merge n (parseStep merge s)

theorem parseStarts_eq (merge : Bool) (n : Nat) (s : ParseState) : parseStarts merge n s = startsLoop n s.rest := by
  induction n generalizing s with
  | zero => rfl
  | succ n ih =>
    unfold parseStarts startsLoop
    have hp : dropC (fun c => isSpace c || isNewline c) s.rest = skipBlanks s.rest := rfl
    dsimp only
    rw [hp]
    by_cases h0 : deref (skipBlanks s.rest) = 0
    · rw [if_pos (by simpa using h0), if_pos (by simpa using h0)]
    · rw [if_neg (by simpa using h0), if_neg (by simpa using h0), ih, parseStep_rest h0]

/-- The text is `pre`, a whole line, and `post`; the line is neither a comment nor a section header. -/
structure LineOf (pre line post : List Byte) : Prop where
  no_nul : ∀ c ∈ pre ++ (line ++ post), c ≠ 0
  no_newline : ∀ c ∈ line, isNewline c = false
  begins : pre = [] ∨ ∃ a c, pre = a ++ [c] ∧ isNewline c = true
  ends : post = [] ∨ AtLineEnd post
  plain : ∀ b, (line.dropWhile isSpace).head? = some b → b ≠ 35 ∧ b ≠ 59 ∧ b ≠ 91

/-- Whatever is read inside the line is one setting, read at its first byte that is no blank. -/
def OneSetting (merge : Bool) (pre line post : List Byte) : Prop :=
  ∀ cfg, ∀ p ∈ parseStarts merge (pre ++ (line ++ post)).length ⟨pre ++ (line ++ post), startConfig merge cfg, none⟩,
    post.length < p.length → p.length ≤ (line ++ post).length → ∀ r, readingAt p = some r →
      p = line.dropWhile isSpace ++ post ∧ ∃ key val, r = .setting key val

/-- Nothing can be read in a rest of a line, where the parser goes on in steps of 511 bytes. -/
def quietLoop : Nat → List Byte → Bool
  | 0, _ => true
  | n + 1, r =>
    match r.dropWhile isSpace with
    | [] => true
    | c :: l =>
      if c == 35 || c == 59 || c == 91 then false
      else (parseKv ((c :: l).take (maxStrLen * 2 - 1)) 64 maxStrLen).isNone &&
        quietLoop n ((c :: l).drop (maxStrLen * 2 - 1))

def quiet (r : List Byte) : Bool := quietLoop r.length r

/-- A piece of a line. -/
def InLine (r : List Byte) : Prop := ∀ c ∈ r, c ≠ 0 ∧ isNewline c = false

theorem skipBlanks_inLine {r : List Byte} (hr : InLine r) : skipBlanks r = r.dropWhile isSpace := by
  induction r with
  | nil => rfl
  | cons c r ih =>
    obtain ⟨h0, hnl⟩ := hr c List.mem_cons_self
    have hrest := ih fun d hd => hr d (List.mem_cons_of_mem _ hd)
    cases hc : isSpace c with
    | true =>
      rw [List.dropWhile_cons_of_pos hc, ← hrest]
      exact dropC_cons_of_pos (by simp [h0, hc]) r
    | false =>
      rw [List.dropWhile_cons_of_neg (by simp [hc])]
      exact dropC_cons_of_neg (by simp [hc, hnl]) r

theorem InLine.dropWhile {r : List Byte} (hr : InLine r) : InLine (r.dropWhile isSpace) :=
  fun c hc => hr c ((List.dropWhile_sublist _).mem hc)

theorem line_step {c : Byte} {l post : List Byte} (hl : InLine (c :: l)) (hpost : Stops (fun c => !isNewline c) post)
    (hplain : ¬(c == 35 || c == 59) = true) (hsection : ¬(c == 91) = true) :
    stepRest (c :: l ++ post) = (c :: l).drop (maxStrLen * 2 - 1) ++ post ∧
      readingAt (c :: l ++ post) = (parseKv ((c :: l).take (maxStrLen * 2 - 1)) 64 maxStrLen).map fun kv =>
        .setting kv.1 kv.2 := by
  have hd : deref (c :: l ++ post) = c := rfl
  have htake : takeC (fun c => !isNewline c) (c :: l ++ post) = c :: l := by
    rw [takeC_append_of_all (fun d hd => ⟨(hl d hd).1, by simp [(hl d hd).2]⟩), takeC_of_stops hpost, List.append_nil]
  constructor
  · rw [stepRest, hd, if_neg hplain, if_neg hsection, htake, List.length_take]
    rcases Nat.le_total (maxStrLen * 2 - 1) (c :: l).length with hle | hge
    · rw [Nat.min_eq_left hle, List.drop_append_of_le_length hle]
    · rw [Nat.min_eq_right hge, List.drop_left, List.drop_eq_nil_of_le hge, List.nil_append]
  · rw [readingAt, hd, if_neg hplain, if_neg hsection, htake]

theorem quietLoop_iff {post : List Byte} (hpost : Stops (fun c => !isNewline c) post) (n : Nat) {r : List Byte}
    (hr : InLine r) (hn : r.length ≤ n) :
    quietLoop n r = true ↔ ∀ p ∈ starts (r ++ post), post.length < p.length → readingAt p = none := by
  have hblank : ∀ r : List Byte, r.dropWhile isSpace = [] → ∀ p ∈ starts (r ++ post), ¬post.length < p.length := by
    intro r hnil p hp
    have hall : ∀ c ∈ r, isBlank c = true := by
      intro c hc
      have := List.dropWhile_eq_nil_iff.mp hnil c hc
      rw [isBlank, this, Bool.true_or]
    rw [starts_blank hall] at hp
    have := (suffix_of_mem_starts hp).length_le
    omega
  induction n generalizing r with
  | zero =>
    have hnil : r = [] := List.length_eq_zero_iff.mp (by omega)
    subst hnil
    exact ⟨fun _ p hp hlt => absurd hlt (hblank [] rfl p hp), fun _ => rfl⟩
  | succ n ih =>
    unfold quietLoop
    cases hq : r.dropWhile isSpace with
    | nil => exact ⟨fun _ p hp hlt => absurd hlt (hblank r hq p hp), fun _ => rfl⟩
    | cons c l =>
      have hl : InLine (c :: l) := hq ▸ hr.dropWhile
      have hlen : (c :: l).length ≤ r.length := hq ▸ (List.dropWhile_sublist _).length_le
      have hskip : skipBlanks (r ++ post) = c :: l ++ post := by
        rw [skipBlanks_append (by rw [skipBlanks_inLine hr, hq]; exact List.cons_ne_nil c l), skipBlanks_inLine hr, hq]
      have hstart : starts (r ++ post) = (c :: l ++ post) :: starts (stepRest (c :: l ++ post)) := by
        rw [starts_cons (by rw [hskip]; exact (hl c List.mem_cons_self).1), hskip]
      have hinside : post.length < (c :: l ++ post).length := by
        rw [List.length_append, List.length_cons]
        omega
      dsimp only
      by_cases hmark : (c == 35 || c == 59 || c == 91) = true
      · rw [if_pos hmark]
        refine ⟨nofun, fun h => ?_⟩
        have hread := h _ (by rw [hstart]; exact List.mem_cons_self) hinside
        have hd : deref (c :: l ++ post) = c := rfl
        unfold readingAt at hread
        rw [hd] at hread
        rw [Bool.or_eq_true] at hmark
        split_ifs at hread with h1 h2
        rcases hmark with hmark | hmark
        · exact absurd hmark h1
        · exact absurd hmark h2
      · rw [Bool.or_eq_true, not_or] at hmark
        obtain ⟨hrest, hread⟩ := line_step hl hpost hmark.1 hmark.2
        have hmark' : ¬(c == 35 || c == 59 || c == 91) = true := by rw [Bool.or_eq_true, not_or]; exact hmark
        have hnext := ih (r := (c :: l).drop (maxStrLen * 2 - 1)) (fun d hd => hl d (List.mem_of_mem_drop hd)) (by
          rw [List.length_drop, show maxStrLen * 2 - 1 = 511 from rfl]
          omega)
        rw [if_neg hmark', Bool.and_eq_true, hstart, hrest, List.forall_mem_cons, hread, Option.isNone_iff_eq_none,
          Option.map_eq_none_iff]
        exact and_congr ⟨fun h _ => h, fun h => h hinside⟩ hnext

theorem quiet_iff {post : List Byte} (hpost : Stops (fun c => !isNewline c) post) {r : List Byte} (hr : InLine r) :
    quiet r = true ↔ ∀ p ∈ starts (r ++ post), post.length < p.length → readingAt p = none :=
  quietLoop_iff hpost r.length hr (le_refl _)

/-- The rest of the line in which another reading could begin: behind its first 511 bytes, or, when a header before the
line has no bracket, behind the first bracket of the line. -/
def lineTail (pre line : List Byte) : List Byte :=
  if headerOpen pre then skipBracket line else (line.dropWhile isSpace).drop (maxStrLen * 2 - 1)

theorem headerOpen_lineEnd {a : List Byte} (ha : ∀ c ∈ a, c ≠ 0) {c : Byte} (hc : isNewline c = true) :
    headerOpen (a ++ [c]) = headerOpen a := by
  have hopen : ∀ p ∈ starts a, isOpen (p ++ [c]) = isOpen p := by
    intro p hp
    obtain ⟨-, hne, -⟩ := starts_facts ha hp
    obtain ⟨y, q, rfl⟩ := List.exists_cons_of_ne_nil hne
    have hne93 : ¬(93 : Byte) = c := fun h => (newline_facts hc).2.1 h.symm
    simp [isOpen, deref, hne93]
  have hrest : (if headerOpen a then starts (skipBracket []) else starts []) = [] := by split_ifs <;> rfl
  rw [headerOpen, starts_append ha hc, hrest, List.append_nil, List.any_map, headerOpen]
  rw [Bool.eq_iff_iff, List.any_eq_true, List.any_eq_true]
  constructor
  · rintro ⟨p, hp, hpo⟩
    exact ⟨p, hp, (hopen p hp).symm.trans hpo⟩
  · rintro ⟨p, hp, hpo⟩
    exact ⟨p, hp, (hopen p hp).trans hpo⟩

theorem length_skipBracket_lt {p : List Byte} (h : 93 ∈ p) (hp : ∀ c ∈ p, c ≠ 0) : (skipBracket p).length < p.length := by
  have hne : dropC (· != 93) p ≠ [] := by
    intro hnil
    have hall := List.dropWhile_eq_nil_iff.mp (show p.dropWhile (fun c => c != 0 && c != 93) = [] from hnil)
    exact absurd (hall 93 h) (by decide)
  have hle := length_dropC_le (· != 93) p
  have hpos := List.length_pos_iff.mpr hne
  have hhead : deref (dropC (· != 93) p) = 93 := by
    obtain ⟨y, q, hq⟩ := List.exists_cons_of_ne_nil hne
    have hstop := List.head?_dropWhile_not (fun c => c != 0 && c != 93) p
    rw [show p.dropWhile (fun c => c != 0 && c != 93) = y :: q from hq] at hstop
    have hy0 : y ≠ 0 := hp y ((List.dropWhile_sublist _).mem (hq ▸ List.mem_cons_self))
    rw [hq]
    show y = 93
    simpa [hy0] using hstop
  rw [skipBracket, hhead, if_pos (by decide), List.length_tail]
  omega

theorem starts_inside {pre line post p : List Byte} (h : LineOf pre line post) (hp : p.length ≤ (line ++ post).length) :
    p ∈ starts (pre ++ (line ++ post)) ↔
      p ∈ (if headerOpen pre then starts (skipBracket (line ++ post)) else starts (line ++ post)) := by
  rcases h.begins with rfl | ⟨a, c, rfl, hc⟩
  · rfl
  · have ha : ∀ d ∈ a, d ≠ 0 := fun d hd =>
      h.no_nul d (List.mem_append_left _ (List.mem_append_left _ hd))
    rw [headerOpen_lineEnd ha hc, List.append_assoc, List.singleton_append, starts_append ha hc, List.mem_append]
    refine ⟨fun hmem => hmem.resolve_left ?_, .inr⟩
    intro hmap
    obtain ⟨q, -, rfl⟩ := List.mem_map.mp hmap
    rw [List.length_append, List.length_cons] at hp
    omega

/-- The reading at `p` is a setting at the beginning of the line. -/
def ReadsFirst (line post p : List Byte) : Prop :=
  ∀ r, readingAt p = some r → p = line.dropWhile isSpace ++ post ∧ ∃ key val, r = .setting key val

theorem readsFirst_tail {line post t : List Byte} (hpost : Stops (fun c => !isNewline c) post) (ht : InLine t)
    (hlt : t.length < (line.dropWhile isSpace).length) :
    (∀ p ∈ starts (t ++ post), post.length < p.length → ReadsFirst line post p) ↔ quiet t = true := by
  rw [quiet_iff hpost ht]
  constructor
  · intro h p hp hin
    rw [Option.eq_none_iff_forall_ne_some]
    intro r hr
    have hle := (suffix_of_mem_starts hp).length_le
    have heq := congrArg List.length (h p hp hin r hr).1
    rw [List.length_append] at hle heq
    omega
  · intro h p hp hin r hr
    rw [h p hp hin] at hr
    cases hr

/-- A line is read once exactly when every position inside it reads nothing or the beginning of the line. -/
theorem oneSetting_iff_starts (merge : Bool) {pre line post : List Byte} (h : LineOf pre line post) :
    OneSetting merge pre line post ↔
      ∀ p ∈ (if headerOpen pre then starts (skipBracket (line ++ post)) else starts (line ++ post)),
        post.length < p.length → ReadsFirst line post p := by
  have hpositions : ∀ cfg, parseStarts merge (pre ++ (line ++ post)).length
      ⟨pre ++ (line ++ post), startConfig merge cfg, none⟩ = starts (pre ++ (line ++ post)) := fun cfg =>
    parseStarts_eq merge _ _
  have hle : ∀ p ∈ (if headerOpen pre then starts (skipBracket (line ++ post)) else starts (line ++ post)),
      p.length ≤ (line ++ post).length := by
    intro p hp
    split_ifs at hp
    · exact (suffix_of_mem_starts hp).length_le.trans (length_skipBracket_le _)
    · exact (suffix_of_mem_starts hp).length_le
  constructor
  · intro hone p hp hin r hr
    exact hone {} p (by rw [hpositions]; exact (starts_inside h (hle p hp)).mpr hp) hin (hle p hp) r hr
  · intro hall cfg p hp hin hout r hr
    rw [hpositions] at hp
    exact hall p ((starts_inside h hout).mp hp) hin r hr

theorem reads_closing_iff {line post : List Byte} (hline : InLine line)
    (hpost : Stops (fun c => !isNewline c) post) :
    (∀ p ∈ starts (skipBracket (line ++ post)), post.length < p.length → ReadsFirst line post p) ↔
      quiet (skipBracket line) = true := by
  have hbytes : ∀ c ∈ line, c ≠ 0 := fun c hc => (hline c hc).1
  by_cases hmem : 93 ∈ line
  · -- the search for the bracket ends in the line
    have hindent : skipBracket (line.dropWhile isSpace) = skipBracket line := by
      rw [← skipBlanks_inLine hline]
      exact skipBracket_dropC (by decide +kernel) line
    have hmem' : 93 ∈ line.dropWhile isSpace := by
      have happ := List.takeWhile_append_dropWhile (p := isSpace) (l := line)
      rw [← happ] at hmem
      rcases List.mem_append.mp hmem with hin | hin
      · exact absurd (List.mem_takeWhile_imp hin) (by decide)
      · exact hin
    have hlt := length_skipBracket_lt hmem' fun c hc => (hline.dropWhile c hc).1
    rw [hindent] at hlt
    rw [skipBracket_append hmem hbytes]
    exact readsFirst_tail hpost (fun c hc => hline c ((skipBracket_suffix line).subset hc)) hlt
  · -- the whole line is skipped
    rw [skipBracket_nil hmem hbytes, skipBracket_past hmem hbytes]
    refine ⟨fun _ => rfl, fun _ p hp hin => ?_⟩
    have := (suffix_of_mem_starts hp).length_le.trans (length_skipBracket_le post)
    omega

theorem reads_key_iff {line post : List Byte} (hline : InLine line) (hpost : Stops (fun c => !isNewline c) post)
    {c : Byte} {l : List Byte} (hq : line.dropWhile isSpace = c :: l) (h35 : c ≠ 35) (h59 : c ≠ 59) (h91 : c ≠ 91) :
    (∀ p ∈ starts (line ++ post), post.length < p.length → ReadsFirst line post p) ↔
      quiet ((c :: l).drop (maxStrLen * 2 - 1)) = true := by
  have hl : InLine (c :: l) := hq ▸ hline.dropWhile
  obtain ⟨hrest, hread⟩ := line_step hl hpost (by simp [h35, h59]) (by simpa using h91)
  have hskip : skipBlanks (line ++ post) = c :: l ++ post := by
    rw [skipBlanks_append (by rw [skipBlanks_inLine hline, hq]; exact List.cons_ne_nil c l), skipBlanks_inLine hline,
      hq]
  have htail := @readsFirst_tail line post ((c :: l).drop (maxStrLen * 2 - 1)) hpost
    (fun d hd => hl d (List.mem_of_mem_drop hd)) (by
      rw [hq, List.length_drop, List.length_cons, show maxStrLen * 2 - 1 = 511 from rfl]
      omega)
  rw [starts_cons (by rw [hskip]; exact (hl c List.mem_cons_self).1), hskip, hrest, List.forall_mem_cons]
  refine ⟨fun hall => htail.mp hall.2, fun hquiet => ⟨fun _ r hr => ?_, htail.mpr hquiet⟩⟩
  rw [hread] at hr
  obtain ⟨kv, -, rfl⟩ := Option.map_eq_some_iff.mp hr
  exact ⟨by rw [hq], kv.1, kv.2, rfl⟩

/-- A line is read once, as a setting from its beginning, exactly when nothing can be read in its tail. -/
theorem oneSetting_iff (merge : Bool) {pre line post : List Byte} (h : LineOf pre line post) :
    OneSetting merge pre line post ↔ quiet (lineTail pre line) = true := by
  have hline : InLine line := fun c hc =>
    ⟨h.no_nul c (List.mem_append_right _ (List.mem_append_left _ hc)), h.no_newline c hc⟩
  have hstops : Stops (fun c => !isNewline c) post := by
    rcases h.ends with rfl | hend
    · exact .inl rfl
    · exact hend.stops fun c hc => by simp [hc]
  rw [oneSetting_iff_starts merge h, lineTail]
  cases hopen : headerOpen pre with
  | true =>
    rw [if_pos rfl, if_pos rfl]
    exact reads_closing_iff hline hstops
  | false =>
    rw [if_neg Bool.false_ne_true, if_neg Bool.false_ne_true]
    cases hq : line.dropWhile isSpace with
    | nil =>
      -- a blank line
      have hall : ∀ c ∈ line, isBlank c = true := by
        intro c hc
        rw [isBlank, List.dropWhile_eq_nil_iff.mp hq c hc, Bool.true_or]
      rw [starts_blank hall]
      refine ⟨fun _ => rfl, fun _ p hp hin => ?_⟩
      have := (suffix_of_mem_starts hp).length_le
      omega
    | cons c l =>
      obtain ⟨h35, h59, h91⟩ := h.plain c (by rw [hq]; rfl)
      exact reads_key_iff hline hstops hq h35 h59 h91

/-- A command line of 511 bytes with a kernel path behind it. -/
def longLine : List Byte := lit "cmdline=" ++ (List.replicate 503 120 ++ lit "kernel=/evil")

/-- The end of the line is read as a setting of its own: it sets the kernel. -/
theorem long_line_read_twice : ¬OneSetting false (lit "[entry:a]" ++ [10]) longLine [] ∧
    (doParse (lit "[entry:a]" ++ 10 :: longLine) {} false).2.entries.map BootEntry.kernel = [lit "/evil"] := by
  have hmem : lit "kernel=/evil" ∈ parseStarts false ((lit "[entry:a]" ++ [10]) ++ (longLine ++ [])).length
      ⟨(lit "[entry:a]" ++ [10]) ++ (longLine ++ []), startConfig false {}, none⟩ := by decide +kernel
  have hread : readingAt (lit "kernel=/evil") = some (.setting (lit "kernel") (lit "/evil")) := by decide
  have hlong : lit "kernel=/evil" ≠ longLine.dropWhile isSpace ++ [] := by decide
  refine ⟨?_, by decide +kernel⟩
  intro h
  exact hlong (h {} _ hmem (by decide +kernel) (by decide +kernel) _ hread).1

theorem lineOf_timeout : LineOf [] (lit "timeout = 3") [10] where
  no_nul := by decide +kernel
  no_newline := by decide +kernel
  begins := .inl rfl
  ends := .inr ⟨10, [], rfl, rfl⟩
  plain := by
    intro b hb
    have hhead : ((lit "timeout = 3").dropWhile isSpace).head? = some 116 := by decide
    rw [hhead] at hb
    obtain rfl := Option.some.inj hb
    decide

theorem oneSetting_timeout : LineOf [] (lit "timeout = 3") [10] ∧ OneSetting false [] (lit "timeout = 3") [10] :=
  ⟨lineOf_timeout, (oneSetting_iff false lineOf_timeout).mpr (by decide)⟩

end SakuruBoot

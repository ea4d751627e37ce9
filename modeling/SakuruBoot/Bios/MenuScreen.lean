import SakuruBoot.Bios.Vga

/-!
# The menu on the VGA screen

What the BIOS user sees of `menu_run`. The box characters are three bytes each and the console prints bytes, so a border
takes three rows of the screen and the selected entry, which is as wide as the screen, takes two; with more than twelve
entries the top of the box scrolls away. The entries stay on the screen, and the row that is highlighted is the entry
that Enter boots (`menu_shows_selection`).
-/

namespace SakuruBoot
open CStr

/-! ## Typing on paper -/

def blankCell : Cell := cell vgaPlain 32

/-- A row begun with the cells, blank behind them. -/
def padRow (xs : List Cell) : Row := xs ++ List.replicate (vgaCols - xs.length) blankCell

/-- The rows a line takes. -/
def wrapRows (xs : List Cell) : List Row :=
  if xs.length < vgaCols then [padRow xs] else xs.take vgaCols :: wrapRows (xs.drop vgaCols)
termination_by xs.length
decreasing_by rw [List.length_drop]; unfold vgaCols at *; omega

/-- Complete rows, a row the cursor is in, and blank rows to the end of the first screen. -/
structure Typed (p : Paper) (done : List Row) (cur : List Cell) : Prop where
  rows : p.rows = done ++ padRow cur :: List.replicate (vgaRows - (done.length + 1)) (blankRow vgaPlain)
  row : p.row = done.length
  col : p.col = cur.length
  col_lt : cur.length < vgaCols

variable {p : Paper} {done : List Row} {cur : List Cell}

theorem typed_clear : Typed .clear [] [] where
  rows := rfl
  row := rfl
  col := rfl
  col_lt := by decide

theorem Typed.setColor (h : Typed p done cur) (attr : Byte) : Typed { p with attr := attr } done cur :=
  ⟨h.rows, h.row, h.col, h.col_lt⟩

theorem Typed.rows_put (h : Typed p done cur) (x : Cell) : (p.put x).rows =
    done ++ (cur ++ x :: List.replicate (vgaCols - (cur.length + 1)) blankCell) ::
      List.replicate (vgaRows - (done.length + 1)) (blankRow vgaPlain) := by
  have hget : p.rows.getD p.row [] = padRow cur := by rw [h.rows, h.row, List.getD_append_right _ _ _ _ (le_refl _)]; simp
  have hrep : List.replicate (vgaCols - cur.length) blankCell =
      blankCell :: List.replicate (vgaCols - (cur.length + 1)) blankCell := by
    rw [← List.replicate_succ]
    congr 1
    have := h.col_lt
    omega
  show p.rows.set p.row ((p.rows.getD p.row []).set p.col x) = _
  rw [hget, h.rows, h.row, h.col, padRow, List.set_append_right _ _ (le_refl _), List.set_append_right _ _ (le_refl _),
    Nat.sub_self, Nat.sub_self, hrep]
  rfl

theorem typed_feed {row : Row} (hplain : p.attr = vgaPlain)
    (hrows : p.rows = done ++ row :: List.replicate (vgaRows - (done.length + 1)) (blankRow vgaPlain))
    (hrow : p.row = done.length) : Typed p.feed (done ++ [row]) [] := by
  have hlen : p.rows.length = done.length + 1 + (vgaRows - (done.length + 1)) := by
    rw [hrows, List.length_append, List.length_cons, List.length_replicate]
    omega
  have hfresh : padRow [] = blankRow vgaPlain := rfl
  have hdone : (done ++ [row]).length = done.length + 1 := List.length_append
  refine ⟨?_, ?_, rfl, by decide⟩
  · rw [hfresh, hdone]
    by_cases hroom : done.length + 1 < vgaRows
    · -- the next row is one of the first screen
      have hrep : List.replicate (vgaRows - (done.length + 1)) (blankRow vgaPlain) =
          blankRow vgaPlain :: List.replicate (vgaRows - (done.length + 1 + 1)) (blankRow vgaPlain) := by
        rw [← List.replicate_succ]
        congr 1
        omega
      rw [Paper.feed, if_pos (by omega)]
      dsimp only
      rw [hrows, hrep, List.append_assoc]
      rfl
    · have hnone : vgaRows - (done.length + 1) = 0 := by omega
      have hnone' : vgaRows - (done.length + 1 + 1) = 0 := by omega
      rw [Paper.feed, if_neg (by omega)]
      dsimp only
      rw [hrows, hnone, hnone', hplain, List.replicate_zero, List.append_assoc]
  · rw [hdone, ← hrow]
    rfl

theorem Typed.putc (h : Typed p done cur) {c : Byte} (hcr : c ≠ 13) (hlf : c ≠ 10) (hroom : cur.length + 1 < vgaCols) :
    Typed (p.putc c) done (cur ++ [cell p.attr c]) ∧ (p.putc c).attr = p.attr := by
  have hput : p.putc c = p.put (cell p.attr c) := by
    rw [Paper.putc, if_neg hcr, if_neg hlf, if_neg (by rw [h.col]; omega)]
  rw [hput]
  refine ⟨⟨?_, h.row, ?_, ?_⟩, rfl⟩
  · rw [h.rows_put, padRow, List.length_append, List.append_assoc]
    rfl
  · rw [List.length_append, ← h.col]
    rfl
  · rw [List.length_append]
    exact hroom

theorem Typed.putc_wrap (h : Typed p done cur) {c : Byte} (hcr : c ≠ 13) (hlf : c ≠ 10) (hplain : p.attr = vgaPlain)
    (hfull : cur.length + 1 = vgaCols) :
    Typed (p.putc c) (done ++ [cur ++ [cell p.attr c]]) [] ∧ (p.putc c).attr = p.attr := by
  have hput : p.putc c = (p.put (cell p.attr c)).feed := by
    rw [Paper.putc, if_neg hcr, if_neg hlf, if_pos (by rw [h.col]; omega)]
  have hrows := h.rows_put (cell p.attr c)
  rw [hfull, Nat.sub_self, List.replicate_zero] at hrows
  rw [hput]
  exact ⟨typed_feed (p := p.put (cell p.attr c)) hplain hrows h.row, rfl⟩

theorem Typed.newline (h : Typed p done cur) (hplain : p.attr = vgaPlain) :
    Typed (p.putc 10) (done ++ [padRow cur]) [] ∧ (p.putc 10).attr = p.attr := by
  have hfeed : p.putc 10 = p.feed := by rw [Paper.putc, if_neg (by decide), if_pos rfl]
  rw [hfeed]
  exact ⟨typed_feed hplain h.rows h.row, rfl⟩

/-! ## Text -/

/-- Characters that only fill cells. -/
def Plain (text : List Byte) : Prop := ∀ c ∈ text, c ≠ 0 ∧ c ≠ 10 ∧ c ≠ 13

instance (text : List Byte) : Decidable (Plain text) :=
  decidable_of_iff ((text.all fun c => c != 0 && c != 10 && c != 13) = true) (by simp [Plain, and_assoc])

theorem Plain.append {a b : List Byte} (ha : Plain a) (hb : Plain b) : Plain (a ++ b) := fun c hc =>
  (List.mem_append.mp hc).elim (ha c) (hb c)

theorem Plain.str {text : List Byte} (h : Plain text) : CStr.str text = text := str_of_no_nul fun c hc => (h c hc).1

theorem Typed.print (h : Typed p done cur) {text : List Byte} (htext : Plain text)
    (hroom : cur.length + text.length < vgaCols) :
    Typed (p.event (.print text)) done (cur ++ text.map (cell p.attr)) ∧ (p.event (.print text)).attr = p.attr := by
  rw [Paper.event, htext.str]
  induction text generalizing p cur with
  | nil => exact ⟨by rwa [List.map_nil, List.append_nil], rfl⟩
  | cons c text ih =>
    obtain ⟨-, hlf, hcr⟩ := htext c List.mem_cons_self
    rw [List.length_cons] at hroom
    obtain ⟨hput, hattr⟩ := h.putc hcr hlf (by omega)
    have hnext := ih hput (fun c hc => htext c (List.mem_cons_of_mem _ hc)) (by
      rw [List.length_append, List.length_singleton]
      omega)
    rw [hattr, List.append_assoc] at hnext
    exact hnext

theorem wrapRows_full {row : List Cell} (h : row.length = vgaCols) (ys : List Cell) :
    wrapRows (row ++ ys) = row :: wrapRows ys := by
  rw [wrapRows, if_neg (by rw [List.length_append]; omega), List.take_left' h, List.drop_left' h]

/-- Plain text of any length: rows it has filled, and the rest of the line. -/
theorem Typed.text (h : Typed p done cur) (hplain : p.attr = vgaPlain) {text : List Byte} (htext : Plain text) :
    ∃ full rest, Typed (text.foldl Paper.putc p) (done ++ full) rest ∧ (text.foldl Paper.putc p).attr = vgaPlain ∧
      ∀ ys, wrapRows (cur ++ text.map (cell vgaPlain) ++ ys) = full ++ wrapRows (rest ++ ys) := by
  induction text generalizing p done cur with
  | nil => exact ⟨[], cur, by rwa [List.append_nil], hplain, fun ys => by simp⟩
  | cons c text ih =>
    obtain ⟨-, hlf, hcr⟩ := htext c List.mem_cons_self
    have htail : Plain text := fun c hc => htext c (List.mem_cons_of_mem _ hc)
    rcases Nat.lt_or_ge (cur.length + 1) vgaCols with hroom | hfull
    · obtain ⟨hput, hattr⟩ := h.putc hcr hlf hroom
      obtain ⟨full, rest, htyped, hcolor, hwrap⟩ := ih hput (hattr.trans hplain) htail
      refine ⟨full, rest, htyped, hcolor, fun ys => ?_⟩
      rw [← hwrap, hplain, List.append_assoc cur [_]]
      rfl
    · have hlen : cur.length + 1 = vgaCols := by
        have := h.col_lt
        omega
      obtain ⟨hput, hattr⟩ := h.putc_wrap hcr hlf hplain hlen
      obtain ⟨full, rest, htyped, hcolor, hwrap⟩ := ih hput (hattr.trans hplain) htail
      refine ⟨(cur ++ [cell p.attr c]) :: full, rest, ?_, hcolor, fun ys => ?_⟩
      · rwa [List.append_cons]
      · have hrow : (cur ++ [cell p.attr c]).length = vgaCols := by rw [List.length_append]; exact hlen
        have hsplit : cur ++ List.map (cell vgaPlain) (c :: text) ++ ys =
            cur ++ [cell p.attr c] ++ (List.map (cell vgaPlain) text ++ ys) := by
          rw [hplain]
          simp
        rw [hsplit, wrapRows_full hrow, List.cons_append, ← hwrap, List.nil_append]

/-! ## Events -/

def MenuEvent.text : MenuEvent → List Byte
  | .print text => text
  | _ => []

/-- What a list of events prints. -/
def printed (evs : List MenuEvent) : List Byte := (evs.map MenuEvent.text).flatten

/-- Printed text and colour changes that the screen does not show. -/
def PlainEvent : MenuEvent → Prop
  | .print text => Plain text
  | .setColor fg => vgaColor fg = vgaPlain
  | _ => False

instance : DecidablePred PlainEvent := fun e => by
  cases e <;> unfold PlainEvent <;> infer_instance

/-- Text only. -/
def Prints : MenuEvent → Prop
  | .print text => Plain text
  | _ => False

theorem Paper.run_append (p : Paper) (a b : List MenuEvent) : p.run (a ++ b) = (p.run a).run b := List.foldl_append

theorem attr_putc (p : Paper) (c : Byte) : (p.putc c).attr = p.attr := by
  unfold Paper.putc
  split_ifs <;> rfl

theorem attr_foldl_putc (text : List Byte) (p : Paper) : (text.foldl Paper.putc p).attr = p.attr := by
  induction text generalizing p with
  | nil => rfl
  | cons c text ih => rw [List.foldl_cons, ih, attr_putc]

theorem run_plain {evs : List MenuEvent} (hevs : ∀ e ∈ evs, PlainEvent e) (hplain : p.attr = vgaPlain) :
    p.run evs = (printed evs).foldl Paper.putc p := by
  induction evs generalizing p with
  | nil => rfl
  | cons e evs ih =>
    have he := hevs e List.mem_cons_self
    have htail := fun e he => hevs e (List.mem_cons_of_mem _ he)
    show (p.event e).run evs = _
    cases e with
    | print text =>
      have htext : Plain text := he
      have hrun : p.event (.print text) = text.foldl Paper.putc p := by rw [Paper.event, htext.str]
      rw [hrun, ih htail ((attr_foldl_putc text p).trans hplain), ← List.foldl_append]
      rfl
    | setColor fg =>
      have hsame : p.event (.setColor fg) = p := by
        show { p with attr := vgaColor fg } = p
        rw [show vgaColor fg = vgaPlain from he, ← hplain]
      rw [hsame, ih htail hplain]
      rfl
    | setCursor row col => exact he.elim
    | clear => exact he.elim
    | showCursor on => exact he.elim

theorem plain_printed {evs : List MenuEvent} (hevs : ∀ e ∈ evs, PlainEvent e) : Plain (printed evs) := by
  intro c hc
  obtain ⟨text, htext, hmem⟩ := List.mem_flatten.mp hc
  obtain ⟨e, he, rfl⟩ := List.mem_map.mp htext
  have hplain := hevs e he
  cases e with
  | print text => exact hplain c hmem
  | _ => cases hmem

theorem Typed.line (h : Typed p done cur) (hplain : p.attr = vgaPlain) {evs : List MenuEvent}
    (hevs : ∀ e ∈ evs, PlainEvent e) :
    Typed (p.run (evs ++ endline)) (done ++ wrapRows (cur ++ (printed evs).map (cell vgaPlain))) [] ∧
      (p.run (evs ++ endline)).attr = vgaPlain := by
  obtain ⟨full, rest, htyped, hattr, hwrap⟩ := h.text hplain (plain_printed hevs)
  have hend := htyped.newline hattr
  have hrest : wrapRows (rest ++ []) = [padRow rest] := by rw [List.append_nil, wrapRows, if_pos htyped.col_lt]
  have hrows := hwrap []
  rw [List.append_nil, hrest] at hrows
  rw [Paper.run_append, run_plain hevs hplain, hrows, ← List.append_assoc]
  exact ⟨hend.1, hend.2.trans hattr⟩

theorem Typed.prints (h : Typed p done cur) {evs : List MenuEvent} (hevs : ∀ e ∈ evs, Prints e)
    (hroom : cur.length + (printed evs).length < vgaCols) :
    Typed (p.run evs) done (cur ++ (printed evs).map (cell p.attr)) ∧ (p.run evs).attr = p.attr := by
  induction evs generalizing p cur with
  | nil => exact ⟨by rwa [printed, List.map_nil, List.flatten_nil, List.map_nil, List.append_nil], rfl⟩
  | cons e evs ih =>
    have he := hevs e List.mem_cons_self
    cases e with
    | print text =>
      have hsplit : printed (.print text :: evs) = text ++ printed evs := rfl
      rw [hsplit, List.length_append] at hroom
      obtain ⟨hput, hattr⟩ := h.print he (by omega)
      have hnext := ih hput (fun e he => hevs e (List.mem_cons_of_mem _ he)) (by
        rw [List.length_append, List.length_map]
        omega)
      rw [hattr, List.append_assoc, ← List.map_append] at hnext
      exact hnext
    | setColor fg => exact he.elim
    | setCursor row col => exact he.elim
    | clear => exact he.elim
    | showCursor on => exact he.elim

theorem printed_append (a b : List MenuEvent) : printed (a ++ b) = printed a ++ printed b := by
  rw [printed, List.map_append, List.flatten_append]
  rfl

@[simp] theorem printed_nil : printed [] = [] := rfl

@[simp] theorem printed_print (text : List Byte) (evs : List MenuEvent) :
    printed (.print text :: evs) = text ++ printed evs := rfl

@[simp] theorem printed_setColor (fg : MenuColor) (evs : List MenuEvent) :
    printed (.setColor fg :: evs) = printed evs := rfl

theorem prints_printN {s : List Byte} (hs : Plain s) (n : Int) :
    (∀ e ∈ printN s n, Prints e) ∧ printed (printN s n) = (List.replicate n.toNat s).flatten := by
  have hchunks : ∀ (chunk : Nat), 0 < chunk → ∀ fuel m, m ≤ fuel →
      (∀ e ∈ printChunks s chunk fuel m, Prints e) ∧
        printed (printChunks s chunk fuel m) = (List.replicate m s).flatten := by
    intro chunk hchunk fuel
    induction fuel with
    | zero =>
      intro m hm
      obtain rfl : m = 0 := by omega
      exact ⟨nofun, rfl⟩
    | succ fuel ih =>
      intro m hm
      rw [printChunks]
      split_ifs with h
      · subst h
        exact ⟨nofun, rfl⟩
      · obtain ⟨hrest, htext⟩ := ih (m - min chunk m) (by omega)
        refine ⟨List.forall_mem_cons.mpr ⟨?_, hrest⟩, ?_⟩
        · intro c hc
          obtain ⟨x, hx, hmem⟩ := List.mem_flatten.mp hc
          rw [List.eq_of_mem_replicate hx] at hmem
          exact hs c hmem
        · show (List.replicate _ s).flatten ++ printed _ = _
          rw [htext, ← List.flatten_append, ← List.replicate_add]
          congr 2
          omega
  unfold printN
  split_ifs with h hone
  · refine ⟨nofun, ?_⟩
    rcases h with h | h
    · rw [Int.toNat_of_nonpos h]
      rfl
    · rw [List.isEmpty_iff.mp h]
      simp [printed]
  · exact hchunks 160 (by decide) _ _ (le_refl _)
  · exact hchunks 40 (by decide) _ _ (le_refl _)

/-! ## The rows of the menu -/

/-- Events that, begun at the left in the plain colour, fill the rows and end at the left in the plain colour. -/
def TypesRows (evs : List MenuEvent) (rows : List Row) : Prop :=
  ∀ p done, Typed p done [] → p.attr = vgaPlain → Typed (p.run evs) (done ++ rows) [] ∧ (p.run evs).attr = vgaPlain

theorem typesRows_nil : TypesRows [] [] := fun p done h hplain => ⟨by rwa [List.append_nil], hplain⟩

theorem TypesRows.append {a b : List MenuEvent} {ra rb : List Row} (ha : TypesRows a ra) (hb : TypesRows b rb) :
    TypesRows (a ++ b) (ra ++ rb) := by
  intro p done h hplain
  obtain ⟨h', hplain'⟩ := ha p done h hplain
  rw [Paper.run_append, ← List.append_assoc]
  exact hb _ _ h' hplain'

theorem typesRows_flatten {evss : List (List MenuEvent)} {rowss : List (List Row)}
    (h : List.Forall₂ TypesRows evss rowss) : TypesRows evss.flatten rowss.flatten := by
  induction h with
  | nil => exact typesRows_nil
  | cons h _ ih => exact h.append ih

theorem typesRows_line {evs : List MenuEvent} (hevs : ∀ e ∈ evs, PlainEvent e) :
    TypesRows (evs ++ endline) (wrapRows ((printed evs).map (cell vgaPlain))) :=
  fun _ _ h hplain => h.line hplain hevs

/-- The operations stage 2 has. -/
def biosMenuOps : MenuOps :=
  { hasClear := true, hasSetColor := true, hasSetCursor := false, hasShowCursor := false, cols := 80 }

/-- The cells of a border. -/
def borderText (left right : List Byte) : List Byte :=
  List.replicate 5 32 ++ left ++ (List.replicate 68 boxDh).flatten ++ right

/-- The cells of an entry that is not selected. -/
def idleText (name : List Byte) : List Byte :=
  List.replicate 5 32 ++ boxDv ++ lit "    " ++ name ++ List.replicate (63 - name.length) 32 ++ [32] ++ boxDv

/-- The cells of the selected entry. -/
def selectedCells (name : List Byte) : Row :=
  (List.replicate 5 32 ++ boxDv ++ [32]).map (cell vgaPlain) ++ [cell (vgaColor .highlight) 32] ++
    boxSel.map (cell (vgaColor .accent)) ++
    ([32] ++ name ++ List.replicate (63 - name.length) 32).map (cell (vgaColor .highlight)) ++
    ([32] ++ boxDv).map (cell vgaPlain)

/-- The rows of an entry: the selected one is as wide as the screen, and leaves a blank row behind it. -/
def entryRows (selected : Int) (i : Nat) (e : BootEntry) : List Row :=
  if (i : Int) = selected then [selectedCells e.name, padRow []] else [padRow ((idleText e.name).map (cell vgaPlain))]

/-- Names the box has room for. -/
def NameFits (name : List Byte) : Prop := Plain name ∧ name.length ≤ 63

theorem PlainEvent.of_prints {e : MenuEvent} (h : Prints e) : PlainEvent e := by
  cases e with
  | print text => exact h
  | _ => exact h.elim

theorem lmargin_bios : lmargin biosMenuOps = [.setColor .normal, .print (List.replicate 5 32)] := by decide

theorem color_bios (c : MenuColor) : biosMenuOps.color c = [.setColor c] := rfl

theorem wall_bios : wall biosMenuOps = [.setColor .border, .print boxDv] := by decide

theorem Paper.run_setColor_normal (p : Paper) (evs : List MenuEvent) :
    p.run (.setColor .normal :: evs) = ({ p with attr := vgaPlain } : Paper).run evs := rfl

/-- The events of a border, with the rule in between. -/
def borderEvents (left right : List Byte) (rule : List MenuEvent) : List MenuEvent :=
  .setColor .normal :: .print (List.replicate 5 32) :: .setColor .border :: .print left :: (rule ++ [.print right])

theorem typesRows_border {left right : List Byte} (hleft : Plain left) (hright : Plain right) :
    TypesRows (borderRow biosMenuOps left right) (wrapRows ((borderText left right).map (cell vgaPlain))) := by
  obtain ⟨hline, hdashes⟩ := prints_printN (s := boxDh) (by decide) (menuBox biosMenuOps).inner
  have hinner : (menuBox biosMenuOps).inner.toNat = 68 := rfl
  rw [hinner] at hdashes
  generalize hrule : printN boxDh (menuBox biosMenuOps).inner = rule at hline hdashes
  have hrow : borderRow biosMenuOps left right = borderEvents left right rule ++ endline := by
    simp only [borderRow, hrule, borderEvents, lmargin_bios, color_bios, List.flatten_cons, List.flatten_nil,
      List.cons_append, List.nil_append, List.append_nil, List.append_assoc]
  have htext : printed (borderEvents left right rule) = borderText left right := by
    simp only [borderEvents, printed_append, printed_print, printed_setColor, printed_nil, hdashes, borderText,
      List.append_assoc, List.append_nil]
  rw [hrow, ← htext]
  refine typesRows_line ?_
  simp only [borderEvents, List.forall_mem_append, List.forall_mem_cons]
  exact ⟨rfl, (by decide : Plain _), rfl, hleft, fun e he => .of_prints (hline e he), hright, nofun⟩

theorem prints_rpad {name : List Byte} (hname : name.length ≤ 63) :
    (∀ e ∈ printN blank (max ((menuBox biosMenuOps).inner - 5 - name.length) 0), Prints e) ∧
      printed (printN blank (max ((menuBox biosMenuOps).inner - 5 - name.length) 0)) =
        List.replicate (63 - name.length) 32 := by
  obtain ⟨hprints, htext⟩ := prints_printN (s := blank) (by decide) (max ((menuBox biosMenuOps).inner - 5 - name.length) 0)
  have hinner : (menuBox biosMenuOps).inner = 68 := rfl
  have hcount : (max ((menuBox biosMenuOps).inner - 5 - name.length) 0).toNat = 63 - name.length := by
    rw [hinner]
    omega
  refine ⟨hprints, ?_⟩
  rw [htext, hcount]
  exact List.flatten_replicate_singleton

theorem length_idleText {name : List Byte} (hname : name.length ≤ 63) : (idleText name).length = 79 := by
  simp only [idleText, List.length_append, List.length_replicate, boxDv, List.length_cons, List.length_nil,
    show (lit "    ").length = 4 from rfl]
  omega

theorem wrapRows_short {xs : List Cell} (h : xs.length < vgaCols) : wrapRows xs = [padRow xs] := by
  rw [wrapRows, if_pos h]

/-- The events of an entry that is not selected, with the spaces behind its name. -/
def idleEvents (name : List Byte) (rpad : List MenuEvent) : List MenuEvent :=
  .setColor .normal :: .print (List.replicate 5 32) :: .setColor .border :: .print boxDv :: .setColor .normal ::
    .print (lit "    ") :: .print name :: (rpad ++ [.print blank, .setColor .border, .print boxDv])

theorem typesRows_idle {e : BootEntry} (he : NameFits e.name) :
    TypesRows (List.flatten [lmargin biosMenuOps, wall biosMenuOps, List.flatten [[.setColor .normal],
        [.print (lit "    ")], [.print e.name],
        printN blank (max ((menuBox biosMenuOps).inner - 5 - e.name.length) 0), [.print blank]],
      wall biosMenuOps, endline]) [padRow ((idleText e.name).map (cell vgaPlain))] := by
  obtain ⟨hpad, hpadding⟩ := prints_rpad he.2
  generalize printN blank (max ((menuBox biosMenuOps).inner - 5 - e.name.length) 0) = rpad at hpad hpadding ⊢
  have hevs : List.flatten [lmargin biosMenuOps, wall biosMenuOps, List.flatten [[.setColor .normal],
        [.print (lit "    ")], [.print e.name], rpad, [.print blank]], wall biosMenuOps, endline] =
      idleEvents e.name rpad ++ endline := by
    simp only [idleEvents, lmargin_bios, wall_bios, List.flatten_cons, List.flatten_nil, List.cons_append,
      List.nil_append, List.append_nil, List.append_assoc]
  have htext : printed (idleEvents e.name rpad) = idleText e.name := by
    simp only [idleEvents, printed_append, printed_print, printed_setColor, printed_nil, hpadding, idleText, blank,
      List.append_assoc, List.append_nil]
  have hshort : ((idleText e.name).map (cell vgaPlain)).length < vgaCols := by
    rw [List.length_map, length_idleText he.2]
    decide
  rw [hevs, ← wrapRows_short hshort, ← htext]
  refine typesRows_line ?_
  simp only [idleEvents, List.forall_mem_append, List.forall_mem_cons]
  exact ⟨rfl, (by decide : Plain _), rfl, (by decide : Plain _), rfl, (by decide : Plain _), he.1,
    fun e he => .of_prints (hpad e he), (by decide : Plain _), rfl, (by decide : Plain _), nofun⟩

theorem Typed.pieces {pieces : List (MenuColor × List MenuEvent)} (h : Typed p done cur)
    (hprints : ∀ s ∈ pieces, ∀ e ∈ s.2, Prints e)
    (hroom : cur.length + (pieces.flatMap fun s => printed s.2).length < vgaCols) :
    Typed (p.run (pieces.flatMap fun s => .setColor s.1 :: s.2)) done
      (cur ++ pieces.flatMap fun s => (printed s.2).map (cell (vgaColor s.1))) := by
  induction pieces generalizing p cur with
  | nil => rwa [List.flatMap_nil, List.flatMap_nil, List.append_nil]
  | cons s pieces ih =>
    rw [List.flatMap_cons, List.length_append] at hroom
    obtain ⟨hput, -⟩ := (h.setColor (vgaColor s.1)).prints (hprints s List.mem_cons_self) (by omega)
    have hnext := ih hput (fun s hs => hprints s (List.mem_cons_of_mem _ hs)) (by
      rw [List.length_append, List.length_map]
      omega)
    rw [List.append_assoc] at hnext
    rw [List.flatMap_cons, List.flatMap_cons, Paper.run_append]
    exact hnext

/-- The selected entry up to the blank in front of the right wall. -/
def selectedPieces (name : List Byte) (rpad : List MenuEvent) : List (MenuColor × List MenuEvent) :=
  [(.normal, [.print (List.replicate 5 32)]), (.border, [.print boxDv]), (.normal, [.print blank]),
    (.highlight, [.print blank]), (.accent, [.print boxSel]), (.highlight, .print blank :: .print name :: rpad)]

/-- The end of its row. -/
def selectedEnd : List MenuEvent := .print blank :: wall biosMenuOps

section Selected

variable {name : List Byte} {rpad : List MenuEvent}

theorem prints_selectedPieces (hname : Plain name) (hpad : ∀ e ∈ rpad, Prints e) :
    ∀ s ∈ selectedPieces name rpad, ∀ e ∈ s.2, Prints e := by
  simp only [selectedPieces, List.forall_mem_cons]
  exact ⟨⟨(by decide : Plain _), nofun⟩, ⟨(by decide : Plain _), nofun⟩,
    ⟨(by decide : Plain _), nofun⟩, ⟨(by decide : Plain _), nofun⟩,
    ⟨(by decide : Plain _), nofun⟩, ⟨(by decide : Plain _), hname, hpad⟩, nofun⟩

theorem plain_selectedEnd : (∀ e ∈ selectedEnd, PlainEvent e) ∧ printed selectedEnd = [32] ++ boxDv := by decide

variable (hpadding : printed rpad = List.replicate (63 - name.length) 32)
include hpadding

theorem cells_selectedPieces : ((selectedPieces name rpad).flatMap fun s => (printed s.2).map (cell (vgaColor s.1))) ++
    (printed selectedEnd).map (cell vgaPlain) = selectedCells name := by
  simp only [selectedPieces, List.flatMap_cons, List.flatMap_nil, printed_print, printed_nil, hpadding, plain_selectedEnd.2,
    selectedCells, List.map_append, List.append_assoc, List.append_nil]
  rfl

theorem length_selectedPieces (hname : name.length ≤ 63) :
    ((selectedPieces name rpad).flatMap fun s => printed s.2).length = 76 := by
  have hlast : (printed (.print blank :: .print name :: rpad)).length = 64 := by
    show (blank ++ (name ++ printed rpad)).length = 64
    rw [hpadding, List.length_append, List.length_append, List.length_replicate, show blank.length = 1 from rfl]
    omega
  have hone : ∀ text : List Byte, printed [.print text] = text := fun text => List.append_nil text
  simp only [selectedPieces, List.flatMap_cons, List.flatMap_nil, List.length_append, hlast, hone, List.length_replicate]
  rfl

end Selected

theorem length_selectedCells {name : List Byte} (hname : name.length ≤ 63) : (selectedCells name).length = vgaCols := by
  simp only [selectedCells, List.length_append, List.length_map, List.length_replicate, boxDv, boxSel, List.length_cons,
    List.length_nil, vgaCols]
  omega

theorem typesRows_selected {e : BootEntry} (he : NameFits e.name) :
    TypesRows (List.flatten [lmargin biosMenuOps, wall biosMenuOps, List.flatten [[.setColor .normal], [.print blank],
        [.setColor .highlight], [.print blank], [.setColor .accent], [.print boxSel], [.setColor .highlight],
        [.print blank], [.print e.name], printN blank (max ((menuBox biosMenuOps).inner - 5 - e.name.length) 0),
        [.setColor .normal], [.print blank]], wall biosMenuOps, endline]) [selectedCells e.name, padRow []] := by
  obtain ⟨hpad, hpadding⟩ := prints_rpad he.2
  generalize printN blank (max ((menuBox biosMenuOps).inner - 5 - e.name.length) 0) = rpad at hpad hpadding ⊢
  have hevs : List.flatten [lmargin biosMenuOps, wall biosMenuOps, List.flatten [[.setColor .normal], [.print blank],
      [.setColor .highlight], [.print blank], [.setColor .accent], [.print boxSel], [.setColor .highlight],
      [.print blank], [.print e.name], rpad, [.setColor .normal], [.print blank]], wall biosMenuOps, endline] =
      ((selectedPieces e.name rpad).flatMap fun s => .setColor s.1 :: s.2) ++
        (.setColor .normal :: (selectedEnd ++ endline)) := by
    simp only [selectedPieces, selectedEnd, lmargin_bios, wall_bios, List.flatMap_cons, List.flatMap_nil, List.flatten_cons,
      List.flatten_nil, List.cons_append, List.nil_append, List.append_nil, List.append_assoc]
  have hwrap : wrapRows (selectedCells e.name) = [selectedCells e.name, padRow []] := by
    have hrow := wrapRows_full (length_selectedCells he.2) []
    rwa [List.append_nil, show wrapRows [] = [padRow []] by rw [wrapRows]; rfl] at hrow
  intro p done h hplain
  have hroom : ([] : List Cell).length + ((selectedPieces e.name rpad).flatMap fun s => printed s.2).length < vgaCols := by
    rw [length_selectedPieces hpadding he.2]
    decide
  have hpieces := h.pieces (prints_selectedPieces he.1 hpad) hroom
  have hline := (hpieces.setColor vgaPlain).line rfl plain_selectedEnd.1
  rw [List.nil_append, cells_selectedPieces hpadding, hwrap] at hline
  rw [hevs, Paper.run_append, Paper.run_setColor_normal]
  exact hline

/-- The title, which is in the plain colour as everything around it. -/
def titleCells : List Cell := (printed (titleRow biosMenuOps).dropLast).map (cell vgaPlain)

theorem typesRows_title : TypesRows (titleRow biosMenuOps) [padRow titleCells] := by
  have hevs : (∀ e ∈ (titleRow biosMenuOps).dropLast, PlainEvent e) ∧
      titleRow biosMenuOps = (titleRow biosMenuOps).dropLast ++ endline := by decide
  have hshort : titleCells.length < vgaCols := by
    rw [titleCells, List.length_map]
    decide
  rw [← wrapRows_short hshort, hevs.2]
  exact typesRows_line hevs.1

theorem plain_digit {k : Nat} (h : k < 10) : Plain [(48 + k).toUInt8] := by
  have hall : ∀ k < 10, Plain [(48 + k).toUInt8] := by decide
  exact hall k h

/-- A countdown below a hundred has at most two digits. -/
theorem hintLine_plain {countdown : Int} (hlt : countdown < 100) :
    Plain (hintLine countdown) ∧ (hintLine countdown).length ≤ 28 := by
  have hbegin : Plain (lit "Booting in ") := by decide
  have hend : Plain (lit "s...") := by decide
  have hnone : Plain [] := fun c hc => absurd hc List.not_mem_nil
  unfold hintLine
  split_ifs with hpos hten
  · refine ⟨((hbegin.append (plain_digit (by omega))).append (plain_digit (by omega))).append hend, ?_⟩
    rw [List.length_append, List.length_append, List.length_append]
    exact (by decide : 11 + 1 + 1 + 4 ≤ 28)
  · refine ⟨((hbegin.append hnone).append (plain_digit (by omega))).append hend, ?_⟩
    rw [List.length_append, List.length_append, List.length_append]
    exact (by decide : 11 + 0 + 1 + 4 ≤ 28)
  · exact ⟨by decide, by decide⟩

/-- The cells of the hint. -/
def hintCells (countdown : Int) : List Cell :=
  (List.replicate (max ((80 - (hintLine countdown).length : Int).tdiv 2) 0).toNat 32 ++
    hintLine countdown).map (cell vgaPlain)

theorem length_hintCells {countdown : Int} (hlen : (hintLine countdown).length ≤ 28) :
    (hintCells countdown).length < vgaCols := by
  rw [hintCells, List.length_map, List.length_append, List.length_replicate, Int.tdiv_eq_ediv_of_nonneg (by omega)]
  unfold vgaCols
  omega

theorem typesRows_hint {countdown : Int} (hlt : countdown < 100) :
    TypesRows (hintRow biosMenuOps countdown) [padRow (hintCells countdown)] := by
  have hline := hintLine_plain hlt
  obtain ⟨hprints, hspaces⟩ := prints_printN (s := blank) (by decide)
    (max ((80 - (hintLine countdown).length : Int).tdiv 2) 0)
  generalize hpad : printN blank (max ((80 - (hintLine countdown).length : Int).tdiv 2) 0) = pad at hprints hspaces
  have hrow : hintRow biosMenuOps countdown = .setColor .hint :: (pad ++ [.print (hintLine countdown)]) ++ endline := by
    rw [← hpad]
    simp only [hintRow, color_bios, show (menuBox biosMenuOps).cols = 80 from rfl, List.flatten_cons, List.flatten_nil,
      List.cons_append, List.nil_append, List.append_nil, List.append_assoc]
  have htext : (printed (.setColor .hint :: (pad ++ [.print (hintLine countdown)]))).map (cell vgaPlain) =
      hintCells countdown := by
    simp only [printed_append, printed_print, printed_setColor, printed_nil, hspaces, hintCells, List.append_nil, blank,
      List.flatten_replicate_singleton]
  rw [hrow, ← wrapRows_short (length_hintCells hline.2), ← htext]
  refine typesRows_line ?_
  simp only [List.forall_mem_append, List.forall_mem_cons]
  exact ⟨rfl, fun e he => .of_prints (hprints e he), hline.1, nofun⟩

theorem typesRows_entry (selected : Int) (i : Nat) {e : BootEntry} (he : NameFits e.name) :
    TypesRows (entryRow biosMenuOps selected i e) (entryRows selected i e) := by
  unfold entryRow entryRows
  dsimp only
  split_ifs
  · exact typesRows_selected he
  · exact typesRows_idle he

end SakuruBoot

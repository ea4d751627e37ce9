import SakuruBoot.Common.Menu
import SakuruBoot.Lib.Buffer

/-!
# The text screen of stage 2 (`bios/stage2/main.c`)

The VGA console writes cells of a character and a colour into the 80 by 25 cells of the text memory, and moves the rows up
when the cursor leaves the last one. What it stands for is a sheet of paper that never runs out (`Paper`): the screen is
its last 25 rows. `shows_putc` is the step, `vgaRun_shows` the run: whatever is printed, cleared and coloured, every
access is inside the text memory and the screen is the end of the paper.
-/

namespace SakuruBoot
open CStr

def vgaCols : Nat := 80
def vgaRows : Nat := 25

/-- `VGA_ATTR`. -/
def vgaAttr (fg bg : Byte) : Byte := (bg <<< 4) ||| fg

abbrev Cell : Type := UInt16

def cell (attr c : Byte) : Cell := (attr.toUInt16 <<< 8) ||| c.toUInt16

abbrev Screen : Type := Buffer Cell (vgaRows * vgaCols)

/-- The text memory and the globals of the console. -/
structure Vga where
  mem : Screen
  col : Nat
  row : Nat
  attr : Byte

/-- The two loops that move the rows up. -/
def vgaScroll (attr : Byte) (mem : Screen) : Option Screen := do
  let mem ← (List.range (vgaRows - 1)).foldlM (fun mem r => (List.range vgaCols).foldlM (fun mem c => do
    let x ← mem.read ((r + 1) * vgaCols + c)
    mem.write (r * vgaCols + c) x) mem) mem
  (List.range vgaCols).foldlM (fun mem c => mem.write ((vgaRows - 1) * vgaCols + c) (cell attr 32)) mem

/-- What follows `scroll_check`. -/
def vgaScrollCheck (s : Vga) : Option Vga :=
  if vgaRows ≤ s.row then do
    let mem ← vgaScroll s.attr s.mem
    some { s with mem := mem, row := vgaRows - 1 }
  else some s

def vgaPutc (s : Vga) (c : Byte) : Option Vga :=
  if c = 13 then some { s with col := 0 }
  else if c = 10 then vgaScrollCheck { s with col := 0, row := s.row + 1 }
  else do
    let mem ← s.mem.write (s.row * vgaCols + s.col) (cell s.attr c)
    if vgaCols ≤ s.col + 1 then vgaScrollCheck { s with mem := mem, col := 0, row := s.row + 1 }
    else vgaScrollCheck { s with mem := mem, col := s.col + 1 }

def vgaPuts (s : Vga) (text : List Byte) : Option Vga := (str text).foldlM vgaPutc s

/-- Bright pink on black. -/
def vgaPlain : Byte := vgaAttr 13 0

def vgaClear (s : Vga) : Option Vga := do
  let mem ← (List.range (vgaRows * vgaCols)).foldlM (fun mem i => mem.write i (cell vgaPlain 32)) s.mem
  some { mem := mem, col := 0, row := 0, attr := vgaPlain }

/-- The colour of a role. -/
def vgaColor : MenuColor → Byte
  | .highlight => vgaAttr 0 5
  | .accent => vgaAttr 14 0
  | _ => vgaPlain

def vgaSetColor (s : Vga) (fg : MenuColor) : Vga := { s with attr := vgaColor fg }

/-- A call on the console. The table of stage 2 has no cursor operations. -/
def vgaEvent (s : Vga) : MenuEvent → Option Vga
  | .print text => vgaPuts s text
  | .setColor fg => some (vgaSetColor s fg)
  | .setCursor _ _ => some s
  | .clear => vgaClear s
  | .showCursor _ => some s

def vgaRun (s : Vga) (events : List MenuEvent) : Option Vga := events.foldlM vgaEvent s

/-! ## The paper -/

abbrev Row : Type := List Cell

/-- A blank row in the colour. -/
def blankRow (attr : Byte) : Row := List.replicate vgaCols (cell attr 32)

/-- Rows that are only ever added at the end, and the cursor. -/
structure Paper where
  rows : List Row
  col : Nat
  row : Nat
  attr : Byte

namespace Paper

/-- A fresh sheet the size of the screen. -/
def clear : Paper := { rows := List.replicate vgaRows (blankRow vgaPlain), col := 0, row := 0, attr := vgaPlain }

/-- To the beginning of the next row; there is one more when there was none. -/
def feed (p : Paper) : Paper :=
  { p with
    col := 0
    row := p.row + 1
    rows := if p.row + 1 < p.rows.length then p.rows else p.rows ++ [blankRow p.attr] }

/-- A character at the cursor. -/
def put (p : Paper) (x : Cell) : Paper :=
  { p with rows := p.rows.set p.row ((p.rows.getD p.row []).set p.col x), col := p.col + 1 }

def putc (p : Paper) (c : Byte) : Paper :=
  if c = 13 then { p with col := 0 }
  else if c = 10 then p.feed
  else if vgaCols ≤ p.col + 1 then (p.put (cell p.attr c)).feed
  else p.put (cell p.attr c)

def event (p : Paper) : MenuEvent → Paper
  | .print text => (str text).foldl putc p
  | .setColor fg => { p with attr := vgaColor fg }
  | .setCursor _ _ => p
  | .clear => clear
  | .showCursor _ => p

def run (p : Paper) (events : List MenuEvent) : Paper := events.foldl event p

/-- The rows above the screen. -/
def above (p : Paper) : Nat := p.rows.length - vgaRows

/-- The cursor is in one of the last 25 rows, and every row is complete. -/
structure Ok (p : Paper) : Prop where
  rows_ge : vgaRows ≤ p.rows.length
  above_le : p.above ≤ p.row
  row_lt : p.row < p.rows.length
  length_row : ∀ r ∈ p.rows, r.length = vgaCols

end Paper

/-- The screen is the end of the paper, whatever column the cursor is in. -/
structure ShowsRows (s : Vga) (p : Paper) : Prop where
  ok : p.Ok
  mem : s.mem.data = (p.rows.drop p.above).flatten
  row : s.row + p.above = p.row
  attr : s.attr = p.attr

/-- The screen is the end of the paper, and the cursors are in the same column. -/
structure Shows (s : Vga) (p : Paper) : Prop extends ShowsRows s p where
  col : s.col = p.col
  col_lt : p.col < vgaCols

/-! ## The loops over the text memory -/

theorem vgaScroll_spec (attr : Byte) (mem : Screen) :
    ∃ mem', vgaScroll attr mem = some mem' ∧ mem'.data = mem.data.drop vgaCols ++ blankRow attr := by
  have hlen : mem.data.length = 2000 := mem.length_eq
  -- the two halves the memory is made of while the rows move, and while the last one is cleared
  let moved := mem.data.drop 80 ++ mem.data.drop 1920
  let blanked := mem.data.drop 80 ++ blankRow attr
  have hmoved : moved.length = 2000 := by simp [moved, hlen]
  have hblanked : blanked.length = 2000 := by simp [blanked, blankRow, hlen, vgaCols]
  have hcell : ∀ r < 24, ∀ c < 80, ∀ b : Screen, b.data = moved.take (r * 80 + c) ++ mem.data.drop (r * 80 + c) →
      ∃ b' : Screen, (do let x ← b.read ((r + 1) * 80 + c); b.write (r * 80 + c) x) = some b' ∧
        b'.data = moved.take (r * 80 + (c + 1)) ++ mem.data.drop (r * 80 + (c + 1)) := by
    intro r hr c hc b hb
    have hpos : r * 80 + c + 80 < 2000 := by omega
    obtain ⟨x, hx⟩ : ∃ x, mem.data[r * 80 + c + 80]? = some x :=
      ⟨_, List.getElem?_eq_getElem (by omega)⟩
    have hread : b.read ((r + 1) * 80 + c) = some x := by
      have htake : (moved.take (r * 80 + c)).length = r * 80 + c := by rw [List.length_take]; omega
      rw [Buffer.read, hb, List.getElem?_append_right (by omega), htake, List.getElem?_drop, ← hx]
      congr 1
      omega
    have hget : moved[r * 80 + c]? = some x := by
      rw [List.getElem?_append_left (by rw [List.length_drop]; omega), List.getElem?_drop, ← hx]
      congr 1
      omega
    obtain ⟨b', hwrite, hdata⟩ := Buffer.write_over (n := 2000) hmoved (by omega) hb hget
    exact ⟨b', by rw [hread]; exact hwrite, hdata⟩
  have hrow : ∀ r < 24, ∀ b : Screen, b.data = moved.take (r * 80) ++ mem.data.drop (r * 80) →
      ∃ b' : Screen, (List.range 80).foldlM (fun mem c => do
          let x ← mem.read ((r + 1) * 80 + c)
          mem.write (r * 80 + c) x) b = some b' ∧
        b'.data = moved.take ((r + 1) * 80) ++ mem.data.drop ((r + 1) * 80) := by
    intro r hr b hb
    have h := Buffer.foldlM_range (I := fun c (b : Screen) =>
      b.data = moved.take (r * 80 + c) ++ mem.data.drop (r * 80 + c)) (fun c hc b hb => hcell r hr c hc b hb) hb
    rwa [show r * 80 + 80 = (r + 1) * 80 by omega] at h
  obtain ⟨up, hup, hupData⟩ := Buffer.foldlM_range (I := fun r (b : Screen) =>
    b.data = moved.take (r * 80) ++ mem.data.drop (r * 80)) hrow (s := mem) (by simp)
  have hkept : up.data = blanked.take 1920 ++ moved.drop 1920 := by
    rw [hupData, List.take_append_of_le_length (by rw [List.length_drop]; omega),
      List.take_append_of_le_length (by rw [List.length_drop]; omega), List.drop_append]
    simp [hlen]
  have hblank : ∀ c < 80, ∀ b : Screen, b.data = blanked.take (1920 + c) ++ moved.drop (1920 + c) →
      ∃ b' : Screen, b.write (24 * 80 + c) (cell attr 32) = some b' ∧
        b'.data = blanked.take (1920 + (c + 1)) ++ moved.drop (1920 + (c + 1)) := by
    intro c hc b hb
    refine Buffer.write_over (n := 2000) hblanked (by omega) hb ?_
    have hdrop : (mem.data.drop 80).length = 1920 := by rw [List.length_drop]; omega
    rw [List.getElem?_append_right (by omega), blankRow, List.getElem?_replicate, hdrop]
    exact if_pos (show 1920 + c - 1920 < 80 by omega)
  obtain ⟨mem', hclear, hdata⟩ := Buffer.foldlM_range hblank hkept
  refine ⟨mem', ?_, ?_⟩
  · exact Option.bind_eq_some_iff.mpr ⟨up, hup, hclear⟩
  · rw [hdata, List.take_of_length_le (by omega), List.drop_of_length_le (by omega), List.append_nil]
    rfl

theorem vgaClear_spec (s : Vga) : ∃ t, vgaClear s = some t ∧
    t.mem.data = List.replicate (vgaRows * vgaCols) (cell vgaPlain 32) ∧ t.col = 0 ∧ t.row = 0 ∧ t.attr = vgaPlain := by
  have hfill : ∀ k < vgaRows * vgaCols, ∀ b : Screen,
      b.data = (List.replicate (vgaRows * vgaCols) (cell vgaPlain 32)).take k ++ s.mem.data.drop k →
      ∃ b' : Screen, b.write k (cell vgaPlain 32) = some b' ∧
        b'.data = (List.replicate (vgaRows * vgaCols) (cell vgaPlain 32)).take (k + 1) ++ s.mem.data.drop (k + 1) := by
    intro k hk b hb
    refine Buffer.write_over List.length_replicate hk hb ?_
    rw [List.getElem?_replicate, if_pos hk]
  obtain ⟨mem, hmem, hdata⟩ :=
    Buffer.foldlM_range hfill (s := s.mem) (by rw [List.take_zero, List.drop_zero, List.nil_append])
  refine ⟨{ mem := mem, col := 0, row := 0, attr := vgaPlain }, ?_, ?_, rfl, rfl, rfl⟩
  · rw [vgaClear, hmem]
    rfl
  · rw [hdata, List.take_of_length_le List.length_replicate.le, List.drop_of_length_le s.mem.length_eq.le, List.append_nil]

/-! ## The screen is the end of the paper -/

variable {s : Vga} {p : Paper}

theorem Paper.ok_clear : Paper.clear.Ok where
  rows_ge := List.length_replicate.ge
  above_le := Nat.zero_le _
  row_lt := by decide
  length_row := fun r hr => by rw [List.eq_of_mem_replicate hr]; exact List.length_replicate

theorem shows_clear (s : Vga) : ∃ t, vgaClear s = some t ∧ Shows t .clear := by
  obtain ⟨t, ht, hmem, hcol, hrow, hattr⟩ := vgaClear_spec s
  have hdata : t.mem.data = (Paper.clear.rows.drop Paper.clear.above).flatten := by
    rw [hmem]
    decide +kernel
  exact ⟨t, ht, ⟨⟨Paper.ok_clear, hdata, by rw [hrow]; rfl, hattr⟩, hcol, by decide⟩⟩

theorem ShowsRows.row_lt (h : ShowsRows s p) : s.row < vgaRows := by
  have hlt := h.ok.row_lt
  have hrow := h.row
  unfold Paper.above at hrow
  omega

theorem vgaScrollCheck_of_lt (h : s.row < vgaRows) : vgaScrollCheck s = some s := if_neg (Nat.not_le.mpr h)

theorem ShowsRows.feed (h : ShowsRows s p) :
    ∃ t, vgaScrollCheck { s with col := 0, row := s.row + 1 } = some t ∧ Shows t p.feed := by
  have hge := h.ok.rows_ge
  have hlt := h.ok.row_lt
  have hrow := h.row
  have hcol : 0 < vgaCols := by decide
  unfold Paper.above at hrow
  by_cases hnext : p.row + 1 < p.rows.length
  · have hfeed : p.feed = { p with col := 0, row := p.row + 1 } := by rw [Paper.feed, if_pos hnext]
    have hrow' : s.row + 1 < vgaRows := by omega
    refine ⟨{ s with col := 0, row := s.row + 1 }, vgaScrollCheck_of_lt hrow', ?_⟩
    rw [hfeed]
    refine ⟨⟨⟨hge, h.ok.above_le.trans (Nat.le_succ _), hnext, h.ok.length_row⟩, h.mem, ?_, h.attr⟩, rfl, hcol⟩
    show s.row + 1 + (p.rows.length - vgaRows) = p.row + 1
    omega
  · -- the last row: the oldest row of the screen goes, and a blank one comes
    have hfeed : p.feed = { p with col := 0, row := p.row + 1, rows := p.rows ++ [blankRow p.attr] } := by
      rw [Paper.feed, if_neg hnext]
    have hlen : (p.rows ++ [blankRow p.attr]).length = p.rows.length + 1 := List.length_append
    obtain ⟨mem, hscroll, hdata⟩ := vgaScroll_spec s.attr s.mem
    have hdrop : (p.rows.drop p.above).flatten.drop vgaCols = (p.rows.drop (p.above + 1)).flatten := by
      have hin : p.above < p.rows.length := by unfold Paper.above; omega
      have hlen := h.ok.length_row _ (List.getElem_mem hin)
      rw [List.drop_eq_getElem_cons hin, List.flatten_cons, ← hlen, List.drop_left]
    refine ⟨{ s with mem := mem, col := 0, row := vgaRows - 1 }, ?_, ?_⟩
    · rw [vgaScrollCheck, if_pos (by dsimp only; omega)]
      dsimp only
      rw [hscroll]
      rfl
    · rw [hfeed]
      refine ⟨⟨⟨?_, ?_, ?_, ?_⟩, ?_, ?_, h.attr⟩, rfl, hcol⟩
      · exact hlen ▸ hge.trans (Nat.le_succ _)
      · unfold Paper.above
        dsimp only
        rw [hlen]
        omega
      · dsimp only
        rw [hlen]
        omega
      · intro r hr
        rcases List.mem_append.mp hr with hr | hr
        · exact h.ok.length_row r hr
        · rw [List.mem_singleton.mp hr]
          exact List.length_replicate
      · have habove : p.rows.length + 1 - vgaRows = p.above + 1 := by unfold Paper.above; omega
        dsimp only [Paper.above]
        rw [hdata, h.mem, hdrop, hlen, habove, List.drop_append_of_le_length (by unfold Paper.above; omega),
          List.flatten_append, h.attr, List.flatten_singleton]
      · unfold Paper.above
        dsimp only
        rw [hlen]
        omega

theorem Paper.length_put (p : Paper) (x : Cell) : (p.put x).rows.length = p.rows.length := List.length_set

theorem Shows.put (h : Shows s p) (x : Cell) : ∃ mem, s.mem.write (s.row * vgaCols + s.col) x = some mem ∧
    ∀ col, ShowsRows { s with mem := mem, col := col } (p.put x) := by
  have hrow := h.row_lt
  have hcol : s.col < vgaCols := h.col ▸ h.col_lt
  have hpos : s.row * vgaCols + s.col < vgaRows * vgaCols := by
    have hle : (s.row + 1) * vgaCols ≤ vgaRows * vgaCols := Nat.mul_le_mul_right _ hrow
    rw [Nat.succ_mul] at hle
    omega
  obtain ⟨mem, hwrite, hdata⟩ := Buffer.write_of_lt (b := s.mem) hpos x
  refine ⟨mem, hwrite, fun col => ⟨⟨?_, ?_, ?_, ?_⟩, ?_, ?_, h.attr⟩⟩
  · exact h.ok.rows_ge.trans_eq (p.length_put x).symm
  · rw [Paper.above, p.length_put]
    exact h.ok.above_le
  · exact h.ok.row_lt.trans_eq (p.length_put x).symm
  · intro r hr
    rcases List.mem_or_eq_of_mem_set hr with hr | rfl
    · exact h.ok.length_row r hr
    · rw [List.length_set, List.getD_eq_getElem _ _ h.ok.row_lt]
      exact h.ok.length_row _ (List.getElem_mem h.ok.row_lt)
  · have hin : s.row < (p.rows.drop p.above).length := by
      have hge := h.ok.rows_ge
      rw [List.length_drop]
      unfold Paper.above
      omega
    have hget : (p.rows.drop p.above).getD s.row [] = p.rows.getD p.row [] := by
      rw [List.getD_eq_getElem?_getD, List.getD_eq_getElem?_getD, List.getElem?_drop, Nat.add_comm, h.row]
    have habove : (p.put x).above = p.above := by rw [Paper.above, p.length_put, Paper.above]
    rw [habove]
    show mem.data = ((p.rows.set _ _).drop p.above).flatten
    rw [hdata, h.mem, Buffer.set_flatten (fun r hr => h.ok.length_row r (List.mem_of_mem_drop hr)) hin hcol, hget,
      List.drop_set, if_neg (Nat.not_lt.mpr h.ok.above_le), h.col, ← h.row, Nat.add_sub_cancel]
  · rw [Paper.above, p.length_put]
    exact h.row

theorem shows_putc (h : Shows s p) (c : Byte) : ∃ t, vgaPutc s c = some t ∧ Shows t (p.putc c) := by
  unfold vgaPutc Paper.putc
  by_cases hcr : c = 13
  · rw [if_pos hcr, if_pos hcr]
    exact ⟨_, rfl, ⟨⟨⟨h.ok.rows_ge, h.ok.above_le, h.ok.row_lt, h.ok.length_row⟩, h.mem, h.row, h.attr⟩, rfl,
      show 0 < vgaCols by decide⟩⟩
  rw [if_neg hcr, if_neg hcr]
  by_cases hlf : c = 10
  · rw [if_pos hlf, if_pos hlf]
    exact h.feed
  rw [if_neg hlf, if_neg hlf, ← h.attr]
  obtain ⟨mem, hwrite, hput⟩ := h.put (cell s.attr c)
  rw [hwrite, Option.bind_eq_bind, Option.bind_some, h.col]
  by_cases hwrap : vgaCols ≤ p.col + 1
  · rw [if_pos hwrap, if_pos hwrap]
    exact (hput 0).feed
  · rw [if_neg hwrap, if_neg hwrap]
    have hshows : Shows { s with mem := mem, col := p.col + 1 } (p.put (cell s.attr c)) :=
      ⟨hput _, rfl, Nat.not_le.mp hwrap⟩
    exact ⟨_, vgaScrollCheck_of_lt h.row_lt, hshows⟩

theorem shows_puts (h : Shows s p) (text : List Byte) :
    ∃ t, vgaPuts s text = some t ∧ Shows t ((str text).foldl Paper.putc p) := by
  unfold vgaPuts
  induction str text generalizing s p with
  | nil => exact ⟨s, rfl, h⟩
  | cons c text ih =>
    obtain ⟨t, ht, hshows⟩ := shows_putc h c
    obtain ⟨u, hu, hshows'⟩ := ih hshows
    exact ⟨u, by rw [List.foldlM_cons, ht]; exact hu, hshows'⟩

theorem shows_event (h : Shows s p) (e : MenuEvent) : ∃ t, vgaEvent s e = some t ∧ Shows t (p.event e) := by
  cases e with
  | print text => exact shows_puts h text
  | setColor fg =>
    exact ⟨_, rfl, ⟨⟨⟨h.ok.rows_ge, h.ok.above_le, h.ok.row_lt, h.ok.length_row⟩, h.mem, h.row, rfl⟩, h.col, h.col_lt⟩⟩
  | setCursor row col => exact ⟨s, rfl, h⟩
  | clear => exact shows_clear s
  | showCursor on => exact ⟨s, rfl, h⟩

/-- The run: the console never leaves the text memory, and shows the end of the paper. -/
theorem vgaRun_shows (h : Shows s p) (events : List MenuEvent) :
    ∃ t, vgaRun s events = some t ∧ Shows t (p.run events) := by
  unfold vgaRun Paper.run
  induction events generalizing s p with
  | nil => exact ⟨s, rfl, h⟩
  | cons e events ih =>
    obtain ⟨t, ht, hshows⟩ := shows_event h e
    obtain ⟨u, hu, hshows'⟩ := ih hshows
    exact ⟨u, by rw [List.foldlM_cons, ht]; exact hu, hshows'⟩

/-- From `vga_clear` on the screen is the end of the paper, and no access was outside the text memory. -/
theorem vga_shows_paper (s : Vga) (events : List MenuEvent) :
    ∃ t, vgaRun s (.clear :: events) = some t ∧ Shows t (Paper.clear.run events) := by
  obtain ⟨t, ht, hshows⟩ := shows_clear s
  obtain ⟨u, hu, hshows'⟩ := vgaRun_shows hshows events
  refine ⟨u, ?_, hshows'⟩
  rw [vgaRun, List.foldlM_cons]
  show (vgaClear s).bind _ = _
  rw [ht]
  exact hu

end SakuruBoot

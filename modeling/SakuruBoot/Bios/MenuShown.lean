import SakuruBoot.Bios.MenuScreen
import SakuruBoot.Common.MenuRuns

/-!
# The selection on the screen

While stage 2 waits for a key, the text memory holds the row of every entry, and the only highlighted row is the row of
the entry that Enter boots (`menu_shows_selection`). `Drawn` is what the console calls so far come to; one key keeps it
(`Drawn.step`), so every sequence of keys and timeouts does.
-/

namespace SakuruBoot
open CStr

/-! ## Colours -/

def cellAttr (x : Cell) : Byte := (x >>> 8).toUInt8

theorem cellAttr_cell (attr c : Byte) : cellAttr (cell attr c) = attr := by
  unfold cellAttr cell
  apply UInt8.toBitVec_inj.mp
  apply BitVec.eq_of_getLsbD_eq
  intro i hi
  have hlow : 8 + i < 16 := by omega
  have hin : i < 16 := by omega
  simp [hi, hlow, hin]

/-- Some cell of the row is in the colour of the selection. -/
def Highlighted (row : Row) : Prop := ∃ x ∈ row, cellAttr x = vgaColor .highlight

/-- A row in the plain colour. -/
def PlainRow (row : Row) : Prop := ∀ x ∈ row, cellAttr x = vgaPlain

theorem PlainRow.not_highlighted {row : Row} (h : PlainRow row) : ¬Highlighted row := by
  rintro ⟨x, hx, hattr⟩
  rw [h x hx] at hattr
  exact absurd hattr (by decide)

theorem plainRow_map (text : List Byte) : PlainRow (text.map (cell vgaPlain)) := by
  intro x hx
  obtain ⟨c, -, rfl⟩ := List.mem_map.mp hx
  exact cellAttr_cell _ _

theorem PlainRow.pad {row : Row} (h : PlainRow row) : PlainRow (padRow row) := by
  intro x hx
  rcases List.mem_append.mp hx with hx | hx
  · exact h x hx
  · rw [List.eq_of_mem_replicate hx]
    exact cellAttr_cell _ _

theorem PlainRow.wrap {text : List Cell} (h : PlainRow text) : ∀ row ∈ wrapRows text, PlainRow row := by
  induction text using wrapRows.induct with
  | case1 text hshort =>
    rw [wrapRows_short hshort]
    intro row hrow
    rw [List.mem_singleton.mp hrow]
    exact h.pad
  | case2 text hlong ih =>
    rw [wrapRows, if_neg hlong]
    intro row hrow
    rcases List.mem_cons.mp hrow with rfl | hrow
    · exact fun x hx => h x (List.mem_of_mem_take hx)
    · exact ih (fun x hx => h x (List.mem_of_mem_drop hx)) row hrow

theorem length_wrapRows (text : List Cell) : (wrapRows text).length = text.length / vgaCols + 1 := by
  induction text using wrapRows.induct with
  | case1 text hshort => rw [wrapRows_short hshort, Nat.div_eq_of_lt hshort]; rfl
  | case2 text hlong ih =>
    rw [wrapRows, if_neg hlong, List.length_cons, ih, List.length_drop]
    unfold vgaCols at hlong ⊢
    omega

theorem highlighted_selectedCells (name : List Byte) : Highlighted (selectedCells name) :=
  ⟨cell (vgaColor .highlight) 32, by simp [selectedCells], cellAttr_cell _ _⟩

/-! ## The rows of the whole menu -/

variable {cfg : BootConfig}

def borderRows (left right : List Byte) : List Row := wrapRows ((borderText left right).map (cell vgaPlain))

/-- The rows of the entries. -/
def bodyRows (entries : List BootEntry) (selected : Int) : List Row := (entries.mapIdx (entryRows selected)).flatten

/-- The rows `render_menu` draws. -/
def menuRows (cfg : BootConfig) (selected countdown : Int) : List Row :=
  borderRows boxDtl boxDtr ++ [padRow titleCells] ++ borderRows boxLt boxRt ++ bodyRows cfg.entries selected ++
    borderRows boxDbl boxDbr ++ [padRow (hintCells countdown)]

theorem typesRows_body (selected : Int) {entries : List BootEntry} (hnames : ∀ e ∈ entries, NameFits e.name) :
    TypesRows (entries.mapIdx (entryRow biosMenuOps selected)).flatten (bodyRows entries selected) := by
  refine typesRows_flatten (List.forall₂_iff_get.mpr ⟨by simp, fun i h h' => ?_⟩)
  simp only [List.get_eq_getElem, List.getElem_mapIdx]
  exact typesRows_entry selected i (hnames _ (List.getElem_mem _))

theorem Paper.run_clear (p : Paper) (evs : List MenuEvent) : p.run (.clear :: evs) = Paper.clear.run evs := rfl

theorem run_renderMenu {selected countdown row : Int} (hnames : ∀ e ∈ cfg.entries, NameFits e.name)
    (hlt : countdown < 100) (p : Paper) :
    Typed (p.run (renderMenu cfg selected countdown biosMenuOps row)) (menuRows cfg selected countdown) [] := by
  have hborder : ∀ left right : List Byte, Plain left → Plain right →
      TypesRows (borderRow biosMenuOps left right) (borderRows left right) := fun _ _ => typesRows_border
  have htop := hborder boxDtl boxDtr (by decide) (by decide)
  have hmiddle := hborder boxLt boxRt (by decide) (by decide)
  have hbottom := hborder boxDbl boxDbr (by decide) (by decide)
  have hall := ((((htop.append typesRows_title).append hmiddle).append (typesRows_body selected hnames)).append
    hbottom).append (typesRows_hint hlt)
  have hevs : renderMenu cfg selected countdown biosMenuOps row = .clear ::
      (borderRow biosMenuOps boxDtl boxDtr ++ titleRow biosMenuOps ++ borderRow biosMenuOps boxLt boxRt ++
        (cfg.entries.mapIdx (entryRow biosMenuOps selected)).flatten ++ borderRow biosMenuOps boxDbl boxDbr ++
        hintRow biosMenuOps countdown) := by
    have hstart : ¬(0 ≤ row ∧ biosMenuOps.hasSetCursor = true) := fun h => by cases h.2
    rw [renderMenu, if_neg hstart, if_pos (show biosMenuOps.hasClear = true from rfl)]
    simp only [List.flatten_cons, List.flatten_nil, List.append_nil, List.append_assoc, List.cons_append, List.nil_append]
  have htyped := (hall .clear [] typed_clear rfl).1
  rw [List.nil_append] at htyped
  rw [hevs, Paper.run_clear]
  exact htyped

/-! ## Where the entries are -/

theorem length_entryRows (selected : Int) (i : Nat) (e : BootEntry) :
    (entryRows selected i e).length = if (i : Int) = selected then 2 else 1 := by
  unfold entryRows
  split_ifs <;> rfl

theorem length_bodyRows_take (entries : List BootEntry) (sel : Nat) {i : Nat} (hi : i ≤ entries.length) :
    ((entries.mapIdx (entryRows sel)).take i).flatten.length = i + if sel < i then 1 else 0 := by
  induction i with
  | zero => rfl
  | succ i ih =>
    have hlt : i < (entries.mapIdx (entryRows sel)).length := by rw [List.length_mapIdx]; exact hi
    rw [List.take_succ_eq_append_getElem hlt, List.flatten_append, List.length_append, ih (by omega),
      List.flatten_singleton, List.getElem_mapIdx, length_entryRows]
    split_ifs <;> omega

theorem bodyRows_split (entries : List BootEntry) (selected : Int) {i : Nat} (hi : i < entries.length) :
    bodyRows entries selected = ((entries.mapIdx (entryRows selected)).take i).flatten ++
      (entryRows selected i entries[i] ++ ((entries.mapIdx (entryRows selected)).drop (i + 1)).flatten) := by
  have hlt : i < (entries.mapIdx (entryRows selected)).length := by rw [List.length_mapIdx]; exact hi
  have hget : (entries.mapIdx (entryRows selected))[i] = entryRows selected i entries[i] := List.getElem_mapIdx
  rw [bodyRows, ← hget, ← List.flatten_cons, ← List.flatten_append, ← List.drop_eq_getElem_cons hlt, List.take_append_drop]

theorem length_bodyRows (entries : List BootEntry) {sel : Nat} (hsel : sel < entries.length) :
    (bodyRows entries sel).length = entries.length + 1 := by
  have h := length_bodyRows_take entries sel (le_refl entries.length)
  rwa [List.take_of_length_le (List.length_mapIdx).le, if_pos hsel] at h

theorem plainRow_entryRows {selected : Int} {i : Nat} (hi : (i : Int) ≠ selected) (e : BootEntry) :
    ∀ row ∈ entryRows selected i e, PlainRow row := by
  rw [entryRows, if_neg hi]
  intro row hrow
  rw [List.mem_singleton.mp hrow]
  exact (plainRow_map _).pad

theorem length_borderRows {left right : List Byte} (hleft : left.length = 3) (hright : right.length = 3) :
    (borderRows left right).length = 3 := by
  have hlen : (borderText left right).length = 215 := by
    simp only [borderText, List.length_append, List.length_replicate, List.length_flatten, List.map_replicate,
      List.sum_replicate, boxDh, List.length_cons, List.length_nil, hleft, hright, smul_eq_mul]
  rw [borderRows, length_wrapRows, List.length_map, hlen]
  rfl

/-- The rows above the entries. -/
def headRows : List Row := borderRows boxDtl boxDtr ++ [padRow titleCells] ++ borderRows boxLt boxRt

theorem length_headRows : headRows.length = 7 := by
  rw [headRows, List.length_append, List.length_append, length_borderRows rfl rfl, length_borderRows rfl rfl]
  rfl

theorem length_menuRows {sel : Nat} (hsel : sel < cfg.numEntries) (countdown : Int) :
    (menuRows cfg sel countdown).length = cfg.numEntries + 12 := by
  rw [menuRows, List.length_append, List.length_append, List.length_append, ← headRows, length_headRows,
    length_bodyRows _ hsel, length_borderRows rfl rfl, List.length_singleton]
  show 7 + (cfg.entries.length + 1) + 3 + 1 = cfg.entries.length + 12
  omega

/-- Entry `i` is in row `i` under the head, one further down when it is behind the selected one. -/
theorem getElem?_menuRows {sel i : Nat} (hi : i < cfg.numEntries) (countdown : Int) :
    (menuRows cfg sel countdown)[7 + (i + if sel < i then 1 else 0)]? =
      some (if i = sel then selectedCells cfg.entries[i].name
        else padRow ((idleText cfg.entries[i].name).map (cell vgaPlain))) := by
  have hlen := length_bodyRows_take cfg.entries sel hi.le
  rw [menuRows, ← headRows, List.append_assoc, List.append_assoc,
    List.getElem?_append_right (by rw [length_headRows]; omega),
    length_headRows, Nat.add_sub_cancel_left, bodyRows_split _ _ hi, List.append_assoc, ← hlen,
    List.getElem?_append_right (le_refl _), Nat.sub_self, entryRows]
  by_cases h : i = sel
  · rw [if_pos (congrArg Nat.cast h), if_pos h]
    rfl
  · rw [if_neg (mt Int.ofNat_inj.mp h), if_neg h]
    rfl

theorem plainRow_menuRows {sel k : Nat} (hsel : sel < cfg.numEntries) {countdown : Int} {row : Row}
    (hk : (menuRows cfg sel countdown)[k]? = some row) (hne : k ≠ 7 + sel) : PlainRow row := by
  have hhead : ∀ row ∈ headRows, PlainRow row := by
    intro row hrow
    rcases List.mem_append.mp hrow with hrow | hrow
    · rcases List.mem_append.mp hrow with hrow | hrow
      · exact (plainRow_map _).wrap row hrow
      · rw [List.mem_singleton.mp hrow]
        exact (plainRow_map _).pad
    · exact (plainRow_map _).wrap row hrow
  have hfront : ∀ row ∈ ((cfg.entries.mapIdx (entryRows sel)).take sel).flatten, PlainRow row := by
    intro row hrow
    obtain ⟨rows, hrows, hmem⟩ := List.mem_flatten.mp hrow
    obtain ⟨i, hi, rfl⟩ := List.mem_take_iff_getElem.mp hrows
    rw [List.getElem_mapIdx] at hmem
    exact plainRow_entryRows (by omega) _ row hmem
  have hback : ∀ row ∈ ((cfg.entries.mapIdx (entryRows sel)).drop (sel + 1)).flatten, PlainRow row := by
    intro row hrow
    obtain ⟨rows, hrows, hmem⟩ := List.mem_flatten.mp hrow
    obtain ⟨i, hi, rfl⟩ := List.mem_drop_iff_getElem.mp hrows
    rw [List.getElem_mapIdx] at hmem
    exact plainRow_entryRows (by omega) _ row hmem
  have hlen := length_bodyRows_take cfg.entries sel hsel.le
  rw [if_neg (lt_irrefl _), Nat.add_zero] at hlen
  -- the selected row stands between the rows `front` and the rows `back`
  have hsplit : menuRows cfg sel countdown = (headRows ++ ((cfg.entries.mapIdx (entryRows sel)).take sel).flatten) ++
      selectedCells cfg.entries[sel].name :: (padRow [] :: ((cfg.entries.mapIdx (entryRows sel)).drop (sel + 1)).flatten ++
        (borderRows boxDbl boxDbr ++ [padRow (hintCells countdown)])) := by
    rw [menuRows, ← headRows, bodyRows_split _ _ hsel, entryRows, if_pos rfl]
    simp only [List.append_assoc, List.cons_append, List.nil_append]
  rw [hsplit] at hk
  have hfrontLen : (headRows ++ ((cfg.entries.mapIdx (entryRows sel)).take sel).flatten).length = 7 + sel := by
    rw [List.length_append, length_headRows, hlen]
  rcases Nat.lt_or_gt_of_ne hne with hlt | hgt
  · rw [List.getElem?_append_left (by omega)] at hk
    rcases List.mem_append.mp (List.mem_of_getElem? hk) with hrow | hrow
    · exact hhead row hrow
    · exact hfront row hrow
  · obtain ⟨j, rfl⟩ : ∃ j, k = 7 + sel + (j + 1) := ⟨k - (7 + sel) - 1, by omega⟩
    rw [List.getElem?_append_right (by omega), hfrontLen, Nat.add_sub_cancel_left, List.getElem?_cons_succ] at hk
    rcases List.mem_append.mp (List.mem_of_getElem? hk) with hrow | hrow
    · rcases List.mem_cons.mp hrow with rfl | hrow
      · exact (plainRow_map []).pad
      · exact hback row hrow
    · rcases List.mem_append.mp hrow with hrow | hrow
      · exact (plainRow_map _).wrap row hrow
      · rw [List.mem_singleton.mp hrow]
        exact (plainRow_map _).pad

/-! ## On the screen -/

/-- A row of the text memory. -/
def Vga.screenRow (s : Vga) (r : Nat) : Row := (s.mem.data.drop (r * vgaCols)).take vgaCols

/-- The row of the screen an entry is in, of `n` entries: with more than twelve the top of the box is gone. -/
def rowOnScreen (n sel i : Nat) : Nat := 7 + (i + if sel < i then 1 else 0) - (n - 12)

theorem row_of_flatten {w : Nat} {rows : List Row} (hrows : ∀ row ∈ rows, row.length = w) {r : Nat} {row : Row}
    (hr : rows[r]? = some row) : (rows.flatten.drop (r * w)).take w = row := by
  induction rows generalizing r with
  | nil => cases hr
  | cons first rows ih =>
    have hfirst := hrows first List.mem_cons_self
    rw [List.flatten_cons]
    cases r with
    | zero =>
      obtain rfl : first = row := Option.some.inj hr
      rw [Nat.zero_mul, List.drop_zero, List.take_left' hfirst]
    | succ r =>
      rw [Nat.succ_mul, Nat.add_comm, ← List.drop_drop, List.drop_left' hfirst]
      exact ih (fun row h => hrows row (List.mem_cons_of_mem _ h)) hr

theorem Shows.screenRow {s : Vga} {p : Paper} (h : Shows s p) {r : Nat} {row : Row}
    (hr : p.rows[p.above + r]? = some row) : s.screenRow r = row := by
  rw [Vga.screenRow, h.mem]
  refine row_of_flatten (fun row hrow => h.ok.length_row row (List.mem_of_mem_drop hrow)) ?_
  rw [List.getElem?_drop]
  exact hr

/-- The menu on the screen: the entries in their rows, and the selection highlighted. -/
structure ShowsMenu (s : Vga) (entries : List BootEntry) (sel : Nat) : Prop where
  entry : ∀ i (hi : i < entries.length), s.screenRow (rowOnScreen entries.length sel i) =
    if i = sel then selectedCells entries[i].name else padRow ((idleText entries[i].name).map (cell vgaPlain))
  highlighted : ∀ r < vgaRows, Highlighted (s.screenRow r) ↔ r = rowOnScreen entries.length sel sel

theorem Shows.menu {s : Vga} {p : Paper} (h : Shows s p) {sel : Nat} (hsel : sel < cfg.numEntries)
    (hmax : cfg.numEntries ≤ maxEntries) {countdown : Int} (htyped : Typed p (menuRows cfg sel countdown) []) :
    ShowsMenu s cfg.entries sel := by
  have hmax' : cfg.numEntries ≤ 16 := hmax
  have hlen := length_menuRows hsel countdown
  have hrows := htyped.rows
  rw [hlen] at hrows
  have habove : p.above = cfg.numEntries - 12 := by
    rw [Paper.above, hrows, List.length_append, List.length_cons, List.length_replicate, hlen]
    unfold vgaRows
    omega
  have hdrawn : ∀ {k : Nat} {row : Row}, (menuRows cfg sel countdown)[p.above + k]? = some row → s.screenRow k = row := by
    intro k row hrow
    refine h.screenRow ?_
    rw [hrows, List.getElem?_append_left (List.getElem?_eq_some_iff.mp hrow).1]
    exact hrow
  have hpos : ∀ i, p.above + rowOnScreen cfg.numEntries sel i = 7 + (i + if sel < i then 1 else 0) := by
    intro i
    rw [habove, rowOnScreen]
    omega
  refine ⟨fun i hi => hdrawn ?_, fun r hr => ⟨fun hlit => ?_, ?_⟩⟩
  · rw [hpos]
    exact getElem?_menuRows hi countdown
  · by_contra hne
    have hat := hpos sel
    rw [if_neg (lt_irrefl _), Nat.add_zero] at hat
    have hplain : PlainRow (s.screenRow r) := by
      rcases Nat.lt_or_ge (p.above + r) (menuRows cfg sel countdown).length with hlt | hge
      · have hget := List.getElem?_eq_getElem hlt
        rw [hdrawn hget]
        refine plainRow_menuRows hsel hget fun hsame => hne ?_
        exact Nat.add_left_cancel (hsame.trans hat.symm)
      · -- the row the cursor is in
        have hlast : p.rows[p.above + r]? = some (blankRow vgaPlain) := by
          rw [hrows, List.getElem?_append_right hge]
          refine List.getElem?_eq_some_iff.mpr ⟨?_, ?_⟩
          · rw [List.length_cons, List.length_replicate]
            unfold vgaRows at *
            omega
          · exact List.eq_of_mem_replicate (n := vgaRows - (cfg.numEntries + 12 + 1) + 1) (List.getElem_mem _)
        rw [h.screenRow hlast]
        exact (plainRow_map []).pad
    exact hplain.not_highlighted hlit
  · rintro rfl
    have hrow := @getElem?_menuRows cfg sel sel hsel countdown
    rw [if_pos rfl, ← hpos] at hrow
    rw [hdrawn hrow]
    exact highlighted_selectedCells _

/-! ## Runs of the menu -/

/-- What the calls so far come to: after some others, the menu with the selection. -/
structure Drawn (cfg : BootConfig) (s : MenuState) : Prop where
  selects : Selects cfg s.selected
  countdown : s.countdown < 100
  render : ∃ before countdown row, s.out = before ++ renderMenu cfg s.selected countdown biosMenuOps row ∧ countdown < 100
  head : s.out.head? = some .clear

theorem head_renderMenu (selected countdown row : Int) :
    (renderMenu cfg selected countdown biosMenuOps row).head? = some .clear := by
  have hstart : ¬(0 ≤ row ∧ biosMenuOps.hasSetCursor = true) := fun h => by cases h.2
  rw [renderMenu, if_neg hstart, if_pos (show biosMenuOps.hasClear = true from rfl)]
  rfl

theorem menuInit_out : (menuInit cfg biosMenuOps).out = renderMenu cfg (i32 cfg.defaultEntry.toNat)
    (if decide (0 < i32 cfg.timeout.toNat) then i32 cfg.timeout.toNat else 0) biosMenuOps (-1) := by
  rw [menuInit]
  exact List.nil_append _

theorem drawn_init (hmax : cfg.numEntries ≤ maxEntries) (hdef : cfg.defaultEntry.toNat < cfg.numEntries)
    (htimeout : i32 cfg.timeout.toNat < 100) : Drawn cfg (menuInit cfg biosMenuOps) where
  selects := by
    obtain ⟨heq, hselects⟩ := selects_default hmax hdef
    rwa [menuInit_selected, heq]
  countdown := by rwa [menuInit_countdown]
  render := by
    rw [menuInit_out, menuInit_selected]
    refine ⟨[], _, _, (List.nil_append _).symm, ?_⟩
    split_ifs
    · exact htimeout
    · decide
  head := by
    rw [menuInit_out]
    exact head_renderMenu _ _ _

theorem Drawn.step {s : MenuState} (h : Drawn cfg s) (hmax : cfg.numEntries < 2 ^ 31) {key : Int}
    (hwaits : (menuStep cfg biosMenuOps s key).2 = none) : Drawn cfg (menuStep cfg biosMenuOps s key).1 := by
  have hselects := (menuStep_selected biosMenuOps key hmax h.selects).1
  have hhead : ∀ more, (s.out ++ more).head? = some .clear := fun more => by rw [List.head?_append, h.head]; rfl
  have hcountdown := h.countdown
  unfold menuStep at hwaits hselects ⊢
  dsimp only at hwaits hselects ⊢
  split_ifs at hwaits hselects ⊢
  · exact ⟨hselects, hcountdown, ⟨s.out, 0, 0, rfl, by decide⟩, hhead _⟩
  · have hnext : s.countdown - 1 < 100 := by omega
    exact ⟨hselects, hnext, ⟨s.out, _, 0, rfl, hnext⟩, hhead _⟩
  · exact h

theorem Drawn.loop {s : MenuState} (h : Drawn cfg s) (hmax : cfg.numEntries < 2 ^ 31) (keys : List Int)
    (hwaits : (menuLoop cfg biosMenuOps keys s).2 = none) : Drawn cfg (menuLoop cfg biosMenuOps keys s).1 := by
  induction keys generalizing s with
  | nil => exact h
  | cons key keys ih =>
    rw [menuLoop] at hwaits ⊢
    rcases hstep : menuStep cfg biosMenuOps s key with ⟨t, _ | sel⟩
    · rw [hstep] at hwaits
      have hnext : (menuStep cfg biosMenuOps s key).2 = none → Drawn cfg (menuStep cfg biosMenuOps s key).1 := h.step hmax
      rw [hstep] at hnext
      exact ih (hnext rfl) hwaits
    · rw [hstep] at hwaits
      cases hwaits

/-- While the menu waits, the screen shows every entry in its row, and highlights the one that Enter boots. -/
theorem menu_shows_selection (s : Vga) (hne : cfg.numEntries ≠ 0) (hmax : cfg.numEntries ≤ maxEntries)
    (hdef : cfg.defaultEntry.toNat < cfg.numEntries) (htimeout : i32 cfg.timeout.toNat < 100)
    (hnames : ∀ e ∈ cfg.entries, NameFits e.name) {keys : List Int} (hwaits : (menuRun cfg biosMenuOps keys).2 = none) :
    ∃ (t : Vga) (sel : Nat), vgaRun s (menuRun cfg biosMenuOps keys).1.out = some t ∧
      (menuRun cfg biosMenuOps (keys ++ [keyEnter])).2 = some (sel : Int) ∧ ShowsMenu t cfg.entries sel := by
  have hwidth : cfg.numEntries < 2 ^ 31 := lt_of_le_of_lt hmax (by decide)
  rw [menuRun, if_neg hne] at hwaits ⊢
  have hdrawn := (drawn_init hmax hdef htimeout).loop hwidth keys hwaits
  have hloop : menuLoop cfg biosMenuOps keys (menuInit cfg biosMenuOps) =
      ((menuLoop cfg biosMenuOps keys (menuInit cfg biosMenuOps)).1, none) := Prod.ext rfl hwaits
  generalize (menuLoop cfg biosMenuOps keys (menuInit cfg biosMenuOps)).1 = final at hdrawn hloop ⊢
  obtain ⟨sel, hsel⟩ := Int.eq_ofNat_of_zero_le hdrawn.selects.1
  obtain ⟨before, countdown, row, hout, hlt⟩ := hdrawn.render
  obtain ⟨rest, hrest⟩ := List.head?_eq_some_iff.mp hdrawn.head
  obtain ⟨cleared, hclear, hshown⟩ := shows_clear s
  obtain ⟨t, hrun, hshows⟩ := vgaRun_shows hshown rest
  have hpaper : (Paper.clear.run rest) = (Paper.clear.run before).run
      (renderMenu cfg final.selected countdown biosMenuOps row) := by
    rw [← Paper.run_append, ← hout, hrest, Paper.run_clear]
  rw [hpaper] at hshows
  refine ⟨t, sel, ?_, ?_, ?_⟩
  · rw [hrest, vgaRun, List.foldlM_cons]
    exact Option.bind_eq_some_iff.mpr ⟨cleared, hclear, hrun⟩
  · rw [menuRun, if_neg hne, menuLoop_append, hloop]
    dsimp only
    rw [menuLoop, ← hsel]
    have henter : (menuStep cfg biosMenuOps final keyEnter).2 = some final.selected := menuStep_enter final (by decide)
    rcases hstep : menuStep cfg biosMenuOps final keyEnter with ⟨u, _ | sel'⟩
    · rw [hstep] at henter
      cases henter
    · rwa [hstep] at henter
  · have hlt' : (final.selected : Int) < cfg.numEntries := hdrawn.selects.2
    rw [hsel] at hlt' hshows
    exact hshows.menu (by omega) hmax (run_renderMenu hnames hlt _)

theorem menu_shows_selection_two : ∃ (t : Vga) (sel : Nat),
    vgaRun { mem := .fill (vgaRows * vgaCols) 0, col := 0, row := 0, attr := 7 }
      (menuRun { entries := [{ name := lit "Linux" }, { name := lit "Vios" }] } biosMenuOps [keyDown]).1.out = some t ∧
      (menuRun { entries := [{ name := lit "Linux" }, { name := lit "Vios" }] } biosMenuOps ([keyDown] ++ [keyEnter])).2 =
        some (sel : Int) ∧ ShowsMenu t [{ name := lit "Linux" }, { name := lit "Vios" }] sel := by
  refine @menu_shows_selection { entries := [{ name := lit "Linux" }, { name := lit "Vios" }] } _ (by decide)
    (by decide) (by decide) (by decide) ?_ _ rfl
  intro e he
  rcases List.mem_pair.mp he with rfl | rfl
  · exact ⟨by decide, by decide⟩
  · exact ⟨by decide, by decide⟩

end SakuruBoot

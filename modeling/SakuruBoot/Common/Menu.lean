import SakuruBoot.Common.Config

/-!
# The boot menu (`common/menu.c`)

`menuRun` on a list of `read_key` results: the menu's state after them, and the index it returned
when it returned on one of them. What the menu draws is the list of calls it makes on its console
operations, in order.

The selection starts at `default_entry` whatever the table holds; from an index inside the table
every key keeps it there (`menuStep_selected`).
-/

namespace SakuruBoot
open CStr

def keyUp : Int := 0x100
def keyDown : Int := 0x101
def keyEnter : Int := 13

/-- The colour roles of `set_color`. -/
inductive MenuColor
  | normal
  | highlight
  | title
  | timer
  | border
  | accent
  | hint
  deriving DecidableEq, Repr

/-- A call on the console operations. -/
inductive MenuEvent
  | print (s : List Byte)
  | setColor (fg : MenuColor)
  | setCursor (row col : Int)
  | clear
  | showCursor (on : Bool)
  deriving DecidableEq, Repr

/-- The optional operations that are present, and the screen width. -/
structure MenuOps where
  hasClear : Bool := true
  hasSetColor : Bool := true
  hasSetCursor : Bool := false
  hasShowCursor : Bool := false
  cols : Int := 80
  deriving DecidableEq, Repr

def MenuOps.color (ops : MenuOps) (c : MenuColor) : List MenuEvent :=
  if ops.hasSetColor then [.setColor c] else []

def MenuOps.cursor (ops : MenuOps) (on : Bool) : List MenuEvent :=
  if ops.hasShowCursor then [.showCursor on] else []

def boxSel : List Byte := [0xc2, 0xbb]
def boxDtl : List Byte := [0xe2, 0x95, 0x94]
def boxDtr : List Byte := [0xe2, 0x95, 0x97]
def boxDbl : List Byte := [0xe2, 0x95, 0x9a]
def boxDbr : List Byte := [0xe2, 0x95, 0x9d]
def boxDh : List Byte := [0xe2, 0x95, 0x90]
def boxDv : List Byte := [0xe2, 0x95, 0x91]
def boxLt : List Byte := [0xe2, 0x95, 0xa0]
def boxRt : List Byte := [0xe2, 0x95, 0xa3]

/-- `s` printed `n` times, `chunk` copies a call. -/
def printChunks (s : List Byte) (chunk : Nat) : Nat → Nat → List MenuEvent
  | 0, _ => []
  | fuel + 1, n =>
    if n = 0 then []
    else
      let k := min chunk n
      .print (List.replicate k s).flatten :: printChunks s chunk fuel (n - k)

/-- `print_n`: single bytes go out in runs of 160, longer strings in runs of 40 copies. -/
def printN (s : List Byte) (n : Int) : List MenuEvent :=
  if n ≤ 0 ∨ s.isEmpty then []
  else printChunks s (if s.length = 1 then 160 else 40) n.toNat n.toNat

/-- The countdown line, or the key hint when nothing is counting. -/
def hintLine (countdown : Int) : List Byte :=
  if 0 < countdown then
    lit "Booting in " ++
      (if 10 ≤ countdown then [(48 + (countdown / 10).toNat).toUInt8] else []) ++
      [(48 + (countdown % 10).toNat).toUInt8] ++ lit "s..."
  else lit "UP/DOWN  Move    ENTER  Boot"

/-- The geometry of the box: screen width, left margin and inner width. -/
structure MenuBox where
  cols : Int
  lpad : Int
  inner : Int

def menuBox (ops : MenuOps) : MenuBox :=
  let cols := if 0 < ops.cols then ops.cols else 80
  let bw := min (max (cols - 10) 40) 78
  { cols := cols, lpad := max ((cols - bw).tdiv 2) 0, inner := bw - 2 }

def blank : List Byte := [32]

def endline : List MenuEvent := [.print [10]]

def lmargin (ops : MenuOps) : List MenuEvent := ops.color .normal ++ printN blank (menuBox ops).lpad

def wall (ops : MenuOps) : List MenuEvent := ops.color .border ++ [.print boxDv]

/-- A horizontal border with its two corners. -/
def borderRow (ops : MenuOps) (left right : List Byte) : List MenuEvent :=
  List.flatten [lmargin ops, ops.color .border, [.print left], printN boxDh (menuBox ops).inner,
    [.print right], endline]

def titleRow (ops : MenuOps) : List MenuEvent :=
  let inner := (menuBox ops).inner
  let title := lit "SakuruBoot  v0.1"
  let tlpad := (inner - title.length).tdiv 2
  let trpad := inner - title.length - tlpad
  List.flatten [lmargin ops, wall ops, ops.color .normal, printN blank tlpad, ops.color .title,
    [.print title], ops.color .normal, printN blank trpad, wall ops, endline]

def entryRow (ops : MenuOps) (selected : Int) (i : Nat) (e : BootEntry) : List MenuEvent :=
  let rpad := max ((menuBox ops).inner - 5 - e.name.length) 0
  let body :=
    if (i : Int) = selected then
      List.flatten [ops.color .normal, [.print blank], ops.color .highlight, [.print blank],
        ops.color .accent, [.print boxSel], ops.color .highlight, [.print blank], [.print e.name],
        printN blank rpad, ops.color .normal, [.print blank]]
    else
      List.flatten [ops.color .normal, [.print (lit "    ")], [.print e.name], printN blank rpad,
        [.print blank]]
  List.flatten [lmargin ops, wall ops, body, wall ops, endline]

def hintRow (ops : MenuOps) (countdown : Int) : List MenuEvent :=
  let line := hintLine countdown
  List.flatten [ops.color .hint, printN blank (max (((menuBox ops).cols - line.length).tdiv 2) 0),
    [.print line], endline]

def renderMenu (cfg : BootConfig) (selected countdown : Int) (ops : MenuOps) (startRow : Int) :
    List MenuEvent :=
  let start : List MenuEvent :=
    if 0 ≤ startRow ∧ ops.hasSetCursor then [.setCursor startRow 0]
    else if ops.hasClear then [.clear] else []
  List.flatten [start, borderRow ops boxDtl boxDtr, titleRow ops, borderRow ops boxLt boxRt,
    (cfg.entries.mapIdx (entryRow ops selected)).flatten, borderRow ops boxDbl boxDbr,
    hintRow ops countdown]

/-- The local variables of `menu_run` and the console calls so far. -/
structure MenuState where
  selected : Int
  countdown : Int
  counting : Bool
  out : List MenuEvent
  deriving DecidableEq, Repr

def menuInit (cfg : BootConfig) (ops : MenuOps) : MenuState :=
  let countdown := i32 cfg.timeout.toNat
  let counting := decide (0 < countdown)
  let selected := i32 cfg.defaultEntry.toNat
  { selected := selected
    countdown := countdown
    counting := counting
    out := ops.cursor false ++ renderMenu cfg selected (if counting then countdown else 0) ops (-1) }

/-- The selection after a key that is not Enter. -/
def moveSelection (cfg : BootConfig) (selected key : Int) : Int :=
  if key = keyUp then
    if 0 < selected then selected - 1 else i32 cfg.numEntries - 1
  else if key = keyDown then
    if u32 (toU32 selected + 1) < cfg.numEntries then selected + 1 else 0
  else selected

/-- One iteration of the key loop: the state after it, and the index when it returns. -/
def menuStep (cfg : BootConfig) (ops : MenuOps) (s : MenuState) (key : Int) :
    MenuState × Option Int :=
  if 0 ≤ key then
    if key = keyEnter ∨ key = 10 then
      ({ s with counting := false, out := s.out ++ ops.cursor true }, some s.selected)
    else
      let selected := moveSelection cfg s.selected key
      ({ s with
          selected := selected
          counting := false
          out := s.out ++ renderMenu cfg selected 0 ops 0 }, none)
  else if s.counting then
    let countdown := s.countdown - 1
    if countdown ≤ 0 then
      ({ s with countdown := countdown, out := s.out ++ ops.cursor true }, some s.selected)
    else
      ({ s with
          countdown := countdown
          out := s.out ++ renderMenu cfg s.selected countdown ops 0 }, none)
  else (s, none)

/-- The key loop on the `read_key` results given; it stops at the first one it returns on. -/
def menuLoop (cfg : BootConfig) (ops : MenuOps) : List Int → MenuState → MenuState × Option Int
  | [], s => (s, none)
  | key :: keys, s =>
    match menuStep cfg ops s key with
    | (s, some sel) => (s, some sel)
    | (s, none) => menuLoop cfg ops keys s

/-- `menu_run`. An empty table returns 0 at once. -/
def menuRun (cfg : BootConfig) (ops : MenuOps) (keys : List Int) : MenuState × Option Int :=
  if cfg.numEntries = 0 then ({ selected := 0, countdown := 0, counting := false, out := [] }, some 0)
  else menuLoop cfg ops keys (menuInit cfg ops)

/-! ## The selection stays inside the table -/

variable {cfg : BootConfig} {ops : MenuOps}

/-- The index is one of the table's. -/
def Selects (cfg : BootConfig) (sel : Int) : Prop := 0 ≤ sel ∧ sel < cfg.numEntries

theorem moveSelection_selects {sel : Int} (key : Int) (hmax : cfg.numEntries < 2 ^ 31)
    (h : Selects cfg sel) : Selects cfg (moveSelection cfg sel key) := by
  obtain ⟨h0, hlt⟩ := h
  have hwidth : i32 cfg.numEntries = cfg.numEntries := i32_of_bounds (by omega) (by omega)
  have hu : (toU32 sel : Int) = sel := toU32_of_bounds h0 (by omega)
  unfold moveSelection Selects
  rw [hwidth]
  split
  · split <;> omega
  · split
    · unfold u32
      split <;> omega
    · omega

theorem menuStep_selected (ops : MenuOps) {s : MenuState} (key : Int) (hmax : cfg.numEntries < 2 ^ 31)
    (h : Selects cfg s.selected) :
    Selects cfg (menuStep cfg ops s key).1.selected ∧
      ∀ sel, (menuStep cfg ops s key).2 = some sel → Selects cfg sel := by
  unfold menuStep
  dsimp only
  split
  · split
    · simpa using h
    · simpa using moveSelection_selects key hmax h
  · split
    · split <;> simpa using h
    · simpa using h

theorem menuLoop_selects (keys : List Int) {s : MenuState} (hmax : cfg.numEntries < 2 ^ 31)
    (h : Selects cfg s.selected) {sel : Int} (hret : (menuLoop cfg ops keys s).2 = some sel) :
    Selects cfg sel := by
  induction keys generalizing s with
  | nil => simp [menuLoop] at hret
  | cons key keys ih =>
    obtain ⟨hkeep, hreturn⟩ := menuStep_selected ops key hmax h
    rw [menuLoop] at hret
    split at hret
    · rename_i s' sel' hstep
      rw [hstep] at hreturn
      exact hreturn sel (by simpa using hret)
    · rename_i s' hstep
      rw [hstep] at hkeep
      exact ih hkeep hret

@[simp] theorem menuInit_selected : (menuInit cfg ops).selected = i32 cfg.defaultEntry.toNat := by
  rw [menuInit]

theorem menuRun_enter (hne : cfg.numEntries ≠ 0) :
    (menuRun cfg ops [keyEnter]).2 = some (i32 cfg.defaultEntry.toNat) := by
  rw [menuRun, if_neg hne, menuLoop, menuStep, if_pos (by decide), if_pos (.inl rfl)]
  exact congrArg some menuInit_selected

end SakuruBoot

import SakuruBoot.Common.ConfigFormat
import SakuruBoot.Common.Menu

/-!
# Whole runs of the menu

`menu_run` over every sequence of keys and timeouts. From the first key on the countdown is off and the selection walks
round the table until Enter (`menuRun_keys`). With no key at all the default boots after as many polls as the timeout
has seconds, and the hint line counts them down, for timeouts from 1 to 99 and no others (`bootsUnattended_iff`): zero
and values above the range of an `int` never count, and the line has two digits.
-/

namespace SakuruBoot
open CStr

variable {cfg : BootConfig} {ops : MenuOps}

def isEnter (key : Int) : Bool := key = keyEnter || key = 10

/-- The keys before the first Enter. -/
def beforeEnter (keys : List Int) : List Int := keys.takeWhile fun key => !isEnter key

/-- How far the keys move the selection down the table. -/
def netMoves (keys : List Int) : Int := keys.count keyDown - keys.count keyUp

/-! ## One step -/

theorem menuStep_enter (s : MenuState) {key : Int} (h : isEnter key = true) :
    (menuStep cfg ops s key).2 = some s.selected := by
  have hkey : key = keyEnter ∨ key = 10 := by simpa [isEnter] using h
  have hpos : 0 ≤ key := by rcases hkey with rfl | rfl <;> decide
  rw [menuStep, if_pos hpos, if_pos hkey]

theorem menuStep_idle {s : MenuState} (hs : s.counting = false) {key : Int} (h : isEnter key = false) :
    (menuStep cfg ops s key).2 = none ∧ (menuStep cfg ops s key).1.counting = false ∧
      (menuStep cfg ops s key).1.selected = moveSelection cfg s.selected key := by
  have hkey : ¬(key = keyEnter ∨ key = 10) := by simpa [isEnter] using h
  unfold menuStep
  by_cases hpos : 0 ≤ key
  · rw [if_pos hpos, if_neg hkey]
    exact ⟨rfl, rfl, rfl⟩
  · have hup : key ≠ keyUp := fun heq => hpos (heq ▸ by decide)
    have hdown : key ≠ keyDown := fun heq => hpos (heq ▸ by decide)
    rw [if_neg hpos, if_neg (by simp [hs]), moveSelection, if_neg hup, if_neg hdown]
    exact ⟨rfl, hs, rfl⟩

theorem menuStep_key (s : MenuState) {key : Int} (h : 0 ≤ key) :
    menuStep cfg ops s key = menuStep cfg ops { s with counting := false } key := by
  unfold menuStep
  rw [if_pos h, if_pos h]

theorem menuStep_wait {s : MenuState} {key : Int} (hkey : key < 0) (hs : s.counting = true → 1 < s.countdown) :
    (menuStep cfg ops s key).2 = none ∧ (menuStep cfg ops s key).1.selected = s.selected ∧
      (menuStep cfg ops s key).1.counting = s.counting ∧
      (s.counting = true → (menuStep cfg ops s key).1.countdown = s.countdown - 1) := by
  unfold menuStep
  rw [if_neg (by omega)]
  cases hc : s.counting with
  | false => exact ⟨rfl, rfl, hc, nofun⟩
  | true =>
    have hlt := hs hc
    rw [if_pos rfl]
    dsimp only
    rw [if_neg (by omega)]
    exact ⟨rfl, rfl, rfl, fun _ => rfl⟩

/-! ## Walking round the table -/

theorem moveSelection_emod {sel key : Int} (hmax : cfg.numEntries < 2 ^ 31) (h : Selects cfg sel) :
    moveSelection cfg sel key = (sel + netMoves [key]) % cfg.numEntries := by
  obtain ⟨h0, hlt⟩ := h
  have hwidth : i32 cfg.numEntries = cfg.numEntries := i32_of_bounds (by omega) (by omega)
  have hu : (toU32 sel : Int) = sel := toU32_of_bounds h0 (by omega)
  have hsucc : u32 (toU32 sel + 1) = toU32 sel + 1 := Nat.mod_eq_of_lt (by omega)
  unfold moveSelection netMoves
  rw [hwidth, hsucc]
  split_ifs with hup hpos hdown hin
  · have hnet : ([key].count keyDown : Int) - [key].count keyUp = -1 := by rw [hup]; decide
    rw [hnet, Int.emod_eq_of_lt (by omega) (by omega)]
    rfl
  · have hnet : ([key].count keyDown : Int) - [key].count keyUp = -1 := by rw [hup]; decide
    have hsel : sel = 0 := by omega
    rw [hnet, hsel, ← Int.add_emod_right, Int.emod_eq_of_lt (by omega) (by omega)]
    omega
  · have hnet : ([key].count keyDown : Int) - [key].count keyUp = 1 := by rw [hdown]; decide
    rw [hnet, Int.emod_eq_of_lt (by omega) (by omega)]
  · have hnet : ([key].count keyDown : Int) - [key].count keyUp = 1 := by rw [hdown]; decide
    have hsel : sel + 1 = cfg.numEntries := by omega
    rw [hnet, hsel, Int.emod_self]
  · have hnet : ([key].count keyDown : Int) - [key].count keyUp = 0 := by
      rw [List.count_singleton, List.count_singleton, if_neg (by simpa using hdown), if_neg (by simpa using hup)]
      rfl
    rw [hnet, Int.add_zero, Int.emod_eq_of_lt h0 hlt]

theorem netMoves_cons (key : Int) (keys : List Int) : netMoves (key :: keys) = netMoves [key] + netMoves keys := by
  unfold netMoves
  rw [List.count_cons, List.count_cons, List.count_singleton, List.count_singleton]
  push_cast
  ring

/-- Without a countdown the loop returns on the first Enter, and the selection has gone round the table by the keys
before it. -/
theorem menuLoop_idle (hmax : cfg.numEntries < 2 ^ 31) (keys : List Int) {s : MenuState} (hs : s.counting = false)
    (hsel : Selects cfg s.selected) :
    (menuLoop cfg ops keys s).2 = if keys.any isEnter then
      some ((s.selected + netMoves (beforeEnter keys)) % cfg.numEntries) else none := by
  induction keys generalizing s with
  | nil => rfl
  | cons key keys ih =>
    rw [menuLoop, List.any_cons]
    cases hkey : isEnter key with
    | true =>
      have hstep := @menuStep_enter cfg ops s key hkey
      have hbefore : beforeEnter (key :: keys) = [] := List.takeWhile_cons_of_neg (by simp [hkey])
      rw [hbefore]
      rcases hresult : menuStep cfg ops s key with ⟨t, r⟩
      rw [hresult] at hstep
      simp only [show r = some s.selected from hstep]
      have hnet : netMoves [] = 0 := rfl
      rw [hnet, Int.add_zero, Int.emod_eq_of_lt hsel.1 hsel.2]
      rfl
    | false =>
      obtain ⟨hnone, hidle, hmove⟩ := @menuStep_idle cfg ops s hs key hkey
      have hkeep := moveSelection_selects key hmax hsel
      have hbefore : beforeEnter (key :: keys) = key :: beforeEnter keys :=
        List.takeWhile_cons_of_pos (by simp [hkey])
      rcases hresult : menuStep cfg ops s key with ⟨t, r⟩
      rw [hresult] at hnone hidle hmove
      simp only [show r = none from hnone]
      rw [ih hidle (show Selects cfg t.selected from hmove ▸ hkeep), show t.selected = _ from hmove,
        moveSelection_emod hmax hsel, hbefore, netMoves_cons key (beforeEnter keys), Int.emod_add_emod, Int.add_assoc,
        Bool.false_or]

theorem menuLoop_waits {waits : List Int} (hwaits : ∀ k ∈ waits, k < 0) (keys : List Int) {s : MenuState}
    (hs : s.counting = true → waits.length < s.countdown) :
    ∃ t : MenuState, t.selected = s.selected ∧ t.counting = s.counting ∧
      (s.counting = true → t.countdown = s.countdown - waits.length) ∧
      menuLoop cfg ops (waits ++ keys) s = menuLoop cfg ops keys t := by
  induction waits generalizing s with
  | nil => exact ⟨s, rfl, rfl, fun _ => by simp, rfl⟩
  | cons w waits ih =>
    have hmore : s.counting = true → 1 < s.countdown := by
      intro h
      have := hs h
      rw [List.length_cons] at this
      omega
    obtain ⟨hnone, hsel, hcounting, hcountdown⟩ :=
      @menuStep_wait cfg ops s w (hwaits w List.mem_cons_self) hmore
    rcases hresult : menuStep cfg ops s w with ⟨u, r⟩
    rw [hresult] at hnone hsel hcounting hcountdown
    dsimp only at hnone hsel hcounting hcountdown
    have hu : u.counting = true → waits.length < u.countdown := by
      intro h
      rw [hcounting] at h
      have := hs h
      rw [hcountdown h]
      rw [List.length_cons] at this
      omega
    obtain ⟨t, htsel, htcounting, htcountdown, hloop⟩ := ih (fun k hk => hwaits k (List.mem_cons_of_mem _ hk)) hu
    refine ⟨t, htsel.trans hsel, htcounting.trans hcounting, ?_, ?_⟩
    · intro h
      rw [htcountdown (hcounting.trans h), hcountdown h, List.length_cons]
      push_cast
      ring
    · rw [List.cons_append, menuLoop, hresult, hnone]
      exact hloop

/-! ## With a key -/

theorem menuInit_countdown : (menuInit cfg ops).countdown = i32 cfg.timeout.toNat := by rw [menuInit]

theorem menuInit_counting : (menuInit cfg ops).counting = decide (0 < i32 cfg.timeout.toNat) := by rw [menuInit]

theorem selects_default (hmax : cfg.numEntries ≤ maxEntries) (hdef : cfg.defaultEntry.toNat < cfg.numEntries) :
    i32 cfg.defaultEntry.toNat = cfg.defaultEntry.toNat ∧ Selects cfg cfg.defaultEntry.toNat := by
  have hmax' : cfg.numEntries ≤ 16 := hmax
  exact ⟨i32_of_bounds (by omega) (by omega), by omega, by omega⟩

/-- From the first key on the menu returns on Enter and on nothing else, and what it returns is the default moved by the
keys before that Enter. Timeouts and other keys count for nothing. -/
theorem menuRun_keys (hmax : cfg.numEntries ≤ maxEntries) (hdef : cfg.defaultEntry.toNat < cfg.numEntries)
    {waits : List Int} (hwaits : ∀ k ∈ waits, k < 0)
    (hcount : 0 < i32 cfg.timeout.toNat → waits.length < i32 cfg.timeout.toNat) {key : Int} (hkey : 0 ≤ key)
    (keys : List Int) :
    (menuRun cfg ops (waits ++ key :: keys)).2 =
      if (key :: keys).any isEnter then
        some ((cfg.defaultEntry.toNat + netMoves (beforeEnter (key :: keys))) % cfg.numEntries)
      else none := by
  have hmax' : cfg.numEntries ≤ 16 := hmax
  obtain ⟨hwidth, hselects⟩ := selects_default hmax hdef
  have hstart : (menuInit cfg ops).counting = true → waits.length < (menuInit cfg ops).countdown := by
    intro h
    rw [menuInit_counting, decide_eq_true_iff] at h
    rw [menuInit_countdown]
    exact hcount h
  obtain ⟨t, hsel, -, -, hloop⟩ := @menuLoop_waits cfg ops waits hwaits (key :: keys) _ hstart
  rw [menuInit_selected, hwidth] at hsel
  -- the key turns the countdown off
  have hoff : menuLoop cfg ops (key :: keys) t = menuLoop cfg ops (key :: keys) { t with counting := false } := by
    rw [menuLoop, menuLoop, menuStep_key t hkey]
  have hidle := @menuLoop_idle cfg ops (by omega) (key :: keys) { t with counting := false } rfl
    (show Selects cfg t.selected from hsel ▸ hselects)
  rw [menuRun, if_neg (by omega), hloop, hoff, hidle]
  dsimp only
  rw [hsel]

/-- Up from the first of three entries, a timeout, and Enter. -/
theorem menuRun_keys_wraps : (menuRun { entries := [{}, {}, {}] } {} ([-1] ++ keyUp :: [-1, keyEnter])).2 = some 2 := by
  rw [menuRun_keys (by decide) (by decide) (by decide) (by decide) (by decide)]
  decide

/-! ## Without a key -/

/-- The line above the last line end that was printed. -/
def shownLine (out : List MenuEvent) : Option (List Byte) :=
  match out.reverse with
  | .print [10] :: .print line :: _ => some line
  | _ => none

theorem shownLine_render (pre : List MenuEvent) (cfg : BootConfig) (selected countdown : Int) (ops : MenuOps) (row : Int) :
    shownLine (pre ++ renderMenu cfg selected countdown ops row) = some (hintLine countdown) := by
  have hend : ∃ rest, pre ++ renderMenu cfg selected countdown ops row =
      rest ++ [.print (hintLine countdown), .print [10]] := by
    unfold renderMenu hintRow
    simp only [List.flatten_cons, List.flatten_nil, List.append_nil, ← List.append_assoc]
    exact ⟨_, List.append_assoc _ _ _⟩
  obtain ⟨rest, hrest⟩ := hend
  rw [hrest, shownLine, List.reverse_append]
  rfl

/-- The countdown in words. -/
def countdownLine (n : Nat) : List Byte := lit "Booting in " ++ decimal n ++ lit "s..."

/-- With no key pressed, `menu_run` polls as often as the timeout has seconds, shows the seconds left before each poll,
and then returns the default. -/
structure BootsUnattended (cfg : BootConfig) (ops : MenuOps) : Prop where
  waits : ∀ n < cfg.timeout.toNat, (menuRun cfg ops (List.replicate n (-1))).2 = none
  shows : ∀ n < cfg.timeout.toNat,
    shownLine (menuRun cfg ops (List.replicate n (-1))).1.out = some (countdownLine (cfg.timeout.toNat - n))
  returns : (menuRun cfg ops (List.replicate cfg.timeout.toNat (-1))).2 = some (cfg.defaultEntry.toNat : Int)

theorem decimal_of_lt {n : Nat} (h : n < 10) : decimal n = [(48 + n).toUInt8] := by
  unfold decimal
  split_ifs with h0
  · rw [h0]
    rfl
  · rw [Nat.digits_of_lt 10 n h0 h]
    rfl

theorem decimal_two {n : Nat} (hlo : 10 ≤ n) (hhi : n < 100) :
    decimal n = [(48 + n / 10).toUInt8, (48 + n % 10).toUInt8] := by
  have hdigits : Nat.digits 10 n = [n % 10, n / 10] := by
    rw [Nat.digits_def' (by decide) (by omega), Nat.digits_of_lt 10 (n / 10) (by omega) (by omega)]
  rw [decimal, if_neg (by omega), hdigits]
  rfl

theorem three_le_length_decimal {n : Nat} (h : 100 ≤ n) : 3 ≤ (decimal n).length := by
  rw [decimal, if_neg (by omega), List.length_map, List.length_reverse, Nat.digits_def' (by decide) (by omega),
    Nat.digits_def' (by decide) (by omega), Nat.digits_def' (by decide) (by omega)]
  simp only [List.length_cons]
  omega

theorem hintLine_iff {n : Nat} (hpos : 0 < n) : hintLine n = countdownLine n ↔ n < 100 := by
  have hcount : (0 : Int) < n := by omega
  unfold hintLine countdownLine
  rw [if_pos hcount]
  constructor
  · intro h
    by_contra hge
    have hlong := three_le_length_decimal (not_lt.mp hge)
    have hlen := congrArg List.length h
    rw [if_pos (by omega)] at hlen
    simp only [List.length_append, List.length_singleton] at hlen
    omega
  · intro h
    rcases Nat.lt_or_ge n 10 with hlt | hge
    · have hmod : ((n : Int) % 10).toNat = n := by omega
      rw [decimal_of_lt hlt, if_neg (by omega), hmod, List.append_nil]
    · have hdiv : ((n : Int) / 10).toNat = n / 10 := by omega
      have hmod : ((n : Int) % 10).toNat = n % 10 := by omega
      rw [decimal_two hge h, if_pos (by omega), hdiv, hmod, List.append_assoc (lit "Booting in ")]
      rfl

theorem menuLoop_append (keys keys' : List Int) (s : MenuState) :
    menuLoop cfg ops (keys ++ keys') s = match menuLoop cfg ops keys s with
      | (t, some sel) => (t, some sel)
      | (t, none) => menuLoop cfg ops keys' t := by
  induction keys generalizing s with
  | nil => rfl
  | cons key keys ih =>
    rw [List.cons_append, menuLoop, menuLoop]
    rcases menuStep cfg ops s key with ⟨t, _ | sel⟩
    · exact ih t
    · rfl

theorem menuRun_waits (hne : cfg.numEntries ≠ 0) {n : Nat} (hn : n < i32 cfg.timeout.toNat) :
    ∃ s : MenuState, menuRun cfg ops (List.replicate n (-1)) = (s, none) ∧ s.counting = true ∧
      s.countdown = i32 cfg.timeout.toNat - n ∧ s.selected = i32 cfg.defaultEntry.toNat ∧
      shownLine s.out = some (hintLine (i32 cfg.timeout.toNat - n)) := by
  rw [menuRun, if_neg hne]
  induction n with
  | zero =>
    have hpos : 0 < i32 cfg.timeout.toNat := hn
    refine ⟨menuInit cfg ops, rfl, ?_, ?_, menuInit_selected, ?_⟩
    · rw [menuInit_counting, decide_eq_true hpos]
    · rw [menuInit_countdown]
      exact (Int.sub_zero _).symm
    · rw [menuInit]
      dsimp only
      rw [decide_eq_true hpos, if_pos rfl, shownLine_render]
      exact congrArg (fun c => some (hintLine c)) (Int.sub_zero _).symm
  | succ n ih =>
    obtain ⟨s, hloop, hcounting, hcountdown, hsel, -⟩ := ih (by push_cast at hn; omega)
    have hleft : i32 cfg.timeout.toNat - n - 1 = i32 cfg.timeout.toNat - (n + 1 : Nat) := by push_cast; ring
    rw [List.replicate_succ', menuLoop_append, hloop]
    dsimp only
    rw [menuLoop, menuStep, if_neg (by decide), if_pos hcounting]
    dsimp only
    rw [hcountdown, hleft, if_neg (by omega)]
    exact ⟨_, rfl, hcounting, rfl, hsel, shownLine_render _ _ _ _ _ _⟩

theorem menuRun_timeout (hne : cfg.numEntries ≠ 0) {n : Nat} (hn : (n + 1 : Nat) = i32 cfg.timeout.toNat) :
    (menuRun cfg ops (List.replicate (n + 1) (-1))).2 = some (i32 cfg.defaultEntry.toNat) := by
  obtain ⟨s, hrun, hcounting, hcountdown, hsel, -⟩ :=
    @menuRun_waits cfg ops hne n (by push_cast at hn; omega)
  rw [menuRun, if_neg hne] at hrun ⊢
  rw [List.replicate_succ', menuLoop_append, hrun]
  dsimp only
  rw [menuLoop, menuStep, if_neg (by decide), if_pos hcounting]
  dsimp only
  rw [hcountdown, ← hn, if_pos (by push_cast; omega), hsel]

theorem menuRun_never (hne : cfg.numEntries ≠ 0) (h : i32 cfg.timeout.toNat ≤ 0) (n : Nat) :
    (menuRun cfg ops (List.replicate n (-1))).2 = none := by
  have hoff : (menuInit cfg ops).counting = false := by rw [menuInit_counting, decide_eq_false (by omega)]
  have hwaits : ∀ k ∈ List.replicate n (-1 : Int), k < 0 := by
    intro k hk
    rw [List.eq_of_mem_replicate hk]
    decide
  obtain ⟨t, -, -, -, hloop⟩ := @menuLoop_waits cfg ops _ hwaits [] (menuInit cfg ops)
    (by rw [hoff]; nofun)
  rw [List.append_nil] at hloop
  rw [menuRun, if_neg hne, hloop]
  rfl

/-- An unattended menu boots its default in time, with the seconds on the screen, exactly for timeouts from 1 to 99. -/
theorem bootsUnattended_iff (ops : MenuOps) (hmax : cfg.numEntries ≤ maxEntries)
    (hdef : cfg.defaultEntry.toNat < cfg.numEntries) :
    BootsUnattended cfg ops ↔ 1 ≤ cfg.timeout.toNat ∧ cfg.timeout.toNat ≤ 99 := by
  have hne : cfg.numEntries ≠ 0 := by omega
  have hwidth := (selects_default hmax hdef).1
  have hlt := cfg.timeout.toNat_lt
  constructor
  · intro h
    -- something is returned, so the countdown has started
    have hpos : 0 < i32 cfg.timeout.toNat := by
      by_contra hle
      have hreturns := h.returns
      rw [menuRun_never hne (not_lt.mp hle)] at hreturns
      cases hreturns
    have hsmall : cfg.timeout.toNat < 2 ^ 31 := by
      by_contra hbig
      unfold i32 at hpos
      rw [Int.bmod_def] at hpos
      split_ifs at hpos <;> omega
    have hcount : i32 cfg.timeout.toNat = cfg.timeout.toNat := i32_of_bounds (by omega) (by omega)
    have hstart : 0 < cfg.timeout.toNat := by omega
    obtain ⟨s, hrun, -, -, -, hline⟩ := @menuRun_waits cfg ops hne 0 (by omega)
    have hshows := h.shows 0 hstart
    rw [hrun, hline, hcount] at hshows
    have hdigits : hintLine cfg.timeout.toNat = countdownLine cfg.timeout.toNat := by
      simpa using hshows
    have := (hintLine_iff hstart).mp hdigits
    omega
  · rintro ⟨hlo, hhi⟩
    have hcount : i32 cfg.timeout.toNat = cfg.timeout.toNat := i32_of_bounds (by omega) (by omega)
    refine ⟨?_, ?_, ?_⟩
    · intro n hn
      obtain ⟨s, hrun, -⟩ := @menuRun_waits cfg ops hne n (by omega)
      rw [hrun]
    · intro n hn
      obtain ⟨s, hrun, -, -, -, hline⟩ := @menuRun_waits cfg ops hne n (by omega)
      have hleft : (cfg.timeout.toNat : Int) - n = (cfg.timeout.toNat - n : Nat) := by omega
      rw [hrun, hline, hcount, hleft, (hintLine_iff (by omega)).mpr (by omega)]
    · obtain ⟨n, hn⟩ : ∃ n, cfg.timeout.toNat = n + 1 := ⟨cfg.timeout.toNat - 1, by omega⟩
      have hend := @menuRun_timeout cfg ops hne n (by omega)
      rw [hn, hend, hwidth]

/-- One entry, and a timeout of zero: the menu waits for a key. -/
theorem timeout_zero_waits : ¬BootsUnattended { timeout := 0, entries := [{}] } {} := by
  intro h
  have hnone : (menuRun { timeout := 0, entries := [{}] } {} (List.replicate 0 (-1))).2 = none := by decide
  have hreturns := h.returns
  rw [show (({ timeout := 0, entries := [{}] } : BootConfig).timeout.toNat) = 0 from rfl, hnone] at hreturns
  cases hreturns

theorem bootsUnattended_five : BootsUnattended { timeout := 5, entries := [{}] } {} :=
  (bootsUnattended_iff {} (by decide) (by decide)).mpr (by decide)

end SakuruBoot

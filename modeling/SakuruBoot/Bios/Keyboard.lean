import SakuruBoot.Common.MenuRuns

/-!
# The keyboard of stage 2 (`kbd_read_key`)

Stage 2 polls the keyboard controller and gives the menu a key, or a timeout after a hundred million polls. The
controller is any sequence of polls. Over any number of reads the keys are the presses the polls hold, in their order
(`readKeys_presses`): none is lost between two reads and none is read twice, and releases, prefixes and keys the table
has no character for are passed over. So the entry that boots is the default moved by the arrow keys pressed before Enter,
and nothing is read behind Enter (`menu_boots_pressed`).
-/

namespace SakuruBoot
open CStr

/-- One turn of the loop: the status port, and the data port, which is only read when the status says so. -/
structure Poll where
  status : Byte
  data : Byte

/-- Scan codes of set 1; the array is zero from here to its end. -/
def scToAscii : List Byte :=
  [0, 0] ++ lit "1234567890-=" ++ [8, 9] ++ lit "qwertyuiop[]" ++ [13, 0] ++ lit "asdfghjkl;" ++ [39, 96, 0, 92] ++
    lit "zxcvbnm,./" ++ [0, 42, 0, 32]

/-- The key a turn returns, if it does not go on. -/
def Poll.key (p : Poll) : Option Int :=
  if p.status &&& 1 = 0 then none
  else if p.data &&& 0x80 ≠ 0 then none
  else if p.data = 0x48 then some keyUp
  else if p.data = 0x50 then some keyDown
  else if scToAscii.getD p.data.toNat 0 ≠ 0 then some (scToAscii.getD p.data.toNat 0).toNat
  else none

/-- The loop with the turns that are left, from a position in the polls; the position behind it. -/
def kbdLoop (polls : Nat → Poll) : Nat → Nat → Int × Nat
  | 0, pos => (-1, pos)
  | left + 1, pos =>
    match (polls pos).key with
    | some key => (key, pos + 1)
    | none => kbdLoop polls left (pos + 1)

/-- The turns of one call, about a second. -/
def kbdPolls : Nat := 100000000

def kbdReadKey (polls : Nat → Poll) (pos : Nat) : Int × Nat := kbdLoop polls kbdPolls pos

/-- The results of so many calls. -/
def readKeys (polls : Nat → Poll) : Nat → Nat → List Int × Nat
  | 0, pos => ([], pos)
  | n + 1, pos => ((kbdReadKey polls pos).1 :: (readKeys polls n (kbdReadKey polls pos).2).1,
      (readKeys polls n (kbdReadKey polls pos).2).2)

/-- The keys in the polls from `a` to `b`. -/
def presses (polls : Nat → Poll) (a b : Nat) : List Int := (List.range' a (b - a)).filterMap fun i => (polls i).key

variable {polls : Nat → Poll}

/-! ## Keys -/

theorem Poll.key_spec {p : Poll} {key : Int} (h : p.key = some key) : 0 ≤ key ∧ key ≠ 10 := by
  have htable : scToAscii.contains 10 = false := by decide
  unfold Poll.key at h
  split_ifs at h with _ _ _ _ hchar
  · rw [← Option.some.inj h]
    decide
  · rw [← Option.some.inj h]
    decide
  · have hin : p.data.toNat < scToAscii.length := by
      by_contra hout
      exact hchar (List.getD_eq_default _ _ (Nat.not_lt.mp hout))
    have hmem := List.getElem_mem hin
    rw [← List.getD_eq_getElem _ 0 hin] at hmem
    rw [← Option.some.inj h]
    refine ⟨Int.natCast_nonneg _, fun heq => ?_⟩
    have hten : scToAscii.getD p.data.toNat 0 = 10 := UInt8.toNat_inj.mp (Int.natCast_inj.mp heq)
    rw [hten, ← List.contains_iff_mem, htable] at hmem
    cases hmem

theorem isEnter_key {p : Poll} {key : Int} (h : p.key = some key) : isEnter key = decide (key = keyEnter) := by
  rw [isEnter, decide_eq_false (Poll.key_spec h).2, Bool.or_false]

/-! ## Presses -/

theorem presses_append {a b c : Nat} (hab : a ≤ b) (hbc : b ≤ c) :
    presses polls a c = presses polls a b ++ presses polls b c := by
  obtain ⟨m, rfl⟩ := Nat.exists_eq_add_of_le hab
  obtain ⟨n, rfl⟩ := Nat.exists_eq_add_of_le hbc
  rw [presses, presses, presses, ← List.filterMap_append, Nat.add_sub_cancel_left, Nat.add_sub_cancel_left,
    Nat.add_assoc, Nat.add_sub_cancel_left, ← List.range'_append_1]

theorem presses_none {a b : Nat} (h : ∀ i, a ≤ i → i < b → (polls i).key = none) : presses polls a b = [] := by
  refine List.filterMap_eq_nil_iff.mpr fun i hi => ?_
  have hi := List.mem_range'_1.mp hi
  exact h i hi.1 (by omega)

theorem presses_one {i : Nat} {key : Int} (h : (polls i).key = some key) : presses polls i (i + 1) = [key] := by
  rw [presses, Nat.add_sub_cancel_left, List.range'_one, List.filterMap_cons, h]
  rfl

theorem mem_presses {a b : Nat} {key : Int} (h : key ∈ presses polls a b) :
    ∃ i, a ≤ i ∧ i < b ∧ (polls i).key = some key := by
  obtain ⟨i, hi, hkey⟩ := List.mem_filterMap.mp h
  have hi := List.mem_range'_1.mp hi
  exact ⟨i, hi.1, by omega, hkey⟩

/-! ## One read -/

theorem kbdLoop_spec (left pos : Nat) :
    (∃ i key, pos ≤ i ∧ i < pos + left ∧ (∀ j, pos ≤ j → j < i → (polls j).key = none) ∧ (polls i).key = some key ∧
      kbdLoop polls left pos = (key, i + 1)) ∨
    ((∀ j, pos ≤ j → j < pos + left → (polls j).key = none) ∧ kbdLoop polls left pos = (-1, pos + left)) := by
  induction left generalizing pos with
  | zero => exact .inr ⟨fun j hj hlt => by omega, rfl⟩
  | succ left ih =>
    rw [kbdLoop]
    cases hkey : (polls pos).key with
    | some key => exact .inl ⟨pos, key, le_refl _, by omega, fun j hj hlt => by omega, hkey, rfl⟩
    | none =>
      have hfirst : ∀ {m : Nat}, (∀ j, pos + 1 ≤ j → j < m → (polls j).key = none) →
          ∀ j, pos ≤ j → j < m → (polls j).key = none := by
        intro m hrest j hj hlt
        rcases Nat.eq_or_lt_of_le hj with rfl | hgt
        · exact hkey
        · exact hrest j hgt hlt
      rcases ih (pos + 1) with ⟨i, key, hle, hlt, hnone, hpress, hresult⟩ | ⟨hnone, hresult⟩
      · exact .inl ⟨i, key, by omega, by omega, hfirst hnone, hpress, hresult⟩
      · refine .inr ⟨?_, ?_⟩
        · rw [← Nat.add_assoc, Nat.add_right_comm]
          exact hfirst hnone
        · rw [← Nat.add_assoc, Nat.add_right_comm]
          exact hresult

/-- What one read returns is the press in the polls it made, or there was none. -/
theorem kbdReadKey_presses (pos : Nat) : pos < (kbdReadKey polls pos).2 ∧
    presses polls pos (kbdReadKey polls pos).2 = [(kbdReadKey polls pos).1].filter (0 ≤ ·) := by
  rcases @kbdLoop_spec polls kbdPolls pos with ⟨i, key, hle, -, hnone, hpress, hresult⟩ | ⟨hnone, hresult⟩
  · rw [kbdReadKey, hresult]
    refine ⟨Nat.lt_succ_of_le hle, ?_⟩
    rw [presses_append hle (Nat.le_succ i), presses_none hnone, presses_one hpress, List.nil_append, List.filter_cons,
      if_pos (decide_eq_true (Poll.key_spec hpress).1)]
    rfl
  · rw [kbdReadKey, hresult]
    exact ⟨Nat.lt_add_of_pos_right (by decide), presses_none hnone⟩

/-! ## Any number of reads -/

theorem readKeys_le (n pos : Nat) : pos ≤ (readKeys polls n pos).2 := by
  induction n generalizing pos with
  | zero => exact le_refl _
  | succ n ih => exact (kbdReadKey_presses pos).1.le.trans (ih _)

/-- The keys of any number of reads are the presses in the polls they made. -/
theorem readKeys_presses (n pos : Nat) :
    (readKeys polls n pos).1.filter (0 ≤ ·) = presses polls pos (readKeys polls n pos).2 := by
  induction n generalizing pos with
  | zero => exact (presses_none fun i hle hlt => absurd hle (Nat.not_le.mpr hlt)).symm
  | succ n ih =>
    obtain ⟨hlt, hfirst⟩ := @kbdReadKey_presses polls pos
    rw [readKeys, presses_append hlt.le (readKeys_le n _), hfirst, ← ih, ← List.filter_append]
    rfl

/-- Reads that end with a given press. -/
structure ReadsTo (polls : Nat → Poll) (pos e : Nat) (n : Nat) (keys : List Int) (key : Int) : Prop where
  run : readKeys polls n pos = (keys ++ [key], e + 1)
  keys : keys.filter (0 ≤ ·) = presses polls pos e

theorem exists_readsTo {pos e : Nat} (hle : pos ≤ e) {key : Int} (hkey : (polls e).key = some key) :
    ∃ n keys, ReadsTo polls pos e n keys key ∧ ((∀ i, pos ≤ i → i < e → (polls i).key = none) →
      (∀ k ∈ keys, k < 0) ∧ keys.length = (e - pos) / kbdPolls) := by
  induction hdist : e - pos using Nat.strong_induction_on generalizing pos with
  | _ dist ih =>
  subst hdist
  have hturns : 0 < kbdPolls := by decide
  rcases @kbdLoop_spec polls kbdPolls pos with ⟨i, k, hpos, hlt, hnone, hpress, hresult⟩ | ⟨hnone, hresult⟩
  · rcases Nat.lt_trichotomy i e with hie | rfl | hei
    · -- an earlier press
      obtain ⟨n, keys, hreads, -⟩ := ih (e - (i + 1)) (by omega) hie rfl
      refine ⟨n + 1, k :: keys, ⟨?_, ?_⟩, fun hquiet => ?_⟩
      · rw [readKeys, kbdReadKey, hresult, hreads.run]
        rfl
      · rw [List.filter_cons, if_pos (decide_eq_true (Poll.key_spec hpress).1), hreads.keys,
          presses_append hpos (by omega : i ≤ e), presses_none hnone,
          presses_append (Nat.le_succ i) hie, presses_one hpress]
        rfl
      · rw [hquiet i hpos hie] at hpress
        cases hpress
    · obtain rfl : k = key := Option.some.inj (hpress.symm.trans hkey)
      refine ⟨1, [], ⟨?_, ?_⟩, fun _ => ⟨nofun, ?_⟩⟩
      · rw [readKeys, kbdReadKey, hresult]
        rfl
      · exact (presses_none hnone).symm
      · exact (Nat.div_eq_of_lt (by omega)).symm
    · rw [hnone e hle hei] at hkey
      cases hkey
  · have hfar : pos + kbdPolls ≤ e := by
      by_contra hnear
      rw [hnone e hle (by omega)] at hkey
      cases hkey
    obtain ⟨n, keys, hreads, hwaits⟩ := ih (e - (pos + kbdPolls)) (by omega) hfar rfl
    refine ⟨n + 1, -1 :: keys, ⟨?_, ?_⟩, fun hquiet => ?_⟩
    · rw [readKeys, kbdReadKey, hresult, hreads.run]
      rfl
    · rw [List.filter_cons, if_neg (by decide), hreads.keys,
        presses_append (Nat.le_add_right pos kbdPolls) hfar, presses_none hnone, List.nil_append]
    · obtain ⟨hneg, hlen⟩ := hwaits fun i hi hie => hquiet i (by omega) hie
      refine ⟨List.forall_mem_cons.mpr ⟨by decide, hneg⟩, ?_⟩
      rw [List.length_cons, hlen, show e - pos = e - (pos + kbdPolls) + kbdPolls by omega, Nat.add_div_right _ hturns]

/-! ## The menu -/

variable {cfg : BootConfig} {ops : MenuOps}

theorem netMoves_filter (keys : List Int) : netMoves (keys.filter (0 ≤ ·)) = netMoves keys := by
  rw [netMoves, netMoves, List.count_filter (by decide), List.count_filter (by decide)]

theorem readKeys_add (m n pos : Nat) : readKeys polls (m + n) pos =
    ((readKeys polls m pos).1 ++ (readKeys polls n (readKeys polls m pos).2).1,
      (readKeys polls n (readKeys polls m pos).2).2) := by
  induction m generalizing pos with
  | zero => rw [Nat.zero_add]; rfl
  | succ m ih => rw [Nat.succ_add, readKeys, ih]; rfl

/-- Timeouts that do not end the countdown, and then keys: the first one stops it, and they walk round the table. -/
theorem menuLoop_pressed (hmax : cfg.numEntries < 2 ^ 31) {s : MenuState} (hsel : Selects cfg s.selected) {waits : List Int}
    (hwaits : ∀ k ∈ waits, k < 0) (hcount : s.counting = true → waits.length < s.countdown) {key : Int} (hkey : 0 ≤ key)
    {keys : List Int} (henter : (key :: keys).any isEnter = true) : (menuLoop cfg ops (waits ++ key :: keys) s).2 =
      some ((s.selected + netMoves (beforeEnter (key :: keys))) % cfg.numEntries) := by
  obtain ⟨t, heq, -, -, hloop⟩ := @menuLoop_waits cfg ops waits hwaits (key :: keys) s hcount
  have hstop : menuLoop cfg ops (key :: keys) t = menuLoop cfg ops (key :: keys) { t with counting := false } := by
    rw [menuLoop, menuLoop, menuStep_key t hkey]
  have hselects : Selects cfg ({ t with counting := false } : MenuState).selected := by
    rw [← heq] at hsel
    exact hsel
  rw [hloop, hstop, menuLoop_idle hmax (key :: keys) rfl hselects, if_pos henter]
  dsimp only
  rw [heq]

theorem exists_reads_enter {q e : Nat} (hqe : q ≤ e) (hquiet : ∀ i < q, (polls i).key = none)
    (hpress : (polls q).key ≠ none) (henter : (polls e).key = some keyEnter) :
    ∃ n waits mid, readKeys polls n 0 = (waits ++ (mid ++ [keyEnter]), e + 1) ∧ (∀ k ∈ waits, k < 0) ∧
      waits.length = q / kbdPolls ∧ mid.filter (0 ≤ ·) = presses polls q e ∧ ∀ k ∈ mid.head?, 0 ≤ k := by
  obtain ⟨first, hkey⟩ := Option.ne_none_iff_exists'.mp hpress
  obtain ⟨m, waits, hreads, hwaits⟩ := exists_readsTo (Nat.zero_le q) hkey
  obtain ⟨hneg, hlen⟩ := hwaits fun i _ hi => hquiet i hi
  rcases Nat.eq_or_lt_of_le hqe with rfl | hlt
  · obtain rfl : first = keyEnter := Option.some.inj (hkey.symm.trans henter)
    exact ⟨m, waits, [], hreads.run, hneg, hlen,
      (presses_none fun i hle hlt => absurd hlt (Nat.not_lt.mpr hle)).symm, nofun⟩
  · obtain ⟨n, keys, hrest, -⟩ := @exists_readsTo polls (q + 1) e hlt keyEnter henter
    have hfirst := (Poll.key_spec hkey).1
    refine ⟨m + n, waits, first :: keys, ?_, hneg, hlen, ?_, fun k hk => ?_⟩
    · rw [readKeys_add, hreads.run]
      dsimp only
      rw [hrest.run, List.append_assoc]
      rfl
    · rw [List.filter_cons, if_pos (decide_eq_true hfirst), hrest.keys,
        presses_append (Nat.le_succ q) hlt, presses_one hkey]
      rfl
    · rw [← Option.some.inj hk]
      exact hfirst

/-- The menu on the keyboard: the entry that boots is the default moved by the arrow keys pressed before Enter, and the
polls behind Enter are not made. `q` is the first press, within the countdown, and `e` the first Enter. -/
theorem menu_boots_pressed (hmax : cfg.numEntries ≤ maxEntries) (hdef : cfg.defaultEntry.toNat < cfg.numEntries)
    {q e : Nat} (hquiet : ∀ i < q, (polls i).key = none) (hpress : (polls q).key ≠ none)
    (hcount : 0 < i32 cfg.timeout.toNat → q < i32 cfg.timeout.toNat * kbdPolls) (henter : (polls e).key = some keyEnter)
    (hfirst : ∀ i < e, (polls i).key ≠ some keyEnter) :
    ∃ n, (readKeys polls n 0).2 = e + 1 ∧ (menuRun cfg ops (readKeys polls n 0).1).2 =
      some ((cfg.defaultEntry.toNat + netMoves (presses polls 0 e)) % cfg.numEntries) := by
  have hmax' : cfg.numEntries ≤ 16 := hmax
  obtain ⟨hwidth, hselects⟩ := selects_default hmax hdef
  have hqe : q ≤ e := by
    by_contra hlt
    rw [hquiet e (by omega)] at henter
    cases henter
  obtain ⟨n, waits, mid, hrun, hneg, hlen, hmid, hhead⟩ := exists_reads_enter hqe hquiet hpress henter
  have hnone : ∀ k ∈ mid, isEnter k = false := by
    intro k hk
    rcases Int.lt_or_le k 0 with hlt | hle
    · have hother : ¬(k = keyEnter ∨ k = 10) := by unfold keyEnter; omega
      simpa [isEnter] using hother
    · have hmem : k ∈ mid.filter (0 ≤ ·) := List.mem_filter.mpr ⟨hk, decide_eq_true hle⟩
      rw [hmid] at hmem
      obtain ⟨i, -, hi, hkey⟩ := mem_presses hmem
      rw [isEnter_key hkey, decide_eq_false]
      rintro rfl
      exact hfirst i hi hkey
  have hbefore : beforeEnter (mid ++ [keyEnter]) = mid := by
    rw [beforeEnter, List.takeWhile_append_of_pos fun k hk => by rw [hnone k hk]; rfl,
      List.takeWhile_cons_of_neg (by decide), List.append_nil]
  have hmoves : netMoves mid = netMoves (presses polls 0 e) := by
    rw [presses_append (Nat.zero_le q) hqe, presses_none fun i _ hi => hquiet i hi,
      List.nil_append, ← hmid, netMoves_filter]
  have hstart : (menuInit cfg ops).counting = true → waits.length < (menuInit cfg ops).countdown := by
    intro h
    rw [menuInit_counting, decide_eq_true_iff] at h
    have hwithin := hcount h
    rw [menuInit_countdown, hlen]
    push_cast
    exact Int.ediv_lt_of_lt_mul (by decide) hwithin
  have hsel : Selects cfg (menuInit cfg ops).selected := by rwa [menuInit_selected, hwidth]
  obtain ⟨key, keys, hcons, hkey⟩ : ∃ key keys, mid ++ [keyEnter] = key :: keys ∧ 0 ≤ key := by
    cases mid with
    | nil => exact ⟨keyEnter, [], rfl, by decide⟩
    | cons k mid => exact ⟨k, mid ++ [keyEnter], rfl, hhead k rfl⟩
  have hany : (key :: keys).any isEnter = true := by
    rw [← hcons, List.any_append]
    exact Bool.or_eq_true_iff.mpr (.inr (by decide))
  refine ⟨n, by rw [hrun], ?_⟩
  rw [hrun, menuRun, if_neg (by omega), hcons, menuLoop_pressed (by omega) hsel hneg hstart hkey hany, ← hcons, hbefore,
    menuInit_selected, hwidth, hmoves]

/-- The down arrow, its release, an idle poll, and Enter. -/
def downEnter : Nat → Poll
  | 0 => ⟨1, 0x50⟩
  | 1 => ⟨1, 0xd0⟩
  | 2 => ⟨0, 0xd0⟩
  | _ => ⟨1, 0x1c⟩

theorem menu_boots_pressed_down : ∃ n, (readKeys downEnter n 0).2 = 3 + 1 ∧
    (menuRun { entries := [{}, {}, {}] } {} (readKeys downEnter n 0).1).2 =
      some ((((0 : UInt32).toNat : Int) + netMoves (presses downEnter 0 3)) % 3) :=
  @menu_boots_pressed downEnter { entries := [{}, {}, {}] } {} (by decide) (by decide) 0 3 nofun (by decide)
    (by decide) (by decide) (by decide)

end SakuruBoot

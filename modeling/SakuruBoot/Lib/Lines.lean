import Mathlib

/-!
# Loops that read a text line by line

`readText` runs a step on the rest of a text until nothing is left. Where one step reads the text up to the next
separator (and may skip more separators behind it), the loop is a fold over the pieces between separators
(`readText_splitOnP`).
-/

namespace Lines

variable {α σ : Type}

/-- `while (p < end)`, with as many rounds as the text has characters. -/
def textLoop (step : List α → σ → List α × σ) : Nat → List α → σ → σ
  | 0, _, s => s
  | n + 1, rest, s => if rest.isEmpty then s else textLoop step n (step rest s).1 (step rest s).2

def readText (step : List α → σ → List α × σ) (text : List α) (s : σ) : σ := textLoop step text.length text s

variable {step : List α → σ → List α × σ}

theorem textLoop_nil (n : Nat) (s : σ) : textLoop step n [] s = s := by
  cases n <;> rfl

theorem textLoop_fuel (hshrink : ∀ rest s, rest ≠ [] → (step rest s).1.length < rest.length) {n m : Nat}
    {rest : List α} {s : σ} (hn : rest.length ≤ n) (hm : rest.length ≤ m) :
    textLoop step n rest s = textLoop step m rest s := by
  induction n generalizing rest s m with
  | zero =>
    have hnil : rest = [] := List.length_eq_zero_iff.mp (by omega)
    rw [hnil, textLoop_nil, textLoop_nil]
  | succ n ih =>
    cases hrest : rest with
    | nil => rw [textLoop_nil, textLoop_nil]
    | cons x xs =>
      have hne : rest ≠ [] := by simp [hrest]
      have hlt := hshrink rest s hne
      have hpos := List.length_pos_iff.mpr hne
      obtain ⟨m, rfl⟩ : ∃ k, m = k + 1 := ⟨m - 1, by omega⟩
      rw [← hrest, textLoop, textLoop, if_neg (by simp [hrest]), if_neg (by simp [hrest])]
      exact ih (by omega) (by omega)

/-- Two loops whose steps read alike keep a relation between their states. -/
theorem readText_rel {τ : Type} {step' : List α → τ → List α × τ} {P : List α → Prop} {R : σ → τ → Prop}
    (hstep : ∀ rest s t, P rest → R s t →
      (step rest s).1 = (step' rest t).1 ∧ P (step rest s).1 ∧ R (step rest s).2 (step' rest t).2)
    {text : List α} (hP : P text) {s : σ} {t : τ} (hR : R s t) : R (readText step text s) (readText step' text t) := by
  have hloop : ∀ n rest s t, P rest → R s t → R (textLoop step n rest s) (textLoop step' n rest t) := by
    intro n
    induction n with
    | zero => exact fun _ _ _ _ h => h
    | succ n ih =>
      intro rest s t hrest hst
      obtain ⟨heq, hrest', hst'⟩ := hstep rest s t hrest hst
      rw [textLoop, textLoop]
      split
      · exact hst
      · rw [← heq]
        exact ih _ _ _ hrest' hst'
  exact hloop text.length text s t hP hR

theorem readText_step (hshrink : ∀ rest s, rest ≠ [] → (step rest s).1.length < rest.length)
    {rest : List α} (hne : rest ≠ []) (s : σ) :
    readText step rest s = readText step (step rest s).1 (step rest s).2 := by
  have hlt := hshrink rest s hne
  have hpos := List.length_pos_iff.mpr hne
  obtain ⟨n, hn⟩ : ∃ k, rest.length = k + 1 := ⟨rest.length - 1, by omega⟩
  rw [readText, hn, textLoop, if_neg (by simpa using hne)]
  exact textLoop_fuel hshrink (by omega) (le_refl _)

variable {p : α → Bool}

theorem split_cases (p : α → Bool) (text : List α) : (∀ c ∈ text, p c = false) ∨
    ∃ l c rest, (∀ c ∈ l, p c = false) ∧ p c = true ∧ text = l ++ c :: rest := by
  induction text with
  | nil => exact .inl nofun
  | cons x xs ih =>
    by_cases hx : p x = true
    · exact .inr ⟨[], x, xs, nofun, hx, rfl⟩
    · have hx' : p x = false := by simpa using hx
      rcases ih with hall | ⟨l, c, rest, hl, hc, rfl⟩
      · refine .inl fun c hc => ?_
        rcases List.mem_cons.mp hc with rfl | hc
        · exact hx'
        · exact hall c hc
      · refine .inr ⟨x :: l, c, rest, fun d hd => ?_, hc, rfl⟩
        rcases List.mem_cons.mp hd with rfl | hd
        · exact hx'
        · exact hl d hd

theorem foldl_splitOnP_skip {g : σ → List α → σ} (hnil : ∀ s, g s [] = s) {ws : List α}
    (hws : ∀ c ∈ ws, p c = true) (rest : List α) (s : σ) :
    ((ws ++ rest).splitOnP p).foldl g s = (rest.splitOnP p).foldl g s := by
  induction ws with
  | nil => rfl
  | cons w ws ih =>
    have hw : p w = true := hws w (by simp)
    rw [List.cons_append, List.splitOnP_cons_eq_if_modifyHead, if_pos hw, List.foldl_cons, hnil,
      ih fun c hc => hws c (by simp [hc])]

/-- A step that reads one piece makes the loop a fold over the pieces. -/
theorem readText_splitOnP {g : σ → List α → σ} (hnil : ∀ s, g s [] = s)
    (hlast : ∀ l s, l ≠ [] → (∀ c ∈ l, p c = false) → step l s = ([], g s l))
    (hsep : ∀ l c rest s, (∀ c ∈ l, p c = false) → p c = true →
      ∃ ws rest', (∀ c ∈ ws, p c = true) ∧ rest = ws ++ rest' ∧ step (l ++ c :: rest) s = (rest', g s l))
    (text : List α) (s : σ) : readText step text s = (text.splitOnP p).foldl g s := by
  have hshrink : ∀ rest s, rest ≠ [] → (step rest s).1.length < rest.length := by
    intro rest s hne
    rcases split_cases p rest with hall | ⟨l, c, rest, hl, hc, rfl⟩
    · rw [hlast rest s hne hall]
      exact List.length_pos_iff.mpr hne
    · obtain ⟨ws, rest', -, rfl, hstep⟩ := hsep l c rest s hl hc
      rw [hstep, List.length_append, List.length_cons, List.length_append]
      show rest'.length < _
      omega
  -- one piece at a time, on the length of the text
  induction hlen : text.length using Nat.strong_induction_on generalizing text s with
  | _ n ih =>
    rcases split_cases p text with hall | ⟨l, c, rest, hl, hc, rfl⟩
    · rw [List.splitOnP_eq_singleton hall, List.foldl_cons, List.foldl_nil]
      by_cases hne : text = []
      · rw [hne, hnil]
        rfl
      · rw [readText_step hshrink hne, hlast text s hne hall]
        exact textLoop_nil _ _
    · obtain ⟨ws, rest', hws, rfl, hstep⟩ := hsep l c rest s hl hc
      rw [readText_step hshrink (by simp), hstep, List.splitOnP_append_cons_of_forall_mem hl c hc,
        List.foldl_cons, foldl_splitOnP_skip hnil hws]
      refine ih _ ?_ rest' _ rfl
      rw [← hlen, List.length_append, List.length_cons, List.length_append]
      omega

theorem splitOnP_flatMap {q r : α → Bool} (h : ∀ c, p c = (q c || r c)) (text : List α) :
    text.splitOnP p = (text.splitOnP q).flatMap (List.splitOnP r) := by
  induction hlen : text.length using Nat.strong_induction_on generalizing text with
  | _ n ih =>
    rcases split_cases q text with hall | ⟨l, c, rest, hl, hc, rfl⟩
    · have hpr : ∀ c ∈ text, p c = r c := fun c hc => by rw [h, hall c hc, Bool.false_or]
      have hsame : ∀ ts : List α, (∀ c ∈ ts, p c = r c) → ts.splitOnP p = ts.splitOnP r := by
        intro ts hts
        induction ts with
        | nil => rfl
        | cons t ts iht =>
          rw [List.splitOnP_cons_eq_if_modifyHead, List.splitOnP_cons_eq_if_modifyHead, hts t (by simp),
            iht fun c hc => hts c (by simp [hc])]
      rw [List.splitOnP_eq_singleton hall, List.flatMap_singleton, hsame text hpr]
    · have hpc : p c = true := by rw [h, hc, Bool.true_or]
      have hrest := ih rest.length (by rw [← hlen, List.length_append, List.length_cons]; omega) rest rfl
      have hl' := ih l.length (by rw [← hlen, List.length_append, List.length_cons]; omega) l rfl
      rw [List.splitOnP_append_cons _ _ hpc, List.splitOnP_append_cons_of_forall_mem hl c hc,
        List.flatMap_cons, hrest, hl', List.splitOnP_eq_singleton hl, List.flatMap_singleton]

/-- A field that each piece sets or leaves has, at the end, the value of the last piece that sets it. -/
theorem foldl_lastSet {β : Type} {g : σ → α → σ} {get : σ → β} {sets : α → Option β}
    (h : ∀ s a, get (g s a) = (sets a).getD (get s)) (as : List α) (s : σ) :
    get (as.foldl g s) = (as.reverse.findSome? sets).getD (get s) := by
  induction as generalizing s with
  | nil => rfl
  | cons a as ih =>
    rw [List.foldl_cons, ih, h, List.reverse_cons, List.findSome?_append, List.findSome?_singleton]
    cases as.reverse.findSome? sets <;> rfl

end Lines

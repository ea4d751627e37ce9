import SakuruBoot.Lib.CStr

/-!
# Checked writes into fixed-size buffers

A `Buffer α n` is memory for `n` values. Reads and writes are checked: one at or past the end has no result, so a
function that returns `some` has written inside its buffers only. The loops C code fills a character buffer with
are `copyWhile` (stop when the buffer is full), `appendWhile` (read on, but drop what does not fit), `copyN`
(`memcpy`) and `trimEnd`. `Holds b s` says that the buffer holds the string `s` and its NUL.
-/

namespace CStr

section scan

variable {f : Byte → Bool} {c : Byte}

theorem takeC_cons_of_pos (hc : (c != 0 && f c) = true) (p : List Byte) : takeC f (c :: p) = c :: takeC f p :=
  List.takeWhile_cons_of_pos hc

theorem takeC_cons_of_neg (hc : ¬(c != 0 && f c) = true) (p : List Byte) : takeC f (c :: p) = [] :=
  List.takeWhile_cons_of_neg hc

theorem dropC_cons_of_pos (hc : (c != 0 && f c) = true) (p : List Byte) : dropC f (c :: p) = dropC f p :=
  List.dropWhile_cons_of_pos hc

theorem dropC_cons_of_neg (hc : ¬(c != 0 && f c) = true) (p : List Byte) : dropC f (c :: p) = c :: p :=
  List.dropWhile_cons_of_neg hc

end scan

/-- An array of `n` values. -/
structure Buffer (α : Type) (n : Nat) where
  data : List α
  length_eq : data.length = n

namespace Buffer

variable {α : Type} {n : Nat}

/-- `b[i]`. -/
def read (b : Buffer α n) (i : Nat) : Option α := b.data[i]?

/-- `b[i] = x`. -/
def write (b : Buffer α n) (i : Nat) (x : α) : Option (Buffer α n) :=
  if i < n then some ⟨b.data.set i x, List.length_set.trans b.length_eq⟩ else none

/-- `b[i] = x` with a signed index. -/
def writeInt (b : Buffer α n) (i : Int) (x : α) : Option (Buffer α n) :=
  if 0 ≤ i then b.write i.toNat x else none

def fill (n : Nat) (x : α) : Buffer α n := ⟨List.replicate n x, List.length_replicate⟩

theorem ext_data {a b : Buffer α n} (h : a.data = b.data) : a = b := by
  cases a
  cases b
  simpa using h

theorem write_of_lt {b : Buffer α n} {i : Nat} (hi : i < n) (x : α) :
    ∃ b', b.write i x = some b' ∧ b'.data = b.data.set i x :=
  ⟨_, if_pos hi, rfl⟩

theorem read_write {b b' : Buffer α n} {i : Nat} {x : α} (h : b.write i x = some b') (j : Nat) :
    b'.read j = if j = i then some x else b.read j := by
  unfold write at h
  split at h
  · rename_i hi
    obtain rfl := Option.some.inj h
    by_cases hj : j = i
    · rw [if_pos hj, hj, read, List.getElem?_set_self (by rw [b.length_eq]; exact hi)]
    · rw [if_neg hj, read, List.getElem?_set_ne (Ne.symm hj)]
      rfl
  · cases h

/-! ## Memory in rows -/

theorem set_flatten {w : Nat} {rows : List (List α)} (hw : ∀ r ∈ rows, r.length = w) {i j : Nat} (hi : i < rows.length)
    (hj : j < w) (x : α) :
    rows.flatten.set (i * w + j) x = (rows.set i ((rows.getD i []).set j x)).flatten := by
  induction rows generalizing i with
  | nil => cases hi
  | cons r rows ih =>
    have hr : r.length = w := hw r List.mem_cons_self
    cases i with
    | zero =>
      rw [Nat.zero_mul, Nat.zero_add, List.flatten_cons, List.set_append_left _ _ (hr ▸ hj)]
      rfl
    | succ i =>
      rw [List.length_cons] at hi
      rw [List.flatten_cons, List.set_append_right _ _ (by rw [hr, Nat.succ_mul]; omega), hr,
        show (i + 1) * w + j - w = i * w + j by rw [Nat.succ_mul]; omega,
        ih (fun r hr => hw r (List.mem_cons_of_mem _ hr)) (by omega)]
      rfl

/-! ## Loops over an index -/

/-- A loop over `0, ..., m - 1` whose body succeeds and keeps the invariant. -/
theorem foldlM_range {σ : Type} {f : σ → Nat → Option σ} {I : Nat → σ → Prop} {m : Nat}
    (hstep : ∀ k < m, ∀ s, I k s → ∃ t, f s k = some t ∧ I (k + 1) t) {s : σ} (hs : I 0 s) :
    ∃ t, (List.range m).foldlM f s = some t ∧ I m t := by
  induction m with
  | zero => exact ⟨s, rfl, hs⟩
  | succ m ih =>
    obtain ⟨t, ht, hI⟩ := ih fun k hk => hstep k (Nat.lt_succ_of_lt hk)
    obtain ⟨u, hu, hI'⟩ := hstep m (Nat.lt_succ_self m) t hI
    refine ⟨u, ?_, hI'⟩
    rw [List.range_succ, List.foldlM_append, ht]
    simpa using hu

theorem write_over {b : Buffer α n} {o a : List α} (ha : a.length = n) {k : Nat} (hk : k < n)
    (hb : b.data = a.take k ++ o.drop k) {x : α} (hx : a[k]? = some x) :
    ∃ b', b.write k x = some b' ∧ b'.data = a.take (k + 1) ++ o.drop (k + 1) := by
  obtain ⟨b', hwrite, hdata⟩ := write_of_lt (b := b) hk x
  refine ⟨b', hwrite, ?_⟩
  have hlen : o.length = n := by
    have h := congrArg List.length hb
    rw [b.length_eq, List.length_append, List.length_take, List.length_drop] at h
    omega
  apply List.ext_getElem?
  intro i
  have hta : (a.take k).length = k := by rw [List.length_take]; omega
  have htb : (a.take (k + 1)).length = k + 1 := by rw [List.length_take]; omega
  rw [hdata, hb, List.getElem?_set, List.getElem?_append, List.getElem?_append, hta, htb, List.length_append, hta,
    List.length_drop, List.getElem?_take, List.getElem?_take, List.getElem?_drop, List.getElem?_drop]
  rcases Nat.lt_trichotomy i k with hlt | rfl | hgt
  · rw [if_neg (by omega), if_pos hlt, if_pos hlt, if_pos (by omega), if_pos (by omega)]
  · rw [if_pos rfl, if_pos (by omega), if_pos (by omega), if_pos (by omega), hx]
  · rw [if_neg (by omega), if_neg (by omega), if_neg (by omega), show k + (i - k) = k + 1 + (i - (k + 1)) by omega]

/-! ## Loops that fill a buffer -/

/-- `while (*p && f(*p) && i + 1 < max) b[i++] = *p++`, with the index and the rest of the text. -/
def copyWhile (f : Byte → Bool) (max : Nat) :
    Buffer Byte n → Nat → List Byte → Option (Buffer Byte n × Nat × List Byte)
  | b, i, [] => some (b, i, [])
  | b, i, c :: p =>
    if c != 0 && f c && decide (i + 1 < max) then do
      let b ← b.write i c
      copyWhile f max b (i + 1) p
    else some (b, i, c :: p)

/-- `while (*p && f(*p)) { if (i + 1 < max) b[i++] = *p; p++; }`. -/
def appendWhile (f : Byte → Bool) (max : Nat) :
    Buffer Byte n → Nat → List Byte → Option (Buffer Byte n × Nat × List Byte)
  | b, i, [] => some (b, i, [])
  | b, i, c :: p =>
    if c != 0 && f c then
      if i + 1 < max then do
        let b ← b.write i c
        appendWhile f max b (i + 1) p
      else appendWhile f max b i p
    else some (b, i, c :: p)

/-- `count` bytes of `src` copied to `b[i]` and on. -/
def copyN : Nat → Buffer Byte n → Nat → List Byte → Option (Buffer Byte n)
  | 0, b, _, _ => some b
  | count + 1, b, i, src => do
    let b ← b.write i (deref src)
    copyN count b (i + 1) src.tail

/-- `while (i > 0 && f(b[i - 1])) i--`. -/
def trimEnd (f : Byte → Bool) (b : List Byte) : Nat → Nat
  | 0 => 0
  | i + 1 => if f (b.getD i 0) then trimEnd f b i else i + 1

theorem write_next {b : Buffer Byte n} {s : List Byte} (hs : s <+: b.data) (hlt : s.length < n) (c : Byte) :
    ∃ b', b.write s.length c = some b' ∧ s ++ [c] <+: b'.data := by
  obtain ⟨b', hb', hdata⟩ := write_of_lt (b := b) hlt c
  refine ⟨b', hb', ?_⟩
  obtain ⟨junk, hjunk⟩ := hs
  have hlen : b.data.length = n := b.length_eq
  rw [← hjunk, List.length_append] at hlen
  cases junk with
  | nil => simp only [List.length_nil, Nat.add_zero] at hlen; omega
  | cons x junk =>
    refine ⟨junk, ?_⟩
    rw [hdata, ← hjunk, List.set_append_right _ _ (le_refl _), Nat.sub_self, List.set_cons_zero,
      List.append_assoc, List.singleton_append]

/-- `copyWhile` writes as much of the run as fits, and stops behind it. -/
theorem copyWhile_spec {f : Byte → Bool} {max : Nat} (hmax : max ≤ n) (p : List Byte) :
    ∀ {b : Buffer Byte n} {s : List Byte}, s <+: b.data →
      ∃ b' t, copyWhile f max b s.length p = some (b', (s ++ t).length, p.drop t.length) ∧
        t = (takeC f p).take (max - 1 - s.length) ∧ s ++ t <+: b'.data := by
  induction p with
  | nil =>
    intro b s hs
    exact ⟨b, [], by simp [copyWhile], by simp [takeC], by simpa using hs⟩
  | cons c p ih =>
    intro b s hs
    rw [copyWhile]
    by_cases hc : (c != 0 && f c) = true
    · by_cases hroom : s.length + 1 < max
      · -- the byte is written, and the loop goes on behind it
        obtain ⟨b₁, hb₁, hs₁⟩ := write_next hs (by omega) c
        obtain ⟨b', t, hrun, ht, hst⟩ := ih hs₁
        rw [List.append_assoc, List.singleton_append, List.length_append, List.length_singleton] at hrun
        rw [List.append_assoc, List.singleton_append] at hst
        refine ⟨b', c :: t, ?_, ?_, hst⟩
        · rw [if_pos (by simp only [hc, hroom, decide_true, Bool.and_self]), hb₁, Option.bind_eq_bind,
            Option.bind_some, hrun, List.length_cons, List.drop_succ_cons]
        · obtain ⟨k, hk⟩ : ∃ k, max - 1 - s.length = k + 1 := ⟨max - 1 - s.length - 1, by omega⟩
          rw [hk, takeC_cons_of_pos hc, List.take_succ_cons, ht, List.length_append, List.length_singleton]
          congr 2
          omega
      · refine ⟨b, [], ?_, ?_, by simpa using hs⟩
        · rw [if_neg (by simp [hroom])]
          simp
        · rw [show max - 1 - s.length = 0 by omega, List.take_zero]
    · refine ⟨b, [], ?_, ?_, by simpa using hs⟩
      · rw [if_neg (by simp only [hc, Bool.false_and]; simp)]
        simp
      · rw [takeC_cons_of_neg hc, List.take_nil]

/-- `appendWhile` writes as much of the run as fits and passes over all of it. -/
theorem appendWhile_spec {f : Byte → Bool} {max : Nat} (hmax : max ≤ n) (p : List Byte) :
    ∀ {b : Buffer Byte n} {s : List Byte}, s <+: b.data →
      ∃ b' t, appendWhile f max b s.length p = some (b', (s ++ t).length, dropC f p) ∧
        t = (takeC f p).take (max - 1 - s.length) ∧ s ++ t <+: b'.data := by
  induction p with
  | nil =>
    intro b s hs
    exact ⟨b, [], by simp [appendWhile, dropC], by simp [takeC], by simpa using hs⟩
  | cons c p ih =>
    intro b s hs
    rw [appendWhile]
    by_cases hc : (c != 0 && f c) = true
    · rw [if_pos hc, dropC_cons_of_pos hc]
      by_cases hroom : s.length + 1 < max
      · obtain ⟨b₁, hb₁, hs₁⟩ := write_next hs (by omega) c
        obtain ⟨b', t, hrun, ht, hst⟩ := ih hs₁
        rw [List.append_assoc, List.singleton_append, List.length_append, List.length_singleton] at hrun
        rw [List.append_assoc, List.singleton_append] at hst
        refine ⟨b', c :: t, ?_, ?_, hst⟩
        · rw [if_pos hroom, hb₁, Option.bind_eq_bind, Option.bind_some, hrun]
        · obtain ⟨k, hk⟩ : ∃ k, max - 1 - s.length = k + 1 := ⟨max - 1 - s.length - 1, by omega⟩
          rw [hk, takeC_cons_of_pos hc, List.take_succ_cons, ht, List.length_append, List.length_singleton]
          congr 2
          omega
      · -- the buffer is full: the byte is dropped, here and from now on
        obtain ⟨b', t, hrun, ht, hst⟩ := ih hs
        have hzero : max - 1 - s.length = 0 := by omega
        rw [hzero, List.take_zero] at ht
        rw [ht] at hrun hst
        exact ⟨b', [], by rw [if_neg hroom, hrun], by rw [hzero, List.take_zero], hst⟩
    · refine ⟨b, [], ?_, ?_, by simpa using hs⟩
      · rw [if_neg hc, dropC_cons_of_neg hc, List.append_nil]
      · rw [takeC_cons_of_neg hc, List.take_nil]

theorem copyN_spec (count : Nat) : ∀ {b : Buffer Byte n} {s src : List Byte}, s <+: b.data →
    count ≤ src.length → s.length + count ≤ n →
      ∃ b', copyN count b s.length src = some b' ∧ s ++ src.take count <+: b'.data := by
  induction count with
  | zero =>
    intro b s src hs _ _
    exact ⟨b, rfl, by simpa using hs⟩
  | succ count ih =>
    intro b s src hs hsrc hroom
    cases src with
    | nil => simp at hsrc
    | cons c src =>
      obtain ⟨b₁, hb₁, hs₁⟩ := write_next hs (by omega) c
      have hsrc : count ≤ src.length := by simpa using hsrc
      obtain ⟨b', hrun, hst⟩ := ih hs₁ hsrc (by simp; omega)
      refine ⟨b', ?_, by simpa using hst⟩
      rw [copyN, show deref (c :: src) = c from rfl, hb₁, Option.bind_eq_bind, Option.bind_some, List.tail_cons,
        ← hrun, List.length_append, List.length_singleton]

theorem trimEnd_spec (f : Byte → Bool) {s b : List Byte} (hs : s <+: b) :
    trimEnd f b s.length = (s.rdropWhile f).length := by
  induction s using List.reverseRecOn with
  | nil => rfl
  | append_singleton s c ih =>
    have hget : b.getD s.length 0 = c := by
      obtain ⟨junk, rfl⟩ := hs
      simp [List.getD]
    rw [List.length_append, List.length_singleton, trimEnd, hget]
    by_cases hc : f c = true
    · rw [if_pos hc, List.rdropWhile_concat_pos _ _ _ hc]
      exact ih ((List.prefix_append s [c]).trans hs)
    · rw [if_neg hc, List.rdropWhile_concat_neg _ _ _ hc, List.length_append, List.length_singleton]

/-! ## Strings in buffers -/

/-- The buffer holds the string `s`, with its NUL inside the buffer. -/
structure Holds (b : Buffer Byte n) (s : List Byte) : Prop where
  bytes : s ++ [0] <+: b.data
  no_nul : ∀ c ∈ s, c ≠ 0

theorem Holds.nul_mem {b : Buffer Byte n} {s : List Byte} (h : b.Holds s) : (0 : Byte) ∈ b.data :=
  h.bytes.subset (by simp)

theorem Holds.length_lt {b : Buffer Byte n} {s : List Byte} (h : b.Holds s) : s.length < n := by
  have hlen := h.bytes.length_le
  rw [b.length_eq, List.length_append, List.length_singleton] at hlen
  exact hlen

theorem Holds.exists_data {b : Buffer Byte n} {s : List Byte} (h : b.Holds s) :
    ∃ junk, b.data = s ++ 0 :: junk := by
  obtain ⟨junk, hjunk⟩ := h.bytes
  exact ⟨junk, by rw [← hjunk, List.append_assoc, List.singleton_append]⟩

theorem str_nul_starts (s : List Byte) : str s ++ [0] <+: s ++ [0] := by
  induction s with
  | nil => exact List.prefix_rfl
  | cons x s ih =>
    rw [str_cons]
    by_cases hx : x = 0
    · rw [if_pos hx, hx]
      exact List.prefix_append [0] (s ++ [0])
    · rw [if_neg hx]
      exact (List.prefix_cons_inj x).mpr ih

theorem write_nul_str {b : Buffer Byte n} {s : List Byte} (hs : s <+: b.data) (hlt : s.length < n) :
    ∃ b', b.write s.length 0 = some b' ∧ b'.Holds (str s) := by
  obtain ⟨b', hb', hs'⟩ := write_next hs hlt 0
  exact ⟨b', hb', (str_nul_starts s).trans hs', fun c hc => (mem_takeC hc).1⟩

theorem write_nul {b : Buffer Byte n} {s : List Byte} (hs : s <+: b.data) (hno : ∀ c ∈ s, c ≠ 0)
    (hlt : s.length < n) : ∃ b', b.write s.length 0 = some b' ∧ b'.Holds s := by
  have h := write_nul_str hs hlt
  rwa [str_of_no_nul hno] at h

theorem holds_fill (hn : 0 < n) : (fill n (0 : Byte)).Holds [] := by
  refine ⟨⟨List.replicate (n - 1) 0, ?_⟩, nofun⟩
  obtain ⟨m, rfl⟩ : ∃ m, n = m + 1 := ⟨n - 1, by omega⟩
  rfl

end Buffer

/-! ## A terminated string read through a pointer -/

theorem takeC_nul (f : Byte → Bool) (s junk : List Byte) : takeC f (s ++ 0 :: junk) = takeC f s := by
  induction s with
  | nil => rfl
  | cons x s ih =>
    by_cases hx : (x != 0 && f x) = true
    · rw [List.cons_append, takeC_cons_of_pos hx, takeC_cons_of_pos hx, ih]
    · rw [List.cons_append, takeC_cons_of_neg hx, takeC_cons_of_neg hx]

theorem dropC_nul (f : Byte → Bool) (s junk : List Byte) :
    dropC f (s ++ 0 :: junk) = dropC f s ++ 0 :: junk := by
  induction s with
  | nil => rfl
  | cons x s ih =>
    by_cases hx : (x != 0 && f x) = true
    · rw [List.cons_append, dropC_cons_of_pos hx, dropC_cons_of_pos hx, ih]
    · rw [List.cons_append, dropC_cons_of_neg hx, dropC_cons_of_neg hx, List.cons_append]

theorem deref_nul (s junk : List Byte) : deref (s ++ 0 :: junk) = deref s := by
  cases s <;> rfl

theorem Buffer.Holds.str_data {n : Nat} {b : Buffer Byte n} {s : List Byte} (h : b.Holds s) : str b.data = s := by
  obtain ⟨junk, hjunk⟩ := h.exists_data
  rw [hjunk, str, takeC_nul]
  exact str_of_no_nul h.no_nul

end CStr

import Mathlib.Data.List.Basic

/-!
# Tables with a key and a limit

A row is added to a table unless its key is there or the table is full. Over a list of requests that keeps the first
request for each new key, up to the limit (`foldl_add`), and a second run over the same requests changes nothing
(`foldl_add_twice`).
-/

namespace Table

variable {α β κ : Type} [DecidableEq κ]

/-- The requests with a key that is neither among `seen` nor the key of an earlier request. -/
def firsts (key : α → κ) (seen : List κ) : List α → List α
  | [] => []
  | a :: as => if key a ∈ seen then firsts key seen as else a :: firsts key (seen ++ [key a]) as

/-- One request on a table of at most `cap` rows. -/
def add (cap : Nat) (key : α → κ) (rowKey : β → κ) (row : α → β) (t : List β) (a : α) : List β :=
  if key a ∈ t.map rowKey then t else if cap ≤ t.length then t else t ++ [row a]

variable {cap : Nat} {key : α → κ} {rowKey : β → κ} {row : α → β} {t : List β} {as : List α}

theorem foldl_add (hrow : ∀ a ∈ as, rowKey (row a) = key a) (ht : t.length ≤ cap) :
    as.foldl (add cap key rowKey row) t =
      t ++ ((firsts key (t.map rowKey) as).take (cap - t.length)).map row := by
  induction as generalizing t with
  | nil => simp [firsts]
  | cons a as ih =>
    have hrest : ∀ a ∈ as, rowKey (row a) = key a := fun a ha => hrow a (List.mem_cons_of_mem _ ha)
    rw [List.foldl_cons, add, firsts]
    by_cases hmem : key a ∈ t.map rowKey
    · rw [if_pos hmem, if_pos hmem]
      exact ih hrest ht
    · rw [if_neg hmem, if_neg hmem]
      by_cases hfull : cap ≤ t.length
      · have hzero : cap - t.length = 0 := by omega
        rw [if_pos hfull, ih hrest ht, hzero, List.take_zero, List.take_zero]
      · have hroom : cap - t.length = (cap - (t ++ [row a]).length) + 1 := by
          rw [List.length_append, List.length_singleton]
          omega
        have hkeys : (t ++ [row a]).map rowKey = t.map rowKey ++ [key a] := by
          rw [List.map_append, List.map_singleton, hrow a List.mem_cons_self]
        rw [if_neg hfull, ih hrest (by rw [List.length_append, List.length_singleton]; omega), hroom, hkeys,
          List.take_succ_cons, List.map_cons, List.append_assoc]
        rfl

theorem map_firsts (seen : List κ) (as : List α) : (firsts key seen as).map key = firsts id seen (as.map key) := by
  induction as generalizing seen with
  | nil => rfl
  | cons a as ih =>
    rw [firsts, List.map_cons, firsts, id]
    split_ifs
    · exact ih seen
    · rw [List.map_cons, ih]

/-- A request that no longer changes the table. -/
def Settled (cap : Nat) (key : α → κ) (rowKey : β → κ) (t : List β) (a : α) : Prop :=
  key a ∈ t.map rowKey ∨ cap ≤ t.length

theorem add_of_settled {a : α} (h : Settled cap key rowKey t a) : add cap key rowKey row t a = t := by
  unfold add
  split_ifs with hmem hfull
  · rfl
  · rfl
  · exact absurd h (not_or.mpr ⟨hmem, hfull⟩)

theorem Settled.add {a : α} (h : Settled cap key rowKey t a) (b : α) :
    Settled cap key rowKey (add cap key rowKey row t b) a := by
  unfold Table.add
  split_ifs with hmem hfull
  · exact h
  · exact h
  · rcases h with h | h
    · exact .inl (by rw [List.map_append]; exact List.mem_append_left _ h)
    · exact absurd h hfull

theorem settled_add (a : α) (hrow : rowKey (row a) = key a) :
    Settled cap key rowKey (add cap key rowKey row t a) a := by
  unfold add
  split_ifs with hmem hfull
  · exact .inl hmem
  · exact .inr hfull
  · refine .inl ?_
    rw [List.map_append, List.map_singleton, hrow]
    exact List.mem_append_right _ List.mem_cons_self

theorem Settled.foldl {a : α} (h : Settled cap key rowKey t a) (as : List α) :
    Settled cap key rowKey (as.foldl (Table.add cap key rowKey row) t) a :=
  List.foldlRecOn (motive := fun t => Settled cap key rowKey t a) as _ h fun _ ht b _ => ht.add b

/-- After a run every request of it is settled. -/
theorem settled_foldl (hrow : ∀ a ∈ as, rowKey (row a) = key a) :
    ∀ a ∈ as, Settled cap key rowKey (as.foldl (add cap key rowKey row) t) a := by
  induction as generalizing t with
  | nil => nofun
  | cons b as ih =>
    intro a ha
    rw [List.foldl_cons]
    rcases List.mem_cons.mp ha with rfl | hmem
    · exact (settled_add a (hrow a ha)).foldl as
    · exact ih (fun c hc => hrow c (List.mem_cons_of_mem _ hc)) a hmem

theorem foldl_add_of_settled (h : ∀ a ∈ as, Settled cap key rowKey t a) :
    as.foldl (add cap key rowKey row) t = t :=
  List.foldlRecOn (motive := fun t' => t' = t) as _ rfl fun t' ht' a ha => by
    rw [ht', add_of_settled (h a ha)]

theorem foldl_add_twice (hrow : ∀ a ∈ as, rowKey (row a) = key a) :
    as.foldl (add cap key rowKey row) (as.foldl (add cap key rowKey row) t) = as.foldl (add cap key rowKey row) t :=
  foldl_add_of_settled (settled_foldl hrow)

end Table

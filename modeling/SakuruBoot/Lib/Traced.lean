import Mathlib.Data.List.Basic

/-!
# Computations that report events

`Traced ε α` is a result together with the events that led to it, in order. A traced function is
checked against the function it follows through `val`, and what it does is read from `events`.
-/

structure Traced (ε α : Type) where
  val : α
  events : List ε

namespace Traced

variable {ε α β : Type}

instance : Monad (Traced ε) where
  pure a := ⟨a, []⟩
  bind x f := ⟨(f x.val).val, x.events ++ (f x.val).events⟩

/-- Report `e`. -/
def emit (e : ε) : Traced ε Unit := ⟨(), [e]⟩

/-- Report all of `es`. -/
def emitAll (es : List ε) : Traced ε Unit := ⟨(), es⟩

@[simp] theorem val_pure (a : α) : (pure a : Traced ε α).val = a := rfl
@[simp] theorem events_pure (a : α) : (pure a : Traced ε α).events = [] := rfl

@[simp] theorem val_bind (x : Traced ε α) (f : α → Traced ε β) : (x >>= f).val = (f x.val).val := rfl

@[simp] theorem events_bind (x : Traced ε α) (f : α → Traced ε β) :
    (x >>= f).events = x.events ++ (f x.val).events := rfl

@[simp] theorem events_emit (e : ε) : (emit e : Traced ε Unit).events = [e] := rfl

@[simp] theorem events_emitAll (es : List ε) : (emitAll es : Traced ε Unit).events = es := rfl

/-! ## Loops -/

section Fold

variable {f : β → α → Traced ε β} {l : List α}

theorem val_foldlM {g : β → α → β} (h : ∀ b x, (f b x).val = g b x) (b : β) : (l.foldlM f b).val = l.foldl g b := by
  induction l generalizing b with
  | nil => rfl
  | cons x l ih => rw [List.foldlM_cons, val_bind, ih, h, List.foldl_cons]

theorem mem_events_foldlM {e : ε} {b : β} (h : e ∈ (l.foldlM f b).events) : ∃ x ∈ l, ∃ b', e ∈ (f b' x).events := by
  induction l generalizing b with
  | nil => cases h
  | cons x l ih =>
    rw [List.foldlM_cons, events_bind, List.mem_append] at h
    rcases h with h | h
    · exact ⟨x, List.mem_cons_self, b, h⟩
    · obtain ⟨y, hy, hrest⟩ := ih h
      exact ⟨y, List.mem_cons_of_mem _ hy, hrest⟩

/-- What a round reports from every state, the loop reports. -/
theorem mem_events_foldlM_of_forall {e : ε} {x : α} (hx : x ∈ l) (h : ∀ b', e ∈ (f b' x).events) (b : β) :
    e ∈ (l.foldlM f b).events := by
  induction l generalizing b with
  | nil => cases hx
  | cons y l ih =>
    rw [List.foldlM_cons, events_bind, List.mem_append]
    rcases List.mem_cons.mp hx with rfl | hx
    · exact Or.inl (h b)
    · exact Or.inr (ih hx _)

end Fold

end Traced

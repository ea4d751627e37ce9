import Mathlib

/-!
# Runs of a step function

A run is a list of actions folded into a state. Where each step keeps an invariant exactly on a condition, the
invariant holds in every state a run passes through exactly when every step meets the condition.
-/

namespace Runs

variable {σ α : Type} {step : σ → α → σ}

/-- What every step that meets the condition preserves holds in every state of a run of such steps. -/
theorem forall_prefix {I : σ → Prop} {Ok : σ → α → Prop} (hstep : ∀ s a, I s → Ok s a → I (step s a)) {s : σ}
    (hs : I s) {as : List α} (hsteps : ∀ pre a, pre ++ [a] <+: as → Ok (pre.foldl step s) a) (pre : List α)
    (hpre : pre <+: as) : I (pre.foldl step s) := by
  -- induction on the prefix from its end, one action at a time
  induction pre using List.reverseRecOn with
  | nil => exact hs
  | append_singleton pre a ih =>
    have hbefore := ih (List.IsPrefix.trans (List.prefix_append pre [a]) hpre)
    rw [List.foldl_append]
    exact hstep _ a hbefore (hsteps pre a hpre)

theorem forall_prefix_iff {I : σ → Prop} {Ok : σ → α → Prop}
    (hstep : ∀ s a, I s → (I (step s a) ↔ Ok s a)) {s : σ} (hs : I s) (as : List α) :
    (∀ pre, pre <+: as → I (pre.foldl step s)) ↔
      ∀ pre a, pre ++ [a] <+: as → Ok (pre.foldl step s) a := by
  constructor
  · intro hall pre a hpre
    have hbefore := hall pre (List.IsPrefix.trans (List.prefix_append pre [a]) hpre)
    have hafter := hall _ hpre
    rw [List.foldl_append] at hafter
    exact (hstep _ a hbefore).mp hafter
  · intro hsteps
    exact forall_prefix (fun s a hI hOk => (hstep s a hI).mpr hOk) hs hsteps

end Runs

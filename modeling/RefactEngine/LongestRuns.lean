import Mathlib.Order.Lattice

/-! # Longest runs of a predicate

A loop that counts up from one and stops at the first number that does not fit, or at a bound.
-/
namespace LongestRuns

structure IsLongestRun (fits : ℕ → Prop) (bound k : ℕ) : Prop where
  le : k ≤ bound
  all : ∀ j, 1 ≤ j → j ≤ k → fits j
  stops : k = bound ∨ ¬ fits (k + 1)

namespace IsLongestRun

variable {fits fits' : ℕ → Prop} {bound bound' k k' : ℕ}

theorem le_of_stops (h : IsLongestRun fits bound k) {j : ℕ} (hj : ¬ fits (j + 1)) : k ≤ j := by
  by_contra hlt
  exact hj (h.all (j + 1) (by omega) (by omega))

theorem unique (h : IsLongestRun fits bound k) (h' : IsLongestRun fits bound k') : k = k' := by
  have hle : k ≤ k' := by
    rcases h'.stops with heq | hstop
    · exact heq ▸ h.le
    · exact h.le_of_stops hstop
  have hge : k' ≤ k := by
    rcases h.stops with heq | hstop
    · exact heq ▸ h'.le
    · exact h'.le_of_stops hstop
  omega

theorem of_agree (h : IsLongestRun fits bound k) (hk : k ≤ bound') (hbound : bound' ≤ bound)
    (agree : ∀ j, 1 ≤ j → j ≤ bound' → (fits j ↔ fits' j)) : IsLongestRun fits' bound' k where
  le := hk
  all j hj hjk := (agree j hj (by omega)).mp (h.all j hj hjk)
  stops := by
    by_cases heq : k = bound'
    · exact .inl heq
    · right
      intro hfits
      rcases h.stops with hstop | hstop
      · omega
      · exact hstop ((agree (k + 1) (by omega) (by omega)).mpr hfits)

end IsLongestRun

end LongestRuns

import Mathlib.Data.Finset.Card
import Mathlib.Data.Finset.Range

/-!
# Initial segments of the natural numbers

A finite set of indices without gaps is `Finset.range` of its size (`gapless_iff`), and it is one
exactly when its size bounds its elements (`lt_card_iff`). This is where a count can stand for an
upper bound.
-/

set_option autoImplicit false

namespace Segment

/-- Whatever is below an element is an element. -/
def Gapless (t : Finset Nat) : Prop := ∀ n ∈ t, ∀ k < n, k ∈ t

variable {t : Finset Nat}

theorem lt_card_iff_range : (∀ n ∈ t, n < t.card) ↔ t = Finset.range t.card := by
  constructor
  · intro h
    refine Finset.eq_of_subset_of_card_le (fun n hn => Finset.mem_range.2 (h n hn)) ?_
    rw [Finset.card_range]
  · intro h n hn
    rw [h, Finset.mem_range] at hn
    exact hn

theorem gapless_iff : Gapless t ↔ t = Finset.range t.card := by
  constructor
  · intro h
    refine lt_card_iff_range.1 fun n hn => ?_
    -- the elements up to `n` are already `n + 1` many
    have hsub : Finset.range (n + 1) ⊆ t := by
      intro k hk
      rcases Nat.lt_or_eq_of_le (Nat.lt_succ_iff.1 (Finset.mem_range.1 hk)) with hlt | rfl
      · exact h n hn k hlt
      · exact hn
    have hc := Finset.card_le_card hsub
    rw [Finset.card_range] at hc
    omega
  · intro h n hn k hk
    rw [h, Finset.mem_range] at hn ⊢
    omega

/-- The size bounds the elements exactly when there is no gap. -/
theorem lt_card_iff : (∀ n ∈ t, n < t.card) ↔ Gapless t := lt_card_iff_range.trans gapless_iff.symm

end Segment

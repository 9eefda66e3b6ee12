import Mathlib.Logic.Function.Basic

/-!
# Locks that one has at a time

`f` says of each whether it has the lock, and `o` is the one that has it. `update` is a step of one
of them: it takes the lock when it is free, gives it back, or keeps it.
-/

set_option autoImplicit false

namespace Exclusive

variable {α β : Type} [DecidableEq α] {f : β → Bool} {g : α → β} {o : Option α} {a : α} {b : β}

theorem update (h : ∀ u, f (g u) = true ↔ o = some u)
    (hfree : f b = true → f (g a) = true ∨ o = none) (u : α) :
    f (Function.update g a b u) = true ↔
      (if f b then some a else if f (g a) then none else o) = some u := by
  have hu := h u
  have ha := h a
  by_cases hua : u = a
  · subst hua
    rw [Function.update_self]
    cases hb : f b with
    | true => simp
    | false =>
      cases hga : f (g u) with
      | true => simp
      | false => simpa [hga] using ha
  · rw [Function.update_of_ne hua, hu]
    cases hb : f b with
    | true =>
      rcases hfree hb with h' | h'
      · simp [ha.mp h', Ne.symm hua]
      · simp [h', Ne.symm hua]
    | false =>
      cases hga : f (g a) with
      | true => simp [ha.mp hga, Ne.symm hua]
      | false => simp

omit [DecidableEq α] in
/-- A second one does not have it. -/
theorem unique (h : ∀ u, f (g u) = true ↔ o = some u) {a b : α} (ha : f (g a) = true)
    (hb : f (g b) = true) : a = b :=
  Option.some.inj (((h a).mp ha).symm.trans ((h b).mp hb))

end Exclusive

import Staut.Lib.Cyclic

/-!
# Rings with a phase bit

A producer writes entries at consecutive positions of a ring of `n` slots, each with the phase bit
of its pass: 1 on the first pass, inverted on every wrap. `PhaseRing n slot bit xs`: the ring holds
the last `n` of the entries `xs` posted so far. A consumer that has taken `r` of them, at most `n`
behind, recognises by the bit alone whether entry `r` is there (`PhaseRing.ready_iff`).
-/

set_option autoImplicit false

namespace PhaseRing

open Cyclic

variable {α : Type}

/-- The phase bit of position `m`. -/
def phaseOf (n m : Nat) : Nat := if m / n % 2 = 0 then 1 else 0

theorem phaseOf_of_lt {n m : Nat} (h : m < n) : phaseOf n m = 1 := by
  simp [phaseOf, Nat.div_eq_of_lt h]

/-- One pass later the bit is the other one. -/
theorem phaseOf_add {n : Nat} (m : Nat) (hn : 0 < n) : phaseOf n (m + n) ≠ phaseOf n m := by
  unfold phaseOf
  rw [Nat.add_div_right m hn]
  split <;> split <;> omega

/-- The bit is inverted when a pass ends. -/
theorem phaseOf_succ (n m : Nat) :
    phaseOf n (m + 1) = if (m + 1) % n = 0 then phaseOf n m ^^^ 1 else phaseOf n m := by
  unfold phaseOf
  rw [Nat.succ_div]
  by_cases hd : n ∣ m + 1
  · rw [if_pos hd, if_pos (Nat.mod_eq_zero_of_dvd hd)]
    by_cases h2 : m / n % 2 = 0
    · rw [if_neg (by omega), if_pos h2]
      rfl
    · rw [if_pos (by omega), if_neg h2]
      rfl
  · rw [if_neg hd, if_neg (fun h => hd (Nat.dvd_of_mod_eq_zero h)), Nat.add_zero]

/-- The index after a position's index. -/
theorem mod_succ {n : Nat} (m : Nat) (hn : 0 < n) :
    (m + 1) % n = if m % n + 1 = n then 0 else m % n + 1 := by
  have h := Nat.mod_lt m hn
  rw [← Nat.mod_add_mod]
  split
  · rename_i he
    rw [he, Nat.mod_self]
  · exact Nat.mod_eq_of_lt (by omega)

/-- The last `n` of the posted entries are in the ring, every other slot has the bit of an
earlier pass. -/
structure Holds (n : Nat) (slot : Nat → α) (bit : Nat → Nat) (xs : List α) : Prop where
  entry : ∀ m x, xs[m]? = some x → xs.length ≤ m + n →
    slot (m % n) = x ∧ bit (m % n) = phaseOf n m
  fresh : ∀ m, xs.length ≤ m → m < xs.length + n → bit (m % n) ≠ phaseOf n m

theorem Holds.nil {n : Nat} (slot : Nat → α) {bit : Nat → Nat} (h : ∀ i < n, bit i = 0) :
    Holds n slot bit [] := by
  refine ⟨fun m x hx => by simp at hx, fun m _ hm => ?_⟩
  simp only [List.length_nil, Nat.zero_add] at hm
  rw [Nat.mod_eq_of_lt hm, h m hm, phaseOf_of_lt hm]
  decide

/-- The consumer's test. -/
theorem Holds.ready_iff {n : Nat} {slot : Nat → α} {bit : Nat → Nat} {xs : List α}
    (h : Holds n slot bit xs) (hn : 0 < n) {r : Nat} (h1 : r ≤ xs.length) (h2 : xs.length ≤ r + n) :
    bit (r % n) = phaseOf n r ↔ r < xs.length := by
  constructor
  · intro hb
    apply Classical.byContradiction
    intro hr
    exact h.fresh r (by omega) (by omega) hb
  · intro hr
    exact (h.entry r _ (List.getElem?_eq_getElem hr) h2).2

/-- Posting the next entry. -/
theorem Holds.post {n : Nat} {slot slot' : Nat → α} {bit bit' : Nat → Nat} {xs : List α}
    (h : Holds n slot bit xs) (hn : 0 < n) (x : α)
    (hslot : ∀ i < n, slot' i = if i = xs.length % n then x else slot i)
    (hbit : ∀ i < n, bit' i = if i = xs.length % n then phaseOf n xs.length else bit i) :
    Holds n slot' bit' (xs ++ [x]) := by
  refine ⟨fun m y hy hm => ?_, fun m h1 h2 => ?_⟩
  · simp only [List.length_append, List.length_singleton] at hm
    rw [hslot _ (Nat.mod_lt _ hn), hbit _ (Nat.mod_lt _ hn)]
    rcases Nat.lt_trichotomy m xs.length with hlt | rfl | hgt
    · -- an older entry: its slot is not the one written
      have hne : m % n ≠ xs.length % n := fun he => by
        have := eq_of_mod_eq he (by omega) (by omega)
        omega
      rw [if_neg hne, if_neg hne]
      exact h.entry m y (by rwa [List.getElem?_append_left hlt] at hy) (by omega)
    · simp only [List.getElem?_append_right (Nat.le_refl _), Nat.sub_self, List.getElem?_cons_zero,
        Option.some.injEq] at hy
      simp [hy]
    · rw [List.getElem?_eq_none (by simp; omega)] at hy
      cases hy
  · simp only [List.length_append, List.length_singleton] at h1 h2
    rw [hbit _ (Nat.mod_lt _ hn)]
    split
    · rename_i he
      -- the slot comes round again one pass later
      have hm : m = xs.length + n := by
        rcases Nat.lt_or_ge m (xs.length + n) with hlt | hge
        · have := eq_of_mod_eq he.symm (by omega) (by omega)
          omega
        · omega
      rw [hm]
      exact (phaseOf_add _ hn).symm
    · rename_i hne
      refine h.fresh m (by omega) ?_
      apply Classical.byContradiction
      intro hge
      exact hne (by rw [show m = xs.length + n by omega, Nat.add_mod_right])

end PhaseRing

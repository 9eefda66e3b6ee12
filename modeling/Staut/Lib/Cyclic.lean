import Mathlib.Data.List.Basic
import Mathlib.Data.Nat.ModEq
import Mathlib.Data.List.Range
import Mathlib.Logic.Function.Basic

/-!
# Windows of a cyclic buffer

`cycWindow f N rp n` lists the `n` entries of the buffer `f` (indices modulo `N`) from `rp` on. A
push writes the entry at `rp + n` and a pop advances `rp`; as long as the window is shorter than
the buffer, neither touches another entry of it.
-/

set_option autoImplicit false

namespace Cyclic

variable {α : Type}

/-- The number of entries from `rp` (inclusive) to `wp` (exclusive), going round. -/
def cycLen (N rp wp : Nat) : Nat := (wp + N - rp) % N

/-- The `n` entries from `rp` on. -/
def cycWindow (f : Nat → α) (N rp n : Nat) : List α :=
  (List.range n).map fun k => f ((rp + k) % N)

@[simp] theorem length_cycWindow (f : Nat → α) (N rp n : Nat) :
    (cycWindow f N rp n).length = n := by simp [cycWindow]

theorem cycLen_lt {N rp wp : Nat} (hN : 0 < N) : cycLen N rp wp < N := Nat.mod_lt _ hN

theorem cycLen_eq_zero {N rp wp : Nat} (hr : rp < N) (hw : wp < N) :
    cycLen N rp wp = 0 ↔ rp = wp := by
  unfold cycLen
  rcases Nat.lt_or_ge wp rp with h | h
  · rw [Nat.mod_eq_of_lt (by omega)]; omega
  · rw [show wp + N - rp = (wp - rp) + N by omega, Nat.add_mod_right,
      Nat.mod_eq_of_lt (by omega)]
    omega

/-- Fewer than `N` steps round the buffer do not come back. -/
theorem add_mod_ne {N a d : Nat} (ha : a < N) (h1 : 1 ≤ d) (h2 : d < N) : (a + d) % N ≠ a := by
  rcases Nat.lt_or_ge (a + d) N with h | h
  · rw [Nat.mod_eq_of_lt h]
    omega
  · rw [Nat.mod_eq_sub_mod h, Nat.mod_eq_of_lt (by omega)]
    omega

/-- Positions of one entry, less than a round apart. -/
theorem eq_of_mod_eq {N p q : Nat} (h : p % N = q % N) (h1 : p < q + N)
    (h2 : q < p + N) : p = q := by
  rcases Nat.lt_trichotomy p q with hlt | heq | hlt
  · have hd := (Nat.modEq_iff_dvd' hlt.le).1 h
    have hle := Nat.le_of_dvd (by omega) hd
    omega
  · exact heq
  · have hd := (Nat.modEq_iff_dvd' hlt.le).1 h.symm
    have hle := Nat.le_of_dvd (by omega) hd
    omega

/-- The window ends at the write index. -/
theorem add_cycLen {N rp wp : Nat} (hr : rp < N) (hw : wp < N) :
    (rp + cycLen N rp wp) % N = wp := by
  unfold cycLen
  rcases Nat.lt_or_ge wp rp with h | h
  · rw [Nat.mod_eq_of_lt (by omega : wp + N - rp < N),
      show rp + (wp + N - rp) = wp + N by omega, Nat.add_mod_right, Nat.mod_eq_of_lt hw]
  · rw [show wp + N - rp = (wp - rp) + N by omega, Nat.add_mod_right,
      Nat.mod_eq_of_lt (by omega : wp - rp < N), show rp + (wp - rp) = wp by omega,
      Nat.mod_eq_of_lt hw]

theorem cycLen_of_lt {N rp wp : Nat} (h : rp < wp) (hw : wp < N) : cycLen N rp wp = wp - rp := by
  unfold cycLen
  rw [show wp + N - rp = (wp - rp) + N by omega, Nat.add_mod_right, Nat.mod_eq_of_lt (by omega)]

theorem cycLen_of_gt {N rp wp : Nat} (h : wp < rp) (hr : rp < N) :
    cycLen N rp wp = wp + N - rp := by
  unfold cycLen
  rw [Nat.mod_eq_of_lt (by omega)]

/-- Indices that count without end, less than a round apart. -/
theorem cycLen_mod {N a b : Nat} (h : a ≤ b) (hlt : b < a + N) :
    cycLen N (a % N) (b % N) = b - a := by
  have hN : 0 < N := by omega
  have hend : a + cycLen N (a % N) (b % N) ≡ a + (b - a) [MOD N] := by
    rw [Nat.add_sub_cancel' h, Nat.ModEq, ← Nat.mod_add_mod, add_cycLen (Nat.mod_lt a hN)
      (Nat.mod_lt b hN)]
  have heq := Nat.ModEq.add_left_cancel' a hend
  exact heq.eq_of_lt_of_lt (cycLen_lt hN) (by omega)

/-- A push makes a window that is not full one longer. -/
theorem cycLen_push {N rp wp : Nat} (hr : rp < N) (hw : wp < N) (h : cycLen N rp wp + 1 < N) :
    cycLen N rp ((wp + 1) % N) = cycLen N rp wp + 1 := by
  rcases Nat.lt_trichotomy rp wp with hlt | rfl | hgt
  · rw [cycLen_of_lt hlt hw] at h ⊢
    rcases Nat.lt_or_ge (wp + 1) N with h1 | h1
    · rw [Nat.mod_eq_of_lt h1, cycLen_of_lt (by omega) h1]; omega
    · rw [show wp + 1 = N by omega, Nat.mod_self]
      rw [cycLen_of_gt (by omega) hr]; omega
  · rw [(cycLen_eq_zero hr hw).2 rfl] at h ⊢
    rcases Nat.lt_or_ge (rp + 1) N with h1 | h1
    · rw [Nat.mod_eq_of_lt h1, cycLen_of_lt (by omega) h1]; omega
    · rw [show rp + 1 = N by omega, Nat.mod_self, cycLen_of_gt (by omega) hr]; omega
  · rw [cycLen_of_gt hgt hr] at h ⊢
    rw [Nat.mod_eq_of_lt (by omega), cycLen_of_gt (by omega) hr]; omega

/-- A pop makes a nonempty window one shorter. -/
theorem cycLen_pop {N rp wp : Nat} (hr : rp < N) (hw : wp < N) (h : rp ≠ wp) :
    cycLen N rp wp = cycLen N ((rp + 1) % N) wp + 1 := by
  rcases Nat.lt_or_gt_of_ne h with hlt | hgt
  · rw [cycLen_of_lt hlt hw, Nat.mod_eq_of_lt (by omega)]
    rcases Nat.lt_or_ge (rp + 1) wp with h1 | h1
    · rw [cycLen_of_lt h1 hw]; omega
    · rw [show rp + 1 = wp by omega, (cycLen_eq_zero hw hw).2 rfl]; omega
  · rw [cycLen_of_gt hgt hr]
    rcases Nat.lt_or_ge (rp + 1) N with h1 | h1
    · rw [Nat.mod_eq_of_lt h1, cycLen_of_gt (by omega) h1]; omega
    · rw [show rp + 1 = N by omega, Nat.mod_self]
      rcases Nat.eq_zero_or_pos wp with rfl | hp
      · rw [(cycLen_eq_zero (by omega) hw).2 rfl]; omega
      · rw [cycLen_of_lt hp hw]; omega

/-- Popping takes the window's first entry. -/
theorem cycWindow_succ (f : Nat → α) {N rp : Nat} (n : Nat) (hr : rp < N) :
    cycWindow f N rp (n + 1) = f rp :: cycWindow f N ((rp + 1) % N) n := by
  unfold cycWindow
  rw [List.range_succ_eq_map, List.map_cons, List.map_map, Nat.add_zero, Nat.mod_eq_of_lt hr]
  congr 1
  refine List.map_congr_left fun k _ => ?_
  show f ((rp + (k + 1)) % N) = f (((rp + 1) % N + k) % N)
  rw [Nat.mod_add_mod, Nat.add_assoc, Nat.add_comm 1 k]

/-- Pushing at the end of a window that is not full appends to it. -/
theorem cycWindow_push (f : Nat → α) {N rp n : Nat} (x : α) (h : n < N) :
    cycWindow (Function.update f ((rp + n) % N) x) N rp (n + 1) = cycWindow f N rp n ++ [x] := by
  unfold cycWindow
  rw [List.range_succ, List.map_append, List.map_singleton, Function.update_self]
  congr 1
  refine List.map_congr_left fun k hk => Function.update_of_ne (fun he => ?_) _ _
  have hk' := List.mem_range.1 hk
  -- two indices of one window, less than `N` apart, differ
  have h1 : rp + k ≡ rp + n [MOD N] := he
  have h2 := Nat.ModEq.add_left_cancel' rp h1
  have h3 := Nat.ModEq.eq_of_lt_of_lt h2 (by omega) h
  omega

end Cyclic

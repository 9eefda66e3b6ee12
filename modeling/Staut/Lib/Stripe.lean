import Staut.Lib.CSem
import Mathlib.Logic.Function.Basic

/-!
# Striping

A linear memory laid out in units of `u` bytes, round robin over `n` devices. `locate n u a` is the
device and the address on it of byte `a`; `view n u d` is the linear memory that the devices `d`
hold. A run of bytes inside one unit is a run of bytes on its device, so loads (`load_view`) and
stores (`view_store`) of such runs can be made on the device.
-/

set_option autoImplicit false

namespace Stripe

open CSem

/-- The device of byte `a` and its address there. -/
def locate (n u a : Nat) : Nat × Nat := (a / u % n, a / u / n * u + a % u)

/-- The memory that the devices hold together. -/
def view {α : Type} (n u : Nat) (d : Nat → Nat → α) (a : Nat) : α :=
  d (locate n u a).1 (locate n u a).2

variable {n u : Nat}

theorem locate_inj (hu : 0 < u) {a b : Nat} (h : locate n u a = locate n u b) : a = b := by
  obtain ⟨h1, h2⟩ := Prod.mk.inj h
  have hdiv : ∀ x, (x / u / n * u + x % u) / u = x / u / n := fun x => by
    rw [Nat.add_comm, Nat.add_mul_div_right _ _ hu, Nat.div_eq_of_lt (Nat.mod_lt _ hu),
      Nat.zero_add]
  have hmod : ∀ x, (x / u / n * u + x % u) % u = x % u := fun x => by
    rw [Nat.add_comm, Nat.add_mul_mod_self_right, Nat.mod_mod]
  have h3 : a / u / n = b / u / n := by rw [← hdiv a, h2, hdiv b]
  have h4 : a % u = b % u := by rw [← hmod a, h2, hmod b]
  have h5 : a / u = b / u := by rw [← Nat.div_add_mod (a / u) n, h3, h1, Nat.div_add_mod]
  rw [← Nat.div_add_mod a u, h5, h4, Nat.div_add_mod]

/-- Inside a unit, addresses advance together. -/
theorem locate_add {a k : Nat} (h : a % u + k < u) :
    locate n u (a + k) = ((locate n u a).1, (locate n u a).2 + k) := by
  have hu : 0 < u := Nat.lt_of_le_of_lt (Nat.zero_le _) h
  have hd : (a + k) / u = a / u := by
    rw [← Nat.div_add_mod a u, Nat.add_assoc, Nat.mul_add_div hu, Nat.mul_add_div hu,
      Nat.div_eq_of_lt h, Nat.div_eq_of_lt (Nat.mod_lt _ hu)]
  have hm : (a + k) % u = a % u + k := by
    rw [← Nat.div_add_mod a u, Nat.add_assoc, Nat.mul_add_mod, Nat.mod_eq_of_lt h, Nat.mul_add_mod,
      Nat.mod_mod]
  simp only [locate, hd, hm, Nat.add_assoc]

theorem view_add {α : Type} (d : Nat → Nat → α) {a k : Nat} (h : a % u + k < u) :
    view n u d (a + k) = d (locate n u a).1 ((locate n u a).2 + k) := by
  unfold view
  rw [locate_add h]

/-- A load inside a unit. -/
theorem load_view (d : Nat → Nat → UInt8) {a k : Nat} (h : a % u + k ≤ u) :
    load (d (locate n u a).1) (locate n u a).2 k = load (view n u d) a k :=
  List.map_congr_left fun i hi => (view_add d (by have := List.mem_range.1 hi; omega)).symm

/-- A store inside a unit. -/
theorem view_store (hu : 0 < u) (d : Nat → Nat → UInt8) {a : Nat} {bs : List UInt8}
    (h : a % u + bs.length ≤ u) :
    view n u (Function.update d (locate n u a).1
      (store (d (locate n u a).1) (locate n u a).2 bs)) = store (view n u d) a bs := by
  funext x
  by_cases hx : a ≤ x ∧ x < a + bs.length
  · obtain ⟨k, rfl⟩ := Nat.exists_eq_add_of_le hx.1
    have hk : k < bs.length := by omega
    rw [view_add _ (by omega), store_inside hk, Function.update_self, store_inside hk]
  · rw [store_outside (by omega)]
    unfold view
    by_cases hd : (locate n u x).1 = (locate n u a).1
    · rw [hd, Function.update_self]
      refine store_outside ?_
      -- an address of the run on the device is one of the run
      apply Classical.byContradiction
      intro hin
      have hk : (locate n u x).2 = (locate n u a).2 + ((locate n u x).2 - (locate n u a).2) := by
        omega
      have he : locate n u x = locate n u (a + ((locate n u x).2 - (locate n u a).2)) := by
        rw [locate_add (by omega), ← hk, ← hd]
      have := locate_inj hu he
      omega
    · rw [Function.update_of_ne hd]

end Stripe

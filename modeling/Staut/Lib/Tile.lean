import Mathlib.Data.Set.Lattice
import Mathlib.Data.List.Pairwise
import Mathlib.Data.Nat.ModEq
import Mathlib.Order.CompletePartialOrder

/-!
# Consecutive ranges modulo `N`

`arc N p n` is the set of the residues of the `n` numbers from `p` on. Arcs that follow each other
are disjoint and make up one arc, as long as their lengths do not exceed `N` (`Tiled.snoc`); a set
that meets what is covered already does not go with the others (`Tiled.not_snoc`).
-/

set_option autoImplicit false

namespace Tile

def arc (N p n : Nat) : Set Nat := {o | ∃ x < n, o = (p + x) % N}

/-- The sets are disjoint, and together they are an arc of length `n`. -/
structure Tiled (N p n : Nat) (rs : List (Set Nat)) : Prop where
  disjoint : rs.Pairwise Disjoint
  union : ∀ o, (∃ r ∈ rs, o ∈ r) ↔ o ∈ arc N p n

variable {N p n : Nat} {rs : List (Set Nat)}

theorem Tiled.nil : Tiled N p 0 [] := by
  refine ⟨.nil, fun o => ?_⟩
  simp [arc]

theorem add_mod_inj {a b : Nat} (ha : a < N) (hb : b < N) (h : (p + a) % N = (p + b) % N) : a =
    b := by
  have hmod : a % N = b % N := Nat.ModEq.add_left_cancel' p h
  rwa [Nat.mod_eq_of_lt ha, Nat.mod_eq_of_lt hb] at hmod

theorem arc_add (N p n k : Nat) : arc N p (n + k) = arc N p n ∪ arc N (p + n) k := by
  ext o
  constructor
  · rintro ⟨x, hx, rfl⟩
    rcases Nat.lt_or_ge x n with hlt | hge
    · exact .inl ⟨x, hlt, rfl⟩
    · exact .inr ⟨x - n, by omega, by rw [Nat.add_assoc, Nat.add_sub_cancel' hge]⟩
  · rintro (⟨x, hx, rfl⟩ | ⟨x, hx, rfl⟩)
    · exact ⟨x, by omega, rfl⟩
    · exact ⟨n + x, by omega, by rw [Nat.add_assoc]⟩

/-- The next arc. -/
theorem Tiled.snoc (h : Tiled N p n rs) {k : Nat} (hN : n + k ≤ N) :
    Tiled N p (n + k) (rs ++ [arc N (p + n) k]) := by
  refine ⟨List.pairwise_append.2 ⟨h.disjoint, List.pairwise_singleton _ _, ?_⟩, fun o => ?_⟩
  · intro r hr s hs
    rw [List.mem_singleton.1 hs, Set.disjoint_left]
    rintro o ho ⟨y, hy, rfl⟩
    obtain ⟨x, hx, he⟩ := (h.union _).1 ⟨r, hr, ho⟩
    rw [Nat.add_assoc] at he
    have := add_mod_inj (by omega) (by omega) he
    omega
  · rw [arc_add, Set.mem_union, ← h.union]
    simp [or_and_right, exists_or]

/-- An empty arc, wherever it is. -/
theorem Tiled.snoc_empty (h : Tiled N p n rs) : Tiled N p n (rs ++ [∅]) := by
  refine ⟨List.pairwise_append.2 ⟨h.disjoint, List.pairwise_singleton _ _, ?_⟩, fun o => ?_⟩
  · intro r _ s hs
    rw [List.mem_singleton.1 hs]
    exact Set.disjoint_empty r
  · rw [← h.union]
    simp [or_and_right, exists_or]

theorem Tiled.not_snoc (h : Tiled N p n rs) {r : Set Nat} {x : Nat} (hx : x < n)
    (hr : (p + x) % N ∈ r) (m : Nat) : ¬ Tiled N p m (rs ++ [r]) := by
  intro ht
  obtain ⟨s, hs, ho⟩ := (h.union _).2 ⟨x, hx, rfl⟩
  exact Set.disjoint_left.1
    ((List.pairwise_append.1 ht.disjoint).2.2 s hs r (List.mem_singleton.2 rfl))
    ho hr

end Tile

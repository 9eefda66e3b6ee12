import Mathlib.Data.List.Basic
import Mathlib.Data.List.TakeWhile
import Mathlib.Data.List.Infix

/-!
# Fields between runs of separators

`fields p l` are the parts of `l` between separators, less the empty ones: a run of separators
counts as one. A scanner that goes on by `behind`, to the end of its field and over the separators
that follow, stands at the lists `starts p l` one after the other. They start the fields
(`starts_takeWhile`), unless `l` starts with a separator.
-/

set_option autoImplicit false

namespace Fields

variable {α : Type} (p : α → Bool)

def fields (l : List α) : List (List α) := (l.splitOnP p).filter fun f => !f.isEmpty

/-- Behind the field at the head, and the separators that follow. -/
def behind (l : List α) : List α := (l.dropWhile fun a => !p a).dropWhile p

variable {p}

theorem behind_suffix (l : List α) : behind p l <:+ l :=
  (List.dropWhile_suffix p).trans (List.dropWhile_suffix _)

/-- A scanner goes on by at least one element. -/
theorem behind_lt (a : α) (l : List α) : (behind p (a :: l)).length < (a :: l).length := by
  unfold behind
  cases ha : p a with
  | true =>
    rw [List.dropWhile_cons_of_neg (by simp [ha]), List.dropWhile_cons_of_pos ha]
    exact Nat.lt_succ_of_le (List.dropWhile_suffix p).length_le
  | false =>
    rw [List.dropWhile_cons_of_pos (by simp [ha])]
    exact Nat.lt_succ_of_le (behind_suffix l).length_le

/-- The lists at which a scanner stands. -/
def starts (p : α → Bool) : List α → List (List α)
  | [] => []
  | a :: l => (a :: l) :: starts p (behind p (a :: l))
termination_by l => l.length
decreasing_by exact behind_lt a l

@[simp] theorem starts_nil : starts p [] = [] := by rw [starts]

theorem starts_cons (a : α) (l : List α) :
    starts p (a :: l) = (a :: l) :: starts p (behind p (a :: l)) := by rw [starts]

@[simp] theorem fields_nil : fields p [] = [] := by simp [fields]

theorem fields_sep {a : α} (ha : p a = true) (l : List α) : fields p (a :: l) = fields p l := by
  simp [fields, List.splitOnP_cons_eq_if_modifyHead, ha]

theorem fields_dropWhile (l : List α) : fields p (l.dropWhile p) = fields p l := by
  induction l with
  | nil => rfl
  | cons a l ih =>
    cases ha : p a with
    | true => rw [List.dropWhile_cons_of_pos ha, ih, fields_sep ha]
    | false => rw [List.dropWhile_cons_of_neg (by simp [ha])]

/-- The field at the head. -/
theorem fields_cons {a : α} (ha : p a = false) (l : List α) :
    fields p (a :: l) = (a :: l).takeWhile (fun a => !p a) :: fields p (behind p (a :: l)) := by
  have hall : ∀ x ∈ (a :: l).takeWhile (fun a => !p a), p x = false := by
    intro x hx
    simpa using List.mem_takeWhile_imp hx
  have hne : ((a :: l).takeWhile fun a => !p a).isEmpty = false := by simp [ha]
  have happ := List.takeWhile_append_dropWhile (p := fun a => !p a) (l := a :: l)
  have hsplit : ∀ rest, (a :: l).dropWhile (fun a => !p a) = rest →
      fields p (a :: l) = (a :: l).takeWhile (fun a => !p a) :: fields p (rest.dropWhile p) := by
    intro rest hrest
    rw [hrest] at happ
    cases rest with
    | nil =>
      rw [List.append_nil] at happ
      rw [happ] at hall ⊢
      rw [fields, List.splitOnP_eq_singleton hall]
      simp
    | cons b rest =>
      have hb : p b = true := by
        have hh := List.head?_dropWhile_not (fun a => !p a) (a :: l)
        rw [hrest] at hh
        simpa using hh
      rw [fields_dropWhile, fields_sep hb, fields, ← happ,
        List.splitOnP_append_cons_of_forall_mem hall b hb, happ]
      simp [fields, hne]
  exact hsplit _ rfl

theorem fields_head (l : List α) : ∀ a ∈ (l.dropWhile p).head?, p a = false := by
  intro a ha
  have hh := List.head?_dropWhile_not p l
  rw [Option.mem_def.1 ha] at hh
  simpa using hh

theorem starts_takeWhile {l : List α} (h : ∀ a ∈ l.head?, p a = false) :
    (starts p l).map (List.takeWhile fun a => !p a) = fields p l := by
  induction hn : l.length using Nat.strong_induction_on generalizing l with
  | h n ih =>
    cases l with
    | nil => simp
    | cons a l =>
      have ha : p a = false := h a rfl
      rw [starts_cons, List.map_cons, fields_cons ha]
      congr 1
      exact ih _ (hn ▸ behind_lt a l) (fields_head _) rfl

/-- There is no separator in a field. -/
theorem sep_not_mem {l f : List α} (hf : f ∈ fields p l) : ∀ a ∈ f, p a = false := by
  rw [← fields_dropWhile, ← starts_takeWhile (fields_head l)] at hf
  obtain ⟨w, -, rfl⟩ := List.mem_map.1 hf
  intro a ha
  simpa using List.mem_takeWhile_imp ha

theorem starts_suffix {l w : List α} (hw : w ∈ starts p l) : w <:+ l := by
  induction hn : l.length using Nat.strong_induction_on generalizing l with
  | h n ih =>
    cases l with
    | nil => simp at hw
    | cons a l =>
      rw [starts_cons, List.mem_cons] at hw
      rcases hw with hw | hw
      · rw [hw]
      · exact (ih _ (hn ▸ behind_lt a l) hw rfl).trans (behind_suffix _)

end Fields

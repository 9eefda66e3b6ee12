import Mathlib.Logic.Relation
import Mathlib.Logic.Function.Basic
import Mathlib.Data.List.Perm.Basic

/-!
# Runs of a labelled transition system

`T.ReachIf C s`: the state `s` is reached by a run of `T` every step of which meets the condition
`C` (on the state before the step and the label). `T.Reach` is the unconditional case. A safety
property is proved by `ReachIf.induct`: it holds initially and every step that meets `C` keeps it.
One run is computed by `exec`.

`T.Steps s s'` is a run from `s` to `s'`; `Steps.of_wf` finds one to a goal, by a step that goes
down in a well-founded order.

`Evt f Q s`: iterating the deterministic step `f` from `s` comes to a state in `Q` (total
correctness). `Evt.of_wf` proves it from an invariant and a step that goes down in a well-founded
order; `Evt.keep` adds an invariant to what is known at the end, and refutes it for a run that keeps
out of `Q` (`Evt.never`).

`perm_eraseIdx`: a step that takes what it works on out of a list.
-/

set_option autoImplicit false

namespace Run

/-- A labelled transition system. -/
structure LTS (σ α : Type) where
  init : σ → Prop
  step : σ → α → σ → Prop

section
variable {σ α : Type}

/-- The states of the runs whose steps all meet `C`. -/
inductive LTS.ReachIf (T : LTS σ α) (C : σ → α → Prop) : σ → Prop
  | init {s : σ} : T.init s → ReachIf T C s
  | step {s s' : σ} {a : α} : ReachIf T C s → C s a → T.step s a s' → ReachIf T C s'

/-- The states of all runs. -/
def LTS.Reach (T : LTS σ α) : σ → Prop := T.ReachIf fun _ _ => True

/-- A run from one state to another. -/
def LTS.Steps (T : LTS σ α) : σ → σ → Prop := Relation.ReflTransGen fun s s' => ∃ a, T.step s a s'

variable {T : LTS σ α} {C C' : σ → α → Prop} {P : σ → Prop}

namespace LTS.ReachIf

theorem induct (h0 : ∀ s, T.init s → P s)
    (hs : ∀ s a s', P s → C s a → T.step s a s' → P s') {s : σ} (h : T.ReachIf C s) : P s := by
  induction h with
  | init hi => exact h0 _ hi
  | step _ hc ht ih => exact hs _ _ _ ih hc ht

theorem mono (hC : ∀ s a, C s a → C' s a) {s : σ} (h : T.ReachIf C s) : T.ReachIf C' s := by
  induction h with
  | init hi => exact .init hi
  | step _ hc ht ih => exact .step ih (hC _ _ hc) ht

theorem reach {s : σ} (h : T.ReachIf C s) : T.Reach s := h.mono fun _ _ _ => trivial

end LTS.ReachIf

/-- The run of a step function on given labels. -/
def exec (f : σ → α → Option σ) (s : σ) : List α → Option σ
  | [] => some s
  | a :: as => (f s a).bind fun s' => exec f s' as

/-- The state behind such a run, or the one it began in if it gets stuck. -/
def runs (f : σ → α → Option σ) (s : σ) (l : List α) : σ := (exec f s l).getD s

section
variable {β : Type} {g : β → α} {f : σ → β → Option σ}
  (hf : ∀ s b s', f s b = some s' → C s (g b) ∧ T.step s (g b) s')
include hf

theorem LTS.ReachIf.exec {s s' : σ} {l : List β} (h : T.ReachIf C s) (he : exec f s l = some s') :
    T.ReachIf C s' := by
  induction l generalizing s with
  | nil =>
    cases he
    exact h
  | cons b l ih =>
    obtain ⟨s1, hs1, he'⟩ := Option.bind_eq_some_iff.1 he
    obtain ⟨hc, ht⟩ := hf _ _ _ hs1
    exact ih (h.step hc ht) he'

theorem LTS.ReachIf.runs {s : σ} (h : T.ReachIf C s) (l : List β) : T.ReachIf C (runs f s l) := by
  unfold Run.runs
  cases he : Run.exec f s l with
  | none => exact h
  | some s' => exact h.exec hf he

end

theorem LTS.Reach.steps {s s' : σ} (h : T.Reach s) (hs : T.Steps s s') : T.Reach s' := by
  induction hs with
  | refl => exact h
  | tail _ ht ih =>
    obtain ⟨a, ht⟩ := ht
    exact ih.step trivial ht

/-- A run to `Q`, when some step goes down as long as `Q` is not reached. -/
theorem LTS.Steps.of_wf {r : σ → σ → Prop} (hr : WellFounded r) {Q : σ → Prop}
    (h : ∀ s, P s → Q s ∨ ∃ a s', T.step s a s' ∧ P s' ∧ r s' s) {s : σ} (hs : P s) :
    ∃ s', T.Steps s s' ∧ Q s' := by
  induction s using hr.induction with
  | h s ih =>
    rcases h s hs with hq | ⟨a, s', ht, hp, hlt⟩
    · exact ⟨s, .refl, hq⟩
    · obtain ⟨t, hst, hq⟩ := ih s' hlt hp
      exact ⟨t, .head ⟨a, ht⟩ hst, hq⟩

end

/-! ## Deterministic runs -/

section
variable {σ : Type} {f : σ → Option σ} {Q Q' : σ → Prop}

/-- Iterating `f` from `s` comes to a state in `Q`. -/
inductive Evt (f : σ → Option σ) (Q : σ → Prop) : σ → Prop
  | here {s : σ} : Q s → Evt f Q s
  | next {s s' : σ} : f s = some s' → Evt f Q s' → Evt f Q s

theorem Evt.mono {s : σ} (h : Evt f Q s) (hq : ∀ s, Q s → Q' s) : Evt f Q' s := by
  induction h with
  | here h => exact .here (hq _ h)
  | next hs _ ih => exact .next hs ih

/-- The state that the run comes to. -/
theorem Evt.final {s : σ} (h : Evt f Q s) : ∃ t, Q t ∧ Evt f (· = t) s := by
  induction h with
  | here h => exact ⟨_, h, .here rfl⟩
  | next hs _ ih =>
    obtain ⟨t, hq, he⟩ := ih
    exact ⟨t, hq, .next hs he⟩

/-- A step that goes down while `Q` is not reached. -/
theorem Evt.of_wf {r : σ → σ → Prop} (hr : WellFounded r) {I : σ → Prop}
    (h : ∀ s, I s → Q s ∨ ∃ s', f s = some s' ∧ I s' ∧ r s' s) {s : σ} (hs : I s) : Evt f Q s := by
  induction s using hr.induction with
  | h s ih =>
    rcases h s hs with hq | ⟨s', hf, hi, hlt⟩
    · exact .here hq
    · exact .next hf (ih s' hlt hi)

/-- What every step keeps holds at the end. -/
theorem Evt.keep {I : σ → Prop} (h : ∀ s s', I s → f s = some s' → I s') {s : σ} (he : Evt f Q s)
    (hs : I s) : Evt f (fun s => I s ∧ Q s) s := by
  induction he with
  | here hq => exact .here ⟨hs, hq⟩
  | next hf _ ih => exact .next hf (ih (h _ _ hs hf))

/-- What every step keeps, and keeps out of `Q`. -/
theorem Evt.never {I : σ → Prop} (h : ∀ s s', I s → f s = some s' → I s') (hq : ∀ s, I s → ¬ Q s)
    {s : σ} (hs : I s) : ¬ Evt f Q s := fun he => by
  obtain ⟨t, ⟨hi, ht⟩, -⟩ := (he.keep h hs).final
  exact hq t hi ht

theorem Evt.tail {s s' : σ} (hf : f s = some s') (hq : ¬ Q s) (he : Evt f Q s) : Evt f Q s' := by
  cases he with
  | here h => exact absurd h hq
  | next hf' he =>
    rw [hf] at hf'
    cases hf'
    exact he

end

/-- What is in progress, with one of its entries taken out. -/
theorem perm_eraseIdx {α : Type} {l : List α} {i : Nat} {a : α} (h : l[i]? = some a) :
    (a :: l.eraseIdx i).Perm l := by
  obtain ⟨hi, rfl⟩ := List.getElem?_eq_some_iff.1 h
  exact List.getElem_cons_eraseIdx_perm hi

end Run

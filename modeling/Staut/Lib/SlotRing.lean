import Mathlib.Data.Set.Insert
import Staut.Lib.Cyclic

/-!
# A ring of slots between concurrent producers and consumers

A producer reserves a position and fills its slot in a later step; a consumer takes a position and
loads its slot in a later step. Positions count up without end, and position `p` is in slot `p % N`.

`Ok N v` is what holds as long as no position is loaded before it is filled and no slot is filled
before it is loaded in the rounds before: a slot then holds what was filled in for its position
until that is loaded (`Ok.load_eq`). There is one lemma for each of the four steps.

The positions taken and reserved are those that threads have (`positions`): a step of one thread
adds one, gives one up or leaves them alone.
-/

set_option autoImplicit false

namespace SlotRing

open Cyclic

variable {α : Type}

/-- The slots, the positions taken and reserved so far, those of them that are not loaded or not
filled yet, and what was filled in. -/
structure View (α : Type) where
  slot : Nat → α
  popped : Nat
  pushed : Nat
  taken : Set Nat
  reserved : Set Nat
  filled : Nat → Option α

/-- Positions that are still to be loaded. -/
def View.Unloaded (v : View α) (p : Nat) : Prop := v.popped ≤ p ∧ p < v.pushed ∨ p ∈ v.taken

structure Ok (N : Nat) (v : View α) : Prop where
  le : v.popped ≤ v.pushed
  room : v.pushed ≤ v.popped + N
  taken_lt : ∀ p ∈ v.taken, p < v.popped
  filled_lt : ∀ p, v.filled p ≠ none → p < v.pushed
  filled_none : ∀ p ∈ v.reserved, v.filled p = none
  filled_some : ∀ p, v.Unloaded p → p ∉ v.reserved → v.filled p ≠ none
  unloaded : ∀ p ∈ v.reserved, v.Unloaded p
  round : ∀ p ∈ v.taken, ∀ p', v.filled p' ≠ none → p' % N = p % N → p' ≤ p
  slot : ∀ p b, v.Unloaded p → v.filled p = some b → v.slot (p % N) = b

section
variable {N : Nat} {v v' : View α} {p q : Nat} {b : α}

theorem Ok.unloaded_lt (h : Ok N v) (hp : v.Unloaded p) : p < v.pushed := by
  rcases hp with hp | hp
  · exact hp.2
  · exact (h.taken_lt p hp).trans_le h.le

/-- What a consumer loads is what was filled in for its position. -/
theorem Ok.load_eq (h : Ok N v) (hp : p ∈ v.taken) (hr : p ∉ v.reserved) :
    v.filled p = some (v.slot (p % N)) := by
  have hu : v.Unloaded p := .inr hp
  obtain ⟨b, hb⟩ := Option.ne_none_iff_exists'.1 (h.filled_some p hu hr)
  rw [hb, h.slot p b hu hb]

/-! ## The four steps -/

def View.take (v : View α) : View α :=
  { v with popped := v.popped + 1, taken := insert v.popped v.taken }

def View.load (v : View α) (p : Nat) : View α := { v with taken := v.taken \ {p} }

def View.reserve (v : View α) : View α :=
  { v with pushed := v.pushed + 1, reserved := insert v.pushed v.reserved }

def View.fill (v : View α) (N q : Nat) (b : α) : View α :=
  { v with
    slot := Function.update v.slot (q % N) b
    reserved := v.reserved \ {q}
    filled := Function.update v.filled q (some b) }

theorem unloaded_take (hlt : v.popped < v.pushed) : v.take.Unloaded p ↔ v.Unloaded p := by
  simp only [View.Unloaded, View.take, Set.mem_insert_iff]
  constructor
  · rintro (hp | rfl | hp)
    · exact .inl ⟨by omega, hp.2⟩
    · exact .inl ⟨le_refl _, hlt⟩
    · exact .inr hp
  · rintro (hp | hp)
    · by_cases heq : p = v.popped
      · exact .inr (.inl heq)
      · exact .inl ⟨by omega, hp.2⟩
    · exact .inr (.inr hp)

theorem Ok.unloaded_load (h : Ok N v) (hp : p ∈ v.taken) (hq : (v.load p).Unloaded q) :
    v.Unloaded q ∧ q ≠ p := by
  rcases hq with hq | hq
  · refine ⟨.inl hq, ?_⟩
    rintro rfl
    exact absurd (h.taken_lt q hp) (Nat.not_lt.2 hq.1)
  · exact ⟨.inr hq.1, hq.2⟩

theorem unloaded_reserve (hp : v.reserve.Unloaded p) : p = v.pushed ∨ v.Unloaded p := by
  rcases hp with hp | hp
  · rcases Nat.lt_succ_iff_lt_or_eq.1 hp.2 with hlt | heq
    · exact .inr (.inl ⟨hp.1, hlt⟩)
    · exact .inl heq
  · exact .inr (.inr hp)

theorem Ok.filled_pushed (h : Ok N v) : v.filled v.pushed = none := by
  by_contra hne
  exact lt_irrefl _ (h.filled_lt _ hne)

theorem Ok.take (h : Ok N v) (hlt : v.popped < v.pushed) : Ok N v.take := by
  have hu := fun p => unloaded_take (p := p) hlt
  refine ⟨hlt, h.room.trans (by simp only [View.take]; omega), ?_, h.filled_lt, h.filled_none,
    ?_, ?_, ?_, ?_⟩
  · rintro p (rfl | hp)
    · exact Nat.lt_succ_self _
    · exact Nat.lt_succ_of_lt (h.taken_lt p hp)
  · exact fun p hp => h.filled_some p ((hu p).1 hp)
  · exact fun p hp => (hu p).2 (h.unloaded p hp)
  · rintro p (rfl | hp) p' hf hmod
    · have hp' := h.filled_lt p' hf
      have hroom := h.room
      by_contra hlt'
      have := eq_of_mod_eq hmod (by omega) (by omega)
      omega
    · exact h.round p hp p' hf hmod
  · exact fun p b hp => h.slot p b ((hu p).1 hp)

theorem Ok.load (h : Ok N v) (hp : p ∈ v.taken) (hr : p ∉ v.reserved) : Ok N (v.load p) := by
  have hu : ∀ q, (v.load p).Unloaded q → v.Unloaded q := fun q hq => (h.unloaded_load hp hq).1
  refine ⟨h.le, h.room, fun q hq => h.taken_lt q hq.1, h.filled_lt, h.filled_none, ?_, ?_, ?_, ?_⟩
  · exact fun q hq => h.filled_some q (hu q hq)
  · intro q hq
    refine (h.unloaded q hq).imp_right fun ht => ⟨ht, ?_⟩
    rintro rfl
    exact hr hq
  · exact fun q hq => h.round q hq.1
  · exact fun q b hq => h.slot q b (hu q hq)

theorem Ok.reserve (h : Ok N v) (hlt : v.pushed < v.popped + N) : Ok N v.reserve := by
  have hnone := h.filled_pushed
  refine ⟨Nat.le_succ_of_le h.le, hlt, h.taken_lt, fun p hp => Nat.lt_succ_of_lt (h.filled_lt p hp),
    ?_, ?_, ?_, h.round, ?_⟩
  · rintro p (rfl | hp)
    · exact hnone
    · exact h.filled_none p hp
  · intro p hp hr
    rw [View.reserve, Set.mem_insert_iff, not_or] at hr
    exact h.filled_some p ((unloaded_reserve hp).resolve_left hr.1) hr.2
  · rintro p (rfl | hp)
    · exact .inl ⟨h.le, Nat.lt_succ_self _⟩
    · exact (h.unloaded p hp).imp_left fun hw => ⟨hw.1, Nat.lt_succ_of_lt hw.2⟩
  · intro p b hp hb
    refine h.slot p b ((unloaded_reserve hp).resolve_left ?_) hb
    rintro rfl
    simp [View.reserve, hnone] at hb

/-- No other position that is filled and not loaded is in the slot of a reserved one. -/
theorem Ok.slot_ne (h : Ok N v) (hq : q ∈ v.reserved)
    (hord : ∀ p ∈ v.taken, p % N = q % N → q ≤ p) (hp : v.Unloaded p) (hf : v.filled p ≠ none) :
    p % N ≠ q % N := by
  intro hmod
  have hne : p ≠ q := by
    rintro rfl
    exact hf (h.filled_none p hq)
  have hple := h.unloaded_lt hp
  have hqle := h.unloaded_lt (h.unloaded q hq)
  have hroom := h.room
  rcases h.unloaded q hq with hqw | hqt
  · rcases hp with hpw | hpt
    · exact hne (eq_of_mod_eq hmod (by omega) (by omega))
    · have := hord p hpt hmod
      have := h.taken_lt p hpt
      omega
  · -- `q` is taken: everything filled in its slot is of a round before, and so is not `p`
    have hpq := h.round q hqt p hf hmod
    rcases hp with hpw | hpt
    · have := h.taken_lt q hqt
      omega
    · have := hord p hpt hmod
      omega

theorem Ok.fill (h : Ok N v) (hq : q ∈ v.reserved) (hord : ∀ p ∈ v.taken, p % N = q % N → q ≤ p) :
    Ok N (v.fill N q b) := by
  refine ⟨h.le, h.room, h.taken_lt, ?_, ?_, ?_, fun p hp => h.unloaded p hp.1, ?_, ?_⟩
  · intro p hp
    by_cases hpq : p = q
    · rw [hpq]
      exact h.unloaded_lt (h.unloaded q hq)
    · exact h.filled_lt p (by simpa [View.fill, hpq] using hp)
  · intro p hp
    have hpq : p ≠ q := hp.2
    simpa [View.fill, hpq] using h.filled_none p hp.1
  · intro p hp hr
    by_cases hpq : p = q
    · simp [View.fill, hpq]
    · have hr' : p ∉ v.reserved := fun hm => hr ⟨hm, hpq⟩
      simpa [View.fill, hpq] using h.filled_some p hp hr'
  · intro p hp p' hf hmod
    by_cases hpq : p' = q
    · rw [hpq] at hmod ⊢
      exact hord p hp hmod.symm
    · exact h.round p hp p' (by simpa [View.fill, hpq] using hf) hmod
  · intro p c hp hc
    by_cases hpq : p = q
    · simp only [View.fill, hpq, Function.update_self, Option.some.injEq] at hc
      simp [View.fill, hpq, hc]
    · have hc' : v.filled p = some c := by simpa [View.fill, hpq] using hc
      have hne := h.slot_ne hq hord hp (by simp [hc'])
      simpa [View.fill, hne] using h.slot p c hp hc'

end

/-! ## The positions that threads have -/

section
variable {π : Type} {g : π → Option Nat} {pcs : Nat → π} {pc : π} {t p : Nat}

/-- The positions that the threads have, `g` being the one that comes with a place in their code. -/
def positions (g : π → Option Nat) (pcs : Nat → π) : Set Nat := fun p => ∃ t, g (pcs t) = some p

/-- No two threads have the same position. -/
def Unique (g : π → Option Nat) (pcs : Nat → π) : Prop :=
  ∀ i j p, g (pcs i) = some p → g (pcs j) = some p → i = j

theorem mem_positions : p ∈ positions g pcs ↔ ∃ i, g (pcs i) = some p := Iff.rfl

/-- One of the threads gets a position. -/
theorem positions_insert (hg : g (pcs t) = none) (hp : g pc = some p) :
    positions g (Function.update pcs t pc) = insert p (positions g pcs) := by
  ext p'
  rw [Set.mem_insert_iff, mem_positions, mem_positions]
  constructor
  · intro ⟨i, hi⟩
    by_cases hit : i = t
    · rw [hit, Function.update_self, hp] at hi
      exact .inl (Option.some.inj hi).symm
    · rw [Function.update_of_ne hit] at hi
      exact .inr ⟨i, hi⟩
  · intro hm
    rcases hm with hm | ⟨i, hi⟩
    · exact ⟨t, by rw [Function.update_self, hp, hm]⟩
    · refine ⟨i, ?_⟩
      rwa [Function.update_of_ne]
      intro hit
      rw [hit, hg] at hi
      cases hi

/-- One of the threads gives its position up. -/
theorem positions_remove (hu : Unique g pcs) (hg : g (pcs t) = some p) (hp : g pc = none) :
    positions g (Function.update pcs t pc) = positions g pcs \ {p} := by
  ext p'
  rw [Set.mem_sdiff, Set.mem_singleton_iff, mem_positions, mem_positions]
  constructor
  · intro ⟨i, hi⟩
    by_cases hit : i = t
    · rw [hit, Function.update_self, hp] at hi
      cases hi
    · rw [Function.update_of_ne hit] at hi
      refine ⟨⟨i, hi⟩, fun hpp => hit ?_⟩
      rw [hpp] at hi
      exact hu i t p hi hg
  · intro ⟨⟨i, hi⟩, hne⟩
    refine ⟨i, ?_⟩
    rwa [Function.update_of_ne]
    intro hit
    rw [hit, hg] at hi
    exact hne (Option.some.inj hi).symm

theorem positions_same (hg : g pc = g (pcs t)) :
    positions g (Function.update pcs t pc) = positions g pcs := by
  have hsame : ∀ i, g (Function.update pcs t pc i) = g (pcs i) := by
    intro i
    by_cases hit : i = t
    · rw [hit, Function.update_self, hg]
    · rw [Function.update_of_ne hit]
  ext p'
  rw [mem_positions, mem_positions]
  simp only [hsame]

theorem positions_none (hg : ∀ i, g (pcs i) = none) (p : Nat) : p ∉ positions g pcs := by
  intro ⟨i, hi⟩
  rw [hg i] at hi
  cases hi

/-- Positions stay with one thread when another one gets a position that nobody has. -/
theorem Unique.update (h : Unique g pcs)
    (hpc : ∀ p, g pc = some p → ∀ i, i ≠ t → g (pcs i) ≠ some p) :
    Unique g (Function.update pcs t pc) := by
  intro i j p hi hj
  rw [Function.update_apply] at hi hj
  split at hi
  · rename_i hit
    split at hj
    · rename_i hjt
      rw [hit, hjt]
    · rename_i hjt
      exact absurd hj (hpc p hi j hjt)
  · rename_i hit
    split at hj
    · exact absurd hi (hpc p hj i hit)
    · exact h i j p hi hj

end

end SlotRing

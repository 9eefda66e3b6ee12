import Staut.Abt.WaitQueue
import Staut.Abt.Proof.Waitlist
import Staut.Lib.Exclusive

/-!
# What the threads know of a lock and its list of waiters

`WaitQueue.Ok q place`: each thread's place says whether it has the lock, and the list holds exactly
those that have entered it and are not ready. Each operation has one lemma; `Waits` is what the
users of the list reason about.
-/

set_option autoImplicit false

namespace Abt

/-- Where a thread is, as far as the queue matters: elsewhere, with the lock, or in the wait. -/
inductive Place
  | out
  | inside
  | wait (l : Sleep)

namespace Place

def locked : Place → Bool
  | inside | wait .enter | wait .check => true
  | _ => false

def listed : Place → Bool
  | wait .suspended | wait .check | wait .quick | wait .again => true
  | _ => false

/-- The place after a step of the wait. -/
def after : Option Sleep → Place
  | none => out
  | some l => wait l

end Place

namespace WaitQueue

/-- `t` is in the list. -/
def Waits (q : WaitQueue) (place : Nat → Place) (t : Nat) : Prop :=
  (place t).listed = true ∧ q.isReady t = false

structure Ok (q : WaitQueue) (place : Nat → Place) : Prop where
  lock : ∀ t, (place t).locked = true ↔ q.lock = some t
  list : ∃ l, q.wl.Holds (fun _ => False) l ∧ ∀ t, t ∈ l ↔ q.Waits place t

variable {q q' : WaitQueue} {place : Nat → Place} {t u : Nat} {p : Place}

theorem ok_init (hl : q.lock = none) (hh : q.wl.head = none) (ht : q.wl.tail = none)
    (hp : ∀ t, place t = .out) :
    q.Ok place := by
  refine ⟨fun t => ?_, [], ⟨List.nodup_nil, hh, ht, .nil⟩, fun t => ?_⟩
  · rw [hp, hl]
    exact ⟨fun h => (by cases h), fun h => (by cases h)⟩
  · simp [Waits, hp, Place.listed]

theorem waits_congr (hwl : q'.wl = q.wl) (h : u ≠ t) :
    q'.Waits (Function.update place t p) u ↔ q.Waits place u := by
  unfold Waits isReady
  rw [Function.update_of_ne h, hwl]

/-- A step that does not change the list. -/
theorem Ok.move (h : q.Ok place) (hwl : q'.wl = q.wl)
    (hlock : q'.lock = if p.locked then some t else if (place t).locked then none else q.lock)
    (hfree : p.locked = true → (place t).locked = true ∨ q.lock = none)
    (hw : q.Waits (Function.update place t p) t ↔ q.Waits place t) :
    q'.Ok (Function.update place t p) := by
  obtain ⟨l, hl, hmem⟩ := h.list
  have hr : q'.isReady = q.isReady := by
    funext u
    unfold isReady
    rw [hwl]
  refine ⟨fun u => hlock ▸ Exclusive.update h.lock hfree u, l, hwl ▸ hl, fun u => ?_⟩
  rw [hmem]
  unfold Waits at *
  rw [hr]
  by_cases hut : u = t
  · subst hut
    exact hw.symm
  · rw [Function.update_of_ne hut]

theorem acquire_some (h : q.acquire t = some q') :
    q.lock = none ∧ q' = { q with lock := some t } := by
  unfold acquire at h
  split at h
  · rename_i hl
    exact ⟨hl, (Option.some.inj h).symm⟩
  · cases h

theorem Ok.acquire (h : q.Ok place) (ht : place t = .out) (ha : q.acquire t = some q') :
    q'.Ok (Function.update place t .inside) := by
  obtain ⟨hl, rfl⟩ := acquire_some ha
  exact h.move rfl rfl (fun _ => .inr hl) (by simp [Waits, ht, Place.listed])

theorem Ok.unlock (h : q.Ok place) (ht : place t = .inside) :
    q.unlock.Ok (Function.update place t .out) :=
  h.move rfl (by rw [ht]; rfl) (fun h => (by cases h)) (by simp [Waits, ht, Place.listed])

/-- A thread that moves where the queue does not see it. -/
theorem Ok.goto (h : q.Ok place) (ht : place t = p) : q.Ok (Function.update place t p) := by
  rw [← ht, Function.update_eq_self]
  exact h

/-- From the lock into the wait. -/
theorem Ok.toWait (h : q.Ok place) (ht : place t = .inside) :
    q.Ok (Function.update place t (.wait .enter)) :=
  h.move rfl ((h.lock t).mp (by rw [ht]; rfl)) (fun _ => .inl (by rw [ht]; rfl))
    (by simp [Waits, ht, Place.listed])

/-- A new waiter. -/
theorem Ok.enter (h : q.Ok place) (ht : place t = .wait .enter) : ∃ wl, q.wl.wait t = some wl ∧
    ({ q with wl }.Ok (Function.update place t (.wait .check)) ∧
      { lock := none, wl : WaitQueue }.Ok (Function.update place t (.wait .suspended))) ∧
    ∀ u, u ≠ t → (wl.mem u).ready = q.isReady u := by
  obtain ⟨l, hl, hmem⟩ := h.list
  have hnot : t ∉ l := fun hm => by
    have hw := ((hmem t).mp hm).1
    rw [ht] at hw
    cases hw
  obtain ⟨wl, he, hh, hr⟩ := Waitlist.wait_spec hl hnot
  have hlist : ∀ (k : Option Nat) (p : Place), p.listed = true → ∃ l,
      wl.Holds (fun _ => False) l ∧ ∀ u, u ∈ l ↔
        ({ lock := k, wl } : WaitQueue).Waits (Function.update place t p) u := by
    intro k p hp
    refine ⟨l ++ [t], hh _ (fun _ _ h => h) (fun h => h), fun u => ?_⟩
    rw [List.mem_append, List.mem_singleton, hmem]
    unfold Waits isReady
    by_cases hut : u = t
    · subst hut
      simp [hr, hp]
    · simp [hr, hut]
  have hlock := (h.lock t).mp (by rw [ht]; rfl)
  refine ⟨wl, he, ⟨⟨fun u => ?_, hlist _ _ rfl⟩, ⟨fun u => ?_, hlist _ _ rfl⟩⟩, fun u hu => ?_⟩
  · by_cases hut : u = t
    · subst hut
      rw [Function.update_self]
      exact iff_of_true rfl hlock
    · rw [Function.update_of_ne hut]
      exact h.lock u
  · refine ⟨fun hu => ?_, fun hu => (by cases hu)⟩
    by_cases hut : u = t
    · subst hut
      rw [Function.update_self] at hu
      cases hu
    · rw [Function.update_of_ne hut, h.lock, hlock] at hu
      exact absurd (Option.some.inj hu).symm hut
  · rw [hr, if_neg hu]
    rfl

/-- A step of the wait succeeds, and changes who waits for the thread alone. -/
theorem Ok.sleep (h : q.Ok place) (ext : Bool) {l : Sleep} (ht : place t = .wait l) :
    ∃ q' o, q.sleep ext t l = some (q', o) ∧ q'.Ok (Function.update place t (.after o)) ∧
      (∀ u, u ≠ t → (q'.Waits (Function.update place t (.after o)) u ↔ q.Waits place u)) ∧
      (l ≠ .enter → q'.Waits (Function.update place t (.after o)) t → q.Waits place t) ∧
      o ≠ some .enter := by
  -- without a new entry in the list
  have hkeep : ∀ (q' : WaitQueue) (o : Option Sleep), q'.wl = q.wl →
      q'.lock = (if (Place.after o).locked then some t else if (place t).locked then none
        else q.lock) → ((Place.after o).locked = true → (place t).locked = true ∨ q.lock = none) →
      (q.Waits (Function.update place t (.after o)) t ↔ q.Waits place t) → o ≠ some .enter →
      q.sleep ext t l = some (q', o) →
      ∃ q' o, q.sleep ext t l = some (q', o) ∧ q'.Ok (Function.update place t (.after o)) ∧
        (∀ u, u ≠ t → (q'.Waits (Function.update place t (.after o)) u ↔ q.Waits place u)) ∧
        (l ≠ .enter → q'.Waits (Function.update place t (.after o)) t → q.Waits place t) ∧
          o ≠ some .enter := by
    intro q' o hwl hlock hfree hw hne he
    refine ⟨q', o, he, h.move hwl hlock hfree hw, fun u hu => waits_congr hwl hu,
      fun _ hq => hw.mp ?_, hne⟩
    unfold Waits isReady at hq ⊢
    rwa [hwl] at hq
  cases l with
  | enter =>
    obtain ⟨wl, he, ⟨h1, h2⟩, hr⟩ := h.enter ht
    cases ext with
    | true =>
      refine ⟨_, some .check, by
        simp [WaitQueue.sleep, he], h1, fun u hu => ?_, fun hn => absurd rfl hn, by decide⟩
      unfold Waits isReady
      rw [Function.update_of_ne hu, hr u hu]
      rfl
    | false =>
      refine ⟨_, some .suspended, by
        simp [WaitQueue.sleep, he], h2, fun u hu => ?_, fun hn => absurd rfl hn, by decide⟩
      unfold Waits isReady
      rw [Function.update_of_ne hu, hr u hu]
      rfl
  | suspended =>
    refine hkeep q (if q.isReady t then none else some .suspended) rfl ?_ ?_ ?_ ?_ rfl <;>
      cases hr : q.isReady t <;>
      simp [Place.after, Place.locked, Place.listed, Waits, ht, hr]
  | check =>
    refine hkeep q.unlock (if q.isReady t then none else some .quick) rfl ?_ ?_ ?_ ?_ rfl <;>
      cases hr : q.isReady t <;> simp [Place.after, Place.locked, Place.listed, Waits, ht, hr,
        WaitQueue.unlock]
  | quick =>
    refine hkeep q (if q.isReady t then none else some .again) rfl ?_ ?_ ?_ ?_ rfl <;>
      cases hr : q.isReady t <;>
      simp [Place.after, Place.locked, Place.listed, Waits, ht, hr]
  | again =>
    cases ha : q.acquire t with
    | none =>
      refine hkeep q (some .again) rfl ?_ ?_ ?_ (by decide) (by simp only [WaitQueue.sleep, ha]) <;>
        simp [Place.after, Place.locked, Place.listed, Waits, ht]
    | some q' =>
      obtain ⟨hl, rfl⟩ := acquire_some ha
      refine hkeep { q with lock := some t } (some .check) rfl ?_ ?_ ?_ (by decide)
        (by simp only [WaitQueue.sleep, ha]) <;>
        simp [Place.after, Place.locked, Place.listed, Waits, ht, hl]

/-- After `ABTI_waitlist_broadcast` nobody waits. -/
theorem Ok.broadcast (h : q.Ok place) :
    ∃ n q', (∀ fuel, q.broadcast fuel = if n ≤ fuel then some q' else none) ∧ q'.Ok place ∧
    ∀ u, ¬ q'.Waits place u := by
  obtain ⟨l, hl, hmem⟩ := h.list
  obtain ⟨wl, hb, hnil, hr⟩ := Waitlist.broadcast_spec hl
  have hnone : ∀ u, ¬ ({ q with wl } : WaitQueue).Waits place u := fun u hu => by
    have hm : u ∉ l := fun hm => by
      have hru := hr u
      rw [if_pos hm] at hru
      exact absurd (hru.symm.trans hu.2) (by decide)
    refine hm ((hmem u).mpr ⟨hu.1, ?_⟩)
    have hru := hr u
    rw [if_neg hm] at hru
    exact hru.symm.trans hu.2
  refine ⟨l.length, { q with wl }, fun fuel => ?_, ⟨h.lock, [], hnil, fun u => ?_⟩, hnone⟩
  · unfold WaitQueue.broadcast
    rw [hb]
    split <;> rfl
  · exact iff_of_false List.not_mem_nil (hnone u)

/-- Writes to the links of a thread that is not in the list. -/
theorem Ok.links {a : Nat} (h : q.Ok place) (ha : (place a).listed = false) (f : Thread → Thread)
    (hf : ∀ n, (f n).ready = n.ready) : ({ q with wl := q.wl.set a f } : WaitQueue).Ok place := by
  obtain ⟨l, hl, hmem⟩ := h.list
  have hr : ∀ u, ((q.wl.set a f).mem u).ready = q.isReady u := fun u => by
    by_cases hu : u = a <;> simp [hu, hf, isReady]
  refine ⟨h.lock, l, hl.congr rfl rfl (fun b hb => ?_) fun _ _ h => h, fun u => ?_⟩
  · have hba : b ≠ a := fun hba => by
      have hw := ((hmem b).mp hb).1
      rw [hba, ha] at hw
      cases hw
    simp [hba]
  · rw [hmem]
    unfold Waits
    rw [show ({ q with wl := q.wl.set a f } : WaitQueue).isReady u = q.isReady u from hr u]

end WaitQueue

end Abt

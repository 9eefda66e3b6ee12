import Staut.Abt.Proof.Mutex

/-!
# Whoever waits for a mutex can still get it

`mutex_can_take`: no run of the threads on a mutex comes to a state from which a thread in
`ABT_mutex_lock` can not get it any more. The threads that are in its way are run one after the
other, first the one with `waiter_lock`, then the owner, up to its last `ABT_mutex_unlock`; the
steps that they have left go down (`State.rest`), and those of the thread itself do not grow
(`Pc.left`).
-/

set_option autoImplicit false

namespace Abt.Mutex

open Run

namespace Pc

/-- The steps of a thread with `waiter_lock` or the mutex until it has neither, at most. -/
def cost (d : Nat) : Pc → Nat
  | released => 1
  | wake => 2
  | release => 3
  | toRelease => 4
  | unlock => 6 * d + 5
  | taken => 7
  | leave => 8
  | retry => 9
  | wait .check => 1
  | wait .enter => 2
  | entry _ => 6 * d + 8
  | trylock => 6 * d + 1
  | _ => 6 * d

/-- The steps of a thread in `ABT_mutex_lock` until it has the mutex, when nobody is in its way. -/
def left : Pc → Nat
  | taken => 1
  | leave | attempt | spin => 2
  | entry _ => 3
  | wait .suspended | wait .quick => 5
  | wait .check => 9
  | wait .enter | wait .again => 10
  | retry => 11
  | waiter => 12
  | _ => 0

/-- In `ABT_mutex_lock` or `ABT_mutex_spinlock`. -/
def locking : Pc → Bool
  | entry .lock | entry .spinlock | attempt | waiter | retry | leave | wait _ | spin | taken => true
  | _ => false

end Pc

def State.cost (s : State) (t : Nat) : Nat := (s.pc t).cost (s.depth t)

/-- What the others have left to do, the one with `waiter_lock` and the owner. -/
def State.rest (s : State) (t : Nat) : Nat :=
  (match s.queue.lock with
    | some u => if u = t then 0 else s.cost u
    | none => 0) +
  match s.owner with
    | some v => if v = t ∨ s.queue.lock = some v then 0 else s.cost v
    | none => 0

/-- The thread `u` moves to `p`. -/
structure Goes (s s' : State) (u : Nat) (p : Pc) : Prop where
  pc : s'.pc = Function.update s.pc u p
  depth : ∀ v, v ≠ u → s'.depth v = s.depth v
  lock : s'.queue.lock = some u ∨ s'.queue.lock = none
  owner : s'.owner = s.owner ∨ s'.owner = some u ∨ s'.owner = none

variable {ext : Nat → Bool} {s s' : State} {t u : Nat} {p : Pc}

theorem Goes.cost_of_ne (h : Goes s s' u p) {v : Nat} (hv : v ≠ u) : s'.cost v = s.cost v := by
  unfold State.cost
  rw [h.pc, h.depth v hv, Function.update_of_ne hv]

/-- The thread with `waiter_lock` goes on. -/
theorem Goes.rest_holder (h : Goes s s' u p) (hl : s.queue.lock = some u) (hut : u ≠ t)
    (hc : s'.cost u < s.cost u) :
    s'.rest t < s.rest t := by
  have hcost : ∀ v, v ≠ u → s'.cost v = s.cost v := fun v hv => h.cost_of_ne hv
  unfold State.rest
  rcases h.lock with hl' | hl' <;> rcases h.owner with ho | ho | ho <;> rw [hl, hl', ho] <;>
    cases s.owner <;> grind

/-- The owner goes on, and nobody has `waiter_lock`. -/
theorem Goes.rest_owner (h : Goes s s' u p) (hl : s.queue.lock = none) (ho : s.owner = some u)
    (hut : u ≠ t) (hc : s'.cost u < s.cost u) : s'.rest t < s.rest t := by
  unfold State.rest
  rcases h.lock with hl' | hl' <;> rcases h.owner with ho' | ho' | ho' <;> rw [hl, hl', ho', ho] <;>
    grind

/-- The thread itself goes on. -/
theorem Goes.rest_self (h : Goes s s' t p) (hl : ∀ v, s.queue.lock = some v → v = t) :
    s'.rest t ≤ s.rest t := by
  have hcost : ∀ v, v ≠ t → s'.cost v = s.cost v := fun v hv => h.cost_of_ne hv
  unfold State.rest
  rcases h.lock with hl' | hl' <;> rcases h.owner with ho | ho | ho <;> rw [hl', ho] <;>
    cases hq : s.queue.lock <;> cases s.owner <;> grind

/-! ## The steps -/

theorem Inv.locked_place (h : Inv s) (hl : s.queue.lock = some u) : (s.place u).locked = true :=
  (h.queue.lock u).mpr hl

theorem Inv.unlocked_place (h : Inv s) (hl : s.queue.lock = none) (u : Nat) :
    (s.place u).locked = false := by
  cases hp : (s.place u).locked with
  | false => rfl
  | true =>
    have hu := (h.queue.lock u).mp hp
    rw [hl] at hu
    cases hu

/-- A step that keeps the depth: the places decide. -/
theorem goes_of (hp : s'.pc = Function.update s.pc u p) (hd : s'.depth = s.depth)
    (hq : s'.queue.lock = some u ∨ s'.queue.lock = none)
    (ho : s'.owner = s.owner ∨ s'.owner = some u ∨ s'.owner = none)
    (hc : p.cost (s.depth u) < (s.pc u).cost (s.depth u)) :
    Goes s s' u p ∧ s'.cost u < s.cost u := by
  refine ⟨⟨hp, fun v _ => by rw [hd], hq, ho⟩, ?_⟩
  unfold State.cost
  rwa [hp, hd, Function.update_self]

/-- The thread with `waiter_lock` goes on, and does not come back to where it was. -/
theorem Inv.holder_goes (ext : Nat → Bool) (h : Inv s) (hl : s.queue.lock = some u) :
    ∃ fuel s' p, s.run ext fuel u = some s' ∧ (Goes s s' u p ∧ s'.cost u < s.cost u) ∧
    ((s.pc u).locking = true → p.locking = true ∧ p.left < (s.pc u).left) := by
  have hpl := h.locked_place hl
  have hpcs := h.pcs u
  unfold State.place at hpl
  unfold State.PcOk at hpcs
  unfold State.run
  cases hpc : s.pc u with
  | retry =>
    cases hlock : s.lock with
    | true =>
      exact ⟨0, s.goto u (.wait .enter), .wait .enter, rfl, goes_of rfl rfl (.inl hl) (.inl rfl)
        (by simp [hpc, Pc.cost]), fun _ => by decide⟩
    | false =>
      exact ⟨0, s.take u .leave, .leave, rfl, goes_of rfl rfl (.inl hl) (.inr (.inl rfl))
        (by simp [hpc, Pc.cost]), fun _ => by decide⟩
  | leave =>
    exact ⟨0, _, .taken, rfl, goes_of rfl rfl (.inr rfl) (.inl rfl) (by simp [hpc, Pc.cost]),
      fun _ => by decide⟩
  | release =>
    exact ⟨0, _, .wake, rfl, goes_of rfl rfl (.inl hl) (.inr (.inr rfl)) (by simp [hpc, Pc.cost]),
      fun h => by cases h⟩
  | wake =>
    obtain ⟨n, q, hb, hok, -⟩ := h.queue.broadcast
    have hq : q.lock = some u := (hok.lock u).mp (by unfold State.place; rw [hpc]; rfl)
    refine ⟨n, { s with queue := q }.goto u .released, .released, ?_,
      goes_of rfl rfl (.inl hq) (.inl rfl) (by simp [hpc, Pc.cost]), fun h => by cases h⟩
    simp only [hb, Nat.le_refl, if_true]
    rfl
  | released =>
    refine ⟨0, _, .idle, rfl, goes_of rfl rfl (.inr rfl) (.inl rfl) ?_, fun h => by cases h⟩
    rw [hpc] at hpcs ⊢
    rw [show s.depth u = 0 from hpcs]
    decide
  | wait l =>
    rw [hpc] at hpcs hpl
    cases l with
    | enter =>
      have hd : s.depth u = 0 := hpcs.1
      obtain ⟨wl, he, -⟩ := h.queue.enter (by unfold State.place; rw [hpc]; rfl)
      cases hx : ext u with
      | true =>
        refine ⟨0, { s with queue := { s.queue with wl } }.goto u (.wait .check), .wait .check, ?_,
          goes_of rfl rfl (.inl hl) (.inl rfl) (by simp [hpc, Pc.cost]), fun _ => by decide⟩
        simp [WaitQueue.sleep, he, Pc.resume]
      | false =>
        refine ⟨0, { s with queue := { lock := none, wl } }.goto u (.wait .suspended),
          .wait .suspended, ?_, goes_of rfl rfl (.inr rfl) (.inl rfl) (by simp [hpc, hd, Pc.cost]),
          fun _ => by decide⟩
        simp [WaitQueue.sleep, he, Pc.resume]
    | check =>
      have hd : s.depth u = 0 := hpcs
      cases hr : s.queue.isReady u with
      | true =>
        refine ⟨0, { s with queue := s.queue.unlock }.goto u .attempt, .attempt, ?_,
          goes_of rfl rfl (.inr rfl) (.inl rfl) (by simp [hpc, hd, Pc.cost]), fun _ => by decide⟩
        simp [WaitQueue.sleep, hr, Pc.resume]
      | false =>
        refine ⟨0, { s with queue := s.queue.unlock }.goto u (.wait .quick), .wait .quick, ?_,
          goes_of rfl rfl (.inr rfl) (.inl rfl) (by simp [hpc, hd, Pc.cost]), fun _ => by decide⟩
        simp [WaitQueue.sleep, hr, Pc.resume]
    | _ => cases hpl
  | _ => rw [hpc] at hpl; cases hpl

/-- The owner goes on, or calls `ABTI_mutex_unlock`, when nobody has `waiter_lock`. -/
theorem Inv.owner_goes (ext : Nat → Bool) (h : Inv s) (hl : s.queue.lock = none)
    (ho : s.owner = some u) : ∃ a s' p, (sys ext).step s a s' ∧ Goes s s' u p ∧
    s'.cost u < s.cost u ∧ ((s.pc u).locking = true → p = .idle ∧ 0 < s'.depth u) := by
  have hpl := h.unlocked_place hl u
  have hpcs := h.pcs u
  have hlock : s.lock = true := by
    rw [h.lock, ho]
    rfl
  have hheld := h.held u ho
  -- the steps of a function, and those that change the depth
  have hkeep : ∀ {s' : State} {p : Pc}, s.run ext 0 u = some s' → s'.pc = Function.update s.pc u p →
      s'.depth = s.depth → (s'.queue.lock = some u ∨ s'.queue.lock = none) → s'.owner = s.owner →
      p.cost (s.depth u) < (s.pc u).cost (s.depth u) → (s.pc u).locking = false → ∃ a s' p,
        (sys ext).step s a s' ∧ Goes s s' u p ∧ s'.cost u < s.cost u ∧
        ((s.pc u).locking = true → p = .idle ∧ 0 < s'.depth u) := by
    intro s' p hr hp hd hq how hc hloc
    obtain ⟨h1, h2⟩ := goes_of hp hd hq (.inl how) hc
    exact ⟨.run u 0, s', p, hr, h1, h2, fun ht => absurd (hloc.symm.trans ht) (by decide)⟩
  have henter : ∀ {o : Option Nat} {n : Nat},
      s.run ext 0 u = some (State.enter { s with ownerId := o, nestingCnt := n } u) →
      6 * (s.depth u + 1) < (s.pc u).cost (s.depth u) → ∃ a s' p,
        (sys ext).step s a s' ∧ Goes s s' u p ∧ s'.cost u < s.cost u ∧
        ((s.pc u).locking = true → p = .idle ∧ 0 < s'.depth u) := by
    intro o n hr hc
    generalize hs' : State.enter { s with ownerId := o, nestingCnt := n } u = s' at hr
    have hp : s'.pc = Function.update s.pc u .idle := by rw [← hs']; rfl
    have hd : s'.depth = Function.update s.depth u (s.depth u + 1) := by rw [← hs']; rfl
    refine ⟨.run u 0, s', .idle, hr, ⟨hp, fun v hv => ?_, .inr ?_, .inl ?_⟩, ?_, fun _ => ⟨rfl, ?_⟩⟩
    · rw [hd, Function.update_of_ne hv]
    · rw [← hs']
      exact hl
    · rw [← hs']
      rfl
    · unfold State.cost
      rw [hp, hd, Function.update_self, Function.update_self]
      exact hc
    · rw [hd, Function.update_self]
      omega
  unfold State.place at hpl
  unfold State.PcOk at hpcs
  have hrun : s.run ext 0 u = s.run ext 0 u := rfl
  conv_rhs at hrun => unfold State.run
  cases hpc : s.pc u with
  | idle =>
    have hd : 0 < s.depth u := hheld.resolve_left (by rw [hpc]; decide)
    refine ⟨.unlock u, _, .unlock, ⟨hpc, hd, rfl⟩,
      ⟨rfl, fun v hv => Function.update_of_ne hv _ _, .inr hl, .inl rfl⟩, ?_, fun h => by cases h⟩
    unfold State.cost State.goto
    simp only [Function.update_self, hpc, Pc.cost]
    omega
  | entry k =>
    rw [hpc] at hpcs hkeep henter
    simp only [hpc] at hrun
    have hd : 0 < s.depth u := hheld.resolve_left (by rw [hpc]; simp [Pc.owns])
    cases hrec : s.recursive with
    | true =>
      have hn := (State.nest_some ho).mp (h.nest hrec)
      rw [hpc, if_neg (by simp [Pc.unmarked])] at hn
      rw [if_pos ⟨hrec, hn.1⟩] at hrun
      exact henter hrun (by simp only [Pc.cost]; omega)
    | false =>
      have hk : k = .trylock := by
        rcases hpcs with hk | hr | h0
        · exact hk
        · rw [hrec] at hr
          cases hr
        · omega
      subst hk
      rw [if_neg (by simp [hrec])] at hrun
      exact hkeep hrun rfl rfl (.inr hl) rfl (by simp [Kind.body, Pc.cost]) rfl
  | trylock =>
    rw [hpc] at hkeep
    simp only [hpc] at hrun
    rw [if_pos hlock] at hrun
    exact hkeep hrun rfl rfl (.inr hl) rfl (by simp [Pc.cost]) rfl
  | taken =>
    rw [hpc] at henter hpcs
    simp only [hpc] at hrun
    have hd : s.depth u = 0 := hpcs.1
    cases hrec : s.recursive with
    | true =>
      have hn := (State.nest_some ho).mp (h.nest hrec)
      rw [hpc, if_pos (by decide)] at hn
      rw [if_pos hrec, if_pos hn.2] at hrun
      exact henter hrun (by simp [Pc.cost, hd])
    | false =>
      rw [if_neg (by simp [hrec])] at hrun
      exact henter hrun (by simp [Pc.cost, hd])
  | unlock =>
    rw [hpc] at hkeep
    simp only [hpc] at hrun
    split at hrun
    · split at hrun
      · exact hkeep hrun rfl rfl (.inr hl) rfl (by simp [Pc.cost]) rfl
      · exact hkeep hrun rfl rfl (.inr hl) rfl (by simp [Pc.cost]) rfl
    · exact hkeep hrun rfl rfl (.inr hl) rfl (by simp [Pc.cost]) rfl
  | toRelease =>
    rw [hpc] at hkeep
    simp only [hpc] at hrun
    have ha : s.queue.acquire u = some { s.queue with lock := some u } := by
      unfold WaitQueue.acquire
      rw [hl]
    simp only [State.acquire, ha] at hrun
    exact hkeep hrun rfl rfl (.inl rfl) rfl (by simp [Pc.cost]) rfl
  | wait l =>
    rw [hpc] at hpcs
    have hd : s.depth u = 0 := by cases l <;> first | exact hpcs | exact hpcs.1
    exact absurd ho (h.not_owner hd (by rw [hpc]; rfl))
  | attempt => exact absurd ho (h.not_owner (by rwa [hpc] at hpcs) (by rw [hpc]; rfl))
  | waiter => exact absurd ho (h.not_owner (by rwa [hpc] at hpcs) (by rw [hpc]; rfl))
  | spin => exact absurd ho (h.not_owner (by rwa [hpc] at hpcs) (by rw [hpc]; rfl))
  | _ => rw [hpc] at hpl; cases hpl

/-- The thread itself goes on, when nobody is in its way. -/
theorem Inv.self_goes (ext : Nat → Bool) (h : Inv s) (hl : s.queue.lock = none)
    (ho : s.owner = none) (ht : (s.pc t).locking = true) :
    ∃ fuel s' p, s.run ext fuel t = some s' ∧ Goes s s' t p ∧ p.locking = true ∧
    p.left < (s.pc t).left := by
  have hpl := h.unlocked_place hl t
  have hpcs := h.pcs t
  have hlock : s.lock = false := by
    rw [h.lock, ho]
    rfl
  have hready : (s.place t).listed = true → s.queue.isReady t = true := fun hp => by
    cases hr : s.queue.isReady t with
    | true => rfl
    | false =>
      rcases h.woken t ⟨hp, hr⟩ with hn | ⟨v, hv⟩
      · exact absurd ho hn
      · -- it would have `waiter_lock`
        have hvp := h.unlocked_place hl v
        unfold State.place at hvp
        rw [hv] at hvp
        cases hvp
  have hacq : s.queue.acquire t = some { s.queue with lock := some t } := by
    unfold WaitQueue.acquire
    rw [hl]
  unfold State.place at hpl hready
  unfold State.PcOk at hpcs
  have hkeep : ∀ {s' : State} {p : Pc}, s.run ext 0 t = some s' → s'.pc = Function.update s.pc t p →
      s'.depth = s.depth → (s'.queue.lock = some t ∨ s'.queue.lock = none) →
      (s'.owner = s.owner ∨ s'.owner = some t) → p.locking = true → p.left < (s.pc t).left →
        ∃ fuel s' p, s.run ext fuel t = some s' ∧ Goes s s' t p ∧ p.locking = true ∧
        p.left < (s.pc t).left :=
    fun hr hp hd hq how hloc hlt =>
      ⟨0, _, _, hr, ⟨hp, fun v _ => by rw [hd], hq, how.imp_right .inl⟩, hloc, hlt⟩
  have hrun : s.run ext 0 t = s.run ext 0 t := rfl
  conv_rhs at hrun => unfold State.run
  cases hpc : s.pc t with
  | entry k =>
    rw [hpc] at hkeep ht
    simp only [hpc] at hrun
    rw [if_neg] at hrun
    swap
    · intro hn
      have hown := (h.nest hn.1).owner hn.2
      rw [ho] at hown
      cases hown
    refine hkeep hrun rfl rfl (.inr hl) (.inl rfl) ?_ ?_ <;> cases k <;> first | decide | cases ht
  | attempt =>
    rw [hpc] at hkeep
    simp only [hpc, hlock, Bool.false_eq_true, if_false] at hrun
    exact hkeep hrun rfl rfl (.inr hl) (.inr rfl) rfl (by decide)
  | spin =>
    rw [hpc] at hkeep
    simp only [hpc, hlock, Bool.false_eq_true, if_false] at hrun
    exact hkeep hrun rfl rfl (.inr hl) (.inr rfl) rfl (by decide)
  | waiter =>
    rw [hpc] at hkeep
    simp only [hpc, State.acquire, hacq] at hrun
    exact hkeep hrun rfl rfl (.inl rfl) (.inl rfl) rfl (by decide)
  | wait l =>
    rw [hpc] at hkeep hpl hready
    simp only [hpc] at hrun
    cases l with
    | suspended =>
      simp only [WaitQueue.sleep, hready rfl, if_true] at hrun
      exact hkeep hrun rfl rfl (.inr hl) (.inl rfl) rfl (show Pc.left .attempt < _ by decide)
    | quick =>
      simp only [WaitQueue.sleep, hready rfl, if_true] at hrun
      exact hkeep hrun rfl rfl (.inr hl) (.inl rfl) rfl (show Pc.left .attempt < _ by decide)
    | again =>
      simp only [WaitQueue.sleep, hacq] at hrun
      exact hkeep hrun rfl rfl (.inl rfl) (.inl rfl) rfl (show Pc.left (.wait .check) < _ by decide)
    | _ => cases hpl
  | taken =>
    rw [hpc] at hpcs
    exact absurd (ho.symm.trans hpcs.2) (by simp)
  | _ =>
    rw [hpc] at hpl ht
    first
      | exact absurd hpl (by decide)
      | exact absurd ht (by decide)

/-! ## The run -/

theorem left_pos (h : p.locking = true) : 0 < p.left := by
  cases p with
  | entry k => exact Nat.succ_pos 2
  | wait l => cases l <;> decide
  | _ => first | decide | cases h

/-- In `ABT_mutex_lock`, or behind it. -/
def Coming (t : Nat) (s : State) : Prop :=
  Inv s ∧ ((s.pc t).locking = true ∨ s.pc t = .idle ∧ 0 < s.depth t)

/-- From every state that a run comes to, a thread in `ABT_mutex_lock` or `ABT_mutex_spinlock` can
still come to have the mutex. -/
theorem mutex_can_take (h : (sys ext).Reach s) (ht : (s.pc t).locking = true) :
    ∃ s', (sys ext).Steps s s' ∧ s'.pc t = .idle ∧ 0 < s'.depth t := by
  refine LTS.Steps.of_wf (P := Coming t) (measure fun s : State => s.rest t + (s.pc t).left).wf
    (fun s hs => ?_)
    ⟨inv_of_reach h, .inl ht⟩
  obtain ⟨hi, hloc | hdone⟩ := hs
  swap
  · exact .inl hdone
  refine .inr ?_
  have hmove : ∀ {a : Label} {s' : State} {u : Nat} {p : Pc}, (sys ext).step s a s' →
    Goes s s' u p → u ≠ t → s'.rest t < s.rest t → ∃ a s', (sys ext).step s a s' ∧ Coming t s' ∧
        s'.rest t + (s'.pc t).left < s.rest t + (s.pc t).left := by
    intro a s' u p hs hg hut hlt
    have hpc : s'.pc t = s.pc t := by rw [hg.pc, Function.update_of_ne hut.symm]
    refine ⟨a, s', hs, ⟨hi.step hs, .inl (by rwa [hpc])⟩, ?_⟩
    rw [hpc]
    omega
  have hself : ∀ {a : Label} {s' : State} {p : Pc}, (sys ext).step s a s' → Goes s s' t p →
      (∀ v, s.queue.lock = some v → v = t) → (p.locking = true ∨ p = .idle ∧ 0 < s'.depth t) →
      p.left < (s.pc t).left → ∃ a s', (sys ext).step s a s' ∧ Coming t s' ∧
        s'.rest t + (s'.pc t).left < s.rest t + (s.pc t).left := by
    intro a s' p hs hg hl hp hlt
    have hpc : s'.pc t = p := by rw [hg.pc, Function.update_self]
    have hle := hg.rest_self hl
    refine ⟨a, s', hs, ⟨hi.step hs, by rwa [hpc]⟩, ?_⟩
    rw [hpc]
    omega
  cases hl : s.queue.lock with
  | some u =>
    obtain ⟨fuel, s', p, hr, ⟨hg, hc⟩, hleft⟩ := hi.holder_goes ext hl
    have hs : (sys ext).step s (.run u fuel) s' := hr
    by_cases hut : u = t
    · subst hut
      obtain ⟨h1, h2⟩ := hleft hloc
      exact hself hs hg (fun v hv => Option.some.inj (hv.symm.trans hl)) (.inl h1) h2
    · exact hmove hs hg hut (hg.rest_holder hl hut hc)
  | none =>
    have hno : ∀ v, s.queue.lock = some v → v = t := fun v hv => by
      rw [hl] at hv
      cases hv
    cases ho : s.owner with
    | some u =>
      obtain ⟨a, s', p, hs, hg, hc, hdone⟩ := hi.owner_goes ext hl ho
      by_cases hut : u = t
      · subst hut
        obtain ⟨rfl, hd⟩ := hdone hloc
        exact hself hs hg hno (.inr ⟨rfl, hd⟩) (left_pos hloc)
      · exact hmove hs hg hut (hg.rest_owner hl ho hut hc)
    | none =>
      obtain ⟨fuel, s', p, hr, hg, h1, h2⟩ := hi.self_goes ext hl ho hloc
      have hs : (sys ext).step s (.run t fuel) s' := hr
      exact hself hs hg hno (.inl h1) h2

theorem mutex_can_take_contended :
    ∃ s', (sys fun _ => false).Steps contended s' ∧ s'.pc 1 = .idle ∧ 0 < s'.depth 1 :=
  mutex_can_take reach_contended rfl

end Abt.Mutex

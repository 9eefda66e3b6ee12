import Staut.Abt.RwLock
import Staut.Abt.Proof.WaitQueue

/-!
# Readers-writer locks exclude, and wake whom they put to sleep

`Inv s`: the mutex is what the threads that use the counters have; `reader_count` and `write_flag`
are what the history says; and a thread in the list is blocked by them as they are, or one that has
changed them has not called `ABTI_cond_broadcast` yet.
-/

set_option autoImplicit false

namespace Abt.RwLock

open Run

namespace Pc

/-- What the condition variable knows of a thread. -/
def place : Pc → Place
  | register _ | fail | release _ | broadcast | quiet => .inside
  | wait _ l => .wait l
  | _ => .out

/-- With the mutex. -/
def inMutex : Pc → Bool
  | test _ | condLock _ | register _ | fail | release _ | count
      _ | done | clear | notify | broadcast | quiet => true
  | _ => false

/-- The counters have been changed, and the waiters do not know yet. -/
def notifies : Pc → Bool
  | notify | broadcast => true
  | _ => false

end Pc

namespace State

def place (s : State) (t : Nat) : Place := (s.pc t).place

/-- `t` is in the list of waiters. -/
def Waits (s : State) (t : Nat) : Prop := s.cond.Waits s.place t

/-- What holds of a thread at a place. -/
def OkAt (s : State) (t : Nat) : Pc → Prop
  | .condLock k | .register k | .release k => s.blocked k = true
  | .count k => s.blocked k = false
  | .unlock | .clear => ∃ k, (t, k) ∈ s.holds
  | .fail => False
  | _ => True

/-- One writer, or any number of readers. -/
def Counted (s : State) : Prop :=
  if s.writeFlag then s.readerCount = 0 ∧ ∃ t, s.holds = [(t, .wrlock)]
  else s.readerCount = s.holds.length ∧ ∀ h ∈ s.holds, h.2 = .rdlock

end State

structure Inv (s : State) : Prop where
  queue : s.cond.Ok s.place
  mutex : ∀ t, (s.pc t).inMutex = true ↔ s.mutex = some t
  counted : s.Counted
  waiterMutex : s.waiterMutex = none ∨ s.waiterMutex = some s.addr
  pcs : ∀ t, s.OkAt t (s.pc t)
  woken : ∀ t k l, s.pc t = .wait k l → l = .enter ∨ s.Waits t → s.blocked k = true ∨
    ∃ u, (s.pc u).notifies = true

variable {ext : Nat → Bool} {fuel : Nat} {s s' : State} {t : Nat} {p : Pc}

theorem place_update (s : State) (t : Nat) (p : Pc) :
    (s.goto t p).place = Function.update s.place t p.place :=
  Function.comp_update _ _ _ _

/-- A thread moves on, and the counters stay. -/
theorem Inv.goto (h : Inv s) {q : WaitQueue} {m w : Option Nat}
    (hq : q.Ok (Function.update s.place t p.place))
    (hm : m = if p.inMutex then some t else if (s.pc t).inMutex then none else s.mutex)
    (hfree : p.inMutex = true → (s.pc t).inMutex = true ∨ s.mutex = none)
    (hw : w = s.waiterMutex ∨ w = some s.addr) (hp : s.OkAt t p)
    (hwoken : ∀ u k l, Function.update s.pc t p u = .wait k l →
      l = .enter ∨ q.Waits (Function.update s.place t p.place) u →
      s.blocked k = true ∨ ∃ v, (Function.update s.pc t p v).notifies = true) :
    Inv ({ s with cond := q, mutex := m, waiterMutex := w }.goto t p) where
  queue := by
    rw [place_update]
    exact hq
  mutex u := by
    show (Function.update s.pc t p u).inMutex = true ↔ m = some u
    rw [hm]
    exact Exclusive.update h.mutex hfree u
  counted := h.counted
  waiterMutex := by
    rcases hw with rfl | rfl
    · exact h.waiterMutex
    · exact .inr rfl
  pcs u := by
    show s.OkAt u (Function.update s.pc t p u)
    by_cases hut : u = t
    · rw [hut, Function.update_self]
      exact hp
    · rw [Function.update_of_ne hut]
      exact h.pcs u
  woken u k l hpu hu := by
    refine hwoken u k l hpu (hu.imp_right fun hu => ?_)
    unfold State.Waits at hu
    rwa [place_update] at hu

/-- The other waiters, when the thread `t` moves. -/
theorem Inv.woken_of_ne (h : Inv s) {u : Nat} {k : Kind} {l : Sleep} (hut : u ≠ t)
    (hn : (s.pc t).notifies = true → p.notifies = true)
    (hpu : Function.update s.pc t p u = .wait k l) (hu : l = .enter ∨ s.Waits u) :
    s.blocked k = true ∨ ∃ v, (Function.update s.pc t p v).notifies = true := by
  rw [Function.update_of_ne hut] at hpu
  refine (h.woken u k l hpu hu).imp_right fun ⟨v, hv⟩ => ⟨v, ?_⟩
  by_cases hvt : v = t
  · subst hvt
    rw [Function.update_self]
    exact hn hv
  · rwa [Function.update_of_ne hvt]

/-- A thread that does not come into the wait moves on. -/
theorem Inv.next (h : Inv s) {q : WaitQueue} {m w : Option Nat} (hwl : q.wl = s.cond.wl)
    (hq : q.Ok (Function.update s.place t p.place))
    (hm : m = if p.inMutex then some t else if (s.pc t).inMutex then none else s.mutex)
    (hfree : p.inMutex = true → (s.pc t).inMutex = true ∨ s.mutex = none)
    (hw : w = s.waiterMutex ∨ w = some s.addr) (hp : s.OkAt t p) (hnw : ∀ k l, p ≠ .wait k l)
    (hn : (s.pc t).notifies = true → p.notifies = true) :
    Inv ({ s with cond := q, mutex := m, waiterMutex := w }.goto t p) := by
  refine h.goto hq hm hfree hw hp fun u k l hpu hu => ?_
  have hut : u ≠ t := fun hut => by
    rw [hut, Function.update_self] at hpu
    exact hnw k l hpu
  exact h.woken_of_ne hut hn hpu (hu.imp_right (WaitQueue.waits_congr hwl hut).mp)

/-- A thread with the mutex changes the counters. -/
theorem Inv.recount (h : Inv s) {n : Nat} {b : Bool} {hs : List (Nat × Kind)}
    (hin : (s.pc t).inMutex = true) (hout : s.place t = .out) (hpm : p.inMutex = true)
    (hpl : p.place = .out)
    (hc : ({ s with readerCount := n, writeFlag := b, holds := hs } : State).Counted)
    (hp : ({ s with readerCount := n, writeFlag := b, holds := hs } : State).OkAt t p)
    (hholds : ∀ u k, u ≠ t → (u, k) ∈ s.holds → (u, k) ∈ hs)
    (hw : p.notifies = true ∨ (s.pc t).notifies = false ∧
      ∀ k, s.blocked k = true →
      ({ s with readerCount := n, writeFlag := b, holds := hs } : State).blocked k = true) :
    Inv ({ s with readerCount := n, writeFlag := b, holds := hs }.goto t p) := by
  have hplace : (State.goto { s with readerCount := n, writeFlag := b, holds := hs } t p).place =
    s.place := by
    rw [place_update, hpl]
    exact Function.update_eq_self_iff.mpr hout.symm
  have hmut := (h.mutex t).mp hin
  refine ⟨hplace ▸ h.queue, fun u => ?_, hc, h.waiterMutex, fun u => ?_, fun u k l hpu hu => ?_⟩
  · show (Function.update s.pc t p u).inMutex = true ↔ s.mutex = some u
    refine (Exclusive.update h.mutex (fun _ => .inl hin) u).trans ?_
    rw [if_pos hpm, hmut]
  · show State.OkAt _ u (Function.update s.pc t p u)
    by_cases hut : u = t
    · rw [hut, Function.update_self]
      exact hp
    · rw [Function.update_of_ne hut]
      have hpu := h.pcs u
      -- the places that speak of the counters are those with the mutex
      have hnot : (s.pc u).inMutex = false := by
        cases hm : (s.pc u).inMutex with
        | false => rfl
        | true => exact absurd (Exclusive.unique h.mutex hm hin) hut
      cases hpc : s.pc u with
      | unlock =>
        rw [hpc] at hpu
        obtain ⟨k, hk⟩ := hpu
        exact ⟨k, hholds u k hut hk⟩
      | fail =>
        rw [hpc] at hpu
        exact hpu
      | idle | lock | wait | quiet | done | notify | broadcast | test => trivial
      | _ => rw [hpc] at hnot; cases hnot
  · have hut : u ≠ t := by
      rintro rfl
      have hpu : Function.update s.pc u p u = .wait k l := hpu
      rw [Function.update_self] at hpu
      rw [hpu] at hpm
      cases hpm
    rcases hw with hn | ⟨hn, hb⟩
    · refine .inr ⟨t, ?_⟩
      show (Function.update s.pc t p t).notifies = true
      rwa [Function.update_self]
    · have hpu' : s.pc u = .wait k l := (Function.update_of_ne hut _ _).symm.trans hpu
      have hu' : l = .enter ∨ s.Waits u := hu.imp_right fun hu => by
        unfold State.Waits at hu ⊢
        rwa [hplace] at hu
      refine (h.woken u k l hpu' hu').imp (hb k) fun ⟨v, hv⟩ => ⟨v, ?_⟩
      have hvt : v ≠ t := by
        rintro rfl
        rw [hn] at hv
        cases hv
      show (Function.update s.pc t p v).notifies = true
      rwa [Function.update_of_ne hvt]

/-- Taking the mutex. -/
theorem Inv.lockMutex (h : Inv s) (hpl : s.place t = p.place) (hin : p.inMutex = true)
    (hp : s.OkAt t p) (hn : (s.pc t).notifies = false) : Inv (s.lockMutex t p) := by
  unfold State.lockMutex
  split
  · rename_i hm
    refine h.next (q := s.cond) (w := s.waiterMutex) rfl (h.queue.goto hpl) (by rw [if_pos hin])
      (fun _ => .inr hm)
      (.inl rfl) hp (fun k l hp => ?_) fun h => absurd (hn.symm.trans h) (by decide)
    rw [hp] at hin
    cases hin
  · exact h

/-- Taking the spinlock of the condition variable. -/
theorem Inv.lockCond (h : Inv s) (hout : s.place t = .out) (hin : p.place = .inside)
    (hm : (s.pc t).inMutex = true) (hpm : p.inMutex = true) (hp : s.OkAt t p)
    (hn : (s.pc t).notifies = true → p.notifies = true) :
    Inv (s.lockCond t p) := by
  unfold State.lockCond
  cases ha : s.cond.acquire t with
  | none => exact h
  | some q =>
    refine h.next (m := s.mutex) (w := s.waiterMutex) ?_ ?_ ?_ (fun _ => .inl hm) (.inl rfl) hp
      (fun k l hp => ?_) hn
    · rw [(WaitQueue.acquire_some ha).2]
    · rw [hin]
      exact h.queue.acquire hout ha
    · rw [if_pos hpm]
      exact (h.mutex t).mp hm
    · rw [hp] at hin
      cases hin

theorem counted_write (hb : s.writeFlag = true) (hc : s.Counted) :
    s.readerCount = 0 ∧ ∃ t, s.holds = [(t, .wrlock)] := by
  unfold State.Counted at hc
  rwa [if_pos hb] at hc

theorem counted_read (hb : s.writeFlag = false) (hc : s.Counted) :
    s.readerCount = s.holds.length ∧ ∀ h ∈ s.holds, h.2 = .rdlock := by
  unfold State.Counted at hc
  rwa [if_neg (by simp [hb])] at hc

theorem Inv.run (h : Inv s) (hrun : s.run ext fuel t = some s') : Inv s' := by
  have hpcs := h.pcs t
  have hpl : s.place t = (s.pc t).place := rfl
  have hmut := h.mutex t
  unfold State.run at hrun
  cases hpc : s.pc t with
  | idle =>
    rw [hpc] at hrun
    cases hrun
  | lock k =>
    rw [hpc] at hrun hpl
    obtain rfl := Option.some.inj hrun
    exact h.lockMutex hpl rfl trivial (by rw [hpc]; rfl)
  | test k =>
    rw [hpc] at hrun hpl hmut
    obtain rfl := Option.some.inj hrun
    have hm : s.mutex = some t := hmut.mp rfl
    cases hb : s.blocked k with
    | true =>
      exact h.next (q := s.cond) (w := s.waiterMutex) rfl (h.queue.goto hpl) hm
        (fun _ => .inl (by rw [hpc]; rfl))
        (.inl rfl) hb (fun _ _ h => by cases h) (by rw [hpc]; exact fun h => by cases h)
    | false =>
      exact h.next (q := s.cond) (w := s.waiterMutex) rfl (h.queue.goto hpl) hm
        (fun _ => .inl (by rw [hpc]; rfl))
        (.inl rfl) hb (fun _ _ h => by cases h) (by rw [hpc]; exact fun h => by cases h)
  | condLock k =>
    rw [hpc] at hrun hpl hpcs
    obtain rfl := Option.some.inj hrun
    exact h.lockCond hpl rfl (by rw [hpc]; rfl) rfl hpcs (by rw [hpc]; exact fun h => by cases h)
  | register k =>
    rw [hpc] at hrun hpl hmut hpcs
    simp only [h.waiterMutex, if_true, Option.some.injEq] at hrun
    subst hrun
    exact h.next (q := s.cond) (w := some s.addr) rfl (h.queue.goto hpl) (hmut.mp rfl)
      (fun _ => .inl (by rw [hpc]; rfl))
      (.inr rfl) hpcs (fun _ _ h => by cases h) (by rw [hpc]; exact fun h => by cases h)
  | fail =>
    rw [hpc] at hpcs
    exact hpcs.elim
  | release k =>
    rw [hpc] at hrun hpl hpcs
    obtain rfl := Option.some.inj hrun
    refine h.goto (m := none) (w := s.waiterMutex) (h.queue.toWait hpl) (by rw [hpc]; rfl)
      (fun h => by cases h) (.inl rfl)
      trivial fun u k' l hpu hu => ?_
    by_cases hut : u = t
    · rw [hut, Function.update_self] at hpu
      cases hpu
      exact .inl hpcs
    · exact h.woken_of_ne hut (by rw [hpc]; exact fun h => by cases h) hpu
        (hu.imp_right (WaitQueue.waits_congr rfl hut).mp)
  | wait k l =>
    rw [hpc] at hrun hpl
    obtain ⟨q, o, he, hok, hother, hself, hne⟩ := h.queue.sleep (ext t) hpl
    simp only [he, Option.bind_eq_bind, Option.bind_some, Option.pure_def,
      Option.some.injEq] at hrun
    subst hrun
    have hafter : (Pc.resume k o).place = .after o := by cases o <;> rfl
    have hout : (Pc.resume k o).inMutex = false := by cases o <;> rfl
    refine h.goto (m := s.mutex) (w := s.waiterMutex) (hafter ▸ hok) (by rw [hout, hpc]; rfl)
      (fun hi => absurd (hout.symm.trans hi) (by decide)) (.inl rfl) (by cases o <;> trivial)
        fun u k' l' hpu hu => ?_
    rw [hafter] at hu
    have hn : (s.pc t).notifies = true → (Pc.resume k o).notifies = true := by
      rw [hpc]
      exact fun h => by cases h
    by_cases hut : u = t
    · subst hut
      rw [Function.update_self] at hpu
      cases o with
      | none => cases hpu
      | some l'' =>
        cases hpu
        -- it has come here from the same wait
        have hold : l = .enter ∨ s.Waits u := by
          by_cases hl : l = .enter
          · exact .inl hl
          · rcases hu with rfl | hu
            · exact absurd rfl hne
            · exact .inr (hself hl hu)
        refine (h.woken u k l hpc hold).imp_right fun ⟨v, hv⟩ => ⟨v, ?_⟩
        have hvt : v ≠ u := fun hvt => by
          rw [hvt, hpc] at hv
          cases hv
        rwa [Function.update_of_ne hvt]
    · exact h.woken_of_ne hut hn hpu (hu.imp_right (hother u hut).mp)
  | count k =>
    rw [hpc] at hrun hpl hpcs
    cases k with
    | rdlock =>
      obtain rfl := Option.some.inj hrun
      have hb : s.writeFlag = false := hpcs
      obtain ⟨hc1, hc2⟩ := counted_read hb h.counted
      refine h.recount (by rw [hpc]; rfl) hpl rfl rfl ?_ trivial
        (fun u k _ hk => List.mem_cons_of_mem _ hk)
        (.inr ⟨by rw [hpc]; rfl, fun k hk => ?_⟩)
      · unfold State.Counted
        rw [if_neg (by simp [hb])]
        refine ⟨congrArg (· + 1) hc1, fun x hx => ?_⟩
        rcases List.mem_cons.mp hx with rfl | hx
        · rfl
        · exact hc2 x hx
      · cases k with
        | rdlock => exact hk
        | wrlock => simp [State.blocked]
    | wrlock =>
      obtain rfl := Option.some.inj hrun
      have hb : s.writeFlag = false ∧ s.readerCount = 0 := by
        simpa [State.OkAt, State.blocked] using hpcs
      obtain ⟨hc1, -⟩ := counted_read hb.1 h.counted
      have hnil : s.holds = [] := List.eq_nil_of_length_eq_zero (hc1.symm.trans hb.2)
      refine h.recount (by rw [hpc]; rfl) hpl rfl rfl ?_ trivial
        (fun u k _ hk => List.mem_cons_of_mem _ hk)
        (.inr ⟨by rw [hpc]; rfl, fun k hk => ?_⟩)
      · unfold State.Counted
        rw [if_pos rfl]
        exact ⟨hb.2, t, by rw [hnil]⟩
      · cases k <;> simp [State.blocked]
  | done =>
    rw [hpc] at hrun hpl
    obtain rfl := Option.some.inj hrun
    exact h.next (q := s.cond) (w := s.waiterMutex) rfl (h.queue.goto hpl) (by rw [hpc]; rfl)
      (fun h => by cases h)
      (.inl rfl) trivial (fun _ _ h => by cases h) (by rw [hpc]; exact fun h => by cases h)
  | unlock =>
    rw [hpc] at hrun hpl hpcs
    obtain rfl := Option.some.inj hrun
    exact h.lockMutex hpl rfl hpcs (by rw [hpc]; rfl)
  | clear =>
    rw [hpc] at hrun hpl hpcs
    obtain ⟨k, hk⟩ := hpcs
    have hkeep : ∀ (k' : Kind) u k, u ≠ t → (u, k) ∈ s.holds → (u, k) ∈ s.holds.erase (t, k') :=
      fun k' u k hu hm => (List.mem_erase_of_ne fun he => hu (Prod.mk.inj he).1).mpr hm
    dsimp only at hrun
    split at hrun
    · rename_i hb
      obtain rfl := Option.some.inj hrun
      obtain ⟨hc1, u, hc2⟩ := counted_write hb h.counted
      -- the only entry is the thread's own
      have hut : t = u := by
        rw [hc2] at hk
        exact (Prod.mk.inj (List.mem_singleton.mp hk)).1
      refine h.recount (by rw [hpc]; rfl) hpl rfl rfl ?_ trivial (hkeep .wrlock) (.inl rfl)
      unfold State.Counted
      rw [if_neg (by simp), hc2, hut, List.erase_cons_head]
      exact ⟨hc1, fun x hx => by cases hx⟩
    · rename_i hb
      have hb : s.writeFlag = false := by simpa using hb
      obtain ⟨hc1, hc2⟩ := counted_read hb h.counted
      split at hrun
      swap
      · cases hrun
      obtain rfl := Option.some.inj hrun
      have hkr : (t, Kind.rdlock) ∈ s.holds := by
        have hkk : k = .rdlock := hc2 _ hk
        rwa [hkk] at hk
      refine h.recount (by rw [hpc]; rfl) hpl rfl rfl ?_ trivial (hkeep .rdlock) (.inl rfl)
      unfold State.Counted
      rw [if_neg (by simp [hb])]
      refine ⟨?_, fun x hx => hc2 x (List.mem_of_mem_erase hx)⟩
      show s.readerCount - 1 = _
      rw [List.length_erase_of_mem hkr, hc1]
  | notify =>
    rw [hpc] at hrun hpl
    obtain rfl := Option.some.inj hrun
    exact h.lockCond hpl rfl (by rw [hpc]; rfl) rfl trivial fun _ => rfl
  | broadcast =>
    rw [hpc] at hrun hpl hmut
    obtain ⟨n, q, hb, hok, hnone⟩ := h.queue.broadcast
    simp only [hb fuel] at hrun
    split at hrun
    swap
    · cases hrun
    simp only [Option.bind_eq_bind, Option.bind_some, Option.pure_def, Option.some.injEq] at hrun
    subst hrun
    have hsame : Function.update s.place t Pc.quiet.place = s.place :=
      Function.update_eq_self_iff.mpr hpl.symm
    refine h.goto (m := s.mutex) (w := s.waiterMutex) (by rw [hsame]; exact hok) (hmut.mp rfl)
      (fun _ => .inl (by rw [hpc]; rfl)) (.inl rfl) trivial fun u k l hpu hu => ?_
    rw [hsame] at hu
    rcases hu with rfl | hu
    · -- it would have the spinlock too
      have hut : u ≠ t := fun hut => by
        rw [hut, Function.update_self] at hpu
        cases hpu
      rw [Function.update_of_ne hut] at hpu
      refine absurd (Exclusive.unique h.queue.lock (a := u) (b := t) ?_ ?_) hut
      · unfold State.place
        rw [hpu]
        rfl
      · rw [hpl]
        rfl
    · exact absurd hu (hnone u)
  | quiet =>
    rw [hpc] at hrun hpl hmut
    obtain rfl := Option.some.inj hrun
    exact h.next (m := s.mutex) (w := s.waiterMutex) rfl (h.queue.unlock hpl) (hmut.mp rfl)
      (fun _ => .inl (by rw [hpc]; rfl)) (.inl rfl) trivial (fun _ _ h => by cases h)
      (by rw [hpc]; exact fun h => by cases h)

/-! ## Runs -/

theorem Inv.step {l : Label} (h : Inv s) (hs : (sys ext).step s l s') : Inv s' := by
  -- a call comes from outside the mutex
  have hcall : ∀ {t : Nat} {p : Pc}, s.pc t = .idle → p.place = .out → p.inMutex = false →
    s.OkAt t p → Inv (s.goto t p) := fun {t p} hpc hout hin hp => by
    have hpl : s.place t = p.place := by
      unfold State.place
      rw [hpc, hout]
      rfl
    refine h.next (q := s.cond) (m := s.mutex) (w := s.waiterMutex) rfl (h.queue.goto hpl)
      (by rw [hin, hpc]; rfl)
      (fun hf => absurd (hin.symm.trans hf) (by decide)) (.inl rfl) hp (fun k l he => ?_)
      (by rw [hpc]; exact fun h => by cases h)
    rw [he] at hout
    cases hout
  cases l with
  | run t fuel => exact h.run hs
  | call t k =>
    obtain ⟨hpc, rfl⟩ := hs
    exact hcall hpc rfl rfl trivial
  | unlock t =>
    obtain ⟨hpc, hk, rfl⟩ := hs
    exact hcall hpc rfl rfl hk
  | links a next prev =>
    obtain ⟨ha, rfl⟩ := hs
    have hplace : (s.place a).listed = false := by
      unfold State.place
      cases hpc : s.pc a with
      | wait k l => exact absurd hpc (ha k l)
      | _ => rfl
    have hq := h.queue.links hplace (fun n => { n with next := next, prev := prev }) fun _ => rfl
    refine ⟨hq, h.mutex, h.counted, h.waiterMutex, h.pcs, fun t k l hpt ht => h.woken t k l hpt
      (ht.imp_right fun ht => ?_)⟩
    refine ⟨ht.1, ?_⟩
    rw [← ht.2]
    unfold WaitQueue.isReady
    by_cases hta : t = a <;> simp [hta]

theorem inv_of_reach (h : (sys ext).Reach s) : Inv s := by
  refine LTS.ReachIf.induct (fun s hs => ?_) (fun s l s' h _ hs => h.step hs) h
  obtain ⟨h1, h2, h3, h4, h5, h6, h7, h8, h9⟩ := hs
  have hout : ∀ t, s.place t = .out := fun t => by
    unfold State.place
    rw [h8]
    rfl
  refine ⟨WaitQueue.ok_init h2 h3 h4 hout, fun t => ?_, ?_, .inl h5, fun t => ?_,
    fun t k l hpc => ?_⟩
  · rw [h8, h1]
    exact ⟨fun h => (by cases h), fun h => (by cases h)⟩
  · unfold State.Counted
    rw [h7, if_neg (by decide), h6, h9]
    exact ⟨rfl, fun x hx => (by cases hx)⟩
  · rw [h8]
    trivial
  · rw [h8] at hpc
    cases hpc

/-- A thread inside a call always has a next step: `ABTI_cond_wait` does not fail, the list has no
dangling link, and `ABT_rwlock_unlock` finds a writer or a reader. -/
theorem Inv.run_defined (h : Inv s) (hpc : s.pc t ≠ .idle) :
    ∃ n, ∀ fuel, n ≤ fuel → (s.run ext fuel t).isSome = true := by
  have hpcs := h.pcs t
  unfold State.run
  cases hp : s.pc t with
  | idle => exact absurd hp hpc
  | wait k l =>
    obtain ⟨q, o, he, -⟩ :=
      h.queue.sleep (ext t) (show s.place t = .wait l by unfold State.place; rw [hp]; rfl)
    refine ⟨0, fun fuel _ => ?_⟩
    simp [he]
  | clear =>
    rw [hp] at hpcs
    obtain ⟨k, hk⟩ := hpcs
    refine ⟨0, fun fuel _ => ?_⟩
    cases hb : s.writeFlag with
    | true => rfl
    | false =>
      obtain ⟨hc, -⟩ := counted_read hb h.counted
      have hpos : 0 < s.readerCount := hc ▸ List.length_pos_of_mem hk
      simp [hpos]
  | broadcast =>
    obtain ⟨n, q, hb, -⟩ := h.queue.broadcast
    refine ⟨n, fun fuel hf => ?_⟩
    simp [hb, hf]
  | count k => cases k <;> exact ⟨0, fun _ _ => rfl⟩
  | _ => exact ⟨0, fun _ _ => rfl⟩

/-! ## A run -/

/-- A lock that nobody uses. -/
def start : State where
  mutex := none
  addr := 0
  cond := ⟨none, ⟨none, none, fun _ => ⟨none, none, false⟩⟩⟩
  waiterMutex := none
  readerCount := 0
  writeFlag := false
  pc _ := .idle
  holds := []

/-- The next step of a ULT. -/
def next : State → Nat → Option State := State.run (fun _ => false) 8

/-- Thread 0 reads, and thread 1 waits to write. -/
def contended : State :=
  runs next ((runs next (start.goto 0 (.lock .rdlock)) [0, 0, 0, 0]).goto 1 (.lock .wrlock))
    [1, 1, 1, 1, 1, 1]

theorem reach_contended : (sys fun _ => false).Reach contended := by
  have h0 : (sys fun _ => false).Reach start :=
    .init ⟨rfl, rfl, rfl, rfl, rfl, rfl, rfl, fun _ => rfl, rfl⟩
  have hrun : ∀ s t s', next s t = some s' → True ∧ (sys fun _ => false).step s (.run t 8) s' :=
    fun _ _ _ hs => ⟨trivial, hs⟩
  have hcall : (sys fun _ => false).Reach (start.goto 0 (.lock .rdlock)) :=
    h0.step (a := .call 0 .rdlock) trivial ⟨rfl, rfl⟩
  have h1 := hcall.runs hrun [0, 0, 0, 0]
  have hcall : (sys fun _ => false).Reach
      ((runs next (start.goto 0 (.lock .rdlock)) [0, 0, 0, 0]).goto 1 (.lock .wrlock)) :=
    h1.step (a := .call 1 .wrlock) trivial ⟨rfl, rfl⟩
  exact hcall.runs hrun [1, 1, 1, 1, 1, 1]

/-- A writer is alone, and `write_flag` and `reader_count` are the writer and the number of readers.
-/
theorem rwlock_excludes (h : (sys ext).Reach s) :
    (∀ t, (t, .wrlock) ∈ s.holds → s.holds = [(t, .wrlock)]) ∧
      (s.writeFlag = true ↔ ∃ t, (t, .wrlock) ∈ s.holds) ∧
      s.readerCount = (s.holds.filter fun h => h.2 = .rdlock).length := by
  have hc := (inv_of_reach h).counted
  cases hb : s.writeFlag with
  | true =>
    obtain ⟨h0, u, hu⟩ := counted_write hb hc
    rw [hu, h0]
    refine ⟨fun t ht => ?_, iff_of_true rfl ⟨u, List.mem_singleton_self _⟩, by simp⟩
    rw [List.mem_singleton.mp ht]
  | false =>
    obtain ⟨h0, hr⟩ := counted_read hb hc
    have hno : ∀ t, (t, Kind.wrlock) ∉ s.holds := fun t ht => by cases hr _ ht
    refine ⟨fun t ht => absurd ht (hno t), iff_of_false (by decide) fun ⟨t, ht⟩ => hno t ht, ?_⟩
    rw [h0, List.filter_eq_self.mpr fun x hx => by simp [hr x hx]]

theorem rwlock_excludes_contended :
    (∀ t, (t, .wrlock) ∈ contended.holds → contended.holds = [(t, .wrlock)]) ∧
      (contended.writeFlag = true ↔ ∃ t, (t, .wrlock) ∈ contended.holds) ∧
      contended.readerCount = (contended.holds.filter fun h => h.2 = .rdlock).length :=
  rwlock_excludes reach_contended

/-- No wake-up is lost: a thread waits in the list only while the counters keep it out, or one that
has changed them is about to wake everyone in the list. -/
theorem rwlock_wakes (h : (sys ext).Reach s) {k : Kind} {l : Sleep} (hpc : s.pc t = .wait k l)
    (ht : s.Waits t) :
    s.blocked k = true ∨ ∃ u, s.pc u = .notify ∨ s.pc u = .broadcast := by
  refine ((inv_of_reach h).woken t k l hpc (.inr ht)).imp_right fun ⟨u, hu⟩ => ⟨u, ?_⟩
  cases hp : s.pc u with
  | notify => exact .inl rfl
  | broadcast => exact .inr rfl
  | _ => rw [hp] at hu; cases hu

theorem rwlock_wakes_contended :
    contended.blocked .wrlock = true ∨ ∃ u, contended.pc u = .notify ∨
    contended.pc u = .broadcast :=
  rwlock_wakes (t := 1) (l := .suspended) reach_contended rfl ⟨rfl, rfl⟩

/-- No call is stuck or goes wrong: `ABTI_cond_wait` never finds the mutex of another lock, and the
next step of a thread in a call is always defined. -/
theorem rwlock_defined (h : (sys ext).Reach s) (hpc : s.pc t ≠ .idle) :
    s.pc t ≠ .fail ∧ (s.waiterMutex = none ∨ s.waiterMutex = some s.addr) ∧
      ∃ n, ∀ fuel, n ≤ fuel → (s.run ext fuel t).isSome = true := by
  have hi := inv_of_reach h
  refine ⟨fun hf => ?_, hi.waiterMutex, hi.run_defined hpc⟩
  have ht := hi.pcs t
  rw [hf] at ht
  exact ht

theorem rwlock_defined_contended : contended.pc 1 ≠ .fail ∧
    (contended.waiterMutex = none ∨ contended.waiterMutex = some contended.addr) ∧
      ∃ n, ∀ fuel, n ≤ fuel → (contended.run (fun _ => false) fuel 1).isSome = true :=
  rwlock_defined reach_contended (fun h => by cases h)

end Abt.RwLock

import Staut.Abt.Mutex
import Staut.Abt.Proof.WaitQueue

/-!
# Mutexes exclude, and wake whom they put to sleep

`Inv s`: `lock` is set while a thread owns it, a thread that has the mutex is the owner,
`nesting_cnt` counts its calls, and as long as a thread waits in the list there is an owner, or one
that has just released `lock` and is about to wake all of them.
-/

set_option autoImplicit false

namespace Abt.Mutex

open Run

namespace Pc

/-- What `waiter_lock` and the list know of a thread. -/
def place : Pc → Place
  | retry | leave | release | wake | released => .inside
  | wait l => .wait l
  | _ => .out

/-- Between setting `lock` and the return of the call, and from the call of `ABTI_mutex_unlock` to
the release. -/
def owns : Pc → Bool
  | leave | taken | unlock | toRelease | release => true
  | _ => false

/-- The part of it in which `owner_id` is not set. -/
def unmarked : Pc → Bool
  | leave | taken | toRelease | release => true
  | _ => false

end Pc

namespace State

def place (s : State) (t : Nat) : Place := (s.pc t).place

/-- `t` is in the list of waiters. -/
def Waits (s : State) (t : Nat) : Prop := s.queue.Waits s.place t

/-- What holds of a thread at a place. -/
def OkAt (s : State) (t : Nat) : Pc → Prop
  | .idle => True
  | .entry k => s.CanCall t k
  | .trylock => s.recursive = true → s.depth t = 0
  | .wait .enter => s.depth t = 0 ∧ s.owner ≠ none
  | .leave | .taken | .toRelease | .release => s.depth t = 0 ∧ s.owner = some t
  | .unlock => s.owner = some t ∧ (s.recursive = false → s.depth t = 0)
  | _ => s.depth t = 0

def PcOk (s : State) (t : Nat) : Prop := s.OkAt t (s.pc t)

/-- `owner_id` and `nesting_cnt` of a recursive mutex. -/
def Nest (s : State) : Prop :=
  match s.owner with
  | none => s.ownerId = none ∧ s.nestingCnt = 0
  | some t =>
    if (s.pc t).unmarked then s.ownerId = none ∧ s.nestingCnt = 0
    else s.ownerId = some t ∧ s.nestingCnt + 1 = s.depth t + if s.pc t = .unlock then 1 else 0

end State

structure Inv (s : State) : Prop where
  queue : s.queue.Ok s.place
  lock : s.lock = s.owner.isSome
  holds : ∀ t, 0 < s.depth t → s.owner = some t
  single : s.recursive = false → ∀ t, s.depth t ≤ 1
  pcs : ∀ t, s.PcOk t
  held : ∀ t, s.owner = some t → (s.pc t).owns = true ∨ 0 < s.depth t
  nest : s.recursive = true → s.Nest
  woken : ∀ t, s.Waits t → s.owner ≠ none ∨ ∃ u, s.pc u = .wake

variable {ext : Nat → Bool} {fuel : Nat} {s s' : State} {t : Nat} {p : Pc}

theorem State.nest_some (h : s.owner = some t) : s.Nest ↔
    if (s.pc t).unmarked then s.ownerId = none ∧ s.nestingCnt = 0
    else s.ownerId = some t ∧ s.nestingCnt + 1 = s.depth t + if s.pc t = .unlock then 1 else 0 := by
  unfold State.Nest
  rw [h]

theorem State.pcOk_goto {q : WaitQueue} : ({ s with queue := q }.goto t p).PcOk t ↔ s.OkAt t p := by
  show State.OkAt _ t (Function.update s.pc t p t) ↔ _
  rw [Function.update_self]
  rfl

theorem place_update (s : State) (t : Nat) (p : Pc) :
    (s.goto t p).place = Function.update s.place t p.place :=
  Function.comp_update _ _ _ _

/-- What a thread knows does not depend on what the others do, as long as `lock` stays set for it.
-/
theorem State.PcOk.congr {u : Nat} (h : s.PcOk u) (hpc : s'.pc u = s.pc u)
    (hr : s'.recursive = s.recursive) (hd : s'.depth u = s.depth u)
    (ho : s.owner = some u → s'.owner = some u) (hs : s.pc u = .wait .enter → s'.owner ≠ none) :
    s'.PcOk u := by
  unfold State.PcOk State.OkAt State.CanCall at *
  rw [hpc, hr, hd]
  cases hpu : s.pc u with
  | wait l =>
    rw [hpu] at h hs
    cases l with
    | enter => exact ⟨h.1, hs rfl⟩
    | _ => exact h
  | leave => rw [hpu] at h; exact ⟨h.1, ho h.2⟩
  | taken => rw [hpu] at h; exact ⟨h.1, ho h.2⟩
  | toRelease => rw [hpu] at h; exact ⟨h.1, ho h.2⟩
  | release => rw [hpu] at h; exact ⟨h.1, ho h.2⟩
  | unlock => rw [hpu] at h; exact ⟨ho h.1, h.2⟩
  | _ => rw [hpu] at h; exact h

/-- A thread moves on, and nothing else than the queue changes. -/
theorem Inv.goto (h : Inv s) {q : WaitQueue} (hq : q.Ok (Function.update s.place t p.place))
    (hp : s.OkAt t p) (ho : s.owner = some t → (s.pc t).owns = true → p.owns = true)
    (hn : s.recursive = true → s.owner = some t → p.unmarked = (s.pc t).unmarked ∧ p ≠ .unlock ∧
      s.pc t ≠ .unlock) (hw : ∀ u, q.Waits (Function.update s.place t p.place) u →
      s.owner ≠ none ∨ ∃ v, ({ s with queue := q }.goto t p).pc v = .wake) :
    Inv ({ s with queue := q }.goto t p) where
  queue := by
    rw [place_update]
    exact hq
  lock := h.lock
  holds := h.holds
  single := h.single
  pcs u := by
    by_cases hu : u = t
    · rw [hu]
      exact State.pcOk_goto.mpr hp
    · refine (h.pcs u).congr (Function.update_of_ne hu _ _) rfl rfl (fun h => h) fun he => ?_
      have hpu := h.pcs u
      unfold State.PcOk at hpu
      rw [he] at hpu
      exact hpu.2
  held u hu := by
    refine (h.held u hu).imp_left fun hpu => ?_
    by_cases hut : u = t
    · subst hut
      simpa [State.goto] using ho hu hpu
    · simpa [State.goto, hut] using hpu
  nest hr := by
    have hnest := h.nest hr
    unfold State.Nest State.goto at *
    cases hown : s.owner with
    | none => simpa [hown] using hnest
    | some v =>
      simp only [hown] at hnest ⊢
      by_cases hv : v = t
      · subst hv
        obtain ⟨h1, h2, h3⟩ := hn hr hown
        simpa [h1, h2, h3] using hnest
      · simpa [hv] using hnest
  woken u hu := hw u (by
    unfold State.Waits at hu
    rwa [place_update] at hu)

/-- `lock` is set by a thread that found it free. -/
theorem Inv.take (h : Inv s) (hl : s.lock = false) (hu : p = .leave ∨ p = .taken)
    (hp : p.place = s.place t) (hd : s.recursive = true → s.depth t = 0) : Inv (s.take t p) := by
  have hnone : s.owner = none := by
    rw [h.lock] at hl
    cases ho : s.owner with
    | none => rfl
    | some v => rw [ho] at hl; cases hl
  have hzero : ∀ u, s.depth u = 0 := fun u => by
    rcases Nat.eq_zero_or_pos (s.depth u) with h0 | h0
    · exact h0
    · rw [h.holds u h0] at hnone
      cases hnone
  have hplace : (s.take t p).place = s.place := by
    unfold State.take
    rw [place_update, hp]
    exact Function.update_eq_self t s.place
  refine ⟨hplace ▸ h.queue, rfl, fun u hu => ?_, h.single, fun u => ?_, fun u hu' => ?_, fun hr =>
    ?_, fun u _ => .inl ?_⟩
  · exact absurd (hzero u) (Nat.pos_iff_ne_zero.mp hu)
  · by_cases hut : u = t
    · subst hut
      have hpc : (s.take u p).pc u = p := Function.update_self _ _ _
      unfold State.PcOk
      rw [hpc]
      rcases hu with rfl | rfl <;> exact ⟨hzero u, rfl⟩
    · refine (h.pcs u).congr (Function.update_of_ne hut _ _) rfl rfl (fun ho => ?_) fun _ =>
        Option.some_ne_none _
      rw [hnone] at ho
      cases ho
  · obtain rfl : t = u := Option.some.inj hu'
    have hpc : (s.take t p).pc t = p := Function.update_self _ _ _
    rw [hpc]
    rcases hu with rfl | rfl <;> exact .inl rfl
  · have hnest := h.nest hr
    unfold State.Nest at hnest ⊢
    rw [hnone] at hnest
    have hpc : (s.take t p).pc t = p := Function.update_self _ _ _
    show if ((s.take t p).pc t).unmarked = true then _ else _
    rw [hpc, if_pos (by rcases hu with rfl | rfl <;> rfl)]
    exact hnest
  · exact Option.some_ne_none _

/-- A call returns with the mutex. -/
theorem Inv.enter (h : Inv s) {n : Nat} {o : Option Nat} (ho : s.owner = some t)
    (hp : s.place t = .out) (hd : s.recursive = false → s.depth t = 0)
    (hn : s.recursive = true → o = some t ∧ n = s.depth t) :
    Inv ({ s with ownerId := o, nestingCnt := n }.enter t) := by
  generalize hs' : State.enter { s with ownerId := o, nestingCnt := n } t = s'
  have hpc : s'.pc = Function.update s.pc t .idle := by rw [← hs']; rfl
  have hdepth : s'.depth = Function.update s.depth t (s.depth t + 1) := by rw [← hs']; rfl
  have hown : s'.owner = some t := by rw [← hs']; exact ho
  have hplace : s'.place = s.place := by
    funext u
    unfold State.place
    rw [hpc]
    by_cases hut : u = t
    · subst hut
      rw [Function.update_self]
      exact hp.symm
    · rw [Function.update_of_ne hut]
  refine ⟨?_, ?_, fun u hu => ?_, fun hr u => ?_, fun u => ?_, fun u hu => .inr ?_, fun hr => ?_,
    fun u _ => .inl ?_⟩
  · rw [hplace, ← hs']
    exact h.queue
  · rw [← hs']
    exact h.lock
  · by_cases hut : u = t
    · rw [hut, hown]
    · rw [hdepth, Function.update_of_ne hut] at hu
      rw [hown, ← ho, h.holds u hu]
  · have hr : s.recursive = false := by rw [← hr, ← hs']; rfl
    rw [hdepth]
    by_cases hut : u = t
    · rw [hut, Function.update_self, hd hr]
    · rw [Function.update_of_ne hut]
      exact h.single hr u
  · by_cases hut : u = t
    · unfold State.PcOk
      rw [hut, hpc, Function.update_self]
      trivial
    · refine (h.pcs u).congr (by rw [hpc, Function.update_of_ne hut]) (by rw [← hs']; rfl)
        (by rw [hdepth, Function.update_of_ne hut]) (fun h => ?_) fun _ => ?_
      · rw [hown, ← ho, h]
      · rw [hown]
        exact Option.some_ne_none _
  · rw [hown] at hu
    rw [hdepth, ← Option.some.inj hu, Function.update_self]
    omega
  · obtain ⟨h1, h2⟩ := hn (by rw [← hr, ← hs']; rfl)
    rw [State.nest_some hown, hpc, Function.update_self, if_neg (by decide), hdepth,
      Function.update_self, if_neg (by decide), ← hs']
    exact ⟨h1, congrArg (· + 1) h2⟩
  · rw [hown]
    exact Option.some_ne_none _

/-- `ABTI_mutex_unlock` is called. -/
theorem Inv.callUnlock (h : Inv s) (hpc : s.pc t = .idle) (hd : 0 < s.depth t) :
    Inv ({ s with depth := Function.update s.depth t (s.depth t - 1) }.goto t .unlock) := by
  have ho := h.holds t hd
  have hle : ∀ u, Function.update s.depth t (s.depth t - 1) u ≤ s.depth u := fun u => by
    by_cases hut : u = t
    · subst hut
      rw [Function.update_self]
      omega
    · rw [Function.update_of_ne hut]
  refine ⟨?_, h.lock, fun u hu => h.holds u (hu.trans_le (hle u)), fun hr u =>
    (hle u).trans (h.single hr u), fun u => ?_, fun u hu => ?_, fun hr => ?_, fun u _ => .inl ?_⟩
  · rw [place_update]
    exact h.queue.goto (by unfold State.place; rw [hpc]; rfl)
  · by_cases hut : u = t
    · subst hut
      show State.OkAt _ u (Function.update s.pc u .unlock u)
      rw [Function.update_self]
      refine ⟨ho, fun hr => ?_⟩
      show Function.update s.depth u (s.depth u - 1) u = 0
      rw [Function.update_self]
      have hs := h.single hr u
      omega
    · refine (h.pcs u).congr (Function.update_of_ne hut _ _) rfl (Function.update_of_ne hut _ _)
        (fun h => h) fun _ => ?_
      show s.owner ≠ none
      rw [ho]
      exact Option.some_ne_none _
  · obtain rfl : t = u := Option.some.inj (ho.symm.trans hu)
    refine .inl ?_
    show (Function.update s.pc t .unlock t).owns = true
    rw [Function.update_self]
    rfl
  · have hnest := h.nest hr
    unfold State.Nest State.goto at *
    simp only [ho, hpc, Function.update_self] at hnest ⊢
    simp only [Pc.unmarked, Bool.false_eq_true, if_false, reduceCtorEq, if_true] at hnest ⊢
    exact ⟨hnest.1, by omega⟩
  · show s.owner ≠ none
    rw [ho]
    exact Option.some_ne_none _

/-- `lock` is released. -/
theorem Inv.release (h : Inv s) (hpc : s.pc t = .release) :
    Inv ({ s with lock := false, owner := none }.goto t .wake) := by
  obtain ⟨hd, ho⟩ : s.depth t = 0 ∧ s.owner = some t := by
    have ht := h.pcs t
    unfold State.PcOk at ht
    rwa [hpc] at ht
  have hzero : ∀ u, s.depth u = 0 := fun u => by
    rcases Nat.eq_zero_or_pos (s.depth u) with h0 | h0
    · exact h0
    · have hu := h.holds u h0
      rw [ho] at hu
      rwa [← Option.some.inj hu]
  have htl : s.queue.lock = some t := (h.queue.lock t).mp (by unfold State.place; rw [hpc]; rfl)
  refine ⟨?_, rfl, fun u hu => ?_, h.single, fun u => ?_, fun u hu => (by cases hu), fun hr => ?_,
    fun u _ => .inr ⟨t, ?_⟩⟩
  · rw [place_update]
    exact h.queue.goto (by unfold State.place; rw [hpc]; rfl)
  · exact absurd (hzero u) (Nat.pos_iff_ne_zero.mp hu)
  · by_cases hut : u = t
    · subst hut
      unfold State.PcOk State.goto
      simp only [Function.update_self]
      exact hzero u
    · refine (h.pcs u).congr (Function.update_of_ne hut _ _) rfl rfl (fun hu => ?_) fun hu => ?_
      · rw [ho] at hu
        exact absurd (Option.some.inj hu).symm hut
      -- it would have to hold `waiter_lock` too
      · have hul := (h.queue.lock u).mp (by unfold State.place; rw [hu]; rfl)
        rw [htl] at hul
        exact absurd (Option.some.inj hul).symm hut
  · have hnest := h.nest hr
    unfold State.Nest State.goto at *
    simp only [ho, hpc] at hnest ⊢
    simpa [Pc.unmarked] using hnest
  · exact Function.update_self _ _ _

theorem Inv.not_owner (h : Inv s) (hd : s.depth t = 0) (hp : (s.pc t).owns = false) :
    s.owner ≠ some t := fun ho => by
  rcases h.held t ho with h1 | h1
  · rw [hp] at h1
    cases h1
  · omega

theorem Inv.owner_of_lock (h : Inv s) (hl : s.lock = true) : s.owner ≠ none := fun ho => by
  rw [h.lock, ho] at hl
  cases hl

/-- A thread that is not in the list moves on. -/
theorem Inv.next (h : Inv s) {q : WaitQueue} (hwl : q.wl = s.queue.wl)
    (hq : q.Ok (Function.update s.place t p.place)) (hl : p.place.listed = false)
    (hpc : s.pc t ≠ .wake) (hp : s.OkAt t p)
    (ho : s.owner = some t → (s.pc t).owns = true → p.owns = true)
    (hn : s.recursive = true → s.owner = some t → p.unmarked = (s.pc t).unmarked ∧ p ≠ .unlock ∧
      s.pc t ≠ .unlock) :
    Inv ({ s with queue := q }.goto t p) := by
  refine h.goto hq hp ho hn fun u hu => ?_
  have hut : u ≠ t := fun hut => by
    have hul := hu.1
    rw [hut, Function.update_self, hl] at hul
    cases hul
  refine (h.woken u ((WaitQueue.waits_congr hwl hut).mp hu)).imp_right fun ⟨v, hv⟩ => ⟨v, ?_⟩
  have hvt : v ≠ t := fun hvt => hpc (hvt ▸ hv)
  exact (Function.update_of_ne hvt _ _).trans hv

/-- `waiter_lock` is taken. -/
theorem Inv.acquire (h : Inv s) (hout : s.place t = .out) (hin : p.place = .inside)
    (hpc : s.pc t ≠ .wake) (hp : s.OkAt t p)
    (ho : s.owner = some t → (s.pc t).owns = true → p.owns = true)
    (hn : s.recursive = true → s.owner = some t → p.unmarked = (s.pc t).unmarked ∧ p ≠ .unlock ∧
      s.pc t ≠ .unlock) :
    Inv (s.acquire t p) := by
  unfold State.acquire
  cases ha : s.queue.acquire t with
  | none => exact h
  | some q =>
    refine h.next ?_ ?_ (by rw [hin]; rfl) hpc hp ho hn
    · rw [(WaitQueue.acquire_some ha).2]
    · rw [hin]
      exact h.queue.acquire hout ha

theorem State.Nest.owner (h : s.Nest) (ho : s.ownerId = some t) : s.owner = some t := by
  unfold State.Nest at h
  cases hs : s.owner with
  | none =>
    rw [hs] at h
    exact absurd (h.1.symm.trans ho) (by simp)
  | some v =>
    rw [hs] at h
    dsimp only at h
    split at h
    · exact absurd (h.1.symm.trans ho) (by simp)
    · rw [← h.1, ho]

/-- `ABTI_mutex_unlock` of a recursive mutex has looked at `nesting_cnt`. -/
theorem Inv.unlocked (h : Inv s) (hpc : s.pc t = .unlock) {o : Option Nat} {n : Nat}
    (hp : p = .toRelease ∧ s.depth t = 0 ∧ (s.recursive = true → o = none ∧ n = 0) ∨
      p = .idle ∧ s.recursive = true ∧ o = some t ∧ n + 1 = s.depth t) :
    Inv ({ s with ownerId := o, nestingCnt := n }.goto t p) := by
  have ho : s.owner = some t := by
    have ht := h.pcs t
    unfold State.PcOk at ht
    rw [hpc] at ht
    exact ht.1
  have hout : p.place = .out := by rcases hp with ⟨rfl, -⟩ | ⟨rfl, -⟩ <;> rfl
  have hplace : (State.goto { s with ownerId := o, nestingCnt := n } t p).place = s.place := by
    rw [place_update, hout]
    refine (Function.update_eq_self_iff).mpr ?_
    show Place.out = (s.pc t).place
    rw [hpc]
    rfl
  have hself : (State.goto { s with ownerId := o, nestingCnt := n } t p).pc t = p :=
    Function.update_self _ _ _
  refine ⟨hplace ▸ h.queue, h.lock, h.holds, h.single, fun u => ?_, fun u hu => ?_, fun hr => ?_,
    fun u _ => .inl ?_⟩
  · by_cases hut : u = t
    · subst hut
      unfold State.PcOk
      rw [hself]
      rcases hp with ⟨rfl, hd, -⟩ | ⟨rfl, -⟩
      · exact ⟨hd, ho⟩
      · trivial
    · refine (h.pcs u).congr (Function.update_of_ne hut _ _) rfl rfl (fun h => h) fun _ => ?_
      show s.owner ≠ none
      rw [ho]
      exact Option.some_ne_none _
  · obtain rfl : t = u := Option.some.inj (ho.symm.trans hu)
    rw [hself]
    rcases hp with ⟨rfl, -⟩ | ⟨rfl, -, -, hn⟩
    · exact .inl rfl
    · exact .inr (show 0 < s.depth t by omega)
  · have ho' : (State.goto { s with ownerId := o, nestingCnt := n } t p).owner = some t := ho
    rw [State.nest_some ho', hself]
    rcases hp with ⟨rfl, -, hn⟩ | ⟨rfl, -, hn⟩
    · exact hn hr
    · exact hn
  · show s.owner ≠ none
    rw [ho]
    exact Option.some_ne_none _

theorem Inv.run (h : Inv s) (hrun : s.run ext fuel t = some s') : Inv s' := by
  have hpcs := h.pcs t
  unfold State.PcOk at hpcs
  unfold State.run at hrun
  have hq : ∀ p : Pc, s.place t = p.place → s.queue.Ok (Function.update s.place t p.place) :=
    fun p hp => h.queue.goto hp
  have hpl : s.place t = (s.pc t).place := rfl
  cases hpc : s.pc t with
  | idle =>
    rw [hpc] at hrun
    cases hrun
  | entry k =>
    rw [hpc] at hrun hpcs hpl
    obtain rfl := Option.some.inj hrun
    have hnest : s.recursive = true → 0 < s.depth t → s.ownerId = some t ∧
      s.nestingCnt + 1 = s.depth t := fun hr hd => by
      have hn := (State.nest_some (h.holds t hd)).mp (h.nest hr)
      rwa [hpc, if_neg (by simp [Pc.unmarked]), if_neg (by simp)] at hn
    split
    · rename_i hr
      have ho := (h.nest hr.1).owner hr.2
      have hd : 0 < s.depth t := (h.held t ho).resolve_left (by rw [hpc]; simp [Pc.owns])
      exact h.enter ho hpl (fun hf => absurd (hf.symm.trans hr.1) (by decide)) fun _ =>
        ⟨hr.2, (hnest hr.1 hd).2⟩
    · rename_i hr
      have hd : s.recursive = true → s.depth t = 0 := fun hrec => by
        rcases Nat.eq_zero_or_pos (s.depth t) with h0 | h0
        · exact h0
        · exact absurd ⟨hrec, (hnest hrec h0).1⟩ hr
      refine h.next rfl (hq k.body (by rw [hpl]; cases k <;> rfl)) (by cases k <;> rfl)
        (by rw [hpc]; simp) ?_
        (fun _ ho => ?_) fun hrec ho => absurd ho (h.not_owner (hd hrec) (by rw [hpc]; rfl))
      · rcases hpcs with rfl | hrec | h0
        · exact hd
        · cases k <;> first | exact hd hrec | exact fun _ => hd hrec
        · cases k <;> first | exact h0 | exact fun _ => h0
      · rw [hpc] at ho
        cases ho
  | attempt =>
    rw [hpc] at hrun hpcs hpl
    obtain rfl := Option.some.inj hrun
    have hno := h.not_owner hpcs (by rw [hpc]; rfl)
    split
    · exact h.next rfl (hq .waiter hpl) rfl (by rw [hpc]; decide) hpcs (fun ho => absurd ho hno)
        fun _ ho => absurd ho hno
    · rename_i hl
      exact h.take (by simpa using hl) (.inr rfl) hpl.symm fun _ => hpcs
  | waiter =>
    rw [hpc] at hrun hpcs hpl
    obtain rfl := Option.some.inj hrun
    have hno := h.not_owner hpcs (by rw [hpc]; rfl)
    exact h.acquire hpl rfl (by rw [hpc]; decide) hpcs (fun ho => absurd ho hno) fun _ ho =>
      absurd ho hno
  | retry =>
    rw [hpc] at hrun hpcs hpl
    obtain rfl := Option.some.inj hrun
    have hno := h.not_owner hpcs (by rw [hpc]; rfl)
    split
    · rename_i hl
      exact h.next rfl (h.queue.toWait hpl) rfl (by rw [hpc]; decide) ⟨hpcs, h.owner_of_lock hl⟩
        (fun ho => absurd ho hno) fun _ ho => absurd ho hno
    · rename_i hl
      exact h.take (by simpa using hl) (.inl rfl) hpl.symm fun _ => hpcs
  | leave =>
    rw [hpc] at hrun hpcs hpl
    obtain rfl := Option.some.inj hrun
    exact h.next rfl (h.queue.unlock hpl) rfl (by rw [hpc]; decide) hpcs (fun _ _ => rfl)
      fun _ _ => ⟨by rw [hpc]; rfl, by decide, by rw [hpc]; decide⟩
  | wait l =>
    rw [hpc] at hrun hpcs hpl
    have hd : s.depth t = 0 := by
      cases l <;> first | exact hpcs | exact hpcs.1
    have hno := h.not_owner hd (by rw [hpc]; rfl)
    obtain ⟨q, o, he, hok, hother, hself, hne⟩ := h.queue.sleep (ext t) hpl
    simp only [he, Option.bind_eq_bind, Option.bind_some, Option.pure_def,
      Option.some.injEq] at hrun
    subst hrun
    have hafter : (Pc.resume o).place = .after o := by
      cases o <;> rfl
    refine h.goto (hafter ▸ hok) ?_ (fun ho => absurd ho hno) (fun _ ho => absurd ho hno)
      fun u hu => ?_
    · cases o with
      | none => exact hd
      | some l => cases l <;> first | exact hd | exact absurd rfl hne
    · rw [hafter] at hu
      -- whoever waits has waited before, or has just found the mutex taken
      have hw : s.Waits u ∨ s.owner ≠ none := by
        by_cases hut : u = t
        · subst hut
          by_cases hl : l = .enter
          · subst hl
            exact .inr hpcs.2
          · exact .inl (hself hl hu)
        · exact .inl ((hother u hut).mp hu)
      rcases hw with hw | hw
      · refine (h.woken u hw).imp_right fun ⟨v, hv⟩ => ⟨v, ?_⟩
        have hvt : v ≠ t := fun hvt => by
          rw [hvt, hpc] at hv
          cases hv
        exact (Function.update_of_ne hvt _ _).trans hv
      · exact .inl hw
  | trylock =>
    rw [hpc] at hrun hpcs hpl
    obtain rfl := Option.some.inj hrun
    split
    · refine h.next rfl (hq .idle hpl) rfl (by rw [hpc]; decide) trivial (fun _ ho => ?_)
        fun hr ho => ?_
      · rw [hpc] at ho
        cases ho
      · exact absurd ho (h.not_owner (hpcs hr) (by rw [hpc]; rfl))
    · rename_i hl
      exact h.take (by simpa using hl) (.inr rfl) hpl.symm hpcs
  | spin =>
    rw [hpc] at hrun hpcs hpl
    obtain rfl := Option.some.inj hrun
    split
    · exact h
    · rename_i hl
      exact h.take (by simpa using hl) (.inr rfl) hpl.symm fun _ => hpcs
  | taken =>
    rw [hpc] at hrun hpcs hpl
    dsimp only at hrun
    have hn : s.recursive = true → s.ownerId = none ∧ s.nestingCnt = 0 := fun hr => by
      have hn := (State.nest_some hpcs.2).mp (h.nest hr)
      rwa [hpc, if_pos (by decide)] at hn
    split at hrun
    · rename_i hr
      split at hrun
      · obtain rfl := Option.some.inj hrun
        exact h.enter hpcs.2 hpl (fun _ => hpcs.1) fun _ => ⟨rfl, (hn hr).2.trans hpcs.1.symm⟩
      · cases hrun
    · rename_i hr
      obtain rfl := Option.some.inj hrun
      exact h.enter hpcs.2 hpl (fun _ => hpcs.1) fun hrec => absurd hrec hr
  | unlock =>
    rw [hpc] at hrun hpcs
    obtain rfl := Option.some.inj hrun
    have hn : s.recursive = true → s.ownerId = some t ∧ s.nestingCnt = s.depth t := fun hr => by
      have hn := (State.nest_some hpcs.1).mp (h.nest hr)
      rw [hpc, if_neg (by decide), if_pos rfl] at hn
      exact ⟨hn.1, by omega⟩
    split
    · rename_i hr
      split
      · rename_i h0
        exact h.unlocked hpc (.inl ⟨rfl, (hn hr).2.symm.trans h0, fun _ => ⟨rfl, h0⟩⟩)
      · rename_i h0
        exact h.unlocked hpc (.inr ⟨rfl, hr, (hn hr).1, by have := (hn hr).2; omega⟩)
    · rename_i hr
      exact h.unlocked hpc (.inl ⟨rfl, hpcs.2 (by simpa using hr), fun hrec => absurd hrec hr⟩)
  | toRelease =>
    rw [hpc] at hrun hpcs hpl
    obtain rfl := Option.some.inj hrun
    exact h.acquire hpl rfl (by rw [hpc]; decide) hpcs (fun _ _ => rfl)
      fun _ _ => ⟨by rw [hpc]; rfl, by decide, by rw [hpc]; decide⟩
  | release =>
    rw [hpc] at hrun
    obtain rfl := Option.some.inj hrun
    exact h.release hpc
  | wake =>
    rw [hpc] at hrun hpcs hpl
    have hno := h.not_owner hpcs (by rw [hpc]; rfl)
    obtain ⟨n, q, hb, hok, hnone⟩ := h.queue.broadcast
    simp only [hb fuel] at hrun
    split at hrun
    swap
    · cases hrun
    simp only [Option.bind_eq_bind, Option.bind_some, Option.pure_def, Option.some.injEq] at hrun
    subst hrun
    have hsame : Function.update s.place t (Pc.released).place = s.place :=
      Function.update_eq_self_iff.mpr hpl.symm
    refine h.goto (by rw [hsame]; exact hok) hpcs (fun ho => absurd ho hno)
      (fun _ ho => absurd ho hno) fun u hu => ?_
    rw [hsame] at hu
    exact absurd hu (hnone u)
  | released =>
    rw [hpc] at hrun hpcs hpl
    obtain rfl := Option.some.inj hrun
    have hno := h.not_owner hpcs (by rw [hpc]; rfl)
    exact h.next rfl (h.queue.unlock hpl) rfl (by rw [hpc]; decide) trivial
      (fun ho => absurd ho hno)
      fun _ ho => absurd ho hno

/-! ## Runs -/

theorem Inv.step {l : Label} (h : Inv s) (hs : (sys ext).step s l s') : Inv s' := by
  cases l with
  | run t fuel => exact h.run hs
  | call t k =>
    obtain ⟨hpc, hc, rfl⟩ := hs
    have hpl : s.place t = (Pc.entry k).place := by unfold State.place; rw [hpc]; rfl
    refine h.next rfl (h.queue.goto hpl) rfl (by rw [hpc]; decide) hc (fun _ ho => ?_)
      fun _ _ => ⟨by rw [hpc]; rfl, by simp, by rw [hpc]; decide⟩
    rw [hpc] at ho
    cases ho
  | unlock t =>
    obtain ⟨hpc, hd, rfl⟩ := hs
    exact h.callUnlock hpc hd
  | links a next prev =>
    obtain ⟨ha, rfl⟩ := hs
    have hplace : (s.place a).listed = false := by
      unfold State.place
      cases hpc : s.pc a with
      | wait l => exact absurd hpc (ha l)
      | _ => rfl
    have hq := h.queue.links hplace (fun n => { n with next := next, prev := prev }) fun _ => rfl
    refine ⟨hq, h.lock, h.holds, h.single, h.pcs, h.held, h.nest, fun t ht => h.woken t ⟨ht.1, ?_⟩⟩
    rw [← ht.2]
    unfold WaitQueue.isReady
    by_cases hta : t = a <;> simp [hta]

theorem inv_of_reach (h : (sys ext).Reach s) : Inv s := by
  refine LTS.ReachIf.induct (fun s hs => ?_) (fun s l s' h _ hs => h.step hs) h
  obtain ⟨h1, h2, h3, h4, h5, h6, h7, h8, h9⟩ := hs
  have hnone : ∀ t, s.owner ≠ some t := fun t ht => by
    rw [h8] at ht
    cases ht
  have hout : ∀ t, s.place t = .out := fun t => by
    unfold State.place
    rw [h7]
    rfl
  refine ⟨WaitQueue.ok_init h2 h3 h4 hout, by
    rw [h1, h8]; rfl, fun t ht => ?_, fun _ t => ?_, fun t => ?_, fun t ht => absurd ht (hnone t),
      fun _ => ?_, fun t ht => ?_⟩
  · rw [h9] at ht
    omega
  · rw [h9]
    omega
  · unfold State.PcOk
    rw [h7]
    trivial
  · unfold State.Nest
    rw [h8]
    exact ⟨h5, h6⟩
  · have hl := ht.1
    rw [hout] at hl
    cases hl

/-- A thread inside a call always has a next step: the list has no dangling link, and `nesting_cnt`
is 0 whenever the mutex has just been taken. -/
theorem Inv.run_defined (h : Inv s) (hpc : s.pc t ≠ .idle) :
    ∃ n, ∀ fuel, n ≤ fuel → (s.run ext fuel t).isSome = true := by
  unfold State.run
  cases hp : s.pc t with
  | idle => exact absurd hp hpc
  | wait l =>
    obtain ⟨q, o, he, -⟩ :=
      h.queue.sleep (ext t) (show s.place t = .wait l by unfold State.place; rw [hp]; rfl)
    refine ⟨0, fun fuel _ => ?_⟩
    simp [he]
  | taken =>
    have hpcs := h.pcs t
    unfold State.PcOk at hpcs
    rw [hp] at hpcs
    refine ⟨0, fun fuel _ => ?_⟩
    cases hr : s.recursive with
    | true =>
      have hn := (State.nest_some hpcs.2).mp (h.nest hr)
      rw [hp, if_pos (by decide)] at hn
      simp [hn.2]
    | false => rfl
  | wake =>
    obtain ⟨n, q, hb, -⟩ := h.queue.broadcast
    refine ⟨n, fun fuel hf => ?_⟩
    simp [hb, hf]
  | _ => exact ⟨0, fun _ _ => rfl⟩

/-! ## Nested calls -/

/-- A call that is not counted in `depth` and may be in `nesting_cnt`, or the other way. -/
def Pc.counts : Pc → Bool
  | entry _ | unlock => true
  | _ => false

/-- `depth` goes up where a call returns with the mutex. -/
theorem run_depth (hr : s.run ext fuel t = some s') : ∃ p : Pc, p.counts = false ∧
    s'.pc = Function.update s.pc t p ∧ (s'.depth = s.depth ∨
      s'.depth = Function.update s.depth t (s.depth t + 1) ∧
      ((s.pc t).counts = true ∨ s.pc t = .taken)) := by
  have hself : ∀ {p}, s.pc t = p → s.pc = Function.update s.pc t p := fun hp => by
    rw [← hp, Function.update_eq_self]
  unfold State.run at hr
  cases hpc : s.pc t with
  | idle =>
    rw [hpc] at hr
    cases hr
  | entry k =>
    rw [hpc] at hr
    obtain rfl := Option.some.inj hr
    split
    · exact ⟨.idle, rfl, rfl, .inr ⟨rfl, .inl rfl⟩⟩
    · exact ⟨k.body, by cases k <;> rfl, rfl, .inl rfl⟩
  | waiter | toRelease =>
    rw [hpc] at hr
    obtain rfl := Option.some.inj hr
    unfold State.acquire
    split
    · exact ⟨_, rfl, rfl, .inl rfl⟩
    · exact ⟨_, rfl, hself hpc, .inl rfl⟩
  | attempt | retry | trylock =>
    rw [hpc] at hr
    obtain rfl := Option.some.inj hr
    split <;> exact ⟨_, rfl, rfl, .inl rfl⟩
  | spin =>
    rw [hpc] at hr
    obtain rfl := Option.some.inj hr
    split
    · exact ⟨_, rfl, hself hpc, .inl rfl⟩
    · exact ⟨_, rfl, rfl, .inl rfl⟩
  | leave | release | released =>
    rw [hpc] at hr
    obtain rfl := Option.some.inj hr
    exact ⟨_, rfl, rfl, .inl rfl⟩
  | wait l =>
    rw [hpc] at hr
    obtain ⟨r, -, hr⟩ := Option.bind_eq_some_iff.1 hr
    obtain rfl := Option.some.inj hr
    exact ⟨.resume r.2, by cases r.2 <;> rfl, rfl, .inl rfl⟩
  | taken =>
    rw [hpc] at hr
    dsimp only at hr
    split at hr
    · split at hr
      · obtain rfl := Option.some.inj hr
        exact ⟨_, rfl, rfl, .inr ⟨rfl, .inr rfl⟩⟩
      · cases hr
    · obtain rfl := Option.some.inj hr
      exact ⟨_, rfl, rfl, .inr ⟨rfl, .inr rfl⟩⟩
  | unlock =>
    rw [hpc] at hr
    obtain rfl := Option.some.inj hr
    split
    · split <;> exact ⟨_, rfl, rfl, .inl rfl⟩
    · exact ⟨_, rfl, rfl, .inl rfl⟩
  | wake =>
    rw [hpc] at hr
    obtain ⟨q, -, hr⟩ := Option.bind_eq_some_iff.1 hr
    obtain rfl := Option.some.inj hr
    exact ⟨_, rfl, rfl, .inl rfl⟩

/-- What `nesting_cnt` counts. -/
def Bounded (s : State) : Prop :=
  ∀ t, s.depth t ≤ INT_MAX + 1 ∧ ((s.pc t).counts = true → s.depth t ≤ INT_MAX)

theorem Bounded.run (hb : Bounded s) (h : Inv s)
    (hr : s.run ext fuel t = some s') : Bounded s' := by
  obtain ⟨p, hp, hpc, hd⟩ := run_depth hr
  intro u
  rw [hpc]
  by_cases hu : u = t
  · subst hu
    rw [Function.update_self, hp]
    refine ⟨?_, fun hf => by cases hf⟩
    rcases hd with hd | ⟨hd, hc | hc⟩
    · rw [hd]
      exact (hb u).1
    · rw [hd, Function.update_self]
      exact Nat.succ_le_succ ((hb u).2 hc)
    · have h0 := h.pcs u
      unfold State.PcOk at h0
      rw [hc] at h0
      rw [hd, Function.update_self, h0.1]
      exact Nat.succ_le_succ (Nat.zero_le _)
  · have hsame : s'.depth u = s.depth u := by
      rcases hd with hd | ⟨hd, -⟩
      · rw [hd]
      · rw [hd, Function.update_of_ne hu]
    rw [Function.update_of_ne hu, hsame]
    exact hb u

theorem Bounded.step {l : Label} (hb : Bounded s) (h : Inv s) (hn : Nested s l)
    (hs : (sys ext).step s l s') :
    Bounded s' := by
  cases l with
  | run t fuel => exact hb.run h hs
  | call t k =>
    obtain ⟨-, -, rfl⟩ := hs
    intro u
    by_cases hu : u = t
    · rw [hu]
      exact ⟨(hb t).1, fun _ => hn⟩
    · show s.depth u ≤ _ ∧ ((Function.update s.pc t _ u).counts = true → _)
      rw [Function.update_of_ne hu]
      exact hb u
  | unlock t =>
    obtain ⟨-, hd, rfl⟩ := hs
    intro u
    show Function.update s.depth t _ u ≤ _ ∧ ((Function.update s.pc t _ u).counts = true →
      Function.update s.depth t _ u ≤ _)
    have ht := (hb t).1
    by_cases hu : u = t
    · rw [hu, Function.update_self]
      exact ⟨by omega, fun _ => by omega⟩
    · rw [Function.update_of_ne hu, Function.update_of_ne hu]
      exact hb u
  | links a next prev =>
    obtain ⟨-, rfl⟩ := hs
    exact hb

theorem bounded_of_reach (h : (sys ext).ReachIf Nested s) : Bounded s := by
  have hb : Inv s ∧ Bounded s := by
    refine LTS.ReachIf.induct (P := fun s => Inv s ∧ Bounded s)
      (fun s hi => ⟨inv_of_reach (.init hi), ?_⟩)
      (fun s l s' h hn hs => ⟨h.1.step hs, h.2.step h.1 hn hs⟩) h
    obtain ⟨-, -, -, -, -, -, -, -, hd⟩ := hi
    intro t
    rw [hd]
    exact ⟨Nat.zero_le _, fun _ => Nat.zero_le _⟩
  exact hb.2

/-- `nesting_cnt` does not overflow. -/
theorem Inv.nestingCnt_le (h : Inv s) (hb : Bounded s) (hr : s.recursive = true) :
    s.nestingCnt ≤ INT_MAX := by
  have hn := h.nest hr
  cases ho : s.owner with
  | none =>
    unfold State.Nest at hn
    rw [ho] at hn
    omega
  | some t =>
    rw [State.nest_some ho] at hn
    have ht := hb t
    split at hn
    · omega
    · by_cases hu : s.pc t = .unlock
      · have hle := ht.2 (by rw [hu]; rfl)
        rw [if_pos hu] at hn
        omega
      · rw [if_neg hu] at hn
        omega

/-! ## A run -/

/-- A mutex that nobody uses. -/
def start (recursive : Bool) : State where
  lock := false
  queue := ⟨none, ⟨none, none, fun _ => ⟨none, none, false⟩⟩⟩
  recursive := recursive
  ownerId := none
  nestingCnt := 0
  pc _ := .idle
  owner := none
  depth _ := 0

/-- The next step of a ULT. -/
def next : State → Nat → Option State := State.run (fun _ => false) 8

/-- Thread 0 has the mutex, and thread 1 is in the list. -/
def contended : State :=
  runs next ((runs next ((start true).goto 0 (.entry .lock)) [0, 0, 0]).goto 1 (.entry .lock))
    [1, 1, 1, 1, 1]

theorem reachIf_contended {C : State → Label → Prop} (hC : ∀ s t, C s (.run t 8))
    (h0 : ∀ t, C (start true) (.call t .lock)) (h1 : ∀ s, s.depth 1 = 0 → C s (.call 1 .lock)) :
    (sys fun _ => false).ReachIf C contended := by
  have hstart : (sys fun _ => false).ReachIf C (start true) :=
    .init ⟨rfl, rfl, rfl, rfl, rfl, rfl, fun _ => rfl, rfl, fun _ => rfl⟩
  have hrun : ∀ s t s', next s t = some s' → C s (.run t 8) ∧
    (sys fun _ => false).step s (.run t 8) s' :=
    fun s t _ hs => ⟨hC s t, hs⟩
  have hcall : (sys fun _ => false).ReachIf C ((start true).goto 0 (.entry .lock)) :=
    hstart.step (a := .call 0 .lock) (h0 0) ⟨rfl, .inr (.inl rfl), rfl⟩
  have hlock := hcall.runs hrun [0, 0, 0]
  have hcall : (sys fun _ => false).ReachIf C
      ((runs next ((start true).goto 0 (.entry .lock)) [0, 0, 0]).goto 1 (.entry .lock)) :=
    hlock.step (a := .call 1 .lock) (h1 _ rfl) ⟨rfl, .inr (.inl rfl), rfl⟩
  exact hcall.runs hrun [1, 1, 1, 1, 1]

theorem reach_contended : (sys fun _ => false).Reach contended :=
  reachIf_contended (fun _ _ => trivial) (fun _ => trivial) fun _ _ => trivial

theorem contended_waits : contended.Waits 1 := ⟨rfl, rfl⟩

/-- A thread that has the mutex is alone, whatever the order of the steps, and `nesting_cnt` says
how often it has taken it: a recursive mutex is free again after as many calls of
`ABT_mutex_unlock`. No `int` is too small for `nesting_cnt` as long as no thread nests more than
2^31 calls. -/
theorem mutex_excludes (h : (sys ext).ReachIf Nested s) :
    (∀ t u, 0 < s.depth t → 0 < s.depth u → t = u) ∧
      (∀ t, 0 < s.depth t → s.lock = true) ∧
      (s.recursive = false → ∀ t, s.depth t ≤ 1) ∧
      (s.recursive = true → s.nestingCnt ≤ INT_MAX ∧ ∀ t, s.pc t = .idle → 0 < s.depth t →
        s.ownerId = some t ∧ s.nestingCnt + 1 = s.depth t) := by
  have hi := inv_of_reach h.reach
  refine ⟨fun t u ht hu => ?_, fun t ht => ?_, hi.single, fun hr =>
    ⟨hi.nestingCnt_le (bounded_of_reach h) hr, fun t hpc ht => ?_⟩⟩
  · exact Option.some.inj ((hi.holds t ht).symm.trans (hi.holds u hu))
  · rw [hi.lock, hi.holds t ht]
    rfl
  · have hn := (State.nest_some (hi.holds t ht)).mp (hi.nest hr)
    rwa [hpc, if_neg (by decide), if_neg (by decide)] at hn

theorem mutex_excludes_contended :
    (∀ t u, 0 < contended.depth t → 0 < contended.depth u → t = u) ∧
      (∀ t, 0 < contended.depth t → contended.lock = true) ∧
      (contended.recursive = false → ∀ t, contended.depth t ≤ 1) ∧
      (contended.recursive = true → contended.nestingCnt ≤ INT_MAX ∧
        ∀ t, contended.pc t = .idle → 0 < contended.depth t →
          contended.ownerId = some t ∧ contended.nestingCnt + 1 = contended.depth t) := by
  refine mutex_excludes
    (reachIf_contended (fun _ _ => trivial) (fun _ => Nat.zero_le _) fun s hs => ?_)
  show s.depth 1 ≤ INT_MAX
  rw [hs]
  exact Nat.zero_le _

/-- No wake-up is lost: while a thread waits in the list, `lock` is set, or the thread that has
released it is about to wake everyone in the list. -/
theorem mutex_wakes (h : (sys ext).Reach s) {t : Nat} (ht : s.Waits t) :
    s.lock = true ∨ ∃ u, s.pc u = .wake := by
  have hi := inv_of_reach h
  refine (hi.woken t ht).imp_left fun ho => ?_
  rw [hi.lock]
  exact Option.isSome_iff_ne_none.mpr ho

theorem mutex_wakes_contended : contended.lock = true ∨ ∃ u, contended.pc u = .wake :=
  mutex_wakes reach_contended contended_waits

theorem mutex_defined (h : (sys ext).Reach s) (hpc : s.pc t ≠ .idle) :
    ∃ n, ∀ fuel, n ≤ fuel → (s.run ext fuel t).isSome = true :=
  (inv_of_reach h).run_defined hpc

end Abt.Mutex

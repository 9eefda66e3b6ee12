import Staut.Lib.SlotRing
import Staut.Pthread.Fifo

/-!
# The queue as a ring of slots

`Fifo.view` is the queue as a `SlotRing`: a push reserves a position with its compare-and-swap and
fills it with its store, a pop takes one and loads it. `FifoInv` is kept by the steps that meet
`FifoOrdered`: the test of a push or pop still holds when its compare-and-swap succeeds, and the
accesses to one element of `que` come in the order of the positions.

Neither is checked. A pop that comes between the compare-and-swap of a push and its store returns
what was in the element before (`fifo_returned_twice`), and a push that was tested before `wp` went
round makes the queue one too long (`fifo_overfull`).
-/

set_option autoImplicit false

namespace Pthread

open Run Cyclic SlotRing

variable {T : Type}

/-- The position whose element a pop is about to load. -/
def FifoPc.taken : FifoPc T → Option Nat
  | .popRead _ n => some n
  | _ => none

/-- The position whose element a push is about to store. -/
def FifoPc.reserved : FifoPc T → Option Nat
  | .pushStore _ _ n => some n
  | _ => none

/-- A compare-and-swap that succeeds does not make a full queue longer or take from an empty one. No
pop loads the element of an entry that is not stored, and no push stores into an element that a pop
has taken in an earlier round and not loaded. -/
def FifoOrdered (QD : Nat) (s : Fifo T) : FifoOp T → Prop
  | .run t =>
    match s.pc t with
    | .pushCas _ oldWp => s.wp = oldWp → (s.wp + 1) % QD ≠ s.rp
    | .pushStore _ _ n => ∀ u p, (s.pc u).taken = some p → p % QD = n % QD → n ≤ p
    | .popCas oldRp => s.rp = oldRp → s.rp ≠ s.wp
    | .popRead _ n => ∀ u, (s.pc u).reserved ≠ some n
    | _ => True
  | _ => True

def Fifo.view (s : Fifo T) : View (Option T) where
  slot := s.que
  popped := s.pops
  pushed := s.pushes.length
  taken := positions FifoPc.taken s.pc
  reserved := positions FifoPc.reserved s.pc
  filled := s.filled

def FifoPcOk (QD : Nat) (s : Fifo T) : FifoPc T → Prop
  | .pushStore entry oldWp n => oldWp = n % QD ∧ s.pushes[n]? = some entry
  | .popRead oldRp n => oldRp = n % QD ∧ ∀ r ∈ s.got, r.1 ≠ n
  | _ => True

structure FifoInv (QD : Nat) (s : Fifo T) : Prop where
  rp : s.rp = s.pops % QD
  wp : s.wp = s.pushes.length % QD
  ok : Ok QD s.view
  size : s.pushes.length ≤ s.pops + (QD - 1)
  pcs : ∀ t, FifoPcOk QD s (s.pc t)
  taken : Unique FifoPc.taken s.pc
  reserved : Unique FifoPc.reserved s.pc
  filled : ∀ n entry, s.filled n = some entry → s.pushes[n]? = some entry
  got : ∀ r ∈ s.got, r.1 < s.pops ∧ s.filled r.1 = some r.2
  once : (s.got.map (·.1)).Nodup

section
variable {QD : Nat} {s s' : Fifo T} {t : Nat} {pc : FifoPc T}

@[simp] theorem fifo_goto_pc (s : Fifo T) (t : Nat) (pc : FifoPc T) (u : Nat) :
    (s.goto t pc).pc u = if u = t then pc else s.pc u := Function.update_apply _ _ _ _

/-- The places of the threads after one of them has gone on. -/
theorem fifoPcs_goto (h : ∀ u, u ≠ t → FifoPcOk QD (s.goto t pc) (s.pc u))
    (hpc : FifoPcOk QD (s.goto t pc) pc) (u : Nat) :
    FifoPcOk QD (s.goto t pc) ((s.goto t pc).pc u) := by
  rw [fifo_goto_pc]
  split
  · exact hpc
  · rename_i hu
    exact h u hu

/-- A step that leaves the queue alone. -/
theorem FifoInv.move (h : FifoInv QD s) (ht : pc.taken = (s.pc t).taken)
    (hr : pc.reserved = (s.pc t).reserved) (hpc : FifoPcOk QD s pc) : FifoInv QD (s.goto t pc) := by
  have hview : (s.goto t pc).view = s.view := by
    simp only [Fifo.view, Fifo.goto]
    rw [positions_same ht, positions_same hr]
  refine ⟨h.rp, h.wp, ?_, h.size, ?_, ?_, ?_, h.filled, h.got, h.once⟩
  · rw [hview]
    exact h.ok
  · exact fifoPcs_goto (fun u _ => h.pcs u) hpc
  · refine h.taken.update fun p hp i hi hpi => hi (h.taken i t p hpi ?_)
    rw [← ht, hp]
  · refine h.reserved.update fun p hp i hi hpi => hi (h.reserved i t p hpi ?_)
    rw [← hr, hp]

/-! ## The four steps on the queue -/

theorem FifoInv.reserve {entry : Option T} {oldWp : Nat} (h : FifoInv QD s)
    (hpc : s.pc t = .pushCas entry oldWp) (hwp : s.wp = oldWp) (hroom : (s.wp + 1) % QD ≠ s.rp)
    (hQ : 2 ≤ QD) :
    FifoInv QD ((s.reserve QD entry oldWp).goto t (.pushStore entry oldWp s.pushes.length)) := by
  have hold : oldWp = s.pushes.length % QD := by rw [← hwp, h.wp]
  -- a queue with `QD - 1` entries would fail the test
  have hlt : s.pushes.length < s.pops + (QD - 1) := by
    refine Nat.lt_of_le_of_ne h.size fun heq => hroom ?_
    rw [h.wp, h.rp, Nat.mod_add_mod, heq, show s.pops + (QD - 1) + 1 = s.pops + QD by omega,
      Nat.add_mod_right]
  have hview : Fifo.view
    ((s.reserve QD entry oldWp).goto t (.pushStore entry oldWp s.pushes.length)) =
      s.view.reserve := by
    simp only [Fifo.view, Fifo.goto, Fifo.reserve, View.reserve, List.length_append,
      List.length_singleton]
    rw [positions_same (g := FifoPc.taken) (by rw [hpc]; rfl),
      positions_insert (g := FifoPc.reserved) (by rw [hpc]; rfl) rfl]
  have hfilled : ∀ (n : Nat) (e : Option T), s.pushes[n]? = some e →
    (s.pushes ++ [entry])[n]? = some e := by
    intro n e hn
    rw [List.getElem?_append_left (List.getElem?_eq_some_iff.1 hn).1, hn]
  refine ⟨h.rp, ?_, ?_, ?_, ?_, ?_, ?_, ?_, h.got, h.once⟩
  · show (oldWp + 1) % QD = (s.pushes ++ [entry]).length % QD
    rw [hold, Nat.mod_add_mod, List.length_append, List.length_singleton]
  · rw [hview]
    exact h.ok.reserve (by show s.pushes.length < s.pops + QD; omega)
  · show (s.pushes ++ [entry]).length ≤ s.pops + (QD - 1)
    rw [List.length_append, List.length_singleton]
    omega
  · refine fifoPcs_goto (fun u _ => ?_) ⟨hold, ?_⟩
    · have hu := h.pcs u
      show FifoPcOk QD ((s.reserve QD entry oldWp).goto t _) (s.pc u)
      cases hpu : s.pc u with
      | pushStore e o n =>
        rw [hpu] at hu
        exact ⟨hu.1, hfilled n e hu.2⟩
      | popRead o n =>
        rw [hpu] at hu
        exact hu
      | _ => trivial
    · exact List.getElem?_concat_length
  · exact h.taken.update fun p hp => by cases hp
  · refine h.reserved.update fun p hp i _ hpi => ?_
    cases hp
    exact lt_irrefl _ (h.ok.unloaded_lt (h.ok.unloaded s.pushes.length ⟨i, hpi⟩))
  · exact fun n e hn => hfilled n e (h.filled n e hn)

theorem FifoInv.store {entry : Option T} {oldWp n : Nat} (h : FifoInv QD s)
    (hpc : s.pc t = .pushStore entry oldWp n)
    (hord : ∀ u p, (s.pc u).taken = some p → p % QD = n % QD → n ≤ p) :
    FifoInv QD ((s.store entry oldWp n).goto t .idle) := by
  have hok := h.pcs t
  rw [hpc] at hok
  have hmem : n ∈ s.view.reserved := ⟨t, by rw [hpc]; rfl⟩
  have hview : Fifo.view ((s.store entry oldWp n).goto t .idle) = s.view.fill QD n entry := by
    simp only [Fifo.view, Fifo.goto, Fifo.store, View.fill, hok.1]
    rw [positions_same (by rw [hpc]; rfl), positions_remove h.reserved (by rw [hpc]; rfl) rfl]
  refine ⟨h.rp, h.wp, ?_, h.size, ?_, ?_, ?_, ?_, ?_, h.once⟩
  · rw [hview]
    refine h.ok.fill hmem ?_
    rintro p ⟨u, hu⟩ hmod
    exact hord u p hu hmod
  · exact fifoPcs_goto (fun u _ => h.pcs u) trivial
  · exact h.taken.update fun p hp => by cases hp
  · exact h.reserved.update fun p hp => by cases hp
  · intro m e hm
    have hm' : Function.update s.filled n (some entry) m = some e := hm
    by_cases hmn : m = n
    · rw [hmn, Function.update_self] at hm'
      rw [hmn, ← hm']
      exact hok.2
    · rw [Function.update_of_ne hmn] at hm'
      exact h.filled m e hm'
  · intro r hr
    have hne : r.1 ≠ n := by
      intro heq
      have hfilled := (h.got r hr).2
      rw [heq, show s.filled n = none from h.ok.filled_none n hmem] at hfilled
      cases hfilled
    exact ⟨(h.got r hr).1, (Function.update_of_ne hne _ _).trans (h.got r hr).2⟩

theorem FifoInv.take {oldRp : Nat} (h : FifoInv QD s) (hpc : s.pc t = .popCas oldRp)
    (hrp : s.rp = oldRp) (hne : s.rp ≠ s.wp) :
    FifoInv QD ((s.take QD oldRp).goto t (.popRead oldRp s.pops)) := by
  have hold : oldRp = s.pops % QD := by rw [← hrp, h.rp]
  have hlt : s.pops < s.pushes.length := by
    refine Nat.lt_of_le_of_ne h.ok.le fun heq => hne ?_
    rw [h.rp, h.wp, heq]
  have hview : Fifo.view ((s.take QD oldRp).goto t (.popRead oldRp s.pops)) = s.view.take := by
    simp only [Fifo.view, Fifo.goto, Fifo.take, View.take]
    rw [positions_same (g := FifoPc.reserved) (by rw [hpc]; rfl),
      positions_insert (g := FifoPc.taken) (by rw [hpc]; rfl) rfl]
  refine ⟨?_, h.wp, ?_, ?_, ?_, ?_, ?_, h.filled, ?_, h.once⟩
  · show (oldRp + 1) % QD = (s.pops + 1) % QD
    rw [hold, Nat.mod_add_mod]
  · rw [hview]
    exact h.ok.take hlt
  · show s.pushes.length ≤ s.pops + 1 + (QD - 1)
    have := h.size
    omega
  · refine fifoPcs_goto (fun u _ => h.pcs u) ⟨hold, fun r hr heq => ?_⟩
    exact absurd (h.got r hr).1 (Nat.not_lt.2 heq.ge)
  · refine h.taken.update fun p hp i _ hpi => ?_
    cases hp
    exact lt_irrefl _ (h.ok.taken_lt s.pops ⟨i, hpi⟩)
  · exact h.reserved.update fun p hp => by cases hp
  · exact fun r hr => ⟨Nat.lt_succ_of_lt (h.got r hr).1, (h.got r hr).2⟩

theorem FifoInv.read {oldRp n : Nat} (h : FifoInv QD s) (hpc : s.pc t = .popRead oldRp n)
    (hord : ∀ u, (s.pc u).reserved ≠ some n) : FifoInv QD ((s.read oldRp n).goto t .idle) := by
  have hok := h.pcs t
  rw [hpc] at hok
  have hmem : n ∈ s.view.taken := ⟨t, by rw [hpc]; rfl⟩
  have hnot : n ∉ s.view.reserved := fun ⟨u, hu⟩ => hord u hu
  have hview : Fifo.view ((s.read oldRp n).goto t .idle) = s.view.load n := by
    simp only [Fifo.view, Fifo.goto, Fifo.read, View.load]
    rw [positions_same (g := FifoPc.reserved) (by rw [hpc]; rfl),
      positions_remove h.taken (by rw [hpc]; rfl) rfl]
  have hload : s.filled n = some (s.que oldRp) := by
    rw [hok.1]
    exact h.ok.load_eq hmem hnot
  refine ⟨h.rp, h.wp, ?_, h.size, ?_, ?_, ?_, h.filled, ?_, ?_⟩
  · rw [hview]
    exact h.ok.load hmem hnot
  · refine fifoPcs_goto (fun u hu => ?_) trivial
    have hpu := h.pcs u
    show FifoPcOk QD ((s.read oldRp n).goto t .idle) (s.pc u)
    cases hp : s.pc u with
    | popRead o m =>
      rw [hp] at hpu
      refine ⟨hpu.1, fun r hr heq => ?_⟩
      rcases List.mem_append.1 hr with hr | hr
      · exact hpu.2 r hr heq
      · -- the other thread would have the same position
        rw [List.mem_singleton.1 hr] at heq
        exact hu (h.taken u t n (by rw [hp]; exact congrArg some heq.symm) (by rw [hpc]; rfl))
    | pushStore e o m =>
      rw [hp] at hpu
      exact hpu
    | _ => trivial
  · exact h.taken.update fun p hp => by cases hp
  · exact h.reserved.update fun p hp => by cases hp
  · intro r hr
    rcases List.mem_append.1 hr with hr | hr
    · exact h.got r hr
    · rw [List.mem_singleton.1 hr]
      exact ⟨h.ok.taken_lt n hmem, hload⟩
  · show ((s.got ++ [(n, s.que oldRp)]).map (·.1)).Nodup
    rw [List.map_append, List.map_singleton, List.nodup_append]
    refine ⟨h.once, List.pairwise_singleton _ _, ?_⟩
    intro a ha b hb heq
    obtain ⟨r, hr, hra⟩ := List.mem_map.1 ha
    rw [List.mem_singleton] at hb
    exact hok.2 r hr (by rw [hra, heq, hb])

/-! ## Runs -/

theorem FifoInv.run (h : FifoInv QD s) (hQ : 2 ≤ QD) (hord : FifoOrdered QD s (.run t))
    (hs : s.run QD t = some s') : FifoInv QD s' := by
  unfold Fifo.run at hs
  simp only [FifoOrdered] at hord
  cases hpc : s.pc t with
  | idle => simp [hpc] at hs
  | pushLoad entry =>
    simp only [hpc, Option.some.injEq] at hs
    rw [← hs]
    exact h.move (by rw [hpc]; rfl) (by rw [hpc]; rfl) trivial
  | pushTest entry oldWp =>
    simp only [hpc, Option.some.injEq] at hs
    rw [← hs]
    split
    · exact h.move (by rw [hpc]; rfl) (by rw [hpc]; rfl) trivial
    · exact h.move (by rw [hpc]; rfl) (by rw [hpc]; rfl) trivial
  | pushCas entry oldWp =>
    simp only [hpc, Option.some.injEq] at hs hord
    rw [← hs]
    split
    · rename_i hwp
      exact h.reserve hpc hwp (hord hwp) hQ
    · exact h.move (by rw [hpc]; rfl) (by rw [hpc]; rfl) trivial
  | pushStore entry oldWp n =>
    simp only [hpc, Option.some.injEq] at hs hord
    rw [← hs]
    exact h.store hpc hord
  | popLoad =>
    simp only [hpc, Option.some.injEq] at hs
    rw [← hs]
    exact h.move (by rw [hpc]; rfl) (by rw [hpc]; rfl) trivial
  | popTest oldRp =>
    simp only [hpc, Option.some.injEq] at hs
    rw [← hs]
    split
    · exact h.move (by rw [hpc]; rfl) (by rw [hpc]; rfl) trivial
    · exact h.move (by rw [hpc]; rfl) (by rw [hpc]; rfl) trivial
  | popCas oldRp =>
    simp only [hpc, Option.some.injEq] at hs hord
    rw [← hs]
    split
    · rename_i hrp
      exact h.take hpc hrp (hord hrp)
    · exact h.move (by rw [hpc]; rfl) (by rw [hpc]; rfl) trivial
  | popRead oldRp n =>
    simp only [hpc, Option.some.injEq] at hs hord
    rw [← hs]
    exact h.read hpc hord

theorem FifoInv.step {op : FifoOp T} (h : FifoInv QD s) (hQ : 2 ≤ QD) (hord : FifoOrdered QD s op)
    (hs : s.step QD op = some s') : FifoInv QD s' := by
  cases op with
  | push t entry =>
    cases hpc : s.pc t with
    | idle =>
      simp only [Fifo.step, hpc, Option.some.injEq] at hs
      rw [← hs]
      exact h.move (by rw [hpc]; rfl) (by rw [hpc]; rfl) trivial
    | _ => simp [Fifo.step, hpc] at hs
  | pop t =>
    cases hpc : s.pc t with
    | idle =>
      simp only [Fifo.step, hpc, Option.some.injEq] at hs
      rw [← hs]
      exact h.move (by rw [hpc]; rfl) (by rw [hpc]; rfl) trivial
    | _ => simp [Fifo.step, hpc] at hs
  | run t => exact h.run hQ hord hs

theorem FifoInv.new (QD : Nat) (que : Nat → Option T) : FifoInv QD (Fifo.new que) := by
  have ht : ∀ p, p ∉ (Fifo.new que).view.taken := positions_none fun _ => rfl
  have hr : ∀ p, p ∉ (Fifo.new que).view.reserved := positions_none fun _ => rfl
  have hu : ∀ p, ¬ (Fifo.new que).view.Unloaded p := fun p hp =>
    hp.elim (fun hw => Nat.not_lt_zero p hw.2) (ht p)
  refine ⟨(Nat.zero_mod QD).symm, (Nat.zero_mod QD).symm, ?_, Nat.zero_le _, fun _ => trivial,
    fun i j p hp => (nomatch hp), fun i j p hp => (nomatch hp), fun n e hn => (nomatch hn), ?_,
    List.nodup_nil⟩
  · exact ⟨le_refl _, Nat.zero_le _, fun p hp => absurd hp (ht p), fun p hp => absurd rfl hp,
      fun p hp => absurd hp (hr p), fun p hp => absurd hp (hu p), fun p hp => absurd hp (hr p),
      fun p hp => absurd hp (ht p), fun p b hp => absurd hp (hu p)⟩
  · exact fun r hr => absurd hr List.not_mem_nil

theorem FifoInv.right (h : FifoInv QD s) (hQ : 2 ≤ QD) : FifoRight QD s := by
  have hle : s.pops ≤ s.pushes.length := h.ok.le
  have hsize := h.size
  refine ⟨hle, by omega, ?_, fun r hr => (h.got r hr).2, ?_, h.once⟩
  · rw [h.rp, h.wp, cycLen_mod hle (by omega)]
  · exact fun r hr => h.filled _ _ (h.got r hr).2

/-- **A queue when in order**: as long as no successful compare-and-swap of a push finds the queue
full and none of a pop finds it empty, and the accesses to each element come in the order of the
positions, the entries come out in the order in which they went in. -/
theorem fifo_right (hQ : 2 ≤ QD) (h : (fifo T QD).ReachIf (FifoOrdered QD) s) : FifoRight QD s := by
  have hinv : FifoInv QD s := LTS.ReachIf.induct
    (fun s ⟨que, hs⟩ => by rw [hs]; exact FifoInv.new QD que)
    (fun s op s' hi hord hs => hi.step hQ hord hs) h
  exact hinv.right hQ

/-- A push that no other call runs beside appends its entry to a queue that is not full. -/
theorem reach_push (t : Nat) (entry : Option T) (h : (fifo T QD).ReachIf (FifoOrdered QD) s)
    (hidle : ∀ u, s.pc u = .idle) (hroom : (s.wp + 1) % QD ≠ s.rp) :
    (fifo T QD).ReachIf (FifoOrdered QD)
      ((s.reserve QD entry s.wp).store entry s.wp s.pushes.length) := by
  have h1 : (fifo T QD).ReachIf (FifoOrdered QD) (s.goto t (.pushLoad entry)) := by
    refine h.step (a := .push t entry) trivial ?_
    simp [fifo, Fifo.step, hidle]
  have h2 : (fifo T QD).ReachIf (FifoOrdered QD) (s.goto t (.pushTest entry s.wp)) := by
    refine h1.step (a := .run t) (by simp [FifoOrdered]) ?_
    simp [fifo, Fifo.step, Fifo.run, Fifo.goto]
  have h3 : (fifo T QD).ReachIf (FifoOrdered QD) (s.goto t (.pushCas entry s.wp)) := by
    refine h2.step (a := .run t) (by simp [FifoOrdered]) ?_
    simp [fifo, Fifo.step, Fifo.run, Fifo.goto, hroom]
  have h4 : (fifo T QD).ReachIf (FifoOrdered QD)
      ((s.reserve QD entry s.wp).goto t (.pushStore entry s.wp s.pushes.length)) := by
    refine h3.step (a := .run t) (by simpa [FifoOrdered, Fifo.goto] using hroom) ?_
    simp [fifo, Fifo.step, Fifo.run, Fifo.goto, Fifo.reserve]
  refine h4.step (a := .run t) ?_ ?_
  · simp only [FifoOrdered, fifo_goto_pc, ↓reduceIte]
    intro u p hp
    split at hp
    · cases hp
    · rw [show (s.reserve QD entry s.wp).pc u = .idle from hidle u] at hp
      cases hp
  · have hpc : Function.update s.pc t .idle = s.pc := Function.update_eq_self_iff.2 (hidle t).symm
    simp [fifo, Fifo.step, Fifo.run, Fifo.goto, Fifo.reserve, Fifo.store, hpc]

/-- A pop that no other call runs beside returns the oldest entry of a queue that is not empty. -/
theorem reach_pop (t : Nat) (h : (fifo T QD).ReachIf (FifoOrdered QD) s)
    (hidle : ∀ u, s.pc u = .idle) (hne : s.rp ≠ s.wp) :
    (fifo T QD).ReachIf (FifoOrdered QD) ((s.take QD s.rp).read s.rp s.pops) := by
  have h1 : (fifo T QD).ReachIf (FifoOrdered QD) (s.goto t .popLoad) := by
    refine h.step (a := .pop t) trivial ?_
    simp [fifo, Fifo.step, hidle]
  have h2 : (fifo T QD).ReachIf (FifoOrdered QD) (s.goto t (.popTest s.rp)) := by
    refine h1.step (a := .run t) (by simp [FifoOrdered]) ?_
    simp [fifo, Fifo.step, Fifo.run, Fifo.goto]
  have h3 : (fifo T QD).ReachIf (FifoOrdered QD) (s.goto t (.popCas s.rp)) := by
    refine h2.step (a := .run t) (by simp [FifoOrdered]) ?_
    simp [fifo, Fifo.step, Fifo.run, Fifo.goto, hne]
  have h4 : (fifo T QD).ReachIf (FifoOrdered QD)
      ((s.take QD s.rp).goto t (.popRead s.rp s.pops)) := by
    refine h3.step (a := .run t) (by simpa [FifoOrdered, Fifo.goto] using hne) ?_
    simp [fifo, Fifo.step, Fifo.run, Fifo.goto, Fifo.take]
  refine h4.step (a := .run t) ?_ ?_
  · simp only [FifoOrdered, fifo_goto_pc, ↓reduceIte]
    intro u hu
    split at hu
    · cases hu
    · rw [show (s.take QD s.rp).pc u = .idle from hidle u] at hu
      cases hu
  · have hpc : Function.update s.pc t .idle = s.pc := Function.update_eq_self_iff.2 (hidle t).symm
    simp [fifo, Fifo.step, Fifo.run, Fifo.goto, Fifo.take, Fifo.read, hpc]

end

/-- Two threads with a queue that has room for two entries; the third entry goes where the first one
was. -/
theorem fifo_right_wrapped : ∃ s, (fifo Nat 3).ReachIf (FifoOrdered 3) s ∧
    s.got = [(0, some 7), (1, some 8), (2, some 9)] ∧ FifoRight 3 s := by
  have h0 : (fifo Nat 3).ReachIf (FifoOrdered 3) (Fifo.new fun _ => none) := .init ⟨_, rfl⟩
  have h1 := reach_push 0 (some 7) h0 (fun _ => rfl) (by decide)
  have h2 := reach_push 1 (some 8) h1 (fun _ => rfl) (by decide)
  have h3 := reach_pop 1 h2 (fun _ => rfl) (by decide)
  have h4 := reach_push 1 (some 9) h3 (fun _ => rfl) (by decide)
  have h5 := reach_pop 0 h4 (fun _ => rfl) (by decide)
  have h6 := reach_pop 1 h5 (fun _ => rfl) (by decide)
  exact ⟨_, h6, rfl, fifo_right (by decide) h6⟩

/-- `.push` and `.pop` with their four steps. -/
def pushOps (t : Nat) (entry : Option T) : List (FifoOp T) :=
  .push t entry :: List.replicate 4 (.run t)
def popOps (t : Nat) : List (FifoOp T) := .pop t :: List.replicate 4 (.run t)

theorem reach_exec {QD : Nat} {s : Fifo T} {ops : List (FifoOp T)}
    (h : exec (Fifo.step QD) (.new fun _ => none) ops = some s) : (fifo T QD).Reach s := by
  have h0 : (fifo T QD).Reach (.new fun _ => none) := .init ⟨_, rfl⟩
  exact h0.exec (g := id) (fun _ _ _ hs => ⟨trivial, hs⟩) h

/-- Entries 7 and 8 have gone through the queue. The push of 9 has advanced `wp` and not stored yet
when another thread pops: it gets 7 again. -/
theorem fifo_returned_twice : ∃ s, (fifo Nat 2).Reach s ∧ s.pushes = [some 7, some 8, some 9] ∧
    s.got = [(0, some 7), (1, some 8), (2, some 7)] ∧ ¬ FifoRight 2 s := by
  let ops : List (FifoOp Nat) := pushOps 0 (some 7) ++ popOps 0 ++ pushOps 0 (some 8) ++ popOps 0 ++
    (.push 0 (some 9) :: List.replicate 3 (.run 0)) ++ popOps 1
  obtain ⟨s, hs⟩ : ∃ s, exec (Fifo.step 2) (.new fun _ => none) ops = some s := ⟨_, rfl⟩
  have hp : (exec (Fifo.step 2) (.new fun _ => none) ops).map (·.pushes) =
      some [some 7, some 8, some 9] := rfl
  have hg : (exec (Fifo.step 2) (.new fun _ => none) ops).map (·.got) =
      some [(0, some 7), (1, some 8), (2, some 7)] := rfl
  rw [hs] at hp hg
  have hgot : s.got = [(0, some 7), (1, some 8), (2, some 7)] := Option.some.inj hg
  have hpushes : s.pushes = [some 7, some 8, some 9] := Option.some.inj hp
  refine ⟨s, reach_exec hs, hpushes, hgot, fun hr => ?_⟩
  have ho := hr.order (2, some 7) (by rw [hgot]; simp)
  rw [hpushes] at ho
  simp at ho

/-- Thread 0 has found room. When `wp` has gone round, the queue is full, and its compare-and-swap
succeeds: both indices are 1, with the two entries 8 and 9 in the queue. -/
theorem fifo_overfull : ∃ s, (fifo Nat 2).Reach s ∧ s.pushes.length - s.pops = 2 ∧ s.rp = s.wp := by
  let ops : List (FifoOp Nat) := (.push 0 (some 9) :: List.replicate 2 (.run 0)) ++
    pushOps 1 (some 7) ++
    popOps 1 ++ pushOps 1 (some 8) ++ [.run 0]
  obtain ⟨s, hs⟩ : ∃ s, exec (Fifo.step 2) (.new fun _ => none) ops = some s := ⟨_, rfl⟩
  have h : (exec (Fifo.step 2) (.new fun _ => none) ops).map
      (fun s => (s.pushes.length - s.pops, s.rp, s.wp)) = some (2, 1, 1) := rfl
  rw [hs] at h
  have h3 := Option.some.inj h
  simp only [Prod.mk.injEq] at h3
  exact ⟨s, reach_exec hs, h3.1, h3.2.1.trans h3.2.2.symm⟩

end Pthread

import Staut.Abt.Cond
import Staut.Abt.Proof.Waitlist

/-!
# No lost signal

`Inv`: the list holds the structures of the pending waits in the order of their arrival, and every
pending wait is a thread in its polling or sleeping loop. A thread is moved by `Inv.move`; what
changes the list is a new waiter (`Inv.arrive`), a wake-up (`Inv.wake`) or a timeout (`Inv.leave`).
-/

set_option autoImplicit false

namespace Abt

open Run Linked

/-- A thread has the lock of the condition variable. -/
def Pc.Locked : Pc → Prop
  | .locked _ | .enqueue _ => True
  | .waiting _ _ .top | .waiting _ _ .check | .waiting _ _ .timeout => True
  | _ => False

/-- A structure in the list that a timed wait uses. -/
def State.Timed (s : State) (a : Nat) : Prop :=
  ∃ c ∈ s.pending, (s.call c).wait.node = a ∧ (s.call c).wait.fn.timed = true

/-- The status of a wait that has returned. -/
def statusOf (isTimedout : Bool) : Status := if isTimedout then .timedout else .signalled

/-- What the history says of the wait that a thread is in. -/
def PcOk (s : State) (t : Nat) : Pc → Prop
  | .waiting w c loc => c < s.calls ∧ (s.call c).thread = t ∧ (s.call c).wait = w ∧
      (s.status c = .waiting ∧ s.isReady w = false ∨ s.status c = .signalled ∧ s.isReady w = true) ∧
      (loc = .expire ∨ loc = .timeout → w.fn.timed = true)
  | .relock w c r => c < s.calls ∧ (s.call c).thread = t ∧ (s.call c).wait = w ∧
      s.status c = statusOf r
  | _ => True

structure Inv (s : State) : Prop where
  lock : ∀ t, (s.pc t).Locked ↔ s.lock = some t
  node : ∀ t u a, (s.pc t).node = some a → (s.pc u).node = some a → t = u
  pcs : ∀ t, PcOk s t (s.pc t)
  waits : ∀ c ∈ s.pending, ∃ loc, s.pc (s.call c).thread = .waiting (s.call c).wait c loc
  list : s.wl.Holds s.Timed s.nodes
  rets : ∀ c r, s.ret c = some r → c < s.calls ∧ s.status c = statusOf r

section
variable {s s' : State} {t u c : Nat} {pc : Pc} {w : Wait}

@[simp] theorem goto_pc (s : State) (t : Nat) (pc : Pc) (u : Nat) :
    (s.goto t pc).pc u = if u = t then pc else s.pc u := Function.update_apply _ _ _ _

theorem mem_pending : c ∈ s.pending ↔ c < s.calls ∧ s.status c = .waiting := by
  simp [State.pending]

/-! ## The lock -/

theorem locked_keep (h : ∀ u, (s.pc u).Locked ↔ s.lock = some u)
    (hpc : pc.Locked ↔ (s.pc t).Locked) :
    ∀ u, ((s.goto t pc).pc u).Locked ↔ s.lock = some u := by
  intro u
  rw [goto_pc]
  split
  · rename_i hu
    rw [hu, hpc]
    exact h t
  · exact h u

theorem locked_take (h : ∀ u, (s.pc u).Locked ↔ s.lock = some u) (hl : s.lock = none)
    (hpc : pc.Locked) :
    ∀ u, ((s.goto t pc).pc u).Locked ↔ some t = some u := by
  intro u
  rw [goto_pc]
  split
  · rename_i hu
    simp [hu, hpc]
  · rename_i hu
    rw [h u, hl]
    simp [Ne.symm hu]

theorem locked_drop (h : ∀ u, (s.pc u).Locked ↔ s.lock = some u) (ht : (s.pc t).Locked)
    (hpc : ¬ pc.Locked) : ∀ u, ((s.goto t pc).pc u).Locked ↔ none = some u := by
  intro u
  rw [goto_pc]
  split
  · simp [hpc]
  · rename_i hu
    rw [h u, (h t).1 ht]
    simp [Ne.symm hu]

/-! ## Moving one thread -/

/-- The list and the history of the waits are the same. -/
structure Same (s s' : State) : Prop where
  wl : s'.wl = s.wl
  calls : s'.calls = s.calls
  call : s'.call = s.call
  status : s'.status = s.status

theorem Same.pending (h : Same s s') : s'.pending = s.pending := by
  unfold State.pending
  rw [h.calls, h.status]

theorem Same.nodes (h : Same s s') : s'.nodes = s.nodes := by
  unfold State.nodes
  rw [h.pending, h.call]

theorem Same.timed (h : Same s s') : s'.Timed = s.Timed := by
  unfold State.Timed
  rw [h.pending, h.call]

theorem Same.pcOk (h : Same s s') (hok : PcOk s t pc) : PcOk s' t pc := by
  cases pc with
  | waiting w c loc =>
    simp only [PcOk, State.isReady] at hok ⊢
    rwa [h.calls, h.call, h.status, h.wl]
  | relock w c r =>
    simp only [PcOk] at hok ⊢
    rwa [h.calls, h.call, h.status]
  | _ => trivial

theorem node_goto (h : Inv s) (hn : ∀ a u, pc.node = some a → (s.pc u).node = some a → u = t) :
    ∀ u v a, ((s.goto t pc).pc u).node = some a → ((s.goto t pc).pc v).node = some a → u = v := by
  intro u v a hu hv
  rw [goto_pc] at hu hv
  split at hu
  · rename_i hut
    split at hv
    · rename_i hvt
      rw [hut, hvt]
    · rw [hut]
      exact (hn a v hu hv).symm
  · split at hv
    · rename_i hvt
      rw [hvt]
      exact hn a u hv hu
    · exact h.node u v a hu hv

theorem node_same (h : Inv s) (hn : pc.node = none ∨ pc.node = (s.pc t).node) :
    ∀ a u, pc.node = some a → (s.pc u).node = some a → u = t := by
  intro a u ha hu
  rcases hn with hn | hn
  · rw [hn] at ha
    cases ha
  · exact h.node u t a hu (hn ▸ ha)

/-- A thread goes on; a wait that is pending stays in its loop. -/
theorem Inv.move (h : Inv s) (hs : Same s s') (hpc : s'.pc = (s.goto t pc).pc)
    (hl : ∀ u, ((s.goto t pc).pc u).Locked ↔ s'.lock = some u)
    (hn : ∀ a u, pc.node = some a → (s.pc u).node = some a → u = t) (hok : PcOk s t pc)
    (hw : ∀ w c loc, s.pc t = .waiting w c loc → s.status c = .waiting → ∃ loc',
      pc = .waiting w c loc')
    (hr : ∀ c r, s'.ret c = some r → c < s.calls ∧ s.status c = statusOf r) : Inv s' where
  lock := by
    rw [hpc]
    exact hl
  node := by
    rw [hpc]
    exact node_goto h hn
  pcs := by
    intro u
    rw [hpc, goto_pc]
    refine hs.pcOk ?_
    split
    · rename_i hu
      rw [hu]
      exact hok
    · exact h.pcs u
  waits := by
    intro c hc
    rw [hs.pending] at hc
    obtain ⟨loc, hloc⟩ := h.waits c hc
    rw [hpc, goto_pc, hs.call]
    split
    · rename_i hu
      rw [hu] at hloc
      exact hw _ _ _ hloc (mem_pending.1 hc).2
    · exact ⟨loc, hloc⟩
  list := by
    rw [hs.wl, hs.timed, hs.nodes]
    exact h.list
  rets := by
    rw [hs.calls, hs.status]
    exact hr

/-! ## The list -/

theorem node_eq_of_pending (h : Inv s) (hc : c ∈ s.pending)
    (hn : (s.pc t).node = some (s.call c).wait.node) : (s.call c).thread = t := by
  obtain ⟨loc, hloc⟩ := h.waits c hc
  refine h.node _ _ _ ?_ hn
  rw [hloc]
  rfl

theorem arrive_pending (wl : Waitlist) : (s.arrive t w wl).pending = s.pending ++ [s.calls] := by
  have hs : ∀ c ∈ List.range s.calls, decide ((s.arrive t w wl).status c = .waiting) =
      decide (s.status c = .waiting) := by
    intro c hc
    have hc' : c ≠ s.calls := (List.mem_range.1 hc).ne
    simp [State.arrive, hc']
  unfold State.pending
  rw [show (s.arrive t w wl).calls = s.calls + 1 from rfl, List.range_succ, List.filter_append,
    List.filter_congr hs]
  simp [State.arrive]

theorem arrive_call (wl : Waitlist) (hc : c < s.calls) : (s.arrive t w wl).call c = s.call c :=
  Function.update_of_ne hc.ne _ _

theorem arrive_nodes (wl : Waitlist) : (s.arrive t w wl).nodes = s.nodes ++ [w.node] := by
  unfold State.nodes
  rw [arrive_pending, List.map_append]
  congr 1
  · refine List.map_congr_left fun c hc => ?_
    rw [arrive_call wl (mem_pending.1 hc).1]
  · simp [State.arrive]

theorem enqueue_not_mem (h : Inv s) (hpc : s.pc t = .enqueue w) : w.node ∉ s.nodes := by
  intro hm
  obtain ⟨c, hc, hn⟩ := List.mem_map.1 hm
  have ht : (s.call c).thread = t := node_eq_of_pending h hc (by rw [hpc, hn]; rfl)
  obtain ⟨loc, hloc⟩ := h.waits c hc
  rw [ht, hpc] at hloc
  cases hloc

/-- A new waiter enters the list behind the others. -/
theorem arrive_list (h : Inv s) (hpc : s.pc t = .enqueue w) :
    ∃ wl, s.wl.enter w = some wl ∧
      wl.Holds (s.arrive t w wl).Timed (s.nodes ++ [w.node]) ∧
      ∀ b, (wl.mem b).ready = if b = w.node then false else (s.wl.mem b).ready := by
  have hnot := enqueue_not_mem h hpc
  have hT : ∀ wl, ∀ b ∈ s.nodes, (s.arrive t w wl).Timed b → s.Timed b := by
    rintro wl b hb ⟨c, hc, hn, htimed⟩
    rw [arrive_pending, List.mem_append, List.mem_singleton] at hc
    rcases hc with hc | rfl
    · rw [arrive_call wl (mem_pending.1 hc).1] at hn htimed
      exact ⟨c, hc, hn, htimed⟩
    · simp only [State.arrive, Function.update_self] at hn
      rw [hn] at hnot
      exact absurd hb hnot
  unfold Waitlist.enter
  cases htimed : w.fn.timed with
  | true =>
    obtain ⟨wl, heq, hholds, hr⟩ := Waitlist.waitTimedout_spec h.list hnot
    exact ⟨wl, heq, hholds _ (hT wl), hr⟩
  | false =>
    have hTa : ∀ wl, ¬ (s.arrive t w wl).Timed w.node := by
      rintro wl ⟨c, hc, hn, htrue⟩
      rw [arrive_pending, List.mem_append, List.mem_singleton] at hc
      rcases hc with hc | rfl
      · rw [arrive_call wl (mem_pending.1 hc).1] at hn
        exact hnot (List.mem_map.2 ⟨c, hc, hn⟩)
      · simp [State.arrive, htimed] at htrue
    obtain ⟨wl, heq, hholds, hr⟩ := Waitlist.wait_spec h.list hnot
    exact ⟨wl, heq, hholds _ (hT wl) (hTa wl), hr⟩

theorem Inv.arrive {wl : Waitlist} {loc : Loc} (h : Inv s) (hpc : s.pc t = .enqueue w)
    (hlist : wl.Holds (s.arrive t w wl).Timed (s.nodes ++ [w.node]))
    (hready : ∀ b, (wl.mem b).ready = if b = w.node then false else (s.wl.mem b).ready)
    (hs : Same (s.arrive t w wl) s') (hpc' : s'.pc = (s.goto t (.waiting w s.calls loc)).pc)
    (hl : ∀ u, (s'.pc u).Locked ↔ s'.lock = some u) (hret : s'.ret = s.ret)
    (hloc : loc ≠ .expire ∧ loc ≠ .timeout) : Inv s' where
  lock := hl
  node := by
    rw [hpc']
    exact node_goto h (node_same h (.inr (by rw [hpc]; rfl)))
  pcs := by
    intro u
    refine hs.pcOk ?_
    rw [hpc', goto_pc]
    split
    · rename_i hu
      refine ⟨Nat.lt_succ_self _, ?_, ?_, .inl ⟨?_, ?_⟩, by simp [hloc]⟩
      · simp [State.arrive, hu]
      · simp [State.arrive]
      · simp [State.arrive]
      · simp [State.isReady, State.arrive, hready]
    · rename_i hu
      have hok := h.pcs u
      cases hu' : s.pc u with
      | waiting w' c loc' =>
        rw [hu'] at hok
        obtain ⟨hc, ht, hw, hst, hexp⟩ := hok
        have hne : w'.node ≠ w.node := by
          intro heq
          refine hu (h.node u t w.node ?_ ?_)
          · rw [hu', ← heq]
            rfl
          · rw [hpc]
            rfl
        refine ⟨Nat.lt_succ_of_lt hc, ?_, ?_, ?_, hexp⟩
        · rwa [arrive_call wl hc]
        · rwa [arrive_call wl hc]
        · simpa [State.isReady, State.arrive, hready, hne, hc.ne] using hst
      | relock w' c r =>
        rw [hu'] at hok
        obtain ⟨hc, ht, hw, hst⟩ := hok
        refine ⟨Nat.lt_succ_of_lt hc, ?_, ?_, ?_⟩
        · rwa [arrive_call wl hc]
        · rwa [arrive_call wl hc]
        · simpa [State.arrive, hc.ne] using hst
      | _ => trivial
  waits := by
    intro c hc
    rw [hs.pending, arrive_pending, List.mem_append, List.mem_singleton] at hc
    rw [hpc', goto_pc, hs.call]
    rcases hc with hc | rfl
    · rw [arrive_call wl (mem_pending.1 hc).1]
      obtain ⟨loc', hloc'⟩ := h.waits c hc
      refine ⟨loc', ?_⟩
      rwa [if_neg]
      rintro ht
      rw [ht, hpc] at hloc'
      cases hloc'
    · exact ⟨loc, by simp [State.arrive]⟩
  list := by
    rw [hs.wl, hs.timed, hs.nodes, arrive_nodes]
    exact hlist
  rets := by
    intro c r hr
    rw [hret] at hr
    obtain ⟨hc, hst⟩ := h.rets c r hr
    rw [hs.calls, hs.status]
    refine ⟨Nat.lt_succ_of_lt hc, ?_⟩
    simp [State.arrive, hc.ne, hst]

/-- After a wake-up the waits whose structures it has made ready are not pending. -/
theorem wake_pending (r : Waitlist × List Nat) :
    (s.wake r).pending = s.pending.filter fun c => (s.call c).wait.node ∉ r.2 := by
  unfold State.pending
  rw [show (s.wake r).calls = s.calls from rfl, List.filter_filter]
  refine List.filter_congr fun c hc => ?_
  have hc' := List.mem_range.1 hc
  by_cases hw : s.status c = .waiting
  · by_cases hn : (s.call c).wait.node ∈ r.2
    · simp [State.wake, mem_pending, hw, hn, hc']
    · simp [State.wake, hw, hn]
  · simp [State.wake, mem_pending, hw]

/-- The structures of the pending waits. -/
def nodesOf (s : State) (cs : List Nat) : List Nat := cs.map fun c => (s.call c).wait.node

theorem wake_pending_eq (ps rest : List Nat) (h : Inv s) (hp : s.pending = ps ++ rest)
    (wl : Waitlist) :
    (s.wake (wl, nodesOf s ps)).pending = rest := by
  have hnd : (nodesOf s ps ++ nodesOf s rest).Nodup := by
    have hnd := h.list.nodup
    rwa [State.nodes, hp, List.map_append] at hnd
  rw [wake_pending, hp, List.filter_append, List.filter_eq_nil_iff.2, List.filter_eq_self.2,
    List.nil_append]
  · intro c hc
    rw [decide_eq_true_eq]
    intro hm
    exact (List.nodup_append.1 hnd).2.2 _ hm _ (List.mem_map.2 ⟨c, hc, rfl⟩) rfl
  · intro c hc
    rw [decide_eq_true_eq, not_not]
    exact List.mem_map.2 ⟨c, hc, rfl⟩

theorem wake_pcOk {r : Waitlist × List Nat} (hok : PcOk s u pc)
    (hready : ∀ b, (r.1.mem b).ready = if b ∈ r.2 then true else (s.wl.mem b).ready) :
    PcOk (s.wake r) u pc := by
  cases pc with
  | waiting w c loc =>
    obtain ⟨hc, ht, hw, hst, hexp⟩ := hok
    refine ⟨hc, ht, hw, ?_, hexp⟩
    rcases hst with ⟨hst, hr⟩ | ⟨hst, hr⟩
    · by_cases hm : w.node ∈ r.2
      · right
        simp [State.wake, State.isReady, hready, hm, mem_pending, hc, hst, hw]
      · left
        simpa [State.wake, State.isReady, hready, hm, hst, hw] using hr
    · right
      simp only [State.isReady] at hr
      simp [State.wake, State.isReady, hready, mem_pending, hst, hr]
  | relock w c r' =>
    obtain ⟨hc, ht, hw, hst⟩ := hok
    refine ⟨hc, ht, hw, ?_⟩
    have hne : s.status c ≠ .waiting := by
      rw [hst]
      cases r' <;> simp [statusOf]
    simpa [State.wake, mem_pending, hne] using hst
  | _ => trivial

theorem Inv.wake {wl : Waitlist} {op : Op} (h : Inv s) (ps rest : List Nat)
    (hpc : s.pc t = .locked op) (hp : s.pending = ps ++ rest)
    (hlist : wl.Holds s.Timed (nodesOf s rest))
    (hready : ∀ b, (wl.mem b).ready = if b ∈ nodesOf s ps then true else (s.wl.mem b).ready) :
    Inv ((s.wake (wl, nodesOf s ps)).unlock.goto t .idle) where
  lock := by
    have ht : (s.pc t).Locked := by rw [hpc]; trivial
    exact locked_drop (s := s) h.lock ht id
  node := node_goto (s := s) h (node_same h (.inl rfl))
  pcs := by
    intro u
    rw [goto_pc]
    split
    · trivial
    · have hs : Same (s.wake (wl, nodesOf s ps))
          ((s.wake (wl, nodesOf s ps)).unlock.goto t .idle) := ⟨rfl, rfl, rfl, rfl⟩
      exact hs.pcOk (wake_pcOk (h.pcs u) hready)
  waits := by
    intro c hc
    have hc' : c ∈ rest := wake_pending_eq ps rest h hp wl ▸ hc
    obtain ⟨loc, hloc⟩ := h.waits c (by simp [hp, hc'])
    refine ⟨loc, ?_⟩
    rw [goto_pc]
    split
    · rename_i ht
      have ht' : (s.call c).thread = t := ht
      rw [ht', hpc] at hloc
      cases hloc
    · exact hloc
  list := by
    have hpend : ((s.wake (wl, nodesOf s ps)).unlock.goto t .idle).pending = rest :=
      wake_pending_eq ps rest h hp wl
    have hnodes : ((s.wake (wl, nodesOf s ps)).unlock.goto t .idle).nodes = nodesOf s rest := by
      unfold State.nodes
      rw [hpend]
      rfl
    rw [hnodes]
    refine hlist.congr rfl rfl (fun b _ => ⟨rfl, rfl⟩) ?_
    rintro b - ⟨c, hc, hn, htimed⟩
    rw [hpend] at hc
    exact ⟨c, by simp [hp, hc], hn, htimed⟩
  rets := by
    intro c r hr
    obtain ⟨hc, hst⟩ := h.rets c r hr
    refine ⟨hc, ?_⟩
    have hne : s.status c ≠ .waiting := by
      rw [hst]
      cases r <;> simp [statusOf]
    simpa [State.goto, State.unlock, State.wake, mem_pending, hne] using hst

/-- A pending wait that times out. -/
theorem leave_pending {ps rest : List Nat} (hp : s.pending = ps ++ c :: rest)
    (wl : Waitlist) : (s.leave c (wl, true)).pending = ps ++ rest := by
  have hnd : (ps ++ c :: rest).Nodup := by
    rw [← hp]
    exact (List.nodup_range).filter _
  have heq : (s.leave c (wl, true)).pending = s.pending.filter (· ≠ c) := by
    unfold State.pending
    rw [show (s.leave c (wl, true)).calls = s.calls from rfl, List.filter_filter]
    refine List.filter_congr fun d _ => ?_
    by_cases hd : d = c
    · simp [State.leave, hd]
    · simp [State.leave, hd]
  obtain ⟨-, hcr, hdisj⟩ := List.nodup_append.1 hnd
  rw [heq, hp, List.filter_append, List.filter_cons_of_neg (by simp)]
  congr 1
  · refine List.filter_eq_self.2 fun d hd => ?_
    simpa using hdisj d hd c (by simp)
  · refine List.filter_eq_self.2 fun d hd => ?_
    have hdc : d ≠ c := fun hdc => (List.nodup_cons.1 hcr).1 (hdc ▸ hd)
    simpa using hdc

theorem leave_nodes (h : Inv s) (hc : c ∈ s.pending) (wl : Waitlist) :
    (s.leave c (wl, true)).nodes = s.nodes.erase (s.call c).wait.node := by
  obtain ⟨ps, rest, hp⟩ := List.append_of_mem hc
  have hnd := h.list.nodup
  simp only [State.nodes, hp, List.map_append, List.map_cons] at hnd
  have hnot : (s.call c).wait.node ∉ ps.map fun c => (s.call c).wait.node := fun hm =>
    (List.nodup_append.1 hnd).2.2 _ hm _ (by simp) rfl
  simp only [State.nodes, leave_pending hp, hp, List.map_append, List.map_cons]
  rw [List.erase_append_right _ hnot, List.erase_cons_head]
  rfl

theorem leave_status {wl : Waitlist} (hne : u ≠ c) :
    (s.leave c (wl, true)).status u = s.status u := by
  simp [State.leave, hne]

theorem Inv.leave {wl : Waitlist} (h : Inv s) (hpc : s.pc t = .waiting w c .timeout)
    (hc : c ∈ s.pending) (hlist : wl.Holds s.Timed (s.nodes.erase w.node))
    (hready : ∀ b, (wl.mem b).ready = (s.wl.mem b).ready) :
    Inv ((s.leave c (wl, true)).unlock.goto t (.relock w c true)) := by
  have hok := h.pcs t
  rw [hpc] at hok
  obtain ⟨hlt, hthread, hw, -, -⟩ := hok
  have hs : Same (s.leave c (wl, true)) ((s.leave c (wl, true)).unlock.goto t (.relock w c true)) :=
    ⟨rfl, rfl, rfl, rfl⟩
  refine ⟨?_, ?_, fun u => hs.pcOk ?_, fun d hd => ?_, ?_, fun d r hr => ?_⟩
  · have ht : (s.pc t).Locked := by rw [hpc]; trivial
    exact locked_drop (s := s) h.lock ht id
  · exact node_goto (s := s) h (node_same h (.inl rfl))
  · rw [goto_pc]
    split
    · rename_i hu
      rw [hu]
      exact ⟨hlt, hthread, hw, by simp [State.leave, statusOf]⟩
    · rename_i hu
      have hok := h.pcs u
      -- no other thread is in the same wait
      have hne : ∀ d, (s.call d).thread = u → d ≠ c := by
        rintro d hd rfl
        exact hu (hd.symm.trans hthread)
      show PcOk _ u (s.pc u)
      cases hpcu : s.pc u with
      | waiting w' d loc =>
        rw [hpcu] at hok
        obtain ⟨hd, htd, hwd, hst, hexp⟩ := hok
        refine ⟨hd, htd, hwd, ?_, hexp⟩
        rw [leave_status (hne d htd)]
        simpa [State.isReady, State.leave, hready] using hst
      | relock w' d r =>
        rw [hpcu] at hok
        obtain ⟨hd, htd, hwd, hst⟩ := hok
        refine ⟨hd, htd, hwd, ?_⟩
        rwa [leave_status (hne d htd)]
      | _ => trivial
  · have hd' : d ∈ (s.leave c (wl, true)).pending := hd
    rw [mem_pending] at hd'
    have hdc : d ≠ c := by
      rintro rfl
      simp [State.leave] at hd'
    rw [leave_status hdc] at hd'
    obtain ⟨loc, hloc⟩ := h.waits d (mem_pending.2 hd')
    refine ⟨loc, ?_⟩
    rw [goto_pc, if_neg]
    · exact hloc
    · intro ht
      have ht' : (s.call d).thread = t := ht
      rw [ht', hpc] at hloc
      cases hloc
      exact hdc rfl
  · rw [hs.wl, hs.timed, hs.nodes, leave_nodes h hc, hw]
    refine hlist.congr rfl rfl (fun b _ => ⟨rfl, rfl⟩) ?_
    rintro b - ⟨d, hd, hn, htimed⟩
    rw [mem_pending] at hd
    have hdc : d ≠ c := by
      rintro rfl
      simp [State.leave] at hd
    rw [leave_status hdc] at hd
    exact ⟨d, mem_pending.2 hd, hn, htimed⟩
  · obtain ⟨hd, hst⟩ := h.rets d r hr
    refine ⟨hd, ?_⟩
    have hdc : d ≠ c := by
      rintro rfl
      rw [(mem_pending.1 hc).2] at hst
      cases r <;> simp [statusOf] at hst
    rw [hs.status, leave_status hdc, hst]

/-! ## The steps -/

/-- A wait goes on in its loop. -/
theorem Inv.loop {l : Option Nat} {loc loc' : Loc} (h : Inv s) (hpc : s.pc t = .waiting w c loc)
    (hl : ∀ u, ((s.goto t (.waiting w c loc')).pc u).Locked ↔ l = some u)
    (hexp : loc' = .expire ∨ loc' = .timeout → w.fn.timed = true) :
    Inv ({ s with lock := l }.goto t (.waiting w c loc')) := by
  have hok := h.pcs t
  rw [hpc] at hok
  obtain ⟨hc, hthread, hw, hst, -⟩ := hok
  refine h.move (t := t) ⟨rfl, rfl, rfl, rfl⟩ rfl hl (node_same h (.inr (by rw [hpc]; rfl)))
    ⟨hc, hthread, hw, hst, hexp⟩ ?_ h.rets
  intro w' c' loc'' hpc' _
  rw [hpc] at hpc'
  cases hpc'
  exact ⟨loc', rfl⟩

/-- A wait finds that it was made ready. -/
theorem Inv.signalled {l : Option Nat} {loc : Loc} (h : Inv s) (hpc : s.pc t = .waiting w c loc)
    (hr : s.isReady w = true)
    (hl : ∀ u, ((s.goto t (.relock w c false)).pc u).Locked ↔ l = some u) :
    Inv ({ s with lock := l }.goto t (.relock w c false)) := by
  have hok := h.pcs t
  rw [hpc] at hok
  obtain ⟨hc, hthread, hw, hst, -⟩ := hok
  have hsig : s.status c = .signalled := by
    rcases hst with ⟨-, hf⟩ | ⟨hst, -⟩
    · rw [hr] at hf
      cases hf
    · exact hst
  refine h.move (t := t) ⟨rfl, rfl, rfl, rfl⟩ rfl hl (node_same h (.inl rfl))
    ⟨hc, hthread, hw, hsig⟩ ?_ h.rets
  intro w' c' loc' hpc' hwait
  rw [hpc] at hpc'
  cases hpc'
  rw [hsig] at hwait
  cases hwait

theorem timed_of_expired {clocks : Clocks} (h : s.expired clocks w = true) : w.fn.timed = true := by
  unfold State.expired at h
  unfold Fn.timed
  cases htar : w.fn.target with
  | none => simp [htar] at h
  | some ts => rfl

theorem Inv.acquireLoop {loc loc' : Loc} (h : Inv s) (hpc : s.pc t = .waiting w c loc)
    (hl : (Pc.waiting w c loc').Locked)
    (hexp : loc' = .expire ∨ loc' = .timeout → w.fn.timed = true) :
    Inv (s.acquire t (.waiting w c loc')) := by
  unfold State.acquire
  cases hlock : s.lock with
  | none => exact h.loop hpc (locked_take h.lock hlock hl) hexp
  | some u => exact h

theorem Inv.timeout (h : Inv s) (hpc : s.pc t = .waiting w c .timeout) :
    ∃ r, s.wl.timeout w.node = some r ∧ Inv ((s.leave c r).unlock.goto t (.relock w c r.2)) := by
  have hok := h.pcs t
  rw [hpc] at hok
  obtain ⟨hc, -, hw, hst, hexp⟩ := hok
  have hlocked : (s.pc t).Locked := by rw [hpc]; trivial
  rcases hst with ⟨hst, hr⟩ | ⟨-, hr⟩
  · have hmem : c ∈ s.pending := mem_pending.2 ⟨hc, hst⟩
    have hnode : w.node ∈ s.nodes := List.mem_map.2 ⟨c, hmem, by rw [hw]⟩
    have htimed : s.Timed w.node := ⟨c, hmem, by rw [hw], by rw [hw]; exact hexp (.inr rfl)⟩
    obtain ⟨wl, heq, hlist, hready⟩ := Waitlist.timeout_spec h.list hnode htimed hr
    exact ⟨(wl, true), heq, h.leave hpc hmem hlist hready⟩
  · exact ⟨(s.wl, false), Waitlist.timeout_ready hr,
      h.signalled hpc hr (locked_drop h.lock hlocked id)⟩

theorem Inv.runWait {clocks : Clocks} {loc : Loc} (h : Inv s) (hpc : s.pc t = .waiting w c loc)
    (hr : s.runWait clocks t w c loc = some s') : Inv s' := by
  have hkeep : ∀ loc', ((Pc.waiting w c loc').Locked ↔ (Pc.waiting w c loc).Locked) →
      ∀ u, ((s.goto t (.waiting w c loc')).pc u).Locked ↔ s.lock = some u :=
    fun loc' hl => locked_keep h.lock (by rw [hpc, hl])
  cases loc with
  | top =>
    cases hr
    cases hexp : s.expired clocks w with
    | true => exact h.loop hpc (hkeep _ Iff.rfl) fun _ => timed_of_expired hexp
    | false => exact h.loop hpc (hkeep _ Iff.rfl) (by simp)
  | check =>
    cases hr
    have hlocked : (s.pc t).Locked := by rw [hpc]; trivial
    cases hready : s.isReady w with
    | true => exact h.signalled hpc hready (locked_drop h.lock hlocked id)
    | false => exact h.loop hpc (locked_drop h.lock hlocked id) (by simp)
  | again =>
    cases hr
    exact h.acquireLoop hpc trivial (by simp)
  | poll =>
    simp only [State.runWait] at hr
    split at hr
    · rename_i hready
      cases hr
      exact h.signalled hpc hready (locked_keep h.lock (by rw [hpc]; exact Iff.rfl))
    · split at hr
      · cases hr
        exact h.loop hpc (hkeep _ Iff.rfl) (by simp)
      · cases hr
        split
        · exact h.loop hpc (hkeep _ Iff.rfl) (by simp)
        · exact h.loop hpc (hkeep _ Iff.rfl) (by simp)
  | clock =>
    cases hr
    cases hexp : s.expired clocks w with
    | true => exact h.loop hpc (hkeep _ Iff.rfl) fun _ => timed_of_expired hexp
    | false => exact h.loop hpc (hkeep _ Iff.rfl) (by simp)
  | expire =>
    cases hr
    have hok := h.pcs t
    rw [hpc] at hok
    exact h.acquireLoop hpc trivial fun _ => hok.2.2.2.2 (.inl rfl)
  | timeout =>
    obtain ⟨r, heq, hinv⟩ := h.timeout hpc
    simp only [State.runWait, heq] at hr
    cases hr
    exact hinv

theorem Inv.signal (h : Inv s) (hpc : s.pc t = .locked .signal) :
    Inv ((s.wake s.wl.signal).unlock.goto t .idle) := by
  have hlist := h.list
  cases hp : s.pending with
  | nil =>
    rw [State.nodes, hp] at hlist
    rw [Waitlist.signal_nil hlist]
    exact h.wake [] [] hpc hp hlist (by simp [nodesOf])
  | cons c rest =>
    rw [State.nodes, hp, List.map_cons] at hlist
    obtain ⟨wl, heq, hlist', hready⟩ := Waitlist.signal_cons hlist
    rw [heq]
    exact h.wake [c] rest hpc hp hlist' (by simpa [nodesOf] using hready)

theorem Inv.broadcast (h : Inv s) (hpc : s.pc t = .locked .broadcast) :
    ∃ r, (∀ fuel, s.wl.broadcast fuel = if s.nodes.length ≤ fuel then some r else none) ∧
      Inv ((s.wake r).unlock.goto t .idle) := by
  obtain ⟨wl, heq, hlist, hready⟩ := Waitlist.broadcast_spec h.list
  exact ⟨_, heq, h.wake s.pending [] hpc (by simp) hlist hready⟩

theorem Inv.enqueue (h : Inv s) (hpc : s.pc t = .enqueue w) :
    ∃ wl, s.wl.enter w = some wl ∧
      Inv ((s.arrive t w wl).goto t (.waiting w s.calls .top)) ∧
      Inv ((s.arrive t w wl).unlock.goto t (.waiting w s.calls .poll)) := by
  have hlocked : (s.pc t).Locked := by rw [hpc]; trivial
  obtain ⟨wl, heq, hlist, hready⟩ := arrive_list h hpc
  refine ⟨wl, heq, ?_, ?_⟩
  · refine h.arrive hpc hlist hready ⟨rfl, rfl, rfl, rfl⟩ rfl ?_ rfl (by simp)
    exact locked_keep (s := s) h.lock (iff_of_true trivial hlocked)
  · refine h.arrive hpc hlist hready ⟨rfl, rfl, rfl, rfl⟩ rfl ?_ rfl (by simp)
    exact locked_drop (s := s) h.lock hlocked id

/-- A thread that is in no wait goes on. -/
theorem Inv.moveOut {l m : Option Nat} {owner : Nat → Option Nat} (h : Inv s)
    (hout : ∀ w c loc, s.pc t ≠ .waiting w c loc) (hok : PcOk s t pc)
    (hl : ∀ u, ((s.goto t pc).pc u).Locked ↔ l = some u)
    (hn : ∀ a u, pc.node = some a → (s.pc u).node = some a → u = t) :
    Inv ({ s with lock := l, waiterMutex := m, owner := owner }.goto t pc) :=
  h.move (t := t) ⟨rfl, rfl, rfl, rfl⟩ rfl hl hn hok
    (fun w c loc hpc _ => absurd hpc (hout w c loc)) h.rets

theorem Inv.run {clocks : Clocks} {fuel : Nat} (h : Inv s) (hr : s.run clocks fuel t = some s') :
    Inv s' := by
  cases hpc : s.pc t with
  | idle => simp [State.run, hpc] at hr
  | acquire op =>
    simp only [State.run, hpc, Option.some.injEq] at hr
    subst hr
    unfold State.acquire
    cases hlock : s.lock with
    | none =>
      refine h.moveOut (by simp [hpc]) trivial (locked_take h.lock hlock trivial)
        (node_same h (.inr ?_))
      rw [hpc]
      cases op <;> rfl
    | some u => exact h
  | locked op =>
    have hlocked : (s.pc t).Locked := by rw [hpc]; trivial
    cases op with
    | wait w =>
      simp only [State.run, hpc] at hr
      split at hr
      · cases hr
        refine h.moveOut (by simp [hpc]) trivial (locked_keep h.lock ?_) (node_same h (.inr ?_))
        · exact iff_of_true trivial hlocked
        · rw [hpc]
          rfl
      · cases hr
        exact h.moveOut (by simp [hpc]) trivial (locked_drop h.lock hlocked id)
          (node_same h (.inl rfl))
    | signal =>
      simp only [State.run, hpc, Option.some.injEq] at hr
      subst hr
      exact h.signal hpc
    | broadcast =>
      obtain ⟨r, heq, hinv⟩ := h.broadcast hpc
      simp only [State.run, hpc, heq] at hr
      split at hr
      · cases hr
        exact hinv
      · cases hr
  | enqueue w =>
    obtain ⟨wl, heq, htop, hpoll⟩ := h.enqueue hpc
    simp only [State.run, hpc, heq] at hr
    cases hr
    split
    · exact htop
    · exact hpoll
  | waiting w c loc =>
    simp only [State.run, hpc] at hr
    exact h.runWait hpc hr
  | relock w c r =>
    have hok := h.pcs t
    rw [hpc] at hok
    simp only [State.run, hpc, Option.some.injEq] at hr
    subst hr
    split
    · refine h.move (t := t) ⟨rfl, rfl, rfl, rfl⟩ rfl (locked_keep h.lock ?_)
        (node_same h (.inl rfl)) trivial
        (by simp [hpc]) fun d r' hd => ?_
      · rw [hpc]
        exact Iff.rfl
      · by_cases hdc : d = c
        · simp only [State.goto, hdc, Function.update_self, Option.some.injEq] at hd
          rw [hdc, ← hd]
          exact ⟨hok.1, hok.2.2.2⟩
        · exact h.rets d r' (by simpa [State.goto, hdc] using hd)
    · exact h

theorem Inv.start {op : Op} (h : Inv s) (hpc : s.pc t = .idle) (hop : s.CanStart t op) :
    Inv (s.goto t (.acquire op)) := by
  refine h.moveOut (by simp [hpc]) trivial (locked_keep h.lock (by rw [hpc]; exact Iff.rfl)) ?_
  intro a u ha hu
  cases op with
  | wait w =>
    cases ha
    exact absurd hu (hop.2 u)
  | signal => cases ha
  | broadcast => cases ha

/-- Structures that are not in the list are written. -/
theorem Inv.links {a : Nat} {next prev : Option Nat} (h : Inv s) (ha : a ∉ s.nodes) :
    Inv { s with wl := s.wl.set a fun n => { n with next := next, prev := prev } } where
  lock := h.lock
  node := h.node
  pcs := by
    intro u
    have hok := h.pcs u
    have hready : ∀ w, State.isReady
        { s with wl := s.wl.set a fun n => { n with next := next, prev := prev } } w =
          s.isReady w := by
      intro w
      simp only [State.isReady, Waitlist.set_mem]
      split
      · rename_i hw
        rw [hw]
      · rfl
    show PcOk _ u (s.pc u)
    cases hpc : s.pc u with
    | waiting w c loc =>
      rw [hpc] at hok
      simp only [PcOk, hready]
      exact hok
    | relock w c r =>
      rw [hpc] at hok
      exact hok
    | _ => trivial
  waits := h.waits
  list := by
    refine h.list.congr rfl rfl (fun b hb => ?_) fun b _ hb => hb
    have hba : b ≠ a := fun hba => ha (hba ▸ hb)
    simp [hba]
  rets := h.rets

theorem inv_of_reach {clocks : Clocks} {clkid : Int}
    (h : (condSys clocks clkid).Reach s) : Inv s := by
  refine LTS.ReachIf.induct (P := Inv) ?_ ?_ h
  · rintro s ⟨-, hh, ht, hlock, -, hpc, hcalls, hret⟩
    have hp : s.pending = [] := by simp [State.pending, hcalls]
    refine ⟨fun t => ?_, fun t u a hu => ?_, fun t => ?_, by simp [hp], ?_, by simp [hret]⟩
    · simp [hpc, hlock, Pc.Locked]
    · simp [hpc, Pc.node] at hu
    · rw [hpc]
      trivial
    · rw [State.nodes, hp]
      exact ⟨List.nodup_nil, hh, ht, .nil⟩
  · intro s l s' hi _ hs
    cases l with
    | run t fuel => exact hi.run hs
    | start t op =>
      obtain ⟨hpc, hop, rfl⟩ := hs
      exact hi.start hpc hop
    | lock t m =>
      obtain ⟨-, -, rfl⟩ := hs
      exact ⟨hi.lock, hi.node, hi.pcs, hi.waits, hi.list, hi.rets⟩
    | unlock t m =>
      obtain ⟨-, -, rfl⟩ := hs
      exact ⟨hi.lock, hi.node, hi.pcs, hi.waits, hi.list, hi.rets⟩
    | tick =>
      obtain rfl := hs
      exact ⟨hi.lock, hi.node, hi.pcs, hi.waits, hi.list, hi.rets⟩
    | links a next prev =>
      obtain ⟨ha, rfl⟩ := hs
      exact hi.links ha

/-! ## What the runs show -/

/-- The wait that a thread is in, once it has entered the list. -/
def Pc.call : Pc → Option Nat
  | .waiting _ c _ => some c
  | .relock _ c _ => some c
  | _ => none

/-- A thread in a wait has released its mutex. -/
def Pc.Released : Pc → Prop
  | .enqueue _ | .waiting _ _ _ | .relock _ _ _ => True
  | _ => False

theorem ready_of_pending (h : Inv s) (hc : c ∈ s.pending) : s.isReady (s.call c).wait = false := by
  obtain ⟨loc, hloc⟩ := h.waits c hc
  have hok := h.pcs (s.call c).thread
  rw [hloc] at hok
  rcases hok.2.2.2.1 with ⟨-, hr⟩ | ⟨hst, -⟩
  · exact hr
  · rw [(mem_pending.1 hc).2] at hst
    cases hst

/-- A signal makes the oldest waiter ready, and no other. -/
theorem signal_oldest (h : Inv s) (hpc : s.pc t = .locked .signal) {clocks : Clocks} {fuel : Nat}
    (hr : s.run clocks fuel t = some s') :
    (∀ c ∈ s.pending, s'.isReady (s.call c).wait = true ↔ s.pending.head? = some c) ∧
    (∀ c, s'.status c = .signalled ↔ s.status c = .signalled ∨ s.pending.head? = some c) ∧
    s'.pending = s.pending.tail := by
  simp only [State.run, hpc, Option.some.injEq] at hr
  subst hr
  have hlist := h.list
  cases hp : s.pending with
  | nil =>
    rw [State.nodes, hp] at hlist
    rw [Waitlist.signal_nil hlist]
    refine ⟨by simp, fun c => by simp [State.goto, State.unlock, State.wake], ?_⟩
    exact wake_pending_eq [] [] h (by rw [hp]; rfl) s.wl
  | cons d rest =>
    rw [State.nodes, hp, List.map_cons] at hlist
    obtain ⟨wl, heq, -, hready⟩ := Waitlist.signal_cons hlist
    rw [heq]
    have hd : d ∈ s.pending := by simp [hp]
    -- structures of different pending waits differ
    have hinj : ∀ c ∈ s.pending, ((s.call c).wait.node = (s.call d).wait.node ↔ c = d) := by
      intro c hc
      refine ⟨fun hn => ?_, fun hcd => by rw [hcd]⟩
      rw [hp, List.mem_cons] at hc
      refine hc.resolve_right fun hc => ?_
      exact (List.nodup_cons.1 hlist.nodup).1 (List.mem_map.2 ⟨c, hc, hn⟩)
    refine ⟨fun c hc => ?_, fun c => ?_, ?_⟩
    · rw [← hp] at hc
      have hf := ready_of_pending h hc
      simp only [State.isReady] at hf
      simp [State.isReady, State.goto, State.unlock, State.wake, hready, hinj c hc, hf, eq_comm]
    · by_cases hc : c ∈ s.pending
      · simp [State.goto, State.unlock, State.wake, hc, hinj c hc, (mem_pending.1 hc).2]
        exact eq_comm
      · have hcd : d ≠ c := by
          rintro rfl
          exact hc hd
        simp [State.goto, State.unlock, State.wake, hc, hcd]
    · exact wake_pending_eq [d] rest h (by rw [hp]; rfl) wl

/-- Who signals finds every wait that has released its mutex in the list, or past it. -/
theorem released_in_list (h : Inv s) (hu : (s.pc u).Locked) (htu : t ≠ u) (ht : (s.pc t).Released) :
    ∃ c, (s.pc t).call = some c ∧
      (c ∈ s.pending ∨ s.status c = .signalled ∨ s.status c = .timedout) := by
  have hok := h.pcs t
  cases hpc : s.pc t with
  | enqueue w =>
    have htl : s.lock = some t := (h.lock t).1 (by rw [hpc]; trivial)
    rw [(h.lock u).1 hu] at htl
    cases htl
    exact absurd rfl htu
  | waiting w c loc =>
    rw [hpc] at hok
    obtain ⟨hc, -, -, hst, -⟩ := hok
    refine ⟨c, rfl, ?_⟩
    rcases hst with ⟨hst, -⟩ | ⟨hst, -⟩
    · exact .inl (mem_pending.2 ⟨hc, hst⟩)
    · exact .inr (.inl hst)
  | relock w c r =>
    rw [hpc] at hok
    refine ⟨c, rfl, .inr ?_⟩
    rw [hok.2.2.2]
    cases r <;> simp [statusOf]
  | idle => simp [hpc, Pc.Released] at ht
  | acquire op => simp [hpc, Pc.Released] at ht
  | locked op => simp [hpc, Pc.Released] at ht

/-- No step meets a `NULL` or fails an assertion. -/
theorem run_defined (h : Inv s) (clocks : Clocks) (hpc : s.pc t ≠ .idle) :
    ∃ fuel s', s.run clocks fuel t = some s' := by
  cases hpc' : s.pc t with
  | idle => exact absurd hpc' hpc
  | acquire op => exact ⟨0, _, by simp only [State.run, hpc']; rfl⟩
  | locked op =>
    cases op with
    | wait w =>
      refine ⟨0, ?_⟩
      simp only [State.run, hpc']
      split
      · exact ⟨_, rfl⟩
      · exact ⟨_, rfl⟩
    | signal => exact ⟨0, _, by simp only [State.run, hpc']; rfl⟩
    | broadcast =>
      obtain ⟨r, heq, -⟩ := h.broadcast hpc'
      exact ⟨s.nodes.length, _, by simp only [State.run, hpc', heq, le_refl, ↓reduceIte]; rfl⟩
  | enqueue w =>
    obtain ⟨wl, heq, -⟩ := h.enqueue hpc'
    exact ⟨0, _, by simp only [State.run, hpc', heq]; rfl⟩
  | waiting w c loc =>
    refine ⟨0, ?_⟩
    simp only [State.run, hpc']
    cases loc with
    | poll =>
      simp only [State.runWait]
      split
      · exact ⟨_, rfl⟩
      · split
        · exact ⟨_, rfl⟩
        · exact ⟨_, rfl⟩
    | timeout =>
      obtain ⟨r, heq, -⟩ := h.timeout hpc'
      exact ⟨_, by simp only [State.runWait, heq]; rfl⟩
    | _ => exact ⟨_, rfl⟩
  | relock w c r => exact ⟨0, _, by simp only [State.run, hpc']; rfl⟩

/-- **No lost signal**: in every run the list holds the waits that were neither signalled nor timed
out, oldest first; a signal makes the oldest of them ready; a wait reports a timeout unless a
wake-up reached it; a wait that has released its mutex is seen by who holds the lock; and every step
is defined. -/
theorem waiters_fifo {clocks : Clocks} {clkid : Int} {s : State}
    (h : (condSys clocks clkid).Reach s) :
    (Seg (fun a => (s.wl.mem a).next) s.wl.head s.nodes none ∧
      s.wl.tail = s.nodes.getLast? ∧ (s.wl.tail = none ↔ s.pending = [])) ∧
    (∀ t fuel s', s.pc t = .locked .signal → s.run clocks fuel t = some s' →
      (∀ c ∈ s.pending, s'.isReady (s.call c).wait = true ↔ s.pending.head? = some c) ∧
      (∀ c, s'.status c = .signalled ↔ s.status c = .signalled ∨ s.pending.head? = some c) ∧
      s'.pending = s.pending.tail) ∧
    (∀ c isTimedout, s.ret c = some isTimedout → (isTimedout = true ↔ s.status c ≠ .signalled)) ∧
    (∀ t u, (s.pc t).Released → s.pc u = .locked .signal ∨ s.pc u = .locked .broadcast →
      ∃ c, (s.pc t).call = some c ∧
        (c ∈ s.pending ∨ s.status c = .signalled ∨ s.status c = .timedout)) ∧
    (∀ t, s.pc t ≠ .idle → ∃ fuel s', s.run clocks fuel t = some s') := by
  have hi := inv_of_reach h
  refine ⟨⟨hi.list.chain, hi.list.tail, ?_⟩, ?_, ?_, ?_, fun t hpc => run_defined hi clocks hpc⟩
  · rw [hi.list.tail, List.getLast?_eq_none_iff, State.nodes, List.map_eq_nil_iff]
  · intro t fuel s' hpc hr
    exact signal_oldest hi hpc hr
  · intro c r hr
    rw [(hi.rets c r hr).2]
    cases r <;> simp [statusOf]
  · intro t u ht hu
    refine released_in_list (u := u) hi ?_ ?_ ht
    · rcases hu with hu | hu <;> rw [hu] <;> trivial
    · rintro rfl
      rcases hu with hu | hu <;> simp [hu, Pc.Released] at ht

end

/-! ## A run -/

/-- A condition variable that nobody uses. -/
def State.idle (clkid : Int) : State where
  wl := ⟨none, none, fun _ => ⟨none, none, false⟩⟩
  clkid := clkid
  lock := none
  waiterMutex := none
  owner := fun _ => none
  pc := fun _ => .idle
  now := 0
  calls := 0
  call := fun _ => ⟨0, ⟨.wait, 0, 0, false⟩, 0⟩
  status := fun _ => .waiting
  ret := fun _ => none

theorem reach_idle (clocks : Clocks) (clkid : Int) :
    (condSys clocks clkid).Reach (State.idle clkid) :=
  .init ⟨rfl, rfl, rfl, rfl, rfl, fun _ => rfl, rfl, fun _ => rfl⟩

section
variable {clocks : Clocks} {clkid : Int} {s s' : State} {w : Wait}

theorem reach_lock {t m : Nat} (h : (condSys clocks clkid).Reach s) (hpc : s.pc t = .idle)
    (hm : s.owner m = none) :
    (condSys clocks clkid).Reach { s with owner := Function.update s.owner m (some t) } :=
  h.step (a := .lock t m) trivial ⟨hpc, hm, rfl⟩

theorem reach_start (t : Nat) (op : Op) (h : (condSys clocks clkid).Reach s) (hpc : s.pc t = .idle)
    (hop : s.CanStart t op) : (condSys clocks clkid).Reach (s.goto t (.acquire op)) :=
  h.step (a := .start t op) trivial ⟨hpc, hop, rfl⟩

theorem reach_run (t fuel : Nat) (h : (condSys clocks clkid).Reach s)
    (hr : s.run clocks fuel t = some s') : (condSys clocks clkid).Reach s' :=
  h.step (a := .run t fuel) trivial hr

/-- Thread `t` has entered the list with a wait that polls. -/
structure Entered (s : State) (t : Nat) (w : Wait) (wl : Waitlist) (s' : State) : Prop where
  pc : s'.pc = Function.update s.pc t (.waiting w s.calls .poll)
  wl : s'.wl = wl
  clkid : s'.clkid = s.clkid
  lock : s'.lock = none
  waiterMutex : s'.waiterMutex = some w.mutex
  owner : s'.owner w.mutex = none
  now : s'.now = s.now
  calls : s'.calls = s.calls + 1
  call : s'.call = Function.update s.call s.calls ⟨t, w, s.now⟩
  status : s'.status = Function.update s.status s.calls .waiting

theorem reach_entered {t : Nat} {wl : Waitlist} (h : (condSys clocks clkid).Reach s)
    (hpc : s.pc t = .idle) (howner : s.owner w.mutex = none) (hlock : s.lock = none)
    (hwm : s.waiterMutex = none ∨ s.waiterMutex = some w.mutex)
    (hnode : ∀ u, (s.pc u).node ≠ some w.node) (hs : w.sleeps = false)
    (henter : s.wl.enter w = some wl) :
    ∃ s', (condSys clocks clkid).Reach s' ∧ Entered s t w wl s' := by
  let s1 : State := { s with owner := Function.update s.owner w.mutex (some t) }
  have h1 : (condSys clocks clkid).Reach s1 := reach_lock h hpc howner
  have h2 : (condSys clocks clkid).Reach (s1.goto t (.acquire (.wait w))) :=
    reach_start t (.wait w) h1 hpc ⟨Function.update_self _ _ _, hnode⟩
  have h3 : (condSys clocks clkid).Reach
      ({ s1 with lock := some t }.goto t (.locked (.wait w))) := by
    refine reach_run t 0 h2 ?_
    simp [State.run, State.acquire, State.goto, s1, hlock]
  let s4 : State := { s with
    lock := some t
    waiterMutex := some w.mutex
    owner := Function.update s.owner w.mutex none }
  have h4 : (condSys clocks clkid).Reach (s4.goto t (.enqueue w)) := by
    refine reach_run t 0 h3 ?_
    simp only [State.run, goto_pc, if_true]
    exact (if_pos hwm).trans (by simp [State.goto, s1, s4])
  refine ⟨(s4.arrive t w wl).unlock.goto t (.waiting w s.calls .poll), reach_run t 0 h4 ?_,
    rfl, rfl, rfl, rfl, rfl, Function.update_self _ _ _, rfl, rfl, rfl, rfl⟩
  simp [State.run, henter, hs, State.arrive, State.unlock, State.goto, s4]

theorem goto_goto (s : State) (t : Nat) (p q : Pc) : (s.goto t p).goto t q = s.goto t q := by
  simp [State.goto]

/-- The wait looks at a clock that has passed its target. -/
theorem reach_timedout (clocks : Clocks) (clkid : Int) (hs : w.sleeps = false)
    (ht : w.fn.timed = true)
    (hexp : ∀ s : State, s.clkid = clkid → s.now = 0 → s.expired clocks w = true) :
    ∃ s, (condSys clocks clkid).Reach s ∧ s.call 0 = ⟨0, w, 0⟩ ∧ s.now = 0 ∧
    s.ret 0 = some true := by
  obtain ⟨wl, henter, hhead, htail, hmem⟩ : ∃ wl, (State.idle clkid).wl.enter w = some wl ∧
      wl.head = some w.node ∧ wl.tail = some w.node ∧ wl.mem w.node = ⟨none, none, false⟩ := by
    simp [Waitlist.enter, Waitlist.waitTimedout, State.idle, ht]
  obtain ⟨s, h, he⟩ := reach_entered (t := 0) (reach_idle clocks clkid) rfl rfl rfl (.inl rfl)
    (fun u => by simp [State.idle, Pc.node]) hs henter
  rw [← he.wl] at hhead htail hmem
  have hpc : s.pc 0 = .waiting w 0 .poll := by rw [he.pc]; rfl
  have hcall : s.call 0 = ⟨0, w, 0⟩ := by rw [he.call]; rfl
  have hready : s.isReady w = false := by simp [State.isReady, hmem]
  have h1 : (condSys clocks clkid).Reach (s.goto 0 (.waiting w 0 .clock)) := by
    refine reach_run 0 0 h ?_
    simp [State.run, State.runWait, hpc, hready, hs, ht]
  have h2 : (condSys clocks clkid).Reach (s.goto 0 (.waiting w 0 .expire)) := by
    refine reach_run 0 0 h1 ?_
    have hx := hexp (s.goto 0 (.waiting w 0 .clock)) he.clkid he.now
    simp [State.run, State.runWait, hx, goto_goto]
  have h3 : (condSys clocks clkid).Reach
    ({ s with lock := some 0 }.goto 0 (.waiting w 0 .timeout)) := by
    refine reach_run 0 0 h2 ?_
    simp [State.run, State.runWait, State.acquire, State.goto, he.lock]
  have htimeout : s.wl.timeout w.node = some ({ s.wl with head := none, tail := none }, true) := by
    simp [Waitlist.timeout, hmem, hhead, htail]
  have h4 : (condSys clocks clkid).Reach (({ s with lock := some 0 }.leave 0
      ({ s.wl with head := none, tail := none }, true)).unlock.goto 0 (.relock w 0 true)) := by
    refine reach_run 0 0 h3 ?_
    simp [State.run, State.runWait, State.leave, State.unlock, State.goto, htimeout]
  obtain ⟨s', h', hpc', hcall', hnow', howner'⟩ : ∃ s', (condSys clocks clkid).Reach s' ∧
      s'.pc 0 = .relock w 0 true ∧ s'.call 0 = ⟨0, w, 0⟩ ∧ s'.now = 0 ∧ s'.owner w.mutex = none :=
    ⟨_, h4, by simp, hcall, he.now, he.owner⟩
  refine ⟨{ s' with
    owner := Function.update s'.owner w.mutex (some 0)
    ret := Function.update s'.ret 0 (some true) }.goto 0 .idle, reach_run 0 0 h' ?_,
      hcall', hnow', ?_⟩
  · simp [State.run, hpc', howner']
  · simp [State.goto]

/-- Two waits on one condition variable, of which a signal wakes the one that came first. -/
theorem waiters_fifo_two : ∃ s s' : State, s.pending = [0, 1] ∧ s.nodes = [7, 9] ∧
    s.run (fun _ _ => ⟨0, 0⟩) 0 2 = some s' ∧ s'.isReady (s.call 0).wait = true ∧
    ¬ s'.isReady (s.call 1).wait = true ∧ s'.pending = [1] := by
  let clocks : Clocks := fun _ _ => ⟨0, 0⟩
  let w1 : Wait := ⟨.clockwait clockMonotonic ⟨1, 0⟩, 3, 7, false⟩
  let w2 : Wait := ⟨.wait, 3, 9, false⟩
  obtain ⟨s1, h1, he1⟩ := reach_entered (t := 0) (w := w1) (reach_idle clocks clockMonotonic)
    rfl rfl rfl (.inl rfl) (fun u => by simp [State.idle, Pc.node]) rfl rfl
  obtain ⟨wl, henter⟩ : ∃ wl, s1.wl.enter w2 = some wl := by
    rw [he1.wl]
    exact ⟨_, rfl⟩
  have hnode : ∀ u, (s1.pc u).node ≠ some w2.node := by
    intro u
    rw [he1.pc, Function.update_apply]
    split
    · decide
    · exact fun h => by cases h
  obtain ⟨s2, h2, he2⟩ := reach_entered (t := 1) (w := w2) h1 (by rw [he1.pc]; rfl) he1.owner
    he1.lock (.inr he1.waiterMutex) hnode rfl henter
  have h3 := reach_start 2 .signal h2 (by rw [he2.pc, he1.pc]; rfl) trivial
  let s : State := { s2 with lock := some 2 }.goto 2 (.locked .signal)
  have h4 : (condSys clocks clockMonotonic).Reach s := by
    refine reach_run 2 0 h3 ?_
    simp [State.run, State.acquire, State.goto, s, he2.lock]
  have hcall : s.call 0 = ⟨0, w1, 0⟩ ∧ s.call 1 = ⟨1, w2, 0⟩ := by
    show s2.call 0 = _ ∧ s2.call 1 = _
    rw [he2.call, he1.call, he1.calls, he1.now]
    exact ⟨rfl, rfl⟩
  have hpend : s.pending = [0, 1] := by
    show (List.range s2.calls).filter (fun c => s2.status c = .waiting) = [0, 1]
    rw [he2.calls, he1.calls, he2.status, he1.status, he1.calls]
    rfl
  have hpc : s.pc 2 = .locked .signal := by simp [s]
  obtain ⟨s', hr⟩ : ∃ s', s.run clocks 0 2 = some s' := by
    simp only [State.run, hpc]
    exact ⟨_, rfl⟩
  obtain ⟨hready, -, hrest⟩ := (waiters_fifo h4).2.1 2 0 s' hpc hr
  rw [hpend] at hready hrest
  refine ⟨s, s', hpend, ?_, hr, (hready 0 (by decide)).2 rfl, fun h => ?_, hrest⟩
  · rw [State.nodes, hpend, List.map_cons, List.map_cons, hcall.1, hcall.2]
    rfl
  · exact absurd ((hready 1 (by decide)).1 h) (by decide)

end

end Abt

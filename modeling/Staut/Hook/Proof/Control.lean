import Staut.Hook.Proof.Chunks

/-!
# A call on drives that execute at once

When a command is executed at its doorbell, a call runs alone on the queue pairs of its core. `View`
lists what `Node.step` can then do: the queue pair of a running request or check has nothing
outstanding, so that the polling loops end (`Ctl.view`) and a check answers 1. `Ctl cfg a n` holds
throughout the call (`Ctl.step`).
-/

set_option autoImplicit false

namespace Hook

open CSem Run Myfs Nvme Cyclic

/-! ## One step of a node -/

/-- The queue pair of the call's core on a drive. -/
def Machine.own (m : Machine) (did : Nat) : Queue := m.q did m.call.coreId

def Machine.setOwn (m : Machine) (did : Nat) (q : Queue) : Machine := m.setQueue did m.call.coreId q

def Kind.opc : Kind → Opc
  | .read => .read
  | .write => .write

def Kind.flag : Kind → Int
  | .read => 0
  | .write => 1

/-- The request for the chunk at the call's offset. -/
def IoCall.chunk (a : Args) (c : IoCall) (lba : Int) : Req :=
  ⟨a.kind.opc, lba, c.blksz.toNat / 512, c.blksz.toNat, a.buf + c.j.toNat⟩

/-- What `Node.step` can do, with the drives up to date. -/
inductive View (cfg : Cfg) (a : Args) (n : Node) : Node → Prop
  | tau {c : IoCall} : n.m.busy = none → n.m.call.next cfg = .tau c →
      View cfg a n ⟨{ n.m with call := c }, n.disk⟩
  | start {did : Nat} {lba : Int} {fs : State} : n.m.busy = none → n.m.call.j < n.m.call.len →
      myfsGetLba n.m.fs a.file (a.pos + n.m.call.j.toNat) a.kind.flag = .ok (lba, fs) →
      did = (driveOf cfg lba).toNat → (∃ offset write r cont,
        n.m.call.next cfg = .req offset write r cont) →
      View cfg a n ⟨{ n.m.setOwn did { n.m.own did with pc := .newSqe (n.m.call.chunk a lba) } with
        fs := fs, busy := some (did, n.m.call.coreId) }, n.disk⟩
  | ask {did : Nat} {rid : Int} {cont : Bool → IoCall} : n.m.busy = none →
      n.m.call.next cfg = .check rid cont → did < cfg.ND →
      View cfg a n ⟨{ n.m.setOwn did { n.m.own did with pc := .checkCq (.check rid) false } with
        busy := some (did, n.m.call.coreId) }, n.disk⟩
  | poll {did : Nat} {r : Req} : n.m.busy = some (did, n.m.call.coreId) →
      (n.m.own did).pc = .newSqe r → (n.m.own did).waiting ≠ [] →
      View cfg a n ⟨{ n.m.setOwn did { n.m.own did with pc := .checkCq (.req r) false } with
        busy := some (did, n.m.call.coreId) }, n.disk⟩
  | leave {did : Nat} {r : Req} {b : Bool} : n.m.busy = some (did, n.m.call.coreId) →
      (n.m.own did).pc = .checkCq (.req r) b → (n.m.own did).waiting = [] →
      View cfg a n ⟨{ n.m.setOwn did { (n.m.own did).leaveCq b with pc := .newSqe r } with
        busy := some (did, n.m.call.coreId) }, n.disk⟩
  | reap {did : Nat} {c : Call} {b : Bool} : n.m.busy = some (did, n.m.call.coreId) →
      (n.m.own did).pc = .checkCq c b →
      (n.m.own did).reaped.length < (n.m.own did).dev.posted.length →
      View cfg a n ⟨{ n.m.setOwn did { ((n.m.own did).reap n.m.mem).1 with pc := .checkCq c true }
        with
        mem := ((n.m.own did).reap n.m.mem).2
        busy := some (did, n.m.call.coreId) }, n.disk⟩
  | submit {did k : Nat} {r : Req} {q : Queue} {c : Cmd} {rid : Int} : n.m.busy =
      some (did, n.m.call.coreId) → (n.m.own did).pc = .newSqe r →
      n.m.call.pc = .inner k → n.m.call.j < n.m.call.len →
      rid = ridOf cfg did n.m.call.coreId (n.m.own did).qp.sqTail →
      q = (n.m.own did).submit cfg did n.m.call.coreId n.m.mem r →
      c = ⟨(n.m.own did).issued.length, q.qp.sqe (n.m.own did).qp.sqTail⟩ →
      View cfg a n ⟨{ n.m.setOwn did (q.complete 0 c (execCmd q.qp (n.disk did) c).1) with
        call := n.m.call.after k rid
        busy := none
        rqs := n.m.rqs ++ [⟨did, (n.m.own did).issued.length, rid, false⟩] },
        Function.update n.disk did (execCmd q.qp (n.disk did) c).2⟩
  | checked {did : Nat} {q : Queue} {rid : Int} {cont : Bool → IoCall} :
      n.m.call.next cfg = .check rid cont → did < cfg.ND →
      (∀ d, d ≠ did → n.m.busy ≠ some (d, n.m.call.coreId)) → q.pc = .idle →
      q.issued = (n.m.own did).issued → q.dev = (n.m.own did).dev →
      q.reaped = (n.m.own did).reaped → q.qp.doneFlag = (n.m.own did).qp.doneFlag →
      View cfg a n ⟨{ n.m.setOwn did q with
        call := cont true
        busy := none
        rqs := n.m.rqs.map (Rq.check rid) }, n.disk⟩

/-- What holds of the control state throughout a call. -/
structure Ctl (cfg : Cfg) (a : Args) (n : Node) : Prop where
  inv : MInv cfg n.m
  track : Tracked n.m.call n.m.rqs
  shape : Shape a n.m.call
  executed : ∀ did < cfg.ND, ∀ c < cfg.N_CORE, (n.m.q did c).dev.outstanding = []
  idle : ∀ did < cfg.ND, ∀ c < cfg.N_CORE, n.m.busy ≠ some (did, c) → (n.m.q did c).pc = .idle
  marks : ∀ k < n.m.call.pc.count, ∃ did < cfg.ND, ∃ cid < QD,
    n.m.call.rid k = ridOf cfg did n.m.call.coreId cid ∧ (n.m.own did).qp.doneFlag cid ≤ 1

theorem exec_nil {n : Node} {did c : Nat} (h : (n.m.q did c).dev.outstanding = []) :
    n.exec did c = n := by
  simp only [Node.exec, h]

theorem exec_cons {n : Node} {did c : Nat} {cmd : Cmd}
    (h : (n.m.q did c).dev.outstanding = [cmd]) : n.exec did c =
      ⟨n.m.setQueue did c ((n.m.q did c).complete 0 cmd
          (execCmd (n.m.q did c).qp (n.disk did) cmd).1),
        Function.update n.disk did (execCmd (n.m.q did c).qp (n.disk did) cmd).2⟩ := by
  simp only [Node.exec, h]

theorem setQueue_answer (m : Machine) (did c : Nat) (q q' : Queue) (mem : Nat → UInt8)
    (call : IoCall) (rqs : List Rq) : Machine.setQueue { m.setQueue did c q with
      mem := mem, call := call, busy := none, rqs := rqs } did c q' =
      { m.setQueue did c q' with mem := mem, call := call, busy := none, rqs := rqs } := by
  simp only [Machine.setQueue, Function.update_self, Function.update_idem]

theorem node_step {cfg : Cfg} {n n' : Node} (h : n.step cfg = some n') :
    ∃ m, n.m.cpu cfg = some m ∧
      ((n.m.busy = none ∧ n' = ⟨m, n.disk⟩) ∨
        ∃ did c, n.m.busy = some (did, c) ∧ n' = Node.exec ⟨m, n.disk⟩ did c) := by
  unfold Node.step at h
  obtain ⟨m, hm, hn⟩ := Option.map_eq_some_iff.1 h
  refine ⟨m, hm, ?_⟩
  cases hb : n.m.busy with
  | none =>
    rw [hb] at hn
    exact .inl ⟨rfl, hn.symm⟩
  | some p =>
    rw [hb] at hn
    exact .inr ⟨p.1, p.2, rfl, hn.symm⟩

/-- No completion is waiting and no command is with the device: nothing is live. -/
theorem live_nil {q : Queue} (h1 : q.dev.outstanding = []) (h2 : q.waiting = []) : q.liveCids =
    [] := by
  unfold Queue.liveCids Queue.live
  rw [h1, h2]
  rfl

theorem waiting_eq_nil {q : Queue} (h : QInv q) : q.waiting = [] ↔ q.qp.cqReady = false := by
  rw [← Bool.not_eq_true, h.cqReady_iff, Queue.waiting, List.drop_eq_nil_iff]
  omega

theorem own_setOwn (m : Machine) (did : Nat) (q : Queue) (d : Nat) :
    (m.setOwn did q).q d m.call.coreId = if d = did then q else m.own d := by
  unfold Machine.own Machine.setOwn
  rw [setQueue_q]
  by_cases hd : d = did <;> simp [hd]

/-- The device's side of a step. -/
theorem minv_exec {cfg : Cfg} {m : Machine} (h : MInv cfg m)
    (disk : Nat → Nat → UInt8) {did c : Nat} (hd : did < cfg.ND) (hc : c < cfg.N_CORE) :
    MInv cfg (Node.exec ⟨m, disk⟩ did c).m := by
  unfold Node.exec
  dsimp only
  split
  · exact h
  · rename_i cmd rest ho
    refine @MInv.queue _ _ h _ _ _ .none _ m.mem hd hc (.inl ⟨0, _, rfl⟩)
      ⟨cmd, by rw [ho]; rfl, fun hr => ?_, rfl, rfl⟩
    simp only [execCmd, hr, length_load]

theorem exec_call (n : Node) (did c : Nat) :
    (n.exec did c).m.call = n.m.call ∧ (n.exec did c).m.rqs = n.m.rqs := by
  unfold Node.exec
  dsimp only
  split <;> exact ⟨rfl, rfl⟩

theorem node_track {cfg : Cfg} {n n' : Node} (hs : n.step cfg = some n') :
    Track cfg n.m.call n.m.rqs n'.m.call n'.m.rqs := by
  obtain ⟨m, hm, ⟨-, rfl⟩ | ⟨did, c, -, rfl⟩⟩ := node_step hs
  · exact track_step (l := .cpu) hm
  · rw [(exec_call _ did c).1, (exec_call _ did c).2]
    exact track_step (l := .cpu) hm

section
variable {cfg : Cfg} {a : Args} {n n' : Node} (hok : a.Ok cfg)
  (hfit : cfg.ND * cfg.N_CORE * QD ≤ 2 ^ 31) (hND : 0 < cfg.ND) (h : Ctl cfg a n)
include h

/-- The queue pair that runs the request or check. -/
theorem Ctl.own_inv {did : Nat} (hd : did < cfg.ND) : QInv (n.m.own did) :=
  (h.inv.pairs.queues did hd _ h.inv.pairs.core).inv

theorem Ctl.own_executed {did : Nat} (hd : did < cfg.ND) : (n.m.own did).dev.outstanding = [] :=
  h.executed did hd _ h.inv.pairs.core

include hfit in
/-- With nothing live, the polled command is done. -/
theorem Ctl.polled_done {rid : Int} {cont : Bool → IoCall}
    (hn : n.m.call.next cfg = .check rid cont) {did : Nat} (hdid : did = (ridDid cfg rid).toNat)
    (hd : did < cfg.ND) (hw : (n.m.own did).waiting = []) :
    (n.m.own did).qp.done (ridCid rid).toNat = true := by
  obtain ⟨k, i, hpc, hk, rfl, -⟩ := next_check hn
  obtain ⟨did', hd', cid, hc, he, hle⟩ := h.marks i (by rw [hpc]; exact hk)
  obtain ⟨h1, -, h3⟩ := ridOf_decode hfit hd' h.inv.pairs.core hc
  rw [he, h1] at hdid
  obtain rfl : did = did' := hdid
  rw [he, h3, Int.toNat_natCast]
  have hne : (n.m.own did).qp.doneFlag cid ≠ 0 := by
    rw [Ne, (h.own_inv hd).done cid hc, live_nil (h.own_executed hd) hw]
    exact List.not_mem_nil
  simp only [QP.done, decide_eq_true_eq]
  omega

include hok in
/-- The next request is for the chunk at the call's offset. -/
theorem Ctl.req_chunk {offset : Nat} {write : Int} {r : Int → Req} {cont : Int → IoCall}
    (hn : n.m.call.next cfg = .req offset write r cont) :
    n.m.call.j < n.m.call.len ∧ offset = a.pos + n.m.call.j.toNat ∧ write = a.kind.flag ∧
      r = n.m.call.chunk a := by
  obtain ⟨k, hpc, -, hj, hoff, hr, -⟩ := next_req hn
  have hlt : n.m.call.j < n.m.call.len := by
    cases hk : n.m.call.kind with
    | read => exact hj hk
    | write => exact h.shape.inner k hpc (.inr hk)
  refine ⟨hlt, hoff.trans (h.shape.offset hok hlt).1, ?_⟩
  rcases hr with ⟨hk, rfl, rfl⟩ | ⟨hk, rfl, rfl⟩ <;> rw [h.shape.kind] at hk
  · refine ⟨by rw [hk]; rfl, funext fun lba => ?_⟩
    rw [h.shape.request hlt, IoCall.chunk, hk]
    rfl
  · refine ⟨by rw [hk]; rfl, funext fun lba => ?_⟩
    rw [h.shape.request hlt, IoCall.chunk, hk]
    rfl

include hok in
theorem Ctl.view_req {offset did : Nat} {write lba : Int} {r : Int → Req} {cont : Int → IoCall}
    {fs : State} (hb : n.m.busy = none) (hn : n.m.call.next cfg = .req offset write r cont)
    (hg : myfsGetLba n.m.fs n.m.call.hookfd offset write = .ok (lba, fs))
    (hd : did = (driveOf cfg (r lba).lba).toNat) :
    View cfg a n ⟨{ n.m.setQueue did n.m.call.coreId { n.m.q did n.m.call.coreId with
      pc := .newSqe (r lba) } with fs := fs, busy := some (did, n.m.call.coreId) }, n.disk⟩ := by
  obtain ⟨hlt, rfl, rfl, rfl⟩ := h.req_chunk hok hn
  rw [h.shape.hookfd] at hg
  exact .start hb hlt hg hd ⟨_, _, _, _, hn⟩

include hfit in
theorem Ctl.view_check {did coreId : Nat} {rid : Int} {cont : Bool → IoCall}
    (hb : n.m.busy = none) (hn : n.m.call.next cfg = .check rid cont)
    (hd : did = (ridDid cfg rid).toNat) (hc : coreId = (ridQid cfg rid).toNat - 1) :
    View cfg a n ⟨n.m.answer cfg did coreId ((n.m.q did coreId).callCheck rid).1 n.m.mem
      ((n.m.q did coreId).callCheck rid).2, n.disk⟩ := by
  obtain ⟨hlt, hcore⟩ := h.inv.check_core hfit hn
  rw [← hc] at hcore
  subst hcore
  rw [← hd] at hlt
  have hbusy : ∀ d, d ≠ did → n.m.busy ≠ some (d, n.m.call.coreId) := fun d _ he => by
    rw [hb] at he
    cases he
  by_cases hdone : (n.m.q did n.m.call.coreId).qp.done (ridCid rid).toNat = true
  · have hcc : (n.m.q did n.m.call.coreId).callCheck rid =
        (n.m.q did n.m.call.coreId, .check rid true) := if_pos hdone
    rw [hcc, answer_check hn]
    exact .checked hn hlt hbusy
      (h.idle did hlt _ h.inv.pairs.core (by rw [hb]; exact nofun)) rfl rfl rfl rfl
  · have hcc : (n.m.q did n.m.call.coreId).callCheck rid =
        ({ n.m.q did n.m.call.coreId with pc := .checkCq (.check rid) false }, .none) :=
      if_neg hdone
    rw [hcc, answer_none]
    exact .ask hb hn hlt

include hfit in
theorem Ctl.view_host {did : Nat} {q : Queue} {mem : Nat → UInt8} {o : Out}
    (hb : n.m.busy = some (did, n.m.call.coreId))
    (hh : (n.m.q did n.m.call.coreId).host cfg did n.m.call.coreId n.m.mem = some (q, mem, o)) :
    View cfg a n (Node.exec ⟨n.m.answer cfg did n.m.call.coreId q mem o, n.disk⟩ did
      n.m.call.coreId) := by
  obtain ⟨hd, -, hdo⟩ := h.inv.busy _ _ hb
  have hq := h.own_inv hd
  have hnone := h.own_executed hd
  cases host_step hh with
  | poll hpc hf =>
    rw [answer_none, exec_nil (by rw [setQueue_self]; exact hnone)]
    refine .poll hb hpc fun hw => ?_
    -- a slot in use has a live command
    have hm := (hq.done _ hq.tail).1 hf
    rw [live_nil hnone hw] at hm
    cases hm
  | reap hpc hr =>
    rw [answer_none, exec_nil (by rw [setQueue_self]; exact hnone)]
    exact .reap hb hpc (hq.cqReady_iff.1 hr)
  | leaveReq hpc hr =>
    rw [answer_none, exec_nil (by rw [setQueue_self]; simp only [leaveCq_dev]; exact hnone)]
    exact .leave hb hpc ((waiting_eq_nil hq).2 hr)
  | leaveCheck hpc hr =>
    rw [hpc] at hdo
    obtain ⟨hdid, cont, hn⟩ := hdo
    have hdone := h.polled_done hfit hn hdid hd ((waiting_eq_nil hq).2 hr)
    have hdone' : (n.m.q did n.m.call.coreId).qp.done _ = true := hdone
    rw [hdone', answer_check hn,
      exec_nil (by rw [setQueue_self]; simp only [leaveCq_dev]; exact hnone)]
    refine .checked hn hd (fun d hne he => ?_) rfl rfl rfl rfl
      (leaveCq_doneFlag _ _)
    rw [hb] at he
    cases he
    exact hne rfl
  | @submit r hpc hf =>
    rw [hpc] at hdo
    obtain ⟨offset, write, r', cont, hn⟩ := hdo
    obtain ⟨k, hpc', -, hj, -, -, rfl⟩ := next_req hn
    have hlt : n.m.call.j < n.m.call.len := by
      cases hk : n.m.call.kind with
      | read => exact hj hk
      | write => exact h.shape.inner k hpc' (.inr hk)
    let q := (n.m.own did).submit cfg did n.m.call.coreId n.m.mem r
    let c : Cmd := ⟨(n.m.own did).issued.length, q.qp.sqe (n.m.own did).qp.sqTail⟩
    have hout : q.dev.outstanding = [c] := by
      show (n.m.own did).dev.outstanding ++ [_] = _
      rw [hnone]
      rfl
    rw [answer_rid hn, exec_cons (by rw [setQueue_self]; exact hout), setQueue_self]
    rw [setQueue_answer]
    exact .submit hb hpc hpc' hlt rfl rfl rfl

include hok hfit in
theorem Ctl.view (hs : n.step cfg = some n') : View cfg a n n' := by
  obtain ⟨m, hm, ⟨hb, rfl⟩ | ⟨did, c, hb, rfl⟩⟩ := node_step hs
  · cases cpu_step hm with
    | tau _ hn => exact .tau hb hn
    | req _ hn hg hd _ => exact h.view_req hok hb hn hg hd
    | check _ hn _ _ hd hc _ => exact h.view_check hfit hb hn hd hc
    | host hb' => 
      rw [hb] at hb'
      cases hb'
  · obtain ⟨-, rfl, -⟩ := h.inv.busy _ _ hb
    cases cpu_step hm with
    | tau hb' =>
      rw [hb] at hb'
      cases hb'
    | req hb' =>
      rw [hb] at hb'
      cases hb'
    | check hb' =>
      rw [hb] at hb'
      cases hb'
    | host hb' hh =>
      rw [hb] at hb'
      cases hb'
      exact h.view_host hfit hb hh

include hfit hND in
theorem Ctl.node_inv (hs : n.step cfg = some n') : MInv cfg n'.m := by
  obtain ⟨m, hm, ⟨-, rfl⟩ | ⟨did, c, hb, rfl⟩⟩ := node_step hs
  · exact h.inv.cpu hfit hND hm
  · obtain ⟨hd, rfl, -⟩ := h.inv.busy _ _ hb
    exact minv_exec (h.inv.cpu hfit hND hm) n.disk hd h.inv.pairs.core

theorem Ctl.executed_set {did : Nat} {q : Queue} (hq : q.dev.outstanding = []) :
    ∀ d < cfg.ND, ∀ c < cfg.N_CORE, ((n.m.setOwn did q).q d c).dev.outstanding = [] := by
  intro d hd c hc
  unfold Machine.setOwn
  rw [setQueue_q]
  split
  · exact hq
  · exact h.executed d hd c hc

/-- While the call waits for one queue pair, the others are idle. -/
theorem Ctl.idle_busy {did : Nat} (q : Queue)
    (hb : ∀ d c, (d, c) ≠ (did, n.m.call.coreId) → n.m.busy ≠ some (d, c)) :
    ∀ d < cfg.ND, ∀ c < cfg.N_CORE, some (did, n.m.call.coreId) ≠ some (d, c) →
      ((n.m.setOwn did q).q d c).pc = .idle := by
  intro d hd c hc hne
  unfold Machine.setOwn
  rw [setQueue_q]
  split
  · rename_i he
    rw [he.1, he.2] at hne
    exact absurd rfl hne
  · exact h.idle d hd c hc (hb d c fun he => hne (by rw [he]))

theorem Ctl.idle_free {did : Nat} {q : Queue} (hq : q.pc = .idle)
    (hb : ∀ d c, (d, c) ≠ (did, n.m.call.coreId) → n.m.busy ≠ some (d, c)) :
    ∀ d < cfg.ND, ∀ c < cfg.N_CORE, ((n.m.setOwn did q).q d c).pc = .idle := by
  intro d hd c hc
  unfold Machine.setOwn
  rw [setQueue_q]
  split
  · exact hq
  · rename_i hne
    exact h.idle d hd c hc (hb d c fun he => hne (Prod.mk.inj he))

theorem Ctl.marks_set {did : Nat} {q : Queue}
    (hf : ∀ cid, (n.m.own did).qp.doneFlag cid ≤ 1 → q.qp.doneFlag cid ≤ 1) {k : Nat}
    (hk : k < n.m.call.pc.count) : ∃ d < cfg.ND, ∃ cid < QD,
      n.m.call.rid k = ridOf cfg d n.m.call.coreId cid ∧
        ((n.m.setOwn did q).q d n.m.call.coreId).qp.doneFlag cid ≤ 1 := by
  obtain ⟨d, hd, cid, hc, hr, hle⟩ := h.marks k hk
  refine ⟨d, hd, cid, hc, hr, ?_⟩
  rw [own_setOwn]
  split
  · rename_i he
    exact hf cid (he ▸ hle)
  · exact hle

omit h in
theorem busy_ne {did d c : Nat} (hb : n.m.busy = some (did, n.m.call.coreId))
    (hne : (d, c) ≠ (did, n.m.call.coreId)) : n.m.busy ≠ some (d, c) := by
  rw [hb]
  intro he
  exact hne (Option.some.inj he).symm

include hok hfit hND in
theorem Ctl.step (hs : n.step cfg = some n') : Ctl cfg a n' := by
  have hinv := h.node_inv hfit hND hs
  have ht := node_track hs
  have htr := h.track.step ht
  have hsh := h.shape.step hok.len_le ht
  cases h.view hok hfit hs with
  | @tau c hb hn =>
    refine ⟨hinv, htr, hsh, h.executed, h.idle, fun k hk => ?_⟩
    have hc : c.coreId = n.m.call.coreId := ht.args.coreId
    show ∃ d < cfg.ND, ∃ cid < QD, c.rid k = ridOf cfg d c.coreId cid ∧
      (n.m.q d c.coreId).qp.doneFlag cid ≤ 1
    rw [hc]
    obtain ⟨-, -, rfl⟩ | ⟨n₀, hpc, -, rfl⟩ | ⟨n₀, i, -, -, rfl⟩ := next_tau hn
    · exact absurd hk (Nat.not_lt_zero k)
    · exact h.marks k (by rw [hpc]; exact hk)
    · exact absurd hk (Nat.not_lt_zero k)
  | @start did lba fs hb =>
    refine ⟨hinv, htr, hsh, h.executed_set (h.own_executed (hinv.busy _ _ rfl).1),
      h.idle_busy _ (fun d c _ => by rw [hb]; exact nofun),
      fun k hk => h.marks_set (fun cid hf => ?_) hk⟩
    exact hf
  | @ask did rid cont hb hn hd =>
    refine ⟨hinv, htr, hsh, h.executed_set (h.own_executed hd),
      h.idle_busy _ (fun d c _ => by rw [hb]; exact nofun),
      fun k hk => h.marks_set (fun cid hf => ?_) hk⟩
    exact hf
  | @poll did r hb =>
    refine ⟨hinv, htr, hsh, h.executed_set (h.own_executed (h.inv.busy _ _ hb).1),
      h.idle_busy _ (fun d c => busy_ne hb), fun k hk => h.marks_set (fun cid hf => ?_) hk⟩
    exact hf
  | @leave did r b hb =>
    refine ⟨hinv, htr, hsh, h.executed_set ?_, h.idle_busy _ (fun d c => busy_ne hb),
      fun k hk => h.marks_set (fun cid hf => ?_) hk⟩
    · simp only [leaveCq_dev]
      exact h.own_executed (h.inv.busy _ _ hb).1
    · simp only [leaveCq_doneFlag]
      exact hf
  | @reap did c b hb hpc hr =>
    refine ⟨hinv, htr, hsh, h.executed_set (h.own_executed (h.inv.busy _ _ hb).1),
      h.idle_busy _ (fun d c => busy_ne hb), fun k hk => h.marks_set (fun cid hf => ?_) hk⟩
    simp only [Queue.reap, QP.reap, Function.update_apply]
    split
    · exact Nat.le_refl 1
    · exact hf
  | @submit did k r q c rid hb hpc hpc' hlt hrid hq hc =>
    have hd := (h.inv.busy _ _ hb).1
    have hflag : (q.complete 0 c (execCmd q.qp (n.disk did) c).1).qp.doneFlag =
        Function.update (n.m.own did).qp.doneFlag (n.m.own did).qp.sqTail 0 := by
      rw [hq]
      exact request_doneFlag _ _ _ _
    refine ⟨hinv, htr, hsh, h.executed_set ?_, fun d hd c hc _ => h.idle_free ?_
      (fun d c => busy_ne hb) d hd c hc, fun i hi => ?_⟩
    · rw [hq]
      show ((n.m.own did).dev.outstanding ++ [_]).eraseIdx 0 = []
      rw [h.own_executed hd]
      rfl
    · rw [hq]
      rfl
    · show ∃ d < cfg.ND, ∃ cid < QD, (n.m.call.after k rid).rid i =
        ridOf cfg d n.m.call.coreId cid ∧
        ((n.m.setOwn did (q.complete 0 c _)).q d n.m.call.coreId).qp.doneFlag cid ≤ 1
      by_cases hik : i = k
      · subst hik
        refine ⟨did, hd, _, (h.own_inv hd).tail, ?_, ?_⟩
        · simp only [IoCall.after, IoCall.issued, Function.update_self]
          exact hrid
        · rw [own_setOwn, if_pos rfl, hflag, Function.update_self]
          exact Nat.zero_le 1
      · have hlt' : i < k := by
          have hi' : i < (n.m.call.after k rid).pc.count := hi
          unfold IoCall.after at hi'
          dsimp only at hi'
          split at hi'
          · exact hi'
          · have : i < k + 1 := hi'
            omega
        have hrid' : (n.m.call.after k rid).rid i = n.m.call.rid i := by
          simp only [IoCall.after, IoCall.issued, Function.update_of_ne hik]
        rw [hrid']
        refine h.marks_set (fun cid hf => ?_) (by rw [hpc']; exact hlt')
        rw [hflag, Function.update_apply]
        split
        · exact Nat.zero_le 1
        · exact hf
  | @checked did q rid cont hn hd hbn hpc hi hdev hre hdf =>
    obtain ⟨k, i, hpc', hk, rfl, rfl⟩ := next_check hn
    have hbusy : ∀ d c, (d, c) ≠ (did, n.m.call.coreId) → n.m.busy ≠ some (d, c) := by
      intro d c hne hb
      obtain ⟨-, rfl, -⟩ := h.inv.busy d c hb
      exact hbn d (fun he => hne (by rw [he])) hb
    refine ⟨hinv, htr, hsh, h.executed_set (by rw [hdev]; exact h.own_executed hd),
      fun d hd c hc _ => h.idle_free hpc hbusy d hd c hc,
      fun i hi => h.marks_set (fun cid hf => by rw [hdf]; exact hf) ?_⟩
    rw [hpc']
    exact hi

end

end Hook

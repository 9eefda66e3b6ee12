import Staut.Nvme.Proof.Queue
import Mathlib.Tactic.Ring

/-!
# Requests and completions

In every run of one I/O queue pair: live commands have distinct ids and `done_flag` is 0 exactly for
these; a request id is decoded by `nvme_check` to the drive, queue and command it was made from; and
a check answers 1 only for a command that has completed, with a read's bytes copied to its caller
(`requests_safe`). The last part needs no assumption on reuse: a slot is taken again only
when its former command has been reaped, so `done_flag[cid] = 1` speaks for every
request that ever had that slot (`QInv.done_reaped`).

A request id is an `int`: the decoding holds as long as the ids of all `ND * N_CORE` queue pairs
fit in one (`ridOf_decode`); beyond that it fails (`rid_overflow`).
-/

set_option autoImplicit false

namespace Nvme

open CSem Run PhaseRing

/-! ## Request ids -/

theorem ridOf_eq {cfg : Cfg} {did coreId cid : Nat} (hfit : cfg.ND * cfg.N_CORE * QD ≤ 2 ^ 31)
    (hd : did < cfg.ND) (hc : coreId < cfg.N_CORE) (hi : cid < QD) :
    ridOf cfg did coreId cid = ((did * cfg.N_CORE + coreId) * QD + cid : Nat) := by
  have h1 : did * cfg.N_CORE + coreId + 1 ≤ cfg.ND * cfg.N_CORE := by
    have := Nat.mul_le_mul_right cfg.N_CORE (Nat.succ_le_of_lt hd)
    rw [Nat.succ_mul] at this
    omega
  have h2 := Nat.mul_le_mul_right QD h1
  rw [Nat.add_mul _ 1, Nat.one_mul] at h2
  have h3 : (did * QD * cfg.N_CORE + coreId * QD + cid : Int) =
      ((did * cfg.N_CORE + coreId) * QD + cid : Nat) := by
    push_cast
    ring
  unfold ridOf
  rw [h3, wrap32_of_range (by omega) (by omega)]

/-- `nvme_check` finds the drive, the queue and the command of a request id. -/
theorem ridOf_decode {cfg : Cfg} {did coreId cid : Nat}
    (hfit : cfg.ND * cfg.N_CORE * QD ≤ 2 ^ 31) (hd : did < cfg.ND) (hc : coreId < cfg.N_CORE)
    (hi : cid < QD) :
    ridDid cfg (ridOf cfg did coreId cid) = did ∧
      ridQid cfg (ridOf cfg did coreId cid) = coreId + 1 ∧
      ridCid (ridOf cfg did coreId cid) = cid := by
  have hdiv : ((did * cfg.N_CORE + coreId) * QD + cid) / QD = did * cfg.N_CORE + coreId := by
    rw [Nat.add_comm, Nat.add_mul_div_right _ _ QD_pos, Nat.div_eq_of_lt hi, Nat.zero_add]
  have hmod : ((did * cfg.N_CORE + coreId) * QD + cid) % QD = cid := by
    rw [Nat.add_comm, Nat.add_mul_mod_self_right, Nat.mod_eq_of_lt hi]
  have hN : 0 < cfg.N_CORE := by omega
  rw [ridOf_eq hfit hd hc hi]
  unfold ridDid ridQid ridCid
  simp only [← Int.ofNat_tdiv, ← Int.ofNat_tmod, hdiv, hmod]
  refine ⟨?_, ?_, trivial⟩
  · rw [Nat.add_comm, Nat.add_mul_div_right _ _ hN, Nat.div_eq_of_lt hc, Nat.zero_add]
  · rw [Nat.add_comm, Nat.add_mul_mod_self_right, Nat.mod_eq_of_lt hc]

/-! ## One step of the running call -/

section
variable (q : Queue) (b : Bool)

@[simp] theorem leaveCq_issued : (q.leaveCq b).issued = q.issued := rfl
@[simp] theorem leaveCq_dev : (q.leaveCq b).dev = q.dev := rfl
@[simp] theorem leaveCq_waiting : (q.leaveCq b).waiting = q.waiting := rfl
@[simp] theorem leaveCq_reaped : (q.leaveCq b).reaped = q.reaped := rfl
@[simp] theorem leaveCq_doneFlag : (q.leaveCq b).qp.doneFlag = q.qp.doneFlag := by
  cases b <;> rfl
@[simp] theorem leaveCq_sqTail : (q.leaveCq b).qp.sqTail = q.qp.sqTail := by
  cases b <;> rfl

end

/-- What `Queue.host` can do. -/
inductive HostStep (cfg : Cfg) (did coreId : Nat) (q : Queue) (mem : Nat → UInt8) :
    Queue → (Nat → UInt8) → Out → Prop
  | poll {r : Req} : q.pc = .newSqe r → q.qp.doneFlag q.qp.sqTail = 0 →
      HostStep cfg did coreId q mem { q with pc := .checkCq (.req r) false } mem .none
  | submit {r : Req} : q.pc = .newSqe r → q.qp.doneFlag q.qp.sqTail ≠ 0 →
      HostStep cfg did coreId q mem (q.submit cfg did coreId mem r) mem
        (.rid (ridOf cfg did coreId q.qp.sqTail))
  | reap {c : Call} {b : Bool} : q.pc = .checkCq c b → q.qp.cqReady = true →
      HostStep cfg did coreId q mem { (q.reap mem).1 with pc := .checkCq c true } (q.reap mem).2
        .none
  | leaveReq {r : Req} {b : Bool} : q.pc = .checkCq (.req r) b → q.qp.cqReady = false →
      HostStep cfg did coreId q mem { q.leaveCq b with pc := .newSqe r } mem .none
  | leaveCheck {rid : Int} {b : Bool} : q.pc = .checkCq (.check rid) b → q.qp.cqReady = false →
      HostStep cfg did coreId q mem { q.leaveCq b with pc := .idle } mem
        (.check rid (q.qp.done (ridCid rid).toNat))

theorem host_step {cfg : Cfg} {did coreId : Nat} {q q' : Queue} {mem mem' : Nat → UInt8} {o : Out}
    (h : q.host cfg did coreId mem = some (q', mem', o)) :
    HostStep cfg did coreId q mem q' mem' o := by
  unfold Queue.host at h
  cases hpc : q.pc with
  | idle =>
    rw [hpc] at h
    cases h
  | newSqe r =>
    rw [hpc] at h
    by_cases hd : q.qp.doneFlag q.qp.sqTail = 0
    · simp only [hd, ↓reduceIte] at h
      cases h
      exact .poll hpc hd
    · simp only [hd, ↓reduceIte] at h
      cases h
      exact .submit hpc hd
  | checkCq c b =>
    rw [hpc] at h
    by_cases hr : q.qp.cqReady = true
    · simp only [hr, ↓reduceIte] at h
      cases h
      exact .reap hpc hr
    · have hr' : q.qp.cqReady = false := by simpa using hr
      simp only [hr, ↓reduceIte, Bool.false_eq_true] at h
      cases c with
      | req r => cases b <;> cases h <;> exact .leaveReq hpc hr'
      | check rid => cases b <;> cases h <;> exact .leaveCheck hpc hr'

/-! ## Every command is live or reaped -/

/-- Request `n` was submitted and its completion has not been reaped. -/
def Queue.Unreaped (q : Queue) (n : Nat) : Prop :=
  n < q.issued.length ∧ n ∉ (q.dev.posted.take q.reaped.length).map (·.cmd.seq)

/-- Request `n` has completed, and its bytes, if it is a read, are with its caller. -/
def Queue.Finished (q : Queue) (n : Nat) (x : Issued) : Prop :=
  ∃ d ∈ q.dev.posted, d.cmd.seq = n ∧
    (x.req.opc = .read → (x.req.buf, d.data.take x.req.len) ∈ q.copies)

section
variable {q : Queue} (h : QInv q)
include h

theorem QInv.seq_nodup :
    (q.dev.outstanding.map Cmd.seq ++ q.dev.posted.map (·.cmd.seq)).Nodup :=
  h.seqs.nodup_iff.2 List.nodup_range

/-- A submitted request's command is live, or among the reaped completions. -/
theorem QInv.live_or_reaped {n : Nat} (hn : n < q.issued.length) :
    (∃ c ∈ q.live, c.seq = n) ∨ ∃ d ∈ q.dev.posted.take q.reaped.length, d.cmd.seq = n := by
  have hm : n ∈ q.dev.outstanding.map Cmd.seq ++ q.dev.posted.map (·.cmd.seq) :=
    h.seqs.mem_iff.2 (List.mem_range.2 hn)
  rcases List.mem_append.1 hm with hm | hm
  · obtain ⟨c, hc, rfl⟩ := List.mem_map.1 hm
    exact .inl ⟨c, List.mem_append_left _ hc, rfl⟩
  · obtain ⟨d, hd, rfl⟩ := List.mem_map.1 hm
    rw [← List.take_append_drop q.reaped.length q.dev.posted, List.mem_append] at hd
    rcases hd with hd | hd
    · exact .inr ⟨d, hd, rfl⟩
    · exact .inl ⟨d.cmd, List.mem_append_right _ (List.mem_map_of_mem hd), rfl⟩

theorem QInv.unreaped_iff {n : Nat} : q.Unreaped n ↔ ∃ c ∈ q.live, c.seq = n := by
  constructor
  · rintro ⟨hn, hr⟩
    refine (h.live_or_reaped hn).resolve_right ?_
    rintro ⟨d, hd, rfl⟩
    exact hr (List.mem_map_of_mem hd)
  · rintro ⟨c, hc, rfl⟩
    obtain ⟨x, hx, -⟩ := h.live_cmd hc
    refine ⟨(List.getElem?_eq_some_iff.1 hx).1, fun hr => ?_⟩
    obtain ⟨d, hd, he⟩ := List.mem_map.1 hr
    -- no request has two commands
    have hnd := h.seq_nodup
    rw [← List.take_append_drop q.reaped.length q.dev.posted, List.map_append] at hnd
    rw [Queue.live, List.mem_append] at hc
    rcases hc with hc | hc
    · exact (List.nodup_append.1 hnd).2.2 _ (List.mem_map_of_mem hc) _
        (List.mem_append_left _ (List.mem_map_of_mem hd)) he.symm
    · obtain ⟨e, hem, rfl⟩ := List.mem_map.1 hc
      exact (List.nodup_append.1 (List.nodup_append.1 hnd).2.1).2.2 _ (List.mem_map_of_mem hd) _
        (List.mem_map_of_mem hem) he

/-- Unreaped requests have distinct command ids. -/
theorem QInv.unreaped_inj {n m : Nat} {x y : Issued} (hn : q.Unreaped n) (hm : q.Unreaped m)
    (hx : q.issued[n]? = some x) (hy : q.issued[m]? = some y) (he : x.cid = y.cid) : n = m := by
  obtain ⟨c, hc, rfl⟩ := h.unreaped_iff.1 hn
  obtain ⟨d, hd, rfl⟩ := h.unreaped_iff.1 hm
  obtain ⟨x', hx', hcx⟩ := h.live_cmd hc
  obtain ⟨y', hy', hdy⟩ := h.live_cmd hd
  obtain rfl := Option.some.inj (hx.symm.trans hx')
  obtain rfl := Option.some.inj (hy.symm.trans hy')
  have hcd : c.sqe.cid = d.sqe.cid := by rw [hcx.cid, hdy.cid, he]
  rw [List.inj_on_of_nodup_map h.nodup hc hd hcd]

theorem QInv.done_iff {c : Nat} (hc : c < QD) :
    q.qp.doneFlag c = 0 ↔ ∃ (n : Nat) (x : Issued), q.Unreaped n ∧ q.issued[n]? = some x ∧
    x.cid = c := by
  rw [h.done c hc]
  constructor
  · intro hm
    obtain ⟨k, hk, rfl⟩ := List.mem_map.1 hm
    obtain ⟨x, hx, hkx⟩ := h.live_cmd hk
    exact ⟨k.seq, x, h.unreaped_iff.2 ⟨k, hk, rfl⟩, hx, hkx.cid.symm⟩
  · rintro ⟨n, x, hn, hx, rfl⟩
    obtain ⟨k, hk, rfl⟩ := h.unreaped_iff.1 hn
    obtain ⟨y, hy, hky⟩ := h.live_cmd hk
    obtain rfl := Option.some.inj (hx.symm.trans hy)
    exact List.mem_map.2 ⟨k, hk, hky.cid⟩

/-- `done_flag[cid] = 1` speaks for every request that had the slot. -/
theorem QInv.done_reaped {n : Nat} {x : Issued} (hx : q.issued[n]? = some x)
    (hdone : q.qp.doneFlag x.cid = 1) : q.Finished n x ∧ ¬ q.Unreaped n := by
  have hdead : ¬ q.Unreaped n := by
    intro hn
    obtain ⟨c, hc, rfl⟩ := h.unreaped_iff.1 hn
    obtain ⟨y, hy, hcy⟩ := h.live_cmd hc
    obtain rfl := Option.some.inj (hx.symm.trans hy)
    have h0 := (h.done_iff hcy.cid_lt).2 ⟨c.seq, x, hn, hx, rfl⟩
    omega
  refine ⟨?_, hdead⟩
  rcases h.live_or_reaped (List.getElem?_eq_some_iff.1 hx).1 with hl | ⟨d, hd, rfl⟩
  · exact absurd (h.unreaped_iff.2 hl) hdead
  · exact ⟨d, List.mem_of_mem_take hd, rfl, h.copied d hd x hx⟩

theorem QInv.setPc (p : Pc) : QInv { q with pc := p } :=
  ⟨h.nSqe, h.nCqe, h.tail, h.sqeCid, h.reaped, h.seqs, h.cmds, h.nodup, h.done, h.head, h.phase,
    h.ring, h.bufs, h.data, h.copied⟩

theorem QInv.leaveCq (b : Bool) : QInv (q.leaveCq b) := by
  cases b with
  | false => exact h
  | true =>
    exact ⟨h.nSqe, h.nCqe, h.tail, h.sqeCid, h.reaped, h.seqs, h.cmds, h.nodup, h.done, h.head,
      h.phase, h.ring, h.bufs, h.data, h.copied⟩

end

/-! ## Steps -/

/-- The request a polling call is about. -/
def Pc.req? : Pc → Option Req
  | .newSqe r | .checkCq (.req r) _ => some r
  | _ => none

/-- The invariant of the transition system. -/
structure SInv (cfg : Cfg) (did coreId : Nat) (q : Queue) : Prop where
  inv : QInv q
  fits : ∀ r, q.pc.req? = some r → r.Fits
  rids : ∀ x ∈ q.issued, x.cid < QD ∧ x.rid = ridOf cfg did coreId x.cid

section
variable {cfg : Cfg} {did coreId : Nat}

theorem SInv.new {qid : Nat} (hq : qid ≠ 0) (m : QP) : SInv cfg did coreId (Queue.new qid m) :=
  ⟨.new hq m, (fun r hr => by cases hr), (fun x hx => by cases hx)⟩

/-- One step of the running call. -/
theorem SInv.host {q q' : Queue} {mem mem' : Nat → UInt8} {o : Out}
    (h : SInv cfg did coreId q) (hs : q.host cfg did coreId mem = some (q', mem', o)) :
    SInv cfg did coreId q' ∧
      ∀ rid, o = .check rid true → q'.qp.doneFlag (ridCid rid).toNat = 1 := by
  cases host_step hs with
  | @poll r hpc _ =>
    refine ⟨⟨h.inv.setPc _, fun r' hr' => h.fits r' ?_, h.rids⟩, fun rid hrid => by cases hrid⟩
    rw [hpc]
    exact hr'
  | @submit r hpc hfree =>
    have hr : r.Fits := h.fits r (by rw [hpc]; rfl)
    refine ⟨⟨h.inv.submit cfg did coreId _ hr hfree, (fun r' hr' => by cases hr'), ?_⟩,
      fun rid hrid => by cases hrid⟩
    intro x hx
    rcases List.mem_append.1 hx with hx | hx
    · exact h.rids x hx
    · obtain rfl := List.mem_singleton.1 hx
      exact ⟨h.inv.tail, by dsimp only⟩
  | @reap c b hpc hready =>
    refine ⟨⟨(h.inv.reap mem (h.inv.cqReady_iff.1 hready)).setPc _, fun r hr => h.fits r ?_,
      h.rids⟩, fun rid hrid => by cases hrid⟩
    rw [hpc]
    cases c <;> exact hr
  | @leaveReq r b hpc _ =>
    refine ⟨⟨(h.inv.leaveCq b).setPc _, fun r' hr' => h.fits r' ?_, ?_⟩,
      fun rid hrid => by cases hrid⟩
    · rw [hpc]
      exact hr'
    · show ∀ x ∈ (q.leaveCq b).issued, _
      rw [leaveCq_issued]
      exact h.rids
  | @leaveCheck rid b hpc _ =>
    refine ⟨⟨(h.inv.leaveCq b).setPc _, (fun r hr => by cases hr), ?_⟩, fun rid' hrid => ?_⟩
    · show ∀ x ∈ (q.leaveCq b).issued, _
      rw [leaveCq_issued]
      exact h.rids
    · simp only [Out.check.injEq] at hrid
      obtain ⟨rfl, hdone⟩ := hrid
      show (q.leaveCq b).qp.doneFlag _ = 1
      rw [leaveCq_doneFlag]
      simpa [QP.done] using hdone

theorem SInv.callCheck {q : Queue} (h : SInv cfg did coreId q) (rid : Int) :
    SInv cfg did coreId (q.callCheck rid).1 ∧
      ∀ rid', (q.callCheck rid).2 = .check rid' true →
        (q.callCheck rid).1.qp.doneFlag (ridCid rid').toNat = 1 := by
  unfold Queue.callCheck
  split
  · rename_i hdone
    refine ⟨h, fun rid' hrid => ?_⟩
    simp only [Out.check.injEq, and_true] at hrid
    subst hrid
    simpa [QP.done] using hdone
  · exact ⟨⟨h.inv.setPc _, (fun r hr => by cases hr), h.rids⟩, fun rid' hrid => by cases hrid⟩

theorem SInv.complete {q : Queue} (h : SInv cfg did coreId q) {i : Nat} {c : Cmd}
    {data : List UInt8} (hc : q.dev.outstanding[i]? = some c)
    (hd : c.sqe.opc = .read → data.length = 512 * (c.sqe.cdw12 + 1)) :
    SInv cfg did coreId (q.complete i c data) :=
  ⟨h.inv.complete hc hd, h.fits, h.rids⟩

/-- What one step of the transition system keeps and what a check's answer 1 means. -/
theorem SInv.step {s s' : Queue × (Nat → UInt8)} {a : Act} {o : Out}
    (h : SInv cfg did coreId s.1) (hs : (queue cfg did coreId).step s (a, o) s') :
    SInv cfg did coreId s'.1 ∧
      ∀ rid, o = .check rid true → s'.1.qp.doneFlag (ridCid rid).toNat = 1 := by
  cases a with
  | request r =>
    obtain ⟨-, hr, -, rfl, rfl⟩ := hs
    refine ⟨⟨h.inv.setPc _, fun r' hr' => ?_, h.rids⟩, fun rid hrid => by cases hrid⟩
    cases hr'
    exact hr
  | check rid =>
    obtain ⟨-, -, -, -, rfl, rfl⟩ := hs
    exact h.callCheck rid
  | host => exact h.host hs
  | complete i data =>
    obtain ⟨c, hc, hd, rfl, rfl⟩ := hs
    exact ⟨h.complete hc hd, fun rid hrid => by cases hrid⟩
  | app mem =>
    obtain ⟨rfl, rfl⟩ := hs
    exact ⟨h, fun rid hrid => by cases hrid⟩

/-- The history only grows: requests keep their numbers, and what was reaped stays reaped. -/
structure Grows (q q' : Queue) : Prop where
  issued : ∀ (n : Nat) (x : Issued), q.issued[n]? = some x → q'.issued[n]? = some x
  reaped : ∀ n ∈ (q.dev.posted.take q.reaped.length).map (·.cmd.seq),
    n ∈ (q'.dev.posted.take q'.reaped.length).map (·.cmd.seq)

theorem Grows.of_eq {q q' : Queue} (h1 : q'.issued = q.issued) (h2 : q'.dev = q.dev)
    (h3 : q'.reaped = q.reaped) : Grows q q' := by
  refine ⟨fun n x hx => by rw [h1]; exact hx, fun n hn => ?_⟩
  rw [h2, h3]
  exact hn

theorem Grows.not_unreaped {q q' : Queue} (h : Grows q q') {n : Nat} (hn : n < q.issued.length)
    (hu : ¬ q.Unreaped n) : ¬ q'.Unreaped n := fun hu' =>
  hu ⟨hn, fun hr => hu'.2 (h.reaped n hr)⟩

theorem grows_complete (q : Queue) (i : Nat) (c : Cmd) (data : List UInt8) :
    Grows q (q.complete i c data) := by
  refine ⟨fun _ _ hx => hx, fun n hn => ?_⟩
  obtain ⟨d, hd, rfl⟩ := List.mem_map.1 hn
  exact List.mem_map_of_mem ((List.prefix_append _ _).take _ |>.subset hd)

theorem grows_host {q q' : Queue} {mem mem' : Nat → UInt8} {o : Out}
    (hs : HostStep cfg did coreId q mem q' mem' o) : Grows q q' := by
  cases hs with
  | poll => exact .of_eq rfl rfl rfl
  | submit =>
    refine ⟨fun n x hx => ?_, fun n hn => hn⟩
    exact (List.getElem?_append_left (List.getElem?_eq_some_iff.1 hx).1).trans hx
  | reap =>
    refine ⟨fun _ _ hx => hx, fun n hn => ?_⟩
    obtain ⟨d, hd, rfl⟩ := List.mem_map.1 hn
    refine List.mem_map_of_mem ?_
    show d ∈ q.dev.posted.take (q.reaped ++ [_]).length
    exact (List.take_prefix_take_left (by simp)).subset hd
  | leaveReq => exact .of_eq rfl rfl rfl
  | leaveCheck =>
    exact .of_eq rfl rfl rfl

theorem grows_callCheck (q : Queue) (rid : Int) : Grows q (q.callCheck rid).1 := by
  unfold Queue.callCheck
  split <;> exact .of_eq rfl rfl rfl

theorem grows_step {s s' : Queue × (Nat → UInt8)} {a : Act × Out}
    (hs : (queue cfg did coreId).step s a s') : Grows s.1 s'.1 := by
  obtain ⟨a, o⟩ := a
  cases a with
  | request r =>
    obtain ⟨-, -, -, -, rfl⟩ := hs
    exact .of_eq rfl rfl rfl
  | check rid =>
    obtain ⟨-, -, -, -, rfl, -⟩ := hs
    exact grows_callCheck _ _
  | host => exact grows_host (host_step hs)
  | complete i data =>
    obtain ⟨c, -, -, -, rfl⟩ := hs
    exact grows_complete _ _ _ _
  | app mem =>
    obtain ⟨-, rfl⟩ := hs
    exact .of_eq rfl rfl rfl

/-- Only a new queue pair has flags other than 0 and 1. -/
theorem doneFlag_host {q q' : Queue} {mem mem' : Nat → UInt8} {o : Out}
    (hs : HostStep cfg did coreId q mem q' mem' o) {cid : Nat} (h : q.qp.doneFlag cid ≤ 1) :
    q'.qp.doneFlag cid ≤ 1 := by
  cases hs with
  | poll => exact h
  | submit =>
    simp only [Queue.submit, request_doneFlag, Function.update_apply]
    split
    · exact Nat.zero_le 1
    · exact h
  | reap =>
    simp only [Queue.reap, QP.reap, Function.update_apply]
    split
    · exact Nat.le_refl 1
    · exact h
  | leaveReq =>
    dsimp only
    rw [leaveCq_doneFlag]
    exact h
  | leaveCheck =>
    dsimp only
    rw [leaveCq_doneFlag]
    exact h

theorem sinv_of_reach {s : Queue × (Nat → UInt8)} (h : (queue cfg did coreId).Reach s) :
    SInv cfg did coreId s.1 := by
  refine LTS.ReachIf.induct (P := fun s => SInv cfg did coreId s.1) ?_ ?_ h
  · rintro s ⟨m, hm⟩
    rw [hm]
    exact .new (Nat.succ_ne_zero _) m
  · rintro s ⟨a, o⟩ s' hi - hs
    exact (hi.step hs).1

/-- **NVMe request and completion safety**, in every state of every run of a queue pair. What the
ids say and what `nvme_check` finds with them needs that they fit an `int`. -/
theorem requests_safe {s : Queue × (Nat → UInt8)} (h : (queue cfg did coreId).Reach s) :
    ((∀ (n m : Nat) (x y : Issued), s.1.Unreaped n → s.1.Unreaped m → s.1.issued[n]? = some x →
        s.1.issued[m]? = some y → x.cid = y.cid → n = m) ∧
      ∀ c < QD, s.1.qp.doneFlag c = 0 ↔
        ∃ (n : Nat) (x : Issued), s.1.Unreaped n ∧ s.1.issued[n]? = some x ∧ x.cid = c) ∧
    (cfg.ND * cfg.N_CORE * QD ≤ 2 ^ 31 → did < cfg.ND → coreId < cfg.N_CORE →
      (∀ (n : Nat) (x : Issued), s.1.issued[n]? = some x →
        ridDid cfg x.rid = did ∧ ridQid cfg x.rid = coreId + 1 ∧ ridCid x.rid = x.cid) ∧
      ∀ a rid s', (queue cfg did coreId).step s (a, .check rid true) s' →
        ∀ (n : Nat) (x : Issued), s'.1.issued[n]? = some x → x.rid = rid → s'.1.Finished n x) := by
  have hi := sinv_of_reach h
  refine ⟨⟨fun n m x y hn hm hx hy => hi.inv.unreaped_inj hn hm hx hy,
    fun c hlt => hi.inv.done_iff hlt⟩, fun hfit hd hc =>
      ⟨fun n x hx => ?_, fun a rid s' hs n x hx hrid => ?_⟩⟩
  · obtain ⟨hlt, hr⟩ := hi.rids x (List.mem_of_getElem? hx)
    rw [hr]
    exact ridOf_decode hfit hd hc hlt
  · obtain ⟨hi', hdone⟩ := hi.step hs
    obtain ⟨hlt, hr⟩ := hi'.rids x (List.mem_of_getElem? hx)
    have hcid : (ridCid rid).toNat = x.cid := by
      rw [← hrid, hr, (ridOf_decode hfit hd hc hlt).2.2]
      rfl
    refine (hi'.inv.done_reaped hx ?_).1
    rw [← hcid]
    exact hdone rid rfl

end

/-- A fresh queue pair takes a request in two steps. -/
theorem reach_submit (cfg : Cfg) (did coreId : Nat) (m : QP) (mem : Nat → UInt8) {r : Req}
    (hr : r.Fits) (hd : driveOf cfg r.lba = did) :
    (queue cfg did coreId).Reach ((Queue.new (coreId + 1) m).submit cfg did coreId mem r, mem) := by
  have h0 : (queue cfg did coreId).Reach (Queue.new (coreId + 1) m, mem) := .init ⟨m, rfl⟩
  have h1 : (queue cfg did coreId).Reach ({ Queue.new (coreId + 1) m with pc := .newSqe r }, mem) :=
    .step (a := (.request r, .none)) h0 trivial ⟨rfl, hr, hd, rfl, rfl⟩
  exact .step (a := (.host, .rid (ridOf cfg did coreId 0))) h1 trivial rfl

/-- The request of `reach_submit`, with the first command id. -/
theorem issued_submit (cfg : Cfg) (did coreId qid : Nat) (m : QP) (mem : Nat → UInt8) (r : Req) :
    ((Queue.new qid m).submit cfg did coreId mem r).issued = [⟨r, 0, ridOf cfg did coreId 0⟩] := by
  simp only [Queue.submit, Queue.new, QP.new, List.nil_append]

/-- With 4096 drives and 1024 queues per drive the id of the first command on drive 2048 is not
an `int`: `nvme_check` would look for it on drive -2048. -/
theorem rid_overflow : ∃ s, (queue ⟨1024, 4096, 1, 1⟩ 2048 0).Reach s ∧
    ∃ x ∈ s.1.issued, ridDid ⟨1024, 4096, 1, 1⟩ x.rid = -2048 := by
  have hr : (⟨.read, 16384, 8, 4096, 0⟩ : Req).Fits := ⟨.inl rfl, by decide, by decide, by decide⟩
  refine ⟨_, reach_submit ⟨1024, 4096, 1, 1⟩ 2048 0 default (fun _ => 0) hr (by decide), ?_⟩
  rw [issued_submit]
  refine ⟨_, List.mem_cons_self, ?_⟩
  simp only [ridDid, ridOf, QD_eq]
  decide

section
variable {cfg : Cfg} {did coreId : Nat} {q : Queue} {mem : Nat → UInt8} {b : Bool}

theorem host_reap {c : Call} (hpc : q.pc = .checkCq c b) (hr : q.qp.cqReady = true) :
    q.host cfg did coreId mem =
      some ({ (q.reap mem).1 with pc := .checkCq c true }, (q.reap mem).2, .none) := by
  unfold Queue.host
  simp only [hpc, hr, ↓reduceIte]

theorem host_left {rid : Int} (hpc : q.pc = .checkCq (.check rid) b) (hr : q.qp.cqReady = false) :
    q.host cfg did coreId mem = some ({ q.leaveCq b with pc := .idle }, mem,
      .check rid (q.qp.done (ridCid rid).toNat)) := by
  unfold Queue.host
  cases b <;> simp only [hpc, hr, Bool.false_eq_true, ↓reduceIte] <;> rfl

theorem host_checked {rid : Int} (hpc : q.pc = .checkCq (.check rid) b)
    (hr : q.qp.cqReady = false) : ∃ q',
      q.host cfg did coreId mem = some (q', mem, .check rid (q.qp.done (ridCid rid).toNat)) ∧
        q'.issued = q.issued :=
  ⟨_, host_left hpc hr, leaveCq_issued q b⟩

end

/-- The first request of a queue pair, completed: `check_cq` reaps it and nothing else. -/
theorem first_reaped (cfg : Cfg) (m : QP) (mem mem' : Nat → UInt8) {r : Req} (hr : r.Fits)
    {data : List UInt8} (hlen : data.length = 512 * r.numBlk) {rid : Int} {q1 q3 : Queue}
    (h1 : q1 = (Queue.new 1 m).submit cfg 0 0 mem r)
    (h3 : q3 = { q1.complete 0 ⟨0, q1.qp.sqe 0⟩ data with pc := .checkCq (.check rid) false }) :
    q3.qp.cqReady = true ∧ (q3.reap mem').1.qp.cqReady = false ∧
      (q3.reap mem').1.qp.doneFlag 0 = 1 := by
  have hcdw : (q1.qp.sqe 0).cdw12 + 1 = r.numBlk := by
    have := hr.pos
    simp only [h1, Queue.submit, Queue.new, QP.new, request_sqe, Function.update_self]
    omega
  have hi1 : QInv q1 := by
    rw [h1]
    exact (QInv.new Nat.one_ne_zero m).submit cfg 0 0 mem hr (by simp [Queue.new, QP.new])
  have hi3 : QInv q3 := by
    rw [h3]
    refine QInv.setPc (hi1.complete ?_ fun _ => ?_) _
    · rw [h1]
      rfl
    · rw [hcdw]
      exact hlen
  have hp : q3.dev.posted = [⟨⟨0, q1.qp.sqe 0⟩, data⟩] := by
    rw [h3, h1]
    rfl
  have hre : q3.reaped = [] := by
    rw [h3, h1]
    rfl
  have hready : q3.reaped.length < q3.dev.posted.length := by
    rw [hp, hre]
    exact Nat.one_pos
  have hi4 : QInv (q3.reap mem').1 := hi3.reap mem' hready
  refine ⟨hi3.cqReady_iff.2 hready, ?_, ?_⟩
  · rw [← Bool.not_eq_true, hi4.cqReady_iff]
    show ¬ (q3.reaped ++ [_]).length < q3.dev.posted.length
    rw [hp, hre]
    exact Nat.lt_irrefl 1
  · -- the only completion is of command 0
    have hhead : q3.qp.cqHead = 0 := by rw [hi3.head, hre]; exact Nat.zero_mod _
    have hcid : (q3.qp.cqe 0).cid = 0 := by
      have he := (hi3.ring.entry 0 (q1.qp.sqe 0).cid (by rw [hp]; rfl) (by
        rw [hp]
        exact Nat.le_trans QD_pos (Nat.le_add_left _ _))).1
      rw [Nat.zero_mod] at he
      rw [he]
      exact hi1.sqeCid 0 QD_pos
    show Function.update _ (q3.qp.cqe q3.qp.cqHead).cid 1 0 = 1
    rw [hhead, hcid, Function.update_self]

/-- The first read of a queue pair has been reaped by its check, which is about to return. -/
structure FirstReaped (cfg : Cfg) (r : Req) (s : Queue × (Nat → UInt8)) : Prop where
  reach : (queue cfg 0 0).Reach s
  pc : s.1.pc = .checkCq (.check 0) true
  empty : s.1.qp.cqReady = false
  flag : s.1.qp.doneFlag 0 = 1
  issued : s.1.issued = [⟨r, 0, 0⟩]
  outstanding : s.1.dev.outstanding = []
  tail : s.1.qp.sqTail = 1 % QD

theorem ridOf_zero (cfg : Cfg) : ridOf cfg 0 0 0 = 0 := by
  simp [ridOf, wrap32]

theorem reach_first_reaped {cfg : Cfg} {r : Req} (hr : r.Fits)
    (hd : driveOf cfg r.lba = (0 : Nat)) :
    ∃ s, FirstReaped cfg r s := by
  let T := queue cfg 0 0
  let mem : Nat → UInt8 := fun _ => 0
  let data : List UInt8 := List.replicate (512 * r.numBlk) 7
  let q1 := (Queue.new 1 default).submit cfg 0 0 mem r
  have h1 : T.Reach (q1, mem) := reach_submit _ 0 0 default mem hr hd
  let c : Cmd := ⟨0, q1.qp.sqe 0⟩
  have hcdw : c.sqe.cdw12 + 1 = r.numBlk := by
    have := hr.pos
    simp only [c, q1, Queue.submit, Queue.new, QP.new, request_sqe, Function.update_self]
    omega
  let q2 := q1.complete 0 c data
  have h2 : T.Reach (q2, mem) := .step (a := (.complete 0 data, .none)) h1 trivial
    ⟨c, rfl, fun _ => by rw [List.length_replicate, hcdw], rfl, rfl⟩
  let q3 : Queue := { q2 with pc := .checkCq (.check 0) false }
  have hcall : q2.callCheck 0 = (q3, .none) := by
    have hflag : q2.qp.doneFlag 0 = 0 := by
      show (QP.request cfg _ mem r).doneFlag 0 = 0
      rw [request_doneFlag]
      exact Function.update_self ..
    unfold Queue.callCheck
    simp [QP.done, ridCid, hflag, q3]
  have h3 : T.Reach (q3, mem) := .step (a := (.check 0, .none)) h2 trivial
    ⟨rfl, by decide, by simp [ridDid], by simp [ridQid], by rw [hcall], by rw [hcall]⟩
  obtain ⟨hready, hempty, hdone⟩ : q3.qp.cqReady = true ∧ (q3.reap mem).1.qp.cqReady = false ∧
      (q3.reap mem).1.qp.doneFlag 0 = 1 :=
    first_reaped cfg default mem mem hr (List.length_replicate ..) rfl rfl
  refine ⟨({ (q3.reap mem).1 with pc := .checkCq (.check 0) true }, (q3.reap mem).2),
    .step (a := (.host, .none)) h3 trivial (host_reap rfl hready), rfl, hempty, hdone, ?_, rfl, ?_⟩
  · show ((Queue.new 1 default).submit cfg 0 0 mem r).issued = _
    rw [issued_submit, ridOf_zero]
  · show (QP.request cfg (QP.new 1 default) mem r).sqTail = _
    rw [request_sqTail]
    rfl

/-- One read on one drive, from the request to the answer 1 of its check. -/
theorem requests_safe_read : ∃ s s', (queue ⟨1, 1, 1, 1⟩ 0 0).Reach s ∧
    (queue ⟨1, 1, 1, 1⟩ 0 0).step s (.host, .check 0 true) s' ∧
    s'.1.Finished 0 ⟨⟨.read, 0, 1, 4, 100⟩, 0, 0⟩ := by
  have hr : (⟨.read, 0, 1, 4, 100⟩ : Req).Fits := ⟨.inl rfl, by decide, by decide, by decide⟩
  have hdrive : driveOf ⟨1, 1, 1, 1⟩ (⟨.read, 0, 1, 4, 100⟩ : Req).lba = (0 : Nat) := by decide
  obtain ⟨s, h⟩ := reach_first_reaped hr hdrive
  have hrid : s.1.qp.done (ridCid 0).toNat = true := by simp [QP.done, ridCid, h.flag]
  obtain ⟨q', hq, hiss⟩ : ∃ q', s.1.host ⟨1, 1, 1, 1⟩ 0 0 s.2 =
      some (q', s.2, .check 0 (s.1.qp.done (ridCid 0).toNat)) ∧ q'.issued = s.1.issued :=
    host_checked h.pc h.empty
  rw [hrid] at hq
  have hs : (queue ⟨1, 1, 1, 1⟩ 0 0).step s (.host, .check 0 true) (q', s.2) := hq
  obtain ⟨-, hchecked⟩ := (requests_safe h.reach).2 (by simp [QD_eq]) (by decide) (by decide)
  refine ⟨s, (q', s.2), h.reach, hs, hchecked _ _ _ hs 0 _ ?_ rfl⟩
  rw [hiss, h.issued]
  rfl

end Nvme

import Staut.Backup.Defs
import Staut.Hook.Proof.Store

/-!
# A program on its queue pairs

`Running`: what holds of the queue pairs of a program whose requests fit a bounce buffer, in all its
states. `View` is what a step can do: to the program, to the history of one queue pair and to the
bytes. A step that changes none of these is `quiet`.
-/

set_option autoImplicit false

namespace Backup

open CSem Run Myfs Nvme

/-! ## Queue pairs -/

/-- The same history and the same bytes. -/
structure Quiet (q q' : Queue) : Prop where
  issued : q'.issued = q.issued
  dev : q'.dev = q.dev
  reaped : q'.reaped = q.reaped
  buf4k : q'.qp.buf4k = q.qp.buf4k

theorem Quiet.waiting {q q' : Queue} (h : Quiet q q') : q'.waiting = q.waiting := by
  unfold Queue.waiting
  rw [h.dev, h.reaped]

theorem Quiet.live {q q' : Queue} (h : Quiet q q') : q'.live = q.live := by
  unfold Queue.live
  rw [h.waiting, h.dev]

theorem quiet_setPc (q : Queue) (p : Nvme.Pc) : Quiet q { q with pc := p } := ⟨rfl, rfl, rfl, rfl⟩

theorem quiet_leaveCq (q : Queue) (b : Bool) (p : Nvme.Pc) :
    Quiet q { q.leaveCq b with pc := p } := by
  cases b <;> exact ⟨rfl, rfl, rfl, rfl⟩

/-- A queue pair of core 0; the flags of the slots in use are 0 or 1. -/
structure Served (cfg : Cfg) (did : Nat) (q : Queue) : Prop extends SInv cfg did 0 q where
  marks : ∀ x ∈ q.issued, q.qp.doneFlag x.cid ≤ 1

theorem Served.new (cfg : Cfg) (did : Nat) (m : QP) : Served cfg did (Queue.new 1 m) :=
  ⟨SInv.new Nat.one_ne_zero m, nofun⟩

theorem Served.host {cfg : Cfg} {did : Nat} {q q' : Queue} {mem mem' : Nat → UInt8} {o : Out}
    (h : Served cfg did q) (hh : q.host cfg did 0 mem = some (q', mem', o)) :
    Served cfg did q' := by
  refine ⟨(h.toSInv.host hh).1, fun x hx => ?_⟩
  have hs := host_step hh
  have hflag : ∀ cid, q.qp.doneFlag cid ≤ 1 → q'.qp.doneFlag cid ≤ 1 := fun _ => doneFlag_host hs
  cases hs with
  | poll => exact h.marks x hx
  | submit =>
    rcases List.mem_append.1 hx with hx | hx
    · exact hflag _ (h.marks x hx)
    · rw [List.mem_singleton.1 hx]
      simp [Queue.submit]
  | reap => exact hflag _ (h.marks x hx)
  | leaveReq => exact hflag _ (h.marks x hx)
  | leaveCheck => exact hflag _ (h.marks x hx)

theorem Served.callCheck {cfg : Cfg} {did : Nat} {q : Queue} (h : Served cfg did q) (rid : Int) :
    Served cfg did (q.callCheck rid).1 := by
  refine ⟨(h.toSInv.callCheck rid).1, ?_⟩
  unfold Queue.callCheck
  split <;> exact h.marks

/-! ## Steps -/

@[simp] theorem setQueue_q (s : Client) (did : Nat) (q : Queue) (d : Nat) :
    (s.setQueue did q).q d = if d = did then q else s.q d := Function.update_apply _ _ _ _

section
variable (cfg : Cfg) (next : Tool → Eff)

/-- What runs on the queue pair of `did`, which the program waits for. -/
def Doing (t : Tool) (did : Nat) : Nvme.Pc → Prop
  | .newSqe r | .checkCq (.req r) _ => (∃ k, next t = .req r k) ∧ did = (driveOf cfg r.lba).toNat
  | .checkCq (.check rid) _ => (∃ k, next t = .check rid k) ∧ did = (ridDid cfg rid).toNat
  | .idle => False

structure Running (s : Client) : Prop where
  queues : ∀ did < cfg.ND, Served cfg did (s.q did)
  idle : ∀ did < cfg.ND, s.busy ≠ some did → (s.q did).pc = .idle
  busy : ∀ did, s.busy = some did → did < cfg.ND ∧ Doing cfg next s.tool did (s.q did).pc

/-- What a step can do. -/
inductive View (s : Client) : Client → Prop
  | act {f : (Nat → UInt8) → Option (Tool × (Nat → UInt8))} {t : Tool} {mem : Nat → UInt8} :
      s.busy = none → next s.tool = .act f → f s.mem = some (t, mem) →
      View s { s with tool := t, mem := mem, busy := none }
  | quiet {did : Nat} {q : Queue} : did < cfg.ND → Quiet (s.q did) q →
      View s { s.setQueue did q with busy := some did }
  | reap {did : Nat} {p : Nvme.Pc} : did < cfg.ND → (s.q did).qp.cqReady = true →
      View s { s.setQueue did { ((s.q did).reap s.mem).1 with pc := p } with
        mem := ((s.q did).reap s.mem).2, busy := some did }
  | submit {did : Nat} {r : Req} {k : Int → Tool} : did < cfg.ND → next s.tool = .req r k →
      did = (driveOf cfg r.lba).toNat → (s.q did).qp.doneFlag (s.q did).qp.sqTail ≠ 0 →
      View s { s.setQueue did ((s.q did).submit cfg did 0 s.mem r) with
        tool := k (ridOf cfg did 0 (s.q did).qp.sqTail), busy := none }
  | checked {did : Nat} {rid : Int} {k : Bool → Tool} {b : Bool} {q : Queue} : did < cfg.ND →
      next s.tool = .check rid k → did = (ridDid cfg rid).toNat → Quiet (s.q did) q →
      b = (s.q did).qp.done (ridCid rid).toNat →
      View s { s.setQueue did q with tool := k b, busy := none }
  | exec {did k : Nat} {c : Cmd} : did < cfg.ND → (s.q did).dev.outstanding[k]? = some c →
      View s { s.setQueue did
          ((s.q did).complete k c (Hook.execCmd (s.q did).qp (s.disk did) c).1) with
        disk := Function.update s.disk did (Hook.execCmd (s.q did).qp (s.disk did) c).2 }

end

section
variable {cfg : Cfg} {next : Tool → Eff} {s s' : Client} (h : Running cfg next s)
include h

/-- The request or check goes on. -/
theorem Running.goOn {did : Nat} {q : Queue} (mem : Nat → UInt8) (hd : did < cfg.ND)
    (hb : ∀ d, s.busy = some d → d = did) (hq : Served cfg did q)
    (hp : Doing cfg next s.tool did q.pc) :
    Running cfg next { s.setQueue did q with mem := mem, busy := some did } := by
  refine ⟨fun d hlt => ?_, fun d hlt hne => ?_, fun d he => ?_⟩
  · dsimp only
    rw [setQueue_q]
    split
    · rename_i he
      rw [he]
      exact hq
    · exact h.queues d hlt
  · dsimp only at hne ⊢
    rw [setQueue_q, if_neg fun he => hne (by rw [he])]
    exact h.idle d hlt fun he => hne (by rw [hb d he])
  · cases he
    dsimp only
    rw [setQueue_q, if_pos rfl]
    exact ⟨hd, hp⟩

/-- It returns. -/
theorem Running.returned {did : Nat} {q : Queue} (t : Tool) (hb : ∀ d, s.busy = some d → d = did)
    (hq : Served cfg did q) (hp : q.pc = .idle) :
    Running cfg next { s.setQueue did q with tool := t, busy := none } := by
  refine ⟨fun d hlt => ?_, fun d hlt _ => ?_, nofun⟩
  · dsimp only
    rw [setQueue_q]
    split
    · rename_i he
      rw [he]
      exact hq
    · exact h.queues d hlt
  · dsimp only
    rw [setQueue_q]
    split
    · exact hp
    · rename_i hne
      exact h.idle d hlt fun he => hne (hb d he)

theorem Running.host {did : Nat} {q : Queue} {mem : Nat → UInt8} {o : Out} (hb : s.busy = some did)
    (hh : (s.q did).host cfg did 0 s.mem = some (q, mem, o)) :
    View cfg next s (s.answer next did q mem o) ∧ Running cfg next (s.answer next did q mem o) := by
  obtain ⟨hd, hdo⟩ := h.busy did hb
  have hq := (h.queues did hd).host hh
  have hbusy : ∀ d, s.busy = some d → d = did := fun d he => by
    rw [hb] at he
    exact (Option.some.inj he).symm
  cases host_step hh with
  | poll hpc =>
    rw [hpc] at hdo
    exact ⟨.quiet hd (quiet_setPc _ _), h.goOn _ hd hbusy hq hdo⟩
  | @reap c _ hpc hready =>
    rw [hpc] at hdo
    refine ⟨.reap hd hready, h.goOn _ hd hbusy hq ?_⟩
    cases c <;> exact hdo
  | leaveReq hpc =>
    rw [hpc] at hdo
    exact ⟨.quiet hd (quiet_leaveCq _ _ _), h.goOn _ hd hbusy hq hdo⟩
  | leaveCheck hpc =>
    rw [hpc] at hdo
    obtain ⟨⟨k, hn⟩, hdid⟩ := hdo
    unfold Client.answer
    rw [hn]
    exact ⟨.checked hd hn hdid (quiet_leaveCq _ _ _) rfl, h.returned _ hbusy hq rfl⟩
  | submit hpc hfree =>
    rw [hpc] at hdo
    obtain ⟨⟨k, hn⟩, hdid⟩ := hdo
    unfold Client.answer
    rw [hn]
    exact ⟨.submit hd hn hdid hfree, h.returned _ hbusy hq rfl⟩

/-- The program is between two calls. -/
theorem Running.cpu (hND : 0 < cfg.ND) (hfits : ∀ r k, next s.tool = .req r k → r.Fits)
    (hs : s.cpu cfg next = some s') : View cfg next s s' ∧ Running cfg next s' := by
  unfold Client.cpu at hs
  cases hb : s.busy with
  | some did =>
    rw [hb] at hs
    obtain ⟨⟨q, mem, o⟩, hh, rfl⟩ := Option.map_eq_some_iff.1 hs
    exact h.host hb hh
  | none =>
    rw [hb] at hs
    have hbusy : ∀ did d, s.busy = some d → d = did := fun did d he => by
      rw [hb] at he
      cases he
    dsimp only at hs
    cases hn : next s.tool with
    | act f =>
      rw [hn] at hs
      obtain ⟨⟨t, mem⟩, hf, rfl⟩ := Option.map_eq_some_iff.1 hs
      refine ⟨.act hb hn hf, h.queues, fun d hd _ => h.idle d hd ?_, nofun⟩
      rw [hb]
      exact nofun
    | req r k =>
      rw [hn] at hs
      dsimp only at hs
      have hd := Hook.driveOf_lt hND r.lba
      have hq := h.queues _ hd
      split at hs
      · cases hs
        exact ⟨.quiet hd (quiet_setPc _ _), h.goOn s.mem hd (hbusy _)
          ⟨⟨hq.inv.setPc _, fun r' hr' => by cases hr'; exact hfits r k hn, hq.rids⟩, hq.marks⟩
          ⟨⟨k, hn⟩, rfl⟩⟩
      · cases hs
    | check rid k =>
      rw [hn] at hs
      dsimp only at hs
      split at hs
      · rename_i hr
        have hd : (ridDid cfg rid).toNat < cfg.ND := by omega
        have hq := (h.queues _ hd).callCheck rid
        split at hs
        · rename_i hpc
          cases hs
          unfold Queue.callCheck at hq ⊢
          split at hq
          · rename_i hdone
            rw [if_pos hdone]
            unfold Client.answer
            rw [hn]
            exact ⟨.checked hd hn rfl ⟨rfl, rfl, rfl, rfl⟩ hdone.symm,
              h.returned _ (hbusy _) hq hpc⟩
          · rename_i hdone
            rw [if_neg hdone]
            exact ⟨.quiet hd (quiet_setPc _ _), h.goOn s.mem hd (hbusy _) hq ⟨⟨k, hn⟩, rfl⟩⟩
        · cases hs
      · cases hs
    | ret =>
      rw [hn] at hs
      cases hs

theorem Running.exec {did k : Nat} (hd : did < cfg.ND) (hs : s.exec did k = some s') :
    View cfg next s s' ∧ Running cfg next s' := by
  obtain ⟨c, hc, rfl⟩ := Option.map_eq_some_iff.1 hs
  refine ⟨.exec hd hc, fun d hlt => ?_, fun d hlt hne => ?_, fun d hb => ?_⟩
  · dsimp only
    rw [setQueue_q]
    split
    · rename_i he
      have hq := h.queues did hd
      rw [he]
      refine ⟨hq.toSInv.complete hc fun hr => ?_, hq.marks⟩
      simp only [Hook.execCmd, hr, length_load]
    · exact h.queues d hlt
  · dsimp only
    rw [setQueue_q]
    split
    · rename_i he
      rw [he] at hne
      exact h.idle did hd hne
    · exact h.idle d hlt hne
  · obtain ⟨hlt, hdo⟩ := h.busy d hb
    refine ⟨hlt, ?_⟩
    dsimp only
    rw [setQueue_q]
    split
    · rename_i he
      rw [he] at hdo
      rw [he]
      exact hdo
    · exact hdo

end

section
variable {cfg : Cfg} {next : Tool → Eff} {ssd : List UInt8} {disk : Nat → Nat → UInt8}

theorem Running.init {s : Client} (h : (client cfg next ssd disk).init s) : Running cfg next s := by
  obtain ⟨-, hq, -, hb⟩ := h
  refine ⟨fun did _ => ?_, fun did _ _ => ?_, fun did he => absurd (hb.symm.trans he) nofun⟩
  · obtain ⟨m, hm⟩ := hq did
    rw [hm]
    exact Served.new cfg did m
  · obtain ⟨m, hm⟩ := hq did
    rw [hm]
    rfl

theorem Running.step (hND : 0 < cfg.ND) {s s' : Client} {l : Label} (h : Running cfg next s)
    (hfits : ∀ r k, next s.tool = .req r k → r.Fits) (hs : (client cfg next ssd disk).step s l s') :
    View cfg next s s' ∧ Running cfg next s' := by
  cases l with
  | cpu => exact h.cpu hND hfits hs
  | exec did k => exact h.exec hs.1 hs.2

end

end Backup

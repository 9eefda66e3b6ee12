import Staut.Lib.Cyclic
import Staut.Hook.Machine
import Staut.Hook.Proof.Spec
import Staut.Nvme.Proof.Safety

/-!
# The batches of an I/O call

What `nvme_check` has confirmed when `read_impl` or `write_impl` returns (`io_finished`). A read
polls every id of its batch. A write leaves its request loop from behind the last request, so the
polling loop, which counts the rounds, ends one short: the last request of the call is never
polled.

* `Tracked`: every request of a read was confirmed, or its id is still to be polled in this batch.
* `Left`: the last request of a write is not confirmed. No id of its batch is the same, as a queue
  pair hands out `QD` ids before it repeats one (`Fresh`).
* `QInvs`: the queue pairs' invariants, and a confirmed request is reaped.
-/

set_option autoImplicit false

namespace Hook

open CSem Run Myfs Nvme

/-! ## The next step of a call -/

/-- `READ_DEG` or `WRITE_DEG`. -/
def deg (cfg : Cfg) : Kind → Nat
  | .read => cfg.READ_DEG
  | .write => cfg.WRITE_DEG

/-- A call's own steps: into the request loop, out of it, out of the polling loop. -/
theorem next_tau {cfg : Cfg} {c c' : IoCall} (h : c.next cfg = .tau c') :
    (c.pc = .outer ∧ c.j < c.len ∧ c' = { c with pc := .inner 0 }) ∨
    (∃ n, c.pc = .inner n ∧ (deg cfg c.kind ≤ n ∨ c.kind = .read ∧ c.len ≤ c.j) ∧
      c' = { c with pc := .wait n 0 }) ∨
    ∃ n k, c.pc = .wait n k ∧ n ≤ k ∧ c' = { c with pc := .outer } := by
  unfold IoCall.next at h
  cases hpc : c.pc with
  | outer =>
    simp only [hpc] at h
    split at h
    · rename_i hj
      cases h
      exact .inl ⟨rfl, hj, rfl⟩
    · cases h
  | inner n =>
    refine .inr (.inl ⟨n, rfl, ?_⟩)
    cases hk : c.kind with
    | read =>
      simp only [hpc, hk] at h
      split at h
      · split at h
        · rename_i hj
          cases h
          exact ⟨.inr ⟨rfl, hj⟩, rfl⟩
        · cases h
      · rename_i hn
        cases h
        exact ⟨.inl (Nat.le_of_not_lt hn), rfl⟩
    | write =>
      simp only [hpc, hk] at h
      split at h
      · cases h
      · rename_i hn
        cases h
        exact ⟨.inl (Nat.le_of_not_lt hn), rfl⟩
  | wait n k =>
    simp only [hpc] at h
    split at h
    · cases h
    · rename_i hn
      cases h
      exact .inr (.inr ⟨n, k, rfl, Nat.le_of_not_lt hn, rfl⟩)

/-- Where a request continues: `write_impl` leaves its loop at the end of the range. -/
def IoCall.after (c : IoCall) (n : Nat) (rid : Int) : IoCall :=
  let c' := c.issued n rid
  { c' with pc := if c.kind = .write ∧ c'.len ≤ c'.j then .wait n 0 else .inner (n + 1) }

theorem next_req {cfg : Cfg} {c : IoCall} {offset : Nat} {write : Int} {r : Int → Req}
    {cont : Int → IoCall} (h : c.next cfg = .req offset write r cont) :
    ∃ n, c.pc = .inner n ∧ n < deg cfg c.kind ∧ (c.kind = .read → c.j < c.len) ∧
      offset = u64 (c.pos + c.j) ∧
      ((c.kind = .read ∧ write = 0 ∧ r = c.request .read) ∨
        (c.kind = .write ∧ write = 1 ∧ r = c.request .write)) ∧
      cont = c.after n := by
  unfold IoCall.next at h
  cases hpc : c.pc with
  | outer =>
    simp only [hpc] at h
    split at h <;> cases h
  | inner n =>
    refine ⟨n, rfl, ?_⟩
    cases hk : c.kind with
    | read =>
      simp only [hpc, hk] at h
      split at h
      · rename_i hn
        split at h
        · cases h
        · rename_i hj
          cases h
          refine ⟨hn, fun _ => Int.lt_of_not_ge hj, rfl, .inl ⟨rfl, rfl, rfl⟩, ?_⟩
          funext rid
          simp only [IoCall.after, hk, reduceCtorEq, false_and, ↓reduceIte]
      · cases h
    | write =>
      simp only [hpc, hk] at h
      split at h
      · rename_i hn
        cases h
        refine ⟨hn, nofun, rfl, .inr ⟨rfl, rfl, rfl⟩, ?_⟩
        funext rid
        simp only [IoCall.after, hk, true_and, ge_iff_le]
      · cases h
  | wait n k =>
    simp only [hpc] at h
    split at h <;> cases h

theorem next_check {cfg : Cfg} {c : IoCall} {rid : Int} {cont : Bool → IoCall}
    (h : c.next cfg = .check rid cont) :
    ∃ n k, c.pc = .wait n k ∧ k < n ∧ rid = c.rid k ∧
      cont = fun b => if b then { c with pc := .wait n (k + 1) } else c := by
  unfold IoCall.next at h
  cases hpc : c.pc with
  | outer =>
    simp only [hpc] at h
    split at h <;> cases h
  | inner n =>
    cases hk : c.kind <;> simp only [hpc, hk] at h
    · split at h
      · split at h <;> cases h
      · cases h
    · split at h <;> cases h
  | wait n k =>
    simp only [hpc] at h
    split at h
    · rename_i hn
      cases h
      exact ⟨n, k, rfl, hn, rfl, rfl⟩
    · cases h

theorem next_ret {cfg : Cfg} {c : IoCall} : c.next cfg = .ret ↔ c.pc = .outer ∧ c.len ≤ c.j := by
  unfold IoCall.next
  cases hpc : c.pc with
  | outer =>
    dsimp only
    split
    · rename_i hj
      exact ⟨nofun, fun h => by omega⟩
    · rename_i hj
      exact ⟨fun _ => ⟨rfl, Int.le_of_not_gt hj⟩, fun _ => rfl⟩
  | inner n =>
    refine ⟨fun h => ?_, fun h => by cases h.1⟩
    cases hk : c.kind <;> simp only [hk] at h
    · split at h
      · split at h <;> cases h
      · cases h
    · split at h <;> cases h
  | wait n k =>
    refine ⟨fun h => ?_, fun h => by cases h.1⟩
    dsimp only at h
    split at h <;> cases h

/-! ## The next step of the machine -/

@[simp] theorem setQueue_q (m : Machine) (did coreId : Nat) (q : Queue) (d c : Nat) :
    (m.setQueue did coreId q).q d c = if d = did ∧ c = coreId then q else m.q d c := by
  unfold Machine.setQueue
  by_cases hd : d = did
  · subst hd
    by_cases hc : c = coreId <;> simp [hc]
  · simp [hd]

theorem setQueue_self (m : Machine) (did coreId : Nat) (q : Queue) :
    (m.setQueue did coreId q).q did coreId = q := by
  rw [setQueue_q, if_pos ⟨rfl, rfl⟩]

/-- What `Machine.cpu` can do. -/
inductive CpuStep (cfg : Cfg) (m : Machine) : Machine → Prop
  | tau {c : IoCall} : m.busy = none → m.call.next cfg = .tau c → CpuStep cfg m { m with call := c }
  | req {offset did : Nat} {write lba : Int} {r : Int → Req} {cont : Int → IoCall} {fs : State} :
      m.busy = none → m.call.next cfg = .req offset write r cont →
      myfsGetLba m.fs m.call.hookfd offset write = .ok (lba, fs) →
      did = (driveOf cfg (r lba).lba).toNat → (m.q did m.call.coreId).pc = .idle →
      CpuStep cfg m { m.setQueue did m.call.coreId
          { m.q did m.call.coreId with pc := .newSqe (r lba) } with
        fs := fs
        busy := some (did, m.call.coreId) }
  | check {did coreId : Nat} {rid : Int} {cont : Bool → IoCall} : m.busy = none →
      m.call.next cfg = .check rid cont → 0 ≤ rid → ridDid cfg rid < cfg.ND →
      did = (ridDid cfg rid).toNat → coreId = (ridQid cfg rid).toNat - 1 →
      (m.q did coreId).pc = .idle →
      CpuStep cfg m (m.answer cfg did coreId ((m.q did coreId).callCheck rid).1 m.mem
        ((m.q did coreId).callCheck rid).2)
  | host {did coreId : Nat} {q : Queue} {mem : Nat → UInt8} {o : Out} :
      m.busy = some (did, coreId) →
      (m.q did coreId).host cfg did coreId m.mem = some (q, mem, o) →
      CpuStep cfg m (m.answer cfg did coreId q mem o)

theorem cpu_step {cfg : Cfg} {m m' : Machine} (h : m.cpu cfg = some m') : CpuStep cfg m m' := by
  unfold Machine.cpu at h
  split at h
  · rename_i did coreId hb
    obtain ⟨⟨q, mem, o⟩, hh, rfl⟩ := Option.map_eq_some_iff.1 h
    exact .host hb hh
  · rename_i hb
    split at h
    · rename_i c hn
      cases h
      exact .tau hb hn
    · rename_i offset write r cont hn
      obtain ⟨⟨lba, fs⟩, hg, hs⟩ := Option.bind_eq_some_iff.1 h
      unfold Machine.startReq at hs
      dsimp only at hs
      split at hs
      · rename_i hpc
        cases hs
        exact .req hb hn (toOption_eq_some.1 hg) rfl hpc
      · cases hs
    · rename_i rid cont hn
      unfold Machine.startCheck at h
      dsimp only at h
      split at h
      · rename_i hr
        split at h
        · rename_i hpc
          cases h
          exact .check hb hn hr.1 hr.2 rfl rfl hpc
        · cases h
      · cases h
    · cases h

theorem CpuStep.cpu {cfg : Cfg} {m m' : Machine} (h : CpuStep cfg m m') : m.cpu cfg = some m' := by
  unfold Machine.cpu
  cases h with
  | tau hb hn => rw [hb, hn]
  | req hb hn hg hd hpc =>
    subst hd
    simp only [hb, hn, toOption_eq_some.2 hg, Option.bind_some, Machine.startReq, hpc]
  | check hb hn h0 hr hd hc hpc =>
    subst hd hc
    simp only [hb, hn, Machine.startCheck, h0, hr, and_self, ↓reduceIte, hpc]
  | host hb hh =>
    simp only [hb, hh, Option.map_some]

section
variable {cfg : Cfg} {m : Machine} {did coreId : Nat} {q : Queue} {mem : Nat → UInt8}

theorem answer_none : m.answer cfg did coreId q mem .none =
    { m.setQueue did coreId q with mem := mem, busy := some (did, coreId) } := rfl

theorem answer_rid {offset : Nat} {write rid : Int} {r : Int → Req} {cont : Int → IoCall}
    (h : m.call.next cfg = .req offset write r cont) : m.answer cfg did coreId q mem (.rid rid) =
      { m.setQueue did coreId q with
        mem := mem
        call := cont rid
        busy := none
        rqs := m.rqs ++ [⟨did, (m.q did coreId).issued.length, rid, false⟩] } := by
  unfold Machine.answer
  rw [h]

theorem answer_check {rid rid' : Int} {b : Bool} {cont : Bool → IoCall}
    (h : m.call.next cfg = .check rid cont) : m.answer cfg did coreId q mem (.check rid' b) =
      { m.setQueue did coreId q with
        mem := mem
        call := cont b
        busy := none
        rqs := if b then m.rqs.map (Rq.check rid) else m.rqs } := by
  unfold Machine.answer
  rw [h]

end

/-! ## What a step does to the call and its requests -/

inductive Track (cfg : Cfg) (c : IoCall) (rqs : List Rq) : IoCall → List Rq → Prop
  | stay : Track cfg c rqs c rqs
  | tau {c' : IoCall} : c.next cfg = .tau c' → Track cfg c rqs c' rqs
  | issue {n : Nat} (did seq : Nat) (rid : Int) : c.pc = .inner n → (c.kind = .read → c.j < c.len) →
      Track cfg c rqs (c.after n rid) (rqs ++ [⟨did, seq, rid, false⟩])
  | check {n k : Nat} : c.pc = .wait n k → k < n →
      Track cfg c rqs { c with pc := .wait n (k + 1) } (rqs.map (Rq.check (c.rid k)))

theorem track_answer (cfg : Cfg) (m : Machine) (did coreId : Nat) (q : Queue) (mem : Nat → UInt8)
    (o : Out) : Track cfg m.call m.rqs (m.answer cfg did coreId q mem o).call
      (m.answer cfg did coreId q mem o).rqs := by
  cases o with
  | none => exact .stay
  | rid rid =>
    cases hn : m.call.next cfg with
    | req offset write r cont =>
      obtain ⟨n, hpc, -, hj, -, -, rfl⟩ := next_req hn
      rw [answer_rid hn]
      exact .issue _ _ rid hpc hj
    | tau c =>
      simp only [Machine.answer, hn]
      exact .stay
    | check r cont =>
      simp only [Machine.answer, hn]
      exact .stay
    | ret =>
      simp only [Machine.answer, hn]
      exact .stay
  | check rid' b =>
    cases hn : m.call.next cfg with
    | check rid cont =>
      obtain ⟨n, k, hpc, hk, rfl, rfl⟩ := next_check hn
      rw [answer_check hn]
      cases b with
      | false => exact .stay
      | true => exact .check hpc hk
    | tau c =>
      simp only [Machine.answer, hn]
      exact .stay
    | req offset write r cont =>
      simp only [Machine.answer, hn]
      exact .stay
    | ret =>
      simp only [Machine.answer, hn]
      exact .stay

theorem track_step {cfg : Cfg} {m m' : Machine} {l : MLabel} (h : (machine cfg).step m l m') :
    Track cfg m.call m.rqs m'.call m'.rqs := by
  cases l with
  | cpu =>
    cases cpu_step h with
    | tau _ hn => exact .tau hn
    | req => exact .stay
    | check => exact track_answer _ _ _ _ _ _ _
    | host => exact track_answer _ _ _ _ _ _ _
  | queue did coreId a o =>
    obtain ⟨-, -, -, q, mem, -, rfl⟩ := h
    exact .stay

/-! ## Reads -/

/-- The ids that the polling loop of this batch still looks at. -/
def IoCall.Awaits (c : IoCall) (rid : Int) : Prop :=
  match c.pc with
  | .outer => False
  | .inner n => ∃ k < n, c.rid k = rid
  | .wait n k₀ => ∃ k < n, k₀ ≤ k ∧ c.rid k = rid

/-- Every request is confirmed or awaited. -/
def Tracked (c : IoCall) (rqs : List Rq) : Prop :=
  c.kind = .read → ∀ r ∈ rqs, r.checked = true ∨ c.Awaits r.rid

theorem Tracked.step {cfg : Cfg} {c c' : IoCall} {rqs rqs' : List Rq} (h : Tracked c rqs)
    (hs : Track cfg c rqs c' rqs') : Tracked c' rqs' := by
  cases hs with
  | stay => exact h
  | tau hn =>
    obtain ⟨hpc, -, rfl⟩ | ⟨n, hpc, -, rfl⟩ | ⟨n, k, hpc, hk, rfl⟩ := next_tau hn
    all_goals
      intro hr r hm
      refine (h hr r hm).imp id fun ha => ?_
      rw [IoCall.Awaits, hpc] at ha
    · exact ha.elim
    · obtain ⟨k, hk, he⟩ := ha
      exact ⟨k, hk, Nat.zero_le k, he⟩
    · obtain ⟨i, hi, hki, -⟩ := ha
      omega
  | @issue n did seq rid hpc _ =>
    intro hr r hm
    have hr' : c.kind = .read := hr
    have hpc' : (c.after n rid).pc = .inner (n + 1) := by
      simp only [IoCall.after, hr', reduceCtorEq, false_and, ↓reduceIte]
    rw [IoCall.Awaits, hpc']
    rcases List.mem_append.1 hm with hm | hm
    · refine (h hr' r hm).imp id fun ha => ?_
      rw [IoCall.Awaits, hpc] at ha
      obtain ⟨k, hk, he⟩ := ha
      refine ⟨k, by omega, ?_⟩
      simp only [IoCall.after, IoCall.issued, Function.update_of_ne (Nat.ne_of_lt hk)]
      exact he
    · obtain rfl := List.mem_singleton.1 hm
      refine .inr ⟨n, by omega, ?_⟩
      simp only [IoCall.after, IoCall.issued, Function.update_self]
  | @check n k hpc hk =>
    intro hr r hm
    obtain ⟨r, hm', rfl⟩ := List.mem_map.1 hm
    unfold Rq.check
    split
    · exact .inl rfl
    · rename_i hne
      refine (h hr r hm').imp id fun ha => ?_
      rw [IoCall.Awaits, hpc] at ha
      obtain ⟨i, hi, hki, he⟩ := ha
      refine ⟨i, hi, Nat.lt_of_le_of_ne hki ?_, he⟩
      rintro rfl
      exact hne he.symm

/-- A call with an empty range makes no request. -/
def Idle (c : IoCall) (rqs : List Rq) : Prop := c.len ≤ 0 → c.pc = .outer ∧ c.j = 0 ∧ rqs = []

theorem Idle.step {cfg : Cfg} {c c' : IoCall} {rqs rqs' : List Rq} (h : Idle c rqs)
    (hs : Track cfg c rqs c' rqs') : Idle c' rqs' := by
  cases hs with
  | stay => exact h
  | tau hn =>
    intro hl
    obtain ⟨hpc, hj, rfl⟩ | ⟨n, hpc, -, rfl⟩ | ⟨n, k, hpc, hk, rfl⟩ := next_tau hn
    all_goals
      obtain ⟨hp, hz, -⟩ := h hl
      rw [hpc] at hp
    · have hl' : c.len ≤ 0 := hl
      omega
    · cases hp
    · cases hp
  | issue did seq rid hpc =>
    intro hl
    have hp := (h hl).1
    rw [hpc] at hp
    cases hp
  | check hpc =>
    intro hl
    have hp := (h hl).1
    rw [hpc] at hp
    cases hp

/-! ## The queue pairs -/

/-- The queue pairs with the requests of the call on core `coreId`. -/
structure Pairs (cfg : Cfg) (coreId : Nat) (q : Nat → Nat → Queue) (rqs : List Rq) : Prop where
  core : coreId < cfg.N_CORE
  queues : ∀ did < cfg.ND, ∀ c < cfg.N_CORE, SInv cfg did c (q did c)
  owner : ∀ r ∈ rqs, r.did < cfg.ND ∧
    ∃ x, (q r.did coreId).issued[r.seq]? = some x ∧ x.rid = r.rid
  reaped : ∀ r ∈ rqs, r.checked = true → ¬ (q r.did coreId).Unreaped r.seq

section
variable {cfg : Cfg} {coreId : Nat} {q : Nat → Nat → Queue} {rqs : List Rq}

/-- One queue pair makes a step. -/
theorem Pairs.setQueue {m : Machine} (h : Pairs cfg coreId m.q rqs) {did c : Nat} {q : Queue}
    (hs : did < cfg.ND → c < cfg.N_CORE → SInv cfg did c q) (hg : Grows (m.q did c) q) :
    Pairs cfg coreId (m.setQueue did c q).q rqs := by
  have hgrow : ∀ d e, Grows (m.q d e) ((m.setQueue did c q).q d e) := by
    intro d e
    rw [setQueue_q]
    split
    · rename_i he
      obtain ⟨rfl, rfl⟩ := he
      exact hg
    · exact .of_eq rfl rfl rfl
  refine ⟨h.core, fun d hd e he => ?_, fun r hr => ?_, fun r hr hc => ?_⟩
  · rw [setQueue_q]
    split
    · rename_i heq
      obtain ⟨rfl, rfl⟩ := heq
      exact hs hd he
    · exact h.queues d hd e he
  · obtain ⟨hd, x, hx, hrid⟩ := h.owner r hr
    exact ⟨hd, x, (hgrow _ _).issued _ _ hx, hrid⟩
  · obtain ⟨-, x, hx, -⟩ := h.owner r hr
    exact (hgrow _ _).not_unreaped (List.getElem?_eq_some_iff.1 hx).1 (h.reaped r hr hc)

theorem Pairs.issue (h : Pairs cfg coreId q rqs) {did seq : Nat} {rid : Int} {x : Issued}
    (hd : did < cfg.ND) (hx : (q did coreId).issued[seq]? = some x) (hr : x.rid = rid) :
    Pairs cfg coreId q (rqs ++ [⟨did, seq, rid, false⟩]) := by
  refine ⟨h.core, h.queues, fun r hm => ?_, fun r hm hc => ?_⟩
  · rcases List.mem_append.1 hm with hm | hm
    · exact h.owner r hm
    · obtain rfl := List.mem_singleton.1 hm
      exact ⟨hd, x, hx, hr⟩
  · rcases List.mem_append.1 hm with hm | hm
    · exact h.reaped r hm hc
    · obtain rfl := List.mem_singleton.1 hm
      cases hc

/-- The answer 1 is about the requests with that id only, and these are reaped. -/
theorem Pairs.check (hfit : cfg.ND * cfg.N_CORE * QD ≤ 2 ^ 31) (h : Pairs cfg coreId q rqs)
    {rid : Int}
    (hdone : (q (ridDid cfg rid).toNat coreId).qp.doneFlag (ridCid rid).toNat = 1) :
    Pairs cfg coreId q (rqs.map (Rq.check rid)) := by
  refine ⟨h.core, h.queues, fun r hm => ?_, fun r hm hc => ?_⟩
  · obtain ⟨r, hm', rfl⟩ := List.mem_map.1 hm
    have ho := h.owner r hm'
    unfold Rq.check
    split <;> exact ho
  · obtain ⟨r, hm', rfl⟩ := List.mem_map.1 hm
    by_cases he : r.rid = rid
    · have hu : ¬ (q r.did coreId).Unreaped r.seq := by
        obtain ⟨hd, x, hx, hrid⟩ := h.owner r hm'
        have hi := h.queues r.did hd coreId h.core
        obtain ⟨hlt, hxr⟩ := hi.rids x (List.mem_of_getElem? hx)
        obtain ⟨h1, -, h3⟩ := ridOf_decode hfit hd h.core hlt
        rw [← hxr, hrid, he] at h1 h3
        rw [h1, h3] at hdone
        exact (hi.inv.done_reaped hx hdone).2
      simp only [Rq.check, he, ↓reduceIte]
      exact hu
    · simp only [Rq.check, he, ↓reduceIte] at hc ⊢
      exact h.reaped r hm' hc

end

/-- What runs on the queue pair of drive `did`, which the call waits for. -/
def Doing (cfg : Cfg) (c : IoCall) (did : Nat) : Pc → Prop
  | .newSqe _ | .checkCq (.req _) _ => ∃ offset write r cont, c.next cfg = .req offset write r cont
  | .checkCq (.check rid) _ => did = (ridDid cfg rid).toNat ∧ ∃ cont, c.next cfg = .check rid cont
  | .idle => False

/-- The ids of the batch. -/
def IoPc.count : IoPc → Nat
  | .outer => 0
  | .inner n => n
  | .wait n _ => n

structure MInv (cfg : Cfg) (m : Machine) : Prop where
  pairs : Pairs cfg m.call.coreId m.q m.rqs
  ids : ∀ k < m.call.pc.count, ∃ did < cfg.ND, ∃ cid < QD,
    m.call.rid k = ridOf cfg did m.call.coreId cid
  size : 0 < m.call.len → 1 ≤ m.call.blksz ∧ m.call.blksz ≤ BLKSZ
  idle : Idle m.call m.rqs
  busy : ∀ did c, m.busy = some (did, c) → did < cfg.ND ∧ c = m.call.coreId ∧
    Doing cfg m.call did (m.q did c).pc

/-- The requests of a call fit a bounce buffer. -/
theorem request_fits {c : IoCall} {opc : Opc} (ho : opc = .read ∨ opc = .write)
    (h1 : 1 ≤ c.blksz) (h2 : c.blksz ≤ BLKSZ) (lba : Int) : (c.request opc lba).Fits := by
  obtain ⟨b, hb⟩ : ∃ b : Nat, c.blksz = b := ⟨c.blksz.toNat, by omega⟩
  have hdiv : (divCeil c.blksz 512).toNat = (b + 511) / 512 := by
    unfold divCeil
    rw [hb, show ((b : Int) + 512 - 1) = ((b + 511 : Nat) : Int) by omega]
    rfl
  have hB : BLKSZ = 4096 := rfl
  refine ⟨ho, ?_, ?_, ?_⟩
  · simp only [IoCall.request, hdiv]
    omega
  · simp only [IoCall.request, hdiv]
    omega
  · simp only [IoCall.request, hdiv]
    omega

theorem driveOf_lt {cfg : Cfg} (hND : 0 < cfg.ND) (lba : Int) :
    (driveOf cfg lba).toNat < cfg.ND := by
  unfold driveOf
  have := Int.tmod_lt_of_pos (lba.tdiv RAID_FACTOR) (Int.ofNat_lt.2 hND)
  omega

/-- The parameters of a call do not change. -/
structure SameArgs (c c' : IoCall) : Prop where
  kind : c'.kind = c.kind
  hookfd : c'.hookfd = c.hookfd
  len : c'.len = c.len
  pos : c'.pos = c.pos
  buf : c'.buf = c.buf
  coreId : c'.coreId = c.coreId
  blksz : c'.blksz = c.blksz

theorem Track.args {cfg : Cfg} {c c' : IoCall} {rqs rqs' : List Rq} (h : Track cfg c rqs c' rqs') :
    SameArgs c c' := by
  cases h with
  | stay => exact ⟨rfl, rfl, rfl, rfl, rfl, rfl, rfl⟩
  | tau hn =>
    obtain ⟨-, -, rfl⟩ | ⟨n, -, -, rfl⟩ | ⟨n, k, -, -, rfl⟩ := next_tau hn <;>
      exact ⟨rfl, rfl, rfl, rfl, rfl, rfl, rfl⟩
  | issue => exact ⟨rfl, rfl, rfl, rfl, rfl, rfl, rfl⟩
  | check => exact ⟨rfl, rfl, rfl, rfl, rfl, rfl, rfl⟩

section
variable {cfg : Cfg} {m : Machine} (h : MInv cfg m)
include h

/-- The queue pair of the running request or check makes a step that does not return. -/
theorem MInv.busyStep {did : Nat} {q : Queue} {mem : Nat → UInt8} (fs : State)
    (hd : did < cfg.ND) (hs : SInv cfg did m.call.coreId q)
    (hg : Grows (m.q did m.call.coreId) q) (hp : Doing cfg m.call did q.pc) :
    MInv cfg { m.setQueue did m.call.coreId q with
      fs := fs, mem := mem, busy := some (did, m.call.coreId) } := by
  refine ⟨h.pairs.setQueue (fun _ _ => hs) hg, h.ids, h.size, h.idle, fun d c hb => ?_⟩
  cases hb
  refine ⟨hd, rfl, ?_⟩
  show Doing cfg m.call did ((m.setQueue did m.call.coreId q).q did m.call.coreId).pc
  rw [setQueue_self]
  exact hp

/-- The request or check returns. -/
theorem MInv.returned {did : Nat} {q : Queue} {mem : Nat → UInt8} {c : IoCall} {rqs : List Rq}
    (hs : SInv cfg did m.call.coreId q) (hg : Grows (m.q did m.call.coreId) q)
    (ht : Track cfg m.call m.rqs c rqs)
    (hids : ∀ k < c.pc.count, ∃ d < cfg.ND, ∃ cid < QD, c.rid k = ridOf cfg d m.call.coreId cid)
    (hp : ∀ q', Pairs cfg m.call.coreId q' m.rqs → q' did m.call.coreId = q →
      Pairs cfg m.call.coreId q' rqs) :
    MInv cfg { m.setQueue did m.call.coreId q with
      mem := mem, call := c, busy := none, rqs := rqs } := by
  have ha := ht.args
  have hpairs := h.pairs.setQueue (fun _ _ => hs) hg
  refine ⟨?_, ?_, ?_, h.idle.step ht, fun d c hb => by cases hb⟩
  · show Pairs cfg c.coreId _ _
    rw [ha.coreId]
    exact hp _ hpairs (by simp)
  · show ∀ k < c.pc.count, ∃ d < cfg.ND, ∃ cid < QD, c.rid k = ridOf cfg d c.coreId cid
    rw [ha.coreId]
    exact hids
  · show 0 < c.len → 1 ≤ c.blksz ∧ c.blksz ≤ BLKSZ
    rw [ha.len, ha.blksz]
    exact h.size

/-- The answer of `nvme_check`. -/
theorem MInv.checked (hfit : cfg.ND * cfg.N_CORE * QD ≤ 2 ^ 31) {rid rid' : Int}
    {cont : Bool → IoCall} {did : Nat} {q : Queue} {mem : Nat → UInt8} {b : Bool}
    (hn : m.call.next cfg = .check rid cont) (hd : did = (ridDid cfg rid).toNat)
    (hs : SInv cfg did m.call.coreId q) (hg : Grows (m.q did m.call.coreId) q)
    (hdone : b = true → q.qp.doneFlag (ridCid rid).toNat = 1) :
    MInv cfg (m.answer cfg did m.call.coreId q mem (.check rid' b)) := by
  obtain ⟨n, k, hpc, hk, hrid, hcont⟩ := next_check hn
  have ht := track_answer cfg m did m.call.coreId q mem (.check rid' b)
  rw [answer_check hn] at ht ⊢
  have hids : ∀ i < (cont b).pc.count, ∃ d < cfg.ND, ∃ cid < QD,
      (cont b).rid i = ridOf cfg d m.call.coreId cid := by
    intro i hi
    rw [hcont] at hi ⊢
    cases b with
    | false => exact h.ids i hi
    | true =>
      refine h.ids i ?_
      rw [hpc]
      exact hi
  refine h.returned hs hg ht hids fun q' hp hq => ?_
  cases b with
  | false => exact hp
  | true =>
    refine hp.check hfit ?_
    rw [← hd, hq]
    exact hdone rfl

/-- The id that is polled belongs to the call's core. -/
theorem MInv.check_core (hfit : cfg.ND * cfg.N_CORE * QD ≤ 2 ^ 31) {rid : Int}
    {cont : Bool → IoCall} (hn : m.call.next cfg = .check rid cont) :
    (ridDid cfg rid).toNat < cfg.ND ∧ (ridQid cfg rid).toNat - 1 = m.call.coreId := by
  obtain ⟨n, k, hpc, hk, rfl, -⟩ := next_check hn
  obtain ⟨did, hd, cid, hc, he⟩ := h.ids k (by rw [hpc]; exact hk)
  obtain ⟨h1, h2, -⟩ := ridOf_decode hfit hd h.pairs.core hc
  rw [he, h1, h2]
  omega

theorem MInv.host (hfit : cfg.ND * cfg.N_CORE * QD ≤ 2 ^ 31) {did : Nat} {q : Queue}
    {mem : Nat → UInt8} {o : Out} (hd : did < cfg.ND)
    (hdo : Doing cfg m.call did (m.q did m.call.coreId).pc)
    (hh : (m.q did m.call.coreId).host cfg did m.call.coreId m.mem = some (q, mem, o)) :
    MInv cfg (m.answer cfg did m.call.coreId q mem o) := by
  obtain ⟨hs, hdone⟩ := (h.pairs.queues did hd _ h.pairs.core).host hh
  have hst := host_step hh
  have hg := grows_host hst
  cases hst with
  | poll hpc =>
    rw [hpc] at hdo
    exact h.busyStep m.fs hd hs hg hdo
  | @reap c _ hpc =>
    rw [hpc] at hdo
    refine h.busyStep m.fs hd hs hg ?_
    cases c <;> exact hdo
  | leaveReq hpc =>
    rw [hpc] at hdo
    exact h.busyStep m.fs hd hs hg hdo
  | leaveCheck hpc =>
    rw [hpc] at hdo
    obtain ⟨hdid, cont, hn⟩ := hdo
    exact h.checked hfit hn hdid hs hg fun hb => hdone _ (by rw [hb])
  | @submit rq hpc =>
    rw [hpc] at hdo
    obtain ⟨offset, write, r, cont, hn⟩ := hdo
    obtain ⟨n, hpc', -, -, -, -, hcont⟩ := next_req hn
    have ht := track_answer cfg m did m.call.coreId
      ((m.q did m.call.coreId).submit cfg did m.call.coreId m.mem rq) m.mem
      (.rid (ridOf cfg did m.call.coreId (m.q did m.call.coreId).qp.sqTail))
    rw [answer_rid hn] at ht ⊢
    have htail := (h.pairs.queues did hd _ h.pairs.core).inv.tail
    refine h.returned hs hg ht (fun k hk => ?_) fun q' hp hq => ?_
    · rw [hcont] at hk ⊢
      by_cases hkn : k = n
      · subst hkn
        refine ⟨did, hd, _, htail, ?_⟩
        simp only [IoCall.after, IoCall.issued, Function.update_self]
      · have hlt : k < n := by
          simp only [IoCall.after] at hk
          split at hk
          · exact hk
          · have : k < n + 1 := hk
            omega
        obtain ⟨d, hd', cid, hc, he⟩ := h.ids k (by rw [hpc']; exact hlt)
        refine ⟨d, hd', cid, hc, ?_⟩
        simp only [IoCall.after, IoCall.issued, Function.update_of_ne hkn]
        exact he
    · have hx : ((m.q did m.call.coreId).submit cfg did m.call.coreId m.mem rq).issued[
          (m.q did m.call.coreId).issued.length]? = some ⟨rq, (m.q did m.call.coreId).qp.sqTail,
            ridOf cfg did m.call.coreId (m.q did m.call.coreId).qp.sqTail⟩ :=
        List.getElem?_concat_length
      exact hp.issue hd (by rw [hq]; exact hx) (by dsimp only)

end

theorem MInv.cpu {cfg : Cfg} (hfit : cfg.ND * cfg.N_CORE * QD ≤ 2 ^ 31) (hND : 0 < cfg.ND)
    {m m' : Machine} (h : MInv cfg m) (hs : m.cpu cfg = some m') : MInv cfg m' := by
  cases cpu_step hs with
  | @tau c hb hn =>
    have ht : Track cfg m.call m.rqs c m.rqs := .tau hn
    have ha := ht.args
    refine ⟨?_, fun k hk => ?_, ?_, h.idle.step ht, fun did e he => ?_⟩
    · show Pairs cfg c.coreId _ _
      rw [ha.coreId]
      exact h.pairs
    · show ∃ d < cfg.ND, ∃ cid < QD, c.rid k = ridOf cfg d c.coreId cid
      rw [ha.coreId]
      obtain ⟨-, -, rfl⟩ | ⟨n, hpc, -, rfl⟩ | ⟨n, i, -, -, rfl⟩ := next_tau hn
      · exact absurd hk (Nat.not_lt_zero k)
      · exact h.ids k (by rw [hpc]; exact hk)
      · exact absurd hk (Nat.not_lt_zero k)
    · show 0 < c.len → 1 ≤ c.blksz ∧ c.blksz ≤ BLKSZ
      rw [ha.len, ha.blksz]
      exact h.size
    · rw [hb] at he
      cases he
  | @req offset did write lba r cont fs hb hn hg hd hpc =>
    subst hd
    have hlt := driveOf_lt hND (r lba).lba
    have hq := h.pairs.queues _ hlt _ h.pairs.core
    have hfits : (r lba).Fits := by
      obtain ⟨n, hpc', -, -, -, hr, -⟩ := next_req hn
      have hl : 0 < m.call.len := by
        apply Classical.byContradiction
        intro hl
        have hp := (h.idle (by omega)).1
        rw [hpc'] at hp
        cases hp
      obtain ⟨h1, h2⟩ := h.size hl
      rcases hr with ⟨-, -, rfl⟩ | ⟨-, -, rfl⟩
      · exact request_fits (.inl rfl) h1 h2 lba
      · exact request_fits (.inr rfl) h1 h2 lba
    refine h.busyStep fs hlt ⟨hq.inv.setPc _, fun r' hr' => ?_, hq.rids⟩ (.of_eq rfl rfl rfl)
      ⟨offset, write, r, cont, hn⟩
    cases hr'
    exact hfits
  | @check did coreId rid cont hb hn h0 hr hd hc hpc =>
    obtain ⟨hlt, hcore⟩ := h.check_core hfit hn
    rw [← hc] at hcore
    subst hcore
    rw [← hd] at hlt
    obtain ⟨hs', hdone⟩ := (h.pairs.queues did hlt _ h.pairs.core).callCheck rid
    have hg := grows_callCheck (m.q did m.call.coreId) rid
    cases ho : ((m.q did m.call.coreId).callCheck rid).2 with
    | none =>
      refine h.busyStep m.fs hlt hs' hg ?_
      unfold Queue.callCheck at ho ⊢
      split at ho
      · cases ho
      · rename_i hnd
        rw [if_neg hnd]
        exact ⟨hd, cont, hn⟩
    | rid x =>
      unfold Queue.callCheck at ho
      split at ho <;> cases ho
    | check x b =>
      refine h.checked hfit hn hd hs' hg fun hb' => ?_
      have hx : x = rid := by
        unfold Queue.callCheck at ho
        split at ho <;> cases ho
        rfl
      subst hx
      exact hdone x (by rw [ho, hb'])
  | @host did coreId q mem o hb hh =>
    obtain ⟨hlt, rfl, hdo⟩ := h.busy did coreId hb
    exact h.host hfit hlt hdo hh

/-- Another caller, or a device. -/
theorem MInv.queue {cfg : Cfg} {m : Machine} (h : MInv cfg m) {did coreId : Nat} {a : Act} {o : Out}
    {q : Queue} {mem : Nat → UInt8} (hd : did < cfg.ND) (hc : coreId < cfg.N_CORE)
    (ha : (∃ i data, a = .complete i data) ∨ coreId ≠ m.call.coreId ∨ m.AtYield)
    (hs : (queue cfg did coreId).step (m.q did coreId, m.mem) (a, o) (q, mem)) :
    MInv cfg { m.setQueue did coreId q with mem := mem } := by
  refine ⟨h.pairs.setQueue (fun _ _ => ((h.pairs.queues did hd coreId hc).step hs).1)
    (grows_step hs), h.ids, h.size, h.idle, fun d c hb => ?_⟩
  obtain ⟨h1, rfl, hdo⟩ := h.busy d c hb
  refine ⟨h1, rfl, ?_⟩
  show Doing cfg m.call d ((m.setQueue did coreId q).q d m.call.coreId).pc
  rw [setQueue_q]
  split
  · rename_i he
    obtain ⟨rfl, rfl⟩ := he
    -- on the call's own queue pair only the device runs while the call is busy
    rcases ha with ⟨i, data, rfl⟩ | hne | ⟨hy, -⟩
    · obtain ⟨c, -, -, -, hq⟩ := hs
      cases hq
      exact hdo
    · exact absurd rfl hne
    · rw [show m.busy = some (d, m.call.coreId) from hb] at hy
      cases hy
  · exact hdo

/-! ## Writes -/

/-- Request `i` of a batch with `n` so far: the queue pair has handed out at most `n - i` ids since.
-/
def Fresh (cfg : Cfg) (m : Machine) (n i : Nat) : Prop :=
  ∃ did < cfg.ND, ∃ cid < QD, ∃ d, 1 ≤ d ∧ i + d ≤ n ∧
    m.call.rid i = ridOf cfg did m.call.coreId cid ∧
    (cid + d) % QD = (m.q did m.call.coreId).qp.sqTail

structure Left (cfg : Cfg) (m : Machine) : Prop where
  inner : m.call.kind = .write → ∀ n, m.call.pc = .inner n →
    n ≤ cfg.WRITE_DEG ∧ m.call.j < m.call.len ∧ ∀ i < n, Fresh cfg m n i
  last : m.call.kind = .write → 0 < m.call.len → m.call.len ≤ m.call.j →
    ∃ r ∈ m.rqs, r.checked = false ∧ ∀ n k, m.call.pc = .wait n k → ∀ i < n, m.call.rid i ≠ r.rid

section
variable {cfg : Cfg} {m : Machine} (h : Left cfg m)
include h

/-- A step that leaves the call where it is, and hands out no id while it is in its request loop. -/
theorem Left.same {m' : Machine} (hc : m'.call = m.call) (hr : m'.rqs = m.rqs)
    (ht : ∀ n, m.call.pc = .inner n → ∀ did,
      (m'.q did m.call.coreId).qp.sqTail = (m.q did m.call.coreId).qp.sqTail) : Left cfg m' := by
  refine ⟨fun hk n hn => ?_, ?_⟩
  · rw [hc] at hk hn
    obtain ⟨h1, h2, h3⟩ := h.inner hk n hn
    refine ⟨h1, by rw [hc]; exact h2, fun i hi => ?_⟩
    obtain ⟨did, hd, cid, hcid, d, hd1, hd2, hrid, htl⟩ := h3 i hi
    refine ⟨did, hd, cid, hcid, d, hd1, hd2, by rw [hc]; exact hrid, ?_⟩
    rw [hc, ht n hn did]
    exact htl
  · rw [hc, hr]
    exact h.last

theorem Left.tau {c : IoCall} (hn : m.call.next cfg = .tau c) : Left cfg { m with call := c } := by
  obtain ⟨hpc, hj, rfl⟩ | ⟨n, hpc, hd, rfl⟩ | ⟨n, k, hpc, -, rfl⟩ := next_tau hn
  · refine ⟨fun hk n hn' => ?_, fun _ _ hl => ?_⟩
    · cases hn'
      exact ⟨Nat.zero_le _, hj, fun i hi => absurd hi (Nat.not_lt_zero i)⟩
    · have hl' : m.call.len ≤ m.call.j := hl
      omega
  · refine ⟨(fun hk n hn' => by cases hn'), fun hk _ hl => ?_⟩
    have hl' : m.call.len ≤ m.call.j := hl
    have := (h.inner hk n hpc).2.1
    omega
  · refine ⟨(fun hk n hn' => by cases hn'), fun hk h0 hl => ?_⟩
    obtain ⟨r, hr, hc, -⟩ := h.last hk h0 hl
    exact ⟨r, hr, hc, fun n k hw => by cases hw⟩

/-- An answer of `nvme_check` for an id of the batch. -/
theorem Left.check {n k : Nat} {q : Nat → Nat → Queue} {mem : Nat → UInt8} (b : Bool)
    (hpc : m.call.pc = .wait n k) (hk : k < n) : Left cfg { m with
      q := q
      mem := mem
      call := if b then { m.call with pc := .wait n (k + 1) } else m.call
      busy := none
      rqs := if b then m.rqs.map (Rq.check (m.call.rid k)) else m.rqs } := by
  cases b with
  | false =>
    refine h.same rfl rfl fun n' hn' => ?_
    rw [hpc] at hn'
    cases hn'
  | true =>
    refine ⟨(fun _ n' hn' => by cases hn'), fun hw h0 hl => ?_⟩
    obtain ⟨r, hr, hc, hne⟩ := h.last hw h0 hl
    have hr' : Rq.check (m.call.rid k) r = r := if_neg (Ne.symm (hne n k hpc k hk))
    refine ⟨r, ?_, hc, fun n' k' hw' i hi => ?_⟩
    · have := List.mem_map_of_mem (f := Rq.check (m.call.rid k)) hr
      rwa [hr'] at this
    · cases hw'
      exact hne n k hpc i hi

/-- A request whose id is the queue pair's next. -/
theorem Left.issue (hfit : cfg.ND * cfg.N_CORE * QD ≤ 2 ^ 31) (hdeg : cfg.WRITE_DEG ≤ QD)
    (hcore : m.call.coreId < cfg.N_CORE) {n did : Nat} {q : Queue} {mem : Nat → UInt8} {rid : Int}
    (hpc : m.call.pc = .inner n) (hn : n < deg cfg m.call.kind) (hd : did < cfg.ND)
    (htail : (m.q did m.call.coreId).qp.sqTail < QD)
    (hrid : rid = ridOf cfg did m.call.coreId (m.q did m.call.coreId).qp.sqTail)
    (hq : q.qp.sqTail = ((m.q did m.call.coreId).qp.sqTail + 1) % QD) (seq : Nat) :
    Left cfg { m.setQueue did m.call.coreId q with
      mem := mem
      call := m.call.after n rid
      busy := none
      rqs := m.rqs ++ [⟨did, seq, rid, false⟩] } := by
  have hat : ∀ i < n, (m.call.after n rid).rid i = m.call.rid i := fun i hi => by
    simp only [IoCall.after, IoCall.issued, Function.update_of_ne (Nat.ne_of_lt hi)]
  by_cases hend : m.call.kind = .write ∧ m.call.len ≤ wrap32 (m.call.j + m.call.blksz)
  · have hpc' : (m.call.after n rid).pc = .wait n 0 := if_pos hend
    refine ⟨fun _ n' hn' => ?_, fun hw h0 hl => ?_⟩
    · have hn'' : (m.call.after n rid).pc = .inner n' := hn'
      rw [hpc'] at hn''
      cases hn''
    · refine ⟨_, List.mem_append_right _ (List.mem_singleton.2 rfl), rfl, fun n' k' hw' i hi => ?_⟩
      have hw'' : (m.call.after n rid).pc = .wait n' k' := hw'
      rw [hpc'] at hw''
      cases hw''
      show (m.call.after n rid).rid i ≠ rid
      rw [hat i hi, hrid]
      obtain ⟨did', hd', cid, hcid, d, hd1, hd2, he, htl⟩ := (h.inner hend.1 n hpc).2.2 i hi
      rw [he]
      intro heq
      -- the same drive and slot, fewer than `QD` requests later
      obtain ⟨h1, -, h3⟩ := ridOf_decode hfit hd' hcore hcid
      obtain ⟨h1', -, h3'⟩ := ridOf_decode hfit hd hcore htail
      rw [heq, h1'] at h1
      rw [heq, h3'] at h3
      obtain rfl : did = did' := Int.ofNat_inj.1 h1
      have hc : (m.q did m.call.coreId).qp.sqTail = cid := Int.ofNat_inj.1 h3
      rw [hend.1] at hn
      have hlt : d < QD := by
        have : n < cfg.WRITE_DEG := hn
        omega
      exact Cyclic.add_mod_ne hcid hd1 hlt (htl.trans hc)
  · have hpc' : (m.call.after n rid).pc = .inner (n + 1) := if_neg hend
    refine ⟨fun hw n' hn' => ?_, fun hw _ hl => ?_⟩
    · have hn'' : (m.call.after n rid).pc = .inner n' := hn'
      rw [hpc'] at hn''
      cases hn''
      have hw' : m.call.kind = .write := hw
      have hdn : n < cfg.WRITE_DEG := by
        rw [hw'] at hn
        exact hn
      have hlt : ¬ m.call.len ≤ wrap32 (m.call.j + m.call.blksz) := fun hl => hend ⟨hw', hl⟩
      refine ⟨hdn, Int.lt_of_not_ge hlt, fun i hi => ?_⟩
      have hnew : ((m.setQueue did m.call.coreId q).q did m.call.coreId).qp.sqTail =
          ((m.q did m.call.coreId).qp.sqTail + 1) % QD := by
        rw [setQueue_self, hq]
      by_cases hin : i = n
      · subst hin
        refine ⟨did, hd, _, htail, 1, Nat.le_refl 1, Nat.le_refl _, ?_, hnew.symm⟩
        show (m.call.after i rid).rid i = _
        simp only [IoCall.after, IoCall.issued, Function.update_self]
        exact hrid
      · obtain ⟨did', hd', cid, hcid, d, hd1, hd2, he, htl⟩ :=
          (h.inner hw' n hpc).2.2 i (by omega)
        have hri : (m.call.after n rid).rid i = ridOf cfg did' m.call.coreId cid := by
          rw [hat i (by omega)]
          exact he
        by_cases hdd : did' = did
        · subst hdd
          refine ⟨did', hd', cid, hcid, d + 1, by omega, by omega, hri, ?_⟩
          show _ = ((m.setQueue did' m.call.coreId q).q did' m.call.coreId).qp.sqTail
          rw [hnew, ← htl, Nat.mod_add_mod, Nat.add_assoc]
        · refine ⟨did', hd', cid, hcid, d, hd1, by omega, hri, ?_⟩
          show _ = ((m.setQueue did m.call.coreId q).q did' m.call.coreId).qp.sqTail
          rw [setQueue_q, if_neg fun hc => hdd hc.1]
          exact htl
    · exact absurd ⟨hw, hl⟩ hend

end

/-- A queue pair's step that hands out no id. -/
theorem Left.busyStep {cfg : Cfg} {m : Machine} (h : Left cfg m) {did : Nat} {q : Queue}
    (fs : State) (mem : Nat → UInt8) (hq : q.qp.sqTail = (m.q did m.call.coreId).qp.sqTail) :
    Left cfg { m.setQueue did m.call.coreId q with
      fs := fs, mem := mem, busy := some (did, m.call.coreId) } := by
  refine h.same rfl rfl fun n _ d => ?_
  show ((m.setQueue did m.call.coreId q).q d m.call.coreId).qp.sqTail = _
  rw [setQueue_q]
  split
  · rename_i hd
    rw [hq, hd.1]
  · rfl

theorem Left.cpu {cfg : Cfg} (hfit : cfg.ND * cfg.N_CORE * QD ≤ 2 ^ 31)
    (hdeg : cfg.WRITE_DEG ≤ QD) {m m' : Machine} (h : Left cfg m) (hi : MInv cfg m)
    (hs : m.cpu cfg = some m') : Left cfg m' := by
  cases cpu_step hs with
  | tau _ hn => exact h.tau hn
  | req => exact h.busyStep _ m.mem rfl
  | @check did coreId rid cont hb hn h0 hr hd hc hpc =>
    obtain ⟨n, k, hpc', hk, rfl, rfl⟩ := next_check hn
    cases ho : ((m.q did coreId).callCheck (m.call.rid k)).2 with
    | check x b =>
      rw [answer_check hn]
      exact h.check b hpc' hk
    | none =>
      refine h.same rfl rfl fun n' hn' => ?_
      rw [hpc'] at hn'
      cases hn'
    | rid x =>
      unfold Queue.callCheck at ho
      split at ho <;> cases ho
  | @host did coreId q mem o hb hh =>
    obtain ⟨hlt, rfl, hdo⟩ := hi.busy did coreId hb
    have hq := (hi.pairs.queues did hlt _ hi.pairs.core).inv
    cases host_step hh with
    | poll => exact h.busyStep m.fs _ rfl
    | reap => exact h.busyStep m.fs _ rfl
    | leaveReq => exact h.busyStep m.fs _ (leaveCq_sqTail _ _)
    | leaveCheck hpc =>
      rw [hpc] at hdo
      obtain ⟨-, cont, hn⟩ := hdo
      obtain ⟨n, k, hpc', hk, rfl, rfl⟩ := next_check hn
      rw [answer_check hn]
      exact h.check _ hpc' hk
    | submit hpc =>
      rw [hpc] at hdo
      obtain ⟨offset, write, r, cont, hn⟩ := hdo
      obtain ⟨n, hpc', hn', -, -, -, rfl⟩ := next_req hn
      rw [answer_rid hn]
      refine h.issue hfit hdeg hi.pairs.core hpc' hn' hlt hq.tail rfl ?_ _
      simp only [Queue.submit, request_sqTail, hq.nSqe]

theorem Left.queue {cfg : Cfg} {m : Machine} (h : Left cfg m) {did coreId : Nat} {a : Act} {o : Out}
    {q : Queue} {mem : Nat → UInt8}
    (ha : (∃ i data, a = .complete i data) ∨ coreId ≠ m.call.coreId ∨ m.AtYield)
    (hs : (queue cfg did coreId).step (m.q did coreId, m.mem) (a, o) (q, mem)) :
    Left cfg { m.setQueue did coreId q with mem := mem } := by
  refine h.same rfl rfl fun n hn d => ?_
  show ((m.setQueue did coreId q).q d m.call.coreId).qp.sqTail = _
  rw [setQueue_q]
  split
  · rename_i he
    obtain ⟨rfl, rfl⟩ := he
    rcases ha with ⟨i, data, rfl⟩ | hne | ⟨-, n', k, hy⟩
    · obtain ⟨c, -, -, -, hq⟩ := hs
      cases hq
      rfl
    · exact absurd rfl hne
    · rw [hn] at hy
      cases hy
  · rfl

/-! ## Whole calls -/

theorem blkszOf_range (len pos : Int) : 1 ≤ blkszOf len pos ∧ blkszOf len pos ≤ BLKSZ := by
  unfold blkszOf BLKSZ
  split <;> omega

theorem ioImpl_start {kind : Kind} {s fs : State} {i : Nat} {len pos : Int} {buf coreId : Nat}
    {rid : Nat → Int} {c : IoCall} (h : ioImpl kind s i len pos buf coreId rid = .ok (fs, c)) :
    c.pos = pos ∧ c.j = 0 ∧ (0 ≤ pos → 0 < c.len → 1 ≤ c.blksz ∧ c.blksz ≤ BLKSZ) := by
  cases kind with
  | read =>
    unfold ioImpl readImpl at h
    dsimp only at h
    split at h
    · cases h
    · cases h
      refine ⟨rfl, rfl, fun h0 hl => ?_⟩
      dsimp only at hl ⊢
      generalize (if u64 (pos + len) > _ then _ else len : Int) = n at hl ⊢
      split
      · rename_i hb
        have hB : BLKSZ = 4096 := rfl
        have hp : 0 ≤ pos.tmod BLKSZ := Int.tmod_nonneg _ h0
        rw [wrap32_of_range (by omega) (by omega)]
        omega
      · exact blkszOf_range _ _
  | write =>
    unfold ioImpl writeImpl at h
    dsimp only at h
    split at h
    · cases h
    · cases h
      exact ⟨rfl, rfl, fun _ _ => blkszOf_range _ _⟩

theorem track_of_reach {cfg : Cfg} {m : Machine} (h : (machine cfg).Reach m) :
    Tracked m.call m.rqs ∧ Idle m.call m.rqs := by
  refine LTS.ReachIf.induct (P := fun m => Tracked m.call m.rqs ∧ Idle m.call m.rqs) ?_ ?_ h
  · intro m hm
    obtain ⟨kind, fs, i, len, pos, buf, rid, hc⟩ := hm.call
    refine ⟨fun _ r hr => ?_, fun _ => ⟨(ioImpl_ok hc).2.2.2, (ioImpl_start hc).2.1, hm.rqs⟩⟩
    rw [hm.rqs] at hr
    cases hr
  · intro m l m' hm _ hs
    have ht := track_step hs
    exact ⟨hm.1.step ht, hm.2.step ht⟩

theorem pos_of_step {cfg : Cfg} {m m' : Machine} {l : MLabel} (h : (machine cfg).step m l m') :
    m'.call.pos = m.call.pos := (track_step h).args.pos

/-- A call at its start. -/
theorem MInv.start {cfg : Cfg} {m : Machine} {kind : Kind} {fs : State} {i : Nat} {len pos : Int}
    {buf coreId : Nat} {rid : Nat → Int}
    (hc : ioImpl kind fs i len pos buf coreId rid = .ok (m.fs, m.call)) (h0 : 0 ≤ m.call.pos)
    (hcore : m.call.coreId < cfg.N_CORE)
    (hq : ∀ did < cfg.ND, ∀ c < cfg.N_CORE, SInv cfg did c (m.q did c)) (hb : m.busy = none)
    (hr : m.rqs = []) : MInv cfg m := by
  obtain ⟨hp, hj, hsz⟩ := ioImpl_start hc
  have hpc := (ioImpl_ok hc).2.2.2
  have hnil : ∀ r, r ∉ m.rqs := fun r => by
    rw [hr]
    exact List.not_mem_nil
  refine ⟨⟨hcore, hq, fun r hm => absurd hm (hnil r), fun r hm => absurd hm (hnil r)⟩,
    fun k hk => ?_, hsz (hp ▸ h0), fun _ => ⟨hpc, hj, hr⟩, fun did c he => ?_⟩
  · rw [hpc] at hk
    exact absurd hk (Nat.not_lt_zero k)
  · rw [hb] at he
    cases he

theorem minv_of_reach {cfg : Cfg} (hND : 0 < cfg.ND) (hfit : cfg.ND * cfg.N_CORE * QD ≤ 2 ^ 31)
    {m : Machine} (h : (machine cfg).Reach m) : 0 ≤ m.call.pos → MInv cfg m := by
  refine LTS.ReachIf.induct (P := fun m => 0 ≤ m.call.pos → MInv cfg m) ?_ ?_ h
  · intro m hm h0
    obtain ⟨kind, fs, i, len, pos, buf, rid, hc⟩ := hm.call
    refine .start hc h0 hm.core (fun did hd c hcc => ?_) hm.busy hm.rqs
    obtain ⟨mem, hr⟩ := hm.queues did hd c hcc
    exact sinv_of_reach hr
  · intro m l m' hm _ hs h0
    rw [pos_of_step hs] at h0
    cases l with
    | cpu => exact (hm h0).cpu hfit hND hs
    | queue did coreId a o =>
      obtain ⟨hd, hc, ha, q, mem, hq, rfl⟩ := hs
      exact (hm h0).queue hd hc ha hq

theorem left_of_reach {cfg : Cfg} (hND : 0 < cfg.ND) (hfit : cfg.ND * cfg.N_CORE * QD ≤ 2 ^ 31)
    (hdeg : cfg.WRITE_DEG ≤ QD) {m : Machine} (h : (machine cfg).Reach m) :
    0 ≤ m.call.pos → Left cfg m := by
  -- with the reachability kept, for the queue pairs' invariant
  suffices hs : (machine cfg).Reach m ∧ (0 ≤ m.call.pos → Left cfg m) from hs.2
  refine LTS.ReachIf.induct
    (P := fun m => (machine cfg).Reach m ∧ (0 ≤ m.call.pos → Left cfg m)) ?_ ?_ h
  · intro m hm
    refine ⟨.init hm, fun _ => ?_⟩
    obtain ⟨kind, fs, i, len, pos, buf, rid, hc⟩ := hm.call
    obtain ⟨-, hj, -⟩ := ioImpl_start hc
    have hpc := (ioImpl_ok hc).2.2.2
    refine ⟨fun _ n hn => ?_, fun _ h0 hl => ?_⟩
    · rw [hpc] at hn
      cases hn
    · omega
  · intro m l m' hm _ hs
    refine ⟨hm.1.step trivial hs, fun h0 => ?_⟩
    rw [pos_of_step hs] at h0
    cases l with
    | cpu => exact (hm.2 h0).cpu hfit hdeg (minv_of_reach hND hfit hm.1 h0) hs
    | queue did coreId a o =>
      obtain ⟨-, -, ha, q, mem, hq, rfl⟩ := hs
      exact (hm.2 h0).queue ha hq

theorem checked_of_returned {cfg : Cfg} {m : Machine} (h : (machine cfg).Reach m)
    (hret : m.Returned cfg) (hkind : m.call.kind = .read ∨ m.call.len ≤ 0) : m.AllChecked := by
  intro r hr
  rcases hkind with hk | hl
  · refine ((track_of_reach h).1 hk r hr).resolve_right fun ha => ?_
    rw [IoCall.Awaits, (next_ret.1 hret.2).1] at ha
    exact ha
  · rw [((track_of_reach h).2 hl).2.2] at hr
    cases hr

/-- **I/O is finished when the call returns**: for a read, and for a write of an empty range. Any
other write returns with its last request unconfirmed. -/
theorem io_finished {cfg : Cfg} {m : Machine} (h : (machine cfg).Reach m)
    (hret : m.Returned cfg) :
    (m.call.kind = .read ∨ m.call.len ≤ 0 → m.AllChecked) ∧
    (0 < cfg.ND → cfg.ND * cfg.N_CORE * QD ≤ 2 ^ 31 → 0 ≤ m.call.pos →
      (∀ r ∈ m.rqs, r.checked = true → ¬ m.Outstanding r) ∧
      (cfg.WRITE_DEG ≤ QD → (m.AllChecked ↔ m.call.kind = .read ∨ m.call.len ≤ 0))) := by
  have hall := checked_of_returned h hret
  have hj := (next_ret.1 hret.2).2
  refine ⟨hall, fun hND hfit h0 => ⟨fun r hr hc => ?_, fun hdeg => ⟨fun ha => ?_, hall⟩⟩⟩
  · have hi := minv_of_reach hND hfit h h0
    have hq := (hi.pairs.queues _ (hi.pairs.owner r hr).1 _ hi.pairs.core).inv
    rintro ⟨c, hm, hs⟩
    exact hi.pairs.reaped r hr hc (hq.unreaped_iff.2 ⟨c, List.mem_append_left _ hm, hs⟩)
  · apply Classical.byContradiction
    intro hno
    rw [not_or] at hno
    have hw : m.call.kind = .write := by
      cases hk : m.call.kind with
      | read => exact absurd hk hno.1
      | write => rfl
    obtain ⟨r, hr, hc, -⟩ := (left_of_reach hND hfit hdeg h h0).last hw (by omega) hj
    rw [ha r hr] at hc
    cases hc

/-- A new queue pair on every core of the only drive. -/
def freshQueues (_ coreId : Nat) : Queue := Queue.new (coreId + 1) default

theorem starts_fresh {fs0 fs : State} {kind : Kind} {i : Nat} {len pos : Int} {buf : Nat}
    {rid : Nat → Int} {c : IoCall} {cfg : Cfg} (hN : 0 < cfg.N_CORE) (mem : Nat → UInt8)
    (hc : ioImpl kind fs0 i len pos buf 0 rid = .ok (fs, c)) (h0 : c.coreId = 0) :
    (machine cfg).init ⟨fs, freshQueues, mem, c, none, []⟩ := by
  refine ⟨⟨kind, fs0, i, len, pos, buf, rid, ?_⟩, ?_, fun did _ coreId _ => ⟨mem, ?_⟩,
    fun _ _ => rfl, rfl, rfl⟩
  · rw [show c.coreId = 0 from h0]
    exact hc
  · show c.coreId < cfg.N_CORE
    omega
  · exact .init ⟨default, rfl⟩

theorem reach_cpu {cfg : Cfg} {m m' : Machine} (h : (machine cfg).Reach m) (hs : CpuStep cfg m m') :
    (machine cfg).Reach m' := .step (a := .cpu) h trivial hs.cpu

theorem steps_cpu {cfg : Cfg} {m0 m m' : Machine} (h : (machine cfg).Steps m0 m)
    (hs : CpuStep cfg m m') : (machine cfg).Steps m0 m' := .tail h ⟨.cpu, hs.cpu⟩

/-- A write of one sector to a new file returns while its command is with the device. -/
theorem write_unfinished : ∃ m, (machine ⟨1, 1, 1, 1⟩).Reach m ∧ m.Returned ⟨1, 1, 1, 1⟩ ∧
    m.call.kind = .write ∧ m.call.len = 512 ∧ m.call.pos = 0 ∧
    ∃ r ∈ m.rqs, r.checked = false ∧ m.Outstanding r := by
  let cfg : Cfg := ⟨1, 1, 1, 1⟩
  let f : CStr := ⟨[97], by decide⟩
  let fs0 := (myfsIncrementRef (openedFs f) 0).1
  let mem : Nat → UInt8 := fun _ => 0
  let c0 : IoCall := ⟨.write, 0, 512, 0, 0, 0, 512, 0, fun _ => 0, .outer⟩
  have hc : ioImpl .write (openedFs f) 0 512 0 0 0 (fun _ => 0) = .ok (fs0, c0) := by
    show writeImpl (openedFs f) 0 512 0 0 0 (fun _ => 0) = _
    unfold writeImpl
    rw [if_neg (by decide)]
    rfl
  have h0 : (machine cfg).Reach ⟨fs0, freshQueues, mem, c0, none, []⟩ :=
    .init (starts_fresh Nat.one_pos mem hc rfl)
  let c1 : IoCall := { c0 with pc := .inner 0 }
  let m1 : Machine := ⟨fs0, freshQueues, mem, c1, none, []⟩
  have h1 : (machine cfg).Reach m1 := reach_cpu h0 (.tau rfl (by rfl))
  obtain ⟨lba, fs, hg, -⟩ := opened_getLba (show fs0.sb = (openedFs f).sb from incrementRef_sb _ _)
  let r : Req := c1.request .write lba
  let m2 : Machine := { m1.setQueue 0 0 { freshQueues 0 0 with pc := .newSqe r } with
    fs := fs, busy := some (0, 0) }
  have hn : c1.next cfg = .req 0 1 (c1.request .write) (c1.after 0) := by rfl
  have hdrive : 0 = (driveOf cfg r.lba).toNat := by
    show 0 = ((r.lba.tdiv RAID_FACTOR).tmod 1).toNat
    rw [Int.tmod_one]
    rfl
  have hs : CpuStep cfg m1 m2 :=
    @CpuStep.req cfg m1 0 0 1 lba (c1.request .write) (c1.after 0) fs rfl hn hg hdrive rfl
  have h2 : (machine cfg).Reach m2 := reach_cpu h1 hs
  have hq : m2.q 0 0 = { freshQueues 0 0 with pc := .newSqe r } :=
    setQueue_self m1 0 0 _
  let q3 := (m2.q 0 0).submit cfg 0 0 mem r
  have hh : (m2.q 0 0).host cfg 0 0 mem = some (q3, mem, .rid (ridOf cfg 0 0 0)) := by
    rw [hq]
    rfl
  have h3 := reach_cpu h2 (.host rfl hh)
  rw [answer_rid (m := m2) hn] at h3
  have hw : (c1.after 0 (ridOf cfg 0 0 0)).pc = .wait 0 0 := by rfl
  have ht : (c1.after 0 (ridOf cfg 0 0 0)).next cfg =
      .tau { c1.after 0 (ridOf cfg 0 0 0) with pc := .outer } := by
    unfold IoCall.next
    rw [hw]
    rfl
  have h4 := reach_cpu h3 (.tau rfl ht)
  refine ⟨_, h4, ⟨rfl, next_ret.2 ⟨rfl, ?_⟩⟩, rfl, rfl, rfl, _, List.mem_singleton.2 rfl, rfl, ?_⟩
  · show (512 : Int) ≤ wrap32 (0 + 512)
    decide
  · refine ⟨⟨0, q3.qp.sqe 0⟩, ?_, ?_⟩
    · show _ ∈ ((m2.setQueue 0 0 q3).q 0 0).dev.outstanding
      rw [setQueue_self]
      show _ ∈ ((m2.q 0 0).submit cfg 0 0 mem r).dev.outstanding
      rw [hq]
      exact List.mem_singleton.2 rfl
    · show 0 = (m2.q 0 0).issued.length
      rw [hq]
      rfl

/-- A read of one sector, from its request to the answer 1 of its check. -/
theorem read_sector_run : ∃ fs0 m0 m, myfsGetSize fs0 0 = 2097152 ∧
    ioImpl .read fs0 0 512 0 0 0 (fun _ => 0) = .ok (m0.fs, m0.call) ∧
    (machine ⟨1, 1, 1, 1⟩).init m0 ∧ m0.call.coreId = 0 ∧ (machine ⟨1, 1, 1, 1⟩).Steps m0 m ∧
    m.Returned ⟨1, 1, 1, 1⟩ ∧ m.call.kind = .read ∧ m.call.pos = 0 ∧ m.rqs ≠ [] := by
  let cfg : Cfg := ⟨1, 1, 1, 1⟩
  let f : CStr := ⟨[97], by decide⟩
  let mem : Nat → UInt8 := fun _ => 0
  let data : List UInt8 := List.replicate 512 7
  obtain ⟨-, fs1, -, -, -, hnb, hact⟩ := opened_getLba (show (openedFs f).sb = _ from rfl)
  let fs := (myfsIncrementRef fs1 0).1
  have hsb : fs.sb = fs1.sb := incrementRef_sb _ _
  let c0 : IoCall := ⟨.read, 0, 512, 0, 0, 0, 512, 0, fun _ => 0, .outer⟩
  have hsize : myfsGetSize fs 0 = 2097152 := by
    have hlt : 1 * MYFS_BLOCK_SIZE < 2 ^ 64 := by
      rw [MYFS_BLOCK_SIZE_eq]
      decide
    unfold myfsGetSize
    rw [hsb, hnb, Nat.mod_eq_of_lt hlt, Nat.one_mul, MYFS_BLOCK_SIZE_eq]
  have hc : ioImpl .read fs1 0 512 0 0 0 (fun _ => 0) = .ok (fs, c0) := by
    show readImpl fs1 0 512 0 0 0 (fun _ => 0) = _
    unfold readImpl
    dsimp only
    rw [hsize, if_neg (by decide), if_neg (by decide)]
    rfl
  let m0 : Machine := ⟨fs, freshQueues, mem, c0, none, []⟩
  have h0 : (machine cfg).Steps m0 m0 := .refl
  let c1 : IoCall := { c0 with pc := .inner 0 }
  let m1 : Machine := ⟨fs, freshQueues, mem, c1, none, []⟩
  have h1 : (machine cfg).Steps m0 m1 := steps_cpu h0 (.tau rfl (by rfl))
  have hg : myfsGetLba fs 0 0 0 = .ok (lbaOf ((fs.sb.file 0).block 0) 0, fs) := by
    have hM := MYFS_MAX_BLOCKS_PER_FILE_eq
    have := @myfsGetLba_active fs 0 0 0 (by rw [Nat.zero_div]; omega)
      (by rw [Nat.zero_div, hsb]; exact hact)
    rwa [Nat.zero_div] at this
  let r : Req := c1.request .read (lbaOf ((fs.sb.file 0).block 0) 0)
  have hr : r.Fits := request_fits (.inl rfl) (by decide) (by decide) _
  have hn : c1.next cfg = .req 0 0 (c1.request .read) (c1.after 0) := by rfl
  have hdrive : 0 = (driveOf cfg r.lba).toNat := by
    show 0 = ((r.lba.tdiv RAID_FACTOR).tmod 1).toNat
    rw [Int.tmod_one]
    rfl
  let m2 : Machine := { m1.setQueue 0 0 { freshQueues 0 0 with pc := .newSqe r } with
    fs := fs, busy := some (0, 0) }
  have hs : CpuStep cfg m1 m2 :=
    @CpuStep.req cfg m1 0 0 0 _ (c1.request .read) (c1.after 0) fs rfl hn hg hdrive rfl
  have h2 : (machine cfg).Steps m0 m2 := steps_cpu h1 hs
  have hq2 : m2.q 0 0 = { freshQueues 0 0 with pc := .newSqe r } :=
    setQueue_self m1 0 0 _
  let q1 := (Queue.new 1 default).submit cfg 0 0 mem r
  have hrid : ridOf cfg 0 0 0 = 0 := by simp [ridOf, wrap32]
  have hh : (m2.q 0 0).host cfg 0 0 mem = some (q1, mem, .rid 0) := by
    rw [hq2, ← hrid]
    rfl
  have h3 := steps_cpu h2 (.host rfl hh)
  rw [answer_rid (m := m2) hn] at h3
  let c4 : IoCall := { c1.after 0 0 with pc := .wait 1 0 }
  have h4 := steps_cpu h3 (.tau (c := c4) rfl (by rfl))
  have hiss : (m2.q 0 0).issued.length = 0 := by rw [hq2]; rfl
  rw [hiss] at h4
  let m4 : Machine := { m2.setQueue 0 0 q1 with
    mem := mem, call := c4, busy := none, rqs := [⟨0, 0, 0, false⟩] }
  have h4 : (machine cfg).Steps m0 m4 := h4
  let q2 := q1.complete 0 ⟨0, q1.qp.sqe 0⟩ data
  let m5 : Machine := { m4.setQueue 0 0 q2 with mem := mem }
  have hq4 : m4.q 0 0 = q1 := setQueue_self m2 0 0 _
  have h5 : (machine cfg).Steps m0 m5 := by
    refine .tail h4 ⟨.queue 0 0 (.complete 0 data) .none,
      Nat.one_pos, Nat.one_pos, .inl ⟨0, data, rfl⟩, q2, mem, ?_, rfl⟩
    rw [hq4]
    exact ⟨⟨0, q1.qp.sqe 0⟩, rfl, fun _ => by rw [List.length_replicate]; rfl, rfl, rfl⟩
  have hq5 : m5.q 0 0 = q2 := setQueue_self m4 0 0 _
  let q3 : Queue := { q2 with pc := .checkCq (.check 0) false }
  have hcc : (m5.q 0 0).callCheck 0 = (q3, .none) := by
    rw [hq5]
    rfl
  have hn5 : c4.next cfg =
      .check 0 (fun b => if b then { c4 with pc := .wait 1 1 } else c4) := by rfl
  have h6 := steps_cpu h5 (@CpuStep.check cfg m5 0 0 0 _ rfl hn5 (by decide)
    (by simp [ridDid, cfg]) (by simp [ridDid]) (by simp [ridQid]) (by rw [hq5]; rfl))
  rw [hcc, answer_none] at h6
  let m6 : Machine := { m5.setQueue 0 0 q3 with mem := mem, busy := some (0, 0) }
  have h6 : (machine cfg).Steps m0 m6 := h6
  have hq6 : m6.q 0 0 = q3 := setQueue_self m5 0 0 _
  obtain ⟨hready, hempty, hdone⟩ : q3.qp.cqReady = true ∧ (q3.reap mem).1.qp.cqReady = false ∧
      (q3.reap mem).1.qp.doneFlag 0 = 1 :=
    first_reaped cfg default mem mem hr (by rw [List.length_replicate]; rfl) rfl rfl
  let q4 : Queue := { (q3.reap mem).1 with pc := .checkCq (.check 0) true }
  let mem' := (q3.reap mem).2
  let m7 : Machine := { m6.setQueue 0 0 q4 with mem := mem', busy := some (0, 0) }
  have hh4 : (m6.q 0 0).host cfg 0 0 mem = some (q4, mem', .none) := by
    rw [hq6]
    exact host_reap rfl hready
  have h7 : (machine cfg).Steps m0 m7 := steps_cpu h6 (.host rfl hh4)
  have hq7 : m7.q 0 0 = q4 := setQueue_self m6 0 0 _
  obtain ⟨q5, hh5, -⟩ : ∃ q', q4.host cfg 0 0 mem' =
      some (q', mem', .check 0 (q4.qp.done (ridCid 0).toNat)) ∧ q'.issued = q4.issued :=
    host_checked rfl hempty
  have hdone' : q4.qp.done (ridCid 0).toNat = true := by simp [QP.done, ridCid, q4, hdone]
  rw [hdone', ← hq7] at hh5
  have h8 := steps_cpu h7 (.host rfl hh5)
  rw [answer_check (m := m7) hn5] at h8
  have h9 := steps_cpu h8 (.tau (c := { c4 with pc := .outer }) rfl (by rfl))
  have hret : (c4.len ≤ c4.j) := by decide
  have hsize0 : myfsGetSize fs1 0 = 2097152 := by
    rw [← hsize]
    unfold myfsGetSize
    rw [hsb]
  exact ⟨fs1, m0, _, hsize0, hc, starts_fresh Nat.one_pos mem hc rfl, rfl, h9,
    ⟨rfl, next_ret.2 ⟨rfl, hret⟩⟩, rfl, rfl, List.cons_ne_nil _ _⟩

/-- The read of one sector is finished when it returns. -/
theorem io_finished_read : ∃ m, (machine ⟨1, 1, 1, 1⟩).Reach m ∧ m.Returned ⟨1, 1, 1, 1⟩ ∧
    m.call.kind = .read ∧ m.rqs ≠ [] ∧ m.AllChecked ∧ ∀ r ∈ m.rqs, ¬ m.Outstanding r := by
  obtain ⟨-, m0, m, -, -, hi, -, hs, hret, hk, hp, hr⟩ := read_sector_run
  have h : (machine ⟨1, 1, 1, 1⟩).Reach m := LTS.Reach.steps (.init hi) hs
  have hfit : (1 * 1 * QD : Nat) ≤ 2 ^ 31 := by
    rw [QD_eq]
    decide
  have hfin := io_finished h hret
  have hall := hfin.1 (.inl hk)
  exact ⟨m, h, hret, hk, hr, hall, fun r hr =>
    (hfin.2 Nat.one_pos hfit (by rw [hp])).1 r hr (hall r hr)⟩

end Hook

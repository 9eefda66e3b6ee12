import Staut.Backup.Proof.Client
import Staut.Hook.Proof.Frame

/-!
# Buffers and drives

The requests of one block: buffer `j` is moved from or to the 4 KB unit at `spot j`, a drive and an
address on it. The requests of the buffers below `n` are made, and those of the buffers below `lo`
have answered their checks.

* `Flight`: every command that is not reaped is the one of a buffer from `lo` to `n`.
* `Fetch`: reads. A buffer that no command is for holds the bytes of its unit.
* `Send`: writes. A unit that no command is for holds the bytes that are to be there.
-/

set_option autoImplicit false

namespace Backup

open CSem Run Myfs Nvme

theorem BUF_SIZE_eq : BUF_SIZE = 4096 := rfl

/-! ## Commands that are not reaped -/

/-- A command that is not reaped, with its request. -/
structure Live (q : Queue) (c : Cmd) (x : Issued) : Prop where
  mem : c ∈ q.live
  issued : q.issued[c.seq]? = some x

theorem Live.cmdOf {q : Queue} {c : Cmd} {x : Issued} (h : Live q c x)
    (hq : QInv q) : CmdOf c x := by
  obtain ⟨y, hy, hc⟩ := hq.live_cmd h.mem
  rw [h.issued] at hy
  cases hy
  exact hc

theorem live_of_mem {q : Queue} {c : Cmd} (hq : QInv q) (hc : c ∈ q.live) : ∃ x, Live q c x := by
  obtain ⟨x, hx, -⟩ := hq.live_cmd hc
  exact ⟨x, hc, hx⟩

theorem Quiet.live_iff {q q' : Queue} (h : Quiet q q') {c : Cmd} {x : Issued} :
    Live q' c x ↔ Live q c x := by
  constructor
  · intro hl
    have hm := hl.mem
    have hi := hl.issued
    rw [h.live] at hm
    rw [h.issued] at hi
    exact ⟨hm, hi⟩
  · intro hl
    refine ⟨?_, ?_⟩
    · rw [h.live]
      exact hl.mem
    · rw [h.issued]
      exact hl.issued

/-- The device completes a command: it is still not reaped. -/
theorem live_complete {q : Queue} (hq : QInv q) {k : Nat} {c : Cmd}
    (hc : q.dev.outstanding[k]? = some c) (data : List UInt8) {e : Cmd} {x : Issued} :
    Live (q.complete k c data) e x ↔ Live q e x := by
  have hmem : e ∈ (q.complete k c data).live ↔ e ∈ q.live := (hq.complete_live hc data).mem_iff
  constructor
  · exact fun hl => ⟨hmem.1 hl.mem, hl.issued⟩
  · exact fun hl => ⟨hmem.2 hl.mem, hl.issued⟩

/-- The oldest completion that waits is reaped. -/
theorem live_reap {q : Queue} (mem : Nat → UInt8) (p : Nvme.Pc) {d : Done}
    (hw : q.waiting = d :: (q.reap mem).1.waiting) {c : Cmd} {x : Issued} :
    (Live { (q.reap mem).1 with pc := p } c x → Live q c x) ∧
      (Live q c x → c = d.cmd ∨ Live { (q.reap mem).1 with pc := p } c x) := by
  have hmem : c ∈ q.live ↔ c = d.cmd ∨ c ∈ (q.reap mem).1.live :=
    (reap_live mem hw).mem_iff.trans List.mem_cons
  refine ⟨fun hl => ⟨hmem.2 (.inr hl.mem), hl.issued⟩, fun hl => ?_⟩
  exact (hmem.1 hl.mem).imp_right fun hm => ⟨hm, hl.issued⟩

section
variable (cfg : Cfg) (did : Nat) (q : Queue) (mem : Nat → UInt8) (r : Req)

/-- The command of a request, and the request. -/
def newCmd : Cmd := ⟨q.issued.length, (q.qp.request cfg mem r).sqe q.qp.sqTail⟩
def newIssued : Issued := ⟨r, q.qp.sqTail, ridOf cfg did 0 q.qp.sqTail⟩

theorem live_submit (hq : QInv q) {c : Cmd} {x : Issued} : Live (q.submit cfg did 0 mem r) c x ↔
    Live q c x ∨ (c = newCmd cfg q mem r ∧ x = newIssued cfg did q r) := by
  have hmem : c ∈ (q.submit cfg did 0 mem r).live ↔ c ∈ q.live ∨ c = newCmd cfg q mem r := by
    rw [(submit_live q cfg did 0 mem r).mem_iff, List.mem_cons, or_comm]
    rfl
  have hold : c ∈ q.live → (q.submit cfg did 0 mem r).issued[c.seq]? = q.issued[c.seq]? :=
    fun hc => by
    obtain ⟨y, hy, -⟩ := hq.live_cmd hc
    exact List.getElem?_append_left (List.getElem?_eq_some_iff.1 hy).1
  have hnew : (q.submit cfg did 0 mem r).issued[(newCmd cfg q mem r).seq]? =
      some (newIssued cfg did q r) := List.getElem?_concat_length
  constructor
  · intro hl
    rcases hmem.1 hl.mem with hc | rfl
    · exact .inl ⟨hc, (hold hc).symm.trans hl.issued⟩
    · have hx := hl.issued
      rw [hnew] at hx
      exact .inr ⟨rfl, (Option.some.inj hx).symm⟩
  · intro hl
    rcases hl with hl | ⟨rfl, rfl⟩
    · exact ⟨hmem.2 (.inl hl.mem), (hold hl.mem).trans hl.issued⟩
    · exact ⟨hmem.2 (.inr rfl), hnew⟩

end

/-! ## The requests of a block -/

section
variable (cfg : Cfg) (opc : Opc) (buf : Nat) (spot : Nat → Nat × Nat)

/-- A request for buffer `j`. -/
structure Asks (j : Nat) (r : Req) : Prop where
  opc : r.opc = opc
  numBlk : r.numBlk = 8
  len : r.len = BUF_SIZE
  buf : r.buf = buf + BUF_SIZE * j
  spot : spot j = ((driveOf cfg r.lba).toNat, 512 * cdw10Of cfg r.lba)

/-- The command `c` on drive `did`, of the request `x`, is the one of buffer `j`. -/
structure Owns (rid : Nat → Int) (did : Nat) (c : Cmd) (x : Issued) (j : Nat) : Prop where
  opc : x.req.opc = opc
  numBlk : x.req.numBlk = 8
  len : x.req.len = BUF_SIZE
  buf : x.req.buf = buf + BUF_SIZE * j
  spot : spot j = (did, 512 * c.sqe.cdw10)
  rid : x.rid = rid j

structure Flight (lo n : Nat) (rid : Nat → Int) (q : Nat → Queue) : Prop where
  owned : ∀ did < cfg.ND, ∀ c x, Live (q did) c x → ∃ j, lo ≤ j ∧ j < n ∧
    Owns opc buf spot rid did c x j
  rids : ∀ j, lo ≤ j → j < n → ∃ did < cfg.ND, ∃ x ∈ (q did).issued, x.rid = rid j

/-- No command is for buffer `j`. -/
def Unused (q : Nat → Queue) (j : Nat) : Prop :=
  ∀ did < cfg.ND, ∀ c x, Live (q did) c x → x.req.buf ≠ buf + BUF_SIZE * j

end

section
variable {cfg : Cfg} {opc : Opc} {buf : Nat} {spot : Nat → Nat × Nat} {lo n : Nat} {rid : Nat → Int}
  {q q' : Nat → Queue}

theorem Unused.of_live {j : Nat} (h : Unused cfg buf q' j)
    (hl : ∀ did < cfg.ND, ∀ c x, Live (q did) c x → Live (q' did) c x) : Unused cfg buf q j :=
  fun did hd c x hc => h did hd c x (hl did hd c x hc)

theorem Flight.of_live (h : Flight cfg opc buf spot lo n rid q)
    (hl : ∀ did < cfg.ND, ∀ c x, Live (q' did) c x → Live (q did) c x)
    (hi : ∀ did < cfg.ND, (q' did).issued = (q did).issued) :
    Flight cfg opc buf spot lo n rid q' := by
  refine ⟨fun did hd c x hc => h.owned did hd c x (hl did hd c x hc), fun j h1 h2 => ?_⟩
  obtain ⟨did, hd, x, hx, hr⟩ := h.rids j h1 h2
  refine ⟨did, hd, x, ?_, hr⟩
  rw [hi did hd]
  exact hx

/-- Nothing has been requested. -/
theorem live_new {did : Nat} (hq : ∃ m, q did = Queue.new 1 m) :
    (∀ c x, ¬ Live (q did) c x) ∧ (q did).dev = ⟨[], []⟩ := by
  obtain ⟨m, hm⟩ := hq
  rw [hm]
  refine ⟨fun c x hl => ?_, rfl⟩
  have hc : c ∈ (Queue.new 1 m).live := hl.mem
  simp [Queue.live, Queue.waiting, Queue.new] at hc

theorem Flight.new (hq : ∀ did, ∃ m, q did = Queue.new 1 m) : Flight cfg opc buf spot 0 0 rid q :=
  ⟨fun did _ c x hl => absurd hl ((live_new (hq did)).1 c x), fun j _ hj =>
    absurd hj (Nat.not_lt_zero j)⟩

/-- A buffer outside the range is not used. -/
theorem Flight.unused (h : Flight cfg opc buf spot lo n rid q) {j : Nat} (hj : j < lo ∨ n ≤ j) :
    Unused cfg buf q j := fun did hd c x hc he => by
  obtain ⟨k, h1, h2, ho⟩ := h.owned did hd c x hc
  have hb := ho.buf
  rw [BUF_SIZE_eq] at hb he
  omega

/-- All commands are reaped: the requests of the next block may begin. -/
theorem Flight.restart (h : Flight cfg opc buf spot lo n rid q) (hle : n ≤ lo)
    (spot' : Nat → Nat × Nat) (rid' : Nat → Int) : Flight cfg opc buf spot' 0 0 rid' q := by
  refine ⟨fun did hd c x hc => ?_, fun j _ hj => absurd hj (Nat.not_lt_zero j)⟩
  obtain ⟨j, h1, h2, -⟩ := h.owned did hd c x hc
  omega

/-- The check of buffer `lo` has answered. -/
theorem Flight.checked (h : Flight cfg opc buf spot lo n rid q) (hu : Unused cfg buf q lo) :
    Flight cfg opc buf spot (lo + 1) n rid q := by
  refine ⟨fun did hd c x hc => ?_, fun j h1 h2 => h.rids j (by omega) h2⟩
  obtain ⟨j, h1, h2, ho⟩ := h.owned did hd c x hc
  have hne := hu did hd c x hc
  rw [ho.buf] at hne
  exact ⟨j, Nat.lt_of_le_of_ne h1 fun he => hne (by rw [he]), h2, ho⟩

theorem Flight.rid_congr (h : Flight cfg opc buf spot lo n rid q) {rid' : Nat → Int}
    (hr : ∀ j < n, rid' j = rid j) : Flight cfg opc buf spot lo n rid' q := by
  refine ⟨fun did hd c x hc => ?_, fun j h1 h2 => ?_⟩
  · obtain ⟨j, h1, h2, ho⟩ := h.owned did hd c x hc
    exact ⟨j, h1, h2, ho.opc, ho.numBlk, ho.len, ho.buf, ho.spot, ho.rid.trans (hr j h2).symm⟩
  · rw [hr j h2]
    exact h.rids j h1 h2

end

/-! ## One queue pair changes -/

theorem forall_setQueue {N : Nat} {P : Nat → Queue → Prop} {s : Client} {did : Nat} {q : Queue}
    (h : ∀ d < N, P d (s.q d)) (hq : P did q) : ∀ d < N, P d ((s.setQueue did q).q d) := by
  intro d hd
  rw [setQueue_q]
  split
  · rename_i he
    rw [he]
    exact hq
  · exact h d hd

section
variable {cfg : Cfg} {opc : Opc} {buf : Nat} {spot : Nat → Nat × Nat} {lo n did : Nat}
  {rid : Nat → Int}
  {s : Client} {q : Queue}

theorem Unused.setQueue {j : Nat} (h : Unused cfg buf (s.setQueue did q).q j)
    (hl : ∀ c x, Live (s.q did) c x → Live q c x) : Unused cfg buf s.q j := by
  apply h.of_live
  intro d hd c x hc
  rw [setQueue_q]
  split
  · rename_i he
    rw [he] at hc
    exact hl c x hc
  · exact hc

theorem Unused.quiet {j : Nat} (h : Unused cfg buf s.q j) (hq : Quiet (s.q did) q) :
    Unused cfg buf (s.setQueue did q).q j := by
  apply h.of_live
  intro d hd c x hc
  rw [setQueue_q] at hc
  split at hc
  · rename_i he
    rw [he]
    exact hq.live_iff.1 hc
  · exact hc

theorem Flight.setQueue (h : Flight cfg opc buf spot lo n rid s.q)
    (hl : ∀ c x, Live q c x → Live (s.q did) c x) (hi : q.issued = (s.q did).issued) :
    Flight cfg opc buf spot lo n rid (s.setQueue did q).q := by
  apply h.of_live
  · intro d hd c x hc
    rw [setQueue_q] at hc
    split at hc
    · rename_i he
      rw [he]
      exact hl c x hc
    · exact hc
  · intro d hd
    rw [setQueue_q]
    split
    · rename_i he
      rw [he]
      exact hi
    · rfl

/-- A request is submitted for buffer `n`. -/
theorem Flight.submit (h : Flight cfg opc buf spot lo n rid s.q) (hq : Served cfg did (s.q did))
    (hd : did < cfg.ND) (mem : Nat → UInt8) {r : Req} (hr : Asks cfg opc buf spot n r)
    (hdid : did = (driveOf cfg r.lba).toNat) (hlo : lo ≤ n) :
    Flight cfg opc buf spot lo (n + 1) (Function.update rid n (ridOf cfg did 0 (s.q did).qp.sqTail))
      (s.setQueue did ((s.q did).submit cfg did 0 mem r)).q := by
  have hold : ∀ j < n, Function.update rid n (ridOf cfg did 0 (s.q did).qp.sqTail) j = rid j :=
    fun j hj => Function.update_of_ne (Nat.ne_of_lt hj) _ _
  have h' := h.rid_congr hold
  have hspot : spot n = (did, 512 * (newCmd cfg (s.q did) mem r).sqe.cdw10) := by
    rw [hr.spot, ← hdid]
    simp [newCmd]
  have hrid : (newIssued cfg did (s.q did) r).rid =
      Function.update rid n (ridOf cfg did 0 (s.q did).qp.sqTail) n := by
    rw [Function.update_self]
    simp only [newIssued]
  refine ⟨fun d hd c x hc => ?_, fun j h1 h2 => ?_⟩
  · rw [setQueue_q] at hc
    have hc : Live (s.q d) c x ∨ d = did ∧ c = newCmd cfg (s.q did) mem r ∧
        x = newIssued cfg did (s.q did) r := by
      split at hc
      · rename_i he
        rw [he]
        exact ((live_submit cfg did _ mem r hq.inv).1 hc).imp_right fun hx => ⟨rfl, hx⟩
      · exact .inl hc
    rcases hc with hc | ⟨rfl, rfl, rfl⟩
    · obtain ⟨j, h1, h2, ho⟩ := h'.owned d hd c x hc
      exact ⟨j, h1, Nat.lt_succ_of_lt h2, ho⟩
    · exact ⟨n, hlo, Nat.lt_succ_self n, hr.opc, hr.numBlk, hr.len, hr.buf, hspot, hrid⟩
  · rcases Nat.lt_succ_iff_lt_or_eq.1 h2 with h2 | rfl
    · obtain ⟨d, hd, x, hx, he⟩ := h'.rids j h1 h2
      refine ⟨d, hd, x, ?_, he⟩
      rw [setQueue_q]
      split
      · rename_i hdd
        rw [hdd] at hx
        exact List.mem_append_left _ hx
      · exact hx
    · refine ⟨did, hd, newIssued cfg did (s.q did) r, ?_, hrid⟩
      rw [setQueue_q, if_pos rfl]
      exact List.mem_append_right _ List.mem_cons_self

/-- The new command is for buffer `n`. -/
theorem Unused.submit {j : Nat} {mem : Nat → UInt8} {r : Req} (hq : QInv (s.q did))
    (hd : did < cfg.ND) (hr : Asks cfg opc buf spot n r)
    (h : Unused cfg buf (s.setQueue did ((s.q did).submit cfg did 0 mem r)).q j) :
    j ≠ n ∧ Unused cfg buf s.q j := by
  constructor
  · intro he
    have hl := (live_submit cfg did _ mem r hq).2 (.inr ⟨rfl, rfl⟩)
    refine h did hd (newCmd cfg (s.q did) mem r) (newIssued cfg did (s.q did) r) ?_ ?_
    · rw [setQueue_q, if_pos rfl]
      exact hl
    · rw [he]
      exact hr.buf
  · exact h.setQueue fun c x hc => (live_submit cfg did _ mem r hq).2 (.inl hc)

/-- The completion that is reaped next, with its request and buffer. -/
structure Oldest (opc : Opc) (buf : Nat) (spot : Nat → Nat × Nat) (rid : Nat → Int)
    (did : Nat) (q : Queue) (mem : Nat → UInt8) (d : Done) (x : Issued) (i : Nat) : Prop where
  posted : q.dev.posted[q.reaped.length]? = some d
  waiting : q.waiting = d :: (q.reap mem).1.waiting
  live : Live q d.cmd x
  owns : Owns opc buf spot rid did d.cmd x i

theorem Oldest.mem {mem : Nat → UInt8} {d : Done} {x : Issued} {i : Nat}
    (h : Oldest opc buf spot rid did q mem d x i) : d ∈ q.waiting := by
  rw [h.waiting]
  exact List.mem_cons_self

theorem Flight.oldest (h : Flight cfg opc buf spot lo n rid s.q) (hq : QInv (s.q did))
    (hd : did < cfg.ND) (mem : Nat → UInt8) (hr : (s.q did).qp.cqReady = true) :
    ∃ d x i, Oldest opc buf spot rid did (s.q did) mem d x i := by
  obtain ⟨d, hp, hw⟩ := reap_waiting mem (hq.cqReady_iff.1 hr)
  have hdw : d ∈ (s.q did).waiting := by
    rw [hw]
    exact List.mem_cons_self
  obtain ⟨x, hx⟩ := live_of_mem hq (List.mem_append_right _ (List.mem_map_of_mem hdw))
  obtain ⟨i, -, -, ho⟩ := h.owned did hd _ x hx
  exact ⟨d, x, i, hp, hw, hx, ho⟩

/-- The reaped command was for buffer `i`. -/
theorem Unused.reap {mem : Nat → UInt8} {d : Done} {x : Issued} {i j : Nat} {p : Nvme.Pc}
    (hold : Oldest opc buf spot rid did (s.q did) mem d x i) (hij : i ≠ j)
    (hu : Unused cfg buf (s.setQueue did { ((s.q did).reap mem).1 with pc := p }).q j) :
    Unused cfg buf s.q j := by
  intro e he c y hc hb
  apply hu e he c y _ hb
  rw [setQueue_q]
  split
  · rename_i hed
    rw [hed] at hc
    refine ((live_reap mem p hold.waiting).2 hc).resolve_left fun hcd => ?_
    rw [hcd] at hc
    have hxy : x = y := Option.some.inj (hold.live.issued.symm.trans hc.issued)
    have hb' := hold.owns.buf
    rw [hxy, hb, BUF_SIZE_eq] at hb'
    omega
  · exact hc

/-- A check that finds its flag set: no command is for its buffer. -/
theorem Flight.unused_of_done (h : Flight cfg opc buf spot lo n rid s.q)
    (hfit : cfg.ND * cfg.N_CORE * QD ≤ 2 ^ 31) (hcore : 0 < cfg.N_CORE)
    (hq : ∀ d < cfg.ND, Served cfg d (s.q d)) {j : Nat} (hdid : did = (ridDid cfg (rid j)).toNat)
    (hdone : (s.q did).qp.done (ridCid (rid j)).toNat = true) : Unused cfg buf s.q j := by
  intro d hd c x hc hb
  obtain ⟨k, -, -, ho⟩ := h.owned d hd c x hc
  have hkj : k = j := by
    have := ho.buf
    rw [BUF_SIZE_eq] at this hb
    omega
  obtain ⟨hlt, hx⟩ := (hq d hd).rids x (List.mem_of_getElem? hc.issued)
  obtain ⟨h1, -, h3⟩ := ridOf_decode hfit hd hcore hlt
  rw [← hkj, ← ho.rid, hx, h1, Int.toNat_natCast] at hdid
  rw [← hkj, ← ho.rid, hx, h3, Int.toNat_natCast, hdid] at hdone
  have hmem : x.cid ∈ (s.q d).liveCids :=
    List.mem_map.2 ⟨c, hc.mem, (hc.cmdOf (hq d hd).inv).cid⟩
  have hflag := ((hq d hd).inv.done _ hlt).2 hmem
  unfold QP.done at hdone
  simp [hflag] at hdone

end

/-! ## Bytes -/

/-- The bytes of the unit at `p`. -/
def unitBytes (D : Nat → Nat → UInt8) (p : Nat × Nat) : List UInt8 := load (D p.1) p.2 BUF_SIZE

@[simp] theorem length_unitBytes (D : Nat → Nat → UInt8) (p : Nat × Nat) :
    (unitBytes D p).length = BUF_SIZE := length_load _ _ _

theorem unitBytes_eq_iff {D D' : Nat → Nat → UInt8} {p : Nat × Nat} :
    unitBytes D p = unitBytes D' p ↔ ∀ k < BUF_SIZE, D p.1 (p.2 + k) = D' p.1 (p.2 + k) := by
  constructor
  · intro h k hk
    have := congrArg (fun l => l.getD k 0) h
    simpa only [unitBytes, getD_load hk] using this
  · exact load_congr

theorem load_store_buf (mem : Nat → UInt8) (a : Nat) {bs : List UInt8} (h : bs.length = BUF_SIZE) :
    load (store mem a bs) a BUF_SIZE = bs := by
  rw [← h]
  exact load_store_same _ _ _

/-- Another buffer. -/
theorem load_store_ne (mem : Nat → UInt8) (buf : Nat) {bs : List UInt8}
    (h : bs.length = BUF_SIZE) {i j : Nat} (hij : i ≠ j) :
    load (store mem (buf + BUF_SIZE * i) bs) (buf + BUF_SIZE * j) BUF_SIZE =
      load mem (buf + BUF_SIZE * j) BUF_SIZE := by
  apply load_congr
  intro k hk
  apply store_outside
  rw [h]
  rw [BUF_SIZE_eq] at hk ⊢
  omega

/-! ## Reads -/

section
variable (cfg : Cfg) (D : Nat → Nat → UInt8) (buf : Nat) (spot : Nat → Nat × Nat)

/-- The completions that wait have the bytes of their units. -/
def Got (did : Nat) (q : Queue) : Prop :=
  ∀ d ∈ q.waiting, d.data = unitBytes D (did, 512 * d.cmd.sqe.cdw10)

structure Fetch (lo n : Nat) (rid : Nat → Int) (q : Nat → Queue) (mem : Nat → UInt8) : Prop
    extends Flight cfg .read buf spot lo n rid q where
  got : ∀ did < cfg.ND, Got D did (q did)
  stored : ∀ j < n, Unused cfg buf q j →
    load mem (buf + BUF_SIZE * j) BUF_SIZE = unitBytes D (spot j)

end

section
variable {cfg : Cfg} {D : Nat → Nat → UInt8} {buf : Nat} {spot : Nat → Nat × Nat} {lo n did : Nat}
  {rid : Nat → Int} {s : Client} {q : Queue} {mem : Nat → UInt8}

theorem Fetch.new {q : Nat → Queue} (hq : ∀ did, ∃ m, q did = Queue.new 1 m) :
    Fetch cfg D buf spot 0 0 rid q mem := by
  refine ⟨.new hq, fun did _ d hd => ?_, fun j hj => absurd hj (Nat.not_lt_zero j)⟩
  simp [Queue.waiting, (live_new (hq did)).2] at hd

theorem Fetch.quiet (h : Fetch cfg D buf spot lo n rid s.q mem) (hd : did < cfg.ND)
    (hq : Quiet (s.q did) q) :
    Fetch cfg D buf spot lo n rid (s.setQueue did q).q mem := by
  refine ⟨h.toFlight.setQueue (fun c x => hq.live_iff.1) hq.issued, forall_setQueue h.got ?_,
    fun j hj hu => h.stored j hj (hu.setQueue fun c x => hq.live_iff.2)⟩
  unfold Got
  rw [hq.waiting]
  exact h.got did hd

/-- The oldest completion is copied to its buffer. -/
theorem Fetch.reap (h : Fetch cfg D buf spot lo n rid s.q mem) (hq : QInv (s.q did))
    (hd : did < cfg.ND) (hr : (s.q did).qp.cqReady = true) (p : Nvme.Pc) :
    Fetch cfg D buf spot lo n rid
      (s.setQueue did { ((s.q did).reap mem).1 with pc := p }).q ((s.q did).reap mem).2 := by
  obtain ⟨d, x, i, ho⟩ := h.toFlight.oldest hq hd mem hr
  have hdata := h.got did hd d ho.mem
  have hlen : d.data.length = BUF_SIZE := by
    rw [hdata, length_unitBytes]
  have hmem : ((s.q did).reap mem).2 = store mem (buf + BUF_SIZE * i) d.data := by
    rw [hq.reap_mem ho.posted ho.mem ho.live.issued, if_pos ho.owns.opc, ho.owns.buf, ho.owns.len,
      List.take_of_length_le (Nat.le_of_eq hlen)]
  refine ⟨h.toFlight.setQueue (fun c y => (live_reap mem p ho.waiting).1) rfl,
    forall_setQueue h.got fun e he => ?_, fun j hj hu => ?_⟩
  · apply h.got did hd e
    rw [ho.waiting]
    exact List.mem_cons_of_mem _ he
  · rw [hmem]
    by_cases hij : i = j
    · rw [← hij, load_store_buf _ _ hlen, hdata, ho.owns.spot]
    · rw [load_store_ne _ _ hlen hij]
      exact h.stored j hj (hu.reap ho hij)

/-- A drive executes a read. -/
theorem Fetch.exec (h : Fetch cfg D buf spot lo n rid s.q mem) (hq : QInv (s.q did))
    (hd : did < cfg.ND) {k : Nat} {c : Cmd} (hc : (s.q did).dev.outstanding[k]? = some c) :
    Fetch cfg D buf spot lo n rid
        (s.setQueue did ((s.q did).complete k c (Hook.execCmd (s.q did).qp (D did) c).1)).q mem ∧
      (Hook.execCmd (s.q did).qp (D did) c).2 = D did := by
  obtain ⟨x, hx⟩ := live_of_mem hq (List.mem_append_left _ (List.mem_of_getElem? hc))
  obtain ⟨i, -, -, ho⟩ := h.owned did hd c x hx
  have hcx := hx.cmdOf hq
  have hread : Hook.execCmd (s.q did).qp (D did) c =
    (unitBytes D (did, 512 * c.sqe.cdw10), D did) := by
    have hn := hcx.cdw12
    rw [ho.numBlk] at hn
    simp [Hook.execCmd, hcx.opc, ho.opc, hn, unitBytes, BUF_SIZE_eq]
  rw [hread]
  refine ⟨⟨h.toFlight.setQueue (fun e y => (live_complete hq hc _).1) rfl, forall_setQueue h.got
    fun d hd' => ?_, fun j hj hu =>
      h.stored j hj (hu.setQueue fun e y => (live_complete hq hc _).2)⟩, rfl⟩
  rw [hq.complete_waiting] at hd'
  rcases List.mem_append.1 hd' with hd' | hd'
  · exact h.got did hd d hd'
  · rw [List.mem_singleton.1 hd']

theorem Fetch.submit (h : Fetch cfg D buf spot lo n rid s.q mem) (hq : Served cfg did (s.q did))
    (hd : did < cfg.ND) {r : Req} (hr : Asks cfg .read buf spot n r)
    (hdid : did = (driveOf cfg r.lba).toNat) (hlo : lo ≤ n) : Fetch cfg D buf spot lo (n + 1)
      (Function.update rid n (ridOf cfg did 0 (s.q did).qp.sqTail))
      (s.setQueue did ((s.q did).submit cfg did 0 mem r)).q mem := by
  refine ⟨h.toFlight.submit hq hd mem hr hdid hlo, forall_setQueue h.got (h.got did hd),
    fun j hj hu => ?_⟩
  obtain ⟨hne, hu⟩ := hu.submit hq.inv hd hr
  exact h.stored j (Nat.lt_of_le_of_ne (Nat.le_of_lt_succ hj) hne) hu

theorem Fetch.checked {q : Nat → Queue} (h : Fetch cfg D buf spot lo n rid q mem)
    (hu : Unused cfg buf q lo) :
    Fetch cfg D buf spot (lo + 1) n rid q mem := ⟨h.toFlight.checked hu, h.got, h.stored⟩

theorem Fetch.restart {q : Nat → Queue} (h : Fetch cfg D buf spot lo n rid q mem) (hle : n ≤ lo)
    (spot' : Nat → Nat × Nat) (rid' : Nat → Int) : Fetch cfg D buf spot' 0 0 rid' q mem :=
  ⟨h.toFlight.restart hle spot' rid', h.got, fun j hj => absurd hj (Nat.not_lt_zero j)⟩

/-- A buffer whose check has answered. -/
theorem Fetch.take {q : Nat → Queue} (h : Fetch cfg D buf spot lo n rid q mem) {j : Nat}
    (hj : j < lo) (hn : j < n) :
    load mem (buf + BUF_SIZE * j) BUF_SIZE = unitBytes D (spot j) :=
  h.stored j hn (h.toFlight.unused (.inl hj))

end

/-! ## Writes -/

section
variable (cfg : Cfg) (D : Nat → Nat → UInt8) (buf : Nat) (spot : Nat → Nat × Nat)

/-- The bounce buffers of the commands that are not executed have the bytes of their units. -/
def Sent (did : Nat) (q : Queue) : Prop :=
  ∀ c ∈ q.dev.outstanding, q.qp.bounce c.sqe.cid BUF_SIZE = unitBytes D (did, 512 * c.sqe.cdw10)

/-- The units of the completions that wait are written. -/
def Put (disk : Nat → Nat → UInt8) (did : Nat) (q : Queue) : Prop := ∀ d ∈ q.waiting,
  unitBytes disk (did, 512 * d.cmd.sqe.cdw10) = unitBytes D (did, 512 * d.cmd.sqe.cdw10)

structure Send (lo n : Nat) (rid : Nat → Int) (q : Nat → Queue) (disk : Nat → Nat → UInt8) : Prop
    extends Flight cfg .write buf spot lo n rid q where
  sent : ∀ did < cfg.ND, Sent D did (q did)
  put : ∀ did < cfg.ND, Put D disk did (q did)
  stored : ∀ j < n, Unused cfg buf q j → unitBytes disk (spot j) = unitBytes D (spot j)

end

/-- A unit is written. -/
def writeUnit (D disk : Nat → Nat → UInt8) (p : Nat × Nat) : Nat → Nat → UInt8 :=
  Function.update disk p.1 (store (disk p.1) p.2 (unitBytes D p))

section
variable {D disk : Nat → Nat → UInt8} {p : Nat × Nat}

theorem writeUnit_inside {k : Nat} (hk : k < BUF_SIZE) :
    writeUnit D disk p p.1 (p.2 + k) = D p.1 (p.2 + k) := by
  unfold writeUnit
  rw [Function.update_self, store_inside (by rw [length_unitBytes]; exact hk)]
  exact getD_load hk

theorem writeUnit_outside {d x : Nat} (h : ∀ k < BUF_SIZE, (d, x) ≠ (p.1, p.2 + k)) :
    writeUnit D disk p d x = disk d x := by
  unfold writeUnit
  by_cases hd : d = p.1
  · rw [hd, Function.update_self]
    apply store_outside
    rw [length_unitBytes]
    apply Classical.byContradiction
    intro hin
    apply h (x - p.2) (by omega)
    rw [hd, Nat.add_sub_cancel' (by omega)]
  · rw [Function.update_of_ne hd]

/-- Only bytes of `D` are written. -/
theorem writeUnit_or (D disk : Nat → Nat → UInt8) (p : Nat × Nat) (d x : Nat) :
    writeUnit D disk p d x = disk d x ∨ writeUnit D disk p d x = D d x := by
  by_cases h : ∃ k < BUF_SIZE, (d, x) = (p.1, p.2 + k)
  · obtain ⟨k, hk, he⟩ := h
    cases he
    exact .inr (writeUnit_inside hk)
  · exact .inl (writeUnit_outside fun k hk he => h ⟨k, hk, he⟩)

theorem unitBytes_writeUnit (D disk : Nat → Nat → UInt8) (p : Nat × Nat) :
    unitBytes (writeUnit D disk p) p = unitBytes D p :=
  unitBytes_eq_iff.2 fun _ => writeUnit_inside

/-- A unit that is right stays right. -/
theorem unitBytes_keep {u : Nat × Nat} (h : unitBytes disk u = unitBytes D u) :
    unitBytes (writeUnit D disk p) u = unitBytes D u := by
  apply unitBytes_eq_iff.2
  intro k hk
  rcases writeUnit_or D disk p u.1 (u.2 + k) with hw | hw
  · exact hw.trans (unitBytes_eq_iff.1 h k hk)
  · exact hw

end

section
variable {cfg : Cfg} {D : Nat → Nat → UInt8} {buf : Nat} {spot : Nat → Nat × Nat} {lo n did : Nat}
  {rid : Nat → Int} {s : Client} {q : Queue} {disk : Nat → Nat → UInt8}

theorem Send.new {q : Nat → Queue} (hq : ∀ did, ∃ m, q did = Queue.new 1 m) :
    Send cfg D buf spot 0 0 rid q disk := by
  refine ⟨.new hq, fun did _ c hc => ?_, fun did _ d hd => ?_, fun j hj =>
    absurd hj (Nat.not_lt_zero j)⟩
  · rw [(live_new (hq did)).2] at hc
    cases hc
  · simp [Queue.waiting, (live_new (hq did)).2] at hd

theorem Send.quiet (h : Send cfg D buf spot lo n rid s.q disk) (hd : did < cfg.ND)
    (hq : Quiet (s.q did) q) :
    Send cfg D buf spot lo n rid (s.setQueue did q).q disk := by
  refine ⟨h.toFlight.setQueue (fun c x => hq.live_iff.1) hq.issued, forall_setQueue h.sent ?_,
    forall_setQueue h.put ?_, fun j hj hu => h.stored j hj (hu.setQueue fun c x => hq.live_iff.2)⟩
  · unfold Sent QP.bounce
    rw [hq.dev, hq.buf4k]
    exact h.sent did hd
  · unfold Put
    rw [hq.waiting]
    exact h.put did hd

/-- The oldest completion is reaped; nothing is copied. -/
theorem Send.reap (h : Send cfg D buf spot lo n rid s.q disk) (hq : QInv (s.q did))
    (hd : did < cfg.ND) (mem : Nat → UInt8) (hr : (s.q did).qp.cqReady = true) (p : Nvme.Pc) :
    Send cfg D buf spot lo n rid
        (s.setQueue did { ((s.q did).reap mem).1 with pc := p }).q disk ∧
      ((s.q did).reap mem).2 = mem := by
  obtain ⟨d, x, i, ho⟩ := h.toFlight.oldest hq hd mem hr
  have hmem : ((s.q did).reap mem).2 = mem := by
    rw [hq.reap_mem ho.posted ho.mem ho.live.issued, ho.owns.opc]
    exact if_neg nofun
  refine ⟨⟨h.toFlight.setQueue (fun c y => (live_reap mem p ho.waiting).1) rfl,
    forall_setQueue h.sent (h.sent did hd), forall_setQueue h.put fun e he => ?_,
    fun j hj hu => ?_⟩, hmem⟩
  · apply h.put did hd e
    rw [ho.waiting]
    exact List.mem_cons_of_mem _ he
  · by_cases hij : i = j
    · rw [← hij, ho.owns.spot]
      exact h.put did hd d ho.mem
    · exact h.stored j hj (hu.reap ho hij)

/-- A drive executes a write. -/
theorem Send.exec (h : Send cfg D buf spot lo n rid s.q disk) (hq : QInv (s.q did))
    (hd : did < cfg.ND) {k : Nat} {c : Cmd} (hc : (s.q did).dev.outstanding[k]? = some c) :
    ∃ j < n, Function.update disk did (Hook.execCmd (s.q did).qp (disk did) c).2 =
      writeUnit D disk (spot j) ∧ Send cfg D buf spot lo n rid
        (s.setQueue did ((s.q did).complete k c (Hook.execCmd (s.q did).qp (disk did) c).1)).q
        (Function.update disk did (Hook.execCmd (s.q did).qp (disk did) c).2) := by
  have hmem := List.mem_of_getElem? hc
  obtain ⟨x, hx⟩ := live_of_mem hq (List.mem_append_left _ hmem)
  obtain ⟨i, -, hi, ho⟩ := h.owned did hd c x hx
  have hcx := hx.cmdOf hq
  have hopc : c.sqe.opc = .write := hcx.opc.trans ho.opc
  have hexec : Hook.execCmd (s.q did).qp (disk did) c =
      ([], store (disk did) (512 * c.sqe.cdw10) (unitBytes D (did, 512 * c.sqe.cdw10))) := by
    have hn := hcx.cdw12
    rw [ho.numBlk] at hn
    rw [Hook.execCmd_write _ _ hopc, hn, hcx.prp1, ← hcx.cid, ← h.sent did hd c hmem]
    rfl
  have hwrite : Function.update disk did (Hook.execCmd (s.q did).qp (disk did) c).2 =
      writeUnit D disk (spot i) := by
    rw [hexec, ho.spot]
    rfl
  refine ⟨i, hi, hwrite, ?_⟩
  rw [hwrite]
  refine ⟨h.toFlight.setQueue (fun e y => (live_complete hq hc _).1) rfl, forall_setQueue h.sent
    fun e he => ?_, forall_setQueue (fun d hd' e he => unitBytes_keep (h.put d hd' e he))
      fun e he => ?_, fun j hj hu =>
    unitBytes_keep (h.stored j hj (hu.setQueue fun e y => (live_complete hq hc _).2))⟩
  · rw [← h.sent did hd e (List.mem_of_mem_eraseIdx he)]
    simp [Queue.complete, QP.complete, QP.bounce, hopc]
  · rw [hq.complete_waiting] at he
    rcases List.mem_append.1 he with he | he
    · exact unitBytes_keep (h.put did hd e he)
    · rw [List.mem_singleton.1 he]
      dsimp only
      rw [← ho.spot]
      exact unitBytes_writeUnit D disk (spot i)

/-- A request for a buffer that holds the bytes of its unit. -/
theorem Send.submit (h : Send cfg D buf spot lo n rid s.q disk) (hq : Served cfg did (s.q did))
    (hd : did < cfg.ND) {mem : Nat → UInt8} {r : Req} (hr : Asks cfg .write buf spot n r)
    (hdid : did = (driveOf cfg r.lba).toNat) (hlo : lo ≤ n)
    (hfree : (s.q did).qp.doneFlag (s.q did).qp.sqTail ≠ 0)
    (hmem : load mem (buf + BUF_SIZE * n) BUF_SIZE = unitBytes D (spot n)) :
    Send cfg D buf spot lo (n + 1) (Function.update rid n (ridOf cfg did 0 (s.q did).qp.sqTail))
      (s.setQueue did ((s.q did).submit cfg did 0 mem r)).q disk := by
  have hfits : r.Fits := ⟨.inr hr.opc, by rw [hr.numBlk]; decide, by rw [hr.numBlk]; decide,
    by rw [hr.numBlk, hr.len]; decide⟩
  refine ⟨h.toFlight.submit hq hd mem hr hdid hlo, forall_setQueue h.sent fun c hc => ?_,
    forall_setQueue h.put (h.put did hd), fun j hj hu => ?_⟩
  · rcases List.mem_append.1 hc with hc | hc
    · -- another command, so another bounce buffer
      have hne : c.sqe.cid ≠ (s.q did).qp.sqTail := fun he => by
        apply hfree
        rw [hq.inv.done _ hq.inv.tail, ← he]
        exact List.mem_map_of_mem (List.mem_append_left _ hc)
      rw [← h.sent did hd c hc]
      exact request_bounce_ne cfg _ mem hfits hne (Nat.le_refl _)
    · rw [List.mem_singleton.1 hc]
      have hb := request_bounce_same cfg (s.q did).qp mem r hr.opc
      rw [hr.len, hr.buf, hmem, hr.spot, ← hdid] at hb
      simpa [Queue.submit, hq.inv.sqeCid _ hq.inv.tail] using hb
  · obtain ⟨hne, hu⟩ := hu.submit hq.inv hd hr
    exact h.stored j (Nat.lt_of_le_of_ne (Nat.le_of_lt_succ hj) hne) hu

theorem Send.checked {q : Nat → Queue} (h : Send cfg D buf spot lo n rid q disk)
    (hu : Unused cfg buf q lo) :
    Send cfg D buf spot (lo + 1) n rid q disk := ⟨h.toFlight.checked hu, h.sent, h.put, h.stored⟩

theorem Send.restart {q : Nat → Queue} (h : Send cfg D buf spot lo n rid q disk) (hle : n ≤ lo)
    (spot' : Nat → Nat × Nat) (rid' : Nat → Int) : Send cfg D buf spot' 0 0 rid' q disk :=
  ⟨h.toFlight.restart hle spot' rid', h.sent, h.put, fun j hj => absurd hj (Nat.not_lt_zero j)⟩

/-- All checks have answered. -/
theorem Send.all {q : Nat → Queue} (h : Send cfg D buf spot lo n rid q disk) {j : Nat} (hj : j < lo)
    (hn : j < n) :
    unitBytes disk (spot j) = unitBytes D (spot j) := h.stored j hn (h.toFlight.unused (.inl hj))

end

end Backup

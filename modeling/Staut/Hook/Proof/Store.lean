import Staut.Hook.Proof.Transfer

/-!
# The file store refines a byte map

* `Body.below`, `Body.progress`: a call whose commands are executed at once goes on and comes to an
  end, in the order `Below` (bytes left, place in the loops, work of the queue pair).
* `Rest`: what holds between two calls, for every history (`rest_of_hist`).
* `store_refines`: what a read returns and what a write leaves alone.
* `read_never_returns`: builds whose request ids do not fit an `int`, or whose loops make no
  request.
-/

set_option autoImplicit false

namespace Hook

open CSem Run Myfs Nvme Cyclic

/-! ## Calls return -/

/-- Where a call is, in the order of a round at one offset. -/
def IoPc.rank : IoPc → Nat
  | .inner 0 => 0
  | .outer => 1
  | .wait n k => n - k + 2
  | .inner (n + 1) => n + 4

/-- What is left of the request or check that runs on a queue pair: each waiting completion is
reaped once. -/
def pollWork (q : Queue) : Nat :=
  match q.pc with
  | .newSqe _ => if q.waiting = [] then 1 else q.waiting.length + 3
  | .checkCq _ _ => q.waiting.length + 2
  | .idle => 0

def Machine.work (m : Machine) : Nat :=
  match m.busy with
  | none => QD + 4
  | some (did, c) => pollWork (m.q did c)

def Machine.rank (m : Machine) : Nat × Nat × Nat :=
  ((m.call.len - m.call.j).toNat, m.call.pc.rank, m.work)

/-- The lexicographic order. -/
def Below : Nat × Nat × Nat → Nat × Nat × Nat → Prop :=
  Prod.Lex (· < ·) (Prod.Lex (· < ·) (· < ·))

theorem below_wf : WellFounded (InvImage Below fun n : Node => n.m.rank) :=
  InvImage.wf _ (WellFounded.prod_lex Nat.lt_wfRel.wf (WellFounded.prod_lex Nat.lt_wfRel.wf
    Nat.lt_wfRel.wf))

theorem below_call {m m' : Machine} (hl : m'.call.len = m.call.len)
    (hj : m.call.j < m'.call.j) (hlt : m.call.j < m.call.len) : Below m'.rank m.rank := by
  refine .left _ _ ?_
  show (m'.call.len - m'.call.j).toNat < (m.call.len - m.call.j).toNat
  rw [hl]
  omega

theorem below_pc {m m' : Machine} (hl : m'.call.len = m.call.len) (hj : m'.call.j = m.call.j)
    (hp : m'.call.pc.rank < m.call.pc.rank) : Below m'.rank m.rank := by
  unfold Machine.rank
  rw [hl, hj]
  exact .right _ (.left _ _ hp)

theorem below_work {m m' : Machine} (hc : m'.call = m.call) (hw : m'.work < m.work) :
    Below m'.rank m.rank := by
  unfold Machine.rank
  rw [hc]
  exact .right _ (.right _ hw)

section
variable {cfg : Cfg} {a : Args} {s : Store} {n n' : Node} (hok : a.Ok cfg)
  (hfit : cfg.ND * cfg.N_CORE * QD ≤ 2 ^ 31) (hND : 0 < cfg.ND) (h : Body cfg a s n)
include h

theorem Body.waiting_le {did : Nat} (hd : did < cfg.ND) : (n.m.own did).waiting.length ≤ QD := by
  have := (h.ctl.own_inv hd).live_length
  rw [Queue.live, List.length_append, List.length_map] at this
  omega

theorem Body.pollWork_lt {did : Nat} (hd : did < cfg.ND) (p : Pc) :
    pollWork { n.m.own did with pc := p } < QD + 4 := by
  have hw : Queue.waiting { n.m.own did with pc := p } = (n.m.own did).waiting := rfl
  have hle := h.waiting_le hd
  unfold pollWork
  rw [hw]
  dsimp only
  split
  · split <;> omega
  · omega
  · omega

omit h in
/-- A step of the running request or check. -/
theorem below_busy {did : Nat} {q : Queue} (fs : State) (mem : Nat → UInt8)
    (disk : Nat → Nat → UInt8) (hw : pollWork q < n.m.work) : Below (Node.m ⟨{ n.m.setOwn did q with
      fs := fs
      mem := mem
      busy := some (did, n.m.call.coreId) }, disk⟩).rank n.m.rank := by
  refine below_work rfl ?_
  show pollWork ((n.m.setOwn did q).q did n.m.call.coreId) < _
  rw [own_setOwn, if_pos rfl]
  exact hw

omit h in
theorem work_busy {did : Nat} (hb : n.m.busy = some (did, n.m.call.coreId)) :
    n.m.work = pollWork (n.m.own did) := by
  unfold Machine.work
  rw [hb]
  rfl

omit h in
theorem work_free (hb : n.m.busy = none) : n.m.work = QD + 4 := by
  unfold Machine.work
  rw [hb]

include hok hfit hND in
/-- Every step goes down. -/
theorem Body.below (hdeg : 0 < deg cfg a.kind) (hs : n.step cfg = some n') :
    Below n'.m.rank n.m.rank := by
  have hctl := h.ctl.step hok hfit hND hs
  cases h.ctl.view hok hfit hs with
  | @tau c hb hn =>
    obtain ⟨hpc, -, rfl⟩ | ⟨k, hpc, hd, rfl⟩ | ⟨k, i, hpc, hk, rfl⟩ := next_tau hn
    · refine below_pc rfl rfl ?_
      rw [hpc]
      exact Nat.zero_lt_one
    · refine below_pc rfl rfl ?_
      cases k with
      | zero =>
        have hlt := h.ctl.shape.inner 0 hpc (.inl rfl)
        rw [h.ctl.shape.kind] at hd
        omega
      | succ k =>
        rw [hpc]
        show k + 1 - 0 + 2 < k + 4
        omega
    · refine below_pc rfl rfl ?_
      rw [hpc]
      show 1 < k - i + 2
      omega
  | @start did lba fs hb =>
    refine below_busy fs n.m.mem n.disk ?_
    rw [work_free hb]
    exact h.pollWork_lt (hctl.inv.busy _ _ rfl).1 _
  | @ask did rid cont hb hn hd =>
    refine below_busy n.m.fs n.m.mem n.disk ?_
    rw [work_free hb]
    exact h.pollWork_lt hd _
  | @poll did r hb hpc hw =>
    refine below_busy n.m.fs n.m.mem n.disk ?_
    rw [work_busy hb]
    simp only [pollWork, hpc, hw, ↓reduceIte]
    show (n.m.own did).waiting.length + 2 < _
    omega
  | @leave did r b hb hpc hw =>
    refine below_busy n.m.fs n.m.mem n.disk ?_
    rw [work_busy hb]
    have hw' : Queue.waiting { (n.m.own did).leaveCq b with pc := .newSqe r } = [] :=
      hw
    simp only [pollWork, hpc, hw, hw', ↓reduceIte]
    decide
  | @reap did c b hb hpc hr =>
    refine below_busy n.m.fs _ n.disk ?_
    rw [work_busy hb]
    obtain ⟨d, -, hwait⟩ := reap_waiting n.m.mem hr
    simp only [pollWork, hpc, hwait, List.length_cons]
    show ((n.m.own did).reap n.m.mem).1.waiting.length + 2 < _
    omega
  | @submit did k r q c rid hb hpc hpc' hlt =>
    obtain ⟨hw, -, -⟩ := h.ctl.shape.advance hok.len_le hlt
    have h0 := h.ctl.shape.j_nonneg
    have hpos := (h.ctl.shape.cut (by omega)).2.b_pos
    refine below_call rfl ?_ hlt
    show n.m.call.j < wrap32 (n.m.call.j + n.m.call.blksz)
    omega
  | @checked did q rid cont hn =>
    obtain ⟨k, i, hpc, hi, rfl, rfl⟩ := next_check hn
    refine below_pc rfl rfl ?_
    rw [hpc]
    show k - (i + 1) + 2 < k - i + 2
    omega

omit h in
theorem host_some {did coreId : Nat} {q : Queue} (mem : Nat → UInt8) (hpc : q.pc ≠ .idle) :
    ∃ r, q.host cfg did coreId mem = some r := by
  unfold Queue.host
  cases hp : q.pc with
  | idle => exact absurd hp hpc
  | newSqe r =>
    dsimp only
    split <;> exact ⟨_, rfl⟩
  | checkCq c b =>
    dsimp only
    split
    · exact ⟨_, rfl⟩
    · cases c <;> exact ⟨_, rfl⟩

omit h in
theorem step_of_cpu {m : Machine} (hm : n.m.cpu cfg = some m) : ∃ n', n.step cfg = some n' := by
  unfold Node.step
  rw [hm]
  exact ⟨_, rfl⟩

include hok in
/-- `myfs_get_lba` finds or allocates the block of the call's offset. -/
theorem Body.getLba_ok (hst : a.kind = .read → Stored s a) (hlt : n.m.call.j < n.m.call.len) :
    ∃ r, myfsGetLba n.m.fs a.file (a.pos + n.m.call.j.toNat) a.kind.flag = .ok r := by
  obtain ⟨-, hk, hmem⟩ := h.ctl.shape.offset hok hlt
  by_cases hf : (n.m.fs.sb.file a.file).block ((a.pos + n.m.call.j.toNat) / MYFS_BLOCK_SIZE) =
      INACTIVE_BLOCK
  · cases hkind : a.kind with
    | read =>
      rw [h.data.sb_read hkind] at hf
      exact absurd hf ((hst hkind).2 _ hmem)
    | write =>
      have hne := h.data.room.free h.data.ring (mem_missing.2 ⟨hmem, hf⟩) hkind
      have hb := (h.data.ring.alloc hok.file hk hf hne).2
      exact ⟨_, myfsGetLba_alloc _ (by decide) hk hf hb⟩
  · exact ⟨_, myfsGetLba_active _ hk hf⟩

include hok hfit hND in
/-- A call that has not returned has a next step. -/
theorem Body.progress (hst : a.kind = .read → Stored s a) :
    n.m.Returned cfg ∨ ∃ n', n.step cfg = some n' := by
  cases hb : n.m.busy with
  | some p =>
    obtain ⟨did, c⟩ := p
    obtain ⟨hd, rfl, hdo⟩ := h.ctl.inv.busy _ _ hb
    obtain ⟨⟨q, mem, o⟩, hh⟩ := @host_some cfg did n.m.call.coreId _ n.m.mem
      (fun hi : (n.m.q did n.m.call.coreId).pc = .idle => by rw [hi] at hdo; exact hdo)
    exact .inr (step_of_cpu (CpuStep.host hb hh).cpu)
  | none =>
    have hidle : ∀ did < cfg.ND, ∀ c < cfg.N_CORE, (n.m.q did c).pc = .idle := fun did hd c hc =>
      h.ctl.idle did hd c hc (by rw [hb]; exact nofun)
    cases hn : n.m.call.next cfg with
    | tau c => exact .inr (step_of_cpu (CpuStep.tau hb hn).cpu)
    | req offset write r cont =>
      obtain ⟨hlt, rfl, rfl, -⟩ := h.ctl.req_chunk hok hn
      obtain ⟨⟨lba, fs⟩, hg⟩ := h.getLba_ok hok hst hlt
      rw [← h.ctl.shape.hookfd] at hg
      exact .inr (step_of_cpu (CpuStep.req hb hn hg rfl
        (hidle _ (driveOf_lt hND _) _ h.ctl.inv.pairs.core)).cpu)
    | check rid cont =>
      obtain ⟨hdid, hcore⟩ := h.ctl.inv.check_core hfit hn
      obtain ⟨k, i, hpc, hi, rfl, -⟩ := next_check hn
      obtain ⟨did, hd, cid, hc, he⟩ := h.ctl.inv.ids i (by rw [hpc]; exact hi)
      obtain ⟨h1, -, -⟩ := ridOf_decode hfit hd h.ctl.inv.pairs.core hc
      have h0 : 0 ≤ ridOf cfg did n.m.call.coreId cid := by
        rw [ridOf_eq hfit hd h.ctl.inv.pairs.core hc]
        exact Int.natCast_nonneg _
      have hlt : ridDid cfg (n.m.call.rid i) < cfg.ND := by
        rw [he, h1]
        exact Int.ofNat_lt.2 hd
      exact .inr (step_of_cpu (CpuStep.check hb hn (he ▸ h0) hlt rfl rfl
        (hidle _ hdid _ (hcore ▸ h.ctl.inv.pairs.core))).cpu)
    | ret => exact .inl ⟨hb, hn⟩

include hok hfit hND in
theorem Body.returns (hdeg : 0 < deg cfg a.kind) (hst : a.kind = .read → Stored s a) :
    Evt (Node.step cfg) (fun n => n.m.Returned cfg) n := by
  refine Evt.of_wf (I := Body cfg a s) below_wf (fun n h => ?_) h
  refine (h.progress hok hfit hND hst).imp_right ?_
  rintro ⟨n', hs⟩
  exact ⟨n', hs, h.step hok hfit hND hs, h.below hok hfit hND hdeg hs⟩

/-- When the call returns, no read waits, and every byte of its range is in place. -/
theorem Body.returned (hret : n.m.Returned cfg) :
    (∀ did c d x, ¬ Waits (hists n.m.q) did c d x) ∧ n.m.call.j.toNat = n.m.call.len.toNat ∧
      ∀ o < n.m.call.len.toNat,
        content cfg n.m.fs.sb n.disk a.file (a.pos + o) = some (n.m.mem (a.buf + o)) := by
  obtain ⟨hpc, hj⟩ := next_ret.1 hret.2
  have hno : ∀ did c d x, ¬ Waits (hists n.m.q) did c d x := by
    intro did c d x hw
    obtain ⟨hk, hc, hkey, -⟩ := h.data.reads did c d x hw
    obtain ⟨r, hr, he⟩ := List.mem_map.1 hkey
    obtain ⟨rfl, hseq⟩ := Prod.mk.inj he
    -- its check has answered 1, so it has been reaped
    have hchk : r.checked = true := by
      refine (h.ctl.track (h.ctl.shape.kind.trans hk) r hr).resolve_right fun ha => ?_
      rw [IoCall.Awaits, hpc] at ha
      exact ha
    have hnot := h.ctl.inv.pairs.reaped r hr hchk
    have hq := h.ctl.own_inv (h.ctl.inv.pairs.owner r hr).1
    have hm := hw.mem
    rw [hc, ← h.ctl.shape.coreId] at hm
    exact hnot (hq.unreaped_iff.2
      ⟨d.cmd, List.mem_append_right _ (List.mem_map_of_mem hm), hseq.symm⟩)
  have hle := h.ctl.shape.j_le
  have hjl : n.m.call.j.toNat = n.m.call.len.toNat := by omega
  refine ⟨hno, hjl, fun o ho => (h.data.got o (by omega)).resolve_right ?_⟩
  rintro ⟨did, d, x, hw, -⟩
  exact hno _ _ _ _ hw

end

/-! ## Between calls -/

/-- The store between two calls: no call runs, no read waits, and the files hold at least the bytes
that `m` knows. -/
structure Rest (cfg : Cfg) (s : Store) (m : Bytes) : Prop where
  ring : Ring s.fs.sb
  queues : ∀ did < cfg.ND, ∀ c < cfg.N_CORE, SInv cfg did c (s.q did c)
  idle : ∀ did < cfg.ND, ∀ c < cfg.N_CORE, (s.q did c).pc = .idle
  executed : ∀ did < cfg.ND, ∀ c < cfg.N_CORE, (s.q did c).dev.outstanding = []
  reads : ∀ did c d x, ¬ Waits (hists s.q) did c d x
  holds : ∀ i < MYFS_MAX_FILES, ∀ x, x / MYFS_BLOCK_SIZE < MYFS_MAX_BLOCKS_PER_FILE →
    ∀ b, m i x = some b → content cfg s.fs.sb s.disk i x = some b

section
variable {cfg : Cfg} {a : Args} {s : Store} {m : Bytes}

theorem Rest.start (h : Rest cfg s m) (hok : a.Ok cfg) (hroom : Room s.fs.sb a) {fs : State}
    {c : IoCall} (hc : ioImpl a.kind s.fs a.file a.len a.pos a.buf a.coreId a.rid = .ok (fs, c)) :
    Body cfg a s (s.start fs c) := by
  have hsh := (ioImpl_shape hok hc).1
  have hj : c.j = 0 := (ioImpl_start hc).2.1
  obtain ⟨hfs, -, -, hpc⟩ := ioImpl_ok hc
  have hsb : fs.sb = s.fs.sb := by
    rw [hfs]
    exact incrementRef_sb _ _
  have hcount : ∀ k, ¬ k < c.pc.count := fun k hk => by
    rw [hpc] at hk
    exact Nat.not_lt_zero k hk
  have hinv : MInv cfg (s.start fs c).m := by
    refine MInv.start hc ?_ ?_ h.queues rfl rfl
    · show 0 ≤ c.pos
      rw [hsh.pos]
      exact Int.natCast_nonneg _
    · show c.coreId < _
      rw [hsh.coreId]
      exact hok.core
  refine ⟨⟨hinv, fun _ r hr => absurd hr List.not_mem_nil, hsh, h.executed,
    fun did hd c hc _ => h.idle did hd c hc, fun k hk => absurd hk (hcount k)⟩, ?_, nofun⟩
  show Data cfg a s fs.sb s.disk s.mem (hists s.q) c.j.toNat []
  rw [hj, hsb]
  exact ⟨h.ring, hroom, fun _ => rfl, fun _ _ => rfl, fun _ => rfl, fun _ _ _ _ _ _ h0 => h0,
    fun o ho => absurd ho (Nat.not_lt_zero o), fun did c d x hw => absurd hw (h.reads did c d x)⟩

/-- The call at its return. -/
theorem Rest.returned (h : Rest cfg s m) (hok : a.Ok cfg)
    (hfit : cfg.ND * cfg.N_CORE * QD ≤ 2 ^ 31) (hND : 0 < cfg.ND) (hroom : Room s.fs.sb a)
    {s' : Store} (hret : Returns cfg a s s') :
    ∃ n, Body cfg a s n ∧ n.m.Returned cfg ∧ n.finish = s' ∧
      (a.kind = .read → a.pos + a.len ≤ myfsGetSize s.fs a.file → n.m.call.len = a.len) := by
  obtain ⟨fs, c, hc, he⟩ := hret
  have hlen := (ioImpl_shape hok hc).2
  have hkeep := Evt.keep (I := fun n => Body cfg a s n ∧ n.m.call.len = c.len)
    (fun n n' hn hs => ⟨hn.1.step hok hfit hND hs, (node_track hs).args.len.trans hn.2⟩) he
    ⟨h.start hok hroom hc, rfl⟩
  obtain ⟨n, ⟨⟨hb, hl⟩, hr, hf⟩, -⟩ := hkeep.final
  exact ⟨n, hb, hr, hf, fun hk hle => hl.trans (hlen hk hle)⟩

/-- Block tables that agree. -/
theorem content_congr {sb sb' : Superblock} (h : ∀ i k, (sb'.file i).block k = (sb.file i).block k)
    (disk : Nat → Nat → UInt8) (i x : Nat) :
    content cfg sb' disk i x = content cfg sb disk i x := by
  unfold content
  rw [h]

theorem Rest.finish (h : Rest cfg s m) {n : Node} (hb : Body cfg a s n)
    (hret : n.m.Returned cfg) : Rest cfg n.finish (m.call a s.mem) := by
  obtain ⟨hno, hj, hgot⟩ := hb.returned hret
  have hfree : ∀ did c, n.m.busy ≠ some (did, c) := fun did c he => by
    rw [hret.1] at he
    cases he
  have hsb : n.finish.fs.sb = n.m.fs.sb := decrementRef_sb _ _
  refine ⟨by rw [hsb]; exact hb.data.ring, hb.ctl.inv.pairs.queues,
    fun did hd c hc => hb.ctl.idle did hd c hc (hfree did c), hb.ctl.executed, hno,
    fun i hi x hx b hm => ?_⟩
  rw [hsb]
  show content cfg n.m.fs.sb n.disk i x = some b
  cases hk : a.kind with
  | read =>
    simp only [Bytes.call, hk] at hm
    exact hb.data.old i hi x hx (fun hw => by rw [hk] at hw; cases hw) b (h.holds i hi x hx b hm)
  | write =>
    simp only [Bytes.call, hk] at hm
    have hlen := hb.ctl.shape.len_write hk
    split at hm
    · rename_i hin
      obtain ⟨rfl, hle, hlt⟩ := hin
      obtain ⟨o, rfl⟩ := Nat.exists_eq_add_of_le hle
      rw [Nat.add_sub_cancel_left] at hm
      rw [hgot o (by omega), hb.data.mem_write hk]
      exact hm
    · rename_i hin
      refine hb.data.old i hi x hx (fun _ he hle => ?_) b (h.holds i hi x hx b hm)
      apply Classical.byContradiction
      intro hlt
      exact hin ⟨he, hle, by omega⟩

/-- The store after any sequence of calls. -/
theorem rest_of_hist (hfit : cfg.ND * cfg.N_CORE * QD ≤ 2 ^ 31) (hND : 0 < cfg.ND)
    (h : Hist cfg s m) : Rest cfg s m := by
  induction h with
  | @init s sb hsb hq =>
    refine ⟨by rw [hsb]; exact (Owned.init sb).ring, fun did _ c _ => ?_, fun did _ c _ => ?_,
      fun did _ c _ => ?_, fun did c d x hw => ?_, nofun⟩ <;> obtain ⟨q, hq⟩ := hq did c
    · rw [hq]
      exact .new (Nat.succ_ne_zero _) q
    · rw [hq]
      rfl
    · rw [hq]
      rfl
    · have hm := hw.mem
      simp only [hists, hq] at hm
      exact absurd hm List.not_mem_nil
  | app mem _ ih => exact ⟨ih.ring, ih.queues, ih.idle, ih.executed, ih.reads, ih.holds⟩
  | @opened s m f i fs _ ho ih =>
    obtain ⟨hi, ⟨-, -, rfl⟩ | ⟨-, -, -, rfl⟩⟩ := myfsOpen_ok ho
    · exact ⟨ih.ring, ih.queues, ih.idle, ih.executed, ih.reads, ih.holds⟩
    · refine ⟨ih.ring.setFile hi rfl, ih.queues, ih.idle, ih.executed, ih.reads,
        fun j hj x hx b hm => ?_⟩
      rw [← ih.holds j hj x hx b hm]
      refine content_congr (fun l k => ?_) _ _ _
      rw [setFlags_sb, setFile_file]
      split
      · rename_i he
        rw [he]
      · rfl
  | closed i _ ih => exact ⟨ih.ring, ih.queues, ih.idle, ih.executed, ih.reads, ih.holds⟩
  | call _ hok hroom hret ih =>
    obtain ⟨n, hb, hr, rfl, -⟩ := ih.returned hok hfit hND hroom hret
    exact ih.finish hb hr

theorem ioImpl_isOk (hok : a.Ok cfg) (fs : State) : ∃ fs' c,
    ioImpl a.kind fs a.file a.len a.pos a.buf a.coreId a.rid = .ok (fs', c) := by
  have hpos : (a.pos : Int).tmod 512 = 0 := by
    show (a.pos : Int).tmod ((512 : Nat) : Int) = 0
    rw [← Int.ofNat_tmod, hok.pos]
    rfl
  cases hk : a.kind with
  | read =>
    simp only [ioImpl, readImpl, hpos, ne_eq, not_true_eq_false, ↓reduceIte]
    exact ⟨_, _, rfl⟩
  | write =>
    simp only [ioImpl, writeImpl, hpos, ne_eq, not_true_eq_false, ↓reduceIte]
    exact ⟨_, _, rfl⟩

theorem Rest.returns (h : Rest cfg s m) (hok : a.Ok cfg)
    (hfit : cfg.ND * cfg.N_CORE * QD ≤ 2 ^ 31) (hND : 0 < cfg.ND) (hdeg : 0 < deg cfg a.kind)
    (hroom : Room s.fs.sb a) (hst : a.kind = .read → Stored s a) : ∃ s', Returns cfg a s s' := by
  obtain ⟨fs, c, hc⟩ := ioImpl_isOk hok s.fs
  obtain ⟨n, hn, he⟩ := ((h.start hok hroom hc).returns hok hfit hND hdeg hst).final
  refine ⟨n.finish, fs, c, hc, he.mono ?_⟩
  rintro _ rfl
  exact ⟨hn, rfl⟩

/-- **The file store refines a byte map**: after any sequence of calls, when request ids fit an
`int` and the loops make requests, a read of stored blocks returns with the bytes last written, and
a write returns without changing any byte of another file or outside its range. -/
theorem store_refines (hND : 0 < cfg.ND) (hfit : cfg.ND * cfg.N_CORE * QD ≤ 2 ^ 31)
    (h : Hist cfg s m) (hok : a.Ok cfg) :
    (a.kind = .read → 0 < cfg.READ_DEG → Stored s a → (∃ s', Returns cfg a s s') ∧
      ∀ s', Returns cfg a s s' →
      ∀ o < a.len, ∀ b, m a.file (a.pos + o) = some b → s'.mem (a.buf + o) = b) ∧
    (a.kind = .write → Room s.fs.sb a → (0 < cfg.WRITE_DEG → ∃ s', Returns cfg a s s') ∧
      ∀ s', Returns cfg a s s' →
      ∀ i < MYFS_MAX_FILES, ∀ x, x / MYFS_BLOCK_SIZE < MYFS_MAX_BLOCKS_PER_FILE →
        (i ≠ a.file → content cfg s'.fs.sb s'.disk i x = content cfg s.fs.sb s.disk i x) ∧
        ((x < a.pos ∨ a.pos + a.len ≤ x) → ∀ b, content cfg s.fs.sb s.disk i x = some b →
          content cfg s'.fs.sb s'.disk i x = some b)) := by
  have hrest := rest_of_hist hfit hND h
  refine ⟨fun hk hrd hst => ?_, fun hk hroom => ?_⟩
  · have hroom : Room s.fs.sb a := fun hw => by
      rw [hk] at hw
      cases hw
    refine ⟨hrest.returns hok hfit hND (by rw [hk]; exact hrd) hroom fun _ => hst,
      fun s' hret o ho b hb => ?_⟩
    obtain ⟨n, hbody, hr, rfl, hlen⟩ := hrest.returned hok hfit hND hroom hret
    obtain ⟨-, -, hgot⟩ := hbody.returned hr
    have hl := hlen hk hst.1
    have hfits := hok.fits
    have hx : (a.pos + o) / MYFS_BLOCK_SIZE < MYFS_MAX_BLOCKS_PER_FILE :=
      Nat.div_lt_of_lt_mul (by rw [Nat.mul_comm]; omega)
    have hold := hbody.data.old a.file hok.file _ hx (fun hw => by rw [hk] at hw; cases hw) b
      (hrest.holds a.file hok.file _ hx b hb)
    rw [hgot o (by omega)] at hold
    exact Option.some.inj hold
  · refine ⟨fun hwd => hrest.returns hok hfit hND (by rw [hk]; exact hwd) hroom fun hr => ?_,
      fun s' hret i hi x hx => ?_⟩
    · rw [hk] at hr
      cases hr
    obtain ⟨n, hbody, hr, rfl, -⟩ := hrest.returned hok hfit hND hroom hret
    obtain ⟨-, hj, -⟩ := hbody.returned hr
    have hlen := hbody.ctl.shape.len_write hk
    have hsb : n.finish.fs.sb = n.m.fs.sb := decrementRef_sb _ _
    have hold : (i = a.file → x < a.pos ∨ a.pos + a.len ≤ x) → ∀ b,
        content cfg s.fs.sb s.disk i x = some b → content cfg n.m.fs.sb n.disk i x = some b :=
      fun hout b h0 => hbody.data.old i hi x hx (fun _ he hle => by have := hout he; omega) b h0
    rw [hsb]
    refine ⟨fun hne => ?_, fun hout b h0 => hold (fun _ => hout) b h0⟩
    show content cfg n.m.fs.sb n.disk i x = _
    cases hc : content cfg s.fs.sb s.disk i x with
    | some b => exact hold (fun he => absurd he hne) b hc
    | none =>
      rw [content_none] at hc ⊢
      rw [hbody.data.others i hne]
      exact hc

end

/-! ## One sector -/

section
variable {cfg : Cfg} {n : Node}

theorem step_tau {c : IoCall} (hb : n.m.busy = none) (hn : n.m.call.next cfg = .tau c) :
    n.step cfg = some ⟨{ n.m with call := c }, n.disk⟩ := by
  have hm := CpuStep.cpu (.tau hb hn)
  unfold Node.step
  rw [hm]
  simp only [hb, Option.map_some]

/-- A queue pair with nothing to wait for. -/
structure Ready (q : Queue) : Prop where
  pc : q.pc = .idle
  free : q.qp.doneFlag q.qp.sqTail ≠ 0
  outstanding : q.dev.outstanding = []

/-- A request on such a queue pair: its start, and its submission with the execution. -/
theorem steps_issue {did offset : Nat} {write lba : Int} {r : Int → Req} {cont : Int → IoCall}
    {fs : State} (hb : n.m.busy = none) (hn : n.m.call.next cfg = .req offset write r cont)
    (hg : myfsGetLba n.m.fs n.m.call.hookfd offset write = .ok (lba, fs))
    (hd : did = (driveOf cfg (r lba).lba).toNat) (hq : Ready (n.m.own did)) :
    ∃ n1 n2, n.step cfg = some n1 ∧ n1.m.busy ≠ none ∧ n1.step cfg = some n2 ∧
      n2.m.busy = none ∧ n2.m.fs = fs ∧ n2.m.mem = n.m.mem ∧
      n2.m.call = cont (ridOf cfg did n.m.call.coreId (n.m.own did).qp.sqTail) ∧
      (∀ d c, ¬ (d = did ∧ c = n.m.call.coreId) → n2.m.q d c = n.m.q d c) ∧
      (n2.m.q did n.m.call.coreId).pc = .idle ∧
      (n2.m.q did n.m.call.coreId).dev.outstanding = [] ∧
      (n2.m.q did n.m.call.coreId).qp.sqTail =
        ((n.m.own did).qp.sqTail + 1) % (n.m.own did).qp.nSqe ∧
      (n2.m.q did n.m.call.coreId).qp.doneFlag =
        Function.update (n.m.own did).qp.doneFlag (n.m.own did).qp.sqTail 0 ∧
      n2.disk = Function.update n.disk did (execCmd ((n.m.own did).qp.request cfg n.m.mem (r lba))
        (n.disk did) ⟨(n.m.own did).issued.length,
          ((n.m.own did).qp.request cfg n.m.mem (r lba)).sqe (n.m.own did).qp.sqTail⟩).2 := by
  have hs := CpuStep.req hb hn hg hd hq.pc
  obtain ⟨m1, hm1⟩ : ∃ m1 : Machine, m1 = { n.m.setQueue did n.m.call.coreId
      { n.m.q did n.m.call.coreId with pc := .newSqe (r lba) } with
        fs := fs
        busy := some (did, n.m.call.coreId) } := ⟨_, rfl⟩
  rw [← hm1] at hs
  have hq1 : m1.q did n.m.call.coreId = { n.m.own did with pc := .newSqe (r lba) } := by
    rw [hm1]
    exact setQueue_self n.m did n.m.call.coreId _
  have hcall : m1.call = n.m.call := by rw [hm1]; rfl
  have hbusy : m1.busy = some (did, n.m.call.coreId) := by rw [hm1]
  have hstep1 : n.step cfg = some ⟨m1, n.disk⟩ := by
    unfold Node.step
    rw [hs.cpu, hb]
    rfl
  obtain ⟨q, hqdef⟩ : ∃ q, q = (m1.q did n.m.call.coreId).submit cfg did n.m.call.coreId m1.mem
    (r lba) := ⟨_, rfl⟩
  have hhost : (m1.q did n.m.call.coreId).host cfg did n.m.call.coreId m1.mem =
      some (q, m1.mem, .rid (ridOf cfg did n.m.call.coreId (n.m.own did).qp.sqTail)) := by
    rw [hqdef, hq1]
    exact if_neg hq.free
  have hs2 : CpuStep cfg m1 _ := .host hbusy hhost
  rw [answer_rid (hcall ▸ hn)] at hs2
  have hout : q.dev.outstanding =
    [⟨(n.m.own did).issued.length, q.qp.sqe (n.m.own did).qp.sqTail⟩] := by
    rw [hqdef, hq1]
    show (n.m.own did).dev.outstanding ++ [_] = _
    rw [hq.outstanding]
    rfl
  have hstep2 : ∃ m2 : Machine, Node.step cfg ⟨m1, n.disk⟩ = some (Node.exec ⟨m2, n.disk⟩ did
      n.m.call.coreId) ∧ m2 = { m1.setQueue did n.m.call.coreId q with
        mem := m1.mem
        call := cont (ridOf cfg did n.m.call.coreId (n.m.own did).qp.sqTail)
        busy := none
        rqs := m1.rqs ++ [⟨did, (m1.q did n.m.call.coreId).issued.length,
          ridOf cfg did n.m.call.coreId (n.m.own did).qp.sqTail, false⟩] } := by
    refine ⟨_, ?_, rfl⟩
    unfold Node.step
    rw [hs2.cpu]
    simp only [hbusy, Option.map_some]
  obtain ⟨m2, hstep2, hm2⟩ := hstep2
  have hq2 : m2.q did n.m.call.coreId = q := by
    rw [hm2]
    exact setQueue_self m1 did n.m.call.coreId q
  rw [exec_cons (hq2 ▸ hout)] at hstep2
  have hfin : ∀ x, (m2.setQueue did n.m.call.coreId x).q did n.m.call.coreId = x := fun x =>
    setQueue_self m2 did _ x
  refine ⟨_, _, hstep1, ?_, hstep2, ?_, ?_, ?_, ?_, fun d c hne => ?_, ?_, ?_, ?_, ?_, ?_⟩
  · show m1.busy ≠ none
    rw [hbusy]
    exact Option.some_ne_none _
  · show m2.busy = none
    rw [hm2]
  · show m2.fs = fs
    rw [hm2]
    show m1.fs = fs
    rw [hm1]
  · show m2.mem = n.m.mem
    rw [hm2]
    show m1.mem = n.m.mem
    rw [hm1]
    rfl
  · show m2.call = _
    rw [hm2]
  · show (m2.setQueue did n.m.call.coreId _).q d c = _
    rw [setQueue_q, if_neg hne, hm2]
    show (m1.setQueue did n.m.call.coreId q).q d c = _
    rw [setQueue_q, if_neg hne, hm1]
    show (n.m.setQueue did n.m.call.coreId _).q d c = _
    rw [setQueue_q, if_neg hne]
  · rw [hfin, hq2, hqdef]
    rfl
  · rw [hfin, hq2]
    show q.dev.outstanding.eraseIdx 0 = []
    rw [hout]
    rfl
  · rw [hfin, hq2, hqdef, hq1]
    exact request_sqTail ..
  · rw [hfin, hq2, hqdef, hq1]
    exact request_doneFlag ..
  · dsimp only
    rw [hq2, hqdef, hq1, hm1]
    rfl

/-- The write of one sector to a new file. -/
theorem write_sector {s : Store} {f : CStr} {pos : Nat} (buf : Nat) (rid : Nat → Int)
    (hdeg : 0 < cfg.WRITE_DEG) (hsb : s.fs.sb = (openedFs f).sb)
    (hq : ∀ did coreId, ∃ m, s.q did coreId = Queue.new (coreId + 1) m) (hpos : pos % 512 = 0)
    (hk : pos / MYFS_BLOCK_SIZE < MYFS_MAX_BLOCKS_PER_FILE) :
    ∃ s', Returns cfg ⟨.write, 0, 512, pos, buf, 0, rid⟩ s s' ∧ s'.mem = s.mem ∧
      s'.fs.sb.file 0 = ⟨f, fun j => if j = pos / MYFS_BLOCK_SIZE then 0
        else if j < MYFS_MAX_BLOCKS_PER_FILE then INACTIVE_BLOCK else 0, 1⟩ ∧
      ∀ did, Ready (s'.q did 0) ∧ (s'.q did 0).qp.sqTail < 2 := by
  have hc := writeImpl_sector s.fs buf rid hpos
  have hu := u64_offset hk
  obtain ⟨fs, hg, -, -, hfile⟩ := opened_alloc ((incrementRef_sb s.fs 0).trans hsb) pos hk
  let c1 : IoCall := ⟨.write, 0, 512, pos, buf, 0, 512, 0, rid, .inner 0⟩
  let n1 : Node := s.start (myfsIncrementRef s.fs 0).1 c1
  have h1 : Node.step cfg (s.start (myfsIncrementRef s.fs 0).1 { c1 with pc := .outer }) =
    some n1 :=
    step_tau rfl rfl
  have hn : c1.next cfg = .req pos 1 (c1.request .write) (c1.after 0) := by
    show (if 0 < cfg.WRITE_DEG then Eff.req (u64 ((pos : Int) + 0)) 1 (c1.request .write)
      (c1.after 0) else _) = _
    rw [if_pos hdeg, hu]
  have hready : ∀ did, Ready (n1.m.q did 0) ∧ (n1.m.q did 0).qp.sqTail = 0 ∧
      (n1.m.q did 0).qp.doneFlag = (fun _ => 2) ∧ (n1.m.q did 0).qp.nSqe = QD := by
    intro did
    obtain ⟨m, hm⟩ := hq did 0
    show Ready (s.q did 0) ∧ _
    rw [show n1.m.q did 0 = Queue.new 1 m from hm, hm]
    exact ⟨⟨rfl, (fun h => by cases h), rfl⟩, rfl, rfl, rfl⟩
  obtain ⟨did, hdid⟩ : ∃ did, did = (driveOf cfg (c1.request .write (lbaOf 0 pos)).lba).toNat :=
    ⟨_, rfl⟩
  obtain ⟨n2, n3, h2, -, h3, hb, hfs, hmem, hcall, hqs, hpc, hout, htail, hflag, -⟩ :=
    steps_issue (n := n1) rfl hn hg hdid (hready did).1
  let c3 : IoCall := c1.after 0 (ridOf cfg did 0 (n1.m.own did).qp.sqTail)
  have hw : c3.pc = .wait 0 0 := by rfl
  have hn3 : n3.m.call.next cfg = .tau { c3 with pc := .outer } := by
    rw [hcall]
    show c3.next cfg = _
    unfold IoCall.next
    rw [hw]
    rfl
  have h4 := step_tau hb hn3
  have hret : Machine.Returned cfg { n3.m with call := { c3 with pc := .outer } } :=
    ⟨hb, next_ret.2 ⟨rfl, show (512 : Int) ≤ wrap32 (0 + 512) by decide⟩⟩
  refine ⟨_, ⟨_, _, hc, .next h1 (.next h2 (.next h3 (.next h4 (.here ⟨hret, rfl⟩))))⟩, hmem, ?_,
    fun d => ?_⟩
  · show (myfsDecrementRef n3.m.fs _).sb.file 0 = _
    rw [decrementRef_sb, hfs]
    exact hfile
  · show Ready (n3.m.q d 0) ∧ (n3.m.q d 0).qp.sqTail < 2
    have hown : ∀ d, n1.m.own d = n1.m.q d 0 := fun _ => rfl
    by_cases hd : d = did
    · rw [hown, (hready did).2.1] at hflag htail
      rw [(hready did).2.2.2, Nat.mod_eq_of_lt (by rw [QD_eq]; decide)] at htail
      rw [(hready did).2.2.1] at hflag
      rw [hd]
      have htail : (n3.m.q did 0).qp.sqTail = 1 := htail
      refine ⟨⟨hpc, ?_, hout⟩, by rw [htail]; decide⟩
      rw [htail]
      show (n3.m.q did n1.m.call.coreId).qp.doneFlag 1 ≠ 0
      rw [hflag]
      decide
    · rw [hqs d 0 fun h => hd h.1, (hready d).2.1]
      exact ⟨(hready d).1, by decide⟩

/-- The argument list of a transfer of one sector, between address 0 and a file in slot 0. -/
def sectorAt (kind : Kind) (pos : Nat) : Args := ⟨kind, 0, 512, pos, 0, 0, fun _ => 0⟩

theorem blocksOf_sector {pos : Nat} (hpos : pos + 512 ≤ MYFS_BLOCK_SIZE) :
    ∀ k ∈ blocksOf pos 512, k = 0 := by
  intro k hk
  obtain ⟨o, ho, rfl⟩ := Finset.mem_image.1 hk
  have := Finset.mem_range.1 ho
  exact Nat.div_eq_of_lt (by omega)

theorem sectorAt_ok (kind : Kind) {pos : Nat} (hcore : 0 < cfg.N_CORE) (hp : pos % 512 = 0)
    (hpos : pos + 512 ≤ MYFS_BLOCK_SIZE) : (sectorAt kind pos).Ok cfg := by
  have hM := MYFS_MAX_BLOCKS_PER_FILE_eq
  have hle : 1 * MYFS_BLOCK_SIZE ≤ MYFS_MAX_BLOCKS_PER_FILE * MYFS_BLOCK_SIZE :=
    Nat.mul_le_mul_right _ (by omega)
  rw [Nat.one_mul] at hle
  exact ⟨MYFS_MAX_FILES_pos, hcore, hp, show 512 % 512 = 0 by decide,
    show 512 ≤ 0x7ffff000 by decide, hpos.trans hle⟩

/-- A store whose only file has one sector of sevens, while the memory is all zero. -/
theorem hist_sector (hcore : 0 < cfg.N_CORE) (hdeg : 0 < cfg.WRITE_DEG) {pos : Nat}
    (hp : pos % 512 = 0) (hpos : pos + 512 ≤ MYFS_BLOCK_SIZE) :
    ∃ s m, Hist cfg s m ∧ Stored s (sectorAt .read pos) ∧ (∀ x, s.mem x = 0) ∧
      (∀ o < 512, m 0 (pos + o) = some 7) ∧ (s.fs.sb.file 0).block 0 = 0 ∧
      myfsGetSize s.fs 0 = MYFS_BLOCK_SIZE ∧
      ∀ did, Ready (s.q did 0) ∧ (s.q did 0).qp.sqTail < 2 := by
  have hN := NUM_BLOCKS_eq
  have hB := MYFS_BLOCK_SIZE_eq
  have hM := MYFS_MAX_BLOCKS_PER_FILE_eq
  have hdiv : pos / MYFS_BLOCK_SIZE = 0 := Nat.div_eq_of_lt (by omega)
  have h0 : Hist cfg ⟨freshFs, freshQueues, fun _ => 7, fun _ _ => 0⟩ fun _ _ => none :=
    .init fresh_sb fun _ _ => ⟨default, rfl⟩
  have h1 := h0.opened (open_fresh (f := ⟨[97], by decide⟩) (by decide)
    (by rw [MYFS_MAX_NAMELEN_eq]; decide))
  obtain ⟨s, hret, -, hfile, hready⟩ := write_sector 0 (fun _ => 0) hdeg
    (s := ⟨openedFs ⟨[97], by decide⟩, freshQueues, fun _ => 7, fun _ _ => 0⟩) rfl
    (fun _ _ => ⟨default, rfl⟩) hp (by rw [hdiv]; omega)
  rw [hdiv] at hfile
  have hroom : Room (openedFs ⟨[97], by decide⟩).sb (sectorAt .write pos) := by
    intro _
    have hlen : cycLen NUM_BLOCKS 0 (NUM_BLOCKS - 1) = NUM_BLOCKS - 1 :=
      cycLen_of_lt (by omega) (by omega)
    have hcard : (missing (openedFs ⟨[97], by decide⟩).sb (sectorAt .write pos)).card ≤ 512 :=
      (Finset.card_filter_le _ _).trans
        (Finset.card_image_le.trans (by rw [Finset.card_range]; rfl))
    rw [(opened_ring _).1, (opened_ring _).2.1, hlen]
    omega
  have h2 := (h1.call (sectorAt_ok .write hcore hp hpos) hroom hret).app fun _ => 0
  have hsize : myfsGetSize s.fs 0 = MYFS_BLOCK_SIZE := by
    unfold myfsGetSize
    rw [hfile, Nat.one_mul, Nat.mod_eq_of_lt (by rw [hB]; decide)]
  refine ⟨_, _, h2, ⟨?_, fun k hk => ?_⟩, fun _ => rfl, fun o ho => ?_, ?_, hsize, hready⟩
  · show pos + 512 ≤ myfsGetSize s.fs 0
    rw [hsize]
    exact hpos
  · rw [blocksOf_sector hpos k hk]
    show (s.fs.sb.file 0).block 0 ≠ _
    rw [hfile]
    exact fun h => by cases h
  · show (if _ then some _ else none) = some (7 : UInt8)
    rw [if_pos ⟨rfl, Nat.le_add_right pos o, Nat.add_lt_add_left ho pos⟩]
  · show (s.fs.sb.file 0).block 0 = 0
    rw [hfile]
    rfl

/-- A sector is written, and read back. -/
theorem store_refines_sector : ∃ s s' m, Hist ⟨1, 1, 1, 1⟩ s m ∧
    Returns ⟨1, 1, 1, 1⟩ (sectorAt .read 0) s s' ∧ (∀ x, s.mem x = 0) ∧ ∀ o < 512,
    s'.mem o = 7 := by
  have hB := MYFS_BLOCK_SIZE_eq
  let cfg : Cfg := ⟨1, 1, 1, 1⟩
  have hone : 0 < cfg.N_CORE ∧ 0 < cfg.ND ∧ 0 < cfg.READ_DEG ∧ 0 < cfg.WRITE_DEG := by decide
  have hfit : cfg.ND * cfg.N_CORE * QD ≤ 2 ^ 31 := by
    rw [QD_eq]
    decide
  have h0 : 0 % 512 = 0 := rfl
  obtain ⟨s, m, hh, hst, hmem, hm, -⟩ := hist_sector hone.1 hone.2.2.2 h0 (by omega)
  obtain ⟨⟨s', hret⟩, hall⟩ := (store_refines hone.2.1 hfit hh
    (sectorAt_ok .read hone.1 h0 (by omega))).1 rfl hone.2.2.1 hst
  refine ⟨s, s', m, hh, hret, hmem, fun o ho => ?_⟩
  have := hall s' hret o ho 7 (hm o ho)
  rwa [show (sectorAt .read 0).buf + o = o from Nat.zero_add o] at this

/-- `read_impl` of that sector, up to its loops. -/
theorem readImpl_sector {fs : State} {pos : Nat} (hsize : myfsGetSize fs 0 = MYFS_BLOCK_SIZE)
    (hp : pos % 4096 = 0) (hpos : pos + 512 ≤ MYFS_BLOCK_SIZE) :
    ioImpl .read fs 0 512 pos 0 0 (fun _ => 0) = .ok ((myfsIncrementRef fs 0).1,
      ⟨.read, 0, 512, pos, 0, 0, 512, 0, fun _ => 0, .outer⟩) := by
  have hB := MYFS_BLOCK_SIZE_eq
  have hu : u64 ((pos : Int) + 512) = pos + 512 := by
    unfold u64
    omega
  have h1 : (pos : Int).tmod 512 = 0 := by
    show (pos : Int).tmod ((512 : Nat) : Int) = 0
    rw [← Int.ofNat_tmod]
    omega
  have h2 : (pos : Int).tmod BLKSZ = 0 := by
    show (pos : Int).tmod ((4096 : Nat) : Int) = 0
    rw [← Int.ofNat_tmod, hp]
    rfl
  show readImpl fs 0 512 pos 0 0 (fun _ => 0) = _
  unfold readImpl
  dsimp only
  have hlen : (if pos + 512 > MYFS_BLOCK_SIZE then wrap64 (MYFS_BLOCK_SIZE - pos) else 512) = 512 :=
    if_neg (by omega)
  rw [incrementRef_size, hsize, hu, if_neg (not_not.2 h1), hlen, h2, if_pos (by decide)]
  rfl

/-- A read waits for an id that names no queue pair. -/
theorem read_stuck {s : Store} {pos : Nat} (hsize : myfsGetSize s.fs 0 = MYFS_BLOCK_SIZE)
    (hblk : (s.fs.sb.file 0).block 0 ≠ INACTIVE_BLOCK) (hp : pos % 4096 = 0)
    (hpos : pos + 512 ≤ MYFS_BLOCK_SIZE) (hdeg : cfg.READ_DEG = 1) {did : Nat}
    {lba : Int} (hl : lba = lbaOf ((s.fs.sb.file 0).block 0) pos)
    (hd : did = (driveOf cfg lba).toNat) (hq : Ready (s.q did 0))
    (hrid : ridOf cfg did 0 (s.q did 0).qp.sqTail < 0) (s' : Store) :
    ¬ Returns cfg (sectorAt .read pos) s s' := by
  rintro ⟨fs, c, hc, he⟩
  have hc' := readImpl_sector hsize hp hpos
  rw [show ioImpl .read s.fs 0 512 pos 0 0 (fun _ => 0) = .ok (fs, c) from hc] at hc'
  cases hc'
  have hM := MYFS_MAX_BLOCKS_PER_FILE_eq
  have hB := MYFS_BLOCK_SIZE_eq
  have hdiv : pos / MYFS_BLOCK_SIZE = 0 := Nat.div_eq_of_lt (by omega)
  have hu : u64 ((pos : Int) + 0) = pos := by
    unfold u64
    omega
  let fs := (myfsIncrementRef s.fs 0).1
  let c1 : IoCall := ⟨.read, 0, 512, pos, 0, 0, 512, 0, fun _ => 0, .inner 0⟩
  have hsb : fs.sb = s.fs.sb := incrementRef_sb _ _
  have h1 : Node.step cfg (s.start fs { c1 with pc := .outer }) = some (s.start fs c1) :=
    step_tau rfl rfl
  have hn : c1.next cfg = .req pos 0 (c1.request .read) (c1.after 0) := by
    show (if 0 < cfg.READ_DEG then Eff.req (u64 ((pos : Int) + 0)) 0 (c1.request .read) (c1.after 0)
      else _) = _
    rw [if_pos (by omega), hu]
  have hg : myfsGetLba fs 0 pos 0 = .ok (lba, fs) := by
    have := @myfsGetLba_active fs 0 pos 0 (by rw [hdiv]; omega) (by rw [hdiv, hsb]; exact hblk)
    rwa [hdiv, hsb, ← hl] at this
  obtain ⟨n2, n3, h2, hb2, h3, hb3, -, -, hcall, -⟩ :=
    steps_issue (n := s.start fs c1) rfl hn hg hd hq
  obtain ⟨c3, hc3, hr3, hp3, hk3⟩ : ∃ c3, n3.m.call = c3 ∧ c3.rid 0 < 0 ∧ c3.pc = .inner 1 ∧
      c3.kind = .read := by
    refine ⟨_, hcall, ?_, rfl, rfl⟩
    have hset : ∀ x : Int, (c1.after 0 x).rid 0 = x := fun x => by
      simp only [IoCall.after, IoCall.issued, Function.update_self]
    rw [hset]
    exact hrid
  have hn3 : n3.m.call.next cfg = .tau { c3 with pc := .wait 1 0 } := by
    rw [hc3]
    simp only [IoCall.next, hp3, hk3, hdeg, Nat.lt_irrefl, ↓reduceIte]
  have hn4 : IoCall.next cfg { c3 with pc := .wait 1 0 } = .check (c3.rid 0) fun b =>
      if b then { c3 with pc := .wait 1 1 } else { c3 with pc := .wait 1 0 } := by
    simp only [IoCall.next, Nat.one_pos, ↓reduceIte]
  -- up to the check no state has returned
  have he1 := he.tail h1 fun hr => by
    have := hr.1.2
    cases this
  have he2 := he1.tail h2 fun hr => by
    have := hr.1.2
    rw [show (s.start fs c1).m.call.next cfg = _ from hn] at this
    cases this
  have he3 := he2.tail h3 fun hr => hb2 hr.1.1
  have he4 := he3.tail (step_tau hb3 hn3) fun hr => by
    have := hr.1.2
    rw [hn3] at this
    cases this
  cases he4 with
  | here hr =>
    have := hr.1.2
    rw [hn4] at this
    cases this
  | next hs _ =>
    obtain ⟨m, hm, -⟩ := node_step hs
    cases cpu_step hm with
    | tau _ hn =>
      rw [hn4] at hn
      cases hn
    | req _ hn =>
      rw [hn4] at hn
      cases hn
    | check _ hn h0 =>
      rw [hn4] at hn
      cases hn
      omega
    | host hb =>
      rw [hb3] at hb
      cases hb

/-- A loop that makes no requests: no read returns. -/
theorem read_loops {s : Store} {pos : Nat} (hsize : myfsGetSize s.fs 0 = MYFS_BLOCK_SIZE)
    (hp : pos % 4096 = 0) (hpos : pos + 512 ≤ MYFS_BLOCK_SIZE) (hdeg : cfg.READ_DEG = 0)
    (s' : Store) : ¬ Returns cfg (sectorAt .read pos) s s' := by
  rintro ⟨fs, c, hc, he⟩
  have hc' := readImpl_sector hsize hp hpos
  rw [show ioImpl .read s.fs 0 512 pos 0 0 (fun _ => 0) = .ok (fs, c) from hc] at hc'
  cases hc'
  let I : Node → Prop := fun n => n.m.busy = none ∧ n.m.call.kind = .read ∧
    n.m.call.j < n.m.call.len ∧
    (n.m.call.pc = .outer ∨ n.m.call.pc = .inner 0 ∨ n.m.call.pc = .wait 0 0)
  refine Evt.never (I := I) (fun n n' h hs => ?_) (fun n h hr => ?_) ?_ he
  · obtain ⟨hb, hk, hj, hpc⟩ := h
    obtain ⟨c, hn, hc⟩ : ∃ c, n.m.call.next cfg = .tau c ∧ I ⟨{ n.m with call := c }, n.disk⟩ := by
      rcases hpc with hpc | hpc | hpc
      · refine ⟨{ n.m.call with pc := .inner 0 }, ?_, hb, hk, hj, .inr (.inl rfl)⟩
        simp only [IoCall.next, hpc, hj, ↓reduceIte]
      · refine ⟨{ n.m.call with pc := .wait 0 0 }, ?_, hb, hk, hj, .inr (.inr rfl)⟩
        simp only [IoCall.next, hpc, hk, hdeg, Nat.lt_irrefl, ↓reduceIte]
      · refine ⟨{ n.m.call with pc := .outer }, ?_, hb, hk, hj, .inl rfl⟩
        simp only [IoCall.next, hpc, Nat.lt_irrefl, ↓reduceIte]
    rw [step_tau hb hn] at hs
    cases hs
    exact hc
  · have := (next_ret.1 hr.1.2).2
    omega
  · exact ⟨rfl, rfl, show (0 : Int) < 512 by decide, .inl rfl⟩

/-- Two builds in which a read of a stored sector never returns: with 8192 cores and 512 drives the
id of a request on drive 256 is negative, and `nvme_check` looks up no queue pair; and with a degree
of 0 the read loop makes no request. -/
theorem read_never_returns :
    (∃ s m, Hist ⟨8192, 512, 1, 1⟩ s m ∧ (sectorAt .read 1048576).Ok ⟨8192, 512, 1, 1⟩ ∧
      Stored s (sectorAt .read 1048576) ∧ (∀ o < 512, m 0 (1048576 + o) = some 7) ∧
      ¬ ∃ s', Returns ⟨8192, 512, 1, 1⟩ (sectorAt .read 1048576) s s') ∧
    ∃ s m, Hist ⟨1, 1, 0, 1⟩ s m ∧ (sectorAt .read 0).Ok ⟨1, 1, 0, 1⟩ ∧
      Stored s (sectorAt .read 0) ∧ (∀ o < 512, m 0 (0 + o) = some 7) ∧
      ¬ ∃ s', Returns ⟨1, 1, 0, 1⟩ (sectorAt .read 0) s s' := by
  have hB := MYFS_BLOCK_SIZE_eq
  constructor
  · let cfg : Cfg := ⟨8192, 512, 1, 1⟩
    have hone : 0 < cfg.N_CORE ∧ 0 < cfg.WRITE_DEG := by decide
    have hp : 1048576 % 512 = 0 := rfl
    obtain ⟨s, m, hh, hst, -, hm, hblk, hsize, hq⟩ := hist_sector hone.1 hone.2 hp (by omega)
    refine ⟨s, m, hh, sectorAt_ok .read hone.1 hp (by omega), hst, hm, ?_⟩
    rintro ⟨s', hret⟩
    have hlba : lbaOf ((s.fs.sb.file 0).block 0) 1048576 = 2048 := by
      rw [hblk, lbaOf, hB]
      decide
    have hd : (256 : Nat) = (driveOf cfg 2048).toNat := by decide
    refine read_stuck hsize (by rw [hblk]; decide) rfl (by omega) rfl hlba.symm hd (hq 256).1 ?_ s'
      hret
    have hlt := (hq 256).2
    generalize (s.q 256 0).qp.sqTail = tail at hlt
    obtain rfl | rfl : tail = 0 ∨ tail = 1 := by omega
    all_goals
      rw [ridOf, QD_eq]
      decide
  · let cfg : Cfg := ⟨1, 1, 0, 1⟩
    have hone : 0 < cfg.N_CORE ∧ 0 < cfg.WRITE_DEG := by decide
    have hp : 0 % 512 = 0 := rfl
    obtain ⟨s, m, hh, hst, -, hm, -, hsize, -⟩ := hist_sector hone.1 hone.2 hp (by omega)
    refine ⟨s, m, hh, sectorAt_ok .read hone.1 hp (by omega), hst, hm, ?_⟩
    rintro ⟨s', hret⟩
    exact read_loops hsize rfl (by omega) rfl s' hret

end

end Hook

import Staut.Backup.Proof.Client

/-!
# A program comes to its end

`canFinish`: a program can finish from every state of an invariant, if its own steps leave less work
(`Goes`). The run executes the commands of the queue pair that the program waits for, and then lets
the program go on; it goes down in the order `Below` (work of the program, call to make, commands to
execute, work of the queue pair).
-/

set_option autoImplicit false

namespace Backup

open CSem Run Myfs Nvme

section
variable (cfg : Cfg) (next : Tool → Eff) (work : Tool → Nat)

/-- The next step of the program can be made, and less is left to do afterwards; a check is of the
id of some request. -/
def Goes (s : Client) : Prop :=
  match next s.tool with
  | .act f => ∃ t mem, f s.mem = some (t, mem) ∧ work t < work s.tool
  | .req _ k => ∀ rid, work (k rid) < work s.tool
  | .check rid k =>
    work (k true) < work s.tool ∧ ∃ did < cfg.ND, ∃ x ∈ (s.q did).issued, x.rid = rid
  | .ret => True

/-- What is left to do: for the program, until a call begins, for the drive that it waits for, and
for the running call. -/
def Client.rank (s : Client) : Nat × Nat × Nat × Nat :=
  match s.busy with
  | none => (work s.tool, 1, 0, 0)
  | some did => (work s.tool, 0, (s.q did).dev.outstanding.length, Hook.pollWork (s.q did))

end

/-- The lexicographic order. -/
def Below : Nat × Nat × Nat × Nat → Nat × Nat × Nat × Nat → Prop :=
  Prod.Lex (· < ·) (Prod.Lex (· < ·) (Prod.Lex (· < ·) (· < ·)))

theorem below_wf (work : Tool → Nat) : WellFounded (InvImage Below fun s : Client => s.rank work) :=
  InvImage.wf _ (WellFounded.prod_lex Nat.lt_wfRel.wf (WellFounded.prod_lex Nat.lt_wfRel.wf
    (WellFounded.prod_lex Nat.lt_wfRel.wf Nat.lt_wfRel.wf)))

section
variable {cfg : Cfg} {next : Tool → Eff} {work : Tool → Nat} {s s' : Client}

theorem rank_fst (work : Tool → Nat) (s : Client) : (s.rank work).1 = work s.tool := by
  unfold Client.rank
  split <;> rfl

theorem below_tool (h : work s'.tool < work s.tool) : Below (s'.rank work) (s.rank work) := by
  rw [← rank_fst work s', ← rank_fst work s] at h
  exact Prod.lex_def.2 (.inl h)

/-- A call begins. -/
theorem below_call {did : Nat} (hb : s.busy = none) (ht : s'.tool = s.tool)
    (hb' : s'.busy = some did) :
    Below (s'.rank work) (s.rank work) := by
  unfold Client.rank
  rw [hb, hb', ht]
  exact .right _ (.left _ _ Nat.one_pos)

/-- A command is executed. -/
theorem below_exec {did : Nat} {q : Queue} (disk : Nat → Nat → UInt8) (hb : s.busy = some did)
    (hlt : q.dev.outstanding.length < (s.q did).dev.outstanding.length) :
    Below (Client.rank work { s.setQueue did q with disk := disk }) (s.rank work) := by
  unfold Client.rank
  dsimp only
  rw [show (s.setQueue did q).busy = some did from hb, hb]
  dsimp only
  rw [setQueue_q, if_pos rfl]
  exact .right _ (.right _ (.left _ _ hlt))

/-- The call goes on. -/
theorem below_work {did : Nat} {q : Queue} (mem : Nat → UInt8) (hb : s.busy = some did)
    (hdev : q.dev = (s.q did).dev) (hlt : Hook.pollWork q < Hook.pollWork (s.q did)) :
    Below (Client.rank work { s.setQueue did q with
      mem := mem
      busy := some did }) (s.rank work) := by
  unfold Client.rank
  rw [hb]
  dsimp only
  rw [setQueue_q, if_pos rfl, hdev]
  exact .right _ (.right _ (.right _ hlt))

section
variable (h : Running cfg next s)
include h

/-- Nothing is left to execute or to reap: no flag is 0. -/
theorem Running.flags {did : Nat} (hd : did < cfg.ND) (ho : (s.q did).dev.outstanding = [])
    (hw : (s.q did).waiting = []) {cid : Nat} (hc : cid < QD) : (s.q did).qp.doneFlag cid ≠ 0 := by
  intro h0
  have hmem := ((h.queues did hd).inv.done cid hc).1 h0
  rw [Hook.live_nil ho hw] at hmem
  cases hmem

/-- The check of a request finds its queue pair. -/
theorem Running.decode (hfit : cfg.ND * cfg.N_CORE * QD ≤ 2 ^ 31)
    (hcore : 0 < cfg.N_CORE) {did : Nat} (hd : did < cfg.ND) {x : Issued}
    (hx : x ∈ (s.q did).issued) :
    0 ≤ x.rid ∧ ridDid cfg x.rid = did ∧ ridQid cfg x.rid = 1 ∧ (ridCid x.rid).toNat = x.cid ∧
    x.cid < QD := by
  obtain ⟨hlt, he⟩ := (h.queues did hd).rids x hx
  obtain ⟨h1, h2, h3⟩ := ridOf_decode hfit hd hcore hlt
  rw [he]
  refine ⟨?_, h1, h2, ?_, hlt⟩
  · rw [ridOf_eq hfit hd hcore hlt]
    exact Int.natCast_nonneg _
  · rw [h3, Int.toNat_natCast]

/-- The check answers when nothing is left to execute or to reap. -/
theorem Running.answered (hfit : cfg.ND * cfg.N_CORE * QD ≤ 2 ^ 31)
    (hcore : 0 < cfg.N_CORE) {did d : Nat} (hd : d < cfg.ND) {x : Issued} (hx : x ∈ (s.q d).issued)
    (hdid : did = (ridDid cfg x.rid).toNat) (ho : (s.q did).dev.outstanding = [])
    (hw : (s.q did).waiting = []) :
    (s.q did).qp.done (ridCid x.rid).toNat = true := by
  obtain ⟨-, h1, -, h3, hlt⟩ := h.decode hfit hcore hd hx
  rw [h1, Int.toNat_natCast] at hdid
  subst hdid
  have hne := h.flags hd ho hw hlt
  have hle := (h.queues did hd).marks x hx
  unfold QP.done
  rw [h3]
  exact decide_eq_true (by omega)

/-- The call that runs has a step, which goes down when its drive has no more commands. -/
theorem Running.goes_busy (hfit : cfg.ND * cfg.N_CORE * QD ≤ 2 ^ 31) (hcore : 0 < cfg.N_CORE)
    (hg : Goes cfg next work s) {did : Nat} (hb : s.busy = some did)
    (ho : (s.q did).dev.outstanding = []) :
    ∃ s', s.cpu cfg next = some s' ∧ Below (s'.rank work) (s.rank work) := by
  obtain ⟨hd, hdo⟩ := h.busy did hb
  obtain ⟨⟨q, mem, o⟩, hh⟩ := @Hook.host_some cfg did 0 _ s.mem
    (fun hi : (s.q did).pc = .idle => by rw [hi] at hdo; exact hdo)
  have hq := (h.queues did hd).inv
  refine ⟨s.answer next did q mem o, ?_, ?_⟩
  · unfold Client.cpu
    rw [hb]
    show Option.map _ ((s.q did).host cfg did 0 s.mem) = _
    rw [hh]
    rfl
  unfold Goes at hg
  cases host_step hh with
  | @poll r hpc h0 =>
    have hw : (s.q did).waiting ≠ [] := fun hw => h.flags hd ho hw hq.tail h0
    refine below_work s.mem hb rfl ?_
    simp only [Hook.pollWork, hpc, hw, ↓reduceIte]
    show (s.q did).waiting.length + 2 < _
    omega
  | @submit r hpc hfree =>
    rw [hpc] at hdo
    obtain ⟨⟨k, hn⟩, -⟩ := hdo
    rw [hn] at hg
    apply below_tool
    unfold Client.answer
    rw [hn]
    exact hg _
  | @reap c b hpc hr =>
    obtain ⟨d, -, hwait⟩ := reap_waiting s.mem (hq.cqReady_iff.1 hr)
    refine below_work _ hb rfl ?_
    simp only [Hook.pollWork, hpc, hwait, List.length_cons]
    show ((s.q did).reap s.mem).1.waiting.length + 2 < _
    omega
  | @leaveReq r b hpc hr =>
    have hw := (Hook.waiting_eq_nil hq).2 hr
    have hw' : Queue.waiting { (s.q did).leaveCq b with pc := .newSqe r } = [] :=
      hw
    refine below_work s.mem hb rfl ?_
    simp only [Hook.pollWork, hpc, hw, hw', ↓reduceIte]
    decide
  | @leaveCheck rid b hpc hr =>
    rw [hpc] at hdo
    obtain ⟨⟨k, hn⟩, hdid⟩ := hdo
    rw [hn] at hg
    obtain ⟨hlt, d, hd', x, hx, rfl⟩ := hg
    apply below_tool
    unfold Client.answer
    rw [hn, h.answered hfit hcore hd' hx hdid ho ((Hook.waiting_eq_nil hq).2 hr)]
    exact hlt

/-- A program between two calls has returned, or goes on. -/
theorem Running.goes_free (hfit : cfg.ND * cfg.N_CORE * QD ≤ 2 ^ 31) (hND : 0 < cfg.ND)
    (hcore : 0 < cfg.N_CORE) (hg : Goes cfg next work s) (hb : s.busy = none) :
    s.Finished next ∨ ∃ s', s.cpu cfg next = some s' ∧ Below (s'.rank work) (s.rank work) := by
  have hidle : ∀ did < cfg.ND, (s.q did).pc = .idle :=
    fun did hd => h.idle did hd (by rw [hb]; exact nofun)
  unfold Goes at hg
  unfold Client.cpu
  rw [hb]
  dsimp only
  cases hn : next s.tool with
  | act f =>
    rw [hn] at hg
    obtain ⟨t, mem, hf, hlt⟩ := hg
    dsimp only
    rw [hf]
    exact .inr ⟨_, rfl, below_tool hlt⟩
  | req r k =>
    dsimp only
    rw [hidle _ (Hook.driveOf_lt hND r.lba)]
    exact .inr ⟨_, rfl, below_call hb rfl rfl⟩
  | check rid k =>
    rw [hn] at hg
    obtain ⟨hlt, d, hd, x, hx, rfl⟩ := hg
    obtain ⟨h0, h1, h2, -, -⟩ := h.decode hfit hcore hd hx
    have hd1 : ridDid cfg x.rid < cfg.ND := by
      rw [h1]
      exact Int.ofNat_lt.2 hd
    have hd2 : (ridDid cfg x.rid).toNat < cfg.ND := by omega
    dsimp only
    rw [if_pos ⟨h0, hd1, h2⟩, hidle _ hd2]
    refine .inr ⟨_, rfl, ?_⟩
    unfold Queue.callCheck
    split
    · apply below_tool
      unfold Client.answer
      rw [hn]
      exact hlt
    · exact below_call hb rfl rfl
  | ret => exact .inl ⟨hb, hn⟩

end

end

section
variable {cfg : Cfg} {next : Tool → Eff} {work : Tool → Nat} {ssd : List UInt8}
  {disk : Nat → Nat → UInt8}

/-- A program whose own steps go down can finish. -/
theorem canFinish (hfit : cfg.ND * cfg.N_CORE * QD ≤ 2 ^ 31) (hND : 0 < cfg.ND)
    (hcore : 0 < cfg.N_CORE) {I : Client → Prop} (h0 : ∀ s, (client cfg next ssd disk).init s → I s)
    (hstep : ∀ s l s', I s → (client cfg next ssd disk).step s l s' → I s')
    (hrun : ∀ s, I s → Running cfg next s ∧ Goes cfg next work s) :
    CanFinish next (client cfg next ssd disk) := by
  intro s hs
  have hI : I s := LTS.ReachIf.induct h0 (fun s l s' h _ => hstep s l s' h) hs
  refine LTS.Steps.of_wf (below_wf work) (P := I) (fun s hI => ?_) hI
  obtain ⟨hr, hg⟩ := hrun s hI
  have hcpu : ∀ s', s.cpu cfg next = some s' → Below (s'.rank work) (s.rank work) →
      ∃ l s', (client cfg next ssd disk).step s l s' ∧ I s' ∧
      InvImage Below (fun s => s.rank work) s' s :=
    fun s' hs hlt => ⟨.cpu, s', hs, hstep s .cpu s' hI hs, hlt⟩
  cases hb : s.busy with
  | none =>
    refine (hr.goes_free hfit hND hcore hg hb).imp_right fun ⟨s', hs, hlt⟩ => ?_
    exact hcpu s' hs hlt
  | some did =>
    refine .inr ?_
    cases ho : (s.q did).dev.outstanding with
    | nil =>
      obtain ⟨s', hs, hlt⟩ := hr.goes_busy hfit hcore hg hb ho
      exact hcpu s' hs hlt
    | cons c cs =>
      -- the drive first executes what it has
      have hexec : ∃ s', s.exec did 0 = some s' ∧ Below (s'.rank work) (s.rank work) := by
        unfold Client.exec
        rw [ho]
        refine ⟨_, rfl, below_exec _ hb ?_⟩
        simp [Queue.complete, ho]
      obtain ⟨s', hs, hlt⟩ := hexec
      have hst : (client cfg next ssd disk).step s (.exec did 0) s' := ⟨(hr.busy did hb).1, hs⟩
      exact ⟨_, s', hst, hstep s _ s' hI hst, hlt⟩

end

end Backup

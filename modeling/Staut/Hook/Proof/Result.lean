import Staut.Hook.Result
import Staut.Hook.Proof.Frame
import Staut.Hook.Proof.Sizes

/-!
# When the result of a read is truthful

A hooked read returns its `count`, whatever `read_impl` did. This is what was stored exactly when
the range is within the file and every command succeeded, or `count` is 0 (`truthful_iff`).

* `Onward`: what a step does to the history of a queue pair; the data of completed reads has the
  length of the command.
* `Reads`: the requests of a read in progress add up to `j`, as far as `j` does not overflow; if it
  does, the loop does not end. So at the end they add up to the length that `read_impl` has left
  (`stored_le`).
* A read at a negative position with something left to read does not end either (`Stuck`).
-/

set_option autoImplicit false

namespace Hook

open CSem Run Myfs Nvme

/-! ## The history of a queue pair -/

/-- The data of the completed reads. -/
def Measured (q : Queue) : Prop :=
  ∀ d ∈ q.dev.posted, d.cmd.sqe.opc = .read → d.data.length = 512 * (d.cmd.sqe.cdw12 + 1)

structure Onward (q q' : Queue) : Prop where
  grows : Grows q q'
  measured : Measured q → Measured q'

theorem Onward.of_eq {q q' : Queue} (h1 : q'.issued = q.issued) (h2 : q'.dev = q.dev)
    (h3 : q'.reaped = q.reaped) : Onward q q' :=
  ⟨.of_eq h1 h2 h3, fun h => by unfold Measured; rw [h2]; exact h⟩

section
variable {cfg : Cfg} {did coreId : Nat}

theorem onward_host {q q' : Queue} {mem mem' : Nat → UInt8} {o : Out}
    (h : q.host cfg did coreId mem = some (q', mem', o)) : Onward q q' := by
  have hs := host_step h
  refine ⟨grows_host hs, fun hm => ?_⟩
  cases hs with
  | poll => exact hm
  | submit => exact hm
  | reap => exact hm
  | leaveReq =>
    unfold Measured
    rw [show (_ : Queue).dev = q.dev from leaveCq_dev q _]
    exact hm
  | leaveCheck =>
    unfold Measured
    rw [show (_ : Queue).dev = q.dev from leaveCq_dev q _]
    exact hm

theorem onward_callCheck (q : Queue) (rid : Int) : Onward q (q.callCheck rid).1 := by
  unfold Queue.callCheck
  split <;> exact .of_eq rfl rfl rfl

theorem onward_step {s s' : Queue × (Nat → UInt8)} {a : Act × Out}
    (hs : (queue cfg did coreId).step s a s') : Onward s.1 s'.1 := by
  refine ⟨grows_step hs, fun hm => ?_⟩
  obtain ⟨a, o⟩ := a
  cases a with
  | request r =>
    obtain ⟨-, -, -, -, rfl⟩ := hs
    exact hm
  | check rid =>
    obtain ⟨-, -, -, -, rfl, -⟩ := hs
    exact (onward_callCheck _ _).measured hm
  | host => exact (onward_host hs).measured hm
  | complete i data =>
    obtain ⟨c, -, hlen, -, rfl⟩ := hs
    intro d hd hr
    rcases List.mem_append.1 hd with hd | hd
    · exact hm d hd hr
    · rw [List.mem_singleton.1 hd] at hr ⊢
      exact hlen hr
  | app mem =>
    obtain ⟨-, rfl⟩ := hs
    exact hm

theorem measured_of_reach {s : Queue × (Nat → UInt8)} (h : (queue cfg did coreId).Reach s) :
    Measured s.1 := by
  refine LTS.ReachIf.induct (P := fun s => Measured s.1) ?_ ?_ h
  · intro s hi
    obtain ⟨m, hm⟩ := hi
    rw [hm]
    exact nofun
  · intro s a s' hm _ hs
    exact (onward_step hs).measured hm

end

theorem onward_setQueue {m : Machine} {did c : Nat} {q : Queue} (h : Onward (m.q did c) q)
    (d e : Nat) : Onward (m.q d e) ((m.setQueue did c q).q d e) := by
  rw [setQueue_q]
  split
  · rename_i he
    obtain ⟨rfl, rfl⟩ := he
    exact h
  · exact .of_eq rfl rfl rfl

theorem onward_machine {cfg : Cfg} {m m' : Machine} {l : MLabel} (h : (machine cfg).step m l m')
    (d e : Nat) : Onward (m.q d e) (m'.q d e) := by
  cases l with
  | cpu =>
    cases cpu_step h with
    | tau => exact .of_eq rfl rfl rfl
    | @req offset did write lba r =>
      exact onward_setQueue (q := { m.q did m.call.coreId with pc := .newSqe (r lba) })
        (.of_eq rfl rfl rfl) d e
    | check =>
      rw [answer_q]
      exact onward_setQueue (onward_callCheck _ _) d e
    | host _ hh =>
      rw [answer_q]
      exact onward_setQueue (onward_host hh) d e
  | queue did coreId a o =>
    obtain ⟨-, -, -, q, mem, hq, rfl⟩ := h
    exact onward_setQueue (onward_step hq) d e

/-! ## Requests -/

/-- The request that runs on a queue pair is the one of the round. -/
structure Asks (m : Machine) : Prop where
  kind : m.call.kind = .read
  asked : ∀ did r, m.busy = some (did, m.call.coreId) →
    (m.q did m.call.coreId).pc.req? = some r → ∃ lba, r = m.call.request .read lba

/-- What a step does to the requests of a read. -/
inductive ReadStep (m m' : Machine) : Prop
  | quiet : m'.rqs.map Rq.key = m.rqs.map Rq.key → m'.call.j = m.call.j → ReadStep m m'
  | issue {n did seq : Nat} {rid lba : Int} {x : Issued} : m.call.pc = .inner n →
      m.call.j < m.call.len → m'.call = m.call.after n rid →
      m'.rqs = m.rqs ++ [⟨did, seq, rid, false⟩] →
      (m'.q did m.call.coreId).issued[seq]? = some x → x.req = m.call.request .read lba →
      ReadStep m m'

section
variable {cfg : Cfg} {m m' : Machine}

theorem readStep_answer {did c : Nat} {q : Queue} {mem : Nat → UInt8} {o : Out}
    (ho : ∀ rid, o ≠ .rid rid) : ReadStep m (m.answer cfg did c q mem o) := by
  refine .quiet ?_ (answer_j m did c q mem ho)
  obtain he | ⟨rid, offset, write, r, cont, rfl, hn⟩ | ⟨rid, b, rid', cont, rfl, hn⟩ :=
    answer_cases cfg m did c q mem o
  · rw [he]
    rfl
  · exact absurd rfl (ho rid)
  · rw [answer_check hn]
    cases b with
    | true => exact key_check rid' m.rqs
    | false => rfl

theorem Asks.readStep_host (h : Asks m) {did : Nat} {q : Queue} {mem : Nat → UInt8} {o : Out}
    (hb : m.busy = some (did, m.call.coreId))
    (hh : (m.q did m.call.coreId).host cfg did m.call.coreId m.mem = some (q, mem, o)) :
    ReadStep m (m.answer cfg did m.call.coreId q mem o) := by
  cases host_step hh with
  | poll => exact readStep_answer nofun
  | reap => exact readStep_answer nofun
  | leaveReq => exact readStep_answer nofun
  | leaveCheck => exact readStep_answer nofun
  | @submit r hpc =>
    obtain ⟨lba, rfl⟩ := h.asked did r hb (by rw [hpc]; rfl)
    obtain he | ⟨rid, offset, write, r, cont, hrid, hn⟩ | ⟨rid, b, rid', cont, ho, -⟩ :=
      answer_cases cfg m did m.call.coreId
        ((m.q did m.call.coreId).submit cfg did m.call.coreId m.mem (m.call.request .read lba))
          m.mem
        (.rid (ridOf cfg did m.call.coreId (m.q did m.call.coreId).qp.sqTail))
    · rw [he]
      exact .quiet rfl rfl
    · obtain ⟨n, hpc', -, hlt, -, -, rfl⟩ := next_req hn
      rw [answer_rid hn]
      obtain ⟨x, hx, hr⟩ : ∃ x, ((m.q did m.call.coreId).submit cfg did m.call.coreId m.mem
          (m.call.request .read lba)).issued[(m.q did m.call.coreId).issued.length]? = some x ∧
          x.req = m.call.request .read lba := ⟨_, List.getElem?_concat_length, rfl⟩
      refine .issue hpc' (hlt h.kind) rfl rfl ?_ hr
      dsimp only
      rw [setQueue_self]
      exact hx
    · cases ho

theorem Asks.readStep (h : Asks m) (hi : MInv cfg m) {l : MLabel} (hs : (machine cfg).step m l m') :
    ReadStep m m' := by
  cases l with
  | cpu =>
    cases cpu_step hs with
    | tau _ hn =>
      obtain ⟨-, -, rfl⟩ | ⟨n, -, -, rfl⟩ | ⟨n, k, -, -, rfl⟩ :=
        next_tau hn <;> exact .quiet rfl rfl
    | req => exact .quiet rfl rfl
    | @check did coreId rid =>
      refine readStep_answer fun x hx => ?_
      unfold Queue.callCheck at hx
      split at hx <;> cases hx
    | @host did coreId q mem o hb hh =>
      obtain ⟨-, rfl, -⟩ := hi.busy did coreId hb
      exact h.readStep_host hb hh
  | queue did coreId a o =>
    obtain ⟨-, -, -, q, mem, -, rfl⟩ := hs
    exact .quiet rfl rfl

/-- An answer leaves the running request as it is, or nothing runs. -/
theorem Asks.answer (h : Asks m) {did c : Nat} {q : Queue} {mem : Nat → UInt8} {o : Out}
    (hq : c = m.call.coreId → ∀ r, q.pc.req? = some r → ∃ lba, r = m.call.request .read lba) :
    Asks (m.answer cfg did c q mem o) := by
  have hkind : (m.answer cfg did c q mem o).call.kind = .read :=
    (track_answer cfg m did c q mem o).args.kind.trans h.kind
  obtain he | ⟨rid, offset, write, r, cont, rfl, hn⟩ | ⟨rid, b, rid', cont, rfl, hn⟩ :=
    answer_cases cfg m did c q mem o
  · rw [he]
    refine ⟨h.kind, fun d r hb hr => ?_⟩
    have hb : some (did, c) = some (d, m.call.coreId) := hb
    have hr : ((m.setQueue did c q).q d m.call.coreId).pc.req? = some r := hr
    cases hb
    rw [setQueue_self] at hr
    exact hq rfl r hr
  · refine ⟨hkind, fun d r hb => ?_⟩
    rw [answer_rid hn] at hb
    cases hb
  · refine ⟨hkind, fun d r hb => ?_⟩
    rw [answer_check hn] at hb
    cases hb

theorem Asks.step (h : Asks m) {l : MLabel} (hs : (machine cfg).step m l m') : Asks m' := by
  cases l with
  | cpu =>
    cases cpu_step hs with
    | @tau c hb hn =>
      refine ⟨(@Track.tau cfg m.call m.rqs c hn).args.kind.trans h.kind, fun d r he => ?_⟩
      rw [hb] at he
      cases he
    | @req offset did write lba r cont fs hb hn =>
      obtain ⟨-, -, -, -, -, ⟨-, -, rfl⟩ | ⟨hw, -, -⟩, -⟩ := next_req hn
      · refine ⟨h.kind, fun d x he hx => ?_⟩
        have he : some (did, m.call.coreId) = some (d, m.call.coreId) := he
        have hx : ((m.setQueue did m.call.coreId { m.q did m.call.coreId with
          pc := .newSqe (m.call.request .read lba) }).q d m.call.coreId).pc.req? = some x := hx
        cases he
        rw [setQueue_self] at hx
        exact ⟨lba, (Option.some.inj hx).symm⟩
      · rw [h.kind] at hw
        cases hw
    | @check did coreId rid cont hb hn h0 hr hd hc hpc =>
      refine h.answer fun _ r hr => ?_
      unfold Queue.callCheck at hr
      split at hr
      · rw [hpc] at hr
        cases hr
      · cases hr
    | @host did coreId q mem o hb hh =>
      refine h.answer fun hcore r hr => ?_
      subst hcore
      have hrun := h.asked did r hb
      cases host_step hh with
      | poll hpc => exact hrun (by rw [hpc]; exact hr)
      | submit => cases hr
      | @reap c _ hpc =>
        refine hrun ?_
        rw [hpc]
        cases c <;> exact hr
      | leaveReq hpc => exact hrun (by rw [hpc]; exact hr)
      | leaveCheck => cases hr
  | queue did coreId a o =>
    obtain ⟨-, -, ha, q, mem, hq, rfl⟩ := hs
    refine ⟨h.kind, fun d r hb hr => ?_⟩
    have hx : ((m.setQueue did coreId q).q d m.call.coreId).pc.req? = some r := hr
    rw [setQueue_q] at hx
    split at hx
    · rename_i he
      obtain ⟨rfl, rfl⟩ := he
      -- on the call's own queue pair only the device runs while the call is busy
      rcases ha with ⟨i, data, rfl⟩ | hne | ⟨hy, -⟩
      · obtain ⟨c, -, -, -, hq⟩ := hq
        cases hq
        exact h.asked d r hb hx
      · exact absurd rfl hne
      · rw [show m.busy = some (d, m.call.coreId) from hb] at hy
        cases hy
    · exact h.asked d r hb hx

end

/-! ## The length of the requests -/

/-- `j` overflows before it gets to the end. -/
def Overflows (c : IoCall) : Prop := 2 ^ 31 - c.blksz < c.len

/-- The bytes a request asked for. -/
def Machine.lenOf (m : Machine) (k : Nat × Nat) : Nat :=
  match (m.q k.1 m.call.coreId).issued[k.2]? with
  | some x => x.req.len
  | none => 0

def Machine.asked (m : Machine) : Nat := ((m.rqs.map Rq.key).map m.lenOf).sum

/-- The requests of a read so far. -/
structure Reads (m : Machine) : Prop where
  asks : Asks m
  sizes : ∀ k ∈ m.rqs.map Rq.key, ∃ x, (m.q k.1 m.call.coreId).issued[k.2]? = some x ∧
    x.req.opc = .read ∧ 1 ≤ x.req.len
  sum : 0 < m.call.len → ¬ Overflows m.call →
    0 ≤ m.call.j ∧ (m.asked : Int) = min m.call.j m.call.len

section
variable {cfg : Cfg} {m m' : Machine} {l : MLabel}

/-- A step keeps the requests that were made. -/
theorem Reads.keep (h : Reads m) (hs : (machine cfg).step m l m') :
    ∀ k ∈ m.rqs.map Rq.key, ∃ x, (m'.q k.1 m'.call.coreId).issued[k.2]? = some x ∧
      x.req.opc = .read ∧ 1 ≤ x.req.len ∧ m'.lenOf k = m.lenOf k := by
  intro k hk
  obtain ⟨x, hx, hr, hl⟩ := h.sizes k hk
  have hx' := (onward_machine hs k.1 m.call.coreId).grows.issued _ _ hx
  rw [← (track_step hs).args.coreId] at hx'
  refine ⟨x, hx', hr, hl, ?_⟩
  unfold Machine.lenOf
  rw [hx', hx]

theorem Reads.step (h : Reads m) (hi : MInv cfg m) (hs : (machine cfg).step m l m') : Reads m' := by
  have ha := (track_step hs).args
  have hkeep := h.keep hs
  have hsame : (m.rqs.map Rq.key).map m'.lenOf = (m.rqs.map Rq.key).map m.lenOf :=
    List.map_congr_left fun k hk => (hkeep k hk).choose_spec.2.2.2
  cases h.asks.readStep hi hs with
  | quiet hk hj =>
    refine ⟨h.asks.step hs, fun k hm => ?_, fun h0 ho => ?_⟩
    · rw [hk] at hm
      obtain ⟨x, hx, hr, hl, -⟩ := hkeep k hm
      exact ⟨x, hx, hr, hl⟩
    · rw [ha.len] at h0
      unfold Machine.asked
      rw [hk, hsame, hj, ha.len]
      unfold Overflows at ho
      rw [ha.len, ha.blksz] at ho
      exact h.sum h0 ho
  | @issue n did seq rid lba x hpc hlt hcall hrqs hx hreq =>
    have h0 : 0 < m.call.len := by
      apply Classical.byContradiction
      intro hl
      have := (hi.idle (by omega)).1
      rw [hpc] at this
      cases this
    have hb := (hi.size h0).1
    have hlen : x.req.len = (min m.call.blksz (m.call.len - m.call.j)).toNat := by rw [hreq]; rfl
    have hkeys : m'.rqs.map Rq.key = m.rqs.map Rq.key ++ [(did, seq)] := by
      rw [hrqs, List.map_append]
      rfl
    rw [← ha.coreId] at hx
    refine ⟨h.asks.step hs, fun k hm => ?_, fun h0' ho => ?_⟩
    · rw [hkeys] at hm
      rcases List.mem_append.1 hm with hm | hm
      · obtain ⟨y, hy, hr, hl, -⟩ := hkeep k hm
        exact ⟨y, hy, hr, hl⟩
      · rw [List.mem_singleton.1 hm]
        exact ⟨x, hx, by rw [hreq]; rfl, by omega⟩
    · unfold Overflows at ho
      rw [ha.len, ha.blksz] at ho
      obtain ⟨hj, hsum⟩ := h.sum h0 ho
      have hnew : m'.lenOf (did, seq) = x.req.len := by
        unfold Machine.lenOf
        rw [hx]
      have hj' : m'.call.j = m.call.j + m.call.blksz := by
        rw [hcall]
        exact wrap32_of_range (by omega) (by omega)
      have hasked : m'.asked = m.asked + x.req.len := by
        unfold Machine.asked
        rw [hkeys, List.map_append, List.sum_append, hsame]
        simp [hnew]
      rw [hj', ha.len, hasked]
      omega

end

/-! ## Reads that do not end -/

/-- With a chunk size that divides `2 ^ 32`, `j` goes round without coming near the last multiples.
-/
structure Far (c : IoCall) : Prop where
  blksz : c.blksz = 512 ∨ c.blksz = 4096
  dvd : c.blksz ∣ c.j
  ge : -2 ^ 31 ≤ c.j
  le : c.j ≤ 2 ^ 31 - c.blksz

theorem Far.step {cfg : Cfg} {c c' : IoCall} {rqs rqs' : List Rq} (h : Far c)
    (ht : Track cfg c rqs c' rqs') : Far c' := by
  cases ht with
  | stay => exact h
  | tau hn =>
    obtain ⟨-, -, rfl⟩ | ⟨n, -, -, rfl⟩ | ⟨n, k, -, -, rfl⟩ := next_tau hn <;>
      exact ⟨h.blksz, h.dvd, h.ge, h.le⟩
  | issue =>
    obtain ⟨hd, hge, hle, -⟩ := advance_j h.blksz h.dvd h.ge h.le
    exact ⟨h.blksz, hd, hge, hle⟩
  | check => exact ⟨h.blksz, h.dvd, h.ge, h.le⟩

/-- An offset just below `2 ^ 64` is outside the block table. -/
theorem myfsGetLba_negative {pos : Int} (h1 : -2 ^ 31 ≤ pos) (h2 : pos < 0) (s : State) (i : Nat)
    (write : Int) : myfsGetLba s i (u64 pos) write = .error .outOfBounds := by
  have hblock : wrap32 ((u64 pos / MYFS_BLOCK_SIZE : Nat) : Int) < 0 := by
    rw [MYFS_BLOCK_SIZE_eq]
    unfold wrap32 u64
    rw [Int.bmod_def]
    split <;> omega
  unfold myfsGetLba
  dsimp only
  rw [if_pos (.inl hblock)]

/-- The call is at its first request. -/
structure Stuck (m : Machine) : Prop where
  busy : m.busy = none
  j : m.call.j = 0
  pc : m.call.pc = .outer ∨ m.call.pc = .inner 0 ∨ m.call.pc = .wait 0 0

theorem Stuck.step {cfg : Cfg} {m m' : Machine} {l : MLabel} (h : Stuck m)
    (h1 : -2 ^ 31 ≤ m.call.pos) (h2 : m.call.pos < 0)
    (hs : (machine cfg).step m l m') : Stuck m' := by
  cases l with
  | cpu =>
    cases cpu_step hs with
    | tau _ hn =>
      obtain ⟨-, -, rfl⟩ | ⟨n, hpc, -, rfl⟩ | ⟨n, k, -, -, rfl⟩ := next_tau hn
      · exact ⟨h.busy, h.j, .inr (.inl rfl)⟩
      · refine ⟨h.busy, h.j, .inr (.inr ?_)⟩
        rcases h.pc with hp | hp | hp
        · rw [hpc] at hp
          cases hp
        · rw [hpc] at hp
          cases hp
          rfl
        · rw [hpc] at hp
          cases hp
      · exact ⟨h.busy, h.j, .inl rfl⟩
    | req _ hn hg =>
      obtain ⟨-, -, -, -, rfl, -, -⟩ := next_req hn
      rw [h.j, Int.add_zero, myfsGetLba_negative h1 h2] at hg
      cases hg
    | check _ hn =>
      obtain ⟨n, k, hpc, hk, -, -⟩ := next_check hn
      rcases h.pc with hp | hp | hp
      · rw [hpc] at hp
        cases hp
      · rw [hpc] at hp
        cases hp
      · rw [hpc] at hp
        cases hp
        exact absurd hk (Nat.not_lt_zero _)
    | host hb =>
      rw [h.busy] at hb
      cases hb
  | queue did coreId a o =>
    obtain ⟨-, -, -, q, mem, -, rfl⟩ := hs
    exact ⟨h.busy, h.j, h.pc⟩

/-! ## Whole reads -/

/-- The length that `read_impl` has left. -/
def clampLen (size : Nat) (len pos : Int) : Int :=
  if u64 (pos + len) > size then wrap64 (size - pos) else len

theorem readImpl_ok {s fs : State} {i : Nat} {len pos : Int} {buf coreId : Nat} {rid : Nat → Int}
    {c : IoCall} (h : readImpl s i len pos buf coreId rid = .ok (fs, c)) :
    c.kind = .read ∧ c.pos = pos ∧ c.j = 0 ∧ c.pc = .outer ∧
      c.len = clampLen (myfsGetSize s i) len pos ∧
      (0 < c.len → c.blksz = c.len ∧ c.len ≤ 8192 ∨ c.blksz = 512 ∨ c.blksz = 4096) := by
  unfold readImpl at h
  dsimp only at h
  rw [incrementRef_size] at h
  split at h
  · cases h
  · cases h
    refine ⟨rfl, rfl, rfl, rfl, rfl, fun h0 => ?_⟩
    dsimp only at h0 ⊢
    generalize (if u64 (pos + len) > _ then _ else len : Int) = n at h0 ⊢
    have hB : (BLKSZ : Int) = 4096 := rfl
    split
    · rename_i hb
      have hlow := Int.lt_tmod_of_pos pos (show (0 : Int) < BLKSZ by omega)
      rw [wrap32_of_range (by omega) (by omega)]
      exact .inl ⟨rfl, by omega⟩
    · refine .inr ?_
      unfold blkszOf
      split
      · exact .inl rfl
      · exact .inr rfl

/-- What a read was called with. -/
structure ReadOf (s : Sys) (op : Io) (fd : Int) (count : Nat) (c : IoCall) : Prop where
  kind : c.kind = .read
  pos : c.pos = s.posOf op fd
  len : c.len = clampLen (s.size fd) (wrap64 count) (s.posOf op fd)
  blksz : 0 < c.len → c.blksz = c.len ∧ c.len ≤ 8192 ∨ c.blksz = 512 ∨ c.blksz = 4096

section
variable {cfg : Cfg} {s : Sys} {op : Io} {fd : Int} {count : Nat} {m : Machine}

theorem hookedRead_init (h : (hookedRead cfg s op fd count).init m) :
    m.Starts cfg ∧ ReadOf s op fd count m.call ∧ m.call.j = 0 ∧ m.call.pc = .outer := by
  obtain ⟨hst, hk, buf, rid, s', a, hio, hcalls, -, hcall⟩ := h
  refine ⟨hst, ?_⟩
  obtain ⟨-, -, ⟨-, rfl⟩ | ⟨i, fs, c, hi, hc, rfl⟩⟩ := hookIo_ok hio
  · simp at hcalls
  · obtain rfl : c = m.call := by
      rw [← hcall]
      simpa using congrArg (List.map Active.call) hcalls
    rw [hk] at hc
    obtain ⟨h1, h2, h3, h4, h5, h6⟩ := readImpl_ok hc
    refine ⟨⟨h1, h2, ?_, h6⟩, h3, h4⟩
    unfold Sys.size
    rw [hi, Int.toNat_natCast]
    exact h5

theorem machine_reach (h : (hookedRead cfg s op fd count).Reach m) : (machine cfg).Reach m := by
  induction h with
  | init hi => exact .init hi.1
  | step _ _ hs ih => exact ih.step trivial hs

theorem readOf_reach (h : (hookedRead cfg s op fd count).Reach m) :
    ReadOf s op fd count m.call := by
  refine LTS.ReachIf.induct (P := fun m => ReadOf s op fd count m.call) ?_ ?_ h
  · intro m hi
    exact (hookedRead_init hi).2.1
  · intro m l m' hm _ hs
    have ha := (track_step hs).args
    refine ⟨ha.kind.trans hm.kind, ha.pos.trans hm.pos, ha.len.trans hm.len, ?_⟩
    rw [ha.len, ha.blksz]
    exact hm.blksz

theorem measured_of_machine (h : (machine cfg).Reach m) :
    ∀ did < cfg.ND, ∀ c < cfg.N_CORE, Measured (m.q did c) := by
  refine LTS.ReachIf.induct
    (P := fun m => ∀ did < cfg.ND, ∀ c < cfg.N_CORE, Measured (m.q did c)) ?_ ?_ h
  · intro m hm did hd c hc
    obtain ⟨mem, hr⟩ := hm.queues did hd c hc
    exact measured_of_reach hr
  · intro m l m' hm _ hs did hd c hc
    exact (onward_machine hs did c).measured (hm did hd c hc)

theorem reads_reach (hND : 0 < cfg.ND) (hfit : cfg.ND * cfg.N_CORE * QD ≤ 2 ^ 31)
    (h0 : 0 ≤ s.posOf op fd) (h : (hookedRead cfg s op fd count).Reach m) : Reads m := by
  induction h with
  | @init m hi =>
    obtain ⟨hst, hc, hj, -⟩ := hookedRead_init hi
    refine ⟨⟨hc.kind, fun did r hb => ?_⟩, fun k hk => ?_, fun hl _ => ?_⟩
    · rw [hst.busy] at hb
      cases hb
    · rw [hst.rqs] at hk
      cases hk
    · unfold Machine.asked
      rw [hst.rqs, hj]
      exact ⟨Int.le_refl 0, (min_eq_left (Int.le_of_lt hl)).symm⟩
  | @step m m' l hr _ hs ih =>
    have hpos := (readOf_reach hr).pos
    exact ih.step (minv_of_reach hND hfit (machine_reach hr) (by rw [hpos]; exact h0)) hs

theorem far_reach (h : (hookedRead cfg s op fd count).Reach m) :
    0 < m.call.len → Overflows m.call → Far m.call := by
  refine LTS.ReachIf.induct (P := fun m => 0 < m.call.len → Overflows m.call → Far m.call) ?_ ?_ h
  · intro m hi hl ho
    obtain ⟨-, hc, hj, -⟩ := hookedRead_init hi
    unfold Overflows at ho
    have hb : m.call.blksz = 512 ∨ m.call.blksz = 4096 := by
      refine (hc.blksz hl).resolve_left fun h => ?_
      omega
    refine ⟨hb, by rw [hj]; exact Int.dvd_zero _, by omega, by omega⟩
  · intro m l m' hm _ hs hl ho
    have ht := track_step hs
    unfold Overflows at ho
    rw [ht.args.len] at hl ho
    rw [ht.args.blksz] at ho
    exact (hm hl ho).step ht

/-- A read that has something left at the end of its loop has not overflowed. -/
theorem not_overflows (h : (hookedRead cfg s op fd count).Reach m) (hret : m.Returned cfg)
    (hl : 0 < m.call.len) : ¬ Overflows m.call := by
  intro ho
  have hf := far_reach h hl ho
  have hge := (next_ret.1 hret.2).2
  have := hf.le
  unfold Overflows at ho
  omega

/-- At a negative position what is left reaches 0. -/
theorem clampLen_negative {size : Nat} {len pos : Int} (hs : size < 2 ^ 63) (hpos : pos < 0)
    (h1 : -2 ^ 63 ≤ pos) (h2 : len < 2 ^ 63) (h0 : 0 < clampLen size len pos) :
    -pos ≤ clampLen size len pos := by
  unfold clampLen at h0 ⊢
  split at h0
  · rename_i hu
    rw [if_pos hu]
    unfold wrap64 at h0 ⊢
    rw [Int.bmod_def] at h0 ⊢
    split at h0 <;> rename_i hb
    · rw [if_pos hb]
      omega
    · rw [if_neg hb]
      omega
  · rename_i hu
    rw [if_neg hu]
    unfold u64 at hu
    omega

theorem wrap64_range (x : Int) : -2 ^ 63 ≤ wrap64 x ∧ wrap64 x < 2 ^ 63 := by
  unfold wrap64
  rw [Int.bmod_def]
  split <;> omega

theorem posOf_range (hop : op.Fits) : -2 ^ 63 ≤ s.posOf op fd ∧ s.posOf op fd < 2 ^ 63 := by
  unfold Sys.posOf
  cases op with
  | read =>
    rw [Io.pos]
    exact wrap64_range _
  | write =>
    rw [Io.pos]
    exact wrap64_range _
  | pread pos => exact hop
  | pwrite pos => exact hop

theorem stuck_reach (hsize : s.size fd < 2 ^ 63) (hop : op.Fits) (hpos : s.posOf op fd < 0)
    (h : (hookedRead cfg s op fd count).Reach m) :
    0 < m.call.len → ¬ Overflows m.call → Stuck m := by
  induction h with
  | @init m hi =>
    obtain ⟨hst, -, hj, hpc⟩ := hookedRead_init hi
    exact fun _ _ => ⟨hst.busy, hj, .inl hpc⟩
  | @step m m' l hr _ hs ih =>
    intro hl ho
    have hc := readOf_reach hr
    have ha := (track_step hs).args
    unfold Overflows at ho
    rw [ha.len] at hl ho
    rw [ha.blksz] at ho
    have hb := hc.blksz hl
    have hneg := clampLen_negative hsize hpos (posOf_range hop).1 (wrap64_range count).2
      (by rw [← hc.len]; exact hl)
    rw [← hc.len] at hneg
    exact (ih hl ho).step (by rw [hc.pos]; omega) (by rw [hc.pos]; exact hpos) hs

/-- A read at a negative position returns only if nothing is left to read. -/
theorem nothing_left (hsize : s.size fd < 2 ^ 63) (hop : op.Fits) (hpos : s.posOf op fd < 0)
    (h : (hookedRead cfg s op fd count).Reach m) (hret : m.Returned cfg) : m.call.len ≤ 0 := by
  apply Classical.byContradiction
  intro hl
  have hst := stuck_reach hsize hop hpos h (by omega) (not_overflows h hret (by omega))
  have hge := (next_ret.1 hret.2).2
  rw [hst.j] at hge
  exact hl hge

/-- At the end the requests add up to what was left to read. -/
theorem asked_eq (hND : 0 < cfg.ND) (hfit : cfg.ND * cfg.N_CORE * QD ≤ 2 ^ 31)
    (h0 : 0 ≤ s.posOf op fd) (h : (hookedRead cfg s op fd count).Reach m) (hret : m.Returned cfg) :
    (m.asked : Int) = max 0 m.call.len := by
  rcases Int.lt_or_le 0 m.call.len with hl | hl
  · obtain ⟨-, hsum⟩ := (reads_reach hND hfit h0 h).sum hl (not_overflows h hret hl)
    have hge := (next_ret.1 hret.2).2
    omega
  · have hnil := ((track_of_reach (machine_reach h)).2 hl).2.2
    unfold Machine.asked
    rw [hnil, max_eq_left hl]
    rfl

/-- At the end `check_cq` has stored for each request what it asked for. -/
theorem bytesOf_eq (hND : 0 < cfg.ND) (hfit : cfg.ND * cfg.N_CORE * QD ≤ 2 ^ 31)
    (h0 : 0 ≤ s.posOf op fd) (h : (hookedRead cfg s op fd count).Reach m) (hret : m.Returned cfg)
    {r : Rq} (hr : r ∈ m.rqs) : m.bytesOf r = m.lenOf r.key ∧ 1 ≤ m.bytesOf r := by
  have hm := machine_reach h
  have hc := readOf_reach h
  have hi := minv_of_reach hND hfit hm (by rw [hc.pos]; exact h0)
  obtain ⟨x, hx, hread, hlen⟩ := (reads_reach hND hfit h0 h).sizes r.key (List.mem_map_of_mem hr)
  have hd := (hi.pairs.owner r hr).1
  have hq := (hi.pairs.queues _ hd _ hi.pairs.core).inv
  have hdone := hi.pairs.reaped r hr (checked_of_returned hm hret (.inl hc.kind) r hr)
  have hlt := (List.getElem?_eq_some_iff.1 hx).1
  -- the completion of the request is among the reaped ones
  obtain ⟨d, hdm, hseq⟩ := (hq.live_or_reaped hlt).resolve_left fun hl =>
    hdone (hq.unreaped_iff.2 hl)
  obtain ⟨e, he⟩ := Option.isSome_iff_exists.1
    (List.find?_isSome (p := fun d : Done => decide (d.cmd.seq = r.seq)).2
      ⟨d, hdm, decide_eq_true hseq⟩)
  have heseq : e.cmd.seq = r.seq := by simpa using List.find?_some he
  have hem := List.mem_of_mem_take (List.mem_of_find?_eq_some he)
  obtain ⟨y, hy, hcmd⟩ := hq.cmds e.cmd (List.mem_append_right _ (List.mem_map_of_mem hem))
  rw [heseq] at hy
  obtain rfl := Option.some.inj (hx.symm.trans hy)
  have hdata := measured_of_machine hm _ hd _ hi.pairs.core e hem (hcmd.opc.trans hread)
  have hfits := hcmd.fits.len
  have hblk := hcmd.cdw12
  have hbytes : m.bytesOf r = x.req.len := by
    unfold Machine.bytesOf
    dsimp only
    rw [he, show (m.q r.did m.call.coreId).issued[r.seq]? = some x from hx]
    dsimp only
    rw [List.length_take]
    omega
  have hkey : m.lenOf r.key = x.req.len := by
    unfold Machine.lenOf
    rw [hx]
  rw [hbytes, hkey]
  exact ⟨rfl, hlen⟩

end

/-- A part of a sum of positive numbers is the whole only if it leaves nothing out. -/
theorem sum_part {α : Type} (p : α → Bool) (f : α → Nat) (l : List α) (hf : ∀ a ∈ l, 1 ≤ f a) :
    (l.map fun a => if p a then f a else 0).sum ≤ (l.map f).sum ∧
      ((l.map fun a => if p a then f a else 0).sum = (l.map f).sum ↔ ∀ a ∈ l, p a = true) := by
  induction l with
  | nil => exact ⟨Nat.le_refl _, by simp⟩
  | cons a l ih =>
    obtain ⟨hle, hiff⟩ := ih fun b hb => hf b (List.mem_cons_of_mem _ hb)
    have ha := hf a List.mem_cons_self
    simp only [List.map_cons, List.sum_cons, List.forall_mem_cons]
    rw [← hiff]
    generalize (l.map fun a => if p a then f a else 0).sum = n at hle ⊢
    by_cases hp : p a = true
    · rw [if_pos hp]
      refine ⟨by omega, fun h => ⟨hp, by omega⟩, fun h => by omega⟩
    · rw [if_neg hp]
      exact ⟨by omega, fun h => by omega, fun h => absurd h.1 hp⟩

section
variable {cfg : Cfg} {s : Sys} {op : Io} {fd : Int} {count : Nat} {m : Machine} {ok : Statuses}

/-- What was stored for a read at its end: at most what was left to read, and all of it exactly when
every command succeeded. -/
theorem stored_le (hND : 0 < cfg.ND) (hfit : cfg.ND * cfg.N_CORE * QD ≤ 2 ^ 31)
    (hsize : s.size fd < 2 ^ 63) (hop : op.Fits) (h : (hookedRead cfg s op fd count).Reach m)
    (hret : m.Returned cfg) : (m.stored ok : Int) ≤ max 0 m.call.len ∧
      ((m.stored ok : Int) = max 0 m.call.len ↔ m.AllOk ok) := by
  rcases Int.lt_or_le (s.posOf op fd) 0 with hneg | h0
  · have hl := nothing_left hsize hop hneg h hret
    have hnil := ((track_of_reach (machine_reach h)).2 hl).2.2
    unfold Machine.stored Machine.AllOk
    rw [hnil, max_eq_left hl]
    simp
  · have hbytes : m.rqs.map m.bytesOf = (m.rqs.map Rq.key).map m.lenOf := by
      rw [List.map_map]
      exact List.map_congr_left fun r hr => (bytesOf_eq hND hfit h0 h hret hr).1
    obtain ⟨hle, hiff⟩ := sum_part (fun r : Rq => ok r.did r.seq) m.bytesOf m.rqs fun r hr =>
      (bytesOf_eq hND hfit h0 h hret hr).2
    have hall := asked_eq hND hfit h0 h hret
    unfold Machine.asked at hall
    rw [← hbytes] at hall
    unfold Machine.stored Machine.AllOk
    rw [← hall, ← hiff]
    omega

/-- What is left to read of a `count`. -/
theorem clampLen_count {size : Nat} {pos : Int} {count : Nat} (hc : count < 2 ^ 64)
    (hs : size < 2 ^ 63) (h0 : 0 ≤ pos) (h1 : pos < 2 ^ 63) :
    (pos + count ≤ size → wrap64 count = count ∧ clampLen size (wrap64 count) pos = count) ∧
      (size < pos + count →
        wrap64 count < 0 ∨ wrap64 count = count ∧ clampLen size (wrap64 count) pos < count) := by
  rcases Nat.lt_or_ge count (2 ^ 63) with hlt | hge
  · have hw : wrap64 count = count := wrap64_of_range (by omega) (by omega)
    have hu : (u64 (pos + count) : Int) = pos + count := u64_of_range (by omega) (by omega)
    rw [hw]
    unfold clampLen
    refine ⟨fun hle => ⟨rfl, if_neg (by omega)⟩, fun hgt => .inr ⟨rfl, ?_⟩⟩
    rw [if_pos (by omega), wrap64_of_range (by omega) (by omega)]
    omega
  · refine ⟨fun hle => by omega, fun _ => .inl ?_⟩
    unfold wrap64
    rw [Int.bmod_def]
    split <;> omega

theorem wrap64_eq_zero {count : Nat} (hc : count < 2 ^ 64) : wrap64 count = 0 ↔ count = 0 := by
  unfold wrap64
  rw [Int.bmod_def]
  split <;> omega

theorem finish_curPos {t : Sys} {k : Nat} {a : Active} {n : Int} (ha : a.adv = some n) :
    (t.finish k a).curPos a.fd.toNat = u64 (t.curPos a.fd.toNat + n) := by
  unfold Sys.finish
  rw [ha]
  exact Function.update_self ..

theorem advanced (t : Sys) (k : Nat) (a : Active) (hfd : a.fd = fd)
    (ha : a.adv = op.adv (wrap64 count)) (hn : a.adv ≠ none) :
    (t.finish k a).curPos fd.toNat = u64 (t.curPos fd.toNat + hookRet count) := by
  subst hfd
  apply finish_curPos
  cases op with
  | read => exact ha
  | write => exact ha
  | pread pos => exact absurd ha hn
  | pwrite pos => exact absurd ha hn

/-- **The result of a hooked read is truthful** exactly when the range is within the file and every
command succeeds, or nothing is asked for. -/
theorem truthful_iff (hND : 0 < cfg.ND) (hfit : cfg.ND * cfg.N_CORE * QD ≤ 2 ^ 31)
    (hcount : count < 2 ^ 64) (hop : op.Fits) (hsize : s.size fd < 2 ^ 63)
    (h : (hookedRead cfg s op fd count).Reach m) (hret : m.Returned cfg) :
    Truthful s op fd count m ok ↔ count = 0 ∨ Within s op fd count ∧ m.AllOk ok := by
  obtain ⟨hle, hall⟩ := @stored_le cfg s op fd count m ok hND hfit hsize hop h hret
  have hlen := (readOf_reach h).len
  have hzero := wrap64_eq_zero hcount
  have hclamp := @clampLen_count (s.size fd) (s.posOf op fd) count hcount hsize
  constructor
  · intro ht
    have hstored : wrap64 count = m.stored ok := ht.stored
    by_cases h0 : count = 0
    · exact .inl h0
    rcases Int.lt_or_le (s.posOf op fd) 0 with hneg | hpos
    · have hl := nothing_left hsize hop hneg h hret
      exact absurd (hzero.1 (by omega)) h0
    · obtain ⟨hin, hout⟩ := hclamp hpos (posOf_range hop).2
      by_cases hw : s.posOf op fd + count ≤ s.size fd
      · obtain ⟨h1, h2⟩ := hin hw
        exact .inr ⟨⟨hpos, hw⟩, hall.1 (by omega)⟩
      · rcases hout (by omega) with h1 | ⟨h1, h2⟩
        · omega
        · omega
  · intro hc
    suffices hs : hookRet count = m.stored ok ∧
        (m.AllOk ok → hookRet count = min (count : Int) (max 0 (s.size fd - s.posOf op fd))) from
      ⟨hs.1, hs.2, advanced⟩
    unfold hookRet
    rcases hc with rfl | ⟨⟨hpos, hw⟩, hok⟩
    · have h0 := hzero.2 rfl
      have hl : m.call.len ≤ 0 := by
        rcases Int.lt_or_le (s.posOf op fd) 0 with hneg | hpos
        · exact nothing_left hsize hop hneg h hret
        · obtain ⟨hin, hout⟩ := hclamp hpos (posOf_range hop).2
          omega
      omega
    · obtain ⟨h1, h2⟩ := (hclamp hpos (posOf_range hop).2).1 hw
      have hst := hall.2 hok
      omega

end

/-- Descriptor 3 is file 0 of the store `fs`, at position 0. -/
def Sys.onFile (fs : State) : Sys :=
  ⟨fs, fun fd => if fd = 3 then 0 else NOT_USED_FD, fun _ => 0, [], fun _ => none, 0⟩

/-- `SYS_read` on that descriptor starts `read_impl`. -/
theorem hookedRead_onFile {fs : State} {count : Nat} {m : Machine}
    (hc : ioImpl .read fs 0 (wrap64 count) 0 0 0 (fun _ => 0) = .ok (m.fs, m.call))
    (hm : (machine ⟨1, 1, 1, 1⟩).init m) (hcore : m.call.coreId = 0) :
    (hookedRead ⟨1, 1, 1, 1⟩ (Sys.onFile fs) .read 3 count).init m := by
  have hmax : (3 : Int) < MAX_HOOKFD := by
    rw [MAX_HOOKFD_eq]
    decide
  have hc' : ioImpl .read fs 0 (wrap64 count) (wrap64 0) 0 m.call.coreId (fun _ => 0) =
      .ok (m.fs, m.call) := by
    rw [hcore]
    exact hc
  have hio := @hookIo_hooked (Sys.onFile fs) .read 3 (wrap64 count) 0 m.call.coreId (fun _ => 0) 0
    m.fs m.call (by decide) hmax rfl hc'
  exact ⟨hm, rfl, 0, fun _ => 0, _, _, hio, rfl, rfl, rfl⟩

/-- A sector of a file with one block. -/
theorem truthful_iff_sector :
    ∃ fs m, (hookedRead ⟨1, 1, 1, 1⟩ (Sys.onFile fs) .read 3 512).Reach m ∧
    m.Returned ⟨1, 1, 1, 1⟩ ∧ m.rqs ≠ [] ∧
    Truthful (Sys.onFile fs) .read 3 512 m (fun _ _ => true) := by
  obtain ⟨fs, m0, m, hsize, hc, hi, hcore, hs, hret, -, -, hr⟩ := read_sector_run
  have h : (hookedRead ⟨1, 1, 1, 1⟩ (Sys.onFile fs) .read 3 512).Reach m :=
    LTS.Reach.steps (.init (hookedRead_onFile hc hi hcore)) hs
  have hsz : (Sys.onFile fs).size 3 = 2097152 := hsize
  have hp : (Sys.onFile fs).posOf .read 3 = 0 := by
    unfold Sys.posOf Io.pos Sys.onFile
    dsimp only
    exact wrap64_of_range (by decide) (by decide)
  have hfit : 1 * 1 * QD ≤ 2 ^ 31 := by
    rw [QD_eq]
    decide
  have hop : Io.read.Fits := trivial
  have hw : Within (Sys.onFile fs) .read 3 512 := by
    unfold Within
    rw [hsz, hp]
    decide
  exact ⟨fs, m, h, hret, hr, (truthful_iff Nat.one_pos hfit (by decide) hop (by rw [hsz]; decide) h
    hret).2 (.inr ⟨hw, fun _ _ => rfl⟩)⟩

/-- A read of 512 bytes from an empty file returns 512 and stores nothing. -/
theorem empty_file_read : ∃ m,
    (hookedRead ⟨1, 1, 1, 1⟩ (Sys.onFile (openedFs ⟨[97], by decide⟩)) .read 3 512).Reach m ∧
    m.Returned ⟨1, 1, 1, 1⟩ ∧ hookRet 512 = 512 ∧ ∀ ok, m.stored ok = 0 ∧
      ¬ Truthful (Sys.onFile (openedFs ⟨[97], by decide⟩)) .read 3 512 m ok := by
  let fs := openedFs ⟨[97], by decide⟩
  let c : IoCall := ⟨.read, 0, 0, 0, 0, 0, 0, 0, fun _ => 0, .outer⟩
  have hc : ioImpl .read fs 0 512 0 0 0 (fun _ => 0) = .ok ((myfsIncrementRef fs 0).1, c) := by
    have hsize : myfsGetSize fs 0 = 0 := opened_size _
    show readImpl fs 0 512 0 0 0 (fun _ => 0) = _
    unfold readImpl
    dsimp only
    rw [incrementRef_size, hsize]
    rfl
  let m : Machine := ⟨(myfsIncrementRef fs 0).1, freshQueues, fun _ => 0, c, none, []⟩
  have hi : (machine ⟨1, 1, 1, 1⟩).init m := starts_fresh Nat.one_pos (fun _ => 0) hc rfl
  refine ⟨m, .init (hookedRead_onFile hc hi rfl), ⟨rfl, next_ret.2 ⟨rfl, Int.le_refl 0⟩⟩, by decide,
    fun ok => ⟨rfl, fun ht => ?_⟩⟩
  have hst : hookRet 512 = 0 := ht.stored
  exact absurd hst (by decide)

end Hook

import Staut.Nvme.Proof.Safety

/-!
# When a check still finds its completion

The flag that `nvme_check` looks at belongs to a slot, and the next request in the slot sets it
back. A reaped request is reported as done exactly as long as no other request of its slot is
unreaped (`check_iff_kept`); after `QD` more requests it is not (`completion_lost`).
-/

set_option autoImplicit false

namespace Nvme

open CSem Run PhaseRing

/-- Another request has the slot of request `n`, and is not reaped. -/
def Queue.Retaken (q : Queue) (n : Nat) : Prop :=
  ∃ x m y, q.issued[n]? = some x ∧ m ≠ n ∧ q.issued[m]? = some y ∧ y.cid = x.cid ∧ q.Unreaped m

/-- A request id tells the slot, whether the ids fit an `int` or not: `QD` divides `2 ^ 32`. -/
theorem ridOf_cid {cfg : Cfg} {did coreId cid : Nat} (hi : cid < QD)
    (h0 : 0 ≤ ridOf cfg did coreId cid) : (ridCid (ridOf cfg did coreId cid)).toNat = cid := by
  have hrid : (did * QD * cfg.N_CORE + coreId * QD + cid : Int) =
      1024 * ((did * cfg.N_CORE + coreId : Nat) : Int) + cid := by
    rw [QD_eq]
    push_cast
    ring
  unfold ridOf at h0
  unfold ridCid ridOf
  rw [hrid] at h0 ⊢
  rw [QD_eq] at hi ⊢
  generalize ((did * cfg.N_CORE + coreId : Nat) : Int) = u at h0 ⊢
  unfold wrap32 at h0 ⊢
  rw [Int.tmod_eq_emod_of_nonneg h0, Int.bmod_def]
  split <;> omega

section
variable {cfg : Cfg} {did coreId : Nat}

/-- The flag of a slot in use is 0 or 1, and the id that a check was called with is 0 or more. -/
structure Flagged (q : Queue) : Prop where
  flags : ∀ x ∈ q.issued, q.qp.doneFlag x.cid ≤ 1
  rid : ∀ rid b, q.pc = .checkCq (.check rid) b → 0 ≤ rid

theorem Flagged.host {q q' : Queue} {mem mem' : Nat → UInt8} {o : Out} (h : Flagged q)
    (hs : HostStep cfg did coreId q mem q' mem' o) : Flagged q' := by
  have hflag : ∀ cid, q.qp.doneFlag cid ≤ 1 → q'.qp.doneFlag cid ≤ 1 := fun _ => doneFlag_host hs
  cases hs with
  | poll => exact ⟨h.flags, fun _ _ hb => by cases hb⟩
  | submit =>
    refine ⟨fun x hx => ?_, fun _ _ hb => by cases hb⟩
    rcases List.mem_append.1 hx with hx | hx
    · exact hflag _ (h.flags x hx)
    · rw [List.mem_singleton.1 hx]
      simp [Queue.submit]
  | reap hpc =>
    refine ⟨fun x hx => hflag _ (h.flags x hx), fun rid b hb => ?_⟩
    cases hb
    exact h.rid rid _ hpc
  | leaveReq =>
    exact ⟨fun x hx => hflag _ (h.flags x (by simpa using hx)), fun _ _ hb => by cases hb⟩
  | leaveCheck =>
    exact ⟨fun x hx => hflag _ (h.flags x (by simpa using hx)), fun _ _ hb => by cases hb⟩

theorem flagged_of_reach {s : Queue × (Nat → UInt8)} (h : (queue cfg did coreId).Reach s) :
    Flagged s.1 := by
  refine LTS.ReachIf.induct (P := fun s => Flagged s.1) ?_ ?_ h
  · intro s hi
    obtain ⟨m, hm⟩ := hi
    rw [hm]
    exact ⟨(fun x hx => by cases hx), nofun⟩
  · intro s l s' hi _ hs
    obtain ⟨a, o⟩ := l
    cases a with
    | request r =>
      obtain ⟨-, -, -, -, rfl⟩ := hs
      exact ⟨hi.flags, nofun⟩
    | check rid =>
      obtain ⟨-, h0, -, -, rfl, -⟩ := hs
      unfold Queue.callCheck
      split
      · exact hi
      · refine ⟨hi.flags, fun rid' b hb => ?_⟩
        cases hb
        exact h0
    | host => exact hi.host (host_step hs)
    | complete i data =>
      obtain ⟨c, -, -, -, rfl⟩ := hs
      exact ⟨hi.flags, hi.rid⟩
    | app mem =>
      obtain ⟨-, rfl⟩ := hs
      exact hi

section
variable {s : Queue × (Nat → UInt8)} (h : (queue cfg did coreId).Reach s) {n : Nat} {x : Issued}
  (hx : s.1.issued[n]? = some x) (hr : ¬ s.1.Unreaped n)
include h hx hr

/-- What the flag says of a reaped request. -/
theorem done_iff_kept : s.1.qp.doneFlag x.cid = 1 ↔ ¬ s.1.Retaken n := by
  have hi := sinv_of_reach h
  have hmem := List.mem_of_getElem? hx
  have hle := (flagged_of_reach h).flags x hmem
  have hzero := hi.inv.done_iff (hi.rids x hmem).1
  have hret : s.1.Retaken n ↔ s.1.qp.doneFlag x.cid = 0 := by
    rw [hzero]
    constructor
    · rintro ⟨x', m, y, hx', -, hy, hc, hu⟩
      obtain rfl := Option.some.inj (hx.symm.trans hx')
      exact ⟨m, y, hu, hy, hc⟩
    · rintro ⟨m, y, hu, hy, hc⟩
      exact ⟨x, m, y, hx, fun he => hr (he ▸ hu), hy, hc, hu⟩
  rw [hret]
  omega

theorem done_kept (h0 : 0 ≤ x.rid) : s.1.qp.done (ridCid x.rid).toNat = true ↔ ¬ s.1.Retaken n := by
  obtain ⟨hlt, hrid⟩ := (sinv_of_reach h).rids x (List.mem_of_getElem? hx)
  have hcid : (ridCid x.rid).toNat = x.cid := by
    rw [hrid] at h0 ⊢
    exact ridOf_cid hlt h0
  rw [← done_iff_kept h hx hr, hcid]
  simp [QP.done]

/-- **A completion stays visible to its waiter**, once it is reaped, exactly as long as no other
request of the slot is unreaped. -/
theorem check_iff_kept :
    (∀ a b s', (queue cfg did coreId).step s (a, .check x.rid b) s' →
      (b = true ↔ ¬ s.1.Retaken n)) ∧
    (0 ≤ x.rid → ((s.1.callCheck x.rid).2 = .check x.rid true ↔ ¬ s.1.Retaken n)) := by
  refine ⟨fun a b s' hs => ?_, fun h0 => ?_⟩
  · cases a with
    | request r => exact absurd hs.2.2.2.1 nofun
    | check rid =>
      obtain ⟨-, h0, -, -, -, ho⟩ := hs
      unfold Queue.callCheck at ho
      split at ho
      · rename_i hd
        obtain ⟨rfl, rfl⟩ : x.rid = rid ∧ b = true := by simpa using ho
        exact ⟨fun _ => (done_kept h hx hr h0).1 hd, fun _ => rfl⟩
      · cases ho
    | host =>
      obtain ⟨q', mem'⟩ := s'
      have hstep := host_step hs
      have hpc : ∃ b', s.1.pc = .checkCq (.check x.rid) b' ∧
          b = s.1.qp.done (ridCid x.rid).toNat := by
        generalize ho : Out.check x.rid b = o at hstep
        cases hstep with
        | leaveCheck hpc _ =>
          simp only [Out.check.injEq] at ho
          obtain ⟨rfl, rfl⟩ := ho
          exact ⟨_, hpc, rfl⟩
        | poll => cases ho
        | submit => cases ho
        | reap => cases ho
        | leaveReq => cases ho
      obtain ⟨b', hpc, rfl⟩ := hpc
      exact done_kept h hx hr ((flagged_of_reach h).rid _ _ hpc)
    | complete i data =>
      obtain ⟨c, -, -, ho, -⟩ := hs
      cases ho
    | app mem => exact absurd hs.1 nofun
  · rw [← done_kept h hx hr h0]
    unfold Queue.callCheck
    split
    · rename_i hd
      exact ⟨fun _ => hd, fun _ => rfl⟩
    · rename_i hd
      exact ⟨nofun, fun hd' => absurd hd' hd⟩

end

/-! ## More requests than slots -/

/-- The first request is done and its check has returned; `k` more were made, which the device has
not completed. -/
structure After (cfg : Cfg) (r : Req) (k : Nat) (s : Queue × (Nat → UInt8)) : Prop where
  reach : (queue cfg 0 0).Reach s
  pc : s.1.pc = .idle
  first : s.1.issued[0]? = some ⟨r, 0, 0⟩
  reaped : ¬ s.1.Unreaped 0
  empty : s.1.qp.cqReady = false
  tail : s.1.qp.sqTail = (k + 1) % QD
  cids : s.1.dev.outstanding.map (·.sqe.cid) = List.range' 1 k

variable {r : Req} (hr : r.Fits) (hd : driveOf cfg r.lba = (0 : Nat))
include hr hd

theorem after_first : ∃ s, After cfg r 0 s := by
  obtain ⟨s, h⟩ := reach_first_reaped hr hd
  have hx : s.1.issued[0]? = some ⟨r, 0, 0⟩ := by rw [h.issued]; rfl
  have hi := sinv_of_reach h.reach
  have hreaped := (hi.inv.done_reaped hx h.flag).2
  have hs : (queue cfg 0 0).step s (.host, .check 0 (s.1.qp.done (ridCid 0).toNat))
      ({ s.1.leaveCq true with pc := .idle }, s.2) := host_left h.pc h.empty
  refine ⟨_, h.reach.step trivial hs, rfl, hx, hreaped, h.empty, h.tail, ?_⟩
  show s.1.dev.outstanding.map _ = _
  rw [h.outstanding]
  rfl

/-- The request after them takes the slot at the tail: none of them has it. -/
theorem After.submit {k : Nat} (hk : k < QD) {s : Queue × (Nat → UInt8)} (h : After cfg r k s) :
    (queue cfg 0 0).Reach (s.1.submit cfg 0 0 s.2 r, s.2) := by
  have hi := sinv_of_reach h.reach
  have hwait : s.1.waiting = [] := by
    have hge := hi.inv.cqReady_iff
    rw [h.empty] at hge
    exact List.drop_eq_nil_of_le (by simpa using hge)
  have hfree : s.1.qp.doneFlag s.1.qp.sqTail ≠ 0 := by
    intro h0
    have hm := (hi.inv.done _ hi.inv.tail).1 h0
    simp only [Queue.liveCids, Queue.live, hwait, List.map_nil, List.append_nil, h.cids,
      List.mem_range'_1, h.tail] at hm
    rcases Nat.lt_or_ge (k + 1) QD with hlt | hge
    · rw [Nat.mod_eq_of_lt hlt] at hm
      omega
    · rw [show k + 1 = QD by omega, Nat.mod_self] at hm
      omega
  have h1 : (queue cfg 0 0).Reach ({ s.1 with pc := .newSqe r }, s.2) :=
    h.reach.step (a := (.request r, .none)) trivial ⟨h.pc, hr, hd, rfl, rfl⟩
  have h2 : Queue.host cfg 0 0 { s.1 with pc := .newSqe r } s.2 =
      some (s.1.submit cfg 0 0 s.2 r, s.2, .rid (ridOf cfg 0 0 s.1.qp.sqTail)) := by
    unfold Queue.host
    exact if_neg hfree
  exact h1.step (a := (.host, _)) trivial h2

omit hr hd in
/-- What a request leaves as it was. -/
theorem After.kept {k : Nat} {s : Queue × (Nat → UInt8)} (h : After cfg r k s) :
    (s.1.submit cfg 0 0 s.2 r).issued[0]? = some ⟨r, 0, 0⟩ ∧
    ¬ (s.1.submit cfg 0 0 s.2 r).Unreaped 0 ∧ (s.1.submit cfg 0 0 s.2 r).qp.cqReady = false := by
  have hlt := (List.getElem?_eq_some_iff.1 h.first).1
  refine ⟨?_, fun hu => h.reaped ⟨hlt, hu.2⟩, ?_⟩
  · exact (List.getElem?_append_left hlt).trans h.first
  · have he := h.empty
    unfold QP.cqReady at he ⊢
    simp only [Queue.submit, request_cqe, request_cqHead, request_cqPhase]
    exact he

theorem after_more {k : Nat} (hk : k < QD) : ∃ s, After cfg r k s := by
  induction k with
  | zero => exact after_first hr hd
  | succ k ih =>
    obtain ⟨s, h⟩ := ih (by omega)
    have hi := sinv_of_reach h.reach
    obtain ⟨hfirst, hreaped, hempty⟩ := h.kept
    refine ⟨_, h.submit hr hd (by omega), rfl, hfirst, hreaped, hempty, ?_, ?_⟩
    · show (QP.request cfg s.1.qp s.2 r).sqTail = _
      rw [request_sqTail, hi.inv.nSqe, h.tail, Nat.mod_add_mod]
    · show (s.1.dev.outstanding ++
        [(⟨_, (QP.request cfg s.1.qp s.2 r).sqe s.1.qp.sqTail⟩ : Cmd)]).map
        (·.sqe.cid) = _
      have hcid := hi.inv.sqeCid _ hi.inv.tail
      rw [List.map_append, h.cids, List.range'_concat, request_sqe, Function.update_self]
      simp only [List.map_cons, List.map_nil]
      rw [hcid, h.tail, Nat.mod_eq_of_lt hk, Nat.one_mul, Nat.add_comm]

end

/-- **A completion is lost**: the first read is done, `QD` more are made and not completed, and the
check of the first one answers 0. -/
theorem completion_lost : ∃ s s' x, (queue ⟨1, 1, 1, 1⟩ 0 0).Reach s ∧ s.1.issued[0]? = some x ∧
    ¬ s.1.Unreaped 0 ∧ (queue ⟨1, 1, 1, 1⟩ 0 0).step s (.host, .check x.rid false) s' := by
  have hQ := QD_pos
  have hr : (⟨.read, 0, 1, 4, 100⟩ : Req).Fits := ⟨.inl rfl, by decide, by decide, by decide⟩
  have hd : driveOf ⟨1, 1, 1, 1⟩ (⟨.read, 0, 1, 4, 100⟩ : Req).lba = (0 : Nat) := by decide
  obtain ⟨s, h⟩ := after_more hr hd (Nat.sub_lt hQ Nat.one_pos)
  have hs := h.submit hr hd (by omega)
  obtain ⟨hfirst, hreaped, hempty⟩ := h.kept
  obtain ⟨q, hq⟩ : ∃ q, q = s.1.submit ⟨1, 1, 1, 1⟩ 0 0 s.2 ⟨.read, 0, 1, 4, 100⟩ := ⟨_, rfl⟩
  have hflag : q.qp.doneFlag 0 = 0 := by
    have htail : s.1.qp.sqTail = 0 := by rw [h.tail, Nat.sub_add_cancel hQ, Nat.mod_self]
    rw [hq]
    simp only [Queue.submit, request_doneFlag, htail, Function.update_self]
  have hpc : q.pc = .idle := by rw [hq]; rfl
  rw [← hq] at hs hfirst hreaped hempty
  have hnot : q.qp.done (ridCid 0).toNat = false := by simp [QP.done, ridCid, hflag]
  let q1 : Queue := { q with pc := .checkCq (.check 0) false }
  have hcall : q.callCheck 0 = (q1, .none) := by
    unfold Queue.callCheck
    rw [hnot]
    rfl
  have h1 : (queue ⟨1, 1, 1, 1⟩ 0 0).Reach (q1, s.2) :=
    hs.step (a := (.check 0, .none)) trivial ⟨hpc, by decide, by simp [ridDid], by simp [ridQid],
      by rw [hcall], by rw [hcall]⟩
  have h2 : (queue ⟨1, 1, 1, 1⟩ 0 0).step (q1, s.2) (.host, .check 0 (q.qp.done (ridCid 0).toNat))
      ({ q with pc := .idle }, s.2) :=
    host_left (show q1.pc = .checkCq (.check 0) false from rfl) hempty
  rw [hnot] at h2
  exact ⟨_, _, _, h1, hfirst, hreaped, h2⟩

/-- The first read of a queue pair, checked when nothing else was requested. -/
theorem check_iff_kept_first : ∃ s : Queue × (Nat → UInt8), (queue ⟨1, 1, 1, 1⟩ 0 0).Reach s ∧
    (s.1.callCheck 0).2 = .check 0 true := by
  have hr : (⟨.read, 0, 1, 4, 100⟩ : Req).Fits := ⟨.inl rfl, by decide, by decide, by decide⟩
  have hd : driveOf ⟨1, 1, 1, 1⟩ (⟨.read, 0, 1, 4, 100⟩ : Req).lba = (0 : Nat) := by decide
  obtain ⟨s, h⟩ := after_first hr hd
  refine ⟨s, h.reach, ((check_iff_kept h.reach h.first h.reaped).2 (Int.le_refl 0)).2 ?_⟩
  intro hret
  obtain ⟨x, m, y, -, hm, hy, -, hu⟩ := hret
  -- nothing is with the device
  have hi := sinv_of_reach h.reach
  obtain ⟨c, hc, -⟩ := hi.inv.unreaped_iff.1 hu
  have hge := hi.inv.cqReady_iff
  rw [h.empty] at hge
  have hwait : s.1.waiting = [] := List.drop_eq_nil_of_le (by simpa using hge)
  have hout : s.1.dev.outstanding = [] := List.map_eq_nil_iff.1 h.cids
  rw [Queue.live, hwait, hout] at hc
  cases hc

end Nvme

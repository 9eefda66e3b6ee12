import Staut.Nvme.Rings
import Staut.Nvme.Proof.Queue

/-!
# The completion ring reaps what was posted, the submission ring can be overrun

* `CqInv`: the ring holds the last entries posted, and `check_cq` is at most `n` behind. With it the
  phase test tells whether the next entry is there (`CqInv.ready_iff`), so every completion is
  reaped once, and every look at a completion that waits reaps it (`reaped_once`).
* `SqInv`: the flag of a slot is 0 exactly while its command is live, so at most `n` commands are
  not yet fetched, one too many: with `n` of them the tail is where the device's head is
  (`queue_overrun`). What has been reaped has been fetched, so callers that wait for their requests
  can prevent it (`not_overrun`).
-/

set_option autoImplicit false

namespace Nvme

open CSem Run PhaseRing

/-! ## The completion ring -/

structure CqInv (n : Nat) (qp : QP) (posted reaped : List Nat) : Prop where
  nCqe : qp.nCqe = n
  order : reaped <+: posted
  room : posted.length ≤ reaped.length + n
  head : qp.cqHead = reaped.length % n
  phase : qp.cqPhase = phaseOf n reaped.length
  ring : Holds n (fun i => (qp.cqe i).cid) (fun i => (qp.cqe i).p) posted

theorem CqInv.new {n : Nat} (hn : 0 < n) (m : QP) : CqInv n (QP.newOf n m) [] [] where
  nCqe := rfl
  order := List.prefix_rfl
  room := Nat.zero_le _
  head := (Nat.zero_mod n).symm
  phase := (phaseOf_of_lt hn).symm
  ring := Holds.nil _ fun _ _ => rfl

section
variable {n : Nat} {qp qp' : QP} {posted reaped : List Nat} (h : CqInv n qp posted reaped)
include h

theorem CqInv.frame (h1 : qp'.nCqe = qp.nCqe) (h2 : qp'.cqHead = qp.cqHead)
    (h3 : qp'.cqPhase = qp.cqPhase) (h4 : qp'.cqe = qp.cqe) : CqInv n qp' posted reaped :=
  ⟨h1.trans h.nCqe, h.order, h.room, h2.trans h.head, h3.trans h.phase, by rw [h4]; exact h.ring⟩

theorem CqInv.leaveCq (b : Bool) : CqInv n (qp.leaveCq b) posted reaped := by
  unfold QP.leaveCq
  cases b with
  | false => exact h
  | true => exact h.frame rfl rfl rfl rfl

variable (hn : 0 < n)
include hn

/-- The phase test finds out whether a completion is waiting. -/
theorem CqInv.ready_iff : qp.cqReady = true ↔ reaped.length < posted.length := by
  have hr := h.ring.ready_iff hn h.order.length_le h.room
  simp only [QP.cqReady, h.head, h.phase, decide_eq_true_eq]
  exact hr

/-- Nothing waiting: everything has been reaped. -/
theorem CqInv.all_reaped (hr : qp.cqReady = false) : reaped = posted := by
  refine h.order.eq_of_length_le ?_
  have := h.ready_iff hn
  rw [hr] at this
  simpa using this

/-- The entry at the head is the oldest completion that waits. -/
theorem CqInv.head_cid (hr : qp.cqReady = true) :
    posted[reaped.length]? = some (qp.cqe qp.cqHead).cid := by
  have hlt := (h.ready_iff hn).1 hr
  have hget := List.getElem?_eq_getElem hlt
  have he := (h.ring.entry reaped.length _ hget h.room).1
  rw [hget, h.head]
  exact congrArg some he.symm

theorem CqInv.reap (hr : qp.cqReady = true) (mem : Nat → UInt8) :
    CqInv n (qp.reap mem).1 posted (reaped ++ [(qp.cqe qp.cqHead).cid]) := by
  have hlt := (h.ready_iff hn).1 hr
  have hc := h.head_cid hn hr
  obtain ⟨t, ht⟩ := h.order
  have hsucc := mod_succ reaped.length hn
  refine ⟨h.nCqe, ?_, ?_, ?_, ?_, h.ring⟩
  · cases t with
    | nil =>
      rw [← ht, List.append_nil] at hlt
      exact absurd hlt (Nat.lt_irrefl _)
    | cons c t =>
      rw [← ht] at hc
      simp only [List.getElem?_append_right (Nat.le_refl _), Nat.sub_self, List.getElem?_cons_zero,
        Option.some.injEq] at hc
      exact ⟨t, by rw [← ht, ← hc, List.append_assoc]; rfl⟩
  · have := h.room
    rw [List.length_append, List.length_singleton]
    omega
  · rw [List.length_append, List.length_singleton, hsucc]
    show (if qp.cqHead + 1 = qp.nCqe then 0 else qp.cqHead + 1) = _
    rw [h.head, h.nCqe]
  · rw [List.length_append, List.length_singleton, phaseOf_succ, hsucc]
    show (if qp.cqHead + 1 = qp.nCqe then qp.cqPhase ^^^ 1 else qp.cqPhase) = _
    rw [h.head, h.nCqe, h.phase]
    split <;> simp

theorem CqInv.post (hlt : posted.length < reaped.length + n) (cid : Nat) :
    CqInv n (qp.post posted.length cid) (posted ++ [cid]) reaped := by
  refine ⟨h.nCqe, h.order.trans (List.prefix_append _ _), ?_, h.head, h.phase, ?_⟩
  · rw [List.length_append, List.length_singleton]
    omega
  · refine h.ring.post hn cid (fun i _ => ?_) fun i _ => ?_
    · simp only [QP.post, h.nCqe, Function.update_apply]
      split <;> rfl
    · simp only [QP.post, h.nCqe, Function.update_apply]
      split <;> rfl

end

/-! ## Every completion is reaped once -/

/-- The doorbell: what had been reaped when it was written last. -/
structure CqRun (n : Nat) (s : Cq) : Prop where
  inv : CqInv n s.qp s.posted s.reaped
  doorbell : ∃ rung, s.qp.cqDoorbell = rung % n ∧ rung ≤ s.reaped.length ∧
    s.posted.length ≤ rung + (n - 1) ∧ (s.checking ≠ some true → rung = s.reaped.length) ∧
    (s.checking ≠ none → s.start = rung)

theorem sub_mod_of_le {a b n : Nat} (h1 : b ≤ a) (h2 : a < b + n) :
    (a % n + n - b % n) % n = a - b := by
  have hb := Nat.mod_lt b (show 0 < n by omega)
  have ha := Nat.mod_lt a (show 0 < n by omega)
  obtain ⟨d, rfl⟩ := Nat.exists_eq_add_of_le h1
  have hd : d < n := by omega
  have hmod : (b + d) % n = if b % n + d < n then b % n + d else b % n + d - n := by
    rw [← Nat.mod_add_mod]
    split
    · rename_i hlt
      exact Nat.mod_eq_of_lt hlt
    · rename_i hge
      rw [Nat.mod_eq_sub_mod (by omega), Nat.mod_eq_of_lt (by omega)]
  rw [hmod]
  split
  · rw [show b % n + d + n - b % n = d + n by omega, Nat.add_mod_right, Nat.mod_eq_of_lt hd]
    omega
  · rw [show b % n + d - n + n - b % n = d by omega, Nat.mod_eq_of_lt hd]
    omega

section
variable {n : Nat} (hn : 2 ≤ n) {s s' : Cq}
include hn

theorem CqRun.init (hi : (cqRing n).init s) : CqRun n s := by
  obtain ⟨m, mem, rfl⟩ := hi
  exact ⟨.new (by omega) m, 0, (Nat.zero_mod n).symm, Nat.zero_le _, Nat.zero_le _, fun _ => rfl,
    fun hc => absurd rfl hc⟩

theorem CqRun.look (h : CqRun n s) {b : Bool} (hc : s.checking = some b) : CqRun n (s.look b) := by
  obtain ⟨rung, hd, hle, hroom, hrung, hstart⟩ := h.doorbell
  unfold Cq.look
  split
  · rename_i hr
    refine ⟨h.inv.reap (by omega) hr s.mem, rung, hd, ?_, hroom, fun hne => absurd rfl hne,
      fun _ => hstart (by rw [hc]; exact Option.some_ne_none b)⟩
    rw [List.length_append]
    omega
  · rename_i hr
    have hall := h.inv.all_reaped (by omega) (by simpa using hr)
    refine ⟨h.inv.leaveCq b, s.reaped.length, ?_, Nat.le_refl _, ?_, fun _ => rfl,
      fun hne => absurd rfl hne⟩
    · cases b with
      | true => exact h.inv.head
      | false =>
        show s.qp.cqDoorbell = _
        rw [hd, hrung (by rw [hc]; decide)]
    · rw [hall]
      exact Nat.le_add_right _ _

theorem CqRun.step (h : CqRun n s) {l : CqLabel} (hs : (cqRing n).step s l s') : CqRun n s' := by
  obtain ⟨rung, hd, hle, hroom, hrung, hstart⟩ := h.doorbell
  cases hs with
  | call hc =>
    have hr := hrung (by rw [hc]; decide)
    exact ⟨h.inv, rung, hd, hle, hroom, fun _ => hr, fun _ => hr.symm⟩
  | look hc => exact h.look hn hc
  | post cid hfree =>
    have hge := h.inv.order.length_le
    rw [hd, sub_mod_of_le (by omega) (by omega)] at hfree
    refine ⟨h.inv.post (by omega) (by omega) cid, rung, hd, hle, ?_, hrung, hstart⟩
    rw [List.length_append, List.length_singleton]
    omega
  | other h1 h2 h3 h4 h5 => exact ⟨h.inv.frame h1 h2 h3 h4, rung, h5.trans hd, hle, hroom,
      hrung, hstart⟩

/-- What a look does: it reaps the oldest completion that waits, or ends the call when none does. -/
theorem CqRun.look_spec (h : CqRun n s) {b : Bool} (hc : s.checking = some b) :
    (cqRing n).step s .look (s.look b) ∧
    (∀ cid, s.posted[s.reaped.length]? = some cid →
      (s.look b).reaped = s.reaped ++ [cid] ∧ (s.look b).checking = some true) ∧
    (s.reaped = s.posted → (s.look b).reaped = s.posted ∧ (s.look b).checking = none) := by
  refine ⟨.look hc, fun cid hcid => ?_, fun hall => ?_⟩
  · have hr : s.qp.cqReady = true :=
      (h.inv.ready_iff (by omega)).2 (List.getElem?_eq_some_iff.1 hcid).1
    have hhead := h.inv.head_cid (by omega) hr
    rw [hcid] at hhead
    unfold Cq.look
    rw [if_pos hr]
    exact ⟨by rw [Option.some.inj hhead], rfl⟩
  · have hr : ¬ s.qp.cqReady = true := fun hr => by
      have := (h.inv.ready_iff (by omega)).1 hr
      rw [hall] at this
      exact absurd this (Nat.lt_irrefl _)
    unfold Cq.look
    rw [if_neg hr]
    exact ⟨hall, rfl⟩

/-- **Every completion is reaped once**: in order, none lost or repeated, over any number of wraps.
Each look of a call reaps the oldest completion that waits, and ends the call when none does; a call
reaps `n - 1` at most, so it ends. -/
theorem reaped_once (h : (cqRing n).Reach s) :
    s.reaped <+: s.posted ∧ s.qp.cqHead = s.reaped.length % n ∧
    s.qp.cqPhase = phaseOf n s.reaped.length ∧
    (s.checking = none → s.qp.cqDoorbell = s.reaped.length % n) ∧
    (s.checking ≠ none → s.reaped.length ≤ s.start + (n - 1)) ∧
    (∀ b, s.checking = some b → (cqRing n).step s .look (s.look b) ∧
      (∀ cid, s.posted[s.reaped.length]? = some cid →
        (s.look b).reaped = s.reaped ++ [cid] ∧ (s.look b).checking = some true) ∧
      (s.reaped = s.posted → (s.look b).reaped = s.posted ∧ (s.look b).checking = none)) ∧
    ∀ s' l, (cqRing n).step s l s' → s.checking ≠ none → s'.checking = none →
      s.reaped = s.posted ∧ s'.reaped = s.posted := by
  have hi : CqRun n s := LTS.ReachIf.induct (P := CqRun n) (fun s => CqRun.init hn)
    (fun s l s' hi _ hs => hi.step hn hs) h
  obtain ⟨rung, hd, hle, hroom, hrung, hstart⟩ := hi.doorbell
  have hge := hi.inv.order.length_le
  refine ⟨hi.inv.order, hi.inv.head, hi.inv.phase, fun hc => ?_, fun hc => ?_,
    fun b hc => hi.look_spec hn hc, fun s' l hs hc hc' => ?_⟩
  · rw [hd, hrung (by rw [hc]; decide)]
  · rw [hstart hc]
    omega
  · -- only the last look leaves the call
    cases hs with
    | call h0 => exact absurd h0 hc
    | look h0 =>
      unfold Cq.look at hc' ⊢
      split at hc'
      · cases hc'
      · rename_i hr
        have hall := hi.inv.all_reaped (by omega) (by simpa using hr)
        rw [if_neg hr]
        exact ⟨hall, hall⟩
    | post cid hfree => exact absurd hc' hc
    | other => exact absurd hc' hc

end

/-- Two entries: the device has posted a completion, and a call is about to look at it. -/
def onePosted : Cq := ⟨(QP.newOf 2 default).post 0 5, fun _ => 0, some false, 0, [5], []⟩

theorem reach_onePosted : (cqRing 2).Reach onePosted := by
  have h0 : (cqRing 2).Reach ⟨QP.newOf 2 default, fun _ => 0, none, 0, [], []⟩ :=
    .init ⟨default, fun _ => 0, rfl⟩
  have h1 : (cqRing 2).Reach { onePosted with checking := none } :=
    h0.step (a := .post 5) trivial (CqStep.post 5 (show (0 % 2 + 2 - 0) % 2 < 2 - 1 by decide))
  exact h1.step (a := .call) trivial (CqStep.call (s := { onePosted with checking := none }) rfl)

theorem reaped_once_posted :
    (onePosted.look false).reaped = [5] ∧ (onePosted.look false).checking = some true := by
  obtain ⟨-, -, -, -, -, hlook, -⟩ := reaped_once (Nat.le_refl 2) reach_onePosted
  exact (hlook false rfl).2.1 5 rfl

/-! ## The submission ring -/

/-- A request of `nvme_read_req` or `nvme_write_req`. -/
theorem request_submits (cfg : Cfg) (qp : QP) (mem : Nat → UInt8) (r : Req) :
    Submits qp (qp.request cfg mem r) := by
  refine ⟨by simp, by simp, by simp, by simp, by simp, by simp, fun i => ?_, by simp, ?_, ?_⟩
  · rw [request_sqe, Function.update_apply]
    split
    · rename_i he
      rw [he]
    · rfl
  · unfold QP.request
    cases r.opc <;> rfl
  · unfold QP.request
    cases r.opc <;> rfl

/-- The commands submitted and not yet reaped. -/
def Sq.live (s : Sq) : List Nat :=
  s.pending ++ (s.posted.drop s.reaped.length ++ s.submitted.drop s.fetched)

structure SqInv (n : Nat) (s : Sq) : Prop where
  cq : CqInv n s.qp s.posted s.reaped
  nSqe : s.qp.nSqe = n
  tail : s.qp.sqTail = s.submitted.length % n
  sqeCid : ∀ i < n, (s.qp.sqe i).cid = i
  cids : ∀ k c, s.submitted[k]? = some c → c = k % n
  fetched : s.fetched ≤ s.submitted.length
  nodup : s.live.Nodup
  lt : ∀ c ∈ s.live, c < n
  done : ∀ c < n, s.qp.doneFlag c = 0 ↔ c ∈ s.live

/-- Distinct ids below `n`. -/
theorem length_le_of_nodup {l : List Nat} {n : Nat} (h : l.Nodup) (hl : ∀ c ∈ l, c < n) :
    l.length ≤ n := by
  have h1 : l.toFinset ⊆ Finset.range n := fun c hc =>
    Finset.mem_range.2 (hl c (List.mem_toFinset.1 hc))
  have h2 := Finset.card_le_card h1
  rwa [List.toFinset_card_of_nodup h, Finset.card_range] at h2

section
variable {n : Nat} (hn : 0 < n) {s s' : Sq}

include hn in
theorem SqInv.init (hi : (sqRing n).init s) : SqInv n s := by
  obtain ⟨m, mem, rfl⟩ := hi
  refine ⟨.new hn m, rfl, (Nat.zero_mod n).symm, fun i hlt => if_pos hlt, fun k c hk => ?_,
    Nat.le_refl _, List.nodup_nil, (fun c hc => by cases hc), fun c _ => ?_⟩
  · simp at hk
  · simp [QP.newOf, QP.new, Sq.live]

variable (h : SqInv n s)
include h

theorem SqInv.setPc (pc : SqPc) : SqInv n { s with pc := pc } :=
  ⟨h.cq, h.nSqe, h.tail, h.sqeCid, h.cids, h.fetched, h.nodup, h.lt, h.done⟩

theorem SqInv.leaveCq (b : Bool) (pc : SqPc) :
    SqInv n { s with qp := s.qp.leaveCq b, pc := pc } := by
  cases b with
  | false => exact h.setPc pc
  | true =>
    exact ⟨h.cq.leaveCq true, h.nSqe, h.tail, h.sqeCid, h.cids, h.fetched, h.nodup, h.lt, h.done⟩

theorem SqInv.fetch {cid : Nat} (hc : s.submitted[s.fetched]? = some cid) :
    SqInv n { s with fetched := s.fetched + 1, pending := s.pending ++ [cid] } := by
  have hlt := (List.getElem?_eq_some_iff.1 hc).1
  have hdrop : s.submitted.drop s.fetched = cid :: s.submitted.drop (s.fetched + 1) := by
    rw [List.drop_eq_getElem_cons hlt, (List.getElem?_eq_some_iff.1 hc).2]
  have hp : List.Perm (Sq.live { s with fetched := s.fetched + 1, pending := s.pending ++ [cid] })
      s.live := by
    unfold Sq.live
    rw [hdrop, List.append_assoc]
    refine List.Perm.append_left _ ?_
    exact (@List.perm_middle _ _ (s.posted.drop s.reaped.length) _).symm
  exact ⟨h.cq, h.nSqe, h.tail, h.sqeCid, h.cids, hlt, hp.nodup_iff.2 h.nodup,
    fun c hm => h.lt c (hp.mem_iff.1 hm), fun c hlt => (h.done c hlt).trans hp.mem_iff.symm⟩

theorem SqInv.live_length :
    s.pending.length + (s.posted.length - s.reaped.length) + s.unfetched ≤ n := by
  have hle := length_le_of_nodup h.nodup h.lt
  simp only [Sq.live, List.length_append, List.length_drop] at hle
  unfold Sq.unfetched
  omega

include hn

/-- A completion at the head is for a live command. -/
theorem SqInv.head_live (hr : s.qp.cqReady = true) : (s.qp.cqe s.qp.cqHead).cid ∈ s.live := by
  have hhead := h.cq.head_cid hn hr
  refine List.mem_append_right _ (List.mem_append_left _ ?_)
  refine List.mem_of_getElem? (i := 0) ?_
  rw [List.getElem?_drop]
  exact hhead

theorem SqInv.complete {i cid : Nat} (hc : s.pending[i]? = some cid) : SqInv n { s with
    qp := s.qp.post s.posted.length cid
    pending := s.pending.eraseIdx i
    posted := s.posted ++ [cid] } := by
  have hi := (List.getElem?_eq_some_iff.1 hc).1
  have hle := h.live_length
  have horder := h.cq.order.length_le
  have hp : List.Perm (Sq.live { s with
      qp := s.qp.post s.posted.length cid
      pending := s.pending.eraseIdx i
      posted := s.posted ++ [cid] }) s.live := by
    unfold Sq.live
    dsimp only
    rw [List.drop_append_of_le_length horder, List.append_assoc, List.singleton_append]
    refine ((@List.perm_middle _ _ (s.posted.drop s.reaped.length) _).append_left _).trans ?_
    refine List.perm_middle.trans ?_
    exact (perm_eraseIdx hc).append_right _
  exact ⟨h.cq.post hn (by omega) cid, h.nSqe, h.tail, h.sqeCid, h.cids, h.fetched,
    hp.nodup_iff.2 h.nodup, fun c hm => h.lt c (hp.mem_iff.1 hm), fun c hlt =>
      (h.done c hlt).trans hp.mem_iff.symm⟩

theorem SqInv.reap (hr : s.qp.cqReady = true) (pc : SqPc) : SqInv n { s with
    qp := (s.qp.reap s.mem).1
    mem := (s.qp.reap s.mem).2
    pc := pc
    reaped := s.reaped ++ [(s.qp.cqe s.qp.cqHead).cid] } := by
  have hhead := h.cq.head_cid hn hr
  obtain ⟨cid, hcid⟩ : ∃ cid, cid = (s.qp.cqe s.qp.cqHead).cid := ⟨_, rfl⟩
  have hreap := h.cq.reap hn hr s.mem
  rw [← hcid] at hhead hreap ⊢
  have hlt := (List.getElem?_eq_some_iff.1 hhead).1
  have hp : List.Perm s.live (cid :: Sq.live { s with
      qp := (s.qp.reap s.mem).1
      mem := (s.qp.reap s.mem).2
      pc := pc
      reaped := s.reaped ++ [cid] }) := by
    unfold Sq.live
    dsimp only
    rw [List.drop_eq_getElem_cons hlt, (List.getElem?_eq_some_iff.1 hhead).2, List.length_append,
      List.length_singleton, List.cons_append]
    exact List.perm_middle
  have hnd := List.nodup_cons.1 (hp.nodup_iff.1 h.nodup)
  refine ⟨hreap, h.nSqe, h.tail, h.sqeCid, h.cids, h.fetched, hnd.2,
    fun c hm => h.lt c (hp.mem_iff.2 (List.mem_cons_of_mem _ hm)), fun c hc => ?_⟩
  show Function.update s.qp.doneFlag (s.qp.cqe s.qp.cqHead).cid 1 c = 0 ↔ _
  rw [← hcid, Function.update_apply]
  split
  · rename_i he
    rw [he]
    exact ⟨fun h1 => absurd h1 Nat.one_ne_zero, fun hm => absurd hm hnd.1⟩
  · rename_i hne
    rw [h.done c hc, hp.mem_iff, List.mem_cons, or_iff_right hne]

theorem SqInv.submit {qp : QP} (hfree : s.qp.doneFlag s.qp.sqTail ≠ 0) (hq : Submits s.qp qp) :
    SqInv n (s.submit qp) := by
  have htail : s.qp.sqTail < n := by
    rw [h.tail]
    exact Nat.mod_lt _ hn
  have hcid := h.sqeCid _ htail
  have hdead : s.qp.sqTail ∉ s.live := fun hm => hfree ((h.done _ htail).2 hm)
  have hlive : (s.submit qp).live = s.live ++ [s.qp.sqTail] := by
    unfold Sq.live Sq.submit
    dsimp only
    rw [hcid, List.drop_append_of_le_length h.fetched]
    simp only [List.append_assoc]
  refine ⟨h.cq.frame hq.nCqe hq.cqHead hq.cqPhase hq.cqe, hq.nSqe.trans h.nSqe, ?_, fun i hi => ?_,
    fun k c hk => ?_, ?_, ?_, fun c hm => ?_, fun c hc => ?_⟩
  · show qp.sqTail = (s.submitted ++ [_]).length % n
    rw [hq.sqTail, h.tail, h.nSqe, List.length_append, List.length_singleton, Nat.mod_add_mod]
  · exact (hq.cid i).trans (h.sqeCid i hi)
  · show c = k % n
    simp only [Sq.submit, hcid] at hk
    rcases Nat.lt_or_ge k s.submitted.length with hlt | hge
    · rw [List.getElem?_append_left hlt] at hk
      exact h.cids k c hk
    · rw [List.getElem?_append_right hge, List.getElem?_singleton] at hk
      split at hk
      · rename_i hz
        rw [← Option.some.inj hk, h.tail, show k = s.submitted.length by omega]
      · cases hk
  · show s.fetched ≤ (s.submitted ++ [_]).length
    have := h.fetched
    rw [List.length_append]
    omega
  · rw [hlive]
    exact List.nodup_append.2 ⟨h.nodup, List.nodup_singleton _, fun a ha b hb => by
      rw [List.mem_singleton.1 hb]
      exact fun he => hdead (he ▸ ha)⟩
  · rw [hlive] at hm
    rcases List.mem_append.1 hm with hm | hm
    · exact h.lt c hm
    · rw [List.mem_singleton.1 hm]
      exact htail
  · show qp.doneFlag c = 0 ↔ _
    rw [hlive, hq.doneFlag, Function.update_apply, List.mem_append, List.mem_singleton]
    split
    · rename_i he
      exact ⟨fun _ => .inr he, fun _ => rfl⟩
    · rename_i hne
      rw [h.done c hc, or_iff_left hne]

theorem SqInv.step {l : SqLabel} (hs : (sqRing n).step s l s') : SqInv n s' := by
  cases hs with
  | request => exact h.setPc _
  | check => exact h.setPc _
  | poll => exact h.setPc _
  | submit _ hfree hq => exact h.submit hn hfree hq
  | look =>
    unfold Sq.look
    split
    · rename_i hr
      exact h.reap hn hr _
    · exact h.leaveCq _ _
  | fetch hc => exact h.fetch hc
  | complete hc => exact h.complete hn hc

end

theorem sqInv_of_reach {n : Nat} (hn : 0 < n) {s : Sq} (h : (sqRing n).Reach s) : SqInv n s :=
  LTS.ReachIf.induct (P := SqInv n) (fun _ => SqInv.init hn) (fun _ _ _ hi _ hs => hi.step hn hs) h

/-- What the device has fetched it is working on, or has completed. -/
theorem fetched_of_reach {n : Nat} {s : Sq} (h : (sqRing n).Reach s) :
    s.pending.length + s.posted.length = s.fetched := by
  refine LTS.ReachIf.induct (P := fun s : Sq => s.pending.length + s.posted.length = s.fetched)
    (fun s hi => ?_) (fun s l s' hi _ hs => ?_) h
  · obtain ⟨m, mem, rfl⟩ := hi
    rfl
  · cases hs with
    | look =>
      unfold Sq.look
      split <;> exact hi
    | fetch hc =>
      dsimp only
      rw [List.length_append, List.length_singleton]
      omega
    | complete hc =>
      have hlt := (List.getElem?_eq_some_iff.1 hc).1
      dsimp only
      rw [List.length_append, List.length_singleton, List.length_eraseIdx_of_lt hlt]
      omega
    | _ => exact hi

/-! ## Runs without a fetch -/

/-- The request of `qp` that changes nothing but what it has to. -/
def QP.submitOne (qp : QP) : QP :=
  { qp.newSqe.1 with sqDoorbell := qp.newSqe.1.sqTail }

theorem submits_one (qp : QP) : Submits qp qp.submitOne :=
  ⟨rfl, rfl, rfl, rfl, rfl, rfl, fun _ => rfl, rfl, rfl, rfl⟩

/-- Requests go through while there is a slot, also when the device fetches nothing. -/
structure Unfetched (n k : Nat) (s : Sq) : Prop where
  reach : (sqRing n).Reach s
  pc : s.pc = .idle
  length : s.submitted.length = k
  fetched : s.fetched = 0
  pending : s.pending = []
  posted : s.posted = []

theorem Unfetched.next {n k : Nat} {s : Sq} (h : Unfetched n k s) (hk : k < n) : ∃ s1 s',
    (sqRing n).Reach s1 ∧ (sqRing n).step s1 .submit s' ∧ s'.qp.sqDoorbell = s'.qp.sqTail ∧
      Unfetched n (k + 1) s' := by
  have hi := sqInv_of_reach (by omega) h.reach
  have h1 : (sqRing n).Reach { s with pc := .newSqe } :=
    h.reach.step (a := .request) trivial (.request h.pc)
  have htail : s.qp.sqTail = k := by rw [hi.tail, h.length, Nat.mod_eq_of_lt hk]
  have hfree : s.qp.doneFlag s.qp.sqTail ≠ 0 := by
    intro h0
    have hm := (hi.done _ (by omega)).1 h0
    simp only [Sq.live, h.pending, h.posted, h.fetched, List.drop_nil, List.nil_append,
      List.drop_zero] at hm
    obtain ⟨j, hj, he⟩ := List.getElem_of_mem hm
    have hlen := h.length
    have hc := hi.cids j _ (List.getElem?_eq_getElem hj)
    rw [he, htail, Nat.mod_eq_of_lt (by omega)] at hc
    omega
  have hs : (sqRing n).step { s with pc := .newSqe } .submit _ :=
    .submit rfl hfree (submits_one s.qp)
  exact ⟨_, _, h1, hs, rfl, h1.step trivial hs,
    rfl, by simp [Sq.submit, h.length], h.fetched, h.pending, h.posted⟩

theorem reach_unfetched {n k : Nat} (hk : k ≤ n) : ∃ s, Unfetched n k s := by
  induction k with
  | zero => exact ⟨_, .init ⟨default, fun _ => 0, rfl⟩, rfl, rfl, rfl, rfl, rfl⟩
  | succ k ih =>
    obtain ⟨s, hs⟩ := ih (by omega)
    obtain ⟨-, s', -, -, -, hs'⟩ := hs.next (by omega)
    exact ⟨s', hs'⟩

/-- With a request in every slot the tail is back at the device's head. -/
theorem exists_overrun {n : Nat} (hn : 0 < n) : ∃ s s', (sqRing n).Reach s ∧
    (sqRing n).step s .submit s' ∧ s.unreaped + 1 = n ∧ s'.unfetched = n ∧
    s'.qp.sqDoorbell = s'.fetched % n := by
  obtain ⟨s0, h0⟩ := reach_unfetched (Nat.sub_le n 1)
  obtain ⟨s, s', hr, hs, hbell, h'⟩ := h0.next (by omega)
  have hi := sqInv_of_reach hn h'.reach
  have hlen : s'.submitted.length = n := by
    rw [h'.length]
    omega
  refine ⟨s, s', hr, hs, ?_, ?_, ?_⟩
  · have horder := hi.cq.order.length_le
    rw [h'.posted] at horder
    cases hs with
    | submit =>
      simp only [Sq.submit, List.length_append, List.length_singleton] at hlen horder
      unfold Sq.unreaped
      rw [Nat.le_zero.1 horder]
      exact hlen
  · unfold Sq.unfetched
    rw [hlen, h'.fetched, Nat.sub_zero]
  · rw [hbell, hi.tail, hlen, h'.fetched, Nat.mod_self, Nat.zero_mod]

theorem queue_overrun : ∃ s s', (sqRing QD).Reach s ∧ (sqRing QD).step s .submit s' ∧
    s'.unfetched = QD ∧ s'.qp.sqDoorbell = s'.fetched % QD ∧ ¬ s'.NotOverrun QD := by
  obtain ⟨s, s', hr, hs, -, hun, heq⟩ := exists_overrun QD_pos
  exact ⟨s, s', hr, hs, hun, heq, fun h => h.2 heq⟩

/-- **The submission queue is not overrun** by a request as long as the callers keep one entry free:
with it, at most `n - 1` requests wait for their completion. With one more, some run overruns the
queue. -/
theorem not_overrun {n : Nat} (hn : 0 < n) :
    (∀ s s', (sqRing n).Reach s → (sqRing n).step s .submit s' → s.Spare n → s'.NotOverrun n) ∧
    ∃ s s', (sqRing n).Reach s ∧ (sqRing n).step s .submit s' ∧ s.unreaped + 1 = n ∧
      ¬ s'.NotOverrun n := by
  constructor
  · intro s s' h hs hspare
    have hi := sqInv_of_reach hn h
    have hreap : s.reaped.length ≤ s.fetched := by
      have := fetched_of_reach h
      have := hi.cq.order.length_le
      omega
    have hle := hi.fetched
    unfold Sq.Spare Sq.unreaped at hspare
    cases hs with
    | submit _ hfree hq =>
      have hlen : (s.submitted ++ [(s.qp.sqe s.qp.sqTail).cid]).length = s.submitted.length +
        1 := by simp
      unfold Sq.NotOverrun Sq.unfetched Sq.submit
      dsimp only
      rw [hlen, hq.sqDoorbell, hq.sqTail, hi.tail, hi.nSqe, Nat.mod_add_mod]
      refine ⟨by omega, fun he => ?_⟩
      have := Cyclic.eq_of_mod_eq he.symm (by omega) (by omega)
      omega
  · obtain ⟨s, s', hr, hs, hlen, -, heq⟩ := exists_overrun hn
    refine ⟨s, s', hr, hs, hlen, fun h => h.2 heq⟩

/-- The first request of a queue pair with two entries. -/
theorem not_overrun_first : ∃ s s', (sqRing 2).Reach s ∧ (sqRing 2).step s .submit s' ∧
    s'.NotOverrun 2 := by
  obtain ⟨s0, h0⟩ := reach_unfetched (Nat.zero_le 2)
  obtain ⟨s, s', hr, hs, -, h'⟩ := h0.next (by decide)
  refine ⟨s, s', hr, hs, (not_overrun (by decide)).1 s s' hr hs ?_⟩
  cases hs with
  | submit =>
    have hlen := h'.length
    simp only [Sq.submit, List.length_append, List.length_singleton] at hlen
    unfold Sq.Spare Sq.unreaped
    omega

end Nvme

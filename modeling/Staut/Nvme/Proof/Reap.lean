import Staut.Nvme.Reap
import Staut.Nvme.Proof.Rings

/-!
# The admin queue copies to where the memory of its object points

`RInv`: the ids of a queue with its device (`SqInv`), and for every id what `rbuf` and `len` say of
the command that took it last: a read's own buffer and length, nothing to copy for a write, and for
an admin command still what the memory held that the object was built in. A completion is for a
command that took its id last, so every copy is right unless that memory decides
(`copies_right_iff`).
-/

set_option autoImplicit false

namespace Nvme

open CSem Run PhaseRing

/-! ## The invariant -/

/-- `n_sqe` and `n_cqe` of queue `qid`. -/
def entries (qid : Nat) : Nat := if qid = 0 then AQD else QD

theorem entries_pos (qid : Nat) : 0 < entries qid := by
  unfold entries
  split
  · decide
  · exact QD_pos

/-- Both rings. -/
def Reap.toSq (s : Reap) : Sq :=
  ⟨s.qp, s.mem, .idle, s.submitted, s.fetched, s.pending, s.posted, s.reaped⟩

/-- The command that waits for its id. -/
def ReapPc.call : ReapPc → Option Taken
  | .newSqe t => some t
  | .checkCq (.newSqe t) _ => some t
  | _ => none

/-- What `rbuf` and `len` say of the command that took `cid` last. -/
def FieldsOf (m qp : QP) (cid : Nat) : Option Taken → Prop
  | some (.read r) => qp.rbuf cid = some r.buf ∧ qp.len cid = r.len
  | some (.write _) => qp.rbuf cid = none
  | _ => qp.rbuf cid = m.rbuf cid ∧ qp.len cid = m.len cid

structure RInv (qid : Nat) (m : QP) (s : Reap) : Prop where
  sq : SqInv (entries qid) s.toSq
  call : ∀ t, s.pc.call = some t → t.On qid
  on : ∀ c t, s.taken c = some t → t.On qid
  taken : ∀ c, s.qp.doneFlag c = 0 → s.taken c ≠ none
  fields : ∀ c, FieldsOf m s.qp c (s.taken c)

/-- The memory that the object is built in makes no admin completion copy. -/
def Clean (qid : Nat) (m : QP) : Prop := qid ≠ 0 ∨ ∀ cid < AQD, m.rbuf cid = none

/-- The copies of a look are what it stores. -/
theorem reap_copyOut (s : Reap) : (s.qp.reap s.mem).2 =
    s.copyOut.foldl (fun mem c => store mem c.dst (s.qp.bounce c.cid c.len)) s.mem := by
  unfold QP.reap Reap.copyOut
  cases hb : s.qp.rbuf (s.qp.cqe s.qp.cqHead).cid with
  | none => simp only [hb, List.foldl_nil]
  | some dst => simp only [hb, List.foldl_cons, List.foldl_nil]

theorem take_submits (cfg : Cfg) (qp : QP) (mem : Nat → UInt8) {qid : Nat} {t : Taken}
    (h : t.On qid) :
    Submits qp (qp.take cfg mem t) := by
  cases t with
  | read r | write r =>
    have hq := request_submits cfg qp mem r
    unfold QP.request at hq
    rw [h.2] at hq
    exact hq
  | admin c => exact submits_one qp

/-- A command sets the fields of its own id. -/
theorem take_fields (cfg : Cfg) (m qp : QP) (mem : Nat → UInt8) {qid : Nat} {t : Taken}
    (h : t.On qid) {taken : Nat → Option Taken} (hon : ∀ c t, taken c = some t → t.On qid)
    (hf : ∀ c, FieldsOf m qp c (taken c)) (c : Nat) :
    FieldsOf m (qp.take cfg mem t) c (Function.update taken qp.sqTail (some t) c) := by
  by_cases hc : c = qp.sqTail
  · rw [hc, Function.update_self]
    cases t with
    | read r => exact ⟨Function.update_self .., Function.update_self ..⟩
    | write r => exact Function.update_self ..
    | admin a =>
      -- nothing but admin commands before it
      have hold := hf qp.sqTail
      cases ht : taken qp.sqTail with
      | none =>
        rw [ht] at hold
        exact hold
      | some t' =>
        rw [ht] at hold
        have hon' := hon _ _ ht
        cases t' with
        | read r | write r => exact absurd h hon'.1
        | admin a' => exact hold
  · rw [Function.update_of_ne hc]
    have hrbuf : (qp.take cfg mem t).rbuf c = qp.rbuf c := by
      cases t with
      | read r | write r => exact Function.update_of_ne hc ..
      | admin a => rfl
    have hlen : (qp.take cfg mem t).len c = qp.len c := by
      cases t with
      | read r | write r => exact Function.update_of_ne hc ..
      | admin a => rfl
    have hold := hf c
    unfold FieldsOf at hold ⊢
    rw [hrbuf, hlen]
    exact hold

theorem call_checkCq (a : AfterCq) (b b' : Bool) :
    (ReapPc.checkCq a b).call = (ReapPc.checkCq a b').call := by
  cases a <;> rfl

theorem AfterCq.pc_call (qp : QP) (a : AfterCq) (b : Bool) {t : Taken}
    (h : (a.pc qp).call = some t) :
    (ReapPc.checkCq a b).call = some t := by
  cases a with
  | newSqe t' => exact h
  | check => exact h
  | wait cid =>
    simp only [AfterCq.pc] at h
    split at h
    · cases h
    · cases h

section
variable {cfg : Cfg} {qid : Nat} {m : QP} {s s' : Reap}

theorem RInv.init (hi : (reaping cfg qid m).init s) : RInv qid m s := by
  obtain ⟨mem, rfl⟩ := hi
  have hsq : (sqRing (entries qid)).init ⟨QP.new qid m, mem, .idle, [], 0, [], [], []⟩ :=
    ⟨m, mem, rfl⟩
  exact ⟨SqInv.init (entries_pos qid) hsq, nofun, nofun, nofun, fun _ => ⟨rfl, rfl⟩⟩

variable (h : RInv qid m s)
include h

/-- A step that takes no id. -/
theorem RInv.frame (hsq : SqInv (entries qid) s'.toSq) (hpc : ∀ t, s'.pc.call = some t → t.On qid)
    (h1 : s'.taken = s.taken) (h2 : ∀ c, s'.qp.doneFlag c = 0 → s.qp.doneFlag c = 0)
    (h3 : s'.qp.rbuf = s.qp.rbuf) (h4 : s'.qp.len = s.qp.len) : RInv qid m s' := by
  refine ⟨hsq, hpc, ?_, fun c hc => ?_, fun c => ?_⟩
  · rw [h1]
    exact h.on
  · rw [h1]
    exact h.taken c (h2 c hc)
  · have hf := h.fields c
    unfold FieldsOf at hf ⊢
    rw [h1, h3, h4]
    exact hf

/-- What the completion at the head is for. -/
theorem RInv.head_taken (hr : s.qp.cqReady = true) :
    (s.qp.cqe s.qp.cqHead).cid < entries qid ∧
    ∃ t, s.taken (s.qp.cqe s.qp.cqHead).cid = some t := by
  have hlive := h.sq.head_live (entries_pos qid) hr
  have hlt := h.sq.lt _ hlive
  have hne := h.taken _ ((h.sq.done _ hlt).2 hlive)
  exact ⟨hlt, Option.ne_none_iff_exists'.1 hne⟩

theorem RInv.copyOut (hm : Clean qid m) (hr : s.qp.cqReady = true) :
    ∀ c ∈ s.copyOut, ∃ r, c.taken = some (.read r) ∧ c.dst = r.buf ∧ c.len = r.len := by
  obtain ⟨hlt, t, ht⟩ := h.head_taken hr
  have hon := h.on _ t ht
  have hf := h.fields (s.qp.cqe s.qp.cqHead).cid
  rw [ht] at hf
  unfold Reap.copyOut
  intro c hc
  cases t with
  | read r =>
    obtain ⟨hbuf, hlen⟩ := hf
    simp only [hbuf, hlen, ht, List.mem_singleton] at hc
    exact ⟨r, by rw [hc], by rw [hc], by rw [hc]⟩
  | write r =>
    have hbuf : s.qp.rbuf (s.qp.cqe s.qp.cqHead).cid = none := hf
    simp only [hbuf, List.not_mem_nil] at hc
  | admin a =>
    have hq : qid = 0 := hon
    unfold entries at hlt
    rw [if_pos hq] at hlt
    have hbuf := hf.1.trans (hm.resolve_left (fun hne => hne hq) _ hlt)
    simp only [hbuf, List.not_mem_nil] at hc

theorem RInv.look {a : AfterCq} {b : Bool} (hpc : s.pc = .checkCq a b) :
    RInv qid m (s.look a b) := by
  have hcall := h.call
  rw [hpc] at hcall
  unfold Reap.look
  split
  · rename_i hr
    refine h.frame (h.sq.reap (entries_pos qid) hr .idle) (fun t ht => hcall t ?_) rfl
      (fun c hc => ?_)
      rfl rfl
    · rw [call_checkCq a b true]
      exact ht
    simp only [QP.reap, Function.update_apply] at hc
    split at hc
    · cases hc
    · exact hc
  · have hleave := h.sq.leaveCq b .idle
    refine h.frame hleave (fun t ht => hcall t (AfterCq.pc_call _ a b ht)) rfl
      (fun c hc => ?_) ?_ ?_
    · unfold QP.leaveCq at hc
      cases b <;> exact hc
    · unfold QP.leaveCq
      cases b <;> rfl
    · unfold QP.leaveCq
      cases b <;> rfl

theorem RInv.submit {t : Taken} (hpc : s.pc = .newSqe t) (hfree : s.qp.doneFlag s.qp.sqTail ≠ 0) :
    RInv qid m (s.submit cfg t) := by
  have hon : t.On qid := h.call t (by rw [hpc]; rfl)
  have hq := take_submits cfg s.qp s.mem hon
  refine ⟨h.sq.submit (entries_pos qid) hfree hq, fun t' ht' => ?_, fun c t' ht' => ?_,
    fun c hc => ?_, take_fields cfg m s.qp s.mem hon h.on h.fields⟩
  · unfold Reap.submit Taken.pc at ht'
    cases t <;> cases ht'
  · simp only [Reap.submit, Function.update_apply] at ht'
    split at ht'
    · rw [← Option.some.inj ht']
      exact hon
    · exact h.on c t' ht'
  · simp only [Reap.submit, hq.doneFlag, Function.update_apply] at hc ⊢
    split
    · exact Option.some_ne_none t
    · rename_i hne
      rw [if_neg hne] at hc
      exact h.taken c hc

theorem RInv.step {l : ReapLabel} (hs : ReapStep cfg qid s l s') : RInv qid m s' := by
  cases hs with
  | request hpc hon =>
    refine h.frame h.sq (fun t ht => ?_) rfl (fun _ => id) rfl rfl
    rw [← Option.some.inj ht]
    exact hon
  | check hpc => exact h.frame h.sq nofun rfl (fun _ => id) rfl rfl
  | poll hpc _ =>
    refine h.frame h.sq (fun t ht => h.call t ?_) rfl (fun _ => id) rfl rfl
    rw [hpc]
    exact ht
  | submit hpc hfree => exact h.submit hpc hfree
  | look hpc => exact h.look hpc
  | fetch hc => exact h.frame (h.sq.fetch hc) h.call rfl (fun _ => id) rfl rfl
  | complete hc =>
    exact h.frame (h.sq.complete (entries_pos qid) hc) h.call rfl (fun _ => id) rfl rfl
  | dma buf4k =>
    have hsq : SqInv (entries qid) { s.toSq with qp := { s.qp with buf4k := buf4k } } :=
      ⟨h.sq.cq.frame rfl rfl rfl rfl, h.sq.nSqe, h.sq.tail, h.sq.sqeCid, h.sq.cids, h.sq.fetched,
        h.sq.nodup, h.sq.lt, h.sq.done⟩
    exact h.frame hsq h.call rfl (fun _ => id) rfl rfl
  | app mem =>
    have hsq : SqInv (entries qid) { s.toSq with mem := mem } :=
      ⟨h.sq.cq, h.sq.nSqe, h.sq.tail, h.sq.sqeCid, h.sq.cids, h.sq.fetched, h.sq.nodup,
        h.sq.lt, h.sq.done⟩
    exact h.frame hsq h.call rfl (fun _ => id) rfl rfl

theorem RInv.copies (hm : Clean qid m) (hc : CopiesRight s) {l : ReapLabel}
    (hs : ReapStep cfg qid s l s') : CopiesRight s' := by
  cases hs with
  | look =>
    unfold Reap.look
    split
    · rename_i hr
      intro c hmem
      rcases List.mem_append.1 hmem with hmem | hmem
      · exact hc c hmem
      · exact h.copyOut hm hr c hmem
    · exact hc
  | request => exact hc
  | check => exact hc
  | poll => exact hc
  | submit => exact hc
  | fetch => exact hc
  | complete => exact hc
  | dma => exact hc
  | app => exact hc

end

theorem rinv_of_reach {cfg : Cfg} {qid : Nat} {m : QP} {s : Reap}
    (h : (reaping cfg qid m).Reach s) :
    RInv qid m s :=
  LTS.ReachIf.induct (P := RInv qid m) (fun _ => RInv.init) (fun _ _ _ hi _ hs => hi.step hs) h

theorem copies_of_clean {cfg : Cfg} {qid : Nat} {m : QP} (hm : Clean qid m) {s : Reap}
    (h : (reaping cfg qid m).Reach s) : CopiesRight s := by
  have hi : RInv qid m s ∧ CopiesRight s := by
    refine LTS.ReachIf.induct (P := fun s => RInv qid m s ∧ CopiesRight s)
      (fun s hi => ⟨.init hi, ?_⟩)
      (fun s l s' hi _ hs => ⟨hi.1.step hs, hi.1.copies hm hi.2 hs⟩) h
    obtain ⟨mem, rfl⟩ := hi
    exact nofun
  exact hi.2

/-! ## Admin commands, one after the other -/

/-- `k` admin commands are done. -/
structure Ran (cfg : Cfg) (m : QP) (k : Nat) (s : Reap) : Prop where
  reach : (reaping cfg 0 m).Reach s
  pc : s.pc = .idle
  submitted : s.submitted.length = k
  fetched : s.fetched = k
  pending : s.pending = []
  reaped : s.reaped = s.posted

/-- One more is completed, and `req_and_wait` has not looked yet. -/
structure Waits (cfg : Cfg) (m : QP) (k : Nat) (s : Reap) : Prop where
  reach : (reaping cfg 0 m).Reach s
  pc : s.pc = .checkCq (.wait k) false
  submitted : s.submitted.length = k + 1
  fetched : s.fetched = k + 1
  pending : s.pending = []
  posted : s.posted = s.reaped ++ [k]

section
variable {cfg : Cfg} {m : QP} {k : Nat} {s : Reap}

/-- The slot of the next command is free, and has its id. -/
theorem Ran.slot (h : Ran cfg m k s) (hk : k < AQD) : s.qp.sqTail = k ∧ s.qp.doneFlag k ≠ 0 ∧
    (s.qp.sqe k).cid = k := by
  have hi := (rinv_of_reach h.reach).sq
  have ht : s.qp.sqTail = s.submitted.length % AQD := hi.tail
  have hlive : s.toSq.live = [] := by
    simp only [Sq.live, Reap.toSq, h.pending, h.reaped, h.fetched, ← h.submitted, List.drop_length,
      List.append_nil]
  refine ⟨by rw [ht, h.submitted, Nat.mod_eq_of_lt hk], fun h0 => ?_, hi.sqeCid k hk⟩
  have hm := (hi.done k hk).1 h0
  rw [hlive] at hm
  cases hm

theorem Ran.run (h : Ran cfg m k s) (hk : k < AQD) (c : AdminCmd) : ∃ s', Waits cfg m k s' ∧
    s'.copies = s.copies ∧ s'.taken k = some (.admin c) := by
  obtain ⟨htail, hfree, hcid⟩ := h.slot hk
  rw [← htail] at hfree
  let s1 : Reap := { s with pc := .newSqe (.admin c) }
  let s2 : Reap := s1.submit cfg (.admin c)
  let s3 : Reap := { s2 with fetched := s2.fetched + 1, pending := s2.pending ++ [k] }
  have hsub : s2.submitted = s.submitted ++ [k] := by
    show s.submitted ++ [(s.qp.sqe s.qp.sqTail).cid] = _
    rw [htail, hcid]
  have hfetch : s2.submitted[s2.fetched]? = some k := by
    show s2.submitted[s.fetched]? = _
    rw [hsub, h.fetched, ← h.submitted, List.getElem?_concat_length, h.submitted]
  have hpend : s3.pending = [k] := by
    show s.pending ++ [k] = _
    rw [h.pending, List.nil_append]
  have h1 : (reaping cfg 0 m).Reach s1 := h.reach.step (a := .request _) trivial (.request h.pc rfl)
  have h2 : (reaping cfg 0 m).Reach s2 := h1.step (a := .submit) trivial (.submit rfl hfree)
  have h3 : (reaping cfg 0 m).Reach s3 := h2.step (a := .fetch) trivial (.fetch hfetch)
  have h4 : (reaping cfg 0 m).Reach (s3.complete 0 k) :=
    h3.step (a := .complete 0) trivial (.complete (by rw [hpend]; rfl))
  refine ⟨s3.complete 0 k, ⟨h4, ?_, ?_, ?_, ?_, ?_⟩, rfl, ?_⟩
  · show ReapPc.checkCq (.wait s.qp.sqTail) false = _
    rw [htail]
  · show s2.submitted.length = _
    rw [hsub, List.length_append, List.length_singleton, h.submitted]
  · show s.fetched + 1 = _
    rw [h.fetched]
  · show s3.pending.eraseIdx 0 = []
    rw [hpend]
    rfl
  · show s.posted ++ [k] = s.reaped ++ [k]
    rw [h.reaped]
  · show Function.update s.taken s.qp.sqTail _ k = _
    rw [htail, Function.update_self]

variable (h : Waits cfg m k s)
include h

theorem Waits.ready : s.qp.cqReady = true ∧ (s.qp.cqe s.qp.cqHead).cid = k := by
  have hcq := (rinv_of_reach h.reach).sq.cq
  have hr : s.qp.cqReady = true := by
    refine (hcq.ready_iff (entries_pos 0)).2 ?_
    show s.reaped.length < s.posted.length
    rw [h.posted, List.length_append]
    exact Nat.lt_succ_self _
  have hhead : s.posted[s.reaped.length]? = some (s.qp.cqe s.qp.cqHead).cid :=
    hcq.head_cid (entries_pos 0) hr
  rw [h.posted, List.getElem?_concat_length] at hhead
  exact ⟨hr, (Option.some.inj hhead).symm⟩

theorem Waits.copies {c : AdminCmd} (ht : s.taken k = some (.admin c)) {dst : Nat}
    (hm : m.rbuf k = some dst) : (s.look (.wait k) false).copies =
      s.copies ++ [⟨k, dst, m.len k, some (.admin c)⟩] := by
  obtain ⟨hr, hcid⟩ := h.ready
  have hf := (rinv_of_reach h.reach).fields k
  rw [ht] at hf
  have hout : s.copyOut = [⟨k, dst, m.len k, some (.admin c)⟩] := by
    simp only [Reap.copyOut, hcid, hf.1, hf.2, hm, ht]
  unfold Reap.look
  rw [if_pos hr, hout]

theorem Waits.look : (reaping cfg 0 m).Reach (s.look (.wait k) false) :=
  h.reach.step (a := .look) trivial (.look h.pc)

theorem Waits.next : ∃ s', Ran cfg m (k + 1) s' := by
  obtain ⟨hr, hcid⟩ := h.ready
  have h1 := h.look
  have heq : s.look (.wait k) false = { s with
      qp := (s.qp.reap s.mem).1
      mem := (s.qp.reap s.mem).2
      pc := .checkCq (.wait k) true
      reaped := s.reaped ++ [k]
      copies := s.copies ++ s.copyOut } := by
    unfold Reap.look
    rw [if_pos hr, hcid]
  obtain ⟨s1, hs1⟩ : ∃ s1, s1 = s.look (.wait k) false := ⟨_, rfl⟩
  rw [← hs1] at h1 heq
  have hpc : s1.pc = .checkCq (.wait k) true := by rw [heq]
  have hreaped : s1.reaped = s1.posted := by
    rw [heq]
    exact h.posted.symm
  have hdone : s1.qp.done k = true := by
    rw [heq]
    simp [QP.done, QP.reap, hcid]
  have hempty : ¬ s1.qp.cqReady = true := by
    intro hr1
    have hlt : s1.reaped.length < s1.posted.length :=
      ((rinv_of_reach h1).sq.cq.ready_iff (entries_pos 0)).1 hr1
    rw [hreaped] at hlt
    exact Nat.lt_irrefl _ hlt
  have hlook : s1.look (.wait k) true = { s1 with qp := s1.qp.leaveCq true, pc := .idle } := by
    unfold Reap.look
    rw [if_neg hempty]
    simp only [AfterCq.pc, hdone, if_true]
  have h2 : (reaping cfg 0 m).Reach (s1.look (.wait k) true) :=
    h1.step (a := .look) trivial (.look hpc)
  rw [hlook] at h2
  refine ⟨_, h2, rfl, ?_, ?_, ?_, hreaped⟩
  · rw [heq]
    exact h.submitted
  · rw [heq]
    exact h.fetched
  · rw [heq]
    exact h.pending

end

theorem reach_ran (cfg : Cfg) (m : QP) {k : Nat} (hk : k ≤ AQD) : ∃ s, Ran cfg m k s := by
  induction k with
  | zero => exact ⟨_, .init ⟨fun _ => 0, rfl⟩, rfl, rfl, rfl, rfl, rfl⟩
  | succ k ih =>
    obtain ⟨s, hs⟩ := ih (by omega)
    obtain ⟨s', hs', -⟩ := hs.run (by omega) .identify
    exact hs'.next

/-- **Every copy is for the read that took the id last**, in every run, exactly when the queue is
not the admin queue or its object is built where every `rbuf` reads as `NULL`. -/
theorem copies_right_iff (cfg : Cfg) (qid : Nat) (m : QP) :
    (∀ s, (reaping cfg qid m).Reach s → CopiesRight s) ↔ qid ≠ 0 ∨ ∀ cid < AQD,
    m.rbuf cid = none := by
  refine ⟨fun hall => ?_, fun hm s h => copies_of_clean hm h⟩
  by_cases hq : qid = 0
  · subst hq
    refine .inr fun cid hlt => ?_
    cases hm : m.rbuf cid with
    | none => rfl
    | some dst =>
      -- the command that takes this id copies
      obtain ⟨s, hs⟩ := reach_ran cfg m (Nat.le_of_lt hlt)
      obtain ⟨s', hs', -, ht⟩ := hs.run hlt .identify
      have hc := hall _ hs'.look ⟨cid, dst, m.len cid, some (.admin .identify)⟩ (by
        rw [hs'.copies ht hm]
        exact List.mem_append_right _ (List.mem_singleton.2 rfl))
      obtain ⟨r, hr, -⟩ := hc
      cases hr
  · exact .inl hq

/-- The identify command of `__nvme_init`, in memory that was used before. -/
theorem identify_copies : ∃ s, (reaping ⟨1, 1, 1, 1⟩ 0 { (default : QP) with
      rbuf := fun _ => some 100
      len := fun _ => 4 }).Reach s ∧
    s.copies = [⟨0, 100, 4, some (.admin .identify)⟩] ∧ ¬ CopiesRight s := by
  have h0 : Ran ⟨1, 1, 1, 1⟩ { (default : QP) with rbuf := fun _ => some 100, len := fun _ => 4 } 0
    _ :=
    ⟨.init ⟨fun _ => 0, rfl⟩, rfl, rfl, rfl, rfl, rfl⟩
  obtain ⟨s', hs', hcopies, ht⟩ := h0.run (by decide) .identify
  have hc := hs'.copies ht rfl
  rw [hcopies] at hc
  refine ⟨_, hs'.look, hc, fun hright => ?_⟩
  obtain ⟨r, hr, -⟩ := hright _ (by rw [hc]; exact List.mem_singleton.2 rfl)
  cases hr

end Nvme

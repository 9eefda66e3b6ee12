import Staut.Nvme.Queue
import Mathlib.Data.List.Nodup
import Mathlib.Data.List.Perm.Basic
import Mathlib.Data.Finset.Card
import Mathlib.Data.Finset.Range

/-!
# The queue pair's invariant

`QInv q` ties together the request history, the device's commands, the completion ring, `done_flag`,
`rbuf`/`len` and the bounce buffers:

* the live commands (`Queue.live`: submitted, not yet reaped) have distinct ids, which are the ids
  with `done_flag` 0, so a slot is only reused for a command that has been reaped;
* the completion ring holds the unreaped completions (`PhaseRing.Holds`), of which there
  are at most `QD`;
* a live read still has its own `rbuf` and `len`, a completed one its data in the bounce buffer,
  and a reaped one has been copied.

It is kept by the three steps that change the queue pair: `QInv.submit`, `QInv.complete` and
`QInv.reap`.
-/

set_option autoImplicit false

namespace Nvme

open CSem Run PhaseRing

theorem QD_pos : 0 < QD := by rw [QD_eq]; decide

/-! ## Bounce buffers -/

theorem getBuf4k_disjoint {a b k l : Nat} (h : a ≠ b) (h1 : (getBuf4k a).1 = (getBuf4k b).1)
    (hk : k < BLKSZ) (hl : l < BLKSZ) : (getBuf4k a).2 + k ≠ (getBuf4k b).2 + l := by
  simp only [getBuf4k, N_2MB_PAGE_eq, BLKSZ] at *
  omega

/-- Writing one bounce buffer leaves the others alone. -/
theorem bounce_storeBuf_ne (qp : QP) (bs : List UInt8) {a b n : Nat} (h : a ≠ b)
    (hn : n ≤ BLKSZ) (hb : bs.length ≤ BLKSZ) :
    (qp.storeBuf (getBuf4k a) bs).bounce b n = qp.bounce b n := by
  unfold QP.bounce QP.storeBuf
  by_cases hp : (getBuf4k b).1 = (getBuf4k a).1
  · simp only [hp, Function.update_self]
    refine load_congr fun k hk => store_outside ?_
    apply Classical.byContradiction
    intro hin
    have hge : (getBuf4k a).2 ≤ (getBuf4k b).2 + k := by omega
    have hne := getBuf4k_disjoint (k := (getBuf4k b).2 + k - (getBuf4k a).2) (l := k) h hp.symm
      (by omega) (by omega)
    omega
  · simp only [Function.update_of_ne hp]

theorem bounce_storeBuf_same (qp : QP) (a : Nat) (bs : List UInt8) :
    (qp.storeBuf (getBuf4k a) bs).bounce a bs.length = bs := by
  unfold QP.bounce QP.storeBuf
  simp only [Function.update_self]
  exact load_store_same _ _ _

theorem bounce_take (qp : QP) {a n k : Nat} (h : k ≤ n) :
    (qp.bounce a n).take k = qp.bounce a k := load_take h

/-! ## The invariant -/

/-- The completions posted and not yet reaped. -/
def Queue.waiting (q : Queue) : List Done := q.dev.posted.drop q.reaped.length

/-- The commands submitted and not yet reaped. -/
def Queue.live (q : Queue) : List Cmd := q.dev.outstanding ++ q.waiting.map Done.cmd

def Queue.liveCids (q : Queue) : List Nat := q.live.map (·.sqe.cid)

theorem mem_cmds_of_live {q : Queue} {c : Cmd} (hc : c ∈ q.live) :
    c ∈ q.dev.outstanding ++ q.dev.posted.map Done.cmd := by
  rw [Queue.live, List.mem_append] at hc
  rw [List.mem_append]
  refine hc.imp id fun hw => ?_
  obtain ⟨d, hd, rfl⟩ := List.mem_map.1 hw
  exact List.mem_map_of_mem (List.mem_of_mem_drop hd)

/-- The command `c` was submitted for the request `x`. -/
structure CmdOf (c : Cmd) (x : Issued) : Prop where
  fits : x.req.Fits
  cid : c.sqe.cid = x.cid
  cid_lt : x.cid < QD
  opc : c.sqe.opc = x.req.opc
  prp1 : c.sqe.prp1 = getBuf4k x.cid
  cdw12 : c.sqe.cdw12 + 1 = x.req.numBlk

structure QInv (q : Queue) : Prop where
  nSqe : q.qp.nSqe = QD
  nCqe : q.qp.nCqe = QD
  tail : q.qp.sqTail < QD
  sqeCid : ∀ i < QD, (q.qp.sqe i).cid = i
  reaped : q.reaped = (q.dev.posted.take q.reaped.length).map (·.cmd.sqe.cid)
  seqs : (q.dev.outstanding.map Cmd.seq ++ q.dev.posted.map (·.cmd.seq)).Perm
    (List.range q.issued.length)
  cmds : ∀ c ∈ q.dev.outstanding ++ q.dev.posted.map Done.cmd,
    ∃ x, q.issued[c.seq]? = some x ∧ CmdOf c x
  nodup : q.liveCids.Nodup
  done : ∀ c < QD, q.qp.doneFlag c = 0 ↔ c ∈ q.liveCids
  head : q.qp.cqHead = q.reaped.length % QD
  phase : q.qp.cqPhase = phaseOf QD q.reaped.length
  ring : Holds QD (fun i => (q.qp.cqe i).cid) (fun i => (q.qp.cqe i).p)
    (q.dev.posted.map (·.cmd.sqe.cid))
  bufs : ∀ c ∈ q.live, ∀ x, q.issued[c.seq]? = some x →
    q.qp.rbuf c.sqe.cid = (if x.req.opc = .read then some x.req.buf else none) ∧
      (x.req.opc = .read → q.qp.len c.sqe.cid = x.req.len)
  data : ∀ d ∈ q.waiting, d.cmd.sqe.opc = .read → d.data.length = 512 * (d.cmd.sqe.cdw12 + 1) ∧
    q.qp.bounce d.cmd.sqe.cid d.data.length = d.data
  copied : ∀ d ∈ q.dev.posted.take q.reaped.length, ∀ x, q.issued[d.cmd.seq]? = some x →
    x.req.opc = .read → (x.req.buf, d.data.take x.req.len) ∈ q.copies

section
variable {q : Queue} (h : QInv q)
include h

theorem QInv.reaped_le : q.reaped.length ≤ q.dev.posted.length := by
  have := congrArg List.length h.reaped
  simp only [List.length_map, List.length_take] at this
  omega

theorem QInv.live_cmd {c : Cmd} (hc : c ∈ q.live) : ∃ x, q.issued[c.seq]? = some x ∧ CmdOf c x :=
  h.cmds c (mem_cmds_of_live hc)

theorem QInv.liveCids_lt {i : Nat} (hi : i ∈ q.liveCids) : i < QD := by
  obtain ⟨c, hc, rfl⟩ := List.mem_map.1 hi
  obtain ⟨x, -, hx⟩ := h.live_cmd hc
  rw [hx.cid]
  exact hx.cid_lt

/-- Distinct ids below `QD`: at most `QD` commands are live. -/
theorem QInv.live_length : q.live.length ≤ QD := by
  have h1 : q.liveCids.toFinset ⊆ Finset.range QD := fun i hi =>
    Finset.mem_range.2 (h.liveCids_lt (List.mem_toFinset.1 hi))
  have h2 := Finset.card_le_card h1
  rw [List.toFinset_card_of_nodup h.nodup, Finset.card_range] at h2
  simpa [Queue.liveCids] using h2

theorem QInv.posted_le : q.dev.posted.length ≤ q.reaped.length + QD := by
  have h1 := h.live_length
  simp only [Queue.live, Queue.waiting, List.length_append, List.length_map,
    List.length_drop] at h1
  omega

/-- The phase test finds out whether a completion is waiting. -/
theorem QInv.cqReady_iff : q.qp.cqReady = true ↔ q.reaped.length < q.dev.posted.length := by
  have hr := h.ring.ready_iff QD_pos (r := q.reaped.length) (by simpa using h.reaped_le)
    (by simpa using h.posted_le)
  simp only [List.length_map] at hr
  simp only [QP.cqReady, h.head, h.phase, decide_eq_true_eq]
  exact hr

end

/-! ## Construction -/

theorem QInv.new {qid : Nat} (hq : qid ≠ 0) (m : QP) : QInv (Queue.new qid m) where
  nSqe := by simp [Queue.new, QP.new, hq]
  nCqe := by simp [Queue.new, QP.new, hq]
  tail := QD_pos
  sqeCid i hi := by simp [Queue.new, QP.new, hq, hi]
  reaped := rfl
  seqs := by simp [Queue.new]
  cmds c hc := by simp [Queue.new] at hc
  nodup := by simp [Queue.liveCids, Queue.live, Queue.waiting, Queue.new]
  done c _ := by simp [Queue.liveCids, Queue.live, Queue.waiting, Queue.new, QP.new]
  head := by simp [Queue.new, QP.new]
  phase := (phaseOf_of_lt QD_pos).symm
  ring := Holds.nil _ fun _ _ => rfl
  bufs c hc := by simp [Queue.live, Queue.waiting, Queue.new] at hc
  data d hd := by simp [Queue.waiting, Queue.new] at hd
  copied d hd := by simp [Queue.new] at hd

/-! ## The device completes a command -/

theorem QInv.complete_waiting {q : Queue} (h : QInv q) (i : Nat) (c : Cmd) (data : List UInt8) :
    (q.complete i c data).waiting = q.waiting ++ [⟨c, data⟩] := by
  show (q.dev.posted ++ [_]).drop q.reaped.length = _
  rw [List.drop_append_of_le_length h.reaped_le]
  rfl

/-- The command only moves from one part of the live ones to the other. -/
theorem QInv.complete_live {q : Queue} (h : QInv q) {i : Nat} {c : Cmd}
    (hc : q.dev.outstanding[i]? = some c) (data : List UInt8) :
    (q.complete i c data).live.Perm q.live := by
  unfold Queue.live
  rw [h.complete_waiting, List.map_append, ← List.append_assoc]
  refine (List.perm_append_singleton c _).trans ?_
  rw [← List.cons_append]
  exact (perm_eraseIdx hc).append_right _

/-- A completion writes its own bounce buffer. -/
theorem complete_bounce {q : Queue} {c : Cmd} {x : Issued} (hcx : CmdOf c x) {data : List UInt8}
    (hd : c.sqe.opc = .read → data.length = 512 * (c.sqe.cdw12 + 1)) (i : Nat) {b n : Nat}
    (hb : b ≠ x.cid) (hn : n ≤ BLKSZ) : (q.complete i c data).qp.bounce b n = q.qp.bounce b n := by
  by_cases hr : c.sqe.opc = .read
  · have hlen : data.length ≤ BLKSZ := by
      have := hcx.fits.blk
      rw [hd hr, hcx.cdw12]
      omega
    have := bounce_storeBuf_ne q.qp data (Ne.symm hb) hn hlen
    simpa [Queue.complete, QP.complete, hr, hcx.prp1, QP.bounce] using this
  · simp [Queue.complete, QP.complete, hr, QP.bounce]

theorem QInv.complete {q : Queue} (h : QInv q) {i : Nat} {c : Cmd} {data : List UInt8}
    (hc : q.dev.outstanding[i]? = some c)
    (hd : c.sqe.opc = .read → data.length = 512 * (c.sqe.cdw12 + 1)) :
    QInv (q.complete i c data) := by
  have hmem : c ∈ q.dev.outstanding := List.mem_of_getElem? hc
  have hwait := h.complete_waiting i c data
  have htake : (q.dev.posted ++ [(⟨c, data⟩ : Done)]).take q.reaped.length =
      q.dev.posted.take q.reaped.length := List.take_append_of_le_length h.reaped_le
  have hlive := h.complete_live hc data
  have hcids : (q.complete i c data).liveCids.Perm q.liveCids := hlive.map _
  obtain ⟨x, hx, hcx⟩ := h.live_cmd (List.mem_append_left _ hmem)
  refine
    { nSqe := h.nSqe
      nCqe := h.nCqe
      tail := h.tail
      sqeCid := h.sqeCid
      reaped := ?_
      seqs := ?_
      cmds := ?_
      nodup := (hcids.nodup_iff).2 h.nodup
      done := fun k hk => by rw [hcids.mem_iff]; exact h.done k hk
      head := h.head
      phase := h.phase
      ring := ?_
      bufs := fun k hk => h.bufs k (hlive.mem_iff.1 hk)
      data := ?_
      copied := ?_ }
  · show q.reaped = ((q.dev.posted ++ [_]).take q.reaped.length).map _
    rw [htake]
    exact h.reaped
  · show ((q.dev.outstanding.eraseIdx i).map Cmd.seq ++
      (q.dev.posted ++ [(⟨c, data⟩ : Done)]).map (·.cmd.seq)).Perm _
    refine List.Perm.trans ?_ h.seqs
    rw [List.map_append, ← List.append_assoc]
    refine (List.perm_append_singleton _ _).trans ?_
    show (c.seq :: ((q.dev.outstanding.eraseIdx i).map Cmd.seq ++ _)).Perm _
    rw [← List.cons_append]
    exact ((perm_eraseIdx hc).map Cmd.seq).append_right _
  · intro k hk
    refine h.cmds k ?_
    simp only [Queue.complete, List.map_append, List.map_cons, List.map_nil, List.mem_append,
      List.mem_singleton] at hk ⊢
    rcases hk with hk | hk | rfl
    · exact .inl (List.mem_of_mem_eraseIdx hk)
    · exact .inr hk
    · exact .inl hmem
  · show Holds QD _ _ ((q.dev.posted ++ [(⟨c, data⟩ : Done)]).map _)
    rw [List.map_append, List.map_singleton]
    refine h.ring.post QD_pos _ (fun j _ => ?_) (fun j _ => ?_) <;>
      by_cases hj : j = q.dev.posted.length % QD <;>
        simp [Queue.complete, QP.complete, h.nCqe, hj]
  · intro d hd' hr
    rw [hwait, List.mem_append, List.mem_singleton] at hd'
    rcases hd' with hd' | rfl
    · obtain ⟨h1, h2⟩ := h.data d hd' hr
      refine ⟨h1, ?_⟩
      have hdl : d.cmd ∈ q.live := List.mem_append_right _ (List.mem_map_of_mem hd')
      obtain ⟨y, hy, hcy⟩ := h.live_cmd hdl
      -- another live command, so another bounce buffer
      have hne : d.cmd.sqe.cid ≠ x.cid := by
        have hn := h.nodup
        simp only [Queue.liveCids, Queue.live, List.map_append, List.nodup_append] at hn
        intro he
        refine hn.2.2 _ (List.mem_map_of_mem hmem) _
          (List.mem_map_of_mem (List.mem_map_of_mem hd')) ?_
        rw [he, hcx.cid]
      have hb := hcy.fits.blk
      rw [complete_bounce hcx hd i hne (by rw [h1, hcy.cdw12]; omega)]
      exact h2
    · refine ⟨hd hr, ?_⟩
      have hr' : c.sqe.opc = .read := hr
      have := bounce_storeBuf_same q.qp x.cid data
      simpa [Queue.complete, QP.complete, hr', hcx.prp1, hcx.cid, QP.bounce] using this
  · intro d hd' y hy hr
    refine h.copied d ?_ y hy hr
    rw [← htake]
    exact hd'

/-! ## Reaping -/

/-- Reaping takes the oldest of the waiting completions. -/
theorem reap_waiting {q : Queue} (mem : Nat → UInt8)
    (hr : q.reaped.length < q.dev.posted.length) :
    ∃ d, q.dev.posted[q.reaped.length]? = some d ∧ q.waiting = d :: (q.reap mem).1.waiting := by
  refine ⟨_, List.getElem?_eq_getElem hr, ?_⟩
  show q.dev.posted.drop q.reaped.length = _ :: q.dev.posted.drop (q.reaped ++ [_]).length
  rw [List.drop_eq_getElem_cons hr, List.length_append, List.length_singleton]

theorem reap_live {q : Queue} (mem : Nat → UInt8) {d : Done}
    (hwait : q.waiting = d :: (q.reap mem).1.waiting) :
    q.live.Perm (d.cmd :: (q.reap mem).1.live) := by
  unfold Queue.live
  rw [hwait]
  exact List.perm_middle

section
variable {q : Queue} (h : QInv q)
include h

/-- The entry at the head is the oldest waiting completion. -/
theorem QInv.head_cid {d : Done} (hd : q.dev.posted[q.reaped.length]? = some d) :
    (q.qp.cqe q.qp.cqHead).cid = d.cmd.sqe.cid := by
  rw [h.head]
  refine (h.ring.entry q.reaped.length _ ?_ (by simpa using h.posted_le)).1
  rw [List.getElem?_map, hd]
  rfl

/-- The data of a waiting read is what its reaping will copy. -/
theorem QInv.bounce_waiting {d : Done} (hd : d ∈ q.waiting) {x : Issued}
    (hx : q.issued[d.cmd.seq]? = some x) (hr : x.req.opc = .read) :
    q.qp.rbuf d.cmd.sqe.cid = some x.req.buf ∧
      q.qp.bounce d.cmd.sqe.cid (q.qp.len d.cmd.sqe.cid) = d.data.take x.req.len ∧
      x.req.len ≤ d.data.length := by
  have hdl : d.cmd ∈ q.live := List.mem_append_right _ (List.mem_map_of_mem hd)
  obtain ⟨y, hy, hcx⟩ := h.live_cmd hdl
  obtain rfl := Option.some.inj (hx.symm.trans hy)
  obtain ⟨hb1, hb2⟩ := h.bufs _ hdl x hx
  obtain ⟨hl, hdat⟩ := h.data d hd (hcx.opc.trans hr)
  have hle : x.req.len ≤ d.data.length := by
    have := hcx.fits.len
    rw [hl, hcx.cdw12]
    omega
  rw [if_pos hr] at hb1
  refine ⟨hb1, ?_, hle⟩
  rw [hb2 hr, ← bounce_take _ hle, hdat]

/-- What reaping does to the memory: a read's bytes go to its caller. -/
theorem QInv.reap_mem {d : Done} (hd : q.dev.posted[q.reaped.length]? = some d)
    (hw : d ∈ q.waiting) {x : Issued} (hx : q.issued[d.cmd.seq]? = some x) (mem : Nat → UInt8) :
    (q.reap mem).2 =
      if x.req.opc = .read then store mem x.req.buf (d.data.take x.req.len) else mem := by
  have hdl : d.cmd ∈ q.live := List.mem_append_right _ (List.mem_map_of_mem hw)
  have hb := (h.bufs _ hdl x hx).1
  simp only [Queue.reap, QP.reap, h.head_cid hd]
  by_cases hr : x.req.opc = .read
  · obtain ⟨h1, h2, -⟩ := h.bounce_waiting hw hx hr
    simp only [hr, h1, h2, ↓reduceIte]
  · rw [if_neg hr] at hb
    simp only [hr, hb, ↓reduceIte]

end

theorem QInv.reap {q : Queue} (h : QInv q) (mem : Nat → UInt8)
    (hr : q.reaped.length < q.dev.posted.length) : QInv (q.reap mem).1 := by
  obtain ⟨d, hd, hwait⟩ := reap_waiting mem hr
  have htake : q.dev.posted.take (q.reaped.length + 1) =
      q.dev.posted.take q.reaped.length ++ [d] := by
    rw [List.take_add_one, hd]
    rfl
  have hcid := h.head_cid hd
  have hlive := reap_live mem hwait
  have hcids : q.liveCids.Perm (d.cmd.sqe.cid :: (q.reap mem).1.liveCids) := hlive.map _
  have hnd := hcids.nodup_iff.1 h.nodup
  rw [List.nodup_cons] at hnd
  have hdl : d.cmd ∈ q.live := hlive.mem_iff.2 List.mem_cons_self
  obtain ⟨x, hx, hcx⟩ := h.live_cmd hdl
  have hsub : ∀ c ∈ (q.reap mem).1.live, c ∈ q.live := fun c hc =>
    hlive.mem_iff.2 (List.mem_cons_of_mem _ hc)
  refine
    { nSqe := h.nSqe
      nCqe := h.nCqe
      tail := h.tail
      sqeCid := h.sqeCid
      reaped := ?_
      seqs := h.seqs
      cmds := h.cmds
      nodup := hnd.2
      done := ?_
      head := ?_
      phase := ?_
      ring := h.ring
      bufs := fun c hc => h.bufs c (hsub c hc)
      data := fun e he => h.data e (by rw [hwait]; exact List.mem_cons_of_mem _ he)
      copied := ?_ }
  · show q.reaped ++ [_] = (q.dev.posted.take (q.reaped ++ [_]).length).map _
    rw [List.length_append, List.length_singleton, htake, List.map_append, ← h.reaped, hcid]
    rfl
  · intro c hc
    show Function.update q.qp.doneFlag _ 1 c = 0 ↔ _
    rw [hcid, Function.update_apply]
    split
    · rename_i he
      rw [he]
      exact ⟨fun h0 => by simp at h0, fun h0 => absurd h0 hnd.1⟩
    · rename_i hne
      rw [h.done c hc, hcids.mem_iff, List.mem_cons]
      exact ⟨fun h0 => h0.resolve_left hne, .inr⟩
  · show (if q.qp.cqHead + 1 = q.qp.nCqe then 0 else q.qp.cqHead + 1) =
      (q.reaped ++ [_]).length % QD
    rw [List.length_append, List.length_singleton, mod_succ _ QD_pos, h.head, h.nCqe]
  · show (if q.qp.cqHead + 1 = q.qp.nCqe then q.qp.cqPhase ^^^ 1 else q.qp.cqPhase) =
      phaseOf QD (q.reaped ++ [_]).length
    rw [List.length_append, List.length_singleton, phaseOf_succ, mod_succ _ QD_pos, h.head, h.nCqe,
      h.phase]
    by_cases hw : q.reaped.length % QD + 1 = QD <;> simp [hw]
  · intro e he y hy hrd
    have he' : e ∈ q.dev.posted.take (q.reaped.length + 1) := by
      simpa [Queue.reap] using he
    show (y.req.buf, e.data.take y.req.len) ∈ q.copies ++ q.qp.copyOut
    rw [htake, List.mem_append, List.mem_singleton] at he'
    rcases he' with he' | rfl
    · exact List.mem_append_left _ (h.copied e he' y hy hrd)
    · -- the copy just made: the data is in the bounce buffer, `rbuf` and `len` are the request's
      obtain rfl : x = y := Option.some.inj (hx.symm.trans hy)
      obtain ⟨hb1, hb2, -⟩ := h.bounce_waiting (by rw [hwait]; exact List.mem_cons_self) hy hrd
      refine List.mem_append_right _ ?_
      unfold QP.copyOut
      simp only [hcid, hb1, hb2, List.mem_singleton]

/-! ## A request -/

section
variable (cfg : Cfg) (qp : QP) (mem : Nat → UInt8) (r : Req)

@[simp] theorem request_nSqe : (qp.request cfg mem r).nSqe = qp.nSqe := by
  unfold QP.request; split <;> rfl
@[simp] theorem request_nCqe : (qp.request cfg mem r).nCqe = qp.nCqe := by
  unfold QP.request; split <;> rfl
@[simp] theorem request_sqTail : (qp.request cfg mem r).sqTail = (qp.sqTail + 1) % qp.nSqe := by
  unfold QP.request; split <;> rfl
@[simp] theorem request_cqHead : (qp.request cfg mem r).cqHead = qp.cqHead := by
  unfold QP.request; split <;> rfl
@[simp] theorem request_cqPhase : (qp.request cfg mem r).cqPhase = qp.cqPhase := by
  unfold QP.request; split <;> rfl
@[simp] theorem request_cqe : (qp.request cfg mem r).cqe = qp.cqe := by
  unfold QP.request; split <;> rfl
@[simp] theorem request_doneFlag :
    (qp.request cfg mem r).doneFlag = Function.update qp.doneFlag qp.sqTail 0 := by
  unfold QP.request; split <;> rfl
@[simp] theorem request_sqe : (qp.request cfg mem r).sqe =
    Function.update qp.sqe qp.sqTail { qp.sqe qp.sqTail with
      prp1 := getBuf4k qp.sqTail, opc := r.opc, cdw10 := cdw10Of cfg r.lba,
      cdw12 := r.numBlk - 1 } := by
  unfold QP.request; split <;> rfl
@[simp] theorem request_rbuf : (qp.request cfg mem r).rbuf =
    Function.update qp.rbuf qp.sqTail (if r.opc = .read then some r.buf else none) := by
  unfold QP.request; split
  · rename_i h; rw [if_pos h]; rfl
  · rename_i h; rw [if_neg h]; rfl
@[simp] theorem request_len : (qp.request cfg mem r).len =
    Function.update qp.len qp.sqTail (if r.opc = .read then r.len else 0) := by
  unfold QP.request; split
  · rename_i h; rw [if_pos h]; rfl
  · rename_i h; rw [if_neg h]; rfl

/-- A write request fills its bounce buffer. -/
theorem request_bounce_same (hw : r.opc = .write) :
    (qp.request cfg mem r).bounce qp.sqTail r.len = load mem r.buf r.len := by
  have h := bounce_storeBuf_same qp qp.sqTail (load mem r.buf r.len)
  rw [length_load] at h
  unfold QP.request
  rw [hw]
  exact h

/-- A request leaves the other bounce buffers alone. -/
theorem request_bounce_ne {r : Req} (hr : r.Fits) {b n : Nat} (hb : b ≠ qp.sqTail)
    (hn : n ≤ BLKSZ) : (qp.request cfg mem r).bounce b n = qp.bounce b n := by
  unfold QP.request
  split
  · rfl
  · have hl : (load mem r.buf r.len).length ≤ BLKSZ := by
      rw [length_load]
      exact Nat.le_trans hr.len hr.blk
    exact bounce_storeBuf_ne qp _ (Ne.symm hb) hn hl

end

theorem submit_live (q : Queue) (cfg : Cfg) (did coreId : Nat) (mem : Nat → UInt8) (r : Req) :
    (q.submit cfg did coreId mem r).live.Perm
      (⟨q.issued.length, (q.qp.request cfg mem r).sqe q.qp.sqTail⟩ :: q.live) := by
  show ((q.dev.outstanding ++ [_]) ++ q.waiting.map Done.cmd).Perm _
  rw [List.append_assoc]
  exact List.perm_middle

theorem QInv.submit {q : Queue} (h : QInv q) (cfg : Cfg) (did coreId : Nat) (mem : Nat → UInt8)
    {r : Req} (hr : r.Fits) (hfree : q.qp.doneFlag q.qp.sqTail ≠ 0) :
    QInv (q.submit cfg did coreId mem r) := by
  let x : Issued := ⟨r, q.qp.sqTail, ridOf cfg did coreId q.qp.sqTail⟩
  let c : Cmd := ⟨q.issued.length, (q.qp.request cfg mem r).sqe q.qp.sqTail⟩
  let q' := q.submit cfg did coreId mem r
  have hcid : c.sqe.cid = q.qp.sqTail := by simp [c, h.sqeCid _ h.tail]
  have hcx : CmdOf c x := by
    have := hr.pos
    refine ⟨hr, hcid, h.tail, by simp [c, x], by simp [c, x], ?_⟩
    simp only [c, x, request_sqe, Function.update_self]
    omega
  -- the entry's former command has been reaped
  have hnew : q.qp.sqTail ∉ q.liveCids := fun hm => hfree ((h.done _ h.tail).2 hm)
  have hlive : q'.live.Perm (c :: q.live) := submit_live q cfg did coreId mem r
  have hcids : q'.liveCids.Perm (q.qp.sqTail :: q.liveCids) := by
    have := hlive.map (·.sqe.cid)
    rwa [List.map_cons, hcid] at this
  have hold : ∀ k ∈ q.live, k.sqe.cid ≠ q.qp.sqTail := fun k hk he =>
    hnew (he ▸ List.mem_map_of_mem hk)
  have hissued : ∀ n y, q.issued[n]? = some y → q'.issued[n]? = some y := fun n y hy =>
    (List.getElem?_append_left (List.getElem?_eq_some_iff.1 hy).1).trans hy
  have hlast : q'.issued[q.issued.length]? = some x := by
    show (q.issued ++ [x])[q.issued.length]? = _
    simp
  have hget : ∀ k ∈ q.dev.outstanding ++ q.dev.posted.map Done.cmd, ∀ y,
      q'.issued[k.seq]? = some y → q.issued[k.seq]? = some y := by
    intro k hk y hy
    obtain ⟨z, hz, -⟩ := h.cmds k hk
    rw [hissued _ _ hz] at hy
    rw [hz, hy]
  refine
    { nSqe := by simp [Queue.submit, h.nSqe]
      nCqe := by simp [Queue.submit, h.nCqe]
      tail := ?_
      sqeCid := ?_
      reaped := h.reaped
      seqs := ?_
      cmds := ?_
      nodup := hcids.nodup_iff.2 (List.nodup_cons.2 ⟨hnew, h.nodup⟩)
      done := ?_
      head := by simp only [Queue.submit, request_cqHead]; exact h.head
      phase := by simp only [Queue.submit, request_cqPhase]; exact h.phase
      ring := by simp only [Queue.submit, request_cqe]; exact h.ring
      bufs := ?_
      data := ?_
      copied := ?_ }
  · simp only [Queue.submit, request_sqTail, h.nSqe]
    exact Nat.mod_lt _ QD_pos
  · intro i hi
    simp only [Queue.submit, request_sqe, Function.update_apply]
    split
    · rename_i he
      rw [he]
      exact h.sqeCid _ h.tail
    · exact h.sqeCid i hi
  · show ((q.dev.outstanding ++ [c]).map Cmd.seq ++ _).Perm (List.range (q.issued ++ [x]).length)
    rw [List.map_append, List.length_append, List.length_singleton, List.range_succ,
      List.append_assoc]
    refine List.perm_middle.trans ?_
    exact (List.Perm.cons _ h.seqs).trans (List.perm_append_singleton _ _).symm
  · intro k hk
    have hk' : k ∈ (q.dev.outstanding ++ [c]) ++ q.dev.posted.map Done.cmd := hk
    rw [List.append_assoc] at hk'
    rcases List.mem_cons.1 (List.perm_middle.mem_iff.1 hk') with rfl | hk'
    · exact ⟨x, hlast, hcx⟩
    · obtain ⟨y, hy, hky⟩ := h.cmds k hk'
      exact ⟨y, hissued _ _ hy, hky⟩
  · intro k hk
    rw [hcids.mem_iff, List.mem_cons]
    simp only [Queue.submit, request_doneFlag, Function.update_apply]
    split
    · rename_i he
      exact ⟨fun _ => .inl he, fun _ => rfl⟩
    · rename_i hne
      rw [h.done k hk]
      exact ⟨.inr, fun h0 => h0.resolve_left hne⟩
  · intro k hk y hy
    rcases List.mem_cons.1 (hlive.mem_iff.1 hk) with rfl | hk
    · obtain rfl : x = y := Option.some.inj (hlast.symm.trans hy)
      simp only [Queue.submit, request_rbuf, request_len, hcid, Function.update_self]
      exact ⟨rfl, fun hrd => if_pos hrd⟩
    · simp only [Queue.submit, request_rbuf, request_len, Function.update_of_ne (hold k hk)]
      exact h.bufs k hk y (hget k (mem_cmds_of_live hk) y hy)
  · intro d hd hrd
    have hdl : d.cmd ∈ q.live := List.mem_append_right _ (List.mem_map_of_mem hd)
    obtain ⟨h1, h2⟩ := h.data d hd hrd
    obtain ⟨y, -, hdy⟩ := h.live_cmd hdl
    have hb := hdy.fits.blk
    refine ⟨h1, ?_⟩
    show (q.qp.request cfg mem r).bounce _ _ = _
    rw [request_bounce_ne cfg q.qp mem hr (hold _ hdl) (by rw [h1, hdy.cdw12]; omega)]
    exact h2
  · intro d hd y hy hrd
    refine h.copied d hd y (hget _ ?_ y hy) hrd
    exact List.mem_append_right _ (List.mem_map_of_mem (List.mem_of_mem_take hd))

end Nvme

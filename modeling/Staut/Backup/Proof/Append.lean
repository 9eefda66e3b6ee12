import Staut.Backup.Proof.Tool

/-!
# `abt_backup`

`Backed`: in every state of every run the backup file has the bytes of the blocks passed so far, in
the order of the loops (`Tool.appended`), and the drives are not changed. `backup_canFinish`, and
`backup_finished`: at the end the file has the bytes of all blocks of all named files.
-/

set_option autoImplicit false

namespace Backup

open CSem Run Myfs Nvme

section
variable (cfg : Cfg) (sb : Superblock) (buf : Nat) (D : Nat → Nat → UInt8)

/-- What `append` has written to the backup file. -/
def Tool.appended (t : Tool) : List UInt8 :=
  match t.pc with
  | .main => imageBytes cfg sb D t.i
  | .block | .offset | .req => image cfg sb D t.i t.iBlock 0
  | .wait | .file => image cfg sb D t.i t.iBlock t.j

/-- The local variables, the requests, and the backup file. -/
structure Append (t : Tool) (q : Nat → Queue) (mem : Nat → UInt8) : Prop where
  loc : At sb t
  file : t.pc = .file → t.j < DEG
  fetch : Fetch cfg D buf (spotOf cfg (t.blk sb)) (t.seen (t.j + 1)) (t.sent DEG) t.rid q mem
  ssd : t.ssd = t.appended cfg sb D

structure Backed (s : Client) : Prop extends Append cfg sb buf D s.tool s.q s.mem where
  running : Running cfg (appendNext sb buf) s
  disk : s.disk = D

end

section
variable {cfg : Cfg} {sb : Superblock} {buf : Nat} {D : Nat → Nat → UInt8} {t t' : Tool}
  {q : Nat → Queue}
  {mem mem' : Nat → UInt8} {s s' : Client}

theorem Loop.appended (h : At sb t) (hl : Loop sb t t') :
    t'.appended cfg sb D = t.appended cfg sb D := by
  cases hl with
  | skip hpc hi he =>
    simp only [Tool.appended, hpc]
    exact imageBytes_skip cfg sb D he
  | enter hpc =>
    simp only [Tool.appended, hpc]
    exact image_zero cfg sb D t.i
  | leave hpc hlt =>
    obtain ⟨hf, hle⟩ := at_block h hpc
    rw [hf.wrap] at hlt
    have hk : t.iBlock = (sb.file t.i).nBlock := by omega
    simp only [Tool.appended, hpc]
    rw [hk]
    exact (image_file cfg sb D hf.named).symm
  | sweep hpc => simp only [Tool.appended, hpc]
  | swept hpc => simp only [Tool.appended, hpc]
  | asked hpc => simp only [Tool.appended, hpc]
  | waited hpc hlt =>
    have hj : t.j = DEG := Nat.le_antisymm (at_wait h hpc).2 (Nat.le_of_not_lt hlt)
    simp only [Tool.appended, hpc]
    rw [hj]
    exact (image_block cfg sb D t.i t.iBlock).symm

theorem Append.loop (h : Append cfg sb buf D t q mem) (hg : NoGap sb) (hl : Loop sb t t') :
    Append cfg sb buf D t' q mem := by
  refine ⟨h.loc.loop hg hl, fun hpc => absurd hpc hl.not_file, ?_, ?_⟩
  · obtain ⟨hrid, ⟨hb, h1, h2⟩ | ⟨hle, h1, h2⟩⟩ := hl.requests h.loc (t.j + 1) (t'.j + 1) DEG
    · rw [hrid, hb, h1, h2]
      exact h.fetch
    · rw [h1, h2]
      exact h.fetch.restart hle _ _
  · rw [hl.ssd, h.ssd, hl.appended h.loc]

theorem Append.act (h : Append cfg sb buf D t q mem) (hg : NoGap sb)
    (hs : AppendStep sb buf t mem t' mem') :
    Append cfg sb buf D t' q mem' := by
  have hloc := h.loc.append hg h.file hs
  cases hs with
  | loop hl => exact h.loop hg hl
  | body hpc =>
    refine ⟨hloc, fun hfile => (by cases hfile), ?_, ?_⟩
    · have hf := h.fetch
      simp only [Tool.seen, Tool.sent, hpc, Nat.zero_div] at hf ⊢
      exact hf
    · have hssd := h.ssd
      simp only [Tool.appended, hpc] at hssd
      exact hssd
  | file hpc =>
    have hj := h.file hpc
    have hf := h.fetch
    have hssd := h.ssd
    simp only [Tool.seen, Tool.sent, hpc] at hf
    simp only [Tool.appended, hpc] at hssd
    refine ⟨hloc, fun hfile => (by cases hfile), hf, ?_⟩
    dsimp only [Tool.appended]
    rw [image_unit, ← hssd, hf.take (Nat.lt_succ_self _) hj]
    rfl

/-- A request for the next buffer. -/
theorem Append.submit {did : Nat} (h : Append cfg sb buf D t s.q mem) (hpc : t.pc = .req)
    (hj : t.j < DEG) (hq : Served cfg did (s.q did)) (hd : did < cfg.ND)
    (hdid : did = (driveOf cfg (t.request sb buf .read).lba).toNat) :
    Append cfg sb buf D (t.took (ridOf cfg did 0 (s.q did).qp.sqTail))
      (s.setQueue did ((s.q did).submit cfg did 0 mem (t.request sb buf .read))).q mem := by
  have hf := h.fetch
  have hssd := h.ssd
  simp only [Tool.seen, Tool.sent, hpc] at hf
  simp only [Tool.appended, hpc] at hssd
  have hr := request_asks cfg sb buf .read (at_req h.loc hpc).2.1 hj
  exact ⟨h.loc.took hpc hj _, fun hfile => (by cases hfile), hf.submit hq hd hr hdid
    (Nat.zero_le _), hssd⟩

/-- The check of a buffer has answered 1. -/
theorem Append.checked (h : Append cfg sb buf D t q mem) (hpc : t.pc = .wait) (hj : t.j < DEG)
    (hu : Unused cfg buf q t.j) : Append cfg sb buf D { t with pc := .file } q mem := by
  have hf := h.fetch
  have hssd := h.ssd
  simp only [Tool.seen, Tool.sent, hpc] at hf
  simp only [Tool.appended, hpc] at hssd
  have hloc := at_wait h.loc hpc
  exact ⟨hloc, fun _ => hj, hf.checked hu, hssd⟩

theorem Append.quiet {did : Nat} {q : Queue} (h : Append cfg sb buf D t s.q mem) (hd : did < cfg.ND)
    (hq : Quiet (s.q did) q) : Append cfg sb buf D t (s.setQueue did q).q mem :=
  ⟨h.loc, h.file, h.fetch.quiet hd hq, h.ssd⟩

/-! ## Runs -/

section
variable (hg : NoGap sb) (hfit : cfg.ND * cfg.N_CORE * QD ≤ 2 ^ 31) (hND : 0 < cfg.ND)
  (hcore : 0 < cfg.N_CORE)
include hg hfit hND hcore

theorem Backed.step {l : Label} (h : Backed cfg sb buf D s)
    (hs : (backup cfg sb buf D).step s l s') :
    Backed cfg sb buf D s' := by
  have hnext := appendNext_next sb buf s.tool
  obtain ⟨hv, hrun⟩ := h.running.step hND (fun _ _ => next_fits hnext (.inl rfl)) hs
  cases hv with
  | act hb hn hf =>
    rw [hn] at hnext
    cases hnext with
    | act hact => exact ⟨h.toAppend.act hg (hact _ _ _ hf), hrun, h.disk⟩
  | quiet hd hq => exact ⟨h.toAppend.quiet hd hq, hrun, h.disk⟩
  | reap hd hr =>
    exact ⟨⟨h.loc, h.file, h.fetch.reap (h.running.queues _ hd).inv hd hr _, h.ssd⟩, hrun, h.disk⟩
  | submit hd hn hdid hfree =>
    rw [hn] at hnext
    cases hnext with
    | req hpc hj => exact ⟨h.toAppend.submit hpc hj (h.running.queues _ hd) hd hdid, hrun, h.disk⟩
  | @checked did rid k b q hd hn hdid hq hb =>
    rw [hn] at hnext
    cases hnext with
    | check hpc hj =>
      have ha := h.toAppend.quiet hd hq
      cases b with
      | false => exact ⟨ha, hrun, h.disk⟩
      | true =>
        have hu := h.fetch.toFlight.unused_of_done hfit hcore h.running.queues hdid hb.symm
        exact ⟨ha.checked hpc hj (hu.quiet hq), hrun, h.disk⟩
  | @exec did k c hd hc =>
    obtain ⟨hf, hsame⟩ := h.fetch.exec (h.running.queues _ hd).inv hd hc
    rw [h.disk] at hrun ⊢
    refine ⟨⟨h.loc, h.file, hf, h.ssd⟩, hrun, ?_⟩
    dsimp only
    rw [hsame, Function.update_eq_self]

omit hg hfit hND hcore in
theorem Backed.init (h : (backup cfg sb buf D).init s) : Backed cfg sb buf D s := by
  have hrun := Running.init h
  obtain ⟨⟨k, off, j, rid, ht⟩, hq, hdisk, -⟩ := h
  refine ⟨⟨?_, ?_, ?_, ?_⟩, hrun, hdisk⟩
  all_goals rw [ht]
  · exact Nat.zero_le _
  · exact nofun
  · exact .new hq
  · rfl

omit hND hcore hfit hg in
/-- Every step of the program brings it closer to its end. -/
theorem Backed.goes (h : Backed cfg sb buf D s) :
    Goes cfg (appendNext sb buf) (Tool.left fun j => 2 * (DEG - j)) s := by
  refine goes_of_next (appendNext_next sb buf s.tool) h.loc.onTable
    (fun _ _ hs => append_left h.loc h.file hs) fun hpc hj => ⟨?_, ?_⟩
  · simp only [Tool.left, hpc, ↓reduceIte, reduceCtorEq]
    omega
  · have hf := h.fetch
    simp only [Tool.seen, Tool.sent, hpc] at hf
    exact hf.rids _ (Nat.le_refl _) hj

theorem backup_canFinish : CanFinish (appendNext sb buf) (backup cfg sb buf D) :=
  canFinish hfit hND hcore (fun _ => Backed.init) (fun _ _ _ h hs => h.step hg hfit hND hcore hs)
    fun _ h => ⟨h.running, h.goes⟩

/-- The whole image is in the backup file. -/
theorem backup_finished (h : (backup cfg sb buf D).Reach s) (hs : s.Finished (appendNext sb buf)) :
    s.tool.ssd = imageBytes cfg sb D MYFS_MAX_FILES := by
  have hI : Backed cfg sb buf D s := LTS.ReachIf.induct (fun _ => Backed.init)
    (fun _ _ _ h _ hs => h.step hg hfit hND hcore hs) h
  have hnext := appendNext_next sb buf s.tool
  rw [hs.2] at hnext
  cases hnext with
  | ret hpc hi =>
    have hssd := hI.ssd
    simp only [Tool.appended, hpc] at hssd
    rw [hssd, Nat.le_antisymm (at_main hI.loc hpc) (Nat.le_of_not_lt hi)]

end

end

end Backup

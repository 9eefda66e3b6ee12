import Staut.Backup.Proof.Tool

/-!
# `abt_restore`

`Parsed`: in every state of every run the blocks passed so far are written, what is left of the
backup file follows what has been read (`Tool.parsed`), and no byte outside the held blocks is
changed. `restore_canFinish`, and `restore_finished`: at the end every held block is written.
-/

set_option autoImplicit false

namespace Backup

open CSem Run Myfs Nvme

section
variable (cfg : Cfg) (sb : Superblock) (buf : Nat) (D D' : Nat → Nat → UInt8) (rest : List UInt8)

/-- What `parse` has read of the backup file. -/
def Tool.parsed (t : Tool) : List UInt8 :=
  match t.pc with
  | .main => imageBytes cfg sb D t.i
  | .block => image cfg sb D t.i t.iBlock 0
  | .file => image cfg sb D t.i t.iBlock t.j
  | .offset | .req | .wait => image cfg sb D t.i t.iBlock DEG

/-- Buffers that hold the bytes of their units. -/
def Tool.filled (t : Tool) : Nat :=
  match t.pc with
  | .file => t.j
  | .offset | .req => DEG
  | _ => 0

/-- Entry `k` of file `i` is before the block of the loops. -/
structure Past (t : Tool) (i k : Nat) : Prop where
  named : (sb.file i).name ≠ .empty
  lt : k < (sb.file i).nBlock
  before : i < t.i ∨ (i = t.i ∧ t.pc ≠ .main ∧ k < t.iBlock)

/-- The local variables, the requests, the backup file, the buffers and the drives. -/
structure Parse (t : Tool) (q : Nat → Queue) (mem : Nat → UInt8)
    (disk : Nat → Nat → UInt8) : Prop where
  loc : At sb t
  send : Send cfg D buf (spotOf cfg (t.blk sb)) (t.seen 0) (t.sent 0) t.rid q disk
  ssd : t.parsed cfg sb D ++ t.ssd = imageBytes cfg sb D MYFS_MAX_FILES ++ rest
  bufs : ∀ j < t.filled, load mem (buf + BUF_SIZE * j) BUF_SIZE = unitBytes D
    (spotOf cfg (t.blk sb) j)
  past : ∀ i k, Past sb t i k → ∀ j < DEG, unitBytes disk (spotOf cfg ((sb.file i).block k) j) =
    unitBytes D (spotOf cfg ((sb.file i).block k) j)
  frame : ∀ did x, ¬ Held cfg sb did x → disk did x = D' did x

structure Parsed (s : Client) :
    Prop extends Parse cfg sb buf D D' rest s.tool s.q s.mem s.disk where
  running : Running cfg (parseNext sb buf) s

end

section
variable {cfg : Cfg} {sb : Superblock} {buf : Nat} {D D' : Nat → Nat → UInt8} {rest : List UInt8}
  {t t' : Tool} {q : Nat → Queue} {mem mem' : Nat → UInt8} {disk : Nat → Nat → UInt8}
  {s s' : Client}

theorem Loop.parsed (h : At sb t) (hl : Loop sb t t') : t'.parsed cfg sb D = t.parsed cfg sb D := by
  cases hl with
  | skip hpc hi he =>
    simp only [Tool.parsed, hpc]
    exact imageBytes_skip cfg sb D he
  | enter hpc =>
    simp only [Tool.parsed, hpc]
    exact image_zero cfg sb D t.i
  | leave hpc hlt =>
    obtain ⟨hf, hle⟩ := at_block h hpc
    rw [hf.wrap] at hlt
    have hk : t.iBlock = (sb.file t.i).nBlock := by omega
    simp only [Tool.parsed, hpc]
    rw [hk]
    exact (image_file cfg sb D hf.named).symm
  | sweep hpc => simp only [Tool.parsed, hpc]
  | swept hpc => simp only [Tool.parsed, hpc]
  | asked hpc => simp only [Tool.parsed, hpc]
  | waited hpc hlt =>
    simp only [Tool.parsed, hpc]
    exact (image_block cfg sb D t.i t.iBlock).symm

theorem Loop.filled (hl : Loop sb t t') :
    t'.filled = 0 ∨ (t'.filled = t.filled ∧ t'.blk sb = t.blk sb) := by
  cases hl with
  | skip hpc => simp [Tool.filled, hpc]
  | sweep hpc => exact .inr ⟨by simp [Tool.filled, hpc], rfl⟩
  | asked hpc => exact .inr ⟨by simp [Tool.filled, hpc], rfl⟩
  | _ => exact .inl rfl

/-- The loops are at the same block. -/
theorem Past.same {i k : Nat} (hp : Past sb t' i k) (hi : t'.i = t.i) (hk : t'.iBlock = t.iBlock)
    (hm : t.pc ≠ .main) : Past sb t i k := by
  have hb := hp.before
  rw [hi, hk] at hb
  exact ⟨hp.named, hp.lt, hb.imp_right fun hb => ⟨hb.1, hm, hb.2.2⟩⟩

/-- A block is passed when all its buffers have answered. -/
theorem Loop.past (h : At sb t) (hl : Loop sb t t') {i k : Nat} (hp : Past sb t' i k) :
    Past sb t i k ∨ (i = t.i ∧ k = t.iBlock ∧ t.pc = .wait ∧ DEG ≤ t.j) := by
  have hn := hp.named
  have hlt := hp.lt
  have hb := hp.before
  cases hl with
  | skip hpc hi he =>
    refine .inl ⟨hn, hlt, .inl ?_⟩
    have hne : i ≠ t.i := fun hit => hn (by rw [hit]; exact he)
    simp [hpc] at hb
    omega
  | enter hpc =>
    refine .inl ⟨hn, hlt, .inl ?_⟩
    dsimp only at hb
    omega
  | leave hpc hlt' =>
    refine .inl ⟨hn, hlt, ?_⟩
    rw [(at_block h hpc).1.wrap] at hlt'
    have hm : t.pc ≠ .main := by simp [hpc]
    simp at hb
    by_cases hit : i = t.i
    · rw [hit] at hlt
      exact .inr ⟨hit, hm, by omega⟩
    · exact .inl (by omega)
  | sweep hpc => exact .inl (hp.same rfl rfl (by simp [hpc]))
  | swept hpc => exact .inl (hp.same rfl rfl (by simp [hpc]))
  | asked hpc => exact .inl (hp.same rfl rfl (by simp [hpc]))
  | waited hpc hj =>
    have hm : t.pc ≠ .main := by simp [hpc]
    dsimp only at hb
    by_cases hk : i = t.i ∧ k = t.iBlock
    · exact .inr ⟨hk.1, hk.2, hpc, Nat.le_of_not_lt hj⟩
    · refine .inl ⟨hn, hlt, ?_⟩
      rcases hb with hb | ⟨hit, -, hb⟩
      · exact .inl hb
      · exact .inr ⟨hit, hm, by omega⟩

theorem Parse.loop (h : Parse cfg sb buf D D' rest t q mem disk) (hg : NoGap sb)
    (hl : Loop sb t t') :
    Parse cfg sb buf D D' rest t' q mem disk := by
  refine ⟨h.loc.loop hg hl, ?_, ?_, ?_, fun i k hp => ?_, h.frame⟩
  · obtain ⟨hrid, ⟨hb, h1, h2⟩ | ⟨hle, h1, h2⟩⟩ := hl.requests h.loc 0 0 0
    · rw [hrid, hb, h1, h2]
      exact h.send
    · rw [h1, h2]
      exact h.send.restart hle _ _
  · rw [hl.ssd, hl.parsed h.loc]
    exact h.ssd
  · rcases hl.filled with h0 | ⟨hf, hb⟩
    · rw [h0]
      exact fun j hj => absurd hj (Nat.not_lt_zero j)
    · rw [hf, hb]
      exact h.bufs
  · rcases hl.past h.loc hp with hp | ⟨rfl, rfl, hpc, hj⟩
    · exact h.past i k hp
    · intro j hj'
      have hs := h.send
      simp only [Tool.seen, Tool.sent, hpc] at hs
      exact hs.all (Nat.lt_of_lt_of_le hj' hj) hj'

/-- The next buffer is read from the bytes of its unit. -/
theorem Parse.unit (h : Parse cfg sb buf D D' rest t q mem disk) (hpc : t.pc = .file)
    (hj : t.j < DEG) :
    ∃ l, t.ssd = unitBytes D (spotOf cfg (t.blk sb) t.j) ++ l := by
  obtain ⟨⟨hf, hk⟩, -⟩ := at_file h.loc hpc
  obtain ⟨l, hl⟩ := image_le cfg sb D hf hk hj
  have hssd := h.ssd
  simp only [Tool.parsed, hpc] at hssd
  rw [← hl, image_unit, List.append_assoc, List.append_assoc] at hssd
  exact ⟨l ++ rest, List.append_cancel_left hssd⟩

theorem Parse.act (h : Parse cfg sb buf D D' rest t q mem disk) (hg : NoGap sb)
    (hs : ParseStep sb buf t mem t' mem') : Parse cfg sb buf D D' rest t' q mem' disk := by
  have hloc := h.loc.parse hg hs
  have hsend := h.send
  have hssd := h.ssd
  have hbufs := h.bufs
  cases hs with
  | loop hl => exact h.loop hg hl
  | body hpc =>
    simp only [Tool.seen, Tool.sent, hpc] at hsend
    simp only [Tool.parsed, hpc] at hssd
    exact ⟨hloc, hsend, hssd, fun j hj => absurd hj (Nat.not_lt_zero j),
      fun i k hp => h.past i k (hp.same rfl rfl (by simp [hpc])), h.frame⟩
  | fill hpc hj =>
    obtain ⟨l, hl⟩ := h.unit hpc hj
    simp only [Tool.seen, Tool.sent, hpc] at hsend
    simp only [Tool.parsed, hpc] at hssd
    simp only [Tool.filled, hpc] at hbufs
    have hlen := length_unitBytes D (spotOf cfg (t.blk sb) t.j)
    have htake : t.ssd.take BUF_SIZE = unitBytes D (spotOf cfg (t.blk sb) t.j) := by
      rw [hl]
      exact List.take_left' hlen
    have hdrop : t.ssd.drop BUF_SIZE = l := by
      rw [hl]
      exact List.drop_left' hlen
    refine ⟨hloc, hsend, ?_, fun j hj' => ?_, fun i k hp =>
      h.past i k (hp.same rfl rfl (by simp [hpc])), h.frame⟩
    · dsimp only [Tool.parsed]
      rw [hdrop, image_unit, List.append_assoc, ← hssd, hl]
      rfl
    · rw [htake]
      rcases Nat.lt_succ_iff_lt_or_eq.1 hj' with hlt | rfl
      · rw [load_store_ne mem buf hlen (Nat.ne_of_gt hlt)]
        exact hbufs j hlt
      · exact load_store_buf _ _ hlen
  | filled hpc hj =>
    simp only [Tool.seen, Tool.sent, hpc] at hsend
    have hj' : t.j = DEG := Nat.le_antisymm (at_file h.loc hpc).2 (Nat.le_of_not_lt hj)
    simp only [Tool.parsed, hpc, hj'] at hssd
    simp only [Tool.filled, hpc, hj'] at hbufs
    refine ⟨hloc, ?_, hssd, hbufs, fun i k hp => h.past i k (hp.same rfl rfl (by simp [hpc])),
      h.frame⟩
    simp only [Tool.seen, Tool.sent, Nat.zero_div]
    exact hsend

/-- A request for the next buffer. -/
theorem Parse.submit {did : Nat} (h : Parse cfg sb buf D D' rest t s.q mem disk) (hpc : t.pc = .req)
    (hj : t.j < DEG) (hq : Served cfg did (s.q did)) (hd : did < cfg.ND)
    (hdid : did = (driveOf cfg (t.request sb buf .write).lba).toNat)
    (hfree : (s.q did).qp.doneFlag (s.q did).qp.sqTail ≠ 0) :
    Parse cfg sb buf D D' rest (t.took (ridOf cfg did 0 (s.q did).qp.sqTail))
      (s.setQueue did ((s.q did).submit cfg did 0 mem (t.request sb buf .write))).q mem disk := by
  have hsend := h.send
  have hssd := h.ssd
  have hbufs := h.bufs
  simp only [Tool.seen, Tool.sent, hpc] at hsend
  simp only [Tool.parsed, hpc] at hssd
  simp only [Tool.filled, hpc] at hbufs
  have hr := request_asks cfg sb buf .write (at_req h.loc hpc).2.1 hj
  exact ⟨h.loc.took hpc hj _, hsend.submit hq hd hr hdid (Nat.zero_le _) hfree (hbufs t.j hj),
    hssd, hbufs, fun i k hp => h.past i k (hp.same rfl rfl (by simp [hpc])), h.frame⟩

/-- The check of a buffer has answered 1. -/
theorem Parse.checked (h : Parse cfg sb buf D D' rest t q mem disk) (hpc : t.pc = .wait)
    (hj : t.j < DEG) (hu : Unused cfg buf q t.j) :
    Parse cfg sb buf D D' rest { t with j := t.j + 1 } q mem disk := by
  have hloc := at_wait h.loc hpc
  have hsend := h.send
  have hssd := h.ssd
  simp only [Tool.seen, Tool.sent, hpc] at hsend
  simp only [Tool.parsed, hpc] at hssd
  refine ⟨?_, ?_, ?_, ?_, fun i k hp => h.past i k (hp.same rfl rfl (by simp [hpc])), h.frame⟩
  · simp only [At, hpc]
    exact ⟨hloc.1, hj⟩
  · simp only [Tool.seen, Tool.sent, hpc]
    exact hsend.checked hu
  · simp only [Tool.parsed, hpc]
    exact hssd
  · simp only [Tool.filled, hpc]
    exact fun j hj => absurd hj (Nat.not_lt_zero j)

theorem Parse.quiet {did : Nat} {q : Queue} (h : Parse cfg sb buf D D' rest t s.q mem disk)
    (hd : did < cfg.ND) (hq : Quiet (s.q did) q) :
    Parse cfg sb buf D D' rest t (s.setQueue did q).q mem disk :=
  ⟨h.loc, h.send.quiet hd hq, h.ssd, h.bufs, h.past, h.frame⟩

/-- Requests are made for the buffers of a block that a file holds. -/
theorem At.sent (h : At sb t) {j : Nat} (hj : j < t.sent 0) :
    j < DEG ∧ InFile sb t.i ∧ t.iBlock < (sb.file t.i).nBlock := by
  cases hpc : t.pc with
  | main => simp [Tool.sent, hpc] at hj
  | block => simp [Tool.sent, hpc] at hj
  | offset =>
    obtain ⟨hb, ho⟩ := at_offset h hpc
    simp only [Tool.sent, hpc] at hj
    exact ⟨by omega, hb⟩
  | req =>
    obtain ⟨hb, -, hle⟩ := at_req h hpc
    simp only [Tool.sent, hpc] at hj
    exact ⟨by omega, hb⟩
  | wait =>
    simp only [Tool.sent, hpc] at hj
    exact ⟨hj, (at_wait h hpc).1⟩
  | file => simp [Tool.sent, hpc] at hj

/-- A byte of such a buffer is held. -/
theorem At.held (hg : NoGap sb) (h : At sb t) {j k : Nat} (hj : j < t.sent 0) (hk : k < BUF_SIZE) :
    Held cfg sb (spotOf cfg (t.blk sb) j).1 ((spotOf cfg (t.blk sb) j).2 + k) := by
  obtain ⟨hlt, hf, hb⟩ := h.sent hj
  obtain ⟨hmax, hact⟩ := (hg t.i hf.lt hf.named t.iBlock).2 hb
  rw [DEG_eq] at hlt
  rw [BUF_SIZE_eq] at hk
  refine ⟨t.i, hf.lt, hf.named, t.iBlock, hmax, hact, BUF_SIZE * j + k, ?_, ?_⟩
  · rw [MYFS_BLOCK_SIZE_eq, BUF_SIZE_eq]
    omega
  · apply Hook.place_add
    rw [BUF_SIZE_eq]
    omega

/-- A unit of the block is written. -/
theorem Parse.write {q' : Nat → Queue} {disk' : Nat → Nat → UInt8} {j : Nat}
    (h : Parse cfg sb buf D D' rest t q mem disk) (hg : NoGap sb) (hj : j < t.sent 0)
    (hw : disk' = writeUnit D disk (spotOf cfg (t.blk sb) j))
    (hs : Send cfg D buf (spotOf cfg (t.blk sb)) (t.seen 0) (t.sent 0) t.rid q' disk') :
    Parse cfg sb buf D D' rest t q' mem disk' := by
  rw [hw] at hs ⊢
  refine ⟨h.loc, hs, h.ssd, h.bufs, fun i k hp l hl => unitBytes_keep (h.past i k hp l hl),
    fun did x hx => ?_⟩
  rw [writeUnit_outside fun k hk he => hx ?_]
  · exact h.frame did x hx
  · obtain ⟨h1, h2⟩ := Prod.mk.inj he
    rw [h1, h2]
    exact h.loc.held hg hj hk

/-! ## Runs -/

section
variable (hg : NoGap sb) (hfit : cfg.ND * cfg.N_CORE * QD ≤ 2 ^ 31) (hND : 0 < cfg.ND)
  (hcore : 0 < cfg.N_CORE)
include hg hfit hND hcore

theorem Parsed.step {stream : List UInt8} {l : Label} (h : Parsed cfg sb buf D D' rest s)
    (hs : (restore cfg sb buf stream D').step s l s') : Parsed cfg sb buf D D' rest s' := by
  have hnext := parseNext_next sb buf s.tool
  obtain ⟨hv, hrun⟩ := h.running.step hND (fun _ _ => next_fits hnext (.inr rfl)) hs
  cases hv with
  | act hb hn hf =>
    rw [hn] at hnext
    cases hnext with
    | act hact => exact ⟨h.toParse.act hg (hact _ _ _ hf), hrun⟩
  | quiet hd hq => exact ⟨h.toParse.quiet hd hq, hrun⟩
  | reap hd hr =>
    obtain ⟨hsend, hmem⟩ := h.send.reap (h.running.queues _ hd).inv hd s.mem hr _
    rw [hmem] at hrun ⊢
    exact ⟨⟨h.loc, hsend, h.ssd, h.bufs, h.past, h.frame⟩, hrun⟩
  | submit hd hn hdid hfree =>
    rw [hn] at hnext
    cases hnext with
    | req hpc hj => exact ⟨h.toParse.submit hpc hj (h.running.queues _ hd) hd hdid hfree, hrun⟩
  | @checked did rid k b q hd hn hdid hq hb =>
    rw [hn] at hnext
    cases hnext with
    | check hpc hj =>
      have ha := h.toParse.quiet hd hq
      cases b with
      | false => exact ⟨ha, hrun⟩
      | true =>
        have hu := h.send.toFlight.unused_of_done hfit hcore h.running.queues hdid hb.symm
        exact ⟨ha.checked hpc hj (hu.quiet hq), hrun⟩
  | @exec did k c hd hc =>
    obtain ⟨j, hj, hw, hsend⟩ := h.send.exec (h.running.queues _ hd).inv hd hc
    exact ⟨h.toParse.write hg hj hw hsend, hrun⟩

omit hg hfit hND hcore in
theorem Parsed.init
    (h : (restore cfg sb buf (imageBytes cfg sb D MYFS_MAX_FILES ++ rest) D').init s) :
    Parsed cfg sb buf D D' rest s := by
  have hrun := Running.init h
  obtain ⟨⟨k, off, j, rid, ht⟩, hq, hdisk, -⟩ := h
  refine ⟨⟨?_, ?_, ?_, ?_, fun i k hp => ?_, ?_⟩, hrun⟩
  · rw [ht]
    exact Nat.zero_le _
  · rw [ht]
    exact .new hq
  · rw [ht]
    rfl
  · rw [ht]
    exact fun j hj => absurd hj (Nat.not_lt_zero j)
  · have hb := hp.before
    simp [ht] at hb
  · intro did x _
    rw [hdisk]

omit hg hfit hND hcore in
/-- Every step of the program brings it closer to its end. -/
theorem Parsed.goes (h : Parsed cfg sb buf D D' rest s) :
    Goes cfg (parseNext sb buf) (Tool.left fun j => 4000 + (DEG - j)) s := by
  refine goes_of_next (parseNext_next sb buf s.tool) (fun hstuck => ?_)
    (fun _ _ hs => parse_left h.loc hs)
    fun hpc hj => ⟨?_, ?_⟩
  · rcases hstuck with hoff | ⟨hpc, hj, hlen⟩
    · exact h.loc.onTable hoff
    · -- the unit that is read next is in the file
      obtain ⟨l, hl⟩ := h.unit hpc hj
      rw [hl, List.length_append, length_unitBytes] at hlen
      omega
  · simp only [Tool.left, hpc, ↓reduceIte, reduceCtorEq]
    omega
  · have hs := h.send
    simp only [Tool.seen, Tool.sent, hpc] at hs
    exact hs.rids _ (Nat.le_refl _) hj

theorem restore_canFinish (rest : List UInt8) : CanFinish (parseNext sb buf)
    (restore cfg sb buf (imageBytes cfg sb D MYFS_MAX_FILES ++ rest) D') :=
  canFinish (I := Parsed cfg sb buf D D' rest) hfit hND hcore (fun _ => Parsed.init)
    (fun _ _ _ h hs => h.step hg hfit hND hcore hs) fun _ h => ⟨h.running, h.goes⟩

/-- Every held block is written, and no other byte. -/
theorem restore_finished
    (h : (restore cfg sb buf (imageBytes cfg sb D MYFS_MAX_FILES ++ rest) D').Reach s)
    (hs : s.Finished (parseNext sb buf)) (did x : Nat) :
    (Held cfg sb did x → s.disk did x = D did x) ∧
    (¬ Held cfg sb did x → s.disk did x = D' did x) := by
  have hI : Parsed cfg sb buf D D' rest s := LTS.ReachIf.induct (fun _ => Parsed.init)
    (fun _ _ _ h _ hs => h.step hg hfit hND hcore hs) h
  refine ⟨fun hx => ?_, hI.frame did x⟩
  obtain ⟨i, hi, hn, k, hk, hact, o, ho, hp⟩ := hx
  have hnext := parseNext_next sb buf s.tool
  rw [hs.2] at hnext
  cases hnext with
  | ret hpc hend =>
    have hpast : Past sb s.tool i k := ⟨hn, (hg i hi hn k).1 ⟨hk, hact⟩, .inl (by omega)⟩
    have hunit := hI.past i k hpast _ (div_lt_DEG ho)
    have hbyte := unitBytes_eq_iff.1 hunit (o % BUF_SIZE) (Nat.mod_lt _ (by decide))
    rw [place_spot] at hp
    obtain ⟨rfl, rfl⟩ := Prod.mk.inj hp
    exact hbyte

end

end

end Backup

import Staut.Hook.Proof.Sizes
import Staut.Hook.Proof.Place
import Staut.Hook.Proof.Store

/-!
# A write touches only its own range

`write_impl` writes whole chunks of 512 or 4096 bytes, of which the last may go past the end of the
range. Its rest comes from the bounce buffer.

* `Writing`: in every run of the call, a command is for one chunk of the range, and only bytes of
  such chunks (`Touched`) have changed.
* `Touched.own`: these bytes are in the range or in a new block, if the range ends clean.
* `Twin`: a second run of the call, on drives that hold something else at one place. At the end of
  the run the two agree there too, when the place is behind the range in its last sector
  (`twin_of_reach`).
* `write_own_range`: the two directions.
-/

set_option autoImplicit false

namespace Hook

open CSem Run Myfs Nvme Cyclic

/-- The chunk size of the call. -/
def WriteArgs.blksz (a : WriteArgs) : Int := blkszOf a.range.len a.range.pos

/-- The length fits the `int` that counts up to it. -/
def WriteArgs.Bounded (a : WriteArgs) : Prop := a.range.len ≤ 2 ^ 31 - a.blksz

/-! ## Blocks that stay -/

/-- The blocks of file `i` that are allocated in `sb` are the same in `sb'`. -/
def BlocksKept (i : Nat) (sb sb' : Superblock) : Prop :=
  ∀ k, (sb.file i).block k ≠ INACTIVE_BLOCK → (sb'.file i).block k = (sb.file i).block k

theorem BlocksKept.refl (i : Nat) (sb : Superblock) : BlocksKept i sb sb := fun _ _ => rfl

theorem BlocksKept.trans {i : Nat} {sb sb' sb'' : Superblock} (h : BlocksKept i sb sb')
    (h' : BlocksKept i sb' sb'') : BlocksKept i sb sb'' := fun k hk => by
  have he := h k hk
  rw [h' k (by rw [he]; exact hk), he]

theorem BlocksKept.active {i : Nat} {sb sb' : Superblock} (h : BlocksKept i sb sb') :
    (sb.file i).active ⊆ (sb'.file i).active := by
  intro k hk
  obtain ⟨hlt, hne⟩ := mem_active.1 hk
  exact mem_active.2 ⟨hlt, by rw [h k hne]; exact hne⟩

theorem blocksKept_alloc {i k : Nat} {sb : Superblock} (hf : (sb.file i).block k = INACTIVE_BLOCK) :
    BlocksKept i sb (allocBlock sb i k) := by
  intro l hl
  have hne : l ≠ k := fun he => hl (he ▸ hf)
  rw [allocBlock_file, if_pos rfl]
  simp only [setBlock_block, hne, ↓reduceIte]

theorem Backed.iBlock {f : File} {o : Nat} (h : Backed f o) : iBlock o ∈ f.active := by
  obtain ⟨k, hk, he⟩ := h
  unfold Hook.iBlock
  rw [he, Int.toNat_natCast]
  exact hk

/-- A successful `myfs_get_lba` of a write, by its block. -/
theorem getLba_kept {fs fs' : State} {i offset : Nat} {write lba : Int}
    (h : myfsGetLba fs i offset write = .ok (lba, fs')) :
    BlocksKept i fs.sb fs'.sb ∧ Backed (fs'.sb.file i) offset ∧
      lba = lbaOf ((fs'.sb.file i).block (iBlock offset)) offset := by
  obtain ⟨k, hk, hk', hact, hl, hor⟩ := myfsGetLba_ok h
  have hi : iBlock offset = k := by
    unfold iBlock
    rw [hk', Int.toNat_natCast]
  rw [hi]
  refine ⟨?_, ⟨k, mem_active.2 ⟨hk, hact⟩, hk'⟩, hl⟩
  rcases hor with ⟨-, rfl⟩ | ⟨-, hin, rfl⟩
  · exact .refl i _
  · exact blocksKept_alloc hin

/-! ## Chunks -/

/-- The chunk of the range at `x` starts at sector `cdw10` of drive `did`. -/
structure ChunkAt (cfg : Cfg) (a : WriteArgs) (sb : Superblock) (x : Int)
    (did cdw10 : Nat) : Prop where
  nonneg : a.Bounded → 0 ≤ x
  lt : x < a.range.len
  dvd : a.blksz ∣ x
  backed : Backed (sb.file a.file) (u64 (a.range.pos + x))
  spot : filePlace cfg sb a.file (u64 (a.range.pos + x)) = (did, 512 * cdw10)

/-- A byte of a chunk. -/
def Touched (cfg : Cfg) (a : WriteArgs) (sb : Superblock) (did y : Nat) : Prop :=
  ∃ x cdw10, ChunkAt cfg a sb x did cdw10 ∧ 512 * cdw10 ≤ y ∧ (y : Int) < 512 * cdw10 + a.blksz

section
variable {cfg : Cfg} {a : WriteArgs} {sb sb' : Superblock}

theorem ChunkAt.mono {x : Int} {did cdw10 : Nat} (h : ChunkAt cfg a sb x did cdw10)
    (hk : BlocksKept a.file sb sb') : ChunkAt cfg a sb' x did cdw10 := by
  have he := hk _ (mem_active.1 h.backed.iBlock).2
  refine ⟨h.nonneg, h.lt, h.dvd, h.backed.mono hk.active, ?_⟩
  rw [← h.spot]
  unfold filePlace
  rw [he]

theorem Touched.mono {did y : Nat} (h : Touched cfg a sb did y) (hk : BlocksKept a.file sb sb') :
    Touched cfg a sb' did y := by
  obtain ⟨x, cdw10, hc, hin⟩ := h
  exact ⟨x, cdw10, hc.mono hk, hin⟩

end

/-! ## Runs of the call -/

/-- A request for the chunk at `x`. -/
structure ChunkReq (cfg : Cfg) (a : WriteArgs) (sb : Superblock) (x : Int) (did : Nat) (r : Req) :
    Prop where
  opc : r.opc = .write
  size : (512 * r.numBlk : Int) = a.blksz
  chunk : ChunkAt cfg a sb x did (cdw10Of cfg r.lba)

/-- A command for one of the chunks. -/
structure ChunkCmd (cfg : Cfg) (a : WriteArgs) (sb : Superblock) (did : Nat) (c : Cmd) : Prop where
  opc : c.sqe.opc = .write
  size : (512 * (c.sqe.cdw12 + 1) : Int) = a.blksz
  chunk : ∃ x, ChunkAt cfg a sb x did c.sqe.cdw10

structure Writing (cfg : Cfg) (a : WriteArgs) (sb : Superblock) (disk : Nat → Nat → UInt8)
    (n : Node) : Prop where
  going : Going a.file (n.m.fs.sb.file a.file) n.m.call
  pos : n.m.call.pos = a.range.pos
  len : n.m.call.len = a.range.len
  blksz : n.m.call.blksz = a.blksz
  kept : BlocksKept a.file sb n.m.fs.sb
  asked : ∀ did c r, (n.m.q did c).pc.req? = some r →
    n.m.busy = some (did, c) ∧ ChunkReq cfg a n.m.fs.sb n.m.call.j did r
  cmds : ∀ did c, ∀ k ∈ (n.m.q did c).dev.outstanding, ChunkCmd cfg a n.m.fs.sb did k
  frame : ∀ did y, ¬ Touched cfg a n.m.fs.sb did y → n.disk did y = disk did y

section
variable {cfg : Cfg} {a : WriteArgs} {sb : Superblock} {disk : Nat → Nat → UInt8} {n n' : Node}

/-- The bounds of the chunk that is issued next. -/
theorem Writing.chunkAt (h : Writing cfg a sb disk n) {k : Nat} (hpc : n.m.call.pc = .inner k)
    {fs : State} {lba : Int} (hg : myfsGetLba n.m.fs a.file (u64 (n.m.call.pos + n.m.call.j)) 1 =
      .ok (lba, fs)) :
    ChunkReq cfg a fs.sb n.m.call.j (driveOf cfg lba).toNat (n.m.call.request .write lba) := by
  obtain ⟨-, hact, hlba⟩ := getLba_kept hg
  have hsec : u64 (n.m.call.pos + n.m.call.j) % 512 = 0 := by
    have h1 : (512 : Int) ∣ n.m.call.pos + n.m.call.j := by
      have hd : (512 : Int) ∣ n.m.call.blksz := by
        rcases h.going.blksz with hb | hb
        · rw [hb]
        · rw [hb]
          decide
      exact Int.dvd_add (hd.trans h.going.pos) (hd.trans h.going.j)
    unfold u64
    omega
  rw [h.pos] at hact hlba hsec
  refine ⟨rfl, ?_, ?_, ?_, ?_, hact, ?_⟩
  · show (512 * ((divCeil n.m.call.blksz 512).toNat : Nat) : Int) = a.blksz
    rw [← h.blksz]
    rcases h.going.blksz with hb | hb
    · rw [hb]
      decide
    · rw [hb]
      decide
  · intro hbd
    refine h.going.nonneg ?_
    rw [h.len, h.blksz]
    exact hbd
  · rw [← h.len]
    exact h.going.inner k hpc
  · rw [← h.blksz]
    exact h.going.j
  · show filePlace cfg fs.sb a.file (u64 (a.range.pos + n.m.call.j)) = (_, 512 * cdw10Of cfg lba)
    unfold filePlace place
    rw [← hlba, hsec, Nat.add_zero]

/-- While one queue pair is used, no other has a request. -/
theorem Writing.others (h : Writing cfg a sb disk n) {did c : Nat}
    (hb : n.m.busy = none ∨ n.m.busy = some (did, c)) {d e : Nat} (hne : ¬ (d = did ∧ e = c)) :
    (n.m.q d e).pc.req? = none := by
  cases hr : (n.m.q d e).pc.req? with
  | none => rfl
  | some r =>
    have hbusy := (h.asked d e r hr).1
    rcases hb with hb | hb
    · rw [hb] at hbusy
      cases hbusy
    · rw [hb] at hbusy
      cases hbusy
      exact absurd ⟨rfl, rfl⟩ hne

/-- A step of the call that changes one queue pair. -/
theorem Writing.update (h : Writing cfg a sb disk n) {did c : Nat} {q : Queue} {m : Machine}
    (hb : n.m.busy = none ∨ n.m.busy = some (did, c)) (hq : m.q = (n.m.setQueue did c q).q)
    (hgo : Going a.file (m.fs.sb.file a.file) m.call) (hpos : m.call.pos = n.m.call.pos)
    (hlen : m.call.len = n.m.call.len) (hbs : m.call.blksz = n.m.call.blksz)
    (hkept : BlocksKept a.file n.m.fs.sb m.fs.sb)
    (hask : ∀ r, q.pc.req? = some r → m.busy = some (did, c) ∧
      ChunkReq cfg a m.fs.sb m.call.j did r)
    (hcmds : ∀ k ∈ q.dev.outstanding, k ∈ (n.m.q did c).dev.outstanding ∨
      ChunkCmd cfg a m.fs.sb did k) :
    Writing cfg a sb disk ⟨m, n.disk⟩ := by
  have hold : ∀ d, ∀ k, ChunkCmd cfg a n.m.fs.sb d k → ChunkCmd cfg a m.fs.sb d k :=
    fun d k hk => by
    obtain ⟨x, hx⟩ := hk.chunk
    exact ⟨hk.opc, hk.size, x, hx.mono hkept⟩
  refine ⟨hgo, hpos.trans h.pos, hlen.trans h.len, hbs.trans h.blksz, h.kept.trans hkept,
    fun d e r hr => ?_, fun d e k hk => ?_, fun d y hy => h.frame d y fun ht => hy (ht.mono hkept)⟩
  · rw [hq, setQueue_q] at hr
    split at hr
    · rename_i he
      obtain ⟨rfl, rfl⟩ := he
      exact hask r hr
    · rename_i hne
      rw [h.others hb hne] at hr
      cases hr
  · have hk' : k ∈ (m.q d e).dev.outstanding := hk
    rw [hq, setQueue_q] at hk'
    split at hk'
    · rename_i he
      obtain ⟨rfl, rfl⟩ := he
      rcases hcmds k hk' with hm | hm
      · exact hold d k (h.cmds d e k hm)
      · exact hm
    · exact hold d k (h.cmds d e k hk')

/-- What an answer can do: the call goes on, or it keeps waiting. -/
theorem answer_cases (cfg : Cfg) (m : Machine) (did c : Nat) (q : Queue)
    (mem : Nat → UInt8) (o : Out) :
    m.answer cfg did c q mem o = { m.setQueue did c q with mem := mem, busy := some (did, c) } ∨
    (∃ rid offset write r cont, o = .rid rid ∧ m.call.next cfg = .req offset write r cont) ∨
    ∃ rid b rid' cont, o = .check rid b ∧ m.call.next cfg = .check rid' cont := by
  cases o with
  | none => exact .inl rfl
  | rid rid =>
    cases hn : m.call.next cfg with
    | req offset write r cont => exact .inr (.inl ⟨_, _, _, _, _, rfl, rfl⟩)
    | tau => exact .inl (by simp only [Machine.answer, hn])
    | check => exact .inl (by simp only [Machine.answer, hn])
    | ret => exact .inl (by simp only [Machine.answer, hn])
  | check rid b =>
    cases hn : m.call.next cfg with
    | check rid' cont => exact .inr (.inr ⟨_, _, _, _, rfl, rfl⟩)
    | tau => exact .inl (by simp only [Machine.answer, hn])
    | req => exact .inl (by simp only [Machine.answer, hn])
    | ret => exact .inl (by simp only [Machine.answer, hn])

/-- The answer of a request or check. -/
theorem Writing.answer (h : Writing cfg a sb disk n) {did c : Nat} {q : Queue}
    (mem : Nat → UInt8) {o : Out} (hb : n.m.busy = none ∨ n.m.busy = some (did, c))
    (hask : ∀ r, q.pc.req? = some r → o = .none ∧ ChunkReq cfg a n.m.fs.sb n.m.call.j did r)
    (hcmds : ∀ k ∈ q.dev.outstanding,
      k ∈ (n.m.q did c).dev.outstanding ∨ ChunkCmd cfg a n.m.fs.sb did k)
    (hrid : ∀ rid, o = .rid rid → Backed (n.m.fs.sb.file a.file)
      (u64 (n.m.call.pos + n.m.call.j))) :
    Writing cfg a sb disk ⟨n.m.answer cfg did c q mem o, n.disk⟩ := by
  obtain he | ⟨rid, offset, write, r, cont, rfl, hn⟩ | ⟨rid, b, rid', cont, rfl, hn⟩ :=
    answer_cases cfg n.m did c q mem o
  · rw [he]
    exact h.update hb rfl h.going rfl rfl rfl (.refl _ _) (fun r hr => ⟨rfl, (hask r hr).2⟩) hcmds
  · obtain ⟨k, hpc, -, -, -, -, rfl⟩ := next_req hn
    rw [answer_rid hn]
    refine h.update hb rfl (h.going.issue hpc (hrid rid rfl)) rfl rfl rfl (.refl _ _)
      (fun r hr => ?_) hcmds
    cases (hask r hr).1
  · obtain ⟨k, i, hpc, -, -, rfl⟩ := next_check hn
    rw [answer_check hn]
    have hcall : ∃ pc, (if b = true then { n.m.call with pc := .wait k (i + 1) } else n.m.call) =
        { n.m.call with pc := pc } ∧ ∀ m, pc = .inner m → n.m.call.j < n.m.call.len := by
      cases b with
      | true => exact ⟨_, rfl, nofun⟩
      | false => exact ⟨_, rfl, fun m hm => h.going.inner m hm⟩
    obtain ⟨pc, hc, hin⟩ := hcall
    dsimp only
    rw [hc]
    refine h.update hb rfl (h.going.setPc hin) rfl rfl rfl (.refl _ _) (fun r hr => ?_) hcmds
    cases (hask r hr).1

theorem ChunkReq.submitted {x : Int} {did coreId : Nat} {r : Req} (h : ChunkReq cfg a sb x did r)
    (q : Queue) (mem : Nat → UInt8) (hb : a.blksz = 512 ∨ a.blksz = 4096) :
    ∀ k ∈ (q.submit cfg did coreId mem r).dev.outstanding,
      k ∈ q.dev.outstanding ∨ ChunkCmd cfg a sb did k := by
  intro k hk
  refine (List.mem_append.1 hk).imp_right fun hk => ?_
  obtain rfl := List.mem_singleton.1 hk
  have hsize := h.size
  have hsqe := request_sqe cfg q.qp mem r
  refine ⟨?_, ?_, x, ?_⟩
  · simp only [hsqe, Function.update_self]
    exact h.opc
  · simp only [hsqe, Function.update_self]
    omega
  · simp only [hsqe, Function.update_self]
    exact h.chunk

theorem Writing.cpu (h : Writing cfg a sb disk n) {m : Machine} (hs : n.m.cpu cfg = some m) :
    Writing cfg a sb disk ⟨m, n.disk⟩ := by
  cases cpu_step hs with
  | @tau c hb hn =>
    have hc : ∃ pc, c = { n.m.call with pc := pc } ∧ ∀ k, pc = .inner k →
      n.m.call.j < n.m.call.len := by
      obtain ⟨-, hj, rfl⟩ | ⟨k, -, -, rfl⟩ | ⟨k, i, -, -, rfl⟩ := next_tau hn
      · exact ⟨_, rfl, fun _ _ => hj⟩
      · exact ⟨_, rfl, nofun⟩
      · exact ⟨_, rfl, nofun⟩
    obtain ⟨pc, rfl, hin⟩ := hc
    exact ⟨h.going.setPc hin, h.pos, h.len, h.blksz, h.kept, h.asked, h.cmds, h.frame⟩
  | @req offset did write lba r cont fs hb hn hg hd hpc =>
    obtain ⟨k, hpc', -, -, rfl, hr, -⟩ := next_req hn
    have hkind := h.going.kind
    obtain ⟨rfl, rfl⟩ : write = 1 ∧ r = n.m.call.request .write := by
      rcases hr with ⟨hk, -⟩ | ⟨-, hw, hr⟩
      · rw [hkind] at hk
        cases hk
      · exact ⟨hw, hr⟩
    rw [h.going.file] at hg
    obtain ⟨hkept, -⟩ := getLba_kept hg
    refine h.update (.inl hb) rfl (h.going.mono hkept.active) rfl rfl rfl hkept (fun r hr => ?_)
      fun k hk => .inl hk
    cases hr
    refine ⟨rfl, ?_⟩
    rw [hd]
    exact h.chunkAt hpc' hg
  | @check did coreId rid cont hb hn h0 hr hd hc hpc =>
    refine h.answer n.m.mem (.inl hb) (fun r hr => ?_) (fun k hk => ?_) fun x hx => ?_
    · unfold Queue.callCheck at hr
      split at hr
      · rw [hpc] at hr
        cases hr
      · cases hr
    · unfold Queue.callCheck at hk
      split at hk <;> exact .inl hk
    · unfold Queue.callCheck at hx
      split at hx <;> cases hx
  | @host did coreId q mem o hb hh =>
    have hasked : ∀ r, (n.m.q did coreId).pc.req? = some r →
        ChunkReq cfg a n.m.fs.sb n.m.call.j did r := fun r hr => (h.asked did coreId r hr).2
    cases host_step hh with
    | @poll r hpc =>
      rw [hpc] at hasked
      exact h.answer _ (.inr hb) (fun r' hr => ⟨rfl, hasked r' hr⟩) (fun k hk => .inl hk) nofun
    | @submit r hpc =>
      rw [hpc] at hasked
      have hreq := hasked r rfl
      have hbs := h.going.blksz
      rw [h.blksz] at hbs
      refine h.answer _ (.inr hb) nofun (hreq.submitted _ _ hbs) fun _ _ => ?_
      rw [h.pos]
      exact hreq.chunk.backed
    | @reap c b hpc =>
      rw [hpc] at hasked
      refine h.answer _ (.inr hb) (fun r' hr => ⟨rfl, hasked r' ?_⟩) (fun k hk => .inl hk) nofun
      cases c <;> exact hr
    | @leaveReq r b hpc =>
      rw [hpc] at hasked
      refine h.answer _ (.inr hb) (fun r' hr => ⟨rfl, hasked r' hr⟩) (fun k hk => ?_) nofun
      simp only [leaveCq_dev] at hk
      exact .inl hk
    | @leaveCheck rid b hpc =>
      refine h.answer _ (.inr hb) nofun (fun k hk => ?_) nofun
      simp only [leaveCq_dev] at hk
      exact .inl hk

theorem execAt_some {did coreId k : Nat} (h : n.execAt did coreId k = some n') :
    ∃ c, (n.m.q did coreId).dev.outstanding[k]? = some c ∧
      n' = ⟨n.m.setQueue did coreId ((n.m.q did coreId).complete k c
          (execCmd (n.m.q did coreId).qp (n.disk did) c).1),
        Function.update n.disk did (execCmd (n.m.q did coreId).qp (n.disk did) c).2⟩ := by
  obtain ⟨c, hc, rfl⟩ := Option.map_eq_some_iff.1 h
  exact ⟨c, hc, rfl⟩

theorem execCmd_write (qp : QP) (d : Nat → UInt8) {c : Cmd} (h : c.sqe.opc = .write) :
    execCmd qp d c = ([], store d (512 * c.sqe.cdw10)
      (load (qp.buf4k c.sqe.prp1.1) c.sqe.prp1.2 (512 * (c.sqe.cdw12 + 1)))) := by
  simp only [execCmd, h]

theorem Writing.exec (h : Writing cfg a sb disk n) {did coreId k : Nat}
    (hs : n.execAt did coreId k = some n') : Writing cfg a sb disk n' := by
  obtain ⟨c, hc, rfl⟩ := execAt_some hs
  have hcmd := h.cmds did coreId c (List.mem_of_getElem? hc)
  rw [execCmd_write _ _ hcmd.opc]
  refine ⟨h.going, h.pos, h.len, h.blksz, h.kept, fun d e r hr => ?_, fun d e x hx => ?_,
    fun d y hy => ?_⟩
  · dsimp only at hr
    rw [setQueue_q] at hr
    split at hr
    · rename_i he
      obtain ⟨rfl, rfl⟩ := he
      exact h.asked _ _ r hr
    · exact h.asked d e r hr
  · dsimp only at hx
    rw [setQueue_q] at hx
    split at hx
    · rename_i he
      obtain ⟨rfl, rfl⟩ := he
      exact h.cmds _ _ x (List.mem_of_mem_eraseIdx hx)
    · exact h.cmds d e x hx
  · rw [← h.frame d y hy]
    by_cases hd : d = did
    · subst hd
      show Function.update n.disk d _ d y = _
      rw [Function.update_self]
      refine store_outside ?_
      rw [length_load]
      -- a byte of the chunk is touched
      apply Classical.byContradiction
      intro hin
      obtain ⟨x, hx⟩ := hcmd.chunk
      have hsize := hcmd.size
      exact hy ⟨x, _, hx, by omega, by omega⟩
    · exact congrFun (Function.update_of_ne hd _ _) y

theorem Writing.step (h : Writing cfg a sb disk n) {n0 : Node} {l : DLabel}
    (hs : (drives cfg n0).step n l n') : Writing cfg a sb disk n' := by
  cases l with
  | cpu =>
    obtain ⟨m, hm, rfl⟩ := hs
    exact h.cpu hm
  | exec did coreId k => exact h.exec hs

theorem Writing.start {s : Store} (hq : s.Quiet) {fs : State} {c : IoCall}
    (hc : writeImpl s.fs a.file a.range.len a.range.pos a.buf a.coreId a.rid = .ok (fs, c)) :
    Writing cfg a s.fs.sb disk (Store.start { s with disk := disk } fs c) := by
  obtain ⟨hgo, hsb⟩ := Going.start (r := a.range) hc
  have hargs : c.pos = a.range.pos ∧ c.len = a.range.len ∧ c.blksz = a.blksz := by
    unfold writeImpl at hc
    split at hc
    · cases hc
    · cases hc
      exact ⟨rfl, rfl, rfl⟩
  refine ⟨hgo, hargs.1, hargs.2.1, hargs.2.2, ?_, fun did e r hr => ?_, fun did e k hk => ?_,
    fun _ _ _ => rfl⟩
  · show BlocksKept a.file s.fs.sb fs.sb
    rw [hsb]
    exact .refl _ _
  · have hr' : (s.q did e).pc.req? = some r := hr
    rw [(hq did e).1] at hr'
    cases hr'
  · have hk' : k ∈ (s.q did e).dev.outstanding := hk
    rw [(hq did e).2] at hk'
    cases hk'

theorem writing_of_reach {s : Store} (hq : s.Quiet) {fs : State} {c : IoCall}
    (hc : writeImpl s.fs a.file a.range.len a.range.pos a.buf a.coreId a.rid = .ok (fs, c))
    (h : (drives cfg (Store.start { s with disk := disk } fs c)).Reach n) :
    Writing cfg a s.fs.sb disk n := by
  refine LTS.ReachIf.induct (P := Writing cfg a s.fs.sb disk) (fun n hn => ?_)
    (fun n l n' hi _ hs => hi.step hs) h
  rw [show n = _ from hn]
  exact .start hq hc

/-! ## The bytes of the chunks -/

/-- An offset inside a chunk. -/
theorem chunk_offset {y bs : Int} (hb : bs = 512 ∨ bs = 4096) (hy : bs ∣ y) {k : Nat}
    (hk : (k : Int) < bs) :
    u64 (y + k) = u64 y + k ∧ iBlock (u64 (y + k)) = iBlock (u64 y) ∧ u64 y % 4096 + k < 4096 := by
  have hblock := chunk_block hb hy (Int.natCast_nonneg k) hk
  refine ⟨?_, ?_, ?_⟩
  · unfold u64
    rcases hb with rfl | rfl <;> omega
  · unfold iBlock
    rw [hblock]
  · unfold u64
    rcases hb with rfl | rfl <;> omega

theorem Writing.blksz_cases (h : Writing cfg a sb disk n) :
    (a.blksz = 512 ∨ a.blksz = 4096) ∧ a.blksz ∣ a.range.pos := by
  have hb := h.going.blksz
  have hp := h.going.pos
  rw [h.blksz] at hb hp
  rw [h.pos] at hp
  exact ⟨hb, hp⟩

/-- A byte of a chunk is at the place of its offset. -/
theorem ChunkAt.byte {x : Int} {did cdw10 k : Nat} (hc : ChunkAt cfg a sb x did cdw10)
    (hb : a.blksz = 512 ∨ a.blksz = 4096) (hp : a.blksz ∣ a.range.pos) (hk : (k : Int) < a.blksz) :
    filePlace cfg sb a.file (u64 (a.range.pos + (x + k))) = (did, 512 * cdw10 + k) := by
  obtain ⟨h1, h2, h3⟩ := chunk_offset hb (Int.dvd_add hp hc.dvd) hk
  have hspot := hc.spot
  unfold filePlace at hspot ⊢
  rw [← Int.add_assoc, h2, h1, place_add h3, hspot]

theorem dvd_len (h : a.blksz = 4096) : (4096 : Int) ∣ a.range.len := by
  have hdef : blkszOf a.range.len a.range.pos = 4096 := h
  unfold blkszOf at hdef
  split at hdef
  · cases hdef
  · rename_i hno
    exact Int.dvd_of_tmod_eq_zero (not_not.1 (not_or.1 hno).1)

/-- Only the last chunk goes past the end, and only if the length is no number of sectors. -/
theorem past_end {x : Int} {k : Nat} (hb : a.blksz = 512 ∨ a.blksz = 4096) (hx : a.blksz ∣ x)
    (hlt : x < a.range.len) (hk : (k : Int) < a.blksz) (hge : a.range.len ≤ x + k) :
    a.blksz = 512 ∧ a.range.len % 512 ≠ 0 ∧ a.range.len - 1 < x + 512 := by
  have hlen : ¬ a.blksz ∣ a.range.len := by
    rintro ⟨q, hq⟩
    obtain ⟨p, rfl⟩ := hx
    rw [hq] at hlt hge
    rcases hb with hb | hb <;> rw [hb] at hlt hge hk <;> omega
  have h512 : a.blksz = 512 := by
    refine hb.resolve_right fun h4 => hlen ?_
    rw [h4]
    exact dvd_len h4
  rw [h512] at hlen hk
  refine ⟨h512, fun h0 => hlen (Int.dvd_of_emod_eq_zero h0), by omega⟩

/-- What the call touches is in its range or in a block that it allocated. -/
theorem Writing.own (h : Writing cfg a sb disk n) (hbd : a.Bounded)
    (hclean : EndsClean sb a) {did y : Nat} (ht : Touched cfg a n.m.fs.sb did y) :
    (∃ o, a.range.Covers o ∧ filePlace cfg n.m.fs.sb a.file o = (did, y)) ∨
      ∃ k, Allocated sb n.m.fs.sb a.file k ∧
        ∃ o, place cfg ((n.m.fs.sb.file a.file).block k) o = (did, y) := by
  obtain ⟨x, cdw10, hc, hle, hlt⟩ := ht
  obtain ⟨k, rfl⟩ := Nat.exists_eq_add_of_le hle
  obtain ⟨hb, hp⟩ := h.blksz_cases
  have hk : (k : Int) < a.blksz := by omega
  have hx := hc.nonneg hbd
  have hbyte := hc.byte hb hp hk
  by_cases hin : x + k < a.range.len
  · exact .inl ⟨_, ⟨x + k, by omega, hin, rfl⟩, hbyte⟩
  · right
    obtain ⟨h512, hodd, hlast⟩ := past_end hb hc.dvd hc.lt hk (by omega)
    obtain ⟨d, hd⟩ := Int.eq_ofNat_of_zero_le (show 0 ≤ a.range.len - 1 - x by have := hc.lt; omega)
    have hdvd := Int.dvd_add hp hc.dvd
    -- the last byte of the range is in the block of the chunk
    have hlastBlock : iBlock (u64 (a.range.pos + a.range.len - 1)) =
      iBlock (u64 (a.range.pos + x)) := by
      rw [← (chunk_offset hb hdvd (k := d) (by omega)).2.1]
      congr 2
      omega
    have hkBlock := (chunk_offset hb hdvd hk).2.1
    rw [Int.add_assoc] at hkBlock
    have hold := hclean.resolve_left hodd
    rw [hlastBlock] at hold
    have hact := mem_active.1 hc.backed.iBlock
    unfold filePlace at hbyte
    rw [hkBlock] at hbyte
    exact ⟨_, ⟨hact.1, hold, hact.2⟩, _, hbyte⟩

/-- A call that has returned had a length that fits. -/
theorem Writing.bounded (h : Writing cfg a sb disk n) (hret : n.m.Returned cfg) : a.Bounded := by
  obtain ⟨-, hle⟩ := next_ret.1 hret.2
  have hj := h.going.le
  rw [h.len] at hle
  rw [h.blksz] at hj
  exact hle.trans hj

theorem Writing.ownRange (h : Writing cfg a sb disk n) (hret : n.m.Returned cfg)
    (hclean : EndsClean sb a) :
    OwnRange cfg a sb disk n := by
  intro did y hcov hnew
  refine h.frame did y fun ht => ?_
  rcases h.own (h.bounded hret) hclean ht with ⟨o, ho, he⟩ | ⟨k, hk, o, he⟩
  · exact hcov o ho he
  · exact hnew k hk o he

/-! ## A second run on other contents -/

theorem answer_q (m : Machine) (did c : Nat) (q : Queue) (mem : Nat → UInt8) (o : Out) :
    (m.answer cfg did c q mem o).q = (m.setQueue did c q).q := by
  obtain he | ⟨rid, offset, write, r, cont, rfl, hn⟩ | ⟨rid, b, rid', cont, rfl, hn⟩ :=
    answer_cases cfg m did c q mem o
  · rw [he]
  · rw [answer_rid hn]
  · rw [answer_check hn]

/-- Only the answer of a request moves the offset. -/
theorem answer_j (m : Machine) (did c : Nat) (q : Queue) (mem : Nat → UInt8) {o : Out}
    (ho : ∀ rid, o ≠ .rid rid) : (m.answer cfg did c q mem o).call.j = m.call.j := by
  obtain he | ⟨rid, offset, write, r, cont, rfl, hn⟩ | ⟨rid, b, rid', cont, rfl, hn⟩ :=
    answer_cases cfg m did c q mem o
  · rw [he]
    rfl
  · exact absurd rfl (ho rid)
  · rw [answer_check hn]
    obtain ⟨k, i, -, -, -, rfl⟩ := next_check hn
    cases b <;> rfl

/-- What a step of the call does to the commands and to its offset. -/
theorem Writing.cpu_issue (h : Writing cfg a sb disk n) {m : Machine} (hs : n.m.cpu cfg = some m) :
    (∀ did c, ∀ k ∈ (n.m.q did c).dev.outstanding, k ∈ (m.q did c).dev.outstanding) ∧
    (m.call.j = n.m.call.j ∨ m.call.j = wrap32 (n.m.call.j + a.blksz) ∧
      ∃ did c, ∃ k ∈ (m.q did c).dev.outstanding, (512 * (k.sqe.cdw12 + 1) : Int) = a.blksz ∧
        ChunkAt cfg a n.m.fs.sb n.m.call.j did k.sqe.cdw10) := by
  have hset : ∀ (q : Queue) (did c : Nat),
    (∀ k ∈ (n.m.q did c).dev.outstanding, k ∈ q.dev.outstanding) →
      ∀ d e, ∀ k ∈ (n.m.q d e).dev.outstanding,
      k ∈ ((n.m.setQueue did c q).q d e).dev.outstanding := by
    intro q did c hq d e k hk
    rw [setQueue_q]
    split
    · rename_i he
      obtain ⟨rfl, rfl⟩ := he
      exact hq k hk
    · exact hk
  cases cpu_step hs with
  | @tau c hb hn =>
    refine ⟨fun _ _ _ hk => hk, .inl ?_⟩
    obtain ⟨-, -, rfl⟩ | ⟨k, -, -, rfl⟩ | ⟨k, i, -, -, rfl⟩ := next_tau hn <;> rfl
  | req => exact ⟨hset _ _ _ fun _ hk => hk, .inl rfl⟩
  | @check did coreId rid cont hb hn h0 hr hd hc hpc =>
    refine ⟨?_, .inl (answer_j _ _ _ _ _ fun x hx => ?_)⟩
    · rw [answer_q]
      refine hset _ _ _ fun k hk => ?_
      unfold Queue.callCheck
      split <;> exact hk
    · unfold Queue.callCheck at hx
      split at hx <;> cases hx
  | @host did coreId q mem o hb hh =>
    rw [answer_q]
    cases host_step hh with
    | poll => exact ⟨hset _ _ _ fun _ hk => hk, .inl (answer_j _ _ _ _ _ nofun)⟩
    | reap => exact ⟨hset _ _ _ fun _ hk => hk, .inl (answer_j _ _ _ _ _ nofun)⟩
    | leaveReq =>
      refine ⟨hset _ _ _ fun _ hk => ?_, .inl (answer_j _ _ _ _ _ nofun)⟩
      simp only [leaveCq_dev]
      exact hk
    | leaveCheck =>
      refine ⟨hset _ _ _ fun _ hk => ?_, .inl (answer_j _ _ _ _ _ nofun)⟩
      simp only [leaveCq_dev]
      exact hk
    | @submit r hpc =>
      refine ⟨hset _ _ _ fun _ hk => List.mem_append_left _ hk, ?_⟩
      have hreq := (h.asked did coreId r (by rw [hpc]; rfl)).2
      obtain he | ⟨rid, offset, write, r', cont, -, hn⟩ | ⟨rid, b, rid', cont, ho, -⟩ :=
        answer_cases cfg n.m did coreId _ n.m.mem
          (.rid (ridOf cfg did coreId (n.m.q did coreId).qp.sqTail))
      · left
        rw [he]
        rfl
      · right
        obtain ⟨k, -, -, -, -, -, rfl⟩ := next_req hn
        rw [answer_rid hn]
        refine ⟨?_, did, coreId, ⟨(n.m.q did coreId).issued.length,
          ((n.m.q did coreId).qp.request cfg n.m.mem r).sqe (n.m.q did coreId).qp.sqTail⟩, ?_, ?_⟩
        · show wrap32 (n.m.call.j + n.m.call.blksz) = _
          rw [h.blksz]
        · rw [setQueue_self]
          exact List.mem_append_right _ List.mem_cons_self
        · have hsize := hreq.size
          have hb := h.blksz_cases.1
          simp only [request_sqe, Function.update_self]
          exact ⟨by omega, hreq.chunk⟩
      · cases ho

/-- A command writes the byte at `y` of its drive. -/
def Cmd.Over (k : Cmd) (y : Nat) : Prop :=
  512 * k.sqe.cdw10 ≤ y ∧ y < 512 * k.sqe.cdw10 + 512 * (k.sqe.cdw12 + 1)

/-- Two runs in step, on drives that differ at most at `p`; once the last chunk is issued, only
until its command is executed. -/
structure Twin (a : WriteArgs) (p : Nat × Nat) (n n' : Node) : Prop where
  m : n'.m = n.m
  same : ∀ did y, (did, y) ≠ p → n'.disk did y = n.disk did y
  last : a.range.len ≤ n.m.call.j → n'.disk p.1 p.2 = n.disk p.1 p.2 ∨
    ∃ c, ∃ k ∈ (n.m.q p.1 c).dev.outstanding, Cmd.Over k p.2

theorem store_congr {d d' : Nat → UInt8} {x y : Nat} {bs : List UInt8}
    (h : d' y = d y ∨ x ≤ y ∧ y < x + bs.length) : store d' x bs y = store d x bs y := by
  unfold store
  split
  · rfl
  · rename_i hout
    exact h.resolve_right hout

/-- The byte behind a range that does not end clean, in its last sector. -/
def spoiled (cfg : Cfg) (a : WriteArgs) (sb : Superblock) : Nat × Nat :=
  filePlace cfg sb a.file (u64 (a.range.pos + a.range.len))

/-- The last chunk of the range holds the byte behind it. -/
theorem Writing.over_spoiled (h : Writing cfg a sb disk n) (hodd : a.range.len % 512 ≠ 0)
    (hbd : a.Bounded) {x : Int} {did : Nat} {k : Cmd}
    (hc : ChunkAt cfg a n.m.fs.sb x did k.sqe.cdw10)
    (hsize : (512 * (k.sqe.cdw12 + 1) : Int) = a.blksz) (hj : a.range.len ≤ wrap32 (x + a.blksz)) :
    did = (spoiled cfg a n.m.fs.sb).1 ∧ Cmd.Over k (spoiled cfg a n.m.fs.sb).2 := by
  obtain ⟨hb, hp⟩ := h.blksz_cases
  have hlt := hc.lt
  have h0 := hc.nonneg hbd
  have hbd' : a.range.len ≤ 2 ^ 31 - a.blksz := hbd
  rw [wrap32_of_range (by omega) (by omega)] at hj
  have h512 : a.blksz = 512 := by
    refine hb.resolve_right fun h4 => hodd ?_
    have := dvd_len h4
    omega
  obtain ⟨i, hi⟩ := Int.eq_ofNat_of_zero_le (show 0 ≤ a.range.len - x by omega)
  have hdvd := hc.dvd
  rw [h512] at hdvd hj hsize
  have hbyte := hc.byte hb hp (k := i) (by omega)
  rw [show x + (i : Int) = a.range.len by omega] at hbyte
  unfold spoiled Cmd.Over
  rw [hbyte]
  refine ⟨rfl, ?_, ?_⟩
  · dsimp only
    omega
  · dsimp only
    omega

theorem spoiled_kept {sb sb' : Superblock} (hk : BlocksKept a.file sb sb')
    (hact : (sb.file a.file).block (iBlock (u64 (a.range.pos + a.range.len))) ≠ INACTIVE_BLOCK) :
    spoiled cfg a sb' = spoiled cfg a sb := by
  unfold spoiled filePlace
  rw [hk _ hact]

section
variable {n2 : Node} {p : Nat × Nat}

theorem Twin.cpu (ht : Twin a p n n2) (h : Writing cfg a sb disk n) (hodd : a.range.len % 512 ≠ 0)
    (hbd : a.Bounded) (hp : p = spoiled cfg a n.m.fs.sb) {m : Machine} (hs : n.m.cpu cfg = some m) :
    Twin a p ⟨m, n.disk⟩ ⟨m, n2.disk⟩ := by
  refine ⟨rfl, ht.same, fun hj => ?_⟩
  obtain ⟨hgrow, hstay | ⟨hmove, did, c, k, hk, hsize, hc⟩⟩ := h.cpu_issue hs
  · have hj' : a.range.len ≤ m.call.j := hj
    rw [hstay] at hj'
    refine (ht.last hj').imp_right ?_
    rintro ⟨c, k, hk, hover⟩
    exact ⟨c, k, hgrow _ _ k hk, hover⟩
  · right
    have hj' : a.range.len ≤ m.call.j := hj
    rw [hmove] at hj'
    obtain ⟨hdid, hover⟩ := h.over_spoiled hodd hbd hc hsize hj'
    rw [← hp] at hdid hover
    rw [hdid] at hk
    exact ⟨c, k, hk, hover⟩

theorem Twin.exec (ht : Twin a p n n2) (h : Writing cfg a sb disk n) {did coreId i : Nat}
    (hs : n.execAt did coreId i = some n') :
    ∃ n2', n2.execAt did coreId i = some n2' ∧ Twin a p n' n2' := by
  obtain ⟨c, hc, rfl⟩ := execAt_some hs
  have hmem : c ∈ (n.m.q did coreId).dev.outstanding := List.mem_of_getElem? hc
  have hcmd := h.cmds did coreId c hmem
  have hexec : n2.execAt did coreId i =
    some ⟨n2.m.setQueue did coreId ((n2.m.q did coreId).complete i c
      (execCmd (n2.m.q did coreId).qp (n2.disk did) c).1),
      Function.update n2.disk did (execCmd (n2.m.q did coreId).qp (n2.disk did) c).2⟩ := by
    unfold Node.execAt
    dsimp only
    rw [ht.m, hc]
    rfl
  refine ⟨_, hexec, ?_⟩
  rw [ht.m, execCmd_write _ _ hcmd.opc, execCmd_write _ _ hcmd.opc]
  have hlen := length_load ((n.m.q did coreId).qp.buf4k c.sqe.prp1.1) c.sqe.prp1.2
    (512 * (c.sqe.cdw12 + 1))
  -- both runs write the same bytes
  have hdisk : ∀ d y, (n2.disk d y = n.disk d y ∨ d = did ∧ Cmd.Over c y) →
      Function.update n2.disk did (store (n2.disk did) (512 * c.sqe.cdw10) (load
        ((n.m.q did coreId).qp.buf4k c.sqe.prp1.1) c.sqe.prp1.2 (512 * (c.sqe.cdw12 + 1)))) d y =
      Function.update n.disk did (store (n.disk did) (512 * c.sqe.cdw10) (load
        ((n.m.q did coreId).qp.buf4k c.sqe.prp1.1) c.sqe.prp1.2 (512 * (c.sqe.cdw12 + 1)))) d
          y := by
    intro d y hor
    by_cases hd : d = did
    · subst hd
      rw [Function.update_self, Function.update_self]
      refine store_congr (hor.imp_right fun ho => ?_)
      rw [hlen]
      exact ho.2
    · rw [Function.update_of_ne hd, Function.update_of_ne hd]
      exact hor.resolve_right fun ho => hd ho.1
  refine ⟨rfl, fun d y hne => hdisk d y (.inl (ht.same d y hne)), fun hj => ?_⟩
  rcases ht.last hj with hag | ⟨e, k, hk, hover⟩
  · exact .inl (hdisk _ _ (.inl hag))
  · by_cases he : p.1 = did ∧ e = coreId
    · rw [he.1, he.2] at hk
      rcases List.mem_cons.1 ((perm_eraseIdx hc).mem_iff.2 hk) with rfl | hk
      · exact .inl (hdisk _ _ (.inr ⟨he.1, hover⟩))
      · refine .inr ⟨e, k, ?_, hover⟩
        dsimp only
        rw [setQueue_q, if_pos he]
        exact hk
    · refine .inr ⟨e, k, ?_, hover⟩
      dsimp only
      rw [setQueue_q, if_neg he]
      exact hk

end

/-- Every run of the call has a twin on drives that hold something else at the spoiled byte. -/
theorem twin_of_reach {s : Store} (hq : s.Quiet) {fs : State} {c : IoCall}
    (hc : writeImpl s.fs a.file a.range.len a.range.pos a.buf a.coreId a.rid = .ok (fs, c))
    (h0 : 0 < a.range.len) (hodd : a.range.len % 512 ≠ 0) (hbd : a.Bounded)
    (hact : (s.fs.sb.file a.file).block (iBlock (u64 (a.range.pos + a.range.len))) ≠ INACTIVE_BLOCK)
    {disk' : Nat → Nat → UInt8}
    (hd : ∀ did y, (did, y) ≠ spoiled cfg a s.fs.sb → disk' did y = disk did y)
    (h : (drives cfg (Store.start { s with disk := disk } fs c)).Reach n) :
    ∃ n2, (drives cfg (Store.start { s with disk := disk' } fs c)).Reach n2 ∧
      Twin a (spoiled cfg a s.fs.sb) n n2 := by
  have hstart : ∀ n, (drives cfg (Store.start { s with disk := disk } fs c)).init n →
      Writing cfg a s.fs.sb disk n ∧
        ∃ n2, (drives cfg (Store.start { s with disk := disk' } fs c)).Reach n2 ∧
          Twin a (spoiled cfg a s.fs.sb) n n2 := by
    intro n hn
    have hn : n = _ := hn
    subst hn
    refine ⟨.start hq hc, _, .init rfl, rfl, hd, fun hj => ?_⟩
    have hj0 : c.j = 0 := by
      unfold writeImpl at hc
      split at hc
      · cases hc
      · cases hc
        rfl
    have hj : a.range.len ≤ c.j := hj
    omega
  have hstep : ∀ n l n', (Writing cfg a s.fs.sb disk n ∧
      ∃ n2, (drives cfg (Store.start { s with disk := disk' } fs c)).Reach n2 ∧
        Twin a (spoiled cfg a s.fs.sb) n n2) → True →
      (drives cfg (Store.start { s with disk := disk } fs c)).step n l n' →
      Writing cfg a s.fs.sb disk n' ∧
        ∃ n2, (drives cfg (Store.start { s with disk := disk' } fs c)).Reach n2 ∧
          Twin a (spoiled cfg a s.fs.sb) n' n2 := by
    intro n l n' hi _ hs
    obtain ⟨hw, n2, hr, ht⟩ := hi
    refine ⟨hw.step hs, ?_⟩
    cases l with
    | cpu =>
      obtain ⟨m, hm, rfl⟩ := hs
      refine ⟨⟨m, n2.disk⟩, hr.step (a := .cpu) trivial ⟨m, by rw [ht.m]; exact hm, rfl⟩, ?_⟩
      exact ht.cpu hw hodd hbd (spoiled_kept hw.kept hact).symm hm
    | exec did coreId k =>
      obtain ⟨n2', hs2, ht'⟩ := ht.exec hw hs
      exact ⟨n2', hr.step (a := .exec did coreId k) trivial hs2, ht'⟩
  exact (LTS.ReachIf.induct hstart hstep h).2

/-! ## The spoiled byte is nobody's -/

/-- No block has two owners, and there are free blocks for what the range needs. -/
structure Roomy (sb : Superblock) (a : WriteArgs) : Prop where
  file : a.file < MYFS_MAX_FILES
  ring : Ring sb
  free : (needed sb a).card ≤ cycLen NUM_BLOCKS sb.freeBlocksRp sb.freeBlocksWp

theorem mem_needed {k : Nat} : k ∈ needed sb a ↔ k < MYFS_MAX_BLOCKS_PER_FILE ∧
    (sb.file a.file).block k = INACTIVE_BLOCK ∧ ∃ o, a.range.Covers o ∧ iBlock o = k := by
  simp only [needed, Finset.mem_filter, Finset.mem_range]

theorem Roomy.alloc {k : Nat} (h : Roomy sb a) (hk : k ∈ needed sb a) :
    Roomy (allocBlock sb a.file k) a := by
  obtain ⟨hlt, hf, -⟩ := mem_needed.1 hk
  have hpos := Finset.card_pos.2 ⟨k, hk⟩
  have hfree := h.free
  have hne : sb.freeBlocksRp ≠ sb.freeBlocksWp := fun he => by
    rw [(cycLen_eq_zero h.ring.rp_lt h.ring.wp_lt).2 he] at hfree
    omega
  obtain ⟨hring, hb⟩ := h.ring.alloc h.file hlt hf hne
  refine ⟨h.file, hring, ?_⟩
  have hsub : needed (allocBlock sb a.file k) a ⊆ (needed sb a).erase k := by
    intro l hl
    obtain ⟨h1, h2, h3⟩ := mem_needed.1 hl
    rw [allocBlock_file, if_pos rfl] at h2
    simp only [setBlock_block] at h2
    split at h2
    · exact absurd h2 hb
    · rename_i hlk
      exact Finset.mem_erase.2 ⟨hlk, mem_needed.2 ⟨h1, h2, h3⟩⟩
  have hcard := Finset.card_le_card hsub
  rw [Finset.card_erase_of_mem hk] at hcard
  have hpop := cycLen_pop h.ring.rp_lt h.ring.wp_lt hne
  show _ ≤ cycLen NUM_BLOCKS ((sb.freeBlocksRp + 1) % NUM_BLOCKS) sb.freeBlocksWp
  omega

theorem Roomy.getLba {fs fs' : State} {o : Nat} {write lba : Int} (h : Roomy fs.sb a)
    (ho : a.range.Covers o) (hg : myfsGetLba fs a.file o write = .ok (lba, fs')) :
    Roomy fs'.sb a := by
  obtain ⟨k, hk, hk', -, -, ⟨-, rfl⟩ | ⟨-, hin, rfl⟩⟩ := myfsGetLba_ok hg
  · exact h
  · refine h.alloc (mem_needed.2 ⟨hk, hin, o, ho, ?_⟩)
    unfold iBlock
    rw [hk', Int.toNat_natCast]

/-- The superblock changes only when a block is looked up for the range. -/
theorem Writing.roomy (h : Writing cfg a sb disk n) (hbd : a.Bounded)
    (hr : Roomy n.m.fs.sb a) {m : Machine} (hs : n.m.cpu cfg = some m) : Roomy m.fs.sb a := by
  have hans : ∀ (did c : Nat) (q : Queue) (mem : Nat → UInt8) (o : Out),
      (n.m.answer cfg did c q mem o).fs = n.m.fs := by
    intro did c q mem o
    obtain he | ⟨rid, offset, write, r, cont, rfl, hn⟩ | ⟨rid, b, rid', cont, rfl, hn⟩ :=
      answer_cases cfg n.m did c q mem o
    · rw [he]
      rfl
    · rw [answer_rid hn]
      rfl
    · rw [answer_check hn]
      rfl
  cases cpu_step hs with
  | tau => exact hr
  | @req offset did write lba r cont fs hb hn hg =>
    obtain ⟨k, hpc, -, -, rfl, -, -⟩ := next_req hn
    rw [h.going.file, h.pos] at hg
    have hlt := h.going.inner k hpc
    have h0 := h.going.nonneg (by rw [h.len, h.blksz]; exact hbd)
    rw [h.len] at hlt
    exact hr.getLba ⟨_, h0, hlt, rfl⟩ hg
  | check =>
    rw [hans]
    exact hr
  | host =>
    rw [hans]
    exact hr

theorem roomy_of_reach {s : Store} (hq : s.Quiet) {fs : State} {c : IoCall}
    (hc : writeImpl s.fs a.file a.range.len a.range.pos a.buf a.coreId a.rid = .ok (fs, c))
    (hbd : a.Bounded) (hr : Roomy s.fs.sb a)
    (h : (drives cfg (Store.start { s with disk := disk } fs c)).Reach n) : Roomy n.m.fs.sb a := by
  refine (LTS.ReachIf.induct (P := fun n => Writing cfg a s.fs.sb disk n ∧ Roomy n.m.fs.sb a)
    (fun n hn => ?_) (fun n l n' hi _ hs => ⟨hi.1.step hs, ?_⟩) h).2
  · have hn : n = _ := hn
    subst hn
    refine ⟨.start hq hc, ?_⟩
    show Roomy fs.sb a
    rw [(Going.start (r := a.range) hc).2]
    exact hr
  · cases l with
    | cpu =>
      obtain ⟨m, hm, rfl⟩ := hs
      exact hi.1.roomy hbd hi.2 hm
    | exec did coreId k =>
      obtain ⟨c, -, rfl⟩ := execAt_some hs
      exact hi.2

/-- Offsets less than `2 ^ 31` apart that use the same entry of the block table. -/
theorem offset_inj {y z : Int} {k : Nat} (hle : y ≤ z) (hlt : z < y + 2 ^ 31)
    (hy : wrap32 ((u64 y / MYFS_BLOCK_SIZE : Nat) : Int) = (k : Int))
    (hz : wrap32 ((u64 z / MYFS_BLOCK_SIZE : Nat) : Int) = (k : Int))
    (hm : u64 y % MYFS_BLOCK_SIZE = u64 z % MYFS_BLOCK_SIZE) : y = z := by
  rw [MYFS_BLOCK_SIZE_eq] at hy hz hm
  unfold wrap32 at hy hz
  rw [Int.bmod_def] at hy hz
  unfold u64 at *
  omega

/-- When the call has returned, the whole range is backed, and so is the byte behind it. -/
theorem Writing.all_backed (h : Writing cfg a sb disk n) (hret : n.m.Returned cfg) {x : Int}
    (h0 : 0 ≤ x) (hx : x < a.range.len) :
    Backed (n.m.fs.sb.file a.file) (u64 (a.range.pos + x)) := by
  obtain ⟨-, hle⟩ := next_ret.1 hret.2
  have hbd := h.bounded hret
  rw [← h.pos]
  refine h.going.backed ?_ x h0 ?_
  · rw [h.len, h.blksz]
    exact hbd
  · rw [h.len] at hle
    omega

/-- The byte behind a range that ends within a sector is in the block of its last byte. -/
theorem block_behind (hodd : a.range.len % 512 ≠ 0) (hp : (512 : Int) ∣ a.range.pos) :
    u64 (a.range.pos + a.range.len) / MYFS_BLOCK_SIZE =
      u64 (a.range.pos + a.range.len - 1) / MYFS_BLOCK_SIZE := by
  rw [MYFS_BLOCK_SIZE_eq]
  unfold u64
  omega

section
variable (h : Writing cfg a sb disk n) (hret : n.m.Returned cfg) (hr : Roomy n.m.fs.sb a)
  (h0 : 0 < a.range.len) (hodd : a.range.len % 512 ≠ 0)
include h hret hr h0 hodd

/-- A place in an allocated block of the file that is the spoiled byte's. -/
theorem Writing.at_spoiled {k o : Nat} (hk : k ∈ (n.m.fs.sb.file a.file).active)
    (he : place cfg ((n.m.fs.sb.file a.file).block k) o = spoiled cfg a n.m.fs.sb) :
    k = iBlock (u64 (a.range.pos + a.range.len - 1)) ∧
      o % MYFS_BLOCK_SIZE = u64 (a.range.pos + a.range.len) % MYFS_BLOCK_SIZE := by
  obtain ⟨hb, hp⟩ := h.blksz_cases
  have hp512 : (512 : Int) ∣ a.range.pos := by
    rcases hb with hb | hb <;> rw [hb] at hp <;> omega
  have hlast := h.all_backed hret (x := a.range.len - 1) (by omega) (by omega)
  rw [← Int.add_sub_assoc] at hlast
  have hiBlock : iBlock (u64 (a.range.pos + a.range.len)) =
      iBlock (u64 (a.range.pos + a.range.len - 1)) := by
    unfold iBlock
    rw [block_behind hodd hp512]
  unfold spoiled filePlace at he
  rw [hiBlock] at he
  obtain ⟨hk1, hk2⟩ := mem_active.1 hk
  obtain ⟨hl1, hl2⟩ := mem_active.1 hlast.iBlock
  obtain ⟨b, hb, hbe⟩ := hr.ring.block_range hr.file hk1 hk2
  obtain ⟨l, hl, hle⟩ := hr.ring.block_range hr.file hl1 hl2
  rw [hbe, hle] at he
  obtain ⟨h1, h2⟩ := place_inj hb hl he
  exact ⟨(hr.ring.block_inj hr.file hk1 hr.file hl1 hk2 (by rw [hbe, hle, h1])).2, h2⟩

theorem Writing.spoiled_outside {o : Nat} (ho : a.range.Covers o) :
    filePlace cfg n.m.fs.sb a.file o ≠ spoiled cfg a n.m.fs.sb := by
  intro he
  obtain ⟨x, hx0, hx, rfl⟩ := ho
  have hbd : a.range.len ≤ 2 ^ 31 - a.blksz := h.bounded hret
  obtain ⟨hb, hp⟩ := h.blksz_cases
  have hp512 : (512 : Int) ∣ a.range.pos := by
    rcases hb with hb | hb <;> rw [hb] at hp <;> omega
  have hbx := h.all_backed hret hx0 hx
  have hbl := h.all_backed hret (x := a.range.len - 1) (by omega) (by omega)
  rw [← Int.add_sub_assoc] at hbl
  obtain ⟨hk, hm⟩ := h.at_spoiled hret hr h0 hodd hbx.iBlock he
  obtain ⟨k, -, hkx⟩ := hbx
  obtain ⟨l, -, hlx⟩ := hbl
  have hkl : k = l := by
    unfold iBlock at hk
    rw [hkx, hlx] at hk
    exact hk
  rw [← block_behind hodd hp512, ← hkl] at hlx
  have := offset_inj (by omega) (by omega) hkx hlx hm
  omega

theorem Writing.spoiled_old
    (hact : (sb.file a.file).block (iBlock (u64 (a.range.pos + a.range.len - 1))) ≠ INACTIVE_BLOCK)
    {k : Nat} (hk : Allocated sb n.m.fs.sb a.file k) (o : Nat) :
    place cfg ((n.m.fs.sb.file a.file).block k) o ≠ spoiled cfg a n.m.fs.sb := by
  intro he
  obtain ⟨hlt, hin, hne⟩ := hk
  have := (h.at_spoiled hret hr h0 hodd (mem_active.2 ⟨hlt, hne⟩) he).1
  exact hact (this ▸ hin)

end

end

/-! ## When a write stays in its range -/

section
variable {cfg : Cfg} {a : WriteArgs} {s : Store}

/-- A call that does not end clean changes a byte that is not its own, for some contents of the
drives. -/
theorem spoils (hq : s.Quiet) (hr : Roomy s.fs.sb a) (h0 : 0 < a.range.len)
    (hclean : ¬ EndsClean s.fs.sb a) {disk : Nat → Nat → UInt8} {n : Node}
    (h : WriteEnds cfg a s disk n) :
    ∃ disk' n', WriteEnds cfg a s disk' n' ∧ ¬ OwnRange cfg a s.fs.sb disk' n' := by
  obtain ⟨hodd, hlast⟩ := not_or.1 hclean
  obtain ⟨fs, c, hc, hreach, hret, hdone⟩ := h
  have hw := writing_of_reach hq hc hreach
  have hbd := hw.bounded hret
  obtain ⟨hb, hp⟩ := hw.blksz_cases
  have hp512 : (512 : Int) ∣ a.range.pos := by
    rcases hb with hb | hb <;> rw [hb] at hp <;> omega
  have hact : (s.fs.sb.file a.file).block (iBlock (u64 (a.range.pos + a.range.len))) ≠
      INACTIVE_BLOCK := by
    unfold iBlock
    rw [block_behind hodd hp512]
    exact hlast
  obtain ⟨p, hpe⟩ : ∃ p, p = spoiled cfg a s.fs.sb := ⟨_, rfl⟩
  -- another value than the one that the call leaves
  let disk' : Nat → Nat → UInt8 := fun did y =>
    if (did, y) = p then n.disk p.1 p.2 + 1 else disk did y
  have hd : ∀ did y, (did, y) ≠ spoiled cfg a s.fs.sb → disk' did y = disk did y := fun did y hne =>
    if_neg (hpe ▸ hne)
  obtain ⟨n2, hreach2, ht⟩ := twin_of_reach hq hc h0 hodd hbd hact hd hreach
  rw [← hpe] at ht
  have hret2 : n2.m.Returned cfg := by
    rw [ht.m]
    exact hret
  refine ⟨disk', n2, ⟨fs, c, hc, hreach2, hret2, by rw [ht.m]; exact hdone⟩, fun hown => ?_⟩
  have hw2 := writing_of_reach hq hc hreach2
  have hr2 := roomy_of_reach hq hc hbd hr hreach2
  have hsp : spoiled cfg a n2.m.fs.sb = (p.1, p.2) := by
    rw [spoiled_kept hw2.kept hact, hpe]
  have heq := hown p.1 p.2
    (fun o ho he => hw2.spoiled_outside hret2 hr2 h0 hodd ho (he.trans hsp.symm))
    (fun k hk o he => hw2.spoiled_old hret2 hr2 h0 hodd hlast hk o (he.trans hsp.symm))
  have hagree : n2.disk p.1 p.2 = n.disk p.1 p.2 := by
    obtain ⟨-, hle⟩ := next_ret.1 hret.2
    rw [hw.len] at hle
    refine (ht.last hle).resolve_right ?_
    rintro ⟨e, k, hk, -⟩
    rw [hdone] at hk
    cases hk
  have hval : disk' p.1 p.2 = n.disk p.1 p.2 + 1 := if_pos rfl
  rw [hagree, hval] at heq
  have hnat := congrArg UInt8.toNat heq
  rw [UInt8.toNat_add] at hnat
  have hlt := (n.disk p.1 p.2).toNat_lt
  have h1 : (1 : UInt8).toNat = 1 := rfl
  omega

/-- **A write touches only its own range** when the range ends with a whole sector or in a block
that the call allocates; in a consistent store with room for the range, no other write does so for
all contents of the drives, if it returns at all. -/
theorem write_own_range (hq : s.Quiet) (h0 : 0 < a.range.len) :
    (EndsClean s.fs.sb a → ∀ disk n, WriteEnds cfg a s disk n → OwnRange cfg a s.fs.sb disk n) ∧
    (Roomy s.fs.sb a → (∃ disk n, WriteEnds cfg a s disk n) →
      (∀ disk n, WriteEnds cfg a s disk n → OwnRange cfg a s.fs.sb disk n) →
        EndsClean s.fs.sb a) := by
  refine ⟨fun hclean disk n h => ?_, fun hr hends hall => ?_⟩
  · obtain ⟨fs, c, hc, hreach, hret, -⟩ := h
    exact (writing_of_reach hq hc hreach).ownRange hret hclean
  · obtain ⟨disk, n, h⟩ := hends
    apply Classical.byContradiction
    intro hclean
    obtain ⟨disk', n', h', hno⟩ := spoils hq hr h0 hclean h
    exact hno (hall disk' n' h')

end

/-! ## Less than a sector -/

section
variable {cfg : Cfg}

/-- Drives that execute a command at its doorbell are a case of drives that execute later. -/
theorem drives_next {n0 n n' : Node} (hr : (drives cfg n0).Reach n) (hs : n.step cfg = some n') :
    (drives cfg n0).Reach n' := by
  obtain ⟨m, hm, ⟨-, rfl⟩ | ⟨did, c, -, rfl⟩⟩ := node_step hs
  · exact hr.step (a := .cpu) trivial ⟨m, hm, rfl⟩
  · have hr' : (drives cfg n0).Reach ⟨m, n.disk⟩ := hr.step (a := .cpu) trivial ⟨m, hm, rfl⟩
    cases ho : (m.q did c).dev.outstanding with
    | nil =>
      rw [exec_nil ho]
      exact hr'
    | cons k ks =>
      refine hr'.step (a := .exec did c 0) trivial ?_
      simp only [drives, Node.execAt, Node.exec, ho, List.getElem?_cons_zero, Option.map_some]

/-- The first `len` bytes of the file in slot 0, from address 0. -/
def firstBytes (len : Int) : WriteArgs := ⟨0, ⟨0, len⟩, 0, 0, fun _ => 0⟩

theorem request_buf4k (cfg : Cfg) (qp : QP) (mem : Nat → UInt8) {r : Req} (hw : r.opc = .write) :
    (qp.request cfg mem r).buf4k = Function.update qp.buf4k (getBuf4k qp.sqTail).1
      (store (qp.buf4k (getBuf4k qp.sqTail).1) (getBuf4k qp.sqTail).2 (load mem r.buf r.len)) := by
  unfold QP.request
  rw [hw]
  rfl

/-- The write of the first bytes on new queue pairs: the rest of the sector is what the bounce
buffer held. -/
theorem write_first {s : Store} {len lba : Int} {fs : State} (h0 : 0 < len) (h1 : len ≤ 512)
    (hq : s.q = freshQueues) (hdeg : 0 < cfg.WRITE_DEG)
    (hg : myfsGetLba (myfsIncrementRef s.fs 0).1 0 0 1 = .ok (lba, fs)) (disk : Nat → Nat → UInt8) :
    ∃ n, WriteEnds cfg (firstBytes len) s disk n ∧ n.m.fs = fs ∧
      n.disk = Function.update disk (driveOf cfg lba).toNat (store (disk (driveOf cfg lba).toNat)
        (512 * cdw10Of cfg lba) (load (store (fun _ => 0) 0 (load s.mem 0 len.toNat)) 0 512)) := by
  have hbs : blkszOf len 0 = 512 := by
    unfold blkszOf
    refine if_pos (.inl ?_)
    show len.tmod ((4096 : Nat) : Int) ≠ 0
    rw [Int.tmod_eq_emod_of_nonneg (by omega)]
    omega
  let c1 : IoCall := ⟨.write, 0, len, 0, 0, 0, 512, 0, fun _ => 0, .inner 0⟩
  have hc : writeImpl s.fs 0 len 0 0 0 (fun _ => 0) =
      .ok ((myfsIncrementRef s.fs 0).1, { c1 with pc := .outer }) := by
    unfold writeImpl
    rw [hbs]
    rfl
  let n0 : Node := Store.start { s with disk := disk } (myfsIncrementRef s.fs 0).1
    { c1 with pc := .outer }
  let n1 : Node := Store.start { s with disk := disk } (myfsIncrementRef s.fs 0).1 c1
  have hs1 : n0.step cfg = some n1 := by
    refine step_tau rfl ?_
    show (if (0 : Int) < len then Eff.tau c1 else _) = _
    exact if_pos h0
  have hn : c1.next cfg = .req 0 1 (c1.request .write) (c1.after 0) := by
    have hu : u64 ((0 : Int) + 0) = 0 := by
      unfold u64
      omega
    unfold IoCall.next
    dsimp only [c1]
    rw [if_pos hdeg, hu]
    refine congrArg (Eff.req 0 1 _) (funext fun rid => ?_)
    simp only [IoCall.after, true_and, ge_iff_le]
  have hown : ∀ did, n1.m.own did = Queue.new 1 default := fun did => by
    show s.q did 0 = _
    rw [hq]
    rfl
  have hready : ∀ did, Ready (n1.m.own did) := fun did => by
    rw [hown]
    exact ⟨rfl, (fun h => by cases h), rfl⟩
  obtain ⟨did, hdid⟩ : ∃ did, did = (driveOf cfg lba).toNat := ⟨_, rfl⟩
  obtain ⟨n2, n3, hs2, -, hs3, hb, hfs, -, hcall, hqs, -, hout, -, -, hdisk⟩ :=
    steps_issue (n := n1) rfl hn hg hdid (hready did)
  have hj : len ≤ (c1.after 0 (ridOf cfg did 0 (n1.m.own did).qp.sqTail)).j := h1
  have hpc : (c1.after 0 (ridOf cfg did 0 (n1.m.own did).qp.sqTail)).pc = .wait 0 0 :=
    if_pos ⟨rfl, hj⟩
  have hn3 : n3.m.call.next cfg =
      .tau { c1.after 0 (ridOf cfg did 0 (n1.m.own did).qp.sqTail) with pc := .outer } := by
    rw [hcall]
    unfold IoCall.next
    rw [show (c1.after 0 (ridOf cfg did n1.m.call.coreId (n1.m.own did).qp.sqTail)).pc =
      .wait 0 0 from hpc]
    rfl
  have hreach := drives_next (drives_next (drives_next (drives_next (.init rfl) hs1) hs2) hs3)
    (step_tau hb hn3)
  refine ⟨_, ⟨_, _, hc, hreach, ⟨hb, next_ret.2 ⟨rfl, hj⟩⟩, fun d c => ?_⟩, hfs, ?_⟩
  · by_cases he : d = did ∧ c = 0
    · rw [he.1, he.2]
      exact hout
    · show (n3.m.q d c).dev.outstanding = []
      rw [hqs d c he]
      show (s.q d c).dev.outstanding = []
      rw [hq]
      rfl
  · show n3.disk = _
    rw [hdisk, hown, ← hdid]
    refine congrArg (Function.update disk did) ?_
    have hsqe := request_sqe cfg (Queue.new 1 default).qp n1.m.mem (c1.request .write lba)
    have hz : getBuf4k 0 = (0, 0) := by simp [getBuf4k]
    have htail : (Queue.new 1 default).qp.sqTail = 0 := rfl
    rw [execCmd_write _ _ (by simp only [hsqe, Function.update_self]; rfl)]
    simp only [hsqe, htail, Function.update_self, hz]
    have hbuf : ((Queue.new 1 default).qp.request cfg n1.m.mem (c1.request .write lba)).buf4k 0 =
        store (fun _ => 0) 0 (load s.mem 0 len.toNat) := by
      have hlen : (c1.request .write lba).len = len.toNat := by
        show (min 512 (len - 0)).toNat = _
        rw [Int.sub_zero, Int.min_eq_right h1]
      rw [request_buf4k cfg _ _ (by rfl), htail, hz, Function.update_self, hlen]
      rfl
    rw [hbuf]
    rfl

/-- A store with one file of one block, new queue pairs and sevens in the memory. -/
theorem first_store : ∃ s : Store, s.Quiet ∧ s.q = freshQueues ∧ s.mem = (fun _ => 7) ∧
    Ring s.fs.sb ∧ (s.fs.sb.file 0).block 0 = 0 := by
  have hB := MYFS_BLOCK_SIZE_eq
  let cfg : Cfg := ⟨1, 1, 1, 1⟩
  have hfit : cfg.ND * cfg.N_CORE * QD ≤ 2 ^ 31 := by
    rw [QD_eq]
    decide
  have hone : 0 < cfg.N_CORE ∧ 0 < cfg.WRITE_DEG := by decide
  have h0 : 0 % 512 = 0 := rfl
  obtain ⟨s, m, hh, -, -, -, hblock, -⟩ := hist_sector hone.1 hone.2 h0 (by omega)
  have hrest := rest_of_hist hfit (by decide) hh
  exact ⟨⟨s.fs, freshQueues, fun _ => 7, fun _ _ => 0⟩, fun _ _ => ⟨rfl, rfl⟩, rfl, rfl,
    hrest.ring, hblock⟩

theorem iBlock_first {o : Nat} (h : o < 512) : iBlock o = 0 := by
  have hB := MYFS_BLOCK_SIZE_eq
  unfold iBlock
  rw [Nat.div_eq_of_lt (by omega), wrap32_of_range (by omega) (by omega)]
  rfl

theorem covers_first {len : Int} {o : Nat} (h : (firstBytes len).range.Covers o)
    (hlen : len ≤ 512) :
    (o : Int) < len := by
  obtain ⟨x, h0, hx, rfl⟩ := h
  have hx : x < len := hx
  show ((u64 ((0 : Int) + x) : Nat) : Int) < len
  unfold u64
  omega

/-- The write of its first bytes, on drives full of ones. -/
theorem first_ends {s : Store} {len : Int} (h0 : 0 < len) (h1 : len ≤ 512) (hq : s.q = freshQueues)
    (hmem : s.mem = fun _ => 7) (hblock : (s.fs.sb.file 0).block 0 = 0) :
    ∃ n, WriteEnds ⟨1, 1, 1, 1⟩ (firstBytes len) s (fun _ _ => 1) n ∧ n.m.fs.sb = s.fs.sb ∧
      ∀ x < 512, n.disk 0 x = if (x : Int) < len then 7 else 0 := by
  have hM := MYFS_MAX_BLOCKS_PER_FILE_eq
  have hB := MYFS_BLOCK_SIZE_eq
  have hN := NUM_BLOCKS_eq
  have hsb := incrementRef_sb s.fs 0
  have hg : myfsGetLba (myfsIncrementRef s.fs 0).1 0 0 1 =
    .ok (lbaOf 0 0, (myfsIncrementRef s.fs 0).1) := by
    rw [myfsGetLba_active 1 (by rw [Nat.zero_div]; omega)
      (by rw [hsb, Nat.zero_div, hblock]; decide), hsb, Nat.zero_div, hblock]
  obtain ⟨n, hends, hfs, hdisk⟩ : ∃ n, WriteEnds ⟨1, 1, 1,
    1⟩ (firstBytes len) s (fun _ _ => 1) n ∧ _ :=
    write_first h0 h1 hq (by decide) hg _
  have hplace : place ⟨1, 1, 1, 1⟩ 0 0 = (0, 0) :=
    (place_locate (n := 0) (by omega) 0).trans (by simp [Stripe.locate, addr])
  unfold place at hplace
  obtain ⟨hd, hc⟩ := Prod.mk.inj hplace
  rw [Nat.zero_mod, Nat.add_zero] at hc
  refine ⟨n, hends, by rw [hfs, hsb], fun x hx => ?_⟩
  have hin : ∀ (m : Nat → UInt8) {bs : List UInt8}, x < bs.length →
    store m 0 bs x = bs.getD x 0 := by
    intro m bs hlt
    have := store_inside (m := m) (a := 0) hlt
    rwa [Nat.zero_add] at this
  rw [hdisk, hd, hc, Function.update_self, hin _ (by rw [length_load]; exact hx), getD_load hx,
    Nat.zero_add]
  by_cases hlt : (x : Int) < len
  · have hx' : x < (load s.mem 0 len.toNat).length := by
      rw [length_load]
      omega
    rw [if_pos hlt, hin _ hx', getD_load (by omega), hmem]
  · rw [if_neg hlt]
    exact store_outside (.inr (by rw [length_load]; omega))

/-- The range of the first bytes needs no new block. -/
theorem first_roomy {s : Store} {len : Int} (h1 : len ≤ 512) (hR : Ring s.fs.sb)
    (hblock : (s.fs.sb.file 0).block 0 = 0) : Roomy s.fs.sb (firstBytes len) := by
  refine ⟨MYFS_MAX_FILES_pos, hR, ?_⟩
  have hempty : needed s.fs.sb (firstBytes len) = ∅ := by
    refine Finset.eq_empty_of_forall_notMem fun k hk => ?_
    obtain ⟨-, hin, o, ho, rfl⟩ := mem_needed.1 hk
    have hlt := covers_first ho h1
    have hin : (s.fs.sb.file 0).block (iBlock o) = INACTIVE_BLOCK := hin
    rw [iBlock_first (by omega), hblock] at hin
    cases hin
  rw [hempty, Finset.card_empty]
  exact Nat.zero_le _

/-- One sector of a file is written, and nothing else; less than a sector does not end clean. -/
theorem write_own_range_first : ∃ s : Store, s.Quiet ∧
    (∃ n, WriteEnds ⟨1, 1, 1, 1⟩ (firstBytes 512) s (fun _ _ => 1) n ∧
      OwnRange ⟨1, 1, 1, 1⟩ (firstBytes 512) s.fs.sb (fun _ _ => 1) n) ∧
    ∃ disk n, WriteEnds ⟨1, 1, 1, 1⟩ (firstBytes 100) s disk n ∧
      ¬ OwnRange ⟨1, 1, 1, 1⟩ (firstBytes 100) s.fs.sb disk n := by
  obtain ⟨s, hQ, hq, hmem, hR, hblock⟩ := first_store
  obtain ⟨n, hn, -⟩ := first_ends (show (0 : Int) < 512 by decide) (by decide) hq hmem hblock
  obtain ⟨n', hn', -⟩ := first_ends (show (0 : Int) < 100 by decide) (by decide) hq hmem hblock
  refine ⟨s, hQ, ⟨n, hn, (write_own_range hQ (show (0 : Int) < 512 by decide)).1 (.inl rfl) _ n hn⟩,
    ?_⟩
  have hdirty : ¬ EndsClean s.fs.sb (firstBytes 100) := by
    refine not_or.2 ⟨by decide, fun hin => ?_⟩
    have hin : (s.fs.sb.file 0).block (iBlock (u64 (0 + 100 - 1))) = INACTIVE_BLOCK := hin
    have hu : u64 (0 + 100 - 1) = 99 := by
      unfold u64
      omega
    rw [hu, iBlock_first (by omega), hblock] at hin
    cases hin
  have hall := mt ((write_own_range hQ (show (0 : Int) < 100 by decide)).2
    (first_roomy (by decide) hR hblock) ⟨_, n', hn'⟩) hdirty
  push Not at hall
  exact hall

/-- 100 bytes are written to a sector full of ones: the other 412 bytes become zeros of the bounce
buffer. -/
theorem write_spills : ∃ (s : Store) (n : Node), s.Quiet ∧ Ring s.fs.sb ∧
    (s.fs.sb.file 0).block 0 = 0 ∧
    WriteEnds ⟨1, 1, 1, 1⟩ (firstBytes 100) s (fun _ _ => 1) n ∧ n.disk 0 100 = 0 ∧
    ¬ OwnRange ⟨1, 1, 1, 1⟩ (firstBytes 100) s.fs.sb (fun _ _ => 1) n := by
  obtain ⟨s, hQ, hq, hmem, hR, hblock⟩ := first_store
  obtain ⟨n, hn, hsb, hdisk⟩ :=
    first_ends (show (0 : Int) < 100 by decide) (by decide) hq hmem hblock
  have hB := MYFS_BLOCK_SIZE_eq
  have hN := NUM_BLOCKS_eq
  have h100 : n.disk 0 100 = 0 := hdisk 100 (by decide)
  refine ⟨s, n, hQ, hR, hblock, hn, h100, fun hown => ?_⟩
  have hone := hown 0 100 (fun o ho he => ?_) (fun k hk => ?_)
  · rw [h100] at hone
    cases hone
  · -- byte 100 of the drive is offset 100 of the file
    have hlt := covers_first ho (by decide)
    have hplace : filePlace ⟨1, 1, 1, 1⟩ n.m.fs.sb 0 o = (0, o) := by
      unfold filePlace
      rw [hsb, iBlock_first (by omega), hblock]
      refine (place_locate (n := 0) (by omega) o).trans ?_
      have ho : o % 2097152 = o := Nat.mod_eq_of_lt (by omega)
      simp only [Stripe.locate, addr, hB, ho, Nat.mod_one, Nat.div_one, Int.toNat_natCast,
        Nat.zero_mul, Nat.zero_add, BLKSZ, Prod.mk.injEq, true_and]
      omega
    have he : filePlace ⟨1, 1, 1, 1⟩ n.m.fs.sb 0 o = (0, 100) := he
    rw [hplace] at he
    have := (Prod.mk.inj he).2
    omega
  · obtain ⟨-, hin, hne⟩ := hk
    rw [hsb] at hne
    exact absurd hin hne

end

end Hook

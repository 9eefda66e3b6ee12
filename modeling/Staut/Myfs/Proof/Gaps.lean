import Staut.Lib.Segment
import Staut.Myfs.Proof.Ownership

/-!
# Gaps in the block table

`n_block` counts the allocated blocks of a file (`Counted`, kept by allocations in any order);
`__myfs_unlink` uses it as the bound of their indices. The two agree when the indices have no gap:
then, and only then, an unlink gives back just the file's blocks (`unlink_returns_blocks`).
-/

set_option autoImplicit false

namespace Myfs

open CSem Run Cyclic Segment

/-- The indices of the allocated blocks. -/
def File.active (f : File) : Finset Nat :=
  (Finset.range MYFS_MAX_BLOCKS_PER_FILE).filter fun k => f.block k ≠ INACTIVE_BLOCK

theorem mem_active {f : File} {k : Nat} :
    k ∈ f.active ↔ k < MYFS_MAX_BLOCKS_PER_FILE ∧ f.block k ≠ INACTIVE_BLOCK := by
  rw [File.active, Finset.mem_filter, Finset.mem_range]

theorem active_card_le (f : File) : f.active.card ≤ MYFS_MAX_BLOCKS_PER_FILE := by
  have := Finset.card_filter_le (Finset.range MYFS_MAX_BLOCKS_PER_FILE)
    fun k => f.block k ≠ INACTIVE_BLOCK
  rwa [Finset.card_range] at this

theorem active_eq_empty {f : File} :
    f.active = ∅ ↔ ∀ k < MYFS_MAX_BLOCKS_PER_FILE, f.block k = INACTIVE_BLOCK := by
  rw [Finset.eq_empty_iff_forall_notMem]
  refine forall_congr' fun k => ?_
  rw [mem_active, not_and, not_not]

/-- An allocation adds one index. -/
theorem active_setBlock {f : File} {k : Nat} {b : Int} (hk : k < MYFS_MAX_BLOCKS_PER_FILE)
    (hb : b ≠ INACTIVE_BLOCK) : (f.setBlock k b).active = insert k f.active := by
  ext l
  rw [Finset.mem_insert, mem_active, mem_active, setBlock_block]
  split
  · rename_i hl
    exact ⟨fun _ => .inl hl, fun _ => ⟨hl ▸ hk, hb⟩⟩
  · rename_i hl
    exact ⟨.inr, fun h => h.resolve_left hl⟩

/-! ## The count -/

/-- A named slot counts its blocks, an unnamed one has none. -/
structure SlotCounted (f : File) : Prop where
  count : f.name ≠ .empty → f.nBlock = f.active.card
  unnamed : f.name = .empty → f.active = ∅

structure Counted (sb : Superblock) : Prop where
  ring : Ring sb
  slot : ∀ i < MYFS_MAX_FILES, SlotCounted (sb.file i)

theorem SlotCounted.alloc {f : File} (h : SlotCounted f) (hn : f.name ≠ .empty) {k : Nat} {b : Int}
    (hk : k < MYFS_MAX_BLOCKS_PER_FILE) (hf : f.block k = INACTIVE_BLOCK)
    (hb : b ≠ INACTIVE_BLOCK) :
    SlotCounted { f.setBlock k b with nBlock := (f.nBlock + 1) % 2 ^ 64 } := by
  refine ⟨fun _ => ?_, fun he => absurd he hn⟩
  have hnot : k ∉ f.active := fun hm => (mem_active.1 hm).2 hf
  have hle := active_card_le f
  have hM := MYFS_MAX_BLOCKS_PER_FILE_eq
  show (f.nBlock + 1) % 2 ^ 64 = (f.setBlock k b).active.card
  rw [active_setBlock hk hb, Finset.card_insert_of_notMem hnot, h.count hn,
    Nat.mod_eq_of_lt (by omega)]

theorem Counted.getLba {s s' : State} (h : Counted s.sb) {i offset : Nat} {write lba : Int}
    (hi : i < MYFS_MAX_FILES) (hn : (s.sb.file i).name ≠ .empty)
    (hb : offset / MYFS_BLOCK_SIZE < MYFS_MAX_BLOCKS_PER_FILE)
    (hne : 0 < write → (s.sb.file i).block (offset / MYFS_BLOCK_SIZE) = INACTIVE_BLOCK →
      s.sb.freeBlocksRp ≠ s.sb.freeBlocksWp)
    (hg : myfsGetLba s i offset write = .ok (lba, s')) : Counted s'.sb := by
  obtain ⟨k, hk, hk', -, -, ⟨-, rfl⟩ | ⟨hw, hin, rfl⟩⟩ := myfsGetLba_ok hg
  · exact h
  · rw [wrap32_iBlock hb] at hk'
    obtain rfl : offset / MYFS_BLOCK_SIZE = k := Int.ofNat_inj.1 hk'
    obtain ⟨hring, hact⟩ := h.ring.alloc hi hk hin (hne hw hin)
    refine ⟨hring, fun m hm => ?_⟩
    show SlotCounted ((allocBlock s.sb i (offset / MYFS_BLOCK_SIZE)).file m)
    rw [allocBlock_file]
    split
    · exact (h.slot i hi).alloc hn hk hin hact
    · exact h.slot m hm

theorem Counted.open {s s' : State} (h : Counted s.sb) {f : CStr} {i : Nat}
    (ho : myfsOpen s f = .ok (i, s')) : Counted s'.sb := by
  obtain ⟨hi, ⟨-, -, rfl⟩ | ⟨-, hn, -, rfl⟩⟩ := myfsOpen_ok ho
  · exact h
  · have hun := (h.slot i hi).unnamed hn
    refine ⟨h.ring.setFile hi rfl, fun k hk => ?_⟩
    rw [setFlags_sb, setFile_file]
    split
    · have he : File.active { s.sb.file i with name := f, nBlock := 0 } = ∅ := hun
      exact ⟨fun _ => by rw [he]; rfl, fun _ => he⟩
    · exact h.slot k hk

theorem Counted.init (sb : Superblock) : Counted (myfsSuperblockInit sb) := by
  have ho := Owned.init sb
  have hname : ∀ i < MYFS_MAX_FILES, ((myfsSuperblockInit sb).file i).name = .empty :=
    fun i hi => by
    simp only [myfsSuperblockInit, if_pos hi]
  exact ⟨ho.ring, fun i hi => ⟨fun hn => absurd (hname i hi) hn,
    fun hn => active_eq_empty.2 ((ho.slot i hi).unnamed hn)⟩⟩

/-! ## Unlink -/

/-- In a gapless slot the blocks below `n_block` are the allocated ones. -/
theorem SlotCounted.active_iff {f : File} (h : SlotCounted f) (hn : f.name ≠ .empty)
    (hg : Gapless f.active) (j : Nat) : j ∈ f.active ↔ j < f.nBlock := by
  have hr := gapless_iff.1 hg
  rw [h.count hn, ← Finset.mem_range, ← hr]

section
variable {s : State} (h : Counted s.sb) {fd : Nat} (hi : fd < MYFS_MAX_FILES)
  (hn : (s.sb.file fd).name ≠ .empty)
include h hi hn

theorem Counted.unlinkSlot (hg : Gapless (s.sb.file fd).active) :
    Counted (myfsUnlinkSlot s fd).sb ∧ (myfsUnlinkSlot s fd).sb.freeWindow =
      s.sb.freeWindow ++ (List.range (s.sb.file fd).nBlock).map (s.sb.file fd).block := by
  have hiff := (h.slot fd hi).active_iff hn hg
  obtain ⟨hring, hwin⟩ := Ring.release_fold hi (List.range (s.sb.file fd).nBlock) List.nodup_range
    h.ring fun j hj => mem_active.1 ((hiff j).2 (List.mem_range.1 hj))
  refine ⟨⟨hring.setFile hi rfl, fun i hi' => ?_⟩, hwin⟩
  rw [file_unlinkSlot]
  split
  · refine ⟨fun he => absurd rfl he, fun _ => active_eq_empty.2 fun j hj => ?_⟩
    show (if j < (s.sb.file fd).nBlock then INACTIVE_BLOCK else _) = INACTIVE_BLOCK
    split
    · rfl
    · rename_i hlt
      exact Classical.byContradiction fun hne => hlt ((hiff j).1 (mem_active.2 ⟨hj, hne⟩))
  · exact h.slot i hi'

/-- The blocks of a gapless slot, in order. -/
theorem Counted.held_eq (hg : Gapless (s.sb.file fd).active) :
    (((List.range (s.sb.file fd).nBlock).map (s.sb.file fd).block : List Int) : Multiset Int) =
      (s.sb.file fd).held := by
  have hiff := (h.slot fd hi).active_iff hn hg
  have hr : ((List.range (s.sb.file fd).nBlock : List Nat) : Multiset Nat) =
      (Multiset.range MYFS_MAX_BLOCKS_PER_FILE).filter fun k =>
        (s.sb.file fd).block k ≠ INACTIVE_BLOCK := by
    show Multiset.range _ = _
    refine (Multiset.Nodup.ext (Multiset.nodup_range _) ((Multiset.nodup_range _).filter _)).2
      fun j => ?_
    rw [Multiset.mem_filter, Multiset.mem_range, Multiset.mem_range, ← hiff, mem_active]
  unfold File.held
  rw [Multiset.filter_map, ← Multiset.map_coe, hr]
  rfl

end

/-- What `__myfs_unlink` of a slot is for: its blocks go to the free ring, each once, and nothing
else does; the slot is left empty, for a later file as well. -/
structure BlocksReturned (s : State) (fd : Nat) : Prop where
  appended : ∃ bs : List Int, (myfsUnlinkSlot s fd).sb.freeWindow = s.sb.freeWindow ++ bs ∧
    (bs : Multiset Int) = (s.sb.file fd).held ∧ bs.Nodup ∧ INACTIVE_BLOCK ∉ bs
  cleared : ∀ j < MYFS_MAX_BLOCKS_PER_FILE,
    ((myfsUnlinkSlot s fd).sb.file fd).block j = INACTIVE_BLOCK
  nBlock : ((myfsUnlinkSlot s fd).sb.file fd).nBlock = 0
  name : ((myfsUnlinkSlot s fd).sb.file fd).name = .empty
  reused : ∀ f s', myfsOpen (myfsUnlinkSlot s fd) f = .ok (fd, s') →
    (s'.sb.file fd).nBlock = 0 ∧ ∀ j < MYFS_MAX_BLOCKS_PER_FILE,
      (s'.sb.file fd).block j = INACTIVE_BLOCK

/-- A file opened in a slot has the blocks that the slot had. -/
theorem open_block {s s' : State} {f : CStr} {i : Nat} (h : myfsOpen s f = .ok (i, s')) (k : Nat) :
    (s'.sb.file i).block k = (s.sb.file i).block k ∧
      ((s.sb.file i).nBlock = 0 → (s'.sb.file i).nBlock = 0) := by
  obtain ⟨hi, ⟨-, -, rfl⟩ | ⟨-, hn, -, rfl⟩⟩ := myfsOpen_ok h
  · exact ⟨rfl, id⟩
  · rw [setFlags_sb, setFile_file, if_pos rfl]
    exact ⟨rfl, fun _ => rfl⟩

theorem Counted.returned_iff {s : State} (h : Counted s.sb) {fd : Nat} (hi : fd < MYFS_MAX_FILES)
    (hn : (s.sb.file fd).name ≠ .empty) : BlocksReturned s fd ↔ Gapless (s.sb.file fd).active := by
  constructor
  · intro hr
    -- an index from `n_block` on would stay in the table
    refine lt_card_iff.1 fun j hj => ?_
    obtain ⟨hjm, hne⟩ := mem_active.1 hj
    have hc := hr.cleared j hjm
    rw [file_unlinkSlot, if_pos rfl] at hc
    rw [← (h.slot fd hi).count hn]
    apply Classical.byContradiction
    intro hge
    exact hne ((if_neg hge).symm.trans hc)
  · intro hg
    obtain ⟨hc, hwin⟩ := h.unlinkSlot hi hn hg
    have hheld := h.held_eq hi hn hg
    have hname : ((myfsUnlinkSlot s fd).sb.file fd).name = .empty := by
      rw [file_unlinkSlot, if_pos rfl]
      rfl
    have hzero : ((myfsUnlinkSlot s fd).sb.file fd).nBlock = 0 := by
      rw [file_unlinkSlot, if_pos rfl]
      rfl
    have hclr := active_eq_empty.1 ((hc.slot fd hi).unnamed hname)
    refine ⟨⟨_, hwin, hheld, ?_, fun hm => ?_⟩, hclr, hzero, hname, fun f s' ho => ?_⟩
    · have hall : allBlocks.Nodup := (Multiset.nodup_range _).map fun _ _ => Int.ofNat_inj.1
      have hle : (s.sb.file fd).held ≤ allBlocks := by
        rw [← h.ring.part]
        exact (held_file_le s.sb hi).trans (Multiset.le_add_left _ _)
      rw [← Multiset.coe_nodup, hheld]
      exact Multiset.nodup_of_le hle hall
    · have hm' : INACTIVE_BLOCK ∈ (s.sb.file fd).held := by
        rw [← hheld]
        exact hm
      exact (Multiset.mem_filter.1 hm').2 rfl
    · exact ⟨(open_block ho 0).2 hzero, fun j hj => (open_block ho j).1.trans (hclr j hj)⟩

/-! ## Runs -/

/-- The calls of a run that writes in any order: as in an orderly run, but only a slot that is
unlinked has to be gapless. -/
def AnyOrder (s : State) : Op → Prop
  | .open f => f ≠ .empty
  | .unlink f => f ≠ .empty ∧ ∀ i < MYFS_MAX_FILES, nameMatches f (s.sb.file i) = true →
      (s.fileStates i).refCount = 0 → Gapless (s.sb.file i).active
  | .getLba i offset write => i < MYFS_MAX_FILES ∧ (s.sb.file i).name ≠ .empty ∧
      offset / MYFS_BLOCK_SIZE < MYFS_MAX_BLOCKS_PER_FILE ∧
      (0 < write → (s.sb.file i).block (offset / MYFS_BLOCK_SIZE) = INACTIVE_BLOCK →
        s.sb.freeBlocksRp ≠ s.sb.freeBlocksWp)
  | .unlinkFd fd => fd < MYFS_MAX_FILES ∧ (s.sb.file fd).name ≠ .empty ∧
      ((s.fileStates fd).refCount = 0 → Gapless (s.sb.file fd).active)
  | .close _ | .incrementRef _ | .decrementRef _ => True

theorem Counted.tryUnlink {s : State} (h : Counted s.sb) {fd : Nat} (hi : fd < MYFS_MAX_FILES)
    (hn : (s.sb.file fd).name ≠ .empty)
    (hg : (s.fileStates fd).refCount = 0 → Gapless (s.sb.file fd).active) :
    Counted (myfsTryUnlink s fd).sb := by
  rw [sb_tryUnlink]
  split
  · rename_i h0
    exact (h.unlinkSlot hi hn (hg h0)).1
  · exact h

theorem Counted.unlink {s : State} (h : Counted s.sb) {f : CStr} (hf : f ≠ .empty)
    (hg : ∀ i < MYFS_MAX_FILES, nameMatches f (s.sb.file i) = true →
      (s.fileStates i).refCount = 0 → Gapless (s.sb.file i).active) :
    Counted (myfsUnlink s f).sb := by
  unfold myfsUnlink
  -- the slots that are left are as they were
  have key : ∀ (is : List Nat) (s : State), is.Nodup → (∀ i ∈ is, i < MYFS_MAX_FILES) →
      (∀ i ∈ is, nameMatches f (s.sb.file i) = true → (s.fileStates i).refCount = 0 →
        Gapless (s.sb.file i).active) → Counted s.sb →
      Counted (is.foldl (unlinkIfMatch f) s).sb := by
    intro is
    induction is with
    | nil => exact fun _ _ _ _ h => h
    | cons i is ih =>
      intro s hnd hlt hg h
      obtain ⟨hni, hnd⟩ := List.nodup_cons.1 hnd
      rw [List.foldl_cons]
      refine ih _ hnd (fun k hk => hlt k (List.mem_cons_of_mem _ hk)) (fun k hk => ?_) ?_
      · have hki : k ≠ i := fun he => hni (he ▸ hk)
        rw [file_unlinkIfMatch, if_neg fun he => hki he.1, fileStates_unlinkIfMatch,
          if_neg fun he => hki he.1]
        exact hg k (List.mem_cons_of_mem _ hk)
      · unfold unlinkIfMatch
        split
        · rename_i hm
          exact h.tryUnlink (hlt i List.mem_cons_self) (named_of_nameMatches hf hm)
            (hg i List.mem_cons_self hm)
        · exact h
  exact key _ s List.nodup_range (fun i hi => List.mem_range.1 hi)
    (fun i hi => hg i (List.mem_range.1 hi)) h

theorem Counted.step {s s' : State} {op : Op} (h : Counted s.sb) (hc : AnyOrder s op)
    (hs : op.run s = .ok s') : Counted s'.sb := by
  cases op_step hs with
  | «open» ho => exact h.open ho
  | unlink f => exact h.unlink hc.1 hc.2
  | getLba hg =>
    obtain ⟨hi, hn, hb, hne⟩ := hc
    exact h.getLba hi hn hb hne hg
  | unlinkFd fd => exact h.tryUnlink hc.1 hc.2.1 hc.2.2
  | files he =>
    rw [he]
    exact h

theorem counted_of_reach {s : State} (h : ops.ReachIf AnyOrder s) : Counted s.sb := by
  refine LTS.ReachIf.induct (P := fun s => Counted s.sb) ?_ ?_ h
  · rintro s ⟨sb, hsb⟩
    rw [hsb]
    exact Counted.init sb
  · exact fun s op s' ho hc hs => ho.step hc hs

/-- **Unlink returns exactly the file's blocks** when, and only when, no block of the file is
missing below one that it has. -/
theorem unlink_returns_blocks {s : State} (h : ops.ReachIf AnyOrder s) {fd : Nat}
    (hi : fd < MYFS_MAX_FILES) (hn : (s.sb.file fd).name ≠ .empty) :
    BlocksReturned s fd ↔ ∀ j < MYFS_MAX_BLOCKS_PER_FILE, (s.sb.file fd).block j ≠ INACTIVE_BLOCK →
      ∀ k < j, (s.sb.file fd).block k ≠ INACTIVE_BLOCK := by
  rw [(counted_of_reach h).returned_iff hi hn]
  constructor
  · exact fun hg j hj hne k hk => (mem_active.1 (hg j (mem_active.2 ⟨hj, hne⟩) k hk)).2
  · intro hg j hj k hk
    obtain ⟨hjm, hne⟩ := mem_active.1 hj
    exact mem_active.2 ⟨by omega, hg j hjm hne k hk⟩

/-- A file whose only block is that of its first write. -/
theorem reach_one_block (offset : Nat) (hk : offset / MYFS_BLOCK_SIZE < MYFS_MAX_BLOCKS_PER_FILE) :
    ∃ s, ops.ReachIf AnyOrder s ∧ (s.sb.file 0).name ≠ .empty ∧ ∀ j < MYFS_MAX_BLOCKS_PER_FILE,
      ((s.sb.file 0).block j ≠ INACTIVE_BLOCK ↔ j = offset / MYFS_BLOCK_SIZE) := by
  have hf : (⟨[97], by decide⟩ : CStr) ≠ .empty := by decide
  have hw : AnyOrder (openedFs ⟨[97], by decide⟩) (.getLba 0 offset 1) := by
    refine ⟨MYFS_MAX_FILES_pos, ?_, hk, fun _ _ => (opened_free _).2⟩
    rw [opened_file MYFS_MAX_FILES_pos]
    exact hf
  obtain ⟨s, hr, hfile⟩ := reach_first_write hf (by rw [MYFS_MAX_NAMELEN_eq]; decide) hk
    (show AnyOrder freshFs (.open _) from hf) hw
  refine ⟨s, hr, by rw [hfile]; exact hf, fun j hj => ?_⟩
  rw [hfile]
  show (if j = offset / MYFS_BLOCK_SIZE then (0 : Int) else _) ≠ INACTIVE_BLOCK ↔ _
  by_cases he : j = offset / MYFS_BLOCK_SIZE
  · rw [if_pos he]
    exact ⟨fun _ => he, fun _ => by decide⟩
  · rw [if_neg he, if_pos hj]
    exact ⟨fun h => absurd rfl h, fun h => absurd h he⟩

/-- The unlink of a file with its first block only. -/
theorem unlink_returns_first_block : ∃ s, ops.ReachIf AnyOrder s ∧
    (s.sb.file 0).block 0 ≠ INACTIVE_BLOCK ∧ BlocksReturned s 0 := by
  have hM := MYFS_MAX_BLOCKS_PER_FILE_eq
  obtain ⟨s, hr, hn, hb⟩ := reach_one_block 0 (by rw [Nat.zero_div]; omega)
  rw [Nat.zero_div] at hb
  refine ⟨s, hr, (hb 0 (by omega)).2 rfl, (unlink_returns_blocks hr MYFS_MAX_FILES_pos hn).2 ?_⟩
  intro j hj hne k hk
  rw [(hb j hj).1 hne] at hk
  exact absurd hk (Nat.not_lt_zero k)

/-- A file written at 2 MB only: the unlink hands out -1 as a free block, and the file that is
opened in the slot afterwards starts with a block of the old one. -/
theorem unlink_leaves_block : ∃ s, ops.ReachIf AnyOrder s ∧ (s.sb.file 0).name ≠ .empty ∧
    ¬ BlocksReturned s 0 ∧
    (myfsUnlinkSlot s 0).sb.freeBlocks s.sb.freeBlocksWp = INACTIVE_BLOCK ∧
    ((myfsUnlinkSlot s 0).sb.file 0).block 1 ≠ INACTIVE_BLOCK := by
  have hM := MYFS_MAX_BLOCKS_PER_FILE_eq
  have hB := MYFS_BLOCK_SIZE_eq
  have h1 : MYFS_BLOCK_SIZE / MYFS_BLOCK_SIZE = 1 := Nat.div_self (by omega)
  obtain ⟨s, hr, hn, hb⟩ := reach_one_block MYFS_BLOCK_SIZE (by rw [h1]; omega)
  rw [h1] at hb
  have hc := counted_of_reach hr
  have h0 : (s.sb.file 0).block 0 = INACTIVE_BLOCK := not_not.1 fun he =>
    absurd ((hb 0 (by omega)).1 he) (by decide)
  have hblk := (hb 1 (by omega)).2 rfl
  have hone : (s.sb.file 0).nBlock = 1 := by
    rw [(hc.slot 0 MYFS_MAX_FILES_pos).count hn]
    refine Finset.card_eq_one.2 ⟨1, ?_⟩
    ext j
    rw [mem_active, Finset.mem_singleton]
    exact ⟨fun h => (hb j h.1).1 h.2, fun h => ⟨by omega, (hb j (by omega)).2 h⟩⟩
  refine ⟨s, hr, hn, fun hret => ?_, ?_, ?_⟩
  · have hg := (hc.returned_iff MYFS_MAX_FILES_pos hn).1 hret
    exact (mem_active.1 (hg 1 (mem_active.2 ⟨by omega, hblk⟩) 0 (by decide))).2 h0
  · show ((List.range (s.sb.file 0).nBlock).foldl (releaseBlock 0) s.sb).freeBlocks _ = _
    rw [hone]
    show Function.update s.sb.freeBlocks s.sb.freeBlocksWp ((s.sb.file 0).block 0) _ = _
    rw [Function.update_self, h0]
  · rw [file_unlinkSlot, if_pos rfl]
    show (if 1 < (s.sb.file 0).nBlock then INACTIVE_BLOCK else _) ≠ _
    rw [hone, if_neg (by decide)]
    exact hblk

end Myfs

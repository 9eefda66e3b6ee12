import Staut.Myfs.Proof.Ownership

/-!
# The last block

`myfs_get_lba` advances the read index without looking at the write index. On an empty ring this is
never right (`exhausted_unsafe`): the ring then counts as full (`alloc_exhausted_window`), and a
block number that comes out of it is one that some file holds (`Owned.exhausted`).
-/

set_option autoImplicit false

namespace Myfs

open CSem Cyclic Run

/-- The mapped superblock after `myfs_get_lba(i, offset, 1)`, also when the `assert` at the end
fails. -/
def getLbaSb (s : State) (i offset : Nat) : Superblock :=
  let k := offset / MYFS_BLOCK_SIZE
  if (s.sb.file i).block k = INACTIVE_BLOCK then allocBlock s.sb i k else s.sb

theorem getLbaSb_eq {s s' : State} {i offset : Nat} {lba : Int}
    (hb : offset / MYFS_BLOCK_SIZE < MYFS_MAX_BLOCKS_PER_FILE)
    (h : myfsGetLba s i offset 1 = .ok (lba, s')) : s'.sb = getLbaSb s i offset := by
  obtain ⟨k, hk, hk', -, -, ⟨hor, rfl⟩ | ⟨hw, hin, rfl⟩⟩ := myfsGetLba_ok h
  all_goals
    rw [wrap32_iBlock hb] at hk'
    obtain rfl : offset / MYFS_BLOCK_SIZE = k := Int.ofNat_inj.1 hk'
  · exact (if_neg hor).symm
  · exact (if_pos hin).symm

/-- An allocation does no harm: the block is not held by any slot yet, the read index does not pass
the write index, and the other slots stay as they are. -/
structure ExhaustionSafe (s : State) (i offset : Nat) : Prop where
  fresh : ∀ j < MYFS_MAX_FILES, ∀ l < MYFS_MAX_BLOCKS_PER_FILE,
    (s.sb.file j).block l ≠ INACTIVE_BLOCK →
      ((getLbaSb s i offset).file i).block (offset / MYFS_BLOCK_SIZE) ≠ (s.sb.file j).block l
  rp : (getLbaSb s i offset).freeBlocksRp = s.sb.freeBlocksWp
  others : ∀ j, j ≠ i → (getLbaSb s i offset).file j = s.sb.file j

/-- **Running out of blocks corrupts the store**: on an empty ring no allocation is safe. -/
theorem exhausted_unsafe {s : State} {i offset : Nat}
    (he : s.sb.freeBlocksRp = s.sb.freeBlocksWp)
    (hin : (s.sb.file i).block (offset / MYFS_BLOCK_SIZE) = INACTIVE_BLOCK) :
    ¬ ExhaustionSafe s i offset := by
  intro h
  have hrp := h.rp
  unfold getLbaSb at hrp
  rw [if_pos hin, ← he] at hrp
  have hN := NUM_BLOCKS_eq
  have hmod : (s.sb.freeBlocksRp + 1) % NUM_BLOCKS = s.sb.freeBlocksRp := hrp
  have hlt : s.sb.freeBlocksRp < NUM_BLOCKS := by
    rw [← hmod]
    exact Nat.mod_lt _ NUM_BLOCKS_pos
  exact add_mod_ne hlt (Nat.le_refl 1) (by omega) hmod

/-- After an allocation on an empty ring all entries count as free. -/
theorem alloc_exhausted_window {sb : Superblock} (i k : Nat) (hrp : sb.freeBlocksRp < NUM_BLOCKS)
    (he : sb.freeBlocksRp = sb.freeBlocksWp) :
    cycLen NUM_BLOCKS (allocBlock sb i k).freeBlocksRp (allocBlock sb i k).freeBlocksWp =
      NUM_BLOCKS - 1 := by
  have hN := NUM_BLOCKS_eq
  show cycLen NUM_BLOCKS ((sb.freeBlocksRp + 1) % NUM_BLOCKS) sb.freeBlocksWp = _
  rw [← he]
  rcases Nat.lt_or_ge (sb.freeBlocksRp + 1) NUM_BLOCKS with h1 | h1
  · rw [Nat.mod_eq_of_lt h1, cycLen_of_gt (Nat.lt_succ_self _) h1]
    omega
  · have h2 : sb.freeBlocksRp + 1 = NUM_BLOCKS := by omega
    rw [h2, Nat.mod_self, cycLen_of_lt (by omega) hrp]
    omega

/-- In an orderly state with an empty ring every block number is held. -/
theorem Owned.exhausted {sb : Superblock} (h : Owned sb) (he : sb.freeBlocksRp = sb.freeBlocksWp)
    {b : Int} (hb : b ∈ allBlocks) : ∃ j < MYFS_MAX_FILES, ∃ l < MYFS_MAX_BLOCKS_PER_FILE,
      (sb.file j).block l = b := by
  have hpart := h.ring.part
  have hwin : sb.freeWindow = [] := by
    unfold Superblock.freeWindow
    rw [he, (cycLen_eq_zero h.ring.wp_lt h.ring.wp_lt).2 rfl]
    rfl
  rw [hwin, Multiset.coe_nil, zero_add] at hpart
  rw [← hpart] at hb
  obtain ⟨j, hj, hm⟩ := Multiset.mem_sum.1 hb
  obtain ⟨l, hl, hbl⟩ := Multiset.mem_map.1 (Multiset.mem_filter.1 hm).1
  exact ⟨j, Finset.mem_range.1 hj, l, Multiset.mem_range.1 hl, hbl⟩

/-! ## A full store -/

/-- The name of the file in slot `j`: `j + 1` times "a". -/
def runName (j : Nat) : CStr := ⟨List.replicate (j + 1) 97, by simp⟩

theorem runName_ne (j : Nat) : runName j ≠ .empty := by
  rw [Ne, CStr.eq_empty_iff]
  exact List.cons_ne_nil _ _

/-- Orderly calls that opened files in the first `m` slots. -/
theorem opened_slots {m : Nat} (hm : m ≤ 6) : ∃ s, Named InOrder runName m s := by
  have hF := MYFS_MAX_FILES_eq
  refine named_slots runName (fun _ j => runName_ne j) runName_ne (by omega) (fun j hj => ?_)
    fun j _ i hi hp => ?_
  · rw [MYFS_MAX_NAMELEN_eq, CStr.strlen, runName, List.length_replicate]
    omega
  · have hle := hp.length_le
    simp only [runName, List.length_replicate] at hle
    omega

/-- A run that wrote the first `n` blocks of the six files, one file after the other. -/
structure Filled (n : Nat) (s : State) : Prop where
  reach : ops.ReachIf InOrder s
  name : ∀ j < 6, (s.sb.file j).name ≠ .empty
  block : ∀ j < 6, ∀ l < MYFS_MAX_BLOCKS_PER_FILE,
    (s.sb.file j).block l ≠ INACTIVE_BLOCK ↔ j * MYFS_MAX_BLOCKS_PER_FILE + l < n
  rp : s.sb.freeBlocksRp = n
  wp : s.sb.freeBlocksWp = NUM_BLOCKS - 1
  free : s.sb.freeBlocks = freshFs.sb.freeBlocks

theorem Filled.write {n : Nat} {s : State} (h : Filled n s) (hn : n < NUM_BLOCKS - 1) :
    ∃ s', Filled (n + 1) s' := by
  have hN := NUM_BLOCKS_eq
  have hM := MYFS_MAX_BLOCKS_PER_FILE_eq
  have hB := MYFS_BLOCK_SIZE_eq
  have hF := MYFS_MAX_FILES_eq
  obtain ⟨i, hi⟩ : ∃ i, i = n / MYFS_MAX_BLOCKS_PER_FILE := ⟨_, rfl⟩
  obtain ⟨k, hk⟩ : ∃ k, k = n % MYFS_MAX_BLOCKS_PER_FILE := ⟨_, rfl⟩
  have hdiv : i * MYFS_MAX_BLOCKS_PER_FILE + k = n := by
    rw [hi, hk, Nat.mul_comm]
    exact Nat.div_add_mod _ _
  have hkM : k < MYFS_MAX_BLOCKS_PER_FILE := by
    rw [hk]
    exact Nat.mod_lt _ (by omega)
  have hi6 : i < 6 := by
    rw [hM] at hdiv
    omega
  have hoff : k * MYFS_BLOCK_SIZE / MYFS_BLOCK_SIZE = k := Nat.mul_div_cancel k (by omega)
  have hin : (s.sb.file i).block k = INACTIVE_BLOCK := not_not.1 fun hne => by
    have := (h.block i hi6 k hkM).1 hne
    omega
  have hfree : s.sb.freeBlocks s.sb.freeBlocksRp = (n : Int) := by
    rw [h.free, h.rp, fresh_sb]
    exact if_pos hn
  have hne : s.sb.freeBlocks s.sb.freeBlocksRp ≠ INACTIVE_BLOCK := by
    rw [hfree]
    unfold INACTIVE_BLOCK
    omega
  have hg := myfsGetLba_alloc (s := s) (i := i) (k * MYFS_BLOCK_SIZE) (show (0 : Int) < 1 by decide)
    (by rw [hoff]; exact hkM) (by rw [hoff]; exact hin) hne
  rw [hoff] at hg
  have hord : InOrder s (.getLba i (k * MYFS_BLOCK_SIZE) 1) := by
    refine ⟨by omega, h.name i hi6, by rw [hoff]; exact hkM, fun _ _ => ⟨?_, fun l hl => ?_⟩⟩
    · rw [h.rp, h.wp]
      omega
    · rw [hoff] at hl
      exact (h.block i hi6 l (by omega)).2 (by omega)
  have hrun := congrArg (Except.map fun r => r.2) hg
  refine ⟨_, h.reach.step hord hrun, fun j hj => ?_, fun j hj l hl => ?_, ?_, h.wp, h.free⟩
  · show ((allocBlock s.sb i k).file j).name ≠ _
    rw [allocBlock_file]
    split
    · exact h.name i hi6
    · exact h.name j hj
  · show ((allocBlock s.sb i k).file j).block l ≠ _ ↔ _
    rw [allocBlock_file]
    by_cases hji : j = i
    · rw [if_pos hji, hji, setBlock_block]
      by_cases hlk : l = k
      · rw [if_pos hlk, hlk]
        exact ⟨fun _ => by omega, fun _ => hne⟩
      · rw [if_neg hlk, h.block i hi6 l hl]
        omega
    · rw [if_neg hji, h.block j hj l hl]
      rw [hM] at hdiv hl ⊢
      omega
  · show (s.sb.freeBlocksRp + 1) % NUM_BLOCKS = n + 1
    rw [h.rp, Nat.mod_eq_of_lt (by omega)]

theorem filled_slots {n : Nat} (hn : n ≤ NUM_BLOCKS - 1) : ∃ s, Filled n s := by
  have hF := MYFS_MAX_FILES_eq
  induction n with
  | zero =>
    obtain ⟨s, h⟩ := opened_slots (Nat.le_refl 6)
    refine ⟨s, h.reach, fun j hj => ?_, fun j hj l hl => ?_, h.rp, h.wp, h.free⟩
    · rw [h.file j (by omega), if_pos hj]
      exact runName_ne j
    · rw [h.file j (by omega)]
      show (if l < MYFS_MAX_BLOCKS_PER_FILE then INACTIVE_BLOCK else 0) ≠ _ ↔ _
      rw [if_pos hl]
      exact ⟨fun hne => absurd rfl hne, fun hlt => absurd hlt (Nat.not_lt_zero _)⟩
  | succ n ih =>
    obtain ⟨s, h⟩ := ih (by omega)
    exact h.write (by omega)

/-- All blocks are taken, by orderly writes to six files. The last entry of the ring was never set
up: here it is 0. -/
theorem full_store : ∃ s, ops.ReachIf InOrder s ∧ s.sb.freeBlocksRp = s.sb.freeBlocksWp ∧
    (s.sb.file 5).name ≠ .empty ∧ (s.sb.file 5).block 131071 = INACTIVE_BLOCK ∧
    s.sb.freeBlocks s.sb.freeBlocksRp = 0 := by
  have hN := NUM_BLOCKS_eq
  have hM := MYFS_MAX_BLOCKS_PER_FILE_eq
  obtain ⟨s, h⟩ := filled_slots (Nat.le_refl (NUM_BLOCKS - 1))
  refine ⟨s, h.reach, by rw [h.rp, h.wp], h.name 5 (by decide), not_not.1 fun hne => ?_, ?_⟩
  · have := (h.block 5 (by decide) 131071 (by omega)).1 hne
    omega
  · rw [h.free, h.rp, fresh_sb]
    exact if_neg (Nat.lt_irrefl _)

theorem last_offset : 131071 * MYFS_BLOCK_SIZE / MYFS_BLOCK_SIZE = 131071 :=
  Nat.mul_div_cancel 131071 (by rw [MYFS_BLOCK_SIZE_eq]; decide)

/-- A write to a store that is full. -/
theorem exhausted_unsafe_full : ∃ s, ops.Reach s ∧ s.sb.freeBlocksRp = s.sb.freeBlocksWp ∧
    ¬ ExhaustionSafe s 5 (131071 * MYFS_BLOCK_SIZE) := by
  obtain ⟨s, hr, he, -, hin, -⟩ := full_store
  exact ⟨s, hr.reach, he, exhausted_unsafe he (by rw [last_offset]; exact hin)⟩

/-- The write is not refused, and gives its file block number 0, which a file holds. -/
theorem exhausted_duplicate : ∃ s, ops.ReachIf InOrder s ∧
    s.sb.freeBlocksRp = s.sb.freeBlocksWp ∧ ∃ i offset,
    offset / MYFS_BLOCK_SIZE < MYFS_MAX_BLOCKS_PER_FILE ∧ (s.sb.file i).name ≠ .empty ∧
    (s.sb.file i).block (offset / MYFS_BLOCK_SIZE) = INACTIVE_BLOCK ∧
    (∃ lba s', myfsGetLba s i offset 1 = .ok (lba, s') ∧ s'.sb = getLbaSb s i offset) ∧
    ¬ ExhaustionSafe s i offset ∧
    ∃ j < MYFS_MAX_FILES, ∃ l < MYFS_MAX_BLOCKS_PER_FILE,
      (s.sb.file j).block l ≠ INACTIVE_BLOCK ∧
      ((getLbaSb s i offset).file i).block (offset / MYFS_BLOCK_SIZE) = (s.sb.file j).block l := by
  have hN := NUM_BLOCKS_eq
  have hM := MYFS_MAX_BLOCKS_PER_FILE_eq
  have hoff := last_offset
  obtain ⟨s, hr, he, hname, hin, hzero⟩ := full_store
  have hmem : (0 : Int) ∈ allBlocks :=
    Multiset.mem_map.2 ⟨0, Multiset.mem_range.2 (by omega), rfl⟩
  obtain ⟨j, hj, l, hl, hb⟩ := (owned_of_reach hr).exhausted he hmem
  have hact : (s.sb.file j).block l ≠ INACTIVE_BLOCK := by
    rw [hb]
    decide
  have hsame : ((getLbaSb s 5 (131071 * MYFS_BLOCK_SIZE)).file 5).block
      (131071 * MYFS_BLOCK_SIZE / MYFS_BLOCK_SIZE) = (s.sb.file j).block l := by
    unfold getLbaSb
    rw [hoff, if_pos hin, allocBlock_file, if_pos rfl, hb, setBlock_block, if_pos rfl, hzero]
  have hk : 131071 * MYFS_BLOCK_SIZE / MYFS_BLOCK_SIZE < MYFS_MAX_BLOCKS_PER_FILE := by
    rw [hoff]
    omega
  have hg := myfsGetLba_alloc (s := s) (i := 5) (131071 * MYFS_BLOCK_SIZE)
    (show (0 : Int) < 1 by decide) hk (by rw [hoff]; exact hin) (by rw [hzero]; decide)
  refine ⟨s, hr, he, 5, 131071 * MYFS_BLOCK_SIZE, hk, hname, ?_, ⟨_, _, hg, getLbaSb_eq hk hg⟩,
    fun hs => hs.fresh j hj l hl hact hsame, j, hj, l, hl, hact, hsame⟩
  rw [hoff]
  exact hin

end Myfs

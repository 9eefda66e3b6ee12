import Staut.Myfs.Ops
import Staut.Myfs.Proof.Spec

/-!
# The first open

A process mounts a superblock with no magic number, so that it is set up (`freshFs`), and opens one
file, in slot 0 (`openedFs`); its first write takes block number 0.
-/

set_option autoImplicit false

namespace Myfs

open CSem Run

/-- The file store of a new process. -/
def freshFs : State := myfsMount ⟨0, fun _ => 0, 0, 0, fun _ => ⟨.empty, fun _ => 0, 0⟩⟩

/-- The file store after the first open, of `f`. -/
def openedFs (f : CStr) : State :=
  let sb := freshFs.sb.setFile 0 { freshFs.sb.file 0 with name := f, nBlock := 0 }
  { freshFs with sb := sb }.setFlags 0 MYFS_FILE_OPENED

theorem MYFS_MAX_FILES_pos : 0 < MYFS_MAX_FILES := by rw [MYFS_MAX_FILES_eq]; decide

theorem fresh_sb : freshFs.sb =
    myfsSuperblockInit ⟨0, fun _ => 0, 0, 0, fun _ => ⟨.empty, fun _ => 0, 0⟩⟩ := by
  have hm : (0 : Nat) ≠ MYFS_MAGIC := by decide
  simp only [freshFs, myfsMount, if_pos hm]

theorem fresh_file {k : Nat} (hk : k < MYFS_MAX_FILES) : freshFs.sb.file k =
    ⟨.empty, fun j => if j < MYFS_MAX_BLOCKS_PER_FILE then INACTIVE_BLOCK else 0, 0⟩ := by
  rw [fresh_sb]
  simp only [myfsSuperblockInit, if_pos hk]

theorem opened_file {f : CStr} {k : Nat} (hk : k < MYFS_MAX_FILES) : (openedFs f).sb.file k =
    ⟨if k = 0 then f else .empty,
      fun j => if j < MYFS_MAX_BLOCKS_PER_FILE then INACTIVE_BLOCK else 0, 0⟩ := by
  unfold openedFs
  rw [setFlags_sb, setFile_file, fresh_file MYFS_MAX_FILES_pos, fresh_file hk]
  split <;> rfl

theorem opened_fileStates (f : CStr) (k : Nat) : (openedFs f).fileStates k =
    ⟨if k = 0 then MYFS_FILE_OPENED else 0, 0⟩ := by
  unfold openedFs
  rw [setFlags_fileStates]
  split <;> rfl

theorem opened_size (f : CStr) : myfsGetSize (openedFs f) 0 = 0 := by
  unfold myfsGetSize
  simp only [opened_file MYFS_MAX_FILES_pos, Nat.zero_mul, Nat.zero_mod]

theorem opened_ring (f : CStr) : (openedFs f).sb.freeBlocksRp = 0 ∧
    (openedFs f).sb.freeBlocksWp = NUM_BLOCKS - 1 ∧
    ∀ i < NUM_BLOCKS - 1, (openedFs f).sb.freeBlocks i = i := by
  have hsb : (openedFs f).sb =
      freshFs.sb.setFile 0 { freshFs.sb.file 0 with name := f, nBlock := 0 } := rfl
  rw [hsb, fresh_sb]
  exact ⟨rfl, rfl, fun i hi => if_pos hi⟩

/-- Block number 0 is the next free one. -/
theorem opened_free (f : CStr) :
    (openedFs f).sb.freeBlocks (openedFs f).sb.freeBlocksRp = 0 ∧
      (openedFs f).sb.freeBlocksRp ≠ (openedFs f).sb.freeBlocksWp := by
  have hN := NUM_BLOCKS_eq
  obtain ⟨hrp, hwp, hfree⟩ := opened_ring f
  rw [hrp, hwp]
  exact ⟨hfree 0 (by omega), by omega⟩

/-- The first write to the opened file takes a block, wherever it is. -/
theorem opened_alloc {fs : State} {f : CStr} (h : fs.sb = (openedFs f).sb) (offset : Nat)
    (hk : offset / MYFS_BLOCK_SIZE < MYFS_MAX_BLOCKS_PER_FILE) :
    ∃ fs', myfsGetLba fs 0 offset 1 = .ok (lbaOf 0 offset, fs') ∧
      fs'.fileStates = fs.fileStates ∧ fs'.sb = allocBlock fs.sb 0 (offset / MYFS_BLOCK_SIZE) ∧
      fs'.sb.file 0 = ⟨f,
        fun j => if j = offset / MYFS_BLOCK_SIZE then 0
          else if j < MYFS_MAX_BLOCKS_PER_FILE then INACTIVE_BLOCK else 0, 1⟩ := by
  have hfree := (opened_free f).1
  rw [← h] at hfree
  have hfile := opened_file (f := f) MYFS_MAX_FILES_pos
  rw [← h] at hfile
  have hg := myfsGetLba_alloc (s := fs) (i := 0) offset (show (0 : Int) < 1 by decide) hk
    (by rw [hfile]; exact if_pos hk) (by rw [hfree]; decide)
  rw [hfree] at hg
  refine ⟨_, hg, rfl, rfl, ?_⟩
  rw [allocBlock_file, if_pos rfl, hfile, hfree]
  unfold File.setBlock
  simp only [if_true]
  refine File.mk.injEq .. ▸ ⟨rfl, funext fun j => ?_, rfl⟩
  rw [Function.update_apply]

/-- A second write, to another part of the file, takes the next block. -/
theorem opened_alloc_next {fs fs' : State} {f : CStr} {k : Nat}
    (h : fs.sb = (openedFs f).sb) (h' : fs'.sb = allocBlock fs.sb 0 k) (offset : Nat)
    (hk : offset / MYFS_BLOCK_SIZE < MYFS_MAX_BLOCKS_PER_FILE)
    (hne : offset / MYFS_BLOCK_SIZE ≠ k) :
    ∃ lba fs'', myfsGetLba fs' 0 offset 1 = .ok (lba, fs'') := by
  have hN := NUM_BLOCKS_eq
  obtain ⟨hrp, -, hfree⟩ := opened_ring f
  refine ⟨_, _, myfsGetLba_alloc offset (by decide) hk ?_ ?_⟩
  · rw [h', allocBlock_file, if_pos rfl, h]
    show Function.update ((openedFs f).sb.file 0).block k _ _ = _
    rw [Function.update_of_ne hne, opened_file MYFS_MAX_FILES_pos]
    exact if_pos hk
  · have hnext : (allocBlock fs.sb 0 k).freeBlocks (allocBlock fs.sb 0 k).freeBlocksRp = 1 := by
      show fs.sb.freeBlocks ((fs.sb.freeBlocksRp + 1) % NUM_BLOCKS) = 1
      rw [h, hrp, Nat.mod_eq_of_lt (by omega)]
      exact hfree 1 (by omega)
    rw [h', hnext]
    decide

theorem opened_getLba {fs : State} {f : CStr} (h : fs.sb = (openedFs f).sb) :
    ∃ lba fs', myfsGetLba fs 0 0 1 = .ok (lba, fs') ∧ fs'.fileStates = fs.fileStates ∧
      (fs'.sb.file 0).name = f ∧ (fs'.sb.file 0).nBlock = 1 ∧
      (fs'.sb.file 0).block 0 ≠ INACTIVE_BLOCK := by
  have hM := MYFS_MAX_BLOCKS_PER_FILE_eq
  obtain ⟨fs', hg, hst, -, hfile⟩ := opened_alloc h 0 (by rw [Nat.zero_div]; omega)
  refine ⟨_, fs', hg, hst, ?_⟩
  rw [hfile, Nat.zero_div]
  exact ⟨rfl, rfl, show (0 : Int) ≠ INACTIVE_BLOCK by decide⟩

theorem nameMatches_empty {f : CStr} (hf : f ≠ .empty) {x : File} (hx : x.name = .empty) :
    nameMatches f x = false := by
  cases h : nameMatches f x with
  | false => rfl
  | true => exact absurd hx (named_of_nameMatches hf h)

theorem open_fresh {f : CStr} (hf : f ≠ .empty) (hl : f.strlen < MYFS_MAX_NAMELEN) :
    myfsOpen freshFs f = .ok (0, openedFs f) :=
  myfsOpen_new f MYFS_MAX_FILES_pos hl
    (fun k hk => nameMatches_empty hf (by simp only [fresh_file hk]))
    (by simp only [fresh_file MYFS_MAX_FILES_pos]) (fun k hk => absurd hk (Nat.not_lt_zero k))

theorem reach_openedFs {C : State → Op → Prop} {f : CStr} (hC : C freshFs (.open f))
    (hf : f ≠ .empty) (hl : f.strlen < MYFS_MAX_NAMELEN) : ops.ReachIf C (openedFs f) :=
  .step (.init ⟨_, fresh_sb⟩) hC
    (show (Op.open f).run freshFs = _ by rw [Op.run, open_fresh hf hl]; rfl)

/-- A run of an open and one write. -/
theorem reach_first_write {C : State → Op → Prop} {f : CStr} {offset : Nat} (hf : f ≠ .empty)
    (hl : f.strlen < MYFS_MAX_NAMELEN) (hk : offset / MYFS_BLOCK_SIZE < MYFS_MAX_BLOCKS_PER_FILE)
    (ho : C freshFs (.open f)) (hw : C (openedFs f) (.getLba 0 offset 1)) :
    ∃ s, ops.ReachIf C s ∧ s.sb.file 0 = ⟨f, fun j => if j = offset / MYFS_BLOCK_SIZE then 0
      else if j < MYFS_MAX_BLOCKS_PER_FILE then INACTIVE_BLOCK else 0, 1⟩ := by
  obtain ⟨s, hg, -, -, hfile⟩ := opened_alloc (rfl : (openedFs f).sb = _) offset hk
  refine ⟨s, (reach_openedFs ho hf hl).step hw ?_, hfile⟩
  show (Op.getLba 0 offset 1).run (openedFs f) = .ok s
  rw [Op.run, hg]
  rfl

/-! ## Many files -/

/-- A run that opened files with the names `nm` in the first `n` slots. -/
structure Named (C : State → Op → Prop) (nm : Nat → CStr) (n : Nat) (s : State) : Prop where
  reach : ops.ReachIf C s
  file : ∀ j < MYFS_MAX_FILES, s.sb.file j = ⟨if j < n then nm j else .empty,
    fun l => if l < MYFS_MAX_BLOCKS_PER_FILE then INACTIVE_BLOCK else 0, 0⟩
  rp : s.sb.freeBlocksRp = 0
  wp : s.sb.freeBlocksWp = NUM_BLOCKS - 1
  free : s.sb.freeBlocks = freshFs.sb.freeBlocks

theorem named_slots {C : State → Op → Prop} (nm : Nat → CStr) (hC : ∀ s j, C s (.open (nm j)))
    (hne : ∀ j, nm j ≠ .empty) {n : Nat} (hn : n ≤ MYFS_MAX_FILES)
    (hl : ∀ j < n, (nm j).strlen < MYFS_MAX_NAMELEN)
    (hno : ∀ j < n, ∀ i < j, ¬ (nm j).bytes <+: (nm i).bytes) : ∃ s, Named C nm n s := by
  induction n with
  | zero =>
    refine ⟨freshFs, .init ⟨_, fresh_sb⟩, fun j hj => ?_, ?_, ?_, rfl⟩
    · rw [fresh_file hj, if_neg (Nat.not_lt_zero j)]
    · rw [fresh_sb]
      rfl
    · rw [fresh_sb]
      rfl
  | succ n ih =>
    obtain ⟨s, h⟩ := ih (by omega) (fun j hj => hl j (by omega)) fun j hj => hno j (by omega)
    have hnew : ∀ j < MYFS_MAX_FILES, nameMatches (nm n) (s.sb.file j) = false := by
      intro j hj
      rw [h.file j hj]
      by_cases hjn : j < n
      · rw [Bool.eq_false_iff, Ne, nameMatches_iff, if_pos hjn]
        exact hno n (Nat.lt_succ_self n) j hjn
      · exact nameMatches_empty (hne n) (if_neg hjn)
    have ho := myfsOpen_new (s := s) (nm n) (i := n) (by omega) (hl n (Nat.lt_succ_self n)) hnew
      (by rw [h.file n (by omega)]; exact if_neg (Nat.lt_irrefl n)) fun j hj => by
        rw [h.file j (by omega)]
        show (if j < n then nm j else .empty) ≠ CStr.empty
        rw [if_pos hj]
        exact hne j
    have hrun := congrArg (Except.map fun r => r.2) ho
    refine ⟨_, h.reach.step (hC s n) hrun, fun j hj => ?_, h.rp, h.wp, h.free⟩
    rw [setFlags_sb, setFile_file]
    split
    · rename_i hjn
      rw [hjn, h.file n (by omega), if_pos (Nat.lt_succ_self n)]
    · rename_i hjn
      rw [h.file j hj]
      by_cases hlt : j < n
      · rw [if_pos hlt, if_pos (by omega)]
      · rw [if_neg hlt, if_neg (by omega)]

end Myfs

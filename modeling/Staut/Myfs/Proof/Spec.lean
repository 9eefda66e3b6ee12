import Staut.Myfs.Defs
import Mathlib.Data.List.Range
import Mathlib.Data.List.Nodup
import Mathlib.Data.Nat.Find

/-!
# What each `myfs` call does

One lemma per call, so that later proofs never unfold it:

* `file_unlinkSlot`, `fileStates_unlinkSlot`: `__myfs_unlink` changes its own slot only.
* `file_unlink`, `fileStates_unlink`: `myfs_unlink` does to every matching slot what
  `__myfs_try_unlink` does, and nothing to the others (`nameMatches_iff`: a slot matches when the
  path is a prefix of its name).
* `myfsOpen_ok`: the first matching slot, else the first unnamed one.
* `myfsGetLba_ok`: the block's sector, after an allocation in the case that needs one.
* `sb_decrementRef`: `myfs_decrement_ref` never changes the superblock.
-/

set_option autoImplicit false

namespace Myfs

open CSem

/-! ## Updates -/

section
variable (s : State) (sb : Superblock) (f g : File) (i : Nat) (x : UInt16)

@[simp] theorem setFile_file (k : Nat) :
    (sb.setFile i f).file k = if k = i then f else sb.file k := by
  simp [Superblock.setFile, Function.update_apply]
@[simp] theorem setFile_rp : (sb.setFile i f).freeBlocksRp = sb.freeBlocksRp := rfl
@[simp] theorem setFile_wp : (sb.setFile i f).freeBlocksWp = sb.freeBlocksWp := rfl
@[simp] theorem setFile_freeBlocks : (sb.setFile i f).freeBlocks = sb.freeBlocks := rfl
@[simp] theorem setBlock_name (j : Nat) (b : Int) : (f.setBlock j b).name = f.name := rfl
@[simp] theorem setBlock_nBlock (j : Nat) (b : Int) : (f.setBlock j b).nBlock = f.nBlock := rfl
@[simp] theorem setBlock_block (j : Nat) (b : Int) (k : Nat) :
    (f.setBlock j b).block k = if k = j then b else f.block k := by
  simp [File.setBlock, Function.update_apply]
@[simp] theorem setFlags_sb : (s.setFlags i x).sb = s.sb := rfl
@[simp] theorem setRefCount_sb : (s.setRefCount i x).sb = s.sb := rfl
@[simp] theorem setFlags_fileStates (k : Nat) : (s.setFlags i x).fileStates k =
    if k = i then { s.fileStates i with flags := x } else s.fileStates k := by
  simp [State.setFlags, Function.update_apply]
@[simp] theorem setRefCount_fileStates (k : Nat) : (s.setRefCount i x).fileStates k =
    if k = i then { s.fileStates i with refCount := x } else s.fileStates k := by
  simp [State.setRefCount, Function.update_apply]

end

/-! ## Unlink -/

/-- A slot after `__myfs_unlink`: the blocks below `n_block` are gone. -/
def File.released (f : File) : File where
  name := .empty
  block j := if j < f.nBlock then INACTIVE_BLOCK else f.block j
  nBlock := 0

theorem releaseBlock_file (fd : Nat) (sb : Superblock) (j k : Nat) :
    (releaseBlock fd sb j).file k =
      if k = fd then (sb.file fd).setBlock j INACTIVE_BLOCK else sb.file k := by
  simp [releaseBlock]

theorem release_fold_file (fd : Nat) : ∀ (js : List Nat) (sb : Superblock) (k : Nat),
    (js.foldl (releaseBlock fd) sb).file k =
      if k = fd then { sb.file fd with
        block := fun j => if j ∈ js then INACTIVE_BLOCK else (sb.file fd).block j }
      else sb.file k
  | [], sb, k => by
    by_cases hk : k = fd <;> simp [hk]
  | j :: js, sb, k => by
    rw [List.foldl_cons, release_fold_file fd js, releaseBlock_file, releaseBlock_file]
    by_cases hk : k = fd
    · simp only [hk, ↓reduceIte, setBlock_name, setBlock_nBlock, setBlock_block, List.mem_cons]
      congr 1
      funext i
      by_cases hi : i = j <;> by_cases hj : i ∈ js <;> simp [hi, hj]
    · simp [hk]

theorem file_unlinkSlot (s : State) (fd k : Nat) :
    (myfsUnlinkSlot s fd).sb.file k =
      if k = fd then (s.sb.file fd).released else s.sb.file k := by
  by_cases hk : k = fd
  · simp [myfsUnlinkSlot, release_fold_file, hk, File.released]
  · simp [myfsUnlinkSlot, release_fold_file, hk]

theorem fileStates_unlinkSlot (s : State) (fd k : Nat) :
    (myfsUnlinkSlot s fd).fileStates k = if k = fd then ⟨0, 0⟩ else s.fileStates k := by
  by_cases hk : k = fd <;> simp [myfsUnlinkSlot, hk]

/-- The superblock's side of `__myfs_try_unlink`. -/
theorem sb_tryUnlink (s : State) (fd : Nat) :
    (myfsTryUnlink s fd).sb =
      if (s.fileStates fd).refCount = 0 then (myfsUnlinkSlot s fd).sb else s.sb := by
  by_cases h : (s.fileStates fd).refCount = 0 <;> simp [myfsTryUnlink, myfsUnlinkSlot, h]

theorem file_tryUnlink (s : State) (fd k : Nat) :
    (myfsTryUnlink s fd).sb.file k =
      if k = fd ∧ (s.fileStates fd).refCount = 0 then (s.sb.file fd).released
      else s.sb.file k := by
  rw [sb_tryUnlink]
  by_cases h : (s.fileStates fd).refCount = 0
  · simp [h, file_unlinkSlot]
  · simp [h]

/-- A file state after `__myfs_try_unlink`. -/
def FileState.tryUnlinked (x : FileState) : FileState :=
  if x.refCount = 0 then ⟨0, 0⟩ else { x with flags := x.flags ||| MYFS_FILE_UNLINKED }

theorem fileStates_tryUnlink (s : State) (fd k : Nat) :
    (myfsTryUnlink s fd).fileStates k =
      if k = fd then (s.fileStates fd).tryUnlinked else s.fileStates k := by
  unfold myfsTryUnlink FileState.tryUnlinked
  by_cases h : (s.fileStates fd).refCount = 0 <;> by_cases hk : k = fd <;>
    simp [h, hk, fileStates_unlinkSlot]

theorem nameMatches_iff {filename : CStr} {f : File} :
    nameMatches filename f = true ↔ filename.bytes <+: f.name.bytes := by
  simp [nameMatches, strncmp_strlen]

/-- A nonempty path matches named slots only. -/
theorem named_of_nameMatches {filename : CStr} {f : File} (hf : filename ≠ .empty)
    (h : nameMatches filename f = true) : f.name ≠ .empty := by
  intro he
  have hp := nameMatches_iff.1 h
  rw [he] at hp
  exact hf (CStr.eq_empty_iff.2 (List.prefix_nil.1 hp))

theorem file_unlinkIfMatch (filename : CStr) (s : State) (i k : Nat) :
    (unlinkIfMatch filename s i).sb.file k =
      if k = i ∧ nameMatches filename (s.sb.file i) = true ∧ (s.fileStates i).refCount = 0
      then (s.sb.file i).released else s.sb.file k := by
  unfold unlinkIfMatch
  by_cases hm : nameMatches filename (s.sb.file i) = true
  · simp [hm, file_tryUnlink]
  · simp [hm]

theorem fileStates_unlinkIfMatch (filename : CStr) (s : State) (i k : Nat) :
    (unlinkIfMatch filename s i).fileStates k =
      if k = i ∧ nameMatches filename (s.sb.file i) = true
      then (s.fileStates i).tryUnlinked else s.fileStates k := by
  unfold unlinkIfMatch
  by_cases hm : nameMatches filename (s.sb.file i) = true
  · simp [hm, fileStates_tryUnlink]
  · simp [hm]

/-- `myfs_unlink`'s loop over distinct slots treats every slot by itself. -/
theorem unlink_fold (filename : CStr) : ∀ (is : List Nat), is.Nodup → ∀ (s : State) (k : Nat),
    ((is.foldl (unlinkIfMatch filename) s).sb.file k =
      if k ∈ is ∧ nameMatches filename (s.sb.file k) = true ∧ (s.fileStates k).refCount = 0
      then (s.sb.file k).released else s.sb.file k) ∧
    ((is.foldl (unlinkIfMatch filename) s).fileStates k =
      if k ∈ is ∧ nameMatches filename (s.sb.file k) = true
      then (s.fileStates k).tryUnlinked else s.fileStates k)
  | [], _, s, k => by simp
  | i :: is, hnd, s, k => by
    obtain ⟨hi, hnd⟩ := List.nodup_cons.1 hnd
    obtain ⟨ih1, ih2⟩ := unlink_fold filename is hnd (unlinkIfMatch filename s i) k
    rw [List.foldl_cons, ih1, ih2, file_unlinkIfMatch, fileStates_unlinkIfMatch]
    by_cases hk : k = i
    · subst hk
      simp [hi]
    · simp [hk]

theorem file_unlink (s : State) (filename : CStr) (k : Nat) :
    (myfsUnlink s filename).sb.file k =
      if k < MYFS_MAX_FILES ∧ nameMatches filename (s.sb.file k) = true ∧
        (s.fileStates k).refCount = 0
      then (s.sb.file k).released else s.sb.file k := by
  unfold myfsUnlink
  rw [(unlink_fold filename _ List.nodup_range s k).1]
  simp only [List.mem_range]

theorem fileStates_unlink (s : State) (filename : CStr) (k : Nat) :
    (myfsUnlink s filename).fileStates k =
      if k < MYFS_MAX_FILES ∧ nameMatches filename (s.sb.file k) = true
      then (s.fileStates k).tryUnlinked else s.fileStates k := by
  unfold myfsUnlink
  rw [(unlink_fold filename _ List.nodup_range s k).2]
  simp only [List.mem_range]

/-! ## Open -/

theorem exists_first {P : Nat → Prop} {n i : Nat} (hi : i < n) (h : P i) :
    ∃ k < n, P k ∧ ∀ j < k, ¬ P j := by
  classical
  have hex : ∃ k, P k := ⟨i, h⟩
  exact ⟨Nat.find hex, Nat.lt_of_le_of_lt (Nat.find_min' hex h) hi, Nat.find_spec hex,
    fun j hj => Nat.find_min hex hj⟩

/-- `myfs_open`'s loop: the first matching slot, else the first unnamed one. -/
theorem openLoop_eq (sb : Superblock) (filename : CStr) : ∀ (is : List Nat) (e : Option Nat),
    openLoop sb filename is e =
      match is.find? fun i => nameMatches filename (sb.file i) with
      | some i => .inl i
      | none => .inr (e.or (is.find? fun i => (sb.file i).name = .empty))
  | [], e => by simp [openLoop]
  | i :: is, e => by
    simp only [openLoop, List.find?_cons]
    by_cases hm : nameMatches filename (sb.file i) = true
    · simp [hm]
    · simp only [hm, Bool.false_eq_true, ↓reduceIte]
      rw [openLoop_eq sb filename is]
      cases is.find? fun i => nameMatches filename (sb.file i) with
      | some k => rfl
      | none =>
        cases e with
        | some e => simp
        | none => by_cases hn : (sb.file i).name = .empty <;> simp [hn]

/-- A successful `myfs_open`: the first matching slot, opened; or, when none matches, the first
unnamed slot with the new name. -/
theorem myfsOpen_ok {s s' : State} {filename : CStr} {i : Nat}
    (h : myfsOpen s filename = .ok (i, s')) :
    i < MYFS_MAX_FILES ∧
    ((nameMatches filename (s.sb.file i) = true ∧
        (∀ k < i, nameMatches filename (s.sb.file k) = false) ∧
        s' = s.setFlags i MYFS_FILE_OPENED) ∨
      ((∀ k < MYFS_MAX_FILES, nameMatches filename (s.sb.file k) = false) ∧
        (s.sb.file i).name = .empty ∧ filename.strlen < MYFS_MAX_NAMELEN ∧
        s' = { s with
          sb := s.sb.setFile i { s.sb.file i with name := filename, nBlock := 0 } }.setFlags i
            MYFS_FILE_OPENED)) := by
  unfold myfsOpen at h
  rw [openLoop_eq] at h
  cases hf : (List.range MYFS_MAX_FILES).find? fun i => nameMatches filename (s.sb.file i) with
  | some k =>
    simp only [hf, Except.ok.injEq, Prod.mk.injEq] at h
    obtain ⟨rfl, rfl⟩ := h
    obtain ⟨hm, hk, hlt⟩ := List.find?_range_eq_some.1 hf
    exact ⟨List.mem_range.1 hk, .inl ⟨hm, fun k hk => by simpa using hlt k hk, rfl⟩⟩
  | none =>
    have hno : ∀ k < MYFS_MAX_FILES, nameMatches filename (s.sb.file k) = false := by
      intro k hk
      simpa using List.find?_eq_none.1 hf k (List.mem_range.2 hk)
    simp only [hf, Option.none_or] at h
    cases he : (List.range MYFS_MAX_FILES).find? fun i => (s.sb.file i).name = .empty with
    | none => simp [he] at h
    | some k =>
      simp only [he] at h
      split at h
      · cases h
      · rename_i hlen
        simp only [Except.ok.injEq, Prod.mk.injEq] at h
        obtain ⟨rfl, rfl⟩ := h
        obtain ⟨hm, hk, -⟩ := List.find?_range_eq_some.1 he
        exact ⟨List.mem_range.1 hk, .inr ⟨hno, by simpa using hm, by omega, rfl⟩⟩

/-- `myfs_open` succeeds when a name matches or a slot is free. -/
theorem myfsOpen_isOk {s : State} (filename : CStr) (hl : filename.strlen < MYFS_MAX_NAMELEN)
    (h : ∃ i < MYFS_MAX_FILES,
      nameMatches filename (s.sb.file i) = true ∨ (s.sb.file i).name = .empty) :
    ∃ i s', myfsOpen s filename = .ok (i, s') := by
  unfold myfsOpen
  rw [openLoop_eq]
  cases hf : (List.range MYFS_MAX_FILES).find? fun i => nameMatches filename (s.sb.file i) with
  | some k => exact ⟨k, _, rfl⟩
  | none =>
    obtain ⟨i, hi, hm | hn⟩ := h
    · exact absurd hm (List.find?_eq_none.1 hf i (List.mem_range.2 hi))
    · cases he : (List.range MYFS_MAX_FILES).find? fun i => (s.sb.file i).name = .empty with
      | none => exact absurd (by simpa using hn) (List.find?_eq_none.1 he i (List.mem_range.2 hi))
      | some k =>
        simp only [Option.none_or, if_neg (show ¬ MYFS_MAX_NAMELEN < filename.strlen + 1 by omega)]
        exact ⟨k, _, rfl⟩

/-- `myfs_open` of a name that matches. -/
theorem myfsOpen_old {s : State} {filename : CStr} {i : Nat} (hi : i < MYFS_MAX_FILES)
    (hm : nameMatches filename (s.sb.file i) = true)
    (hlt : ∀ k < i, nameMatches filename (s.sb.file k) = false) :
    myfsOpen s filename = .ok (i, s.setFlags i MYFS_FILE_OPENED) := by
  have hf : (List.range MYFS_MAX_FILES).find? (fun i => nameMatches filename (s.sb.file i)) =
      some i :=
    List.find?_range_eq_some.2 ⟨hm, List.mem_range.2 hi, fun k hk => by simp [hlt k hk]⟩
  unfold myfsOpen
  rw [openLoop_eq, hf]

/-- `myfs_open` of a new name: the first unnamed slot. -/
theorem myfsOpen_new {s : State} (filename : CStr) {i : Nat} (hi : i < MYFS_MAX_FILES)
    (hl : filename.strlen < MYFS_MAX_NAMELEN)
    (hno : ∀ k < MYFS_MAX_FILES, nameMatches filename (s.sb.file k) = false)
    (he : (s.sb.file i).name = .empty) (hlt : ∀ k < i, (s.sb.file k).name ≠ .empty) :
    myfsOpen s filename = .ok (i,
      { s with sb := s.sb.setFile i { s.sb.file i with name := filename, nBlock := 0 } }.setFlags
        i MYFS_FILE_OPENED) := by
  have h1 : (List.range MYFS_MAX_FILES).find? (fun i => nameMatches filename (s.sb.file i)) =
    none :=
    List.find?_eq_none.2 fun k hk => by simp [hno k (List.mem_range.1 hk)]
  have h2 : (List.range MYFS_MAX_FILES).find? (fun i => (s.sb.file i).name = .empty) = some i :=
    List.find?_range_eq_some.2
      ⟨by simpa using he, List.mem_range.2 hi, fun k hk => by simpa using hlt k hk⟩
  unfold myfsOpen
  rw [openLoop_eq, h1]
  simp only [Option.none_or, h2]
  rw [if_neg (by omega)]

/-- A slot that `myfs_open` takes is the first unnamed one. -/
theorem myfsOpen_first {s s' : State} {filename : CStr} {i : Nat}
    (h : myfsOpen s filename = .ok (i, s')) (hl : filename.strlen < MYFS_MAX_NAMELEN)
    (hno : ∀ k < MYFS_MAX_FILES, nameMatches filename (s.sb.file k) = false) :
    ∀ j < i, (s.sb.file j).name ≠ .empty := by
  intro j hj he
  have hi := (myfsOpen_ok h).1
  obtain ⟨k, hk, hk0, hlow⟩ := exists_first (P := fun j => (s.sb.file j).name = .empty) hj he
  have hko := myfsOpen_new filename (Nat.lt_trans hk hi) hl hno hk0 hlow
  rw [hko] at h
  have hki : k = i := (Prod.mk.inj (Except.ok.inj h)).1
  omega

/-! ## Blocks -/

theorem allocBlock_file (sb : Superblock) (i k m : Nat) :
    (allocBlock sb i k).file m =
      if m = i then { (sb.file i).setBlock k (sb.freeBlocks sb.freeBlocksRp) with
        nBlock := ((sb.file i).nBlock + 1) % 2 ^ 64 }
      else sb.file m := by
  by_cases hm : m = i <;> simp [allocBlock, hm]

/-- The block index that `myfs_get_lba` computes. -/
theorem wrap32_iBlock {offset : Nat} (h : offset / MYFS_BLOCK_SIZE < MYFS_MAX_BLOCKS_PER_FILE) :
    wrap32 ((offset / MYFS_BLOCK_SIZE : Nat) : Int) = (offset / MYFS_BLOCK_SIZE : Nat) := by
  have := MYFS_MAX_BLOCKS_PER_FILE_eq
  generalize offset / MYFS_BLOCK_SIZE = k at h ⊢
  exact wrap32_of_range (by omega) (by omega)

/-- A successful `myfs_get_lba`: the block is there, or a write allocates it. -/
theorem myfsGetLba_ok {s s' : State} {i offset : Nat} {write lba : Int}
    (h : myfsGetLba s i offset write = .ok (lba, s')) :
    ∃ k < MYFS_MAX_BLOCKS_PER_FILE, wrap32 ((offset / MYFS_BLOCK_SIZE : Nat) : Int) = k ∧
      (s'.sb.file i).block k ≠ INACTIVE_BLOCK ∧ lba = lbaOf ((s'.sb.file i).block k) offset ∧
      (((s.sb.file i).block k ≠ INACTIVE_BLOCK ∧ s' = s) ∨
        (0 < write ∧ (s.sb.file i).block k = INACTIVE_BLOCK ∧
          s' = { s with sb := allocBlock s.sb i k })) := by
  unfold myfsGetLba at h
  simp only at h
  split at h
  · cases h
  · rename_i hb
    simp only [not_or, Int.not_lt, Int.not_le] at hb
    obtain ⟨k, hk⟩ := Int.eq_ofNat_of_zero_le hb.1
    rw [hk] at h hb
    simp only [Int.toNat_natCast] at h
    refine ⟨k, by omega, hk, ?_⟩
    split at h
    · rename_i hw
      split at h
      · cases h
      · rename_i hne
        simp only [Except.ok.injEq, Prod.mk.injEq] at h
        obtain ⟨rfl, rfl⟩ := h
        exact ⟨hne, rfl, .inr ⟨hw.1, hw.2, rfl⟩⟩
    · split at h
      · cases h
      · rename_i hne
        simp only [Except.ok.injEq, Prod.mk.injEq] at h
        obtain ⟨rfl, rfl⟩ := h
        exact ⟨hne, rfl, .inl ⟨hne, rfl⟩⟩

/-- `myfs_get_lba` on a block that is there. -/
theorem myfsGetLba_active {s : State} {i offset : Nat} (write : Int)
    (hk : offset / MYFS_BLOCK_SIZE < MYFS_MAX_BLOCKS_PER_FILE)
    (ha : (s.sb.file i).block (offset / MYFS_BLOCK_SIZE) ≠ INACTIVE_BLOCK) :
    myfsGetLba s i offset write =
      .ok (lbaOf ((s.sb.file i).block (offset / MYFS_BLOCK_SIZE)) offset, s) := by
  unfold myfsGetLba
  rw [wrap32_iBlock hk]
  generalize offset / MYFS_BLOCK_SIZE = k at hk ha ⊢
  simp only [Int.toNat_natCast, ha, and_false, ↓reduceIte]
  rw [if_neg (by omega)]

/-- `myfs_get_lba` for the first write to a block. -/
theorem myfsGetLba_alloc {s : State} {i : Nat} (offset : Nat) {write : Int} (hw : 0 < write)
    (hk : offset / MYFS_BLOCK_SIZE < MYFS_MAX_BLOCKS_PER_FILE)
    (hi : (s.sb.file i).block (offset / MYFS_BLOCK_SIZE) = INACTIVE_BLOCK)
    (hb : s.sb.freeBlocks s.sb.freeBlocksRp ≠ INACTIVE_BLOCK) :
    myfsGetLba s i offset write = .ok (lbaOf (s.sb.freeBlocks s.sb.freeBlocksRp) offset,
      { s with sb := allocBlock s.sb i (offset / MYFS_BLOCK_SIZE) }) := by
  unfold myfsGetLba
  rw [wrap32_iBlock hk]
  generalize offset / MYFS_BLOCK_SIZE = k at hk hi ⊢
  simp only [Int.toNat_natCast, hw, hi, and_self, ↓reduceIte, allocBlock_file, setBlock_block, hb]
  rw [if_neg (by omega)]

/-- `myfs_get_lba` touches neither the file states nor another slot's file. -/
theorem myfsGetLba_frame {s s' : State} {i offset : Nat} {write lba : Int}
    (h : myfsGetLba s i offset write = .ok (lba, s')) :
    s'.fileStates = s.fileStates ∧ (∀ m, (s'.sb.file m).name = (s.sb.file m).name) ∧
      ∀ m ≠ i, s'.sb.file m = s.sb.file m := by
  obtain ⟨k, -, -, -, -, ⟨-, rfl⟩ | ⟨-, -, rfl⟩⟩ := myfsGetLba_ok h
  · exact ⟨rfl, fun _ => rfl, fun _ _ => rfl⟩
  · refine ⟨rfl, fun m => ?_, fun m hm => ?_⟩
    · show ((allocBlock s.sb i k).file m).name = _
      rw [allocBlock_file]
      by_cases hm : m = i <;> simp [hm]
    · show (allocBlock s.sb i k).file m = _
      rw [allocBlock_file, if_neg hm]

/-! ## Reference counts -/

@[simp] theorem incrementRef_sb (s : State) (i : Nat) : (myfsIncrementRef s i).1.sb = s.sb := by
  unfold myfsIncrementRef
  split <;> rfl

@[simp] theorem incrementRef_size (s : State) (i k : Nat) :
    myfsGetSize (myfsIncrementRef s i).1 k = myfsGetSize s k := by
  unfold myfsGetSize
  rw [incrementRef_sb]

theorem incrementRef_fileStates (s : State) (i k : Nat) :
    (myfsIncrementRef s i).1.fileStates k =
      if k = i ∧ (s.fileStates i).flags = MYFS_FILE_OPENED
      then { s.fileStates i with refCount := (s.fileStates i).refCount + 1 }
      else s.fileStates k := by
  unfold myfsIncrementRef
  by_cases h : (s.fileStates i).flags = MYFS_FILE_OPENED <;> simp [h]

/-- The count an unlink from `myfs_decrement_ref` sees is 65535, so it is put off again. -/
theorem decrementRef_eq (s : State) (i : Nat) :
    myfsDecrementRef s i =
      let s' := s.setRefCount i ((s.fileStates i).refCount - 1)
      if (s.fileStates i).refCount = 0 ∧ (s.fileStates i).flags &&& MYFS_FILE_UNLINKED ≠ 0
      then s'.setFlags i ((s.fileStates i).flags ||| MYFS_FILE_UNLINKED) else s' := by
  unfold myfsDecrementRef myfsUnlinkFd myfsTryUnlink
  by_cases h : (s.fileStates i).refCount = 0
  · by_cases hf : (s.fileStates i).flags &&& MYFS_FILE_UNLINKED = 0 <;> simp [h, hf]
  · simp [h]

@[simp] theorem decrementRef_sb (s : State) (i : Nat) : (myfsDecrementRef s i).sb = s.sb := by
  rw [decrementRef_eq]
  simp only
  split <;> rfl

theorem decrementRef_fileStates (s : State) (i k : Nat) :
    (myfsDecrementRef s i).fileStates k =
      if k = i then
        { refCount := (s.fileStates i).refCount - 1
          flags :=
            if (s.fileStates i).refCount = 0 ∧
              (s.fileStates i).flags &&& MYFS_FILE_UNLINKED ≠ 0
            then (s.fileStates i).flags ||| MYFS_FILE_UNLINKED else (s.fileStates i).flags }
      else s.fileStates k := by
  rw [decrementRef_eq]
  simp only
  by_cases hk : k = i <;> split <;> simp [hk]

@[simp] theorem close_sb (s : State) (i : Nat) : (myfsClose s i).sb = s.sb := rfl

end Myfs

import Staut.Myfs.Proof.Image
import Staut.Myfs.Proof.Fresh

/-!
# Accesses outside the arrays

* `openConfined_iff`: `myfs_open` keeps to one slot exactly when a name matches, or there is a free
  slot and the name fits its field.
* `lookupConfined_iff`: `myfs_get_lba` keeps to the file exactly when the offset is within the block
  table, or its block number is narrowed to one that is and nothing is allocated for it.

`full_table` is a run that fills the table; on its superblock both calls leave their slot.
-/

set_option autoImplicit false

namespace Myfs

open CSem Bytes

/-! ## `myfs_open` -/

section
variable {m : Memory} {flags : Int → UInt16} {filename : CStr}

theorem openConfined_found {i : Nat} (hi : i < MYFS_MAX_FILES)
    (hm : matchesAt m filename i = true) :
    OpenConfined m flags filename := by
  obtain ⟨k, hk, -, -, ho⟩ := openImage_found hi hm
  unfold OpenConfined
  rw [ho]
  exact .inl ⟨Int.natCast_nonneg k, Int.ofNat_lt.2 hk, rfl, by simp⟩

variable (hno : ∀ i < MYFS_MAX_FILES, matchesAt m filename i = false)
include hno

/-- The name is stored with its terminator. -/
theorem openConfined_new {i : Nat} (hi : i < MYFS_MAX_FILES) (h0 : m (nameAt i) = 0) :
    OpenConfined m flags filename ↔ filename.strlen < MYFS_MAX_NAMELEN := by
  obtain ⟨k, hk, hk0, hlow⟩ := exists_first (P := fun i : Nat => m (nameAt i) = 0) hi h0
  have ho := openImage_new hno hk hk0 hlow
  have hN := MYFS_MAX_NAMELEN_eq
  unfold OpenConfined CStr.strlen
  rw [ho]
  constructor
  · rintro (⟨-, -, -, hst⟩ | ⟨hneg, -⟩)
    · have hin := hst (nameAt k, filename.bytes ++ [0]) (by simp)
      simp only [InSlot, List.length_append, List.length_singleton, nameAt_eq, nBlockAt_eq] at hin
      omega
    · dsimp only at hneg
      omega
  · intro hlen
    refine .inl ⟨Int.natCast_nonneg k, Int.ofNat_lt.2 hk, rfl, fun s hs => ?_⟩
    rcases List.mem_pair.1 hs with rfl | rfl
    · refine .inl ⟨Int.le_refl _, ?_⟩
      simp only [List.length_append, List.length_singleton]
      omega
    · refine .inr ⟨Int.le_refl _, ?_⟩
      simp only [length_toLe]
      omega

/-- No free slot: the flags of no file state are set. -/
theorem not_openConfined_full (hfull : ∀ i : Nat, i < MYFS_MAX_FILES → m (nameAt i) ≠ 0) :
    ¬ OpenConfined m flags filename := by
  have ho := openImage_full hno hfull
  unfold OpenConfined
  rw [ho]
  rintro (⟨h0, -⟩ | ⟨-, -, h0, -⟩) <;> dsimp only at h0 <;> omega

end

/-- **`myfs_open` keeps to one slot** exactly when a name matches, or a slot is free and the name
fits. -/
theorem openConfined_iff (m : Memory) (flags : Int → UInt16) (filename : CStr) :
    OpenConfined m flags filename ↔
      (∃ i < MYFS_MAX_FILES, matchesAt m filename i = true) ∨
        ((∃ i < MYFS_MAX_FILES, m (nameAt (i : Nat)) = 0) ∧
          filename.strlen < MYFS_MAX_NAMELEN) := by
  by_cases hm : ∃ i < MYFS_MAX_FILES, matchesAt m filename i = true
  · obtain ⟨i, hi, hmi⟩ := hm
    exact ⟨fun _ => .inl ⟨i, hi, hmi⟩, fun _ => openConfined_found hi hmi⟩
  · have hno : ∀ i < MYFS_MAX_FILES, matchesAt m filename i = false := fun i hi =>
      Bool.eq_false_iff.2 fun h => hm ⟨i, hi, h⟩
    rw [or_iff_right hm]
    by_cases he : ∃ i : Nat, i < MYFS_MAX_FILES ∧ m (nameAt i) = 0
    · obtain ⟨i, hi, h0⟩ := he
      rw [openConfined_new hno hi h0]
      exact ⟨fun hlen => ⟨⟨i, hi, h0⟩, hlen⟩, fun h => h.2⟩
    · have hfull : ∀ i : Nat, i < MYFS_MAX_FILES → m (nameAt i) ≠ 0 := fun i hi h0 => he ⟨i, hi, h0⟩
      exact ⟨fun hc => absurd hc (not_openConfined_full hno hfull), fun h => absurd h.1 he⟩

/-- On a well-formed superblock these are the calls that succeed. -/
theorem Holds.open_isOk_iff {m : Memory} {s : State} (h : Holds m s.sb) (flags : Int → UInt16)
    (filename : CStr) :
    OpenConfined m flags filename ↔ ∃ i s', myfsOpen s filename = .ok (i, s') := by
  constructor
  · intro hc
    by_cases hm : ∃ i < MYFS_MAX_FILES, nameMatches filename (s.sb.file i) = true
    · obtain ⟨i, hi, hm⟩ := hm
      obtain ⟨k, hk, hmk, hlow⟩ :=
        exists_first (P := fun k => nameMatches filename (s.sb.file k) = true) hi hm
      exact ⟨k, _, myfsOpen_old hk hmk fun j hj => Bool.eq_false_iff.2 (hlow j hj)⟩
    · have hno : ∀ i < MYFS_MAX_FILES, matchesAt m filename i = false := fun i hi => by
        rw [h.matchesAt_eq filename hi]
        exact Bool.eq_false_iff.2 fun hmi => hm ⟨i, hi, hmi⟩
      by_cases he : ∃ i : Nat, i < MYFS_MAX_FILES ∧ m (nameAt i) = 0
      · obtain ⟨i, hi, h0⟩ := he
        exact myfsOpen_isOk filename ((openConfined_new hno hi h0).1 hc)
          ⟨i, hi, .inr ((h.free_iff hi).1 h0)⟩
      · exact absurd hc (not_openConfined_full hno fun i hi h0 => he ⟨i, hi, h0⟩)
  · rintro ⟨i, s', ho⟩
    obtain ⟨hi, ⟨hm, -⟩ | ⟨hno, hn, hl, -⟩⟩ := myfsOpen_ok ho
    · exact openConfined_found hi ((h.matchesAt_eq filename hi).trans hm)
    · have hno' : ∀ k < MYFS_MAX_FILES, matchesAt m filename k = false := fun k hk => by
        rw [h.matchesAt_eq filename hk, hno k hk]
      exact (openConfined_new hno' hi ((h.free_iff hi).2 hn)).2 hl

/-! ## `myfs_get_lba` -/

section
variable {m : Memory} {i offset : Nat} {write : Int}

theorem block_ofFile (hlt : offset < MYFS_MAX_BLOCKS_PER_FILE * MYFS_BLOCK_SIZE) :
    (Loc.block (iBlockOf offset)).OfFile := by
  obtain ⟨hk, hb⟩ := iBlockOf_of_lt hlt
  rw [hk]
  exact ⟨Int.natCast_nonneg _, Int.ofNat_lt.2 hb⟩

/-- The entry is read in any case. -/
theorem LookupConfined.block (h : LookupConfined m i offset write) :
    (Loc.block (iBlockOf offset)).OfFile := by
  refine (h.reads (.block (iBlockOf offset)) ?_).resolve_right nofun
  by_cases ha : 0 < write ∧ int32 m (blockAt i (iBlockOf offset)) = INACTIVE_BLOCK
  · rw [getLbaImage_alloc ha]
    exact List.mem_cons_self
  · rw [getLbaImage_taken ha]
    exact List.mem_cons_self

/-- An allocation moves the read index. -/
theorem lookupConfined_alloc
    (ha : 0 < write ∧ int32 m (blockAt i (iBlockOf offset)) = INACTIVE_BLOCK) :
    LookupConfined m i offset write ↔ offset < MYFS_MAX_BLOCKS_PER_FILE * MYFS_BLOCK_SIZE := by
  have hrun := getLbaImage_alloc ha
  constructor
  · intro h
    refine Nat.lt_of_not_le fun hge => ?_
    have hmem := h.behind ha.1 hge
    rw [hrun] at hmem
    dsimp only at hmem
    obtain ⟨h1, h2⟩ := int32_range m rpAt
    have hne := (next_ne _ h1 h2).1
    rw [← allocImage_rp (i := i) h.block.1, hmem] at hne
    exact hne rfl
  · intro hlt
    have hin := block_ofFile hlt
    refine ⟨fun l hl => ?_, fun l hl => ?_, fun _ hge => absurd hlt (Nat.not_lt.2 hge)⟩
    · rw [hrun] at hl
      simp only [List.mem_cons, List.not_mem_nil, or_false] at hl
      rcases hl with rfl | rfl | rfl | rfl | rfl
      · exact .inl hin
      · exact .inl trivial
      · exact .inr rfl
      · exact .inl trivial
      · exact .inl hin
    · rw [hrun] at hl
      simp only [List.mem_cons, List.not_mem_nil, or_false] at hl
      rcases hl with rfl | rfl | rfl
      · trivial
      · exact hin
      · trivial

theorem lookupConfined_taken
    (ha : ¬ (0 < write ∧ int32 m (blockAt i (iBlockOf offset)) = INACTIVE_BLOCK)) :
    LookupConfined m i offset write ↔ (Loc.block (iBlockOf offset)).OfFile := by
  have hrun := getLbaImage_taken ha
  refine ⟨LookupConfined.block, fun hin =>
    ⟨fun l hl => ?_, fun l hl => ?_, fun _ _ => by rw [hrun]⟩⟩
  · rw [hrun] at hl
    rw [List.mem_singleton.1 hl]
    exact .inl hin
  · rw [hrun] at hl
    cases hl

end

/-- **`myfs_get_lba` keeps to the file** exactly when the offset is within the block table, or the
narrowed block number is and nothing is allocated for it. -/
theorem lookupConfined_iff (m : Memory) (i offset : Nat) (write : Int) :
    LookupConfined m i offset write ↔ offset < MYFS_MAX_BLOCKS_PER_FILE * MYFS_BLOCK_SIZE ∨
      (0 ≤ iBlockOf offset ∧ iBlockOf offset < MYFS_MAX_BLOCKS_PER_FILE ∧
        ¬ (0 < write ∧ int32 m (blockAt i (iBlockOf offset)) = INACTIVE_BLOCK)) := by
  by_cases ha : 0 < write ∧ int32 m (blockAt i (iBlockOf offset)) = INACTIVE_BLOCK
  · rw [lookupConfined_alloc ha, or_iff_left]
    exact fun h => h.2.2 ha
  · rw [lookupConfined_taken ha]
    constructor
    · intro hin
      exact .inr ⟨hin.1, hin.2, ha⟩
    · rintro (hlt | ⟨h1, h2, -⟩)
      · exact block_ofFile hlt
      · exact ⟨h1, h2⟩

/-! ## A full table -/

/-- The name of the file in slot `i`. -/
def slotName (i : Nat) : CStr where
  bytes := [UInt8.ofNat (1 + i / 64 % 64), UInt8.ofNat (1 + i % 64)]
  nul_free h := by
    have hne : ∀ n < 64, UInt8.ofNat (1 + n) ≠ 0 := by decide
    rcases List.mem_pair.1 h with h | h
    · exact hne _ (Nat.mod_lt _ (by decide)) h.symm
    · exact hne _ (Nat.mod_lt _ (by decide)) h.symm

theorem slotName_inj {i j : Nat} (hi : i < MYFS_MAX_FILES) (hj : j < MYFS_MAX_FILES)
    (h : (slotName j).bytes <+: (slotName i).bytes) : i = j := by
  have hF := MYFS_MAX_FILES_eq
  have he := h.eq_of_length rfl
  simp only [slotName, List.cons.injEq, and_true] at he
  have h1 := congrArg UInt8.toNat he.1
  have h2 := congrArg UInt8.toNat he.2
  simp only [UInt8.toNat_ofNat'] at h1 h2
  omega

theorem slotName_strlen (i : Nat) : (slotName i).strlen = 2 := rfl

theorem slotName_lt (i : Nat) : (slotName i).strlen < MYFS_MAX_NAMELEN := by
  rw [MYFS_MAX_NAMELEN_eq, slotName_strlen]
  decide

/-- A run of opens takes every slot. -/
theorem full_table {n : Nat} (hn : n ≤ MYFS_MAX_FILES) :
    ∃ s, Named (fun _ _ => True) slotName n s :=
  named_slots slotName (fun _ _ => trivial)
    (fun _ h => by simpa [slotName] using CStr.eq_empty_iff.1 h) hn
    (fun j _ => slotName_lt j)
    fun j hj i hi hp => Nat.ne_of_lt hi (slotName_inj (by omega) (by omega) hp)

theorem Named.fits {C : State → Op → Prop} {nm : Nat → CStr} {n : Nat} {s : State}
    (h : Named C nm n s) (hl : ∀ j < MYFS_MAX_FILES, (nm j).strlen < MYFS_MAX_NAMELEN) :
    s.sb.Fits := by
  have hN := NUM_BLOCKS_eq
  have hL := MYFS_MAX_NAMELEN_eq
  refine ⟨fun i hi => ?_, fun i hi k hk => ?_, fun i hi => ?_, fun j hj => ?_, ?_, ?_⟩
  · rw [h.file i hi]
    dsimp only
    split
    · exact hl i hi
    · rw [hL]
      decide
  · simp only [h.file i hi, if_pos hk]
    decide
  · rw [h.file i hi]
    exact Nat.two_pow_pos 64
  · rw [h.free, fresh_sb]
    simp only [myfsSuperblockInit]
    split <;> omega
  · rw [h.rp]
    decide
  · rw [h.wp]
    omega

/-- A name that no slot of the table has. -/
def newName : CStr := ⟨[97, 98, 99], by decide⟩

/-- A name of `n` bytes. -/
def longName (n : Nat) : CStr where
  bytes := List.replicate n 97
  nul_free h := absurd (List.eq_of_mem_replicate h) (by decide)

theorem longName_strlen (n : Nat) : (longName n).strlen = n := List.length_replicate

theorem zero_bytes {m : Memory} {a : Int} (h : ∀ k : Nat, k < 4 → m (a + k) = 0) : int32 m a =
    0 := by
  refine int32_of_bytes (fun k hk => (h k hk).trans ?_) (by decide) (by decide)
  revert k
  decide

/-- One more file, in a full table: the call stores the name into the free ring and zeroes both of
its indices. -/
theorem full_open_leaves_slot : ∃ s m, ops.Reach s ∧ Holds m s.sb ∧ (openImage m newName).ret = -1 ∧
    int32 m wpAt = NUM_BLOCKS - 1 ∧ int32 ((openImage m newName).mem m) wpAt = 0 ∧
    ∀ flags, ¬ OpenConfined m flags newName := by
  have hN := NUM_BLOCKS_eq
  obtain ⟨s, h⟩ := full_table (Nat.le_refl _)
  have hm := imageOf_holds (h.fits fun j _ => slotName_lt j)
  generalize imageOf s.sb = m at hm
  have hno : ∀ i < MYFS_MAX_FILES, matchesAt m newName i = false := by
    intro i hi
    rw [hm.matchesAt_eq newName hi, h.file i hi, if_pos hi, Bool.eq_false_iff, Ne, nameMatches_iff]
    intro hp
    exact absurd hp.length_le (by decide : ¬ 3 ≤ 2)
  have hfull : ∀ i : Nat, i < MYFS_MAX_FILES → m (nameAt i) ≠ 0 := by
    intro i hi h0
    have hn := (hm.free_iff hi).1 h0
    rw [h.file i hi, if_pos hi] at hn
    exact absurd (congrArg CStr.strlen hn) (by decide : ¬ 2 = 0)
  have ho := openImage_full hno hfull
  refine ⟨s, m, h.reach, hm, by rw [ho], ?_, ?_, fun flags hc => ?_⟩
  · rw [hm.wp, h.wp]
    omega
  · rw [ho]
    refine zero_bytes fun k hk => ?_
    have ha : wpAt + k = nBlockAt (-1) + (4 + k : Nat) := by
      rw [wpAt_eq, nBlockAt_eq]
      omega
    show put _ (nBlockAt (-1)) (toLe 8 0) (wpAt + k) = 0
    rw [ha, put_inside (by rw [length_toLe]; omega)]
    exact List.eq_of_mem_replicate (a := (0 : UInt8)) (n := 8) (List.getElem_mem _)
  · exact not_openConfined_full hno hfull hc

/-- A name of 1024 bytes, in an empty table: its terminator goes to the block table. -/
theorem long_open_leaves_slot : ∃ s m f, ops.Reach s ∧ Holds m s.sb ∧ f.strlen = 1024 ∧
    (openImage m f).ret = 0 ∧ int32 m (blockAt 0 0) = INACTIVE_BLOCK ∧
    (openImage m f).mem m (blockAt 0 0) = 0 ∧ ∀ flags, ¬ OpenConfined m flags f := by
  have hL := MYFS_MAX_NAMELEN_eq
  have hM := MYFS_MAX_BLOCKS_PER_FILE_eq
  obtain ⟨s, h⟩ := full_table (Nat.zero_le _)
  have hm := imageOf_holds (h.fits fun j _ => slotName_lt j)
  generalize imageOf s.sb = m at hm
  have hlen := longName_strlen 1024
  generalize longName 1024 = f at hlen
  have hempty : ∀ i < MYFS_MAX_FILES, (s.sb.file i).name = .empty := fun i hi => by
    rw [h.file i hi]
    rfl
  have hno : ∀ i < MYFS_MAX_FILES, matchesAt m f i = false := fun i hi => by
    rw [hm.matchesAt_eq f hi]
    exact nameMatches_empty (fun he => by rw [he] at hlen; exact absurd hlen (by decide))
      (hempty i hi)
  have hfree : m (nameAt (0 : Nat)) = 0 :=
    (hm.free_iff MYFS_MAX_FILES_pos).2 (hempty 0 MYFS_MAX_FILES_pos)
  have ho := openImage_new hno MYFS_MAX_FILES_pos hfree fun j hj => absurd hj (Nat.not_lt_zero j)
  refine ⟨s, m, f, h.reach, hm, hlen, by rw [ho]; rfl, ?_, ?_, fun flags hc => ?_⟩
  · have hb := hm.block 0 MYFS_MAX_FILES_pos 0 (by omega)
    rw [h.file 0 MYFS_MAX_FILES_pos] at hb
    exact hb.trans (if_pos (by omega))
  · -- the terminator is the byte behind the name field
    rw [ho]
    show put (put m (nameAt 0) (f.bytes ++ [0])) (nBlockAt 0) (toLe 8 0) (blockAt 0 0) = 0
    have ha : blockAt 0 0 = nameAt 0 + (f.bytes.length : Nat) := by
      have hl : f.bytes.length = 1024 := hlen
      rw [hl, blockAt_eq, nameAt_eq]
      omega
    rw [put_outside (by rw [nBlockAt_eq, blockAt_eq]; omega), ha, put_inside (by simp)]
    simp
  · have hlt := (openConfined_new hno MYFS_MAX_FILES_pos hfree).1 hc
    omega

/-- One more file in a full table, and a name of 1024 bytes in an empty one. -/
theorem open_leaves_slot :
    (∃ s m, ops.Reach s ∧ Holds m s.sb ∧ (openImage m newName).ret = -1 ∧
      int32 m wpAt = NUM_BLOCKS - 1 ∧ int32 ((openImage m newName).mem m) wpAt = 0 ∧
      ∀ flags, ¬ OpenConfined m flags newName) ∧
    (∃ s m f, ops.Reach s ∧ Holds m s.sb ∧ f.strlen = 1024 ∧ (openImage m f).ret = 0 ∧
      int32 m (blockAt 0 0) = INACTIVE_BLOCK ∧ (openImage m f).mem m (blockAt 0 0) = 0 ∧
      ∀ flags, ¬ OpenConfined m flags f) :=
  ⟨full_open_leaves_slot, long_open_leaves_slot⟩

/-- A write at block number 131330 of the file in slot 0 of a full table: that is `block[0]` of the
file in slot 1, which gets the block, and slot 0 counts it. -/
theorem lookup_leaves_file : ∃ s m offset, ops.Reach s ∧ Holds m s.sb ∧
    offset = (MYFS_MAX_BLOCKS_PER_FILE + 258) * MYFS_BLOCK_SIZE ∧ offset % 512 = 0 ∧
    int32 m (blockAt 1 0) = INACTIVE_BLOCK ∧
    int32 (getLbaImage m 0 offset 1).mem (blockAt 1 0) = 0 ∧ uint64 m (nBlockAt 0) = 0 ∧
    uint64 (getLbaImage m 0 offset 1).mem (nBlockAt 0) = 1 ∧ ¬ LookupConfined m 0 offset 1 := by
  have hN := NUM_BLOCKS_eq
  have hM := MYFS_MAX_BLOCKS_PER_FILE_eq
  have hB := MYFS_BLOCK_SIZE_eq
  have hF := MYFS_MAX_FILES_eq
  obtain ⟨s, h⟩ := full_table (Nat.le_refl _)
  have hm := imageOf_holds (h.fits fun j _ => slotName_lt j)
  generalize imageOf s.sb = m at hm
  obtain ⟨offset, hoff⟩ : ∃ o, o = (MYFS_MAX_BLOCKS_PER_FILE + 258) * MYFS_BLOCK_SIZE := ⟨_, rfl⟩
  have hk : iBlockOf offset = 131330 := by
    unfold iBlockOf
    rw [hoff, Nat.mul_div_cancel _ (by omega), hM]
    decide
  have hz : ((0 : Nat) : Int) = 0 := rfl
  have ha : blockAt 0 131330 = blockAt 1 0 := by
    rw [blockAt_eq, blockAt_eq]
    omega
  have hin : int32 m (blockAt 1 0) = INACTIVE_BLOCK := by
    have hb := hm.block 1 (by omega) 0 (by omega)
    rw [h.file 1 (by omega)] at hb
    exact hb.trans (if_pos (by omega))
  have hcount : uint64 m (nBlockAt 0) = 0 := by
    have hc := hm.nBlock 0 (by omega)
    rwa [h.file 0 (by omega)] at hc
  have hrp : int32 m rpAt = 0 := by
    rw [hm.rp, h.rp]
    rfl
  have hnew : int32 m (freeBlockAt 0) = 0 := by
    have hf := hm.free 0 (by omega)
    rw [h.free, fresh_sb] at hf
    exact hf.trans (if_pos (by omega))
  have hrun : getLbaImage m 0 offset 1 = _ := getLbaImage_alloc
    ⟨by decide, by rw [hk, hz, ha]; exact hin⟩
  have hmem : (getLbaImage m 0 offset 1).mem =
    putUint64 (putInt32 (putInt32 m rpAt 1) (blockAt 1 0) 0)
      (nBlockAt 0) 1 := by
    have hnext : (wrap32 (0 + 1)).tmod NUM_BLOCKS = 1 := by
      rw [hN]
      decide
    have hfree : int32 (putInt32 m rpAt 1) (freeBlockAt 0) = 0 := by
      rw [int32_put_apart (by simp only [Apart, length_toLe, freeBlockAt_eq, rpAt_eq]; omega), hnew]
    have hcnt : uint64 (putInt32 (putInt32 m rpAt 1) (blockAt 1 0) 0) (nBlockAt 0) = 0 := by
      rw [uint64_put_apart (by simp only [Apart, length_toLe, nBlockAt_eq, blockAt_eq]; omega),
        uint64_put_apart (by simp only [Apart, length_toLe, nBlockAt_eq, rpAt_eq]; omega), hcount]
    rw [hrun, hk]
    unfold allocImage
    dsimp only
    rw [hrp, hnext, hfree, hz, ha, hcnt]
  refine ⟨s, m, offset, h.reach, hm,
    hoff, by rw [hM, hB] at hoff; omega, hin, ?_, hcount, ?_, fun hc => ?_⟩
  · rw [hmem, int32_put_apart (by simp only [Apart, length_toLe, nBlockAt_eq, blockAt_eq]; omega),
      int32_put_same (by decide) (by decide)]
  · rw [hmem, uint64_put_same, Nat.mod_eq_of_lt (by omega)]
  · have hlt := hc.block.2
    rw [hk] at hlt
    omega

end Myfs

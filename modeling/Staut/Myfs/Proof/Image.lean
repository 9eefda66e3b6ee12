import Staut.Myfs.Image
import Staut.Myfs.Proof.Spec

/-!
# The calls on the mapped superblock

* `openImage_found`, `openImage_new`, `openImage_full`: what `myfs_open` does, by the outcome of its
  loop.
* `getLbaImage_alloc`, `getLbaImage_taken`, `getLbaImage_frame`: what `myfs_get_lba` does, and what
  it leaves alone.
* `imageOf_holds`: the bytes of a superblock hold it.
* `openImage_refines`, `getLbaImage_refines`: where a call of `Staut.Myfs.Defs` succeeds, the call
  on the bytes has the same result and leads to the bytes of the same superblock.
-/

set_option autoImplicit false

namespace Myfs

open CSem Bytes

/-! ## Addresses -/

theorem freeBlockAt_eq (j : Int) : freeBlockAt j = 8 + 4 * j := rfl

theorem rpAt_eq : rpAt = 2867208 := by
  unfold rpAt freeBlockAt
  rw [NUM_BLOCKS_eq]
  rfl

theorem wpAt_eq : wpAt = 2867212 := by
  unfold wpAt
  rw [rpAt_eq]
  rfl

theorem nameAt_eq (i : Int) : nameAt i = 2867216 + 525320 * i := by
  unfold nameAt sizeofFile
  rw [wpAt_eq, MYFS_MAX_NAMELEN_eq, MYFS_MAX_BLOCKS_PER_FILE_eq]
  omega

theorem blockAt_eq (i k : Int) : blockAt i k = 2868240 + 525320 * i + 4 * k := by
  unfold blockAt
  rw [nameAt_eq, MYFS_MAX_NAMELEN_eq]
  omega

theorem nBlockAt_eq (i : Int) : nBlockAt i = 3392528 + 525320 * i := by
  unfold nBlockAt
  rw [blockAt_eq, MYFS_MAX_BLOCKS_PER_FILE_eq]
  omega

/-! ## `myfs_open` -/

section
variable {m : Memory} {filename : CStr}

/-- The loop: the first matching slot, else the first one whose name field starts with a NUL. -/
theorem openScan_eq (m : Memory) (filename : CStr) : ∀ (is : List Nat) (e : Int),
    openScan m filename is e =
      match is.find? fun i => matchesAt m filename i with
      | some i => .inl i
      | none => .inr (if e = -1 then
          match is.find? fun i : Nat => m (nameAt i) = 0 with
          | some i => (i : Int)
          | none => -1
        else e)
  | [], e => by
    simp only [openScan, List.find?_nil]
    split <;> simp_all
  | i :: is, e => by
    simp only [openScan, List.find?_cons]
    by_cases hm : matchesAt m filename i = true
    · simp [hm]
    · simp only [hm, Bool.false_eq_true, ↓reduceIte]
      rw [openScan_eq m filename is]
      cases is.find? fun i => matchesAt m filename i with
      | some k => rfl
      | none =>
        have hi : (i : Int) ≠ -1 := by omega
        by_cases he : e = -1
        · by_cases h0 : m (nameAt i) = 0 <;> simp [he, h0, hi]
        · simp [he]

theorem openImage_found {i : Nat} (hi : i < MYFS_MAX_FILES) (hm : matchesAt m filename i = true) :
    ∃ k < MYFS_MAX_FILES, matchesAt m filename k = true ∧
      (∀ j < k, matchesAt m filename j = false) ∧ openImage m filename = ⟨k, [], k⟩ := by
  cases hf : (List.range MYFS_MAX_FILES).find? fun i => matchesAt m filename i with
  | none => exact absurd hm (List.find?_eq_none.1 hf i (List.mem_range.2 hi))
  | some k =>
    obtain ⟨hk, hlt, hlow⟩ := List.find?_range_eq_some.1 hf
    refine ⟨k, List.mem_range.1 hlt, hk, fun j hj => by simpa using hlow j hj, ?_⟩
    rw [openImage, openScan_eq, hf]

theorem openImage_new (hno : ∀ i < MYFS_MAX_FILES, matchesAt m filename i = false) {i : Nat}
    (hi : i < MYFS_MAX_FILES) (h0 : m (nameAt i) = 0) (hlow : ∀ j < i, m (nameAt j) ≠ 0) :
    openImage m filename =
      ⟨i, [(nameAt i, filename.bytes ++ [0]), (nBlockAt i, toLe 8 0)], i⟩ := by
  have hf : (List.range MYFS_MAX_FILES).find? (fun i => matchesAt m filename i) = none :=
    List.find?_eq_none.2 fun k hk => by simp [hno k (List.mem_range.1 hk)]
  have he : (List.range MYFS_MAX_FILES).find? (fun i : Nat => m (nameAt i) = 0) = some i :=
    List.find?_range_eq_some.2 ⟨by simpa using h0, List.mem_range.2 hi, fun j hj => by
      simpa using hlow j hj⟩
  rw [openImage, openScan_eq, hf, if_pos rfl, he]

/-- With no free slot `empty_i` stays -1. -/
theorem openImage_full (hno : ∀ i < MYFS_MAX_FILES, matchesAt m filename i = false)
    (hfull : ∀ i : Nat, i < MYFS_MAX_FILES → m (nameAt i) ≠ 0) : openImage m filename =
      ⟨-1, [(nameAt (-1), filename.bytes ++ [0]), (nBlockAt (-1), toLe 8 0)], -1⟩ := by
  have hf : (List.range MYFS_MAX_FILES).find? (fun i => matchesAt m filename i) = none :=
    List.find?_eq_none.2 fun k hk => by simp [hno k (List.mem_range.1 hk)]
  have he : (List.range MYFS_MAX_FILES).find? (fun i : Nat => m (nameAt i) = 0) = none :=
    List.find?_eq_none.2 fun k hk => by simpa using hfull k (List.mem_range.1 hk)
  rw [openImage, openScan_eq, hf, if_pos rfl, he]

end

/-! ## `myfs_get_lba` -/

theorem iBlockOf_of_lt {offset : Nat} (h : offset < MYFS_MAX_BLOCKS_PER_FILE * MYFS_BLOCK_SIZE) :
    iBlockOf offset = (offset / MYFS_BLOCK_SIZE : Nat) ∧
      offset / MYFS_BLOCK_SIZE < MYFS_MAX_BLOCKS_PER_FILE := by
  have hlt : offset / MYFS_BLOCK_SIZE < MYFS_MAX_BLOCKS_PER_FILE :=
    Nat.div_lt_of_lt_mul (by rw [Nat.mul_comm]; exact h)
  exact ⟨wrap32_iBlock hlt, hlt⟩

/-- The read index moves, whatever it was. -/
theorem next_ne (x : Int) (h1 : -2 ^ 31 ≤ x) (h2 : x < 2 ^ 31) :
    (wrap32 (x + 1)).tmod NUM_BLOCKS ≠ x ∧ -2 ^ 31 ≤ (wrap32 (x + 1)).tmod NUM_BLOCKS ∧
      (wrap32 (x + 1)).tmod NUM_BLOCKS < 2 ^ 31 := by
  have hw : wrap32 (x + 1) = if x + 1 = 2 ^ 31 then -2 ^ 31 else x + 1 := by
    unfold wrap32
    rw [Int.bmod_def]
    split <;> split <;> omega
  have hd := Int.mul_tdiv_add_tmod (wrap32 (x + 1)) NUM_BLOCKS
  have hlow := Int.lt_tmod_of_pos (wrap32 (x + 1))
    (show (0 : Int) < NUM_BLOCKS by rw [NUM_BLOCKS_eq]; decide)
  have hhigh := Int.tmod_lt_of_pos (wrap32 (x + 1))
    (show (0 : Int) < NUM_BLOCKS by rw [NUM_BLOCKS_eq]; decide)
  rw [NUM_BLOCKS_eq] at *
  generalize (wrap32 (x + 1)).tmod _ = t at *
  generalize (wrap32 (x + 1)).tdiv _ = q at *
  split at hw <;> omega

section
variable {m : Memory} {i offset : Nat} {k write : Int}

theorem allocImage_rp (h0 : 0 ≤ k) : int32 (allocImage m i k) rpAt =
    (wrap32 (int32 m rpAt + 1)).tmod NUM_BLOCKS := by
  obtain ⟨h1, h2⟩ := int32_range m rpAt
  obtain ⟨-, h3, h4⟩ := next_ne _ h1 h2
  unfold allocImage
  rw [int32_put_apart, int32_put_apart, int32_put_same h3 h4]
  · simp only [Apart, length_toLe, rpAt_eq, blockAt_eq]
    omega
  · simp only [Apart, length_toLe, rpAt_eq, nBlockAt_eq]
    omega

theorem getLbaImage_taken
    (h : ¬ (0 < write ∧ int32 m (blockAt i (iBlockOf offset)) = INACTIVE_BLOCK)) :
    getLbaImage m i offset write =
      ⟨[.block (iBlockOf offset)], [], m, lbaAt m i (iBlockOf offset) offset⟩ := if_neg h

theorem getLbaImage_alloc (h : 0 < write ∧ int32 m (blockAt i (iBlockOf offset)) = INACTIVE_BLOCK) :
    getLbaImage m i offset write =
      ⟨[.block (iBlockOf offset), .rp, .free (int32 m rpAt), .nBlock, .block (iBlockOf offset)],
        [.rp, .block (iBlockOf offset), .nBlock], allocImage m i (iBlockOf offset),
        lbaAt (allocImage m i (iBlockOf offset)) i (iBlockOf offset) offset⟩ := if_pos h

/-- Memory that the call does not list is as before. -/
theorem getLbaImage_frame {x : Int}
    (h : ∀ l ∈ (getLbaImage m i offset write).writes, x < l.addr i ∨ l.addr i + l.size ≤ x) :
    (getLbaImage m i offset write).mem x = m x := by
  by_cases ha : 0 < write ∧ int32 m (blockAt i (iBlockOf offset)) = INACTIVE_BLOCK
  · rw [getLbaImage_alloc ha] at h ⊢
    have h1 := h .rp (by simp)
    have h2 := h (.block (iBlockOf offset)) (by simp)
    have h3 := h .nBlock (by simp)
    show allocImage m i (iBlockOf offset) x = m x
    unfold allocImage putUint64 putInt32
    rw [put_outside (by rw [length_toLe]; exact h3), put_outside (by rw [length_toLe]; exact h2),
      put_outside (by rw [length_toLe]; exact h1)]
  · rw [getLbaImage_taken ha]

end

/-! ## The bytes of a superblock -/

section
variable {sb : Superblock} {i k : Nat}

/-- A byte of slot `i`. -/
theorem imageOf_slot (sb : Superblock) (i : Nat) {o : Int} (h0 : 0 ≤ o) (h1 : o < 525320) :
    imageOf sb (nameAt i + o) =
      if o < MYFS_MAX_NAMELEN then (sb.file i).name.bytes.getD o.toNat 0
      else if o < MYFS_MAX_NAMELEN + 4 * MYFS_MAX_BLOCKS_PER_FILE then
        int32Byte ((sb.file i).block ((o - MYFS_MAX_NAMELEN) / 4).toNat)
          ((o - MYFS_MAX_NAMELEN) % 4).toNat
      else (toLe 8 (sb.file i).nBlock).getD
        (o - MYFS_MAX_NAMELEN - 4 * MYFS_MAX_BLOCKS_PER_FILE).toNat 0 := by
  have hsize : sizeofFile = 525320 := by
    unfold sizeofFile
    rw [MYFS_MAX_NAMELEN_eq, MYFS_MAX_BLOCKS_PER_FILE_eq]
    rfl
  have hd : (nameAt i + o - nameAt 0) / sizeofFile = i := by
    rw [hsize, nameAt_eq, nameAt_eq]
    omega
  have hm : (nameAt i + o - nameAt 0) % sizeofFile = o := by
    rw [hsize, nameAt_eq, nameAt_eq]
    omega
  unfold imageOf
  rw [if_neg (by rw [nameAt_eq, freeBlockAt_eq]; omega), if_neg (by rw [nameAt_eq, rpAt_eq]; omega),
    if_neg (by rw [nameAt_eq, wpAt_eq]; omega), if_neg (by rw [nameAt_eq, nameAt_eq]; omega)]
  simp only [hd, hm, Int.toNat_natCast]

theorem imageOf_name (hl : (sb.file i).name.strlen < MYFS_MAX_NAMELEN) :
    bytes (imageOf sb) (nameAt i) ((sb.file i).name.strlen + 1) =
      (sb.file i).name.bytes ++ [0] := by
  have hN := MYFS_MAX_NAMELEN_eq
  have hlen : (sb.file i).name.strlen = (sb.file i).name.bytes.length := rfl
  refine bytes_of (by simp [CStr.strlen]) fun k hk => ?_
  rw [imageOf_slot sb i (Int.natCast_nonneg k) (by omega), if_pos (by omega), Int.toNat_natCast]
  rcases Nat.lt_or_ge k (sb.file i).name.bytes.length with hlt | hge
  · rw [List.getD_append _ _ _ _ hlt]
  · obtain rfl : k = (sb.file i).name.bytes.length := by omega
    simp

theorem imageOf_block (hk : k < MYFS_MAX_BLOCKS_PER_FILE) (h1 : -2 ^ 31 ≤ (sb.file i).block k)
    (h2 : (sb.file i).block k < 2 ^ 31) :
    int32 (imageOf sb) (blockAt i k) = (sb.file i).block k := by
  have hN := MYFS_MAX_NAMELEN_eq
  have hM := MYFS_MAX_BLOCKS_PER_FILE_eq
  refine int32_of_bytes (fun t ht => ?_) h1 h2
  have ha : blockAt i k + t = nameAt i + (1024 + 4 * k + t : Nat) := by
    rw [blockAt_eq, nameAt_eq]
    omega
  have hd : (((1024 + 4 * k + t : Nat) : Int) - MYFS_MAX_NAMELEN) / 4 = k := by omega
  have hm : (((1024 + 4 * k + t : Nat) : Int) - MYFS_MAX_NAMELEN) % 4 = t := by omega
  rw [ha, imageOf_slot sb i (by omega) (by omega), if_neg (by omega), if_pos (by omega), hd, hm,
    Int.toNat_natCast, Int.toNat_natCast]

theorem imageOf_nBlock (h : (sb.file i).nBlock < 2 ^ 64) :
    uint64 (imageOf sb) (nBlockAt i) = (sb.file i).nBlock := by
  have hN := MYFS_MAX_NAMELEN_eq
  have hM := MYFS_MAX_BLOCKS_PER_FILE_eq
  have hb : bytes (imageOf sb) (nBlockAt i) 8 = toLe 8 (sb.file i).nBlock := by
    refine bytes_of (length_toLe 8 _) fun t ht => ?_
    have ha : nBlockAt i + t = nameAt i + (525312 + t : Nat) := by
      rw [nBlockAt_eq, nameAt_eq]
      omega
    have ho : (((525312 + t : Nat) : Int) - MYFS_MAX_NAMELEN - 4 * MYFS_MAX_BLOCKS_PER_FILE).toNat =
      t := by
      omega
    rw [ha, imageOf_slot sb i (by omega) (by omega), if_neg (by omega), if_neg (by omega), ho]
  unfold uint64
  rw [hb, ofLe_toLe, show 256 ^ 8 = 2 ^ 64 by decide, Nat.mod_eq_of_lt h]

/-- The bytes of a superblock hold it. -/
theorem imageOf_holds (h : sb.Fits) : Holds (imageOf sb) sb := by
  have hR := NUM_BLOCKS_eq
  refine ⟨fun i hi => ⟨h.name i hi, imageOf_name (h.name i hi)⟩, fun i hi k hk =>
    imageOf_block hk (h.block i hi k hk).1 (h.block i hi k hk).2, fun i hi => imageOf_nBlock
      (h.nBlock i hi), fun j hj => ?_, ?_, ?_⟩
  · refine int32_of_bytes (fun t ht => ?_) (h.free j hj).1 (h.free j hj).2
    have hd : (freeBlockAt j + t - freeBlockAt 0) / 4 = j := by
      rw [freeBlockAt_eq, freeBlockAt_eq]
      omega
    have hm : (freeBlockAt j + t - freeBlockAt 0) % 4 = t := by
      rw [freeBlockAt_eq, freeBlockAt_eq]
      omega
    unfold imageOf
    rw [if_neg (by rw [freeBlockAt_eq, freeBlockAt_eq]; omega),
      if_pos (by rw [freeBlockAt_eq, rpAt_eq]; omega), hd, hm, Int.toNat_natCast, Int.toNat_natCast]
  · refine int32_of_bytes (fun t ht => ?_) (by omega) (by have := h.rp; omega)
    unfold imageOf
    rw [if_neg (by rw [freeBlockAt_eq, rpAt_eq]; omega), if_neg (by omega),
      if_pos (by rw [rpAt_eq, wpAt_eq]; omega), add_sub_cancel_left, Int.toNat_natCast]
  · refine int32_of_bytes (fun t ht => ?_) (by omega) (by have := h.wp; omega)
    unfold imageOf
    rw [if_neg (by rw [freeBlockAt_eq, wpAt_eq]; omega), if_neg (by rw [rpAt_eq, wpAt_eq]; omega),
      if_neg (by omega), if_pos (by rw [nameAt_eq, wpAt_eq]; omega), add_sub_cancel_left,
      Int.toNat_natCast]

end

/-! ## Refinement -/

section
variable {m : Memory} {sb : Superblock} {filename : CStr} {i k : Nat} (h : Holds m sb)
include h

theorem Holds.matchesAt_eq (filename : CStr) (hi : i < MYFS_MAX_FILES) :
    matchesAt m filename i = nameMatches filename (sb.file i) := by
  obtain ⟨-, hb⟩ := h.name i hi
  unfold CStr.strlen at hb
  rw [Bool.eq_iff_iff, nameMatches_iff, matchesAt, decide_eq_true_iff, CStr.strlen,
    strncmp_prefix _ filename.nul_free]
  rcases le_or_gt filename.bytes.length (sb.file i).name.bytes.length with hle | hlt
  · have ht : bytes m (nameAt i) filename.bytes.length =
        (sb.file i).name.bytes.take filename.bytes.length := by
      rw [← bytes_take (Nat.le_succ_of_le hle), hb, List.take_append_of_le_length hle]
    rw [ht]
    constructor
    · exact fun hp => hp.trans (List.take_prefix _ _)
    · exact fun hp => (List.prefix_iff_eq_take.1 hp) ▸ List.prefix_refl _
  · constructor
    · intro hp
      -- the terminator would be in the filename
      have he : filename.bytes = bytes m (nameAt i) filename.bytes.length :=
        hp.eq_of_length (by simp)
      have h0 : (0 : UInt8) ∈ bytes m (nameAt i) ((sb.file i).name.bytes.length + 1) := by simp [hb]
      rw [← bytes_take hlt] at h0
      exact absurd (he ▸ List.mem_of_mem_take h0) filename.nul_free
    · intro hp
      have := hp.length_le
      omega

theorem Holds.free_iff (hi : i < MYFS_MAX_FILES) :
    m (nameAt i) = 0 ↔ (sb.file i).name = .empty := by
  obtain ⟨-, hb⟩ := h.name i hi
  have hnul := (sb.file i).name.nul_free
  rw [CStr.eq_empty_iff]
  rw [bytes_succ] at hb
  cases hn : (sb.file i).name.bytes with
  | nil =>
    rw [hn] at hb
    simpa using (List.cons.inj hb).1
  | cons c cs =>
    rw [hn] at hb hnul
    have hc : m (nameAt i) = c := (List.cons.inj hb).1
    simp only [hc, reduceCtorEq, iff_false]
    exact fun h0 => hnul (h0 ▸ List.mem_cons_self)

/-- The two stores of an open in a free slot. -/
theorem Holds.rename (hl : filename.strlen < MYFS_MAX_NAMELEN) :
    Holds (put (put m (nameAt i) (filename.bytes ++ [0])) (nBlockAt i) (toLe 8 0))
      (sb.setFile i { sb.file i with name := filename, nBlock := 0 }) := by
  have hN := MYFS_MAX_NAMELEN_eq
  have hM := MYFS_MAX_BLOCKS_PER_FILE_eq
  have hF := NUM_BLOCKS_eq
  unfold CStr.strlen at hl
  have hlen : (filename.bytes ++ [(0 : UInt8)]).length = filename.bytes.length + 1 := by simp
  refine ⟨fun j hj => ?_, fun j hj l hlt => ?_, fun j hj => ?_, fun j hj => ?_, ?_, ?_⟩
  · rw [setFile_file]
    by_cases hji : j = i
    · subst hji
      simp only [↓reduceIte, CStr.strlen]
      refine ⟨hl, ?_⟩
      rw [bytes_put_apart (by simp only [Apart, length_toLe, nameAt_eq, nBlockAt_eq]; omega),
        ← hlen, bytes_put_same]
    · obtain ⟨h1, h2⟩ := h.name j hj
      simp only [if_neg hji]
      refine ⟨h1, ?_⟩
      rw [bytes_put_apart (by simp only [Apart, length_toLe, nameAt_eq, nBlockAt_eq]; omega),
        bytes_put_apart (by simp only [Apart, hlen, nameAt_eq]; omega), h2]
  · have hb : int32 (put (put m (nameAt i) (filename.bytes ++ [0])) (nBlockAt i) (toLe 8 0))
        (blockAt j l) = int32 m (blockAt j l) := by
      rw [int32_put_apart (by simp only [Apart, length_toLe, blockAt_eq, nBlockAt_eq]; omega),
        int32_put_apart (by simp only [Apart, hlen, blockAt_eq, nameAt_eq]; omega)]
    rw [hb, h.block j hj l hlt, setFile_file]
    split
    · rename_i hji
      rw [hji]
    · rfl
  · rw [setFile_file]
    by_cases hji : j = i
    · subst hji
      simp only [↓reduceIte]
      exact uint64_put_same.trans (Nat.zero_mod _)
    · simp only [if_neg hji]
      rw [uint64_put_apart (by simp only [Apart, length_toLe, nBlockAt_eq]; omega),
        uint64_put_apart (by simp only [Apart, hlen, nBlockAt_eq, nameAt_eq]; omega), h.nBlock j hj]
  · rw [int32_put_apart (by simp only [Apart, length_toLe, nBlockAt_eq, freeBlockAt_eq]; omega),
      int32_put_apart (by simp only [Apart, hlen, nameAt_eq, freeBlockAt_eq]; omega), h.free j hj]
    rfl
  · rw [int32_put_apart (by simp only [Apart, length_toLe, nBlockAt_eq, rpAt_eq]; omega),
      int32_put_apart (by simp only [Apart, hlen, nameAt_eq, rpAt_eq]; omega), h.rp]
    rfl
  · rw [int32_put_apart (by simp only [Apart, length_toLe, nBlockAt_eq, wpAt_eq]; omega),
      int32_put_apart (by simp only [Apart, hlen, nameAt_eq, wpAt_eq]; omega), h.wp]
    rfl

/-- The three stores of an allocation. -/
theorem Holds.alloc (hi : i < MYFS_MAX_FILES) (hk : k < MYFS_MAX_BLOCKS_PER_FILE)
    (hrp : sb.freeBlocksRp < NUM_BLOCKS) : Holds (allocImage m i k) (allocBlock sb i k) := by
  have hM := MYFS_MAX_BLOCKS_PER_FILE_eq
  have hN := MYFS_MAX_NAMELEN_eq
  have hF := NUM_BLOCKS_eq
  have hlt := Nat.mod_lt (sb.freeBlocksRp + 1) (show 0 < NUM_BLOCKS by omega)
  have hnext : (wrap32 (int32 m rpAt + 1)).tmod NUM_BLOCKS =
      ((sb.freeBlocksRp + 1) % NUM_BLOCKS : Nat) := by
    rw [h.rp, wrap32_of_range (by omega) (by omega)]
    rfl
  -- the entry is read after the index is stored, which is elsewhere
  have hfree : int32 (putInt32 m rpAt ((wrap32 (int32 m rpAt + 1)).tmod NUM_BLOCKS))
      (freeBlockAt (int32 m rpAt)) = sb.freeBlocks sb.freeBlocksRp := by
    rw [h.rp, int32_put_apart (by simp only [Apart, length_toLe, freeBlockAt_eq, rpAt_eq]; omega),
      h.free _ hrp]
  have hcount : uint64 (putInt32 (putInt32 m rpAt ((wrap32 (int32 m rpAt + 1)).tmod NUM_BLOCKS))
      (blockAt i k) (sb.freeBlocks sb.freeBlocksRp)) (nBlockAt i) = (sb.file i).nBlock := by
    rw [uint64_put_apart (by simp only [Apart, length_toLe, nBlockAt_eq, blockAt_eq]; omega),
      uint64_put_apart (by simp only [Apart, length_toLe, nBlockAt_eq, rpAt_eq]; omega),
      h.nBlock i hi]
  obtain ⟨hb1, hb2⟩ := int32_range m (freeBlockAt sb.freeBlocksRp)
  rw [h.free _ hrp] at hb1 hb2
  unfold allocImage
  dsimp only
  rw [hfree, hcount, hnext]
  refine ⟨fun j hj => ?_, fun j hj l hl => ?_, fun j hj => ?_, fun j hj => ?_, ?_, ?_⟩
  · obtain ⟨h1, h2⟩ := h.name j hj
    have hname : ((allocBlock sb i k).file j).name = (sb.file j).name := by
      rw [allocBlock_file]
      split
      · rename_i hji
        rw [hji, setBlock_name]
      · rfl
    rw [hname]
    refine ⟨h1, ?_⟩
    rw [bytes_put_apart (by simp only [Apart, length_toLe, nameAt_eq, nBlockAt_eq]; omega),
      bytes_put_apart (by simp only [Apart, length_toLe, nameAt_eq, blockAt_eq]; omega),
      bytes_put_apart (by simp only [Apart, length_toLe, nameAt_eq, rpAt_eq]; omega), h2]
  · rw [int32_put_apart (by simp only [Apart, length_toLe, blockAt_eq, nBlockAt_eq]; omega),
      allocBlock_file]
    by_cases hji : j = i ∧ l = k
    · obtain ⟨rfl, rfl⟩ := hji
      rw [int32_put_same hb1 hb2, if_pos rfl, setBlock_block, if_pos rfl]
    · rw [int32_put_apart (by simp only [Apart, length_toLe, blockAt_eq]; omega),
        int32_put_apart (by simp only [Apart, length_toLe, blockAt_eq, rpAt_eq]; omega),
        h.block j hj l hl]
      split
      · rename_i hj'
        subst hj'
        rw [setBlock_block, if_neg fun hlk => hji ⟨rfl, hlk⟩]
      · rfl
  · rw [allocBlock_file]
    by_cases hji : j = i
    · subst hji
      simp only [↓reduceIte]
      exact uint64_put_same
    · rw [if_neg hji, uint64_put_apart (by simp only [Apart, length_toLe, nBlockAt_eq]; omega),
        uint64_put_apart (by simp only [Apart, length_toLe, nBlockAt_eq, blockAt_eq]; omega),
        uint64_put_apart (by simp only [Apart, length_toLe, nBlockAt_eq, rpAt_eq]; omega),
          h.nBlock j hj]
  · rw [int32_put_apart (by simp only [Apart, length_toLe, nBlockAt_eq, freeBlockAt_eq]; omega),
      int32_put_apart (by simp only [Apart, length_toLe, blockAt_eq, freeBlockAt_eq]; omega),
      int32_put_apart (by simp only [Apart, length_toLe, rpAt_eq, freeBlockAt_eq]; omega),
        h.free j hj]
    rfl
  · rw [int32_put_apart (by simp only [Apart, length_toLe, nBlockAt_eq, rpAt_eq]; omega),
      int32_put_apart (by simp only [Apart, length_toLe, blockAt_eq, rpAt_eq]; omega),
      int32_put_same (by omega) (by omega)]
    rfl
  · rw [int32_put_apart (by simp only [Apart, length_toLe, nBlockAt_eq, wpAt_eq]; omega),
      int32_put_apart (by simp only [Apart, length_toLe, blockAt_eq, wpAt_eq]; omega),
      int32_put_apart (by simp only [Apart, length_toLe, rpAt_eq, wpAt_eq]; omega), h.wp]
    rfl

end

section
variable {m : Memory} {s s' : State}

/-- `myfs_open` on the bytes. -/
theorem openImage_refines (h : Holds m s.sb) {filename : CStr} {i : Nat}
    (ho : myfsOpen s filename = .ok (i, s')) : (openImage m filename).ret = i ∧
      (openImage m filename).opened = i ∧ Holds ((openImage m filename).mem m) s'.sb := by
  obtain ⟨hi, ⟨hm, hlow, rfl⟩ | ⟨hno, hn, hl, rfl⟩⟩ := myfsOpen_ok ho
  · obtain ⟨k, hk, hmk, hlow', hrun⟩ := openImage_found hi ((h.matchesAt_eq filename hi).trans hm)
    have hki : k = i := by
      rcases Nat.lt_trichotomy k i with hlt | rfl | hlt
      · rw [h.matchesAt_eq filename hk, hlow k hlt] at hmk
        cases hmk
      · rfl
      · have := hlow' i hlt
        rw [h.matchesAt_eq filename hi, hm] at this
        cases this
    rw [hrun, hki]
    exact ⟨rfl, rfl, h⟩
  · -- the first unnamed slot
    have hlow := myfsOpen_first ho hl hno
    have hrun : openImage m filename = _ := openImage_new
      (fun j hj => (h.matchesAt_eq filename hj).trans (hno j hj)) hi ((h.free_iff hi).2 hn)
      fun j hj h0 => hlow j hj ((h.free_iff (Nat.lt_trans hj hi)).1 h0)
    rw [hrun]
    exact ⟨rfl, rfl, h.rename hl⟩

/-- `myfs_get_lba` on the bytes. -/
theorem getLbaImage_refines (h : Holds m s.sb) {i offset : Nat} {write lba : Int}
    (hi : i < MYFS_MAX_FILES) (hrp : s.sb.freeBlocksRp < NUM_BLOCKS)
    (hg : myfsGetLba s i offset write = .ok (lba, s')) :
    (getLbaImage m i offset write).lba = .ok lba ∧
    Holds (getLbaImage m i offset write).mem s'.sb := by
  obtain ⟨k, hk, hw, hne, hlba, hcase⟩ := myfsGetLba_ok hg
  have hib : iBlockOf offset = k := hw
  have hend : ∀ {m' : Memory}, Holds m' s'.sb →
      lbaAt m' i (iBlockOf offset) offset = .ok lba := by
    intro m' h'
    unfold lbaAt
    rw [hib, h'.block i hi k hk, if_neg hne, hlba]
  rcases hcase with ⟨hact, rfl⟩ | ⟨hw0, hin, rfl⟩
  · rw [getLbaImage_taken fun ha => hact (by rw [← h.block i hi k hk, ← hib]; exact ha.2)]
    dsimp only
    exact ⟨hend h, h⟩
  · rw [getLbaImage_alloc ⟨hw0, by rw [hib, h.block i hi k hk, hin]⟩]
    have h' := h.alloc hi hk hrp
    rw [← hib] at h'
    dsimp only
    exact ⟨hend h', h'⟩

end

end Myfs

import Staut.Hook.Store
import Staut.Myfs.Proof.Ownership

/-!
# Where a file's bytes are

The sector that `myfs_get_lba` gives for an offset, the drive and the 32-bit sector on it that the
NVMe layer makes of it, and the striped address of the offset agree (`driveOf_locate`,
`cdw10Of_locate`). As no block is held twice (`Ring.block_inj`), writing a chunk of one file changes
just its bytes (`content_store`).
-/

set_option autoImplicit false

namespace Hook

open CSem Run Myfs Nvme Cyclic Stripe

variable {cfg : Cfg}

/-! ## Sectors -/

theorem addr_lt {n : Nat} (hn : n < NUM_BLOCKS) (x : Nat) : addr n x < 1503238553600 := by
  have h1 := NUM_BLOCKS_eq
  unfold addr
  rw [MYFS_BLOCK_SIZE_eq, Int.toNat_natCast]
  omega

theorem lbaOf_eq {n : Nat} (hn : n < NUM_BLOCKS) (x : Nat) :
    lbaOf n x = ((addr n x / 512 : Nat) : Int) := by
  have hlt := addr_lt hn x
  have hN := NUM_BLOCKS_eq
  have hu : u64 (n : Int) = n := by
    have := u64_of_range (Int.natCast_nonneg n) (by omega)
    omega
  have ha : n * MYFS_BLOCK_SIZE + x % MYFS_BLOCK_SIZE = addr n x := by
    unfold addr
    rw [Int.toNat_natCast]
  unfold lbaOf
  rw [hu, ha, Nat.mod_eq_of_lt (by omega), wrap64_of_range (by omega) (by omega)]

theorem driveOf_locate {n : Nat} (hn : n < NUM_BLOCKS) (x : Nat) :
    (driveOf cfg (lbaOf n x)).toNat = (locate cfg.ND BLKSZ (addr n x)).1 := by
  have hu : 512 * RAID_FACTOR = BLKSZ := rfl
  unfold driveOf locate
  rw [lbaOf_eq hn x, ← Int.ofNat_tdiv, ← Int.ofNat_tmod, Int.toNat_natCast, Nat.div_div_eq_div_mul,
    hu]

theorem cdw10Of_locate {n : Nat} (hn : n < NUM_BLOCKS) {x : Nat} (hx : x % 512 = 0) :
    512 * cdw10Of cfg (lbaOf n x) = (locate cfg.ND BLKSZ (addr n x)).2 := by
  have hlt := addr_lt hn x
  have hal : addr n x % 512 = 0 := by
    unfold addr
    rw [MYFS_BLOCK_SIZE_eq]
    omega
  generalize hL : addr n x = a at *
  have hle : a / 512 / 8 / cfg.ND ≤ a / 512 / 8 := Nat.div_le_self _ _
  have hcdw : cdw10Of cfg (lbaOf n x) = a / 512 / 8 / cfg.ND * 8 + a / 512 % 8 := by
    have hi : (((((a / 512 : Nat) : Int).tdiv RAID_FACTOR).tdiv cfg.ND) * RAID_FACTOR +
        ((a / 512 : Nat) : Int).tmod RAID_FACTOR) =
        ((a / 512 / 8 / cfg.ND * 8 + a / 512 % 8 : Nat) : Int) := by
      unfold RAID_FACTOR
      simp only [← Int.ofNat_tdiv, ← Int.ofNat_tmod]
      push_cast
      rfl
    unfold cdw10Of
    rw [lbaOf_eq hn x, hL, hi]
    omega
  rw [hcdw]
  have hq : a / 4096 / cfg.ND = a / 512 / 8 / cfg.ND := by rw [Nat.div_div_eq_div_mul a 512 8]
  show 512 * _ = a / 4096 / cfg.ND * 4096 + a % 4096
  rw [hq]
  omega

/-! ## Contents -/

/-- A chunk of sectors that does not cross a stripe unit. -/
structure Chunk (x n : Nat) : Prop where
  sector : x % 512 = 0
  page : x % BLKSZ + n ≤ BLKSZ

theorem addr_add {b : Int} {x k : Nat} (h : x % BLKSZ + k < BLKSZ) :
    addr b (x + k) = addr b x + k ∧ (x + k) / MYFS_BLOCK_SIZE = x / MYFS_BLOCK_SIZE := by
  unfold addr
  simp only [MYFS_BLOCK_SIZE_eq, BLKSZ] at *
  omega

theorem addr_mod (b : Int) (x : Nat) : addr b x % BLKSZ = x % BLKSZ := by
  unfold addr
  simp only [MYFS_BLOCK_SIZE_eq, BLKSZ]
  omega

/-- The address tells the block and the offset in it. -/
theorem addr_inj {n l x y : Nat} (h : addr n x = addr l y) :
    n = l ∧ x % MYFS_BLOCK_SIZE = y % MYFS_BLOCK_SIZE := by
  unfold addr at h
  rw [Int.toNat_natCast, Int.toNat_natCast] at h
  simp only [MYFS_BLOCK_SIZE_eq] at *
  omega

theorem BLKSZ_pos : 0 < BLKSZ := by decide

theorem content_active {sb : Superblock} {disk : Nat → Nat → UInt8} {i x : Nat}
    (h : (sb.file i).block (x / MYFS_BLOCK_SIZE) ≠ INACTIVE_BLOCK) : content cfg sb disk i x =
      some (view cfg.ND BLKSZ disk (addr ((sb.file i).block (x / MYFS_BLOCK_SIZE)) x)) := if_neg h

theorem content_none {sb : Superblock} {disk : Nat → Nat → UInt8} {i x : Nat} :
    content cfg sb disk i x = none ↔ (sb.file i).block (x / MYFS_BLOCK_SIZE) = INACTIVE_BLOCK := by
  unfold content
  dsimp only
  split
  · rename_i h
    exact ⟨fun _ => h, fun _ => rfl⟩
  · rename_i h
    exact ⟨nofun, fun he => absurd he h⟩

section
variable {sb : Superblock} {i x : Nat} (hR : Ring sb) (hi : i < MYFS_MAX_FILES)
  (hk : x / MYFS_BLOCK_SIZE < MYFS_MAX_BLOCKS_PER_FILE)
  (ha : (sb.file i).block (x / MYFS_BLOCK_SIZE) ≠ INACTIVE_BLOCK)
include hR hi hk ha

/-- A chunk read from its drive. -/
theorem content_load {n : Nat} (hc : Chunk x n) (disk : Nat → Nat → UInt8) {lba : Int}
    (hl : lba = lbaOf ((sb.file i).block (x / MYFS_BLOCK_SIZE)) x) {k : Nat} (hkn : k < n) :
    content cfg sb disk i (x + k) =
      some ((load (disk (driveOf cfg lba).toNat) (512 * cdw10Of cfg lba) n).getD k 0) := by
  obtain ⟨b, hb, he⟩ := hR.block_range hi hk ha
  have hpage := hc.page
  obtain ⟨h1, h2⟩ := addr_add (b := (b : Int)) (x := x) (k := k) (by omega)
  rw [content_active (by rw [h2]; exact ha), h2, he, h1, hl, he, driveOf_locate hb,
    cdw10Of_locate hb hc.sector, load_view _ (by rw [addr_mod]; exact hpage), getD_load hkn]

/-- A chunk written to its drive. -/
theorem content_store {bs : List UInt8} (hc : Chunk x bs.length) (disk : Nat → Nat → UInt8)
    {lba : Int} (hl : lba = lbaOf ((sb.file i).block (x / MYFS_BLOCK_SIZE)) x) {j y : Nat}
    (hj : j < MYFS_MAX_FILES) (hy : y / MYFS_BLOCK_SIZE < MYFS_MAX_BLOCKS_PER_FILE) :
    content cfg sb (Function.update disk (driveOf cfg lba).toNat
      (store (disk (driveOf cfg lba).toNat) (512 * cdw10Of cfg lba) bs)) j y =
      if j = i ∧ x ≤ y ∧ y < x + bs.length then some (bs.getD (y - x) 0)
      else content cfg sb disk j y := by
  obtain ⟨b, hb, he⟩ := hR.block_range hi hk ha
  have hpage := hc.page
  rw [hl, he, driveOf_locate hb, cdw10Of_locate hb hc.sector]
  have hview := view_store (n := cfg.ND) BLKSZ_pos disk
    (show addr b x % BLKSZ + bs.length ≤ BLKSZ by rw [addr_mod]; exact hpage)
  by_cases hin : j = i ∧ x ≤ y ∧ y < x + bs.length
  · rw [if_pos hin]
    obtain ⟨rfl, hle, hlt⟩ := hin
    obtain ⟨k, rfl⟩ := Nat.exists_eq_add_of_le hle
    have hk' : k < bs.length := by omega
    obtain ⟨h1, h2⟩ := addr_add (b := (b : Int)) (x := x) (k := k) (by omega)
    rw [content_active (by rw [h2]; exact ha), h2, he, hview, h1, store_inside hk',
      Nat.add_sub_cancel_left]
  · rw [if_neg hin]
    by_cases hact : (sb.file j).block (y / MYFS_BLOCK_SIZE) = INACTIVE_BLOCK
    · rw [content_none.2 hact, content_none.2 hact]
    · obtain ⟨l, hl', hel⟩ := hR.block_range hj hy hact
      rw [content_active hact, content_active hact, hview, hel]
      congr 1
      refine store_outside ?_
      -- an address of the chunk is in its block, and the block has one owner
      apply Classical.byContradiction
      intro hno
      obtain ⟨k, hk'⟩ : ∃ k, addr l y = addr b x + k := Nat.exists_eq_add_of_le (by omega)
      obtain ⟨h1, h2⟩ := addr_add (b := (b : Int)) (x := x) (k := k) (by omega)
      obtain ⟨h3, h4⟩ := addr_inj (hk'.trans h1.symm)
      obtain ⟨h5, h6⟩ := hR.block_inj hj hy hi hk hact (by rw [hel, he, h3])
      have h7 : y = x + k := by
        rw [← Nat.div_add_mod y MYFS_BLOCK_SIZE, h4, h6, ← h2, Nat.div_add_mod]
      exact hin ⟨h5, by omega, by omega⟩

end

/-- An allocation changes no byte that there is. -/
theorem content_alloc {sb : Superblock} {disk : Nat → Nat → UInt8} {i k : Nat}
    (hf : (sb.file i).block k = INACTIVE_BLOCK) {j x : Nat} {b : UInt8}
    (h : content cfg sb disk j x = some b) : content cfg (allocBlock sb i k) disk j x = some b := by
  have ha : (sb.file j).block (x / MYFS_BLOCK_SIZE) ≠ INACTIVE_BLOCK := fun he => by
    rw [content_none.2 he] at h
    cases h
  have hb : ((allocBlock sb i k).file j).block (x / MYFS_BLOCK_SIZE) =
      (sb.file j).block (x / MYFS_BLOCK_SIZE) := by
    rw [allocBlock_file]
    split
    · rename_i hj
      have hne : x / MYFS_BLOCK_SIZE ≠ k := fun he => ha (by rw [hj, he]; exact hf)
      simp only [setBlock_block, hne, ↓reduceIte, hj]
    · rfl
  unfold content at h ⊢
  rw [hb]
  exact h

end Hook

import Staut.Hook.Drives
import Staut.Hook.Proof.Layout

/-!
# Places of bytes on the drives

`place_eq`: the place of a byte from its 64-bit address, for any block number. Bytes of one 4 KB
unit follow each other on one drive (`place_add`), and for block numbers below `NUM_BLOCKS` the
place tells block and offset (`place_inj`).
-/

set_option autoImplicit false

namespace Hook

open CSem Run Myfs Nvme Stripe

/-- The address that `myfs_get_lba` computes, before it is divided into sectors. -/
def blockAddr (b : Int) (o : Nat) : Nat := (u64 b * MYFS_BLOCK_SIZE + o % MYFS_BLOCK_SIZE) % 2 ^ 64

variable {cfg : Cfg} {b : Int} {o k : Nat}

theorem lbaOf_blockAddr (b : Int) (o : Nat) : lbaOf b o = ((blockAddr b o / 512 : Nat) : Int) := by
  have hlt : blockAddr b o < 2 ^ 64 := Nat.mod_lt _ (by decide)
  show wrap64 ((blockAddr b o / 512 : Nat) : Int) = _
  exact wrap64_of_range (by omega) (by omega)

theorem blockAddr_mod (b : Int) (o : Nat) : blockAddr b o % 4096 = o % 4096 := by
  unfold blockAddr
  rw [MYFS_BLOCK_SIZE_eq]
  omega

theorem blockAddr_add (h : o % 4096 + k < 4096) : blockAddr b (o + k) = blockAddr b o + k := by
  unfold blockAddr
  rw [MYFS_BLOCK_SIZE_eq]
  omega

theorem cdw10Of_nat (cfg : Cfg) (x : Nat) :
    cdw10Of cfg x = (x / 8 / cfg.ND * 8 + x % 8) % 2 ^ 32 := by
  have hi : ((((x : Int).tdiv RAID_FACTOR).tdiv cfg.ND) * RAID_FACTOR + (x : Int).tmod
    RAID_FACTOR) =
      ((x / 8 / cfg.ND * 8 + x % 8 : Nat) : Int) := by
    unfold RAID_FACTOR
    simp only [← Int.ofNat_tdiv, ← Int.ofNat_tmod]
    push_cast
    rfl
  unfold cdw10Of
  rw [hi]
  omega

theorem driveOf_nat (cfg : Cfg) (x : Nat) : (driveOf cfg x).toNat = x / 8 % cfg.ND := by
  unfold driveOf RAID_FACTOR
  rw [← Int.ofNat_tdiv, ← Int.ofNat_tmod, Int.toNat_natCast]

theorem place_eq (cfg : Cfg) (b : Int) (o : Nat) : place cfg b o =
    (blockAddr b o / 4096 % cfg.ND,
      blockAddr b o / 4096 / cfg.ND % 2 ^ 29 * 4096 + blockAddr b o % 4096) := by
  have hmod := blockAddr_mod b o
  have hdiv : blockAddr b o / 512 / 8 = blockAddr b o / 4096 := Nat.div_div_eq_div_mul _ _ _
  unfold place
  rw [lbaOf_blockAddr, driveOf_nat, cdw10Of_nat, hdiv]
  generalize blockAddr b o / 4096 / cfg.ND = u
  refine Prod.ext rfl ?_
  dsimp only
  omega

/-- Bytes of one unit follow each other. -/
theorem place_add (h : o % 4096 + k < 4096) :
    place cfg b (o + k) = ((place cfg b o).1, (place cfg b o).2 + k) := by
  have hmod := blockAddr_mod b o
  have hunit : (blockAddr b o + k) / 4096 = blockAddr b o / 4096 := by omega
  rw [place_eq, place_eq, blockAddr_add h, hunit]
  refine Prod.ext rfl ?_
  show _ + (blockAddr b o + k) % 4096 = _ + blockAddr b o % 4096 + k
  omega

/-- The place of a byte in an allocated block is its address on the striped device. -/
theorem place_locate {n : Nat} (hn : n < NUM_BLOCKS) (o : Nat) :
    place cfg n o = locate cfg.ND BLKSZ (addr n o) := by
  have hN := NUM_BLOCKS_eq
  have hlt := addr_lt hn o
  have hu : u64 (n : Int) = n := by
    have := u64_of_range (Int.natCast_nonneg n) (by omega)
    omega
  have ha : blockAddr n o = addr n o := by
    unfold blockAddr
    rw [hu, show n * MYFS_BLOCK_SIZE + o % MYFS_BLOCK_SIZE = addr n o by
      unfold addr
      rw [Int.toNat_natCast]]
    exact Nat.mod_eq_of_lt (by omega)
  rw [place_eq, ha]
  have hle : addr n o / 4096 / cfg.ND ≤ addr n o / 4096 := Nat.div_le_self _ _
  rw [Nat.mod_eq_of_lt (show addr n o / 4096 / cfg.ND < 2 ^ 29 by omega)]
  rfl

/-- Two places in allocated blocks. -/
theorem place_inj {n l x y : Nat} (hn : n < NUM_BLOCKS) (hl : l < NUM_BLOCKS)
    (h : place cfg n x = place cfg l y) : n = l ∧ x % MYFS_BLOCK_SIZE = y % MYFS_BLOCK_SIZE := by
  rw [place_locate hn, place_locate hl] at h
  exact addr_inj (locate_inj BLKSZ_pos h)

end Hook

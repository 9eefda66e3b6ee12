import Staut.Hook.Proof.Place

/-!
# Address translation

From a slot and an offset to a sector of a drive: `myfs_get_lba`, then `did` and `CDW10` of
`nvme_read_req` and `nvme_write_req`. For allocated blocks the two values determine the sector
(`lba_inverse`), which determines the block and the offset in it (`blockSector_inj`); so the map is
injective as long as no block is held twice (`translation_injective`). The largest sector of the
file store is below `2 ^ 32`, so nothing is lost in `CDW10` (`cdw10_fits`).
-/

set_option autoImplicit false

namespace Hook

open CSem Myfs Nvme

/-- No block number of the file store is held by two pairs of slot and index. -/
def HeldOnce (sb : Superblock) : Prop :=
  ∀ i < MYFS_MAX_FILES, ∀ j < MYFS_MAX_FILES, ∀ k < MYFS_MAX_BLOCKS_PER_FILE,
    ∀ l < MYFS_MAX_BLOCKS_PER_FILE, ∀ n : Nat, n < NUM_BLOCKS - 1 → (sb.file i).block k = n →
    (sb.file j).block l = n → i = j ∧ k = l

/-- The sector at offset `o` of slot `i` is in the allocated block `n`. -/
structure Sector (sb : Superblock) (i o n : Nat) : Prop where
  slot : i < MYFS_MAX_FILES
  index : o / MYFS_BLOCK_SIZE < MYFS_MAX_BLOCKS_PER_FILE
  aligned : o % 512 = 0
  block : (sb.file i).block (o / MYFS_BLOCK_SIZE) = n
  range : n < NUM_BLOCKS - 1

/-- The drive and the `CDW10` of a request for offset `o` of slot `i`. -/
def deviceSector (cfg : Cfg) (s : State) (i o : Nat) (write : Int) : Except Fault (Int × Nat) :=
  (myfsGetLba s i o write).map fun p => (driveOf cfg p.1, cdw10Of cfg p.1)

/-- The value stored to `CDW10`, before it is cut to 32 bits. -/
def cdw10Value (cfg : Cfg) (lba : Int) : Int :=
  (lba.tdiv RAID_FACTOR).tdiv cfg.ND * RAID_FACTOR + lba.tmod RAID_FACTOR

/-- The sector of offset `o` in block `n`. -/
def blockSector (n o : Nat) : Nat := n * 4096 + o % MYFS_BLOCK_SIZE / 512

theorem lbaOf_blockSector {n : Nat} (hn : n < NUM_BLOCKS) (o : Nat) :
    lbaOf n o = (blockSector n o : Nat) := by
  have hB := MYFS_BLOCK_SIZE_eq
  rw [lbaOf_eq hn o]
  unfold blockSector addr
  rw [Int.toNat_natCast, hB]
  congr 1
  omega

theorem blockSector_lt {n : Nat} (hn : n < NUM_BLOCKS - 1) (o : Nat) :
    blockSector n o < 2 ^ 32 := by
  have hB := MYFS_BLOCK_SIZE_eq
  have hN := NUM_BLOCKS_eq
  unfold blockSector
  rw [hB]
  omega

theorem blockSector_inj {n m o p : Nat} (ho : o % 512 = 0) (hp : p % 512 = 0)
    (h : blockSector n o = blockSector m p) :
    n = m ∧ o % MYFS_BLOCK_SIZE = p % MYFS_BLOCK_SIZE := by
  have hB := MYFS_BLOCK_SIZE_eq
  unfold blockSector at h
  rw [hB] at h ⊢
  omega

/-- The 8 sectors of an aligned 4 KB unit are numbered from a multiple of 8 on. -/
theorem blockSector_unit {n o k : Nat} (ho : o % 4096 = 0) (hk : k < 8) :
    blockSector n (o + 512 * k) = blockSector n o + k ∧ blockSector n o % 8 = 0 ∧
      (o + 512 * k) / MYFS_BLOCK_SIZE = o / MYFS_BLOCK_SIZE := by
  have hB := MYFS_BLOCK_SIZE_eq
  unfold blockSector
  rw [hB]
  omega

section
variable {cfg : Cfg} (hND : 0 < cfg.ND)
include hND

theorem driveOf_range (x : Nat) : 0 ≤ driveOf cfg x ∧ driveOf cfg x < cfg.ND ∧
    driveOf cfg x = (x / 8 % cfg.ND : Nat) := by
  have hlt := Nat.mod_lt (x / 8) hND
  have he : driveOf cfg x = ((x / 8 % cfg.ND : Nat) : Int) := by
    unfold driveOf RAID_FACTOR
    rw [← Int.ofNat_tdiv, ← Int.ofNat_tmod]
  omega

omit hND in
theorem cdw10Of_small {x : Nat} (hx : x < 2 ^ 32) : cdw10Of cfg x = x / 8 / cfg.ND * 8 + x % 8 := by
  have hle : x / 8 / cfg.ND ≤ x / 8 := Nat.div_le_self _ _
  rw [cdw10Of_nat]
  exact Nat.mod_eq_of_lt (by omega)

omit hND in
theorem cdw10Value_nat (x : Nat) : cdw10Value cfg x = (x / 8 / cfg.ND * 8 + x % 8 : Nat) := by
  unfold cdw10Value RAID_FACTOR
  rw [← Int.ofNat_tdiv, ← Int.ofNat_tdiv, ← Int.ofNat_tmod]
  push_cast
  rfl

omit hND in
theorem cdw10_fits {x : Nat} (hx : x < 2 ^ 32) : cdw10Value cfg x = cdw10Of cfg x := by
  rw [cdw10Value_nat, cdw10Of_small hx]

/-- The sector from the drive and the sector there. -/
theorem lba_inverse {x : Nat} (hx : x < 2 ^ 32) :
    (x : Int) = ((cdw10Of cfg x / 8 : Nat) * cfg.ND + driveOf cfg x) * 8 +
      (cdw10Of cfg x % 8 : Nat) := by
  have hq : (x / 8 / cfg.ND * 8 + x % 8) / 8 = x / 8 / cfg.ND := by omega
  have hr : (x / 8 / cfg.ND * 8 + x % 8) % 8 = x % 8 := by omega
  have hu : ((x / 8 / cfg.ND : Nat) : Int) * cfg.ND + (x / 8 % cfg.ND : Nat) = (x / 8 : Nat) := by
    exact_mod_cast Nat.div_add_mod' (x / 8) cfg.ND
  rw [(driveOf_range hND x).2.2, cdw10Of_small hx, hq, hr, hu]
  omega

end

/-! ## The map -/

section
variable {cfg : Cfg} {s : State} {i o n : Nat} {w : Int}

theorem Sector.getLba (h : Sector s.sb i o n) (w : Int) :
    myfsGetLba s i o w = .ok ((blockSector n o : Nat), s) := by
  have ha : (s.sb.file i).block (o / MYFS_BLOCK_SIZE) ≠ INACTIVE_BLOCK := by
    rw [h.block]
    unfold INACTIVE_BLOCK
    omega
  have hn := h.range
  rw [myfsGetLba_active w h.index ha, h.block, lbaOf_blockSector (by omega)]

theorem Sector.device (h : Sector s.sb i o n) (w : Int) : deviceSector cfg s i o w =
    .ok (driveOf cfg (blockSector n o : Nat), cdw10Of cfg (blockSector n o : Nat)) := by
  unfold deviceSector
  rw [h.getLba w]
  rfl

/-- **Address translation** of the allocated sectors: injective, with the stated inverse, unit by
unit, and within 32 bits. -/
theorem translation_injective (hND : 0 < cfg.ND) (hone : HeldOnce s.sb) :
    (∀ i o n, Sector s.sb i o n → ∀ w, ∃ lba : Int, ∃ did cdw10 : Nat,
      myfsGetLba s i o w = .ok (lba, s) ∧ deviceSector cfg s i o w = .ok ((did : Int), cdw10) ∧
      did < cfg.ND ∧ lba = (cdw10 / 8 * cfg.ND + did) * 8 + cdw10 % 8 ∧
      cdw10Value cfg lba = cdw10 ∧ cdw10 < 2 ^ 32 ∧
      (o % 4096 = 0 → cdw10 % 8 = 0 ∧
        ∀ k < 8, deviceSector cfg s i (o + 512 * k) w = .ok ((did : Int), cdw10 + k))) ∧
    ∀ i o n j p m w, Sector s.sb i o n → Sector s.sb j p m →
      deviceSector cfg s i o w = deviceSector cfg s j p w → i = j ∧ o = p := by
  refine ⟨fun i o n h w => ?_, fun i o n j p m w ha hb he => ?_⟩
  · have hlt := blockSector_lt h.range o
    obtain ⟨-, hd, hdid⟩ := driveOf_range hND (blockSector n o)
    have hinv := lba_inverse hND hlt
    refine ⟨_, blockSector n o / 8 % cfg.ND, _, h.getLba w, by rw [h.device w, hdid],
      Nat.mod_lt _ hND, ?_, cdw10_fits hlt, Nat.mod_lt _ (by decide), fun ho => ?_⟩
    · rw [hdid] at hinv
      exact_mod_cast hinv
    · have h8 := (blockSector_unit (n := n) ho (show 0 < 8 by decide)).2.1
      refine ⟨by rw [cdw10Of_small hlt]; omega, fun k hk => ?_⟩
      obtain ⟨hadd, -, hidx⟩ := blockSector_unit (n := n) ho hk
      have hk' : Sector s.sb i (o + 512 * k) n :=
        ⟨h.slot, by rw [hidx]; exact h.index, by have := h.aligned; omega,
          by rw [hidx]; exact h.block, h.range⟩
      have hlt' := blockSector_lt h.range (o + 512 * k)
      have hunit : (blockSector n o + k) / 8 = blockSector n o / 8 := by omega
      rw [hk'.device w, (driveOf_range hND _).2.2, cdw10Of_small hlt', cdw10Of_small hlt,
        hadd, hunit]
      congr 2
      omega
  · have hlta := blockSector_lt ha.range o
    have hltb := blockSector_lt hb.range p
    rw [ha.device w, hb.device w] at he
    injection he with he
    injection he with hdid hcdw
    -- both sectors have the same inverse
    have hsec : ((blockSector n o : Nat) : Int) = (blockSector m p : Nat) := by
      rw [lba_inverse hND hlta, hdid, hcdw, ← lba_inverse hND hltb]
    obtain ⟨rfl, hmod⟩ := blockSector_inj ha.aligned hb.aligned (Int.ofNat_inj.1 hsec)
    obtain ⟨rfl, hidx⟩ :=
      hone i ha.slot j hb.slot _ ha.index _ hb.index n ha.range ha.block hb.block
    refine ⟨rfl, ?_⟩
    rw [← Nat.div_add_mod o MYFS_BLOCK_SIZE, hidx, hmod, Nat.div_add_mod]

end

/-- A store in which slot 0 holds block 5, and nothing else is allocated. -/
def oneBlock : State :=
  ⟨⟨0, fun _ => 0, 0, 0, fun i =>
    ⟨.empty, fun k => if i = 0 ∧ k = 0 then 5 else INACTIVE_BLOCK, 1⟩⟩, fun _ => ⟨0, 0⟩⟩

theorem oneBlock_block {i k n : Nat} (h : (oneBlock.sb.file i).block k = n) : i = 0 ∧ k = 0 := by
  by_cases hz : i = 0 ∧ k = 0
  · exact hz
  · have hb : (oneBlock.sb.file i).block k = -1 := if_neg hz
    omega

theorem oneBlock_sector {o : Nat} (h : o % 512 = 0) (hlt : o < 8192) :
    Sector oneBlock.sb 0 o 5 := by
  have hB := MYFS_BLOCK_SIZE_eq
  have hN := NUM_BLOCKS_eq
  have hM := MYFS_MAX_BLOCKS_PER_FILE_eq
  have hk : o / MYFS_BLOCK_SIZE = 0 := Nat.div_eq_of_lt (by omega)
  exact ⟨by rw [MYFS_MAX_FILES_eq]; decide, by rw [hk]; omega, h, by rw [hk]; rfl, by omega⟩

/-- With two drives the first two sectors of the block are told apart. -/
theorem translation_injective_two :
    deviceSector ⟨1, 2, 1, 1⟩ oneBlock 0 0 0 ≠ deviceSector ⟨1, 2, 1, 1⟩ oneBlock 0 512 0 := by
  have hND : 0 < (⟨1, 2, 1, 1⟩ : Cfg).ND := by decide
  have hone : HeldOnce oneBlock.sb := fun i _ j _ k _ l _ n _ h1 h2 => by
    obtain ⟨rfl, rfl⟩ := oneBlock_block h1
    obtain ⟨rfl, rfl⟩ := oneBlock_block h2
    exact ⟨rfl, rfl⟩
  intro he
  have := (translation_injective hND hone).2 0 0 5 0 512 5 0
    (oneBlock_sector (by decide) (by decide))
    (oneBlock_sector (by decide) (by decide)) he
  omega

end Hook

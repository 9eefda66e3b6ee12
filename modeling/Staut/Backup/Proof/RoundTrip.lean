import Staut.Backup.Proof.Append
import Staut.Backup.Proof.Parse

/-!
# Restore undoes backup

`restore_undoes_backup`: `abt_restore` writes back what `abt_backup` has read, whatever the order in
which the drives execute the commands of either program.
-/

set_option autoImplicit false

namespace Backup

open CSem Run Myfs Nvme

/-- **Restore undoes backup**, in a build whose request ids fit an `int`: both programs can come to
their end from every state they reach, and when they have, every byte of a held block is as it was
at the backup and every other byte as it was before the restore. The backup file may go on after the
image. -/
theorem restore_undoes_backup {cfg : Cfg} (hND : 0 < cfg.ND) (hcore : 0 < cfg.N_CORE)
    (hfit : cfg.ND * cfg.N_CORE * QD ≤ 2 ^ 31) {sb : Superblock} (hg : NoGap sb) (buf buf' : Nat)
    (D D' : Nat → Nat → UInt8) :
    CanFinish (appendNext sb buf) (backup cfg sb buf D) ∧
      ∀ s, (backup cfg sb buf D).Reach s → s.Finished (appendNext sb buf) → ∀ rest,
        CanFinish (parseNext sb buf') (restore cfg sb buf' (s.tool.ssd ++ rest) D') ∧
          ∀ t, (restore cfg sb buf' (s.tool.ssd ++ rest) D').Reach t →
            t.Finished (parseNext sb buf') → ∀ did x, (Held cfg sb did x → t.disk did x = D did x) ∧
              (¬ Held cfg sb did x → t.disk did x = D' did x) := by
  refine ⟨backup_canFinish hg hfit hND hcore, fun s hs hfin rest => ?_⟩
  rw [backup_finished hg hfit hND hcore hs hfin]
  exact ⟨restore_canFinish hg hfit hND hcore rest, fun t ht hend =>
    restore_finished hg hfit hND hcore ht hend⟩

/-! ## One block -/

theorem nul_not_mem_a : (0 : UInt8) ∉ [97] := by decide

/-- One file, with block 1. -/
def oneBlock : Superblock where
  magic := 0
  freeBlocks _ := INACTIVE_BLOCK
  freeBlocksRp := 0
  freeBlocksWp := 0
  file i := ⟨if i = 0 then ⟨[97], nul_not_mem_a⟩ else .empty, fun k => if k = 0 then 1
    else INACTIVE_BLOCK, if i = 0 then 1 else 0⟩

theorem oneBlock_noGap : NoGap oneBlock := by
  intro i _ hn k
  have hi : i = 0 := by
    apply Classical.byContradiction
    intro hi
    exact hn (if_neg hi)
  have hM := MYFS_MAX_BLOCKS_PER_FILE_eq
  by_cases hk : k = 0
  · simp [oneBlock, hi, hk, hM, INACTIVE_BLOCK]
  · simp [oneBlock, hi, hk]

theorem reach_init (cfg : Cfg) (next : Tool → Eff) (ssd : List UInt8) (disk : Nat → Nat → UInt8) :
    ∃ s, (client cfg next ssd disk).Reach s :=
  ⟨⟨⟨.main, 0, 0, 0, 0, fun _ => 0, ssd⟩, fun _ => Queue.new 1 default, fun _ => 0, disk, none⟩,
    .init ⟨⟨0, 0, 0, fun _ => 0, rfl⟩, fun _ => ⟨default, rfl⟩, rfl, rfl⟩⟩

theorem oneBlock_addr (o : Nat) : Hook.blockAddr 1 o = 2097152 + o % 2097152 := by
  have hu : u64 1 = 1 := by decide
  unfold Hook.blockAddr
  rw [hu, MYFS_BLOCK_SIZE_eq]
  omega

/-- Block 1 on two drives: its first byte is byte 1048576 of drive 0. -/
theorem oneBlock_held : Held ⟨1, 2, 1, 1⟩ oneBlock 0 1048576 ∧
    ¬ Held ⟨1, 2, 1, 1⟩ oneBlock 0 0 := by
  have hB := MYFS_BLOCK_SIZE_eq
  constructor
  · have hF := MYFS_MAX_FILES_eq
    have hM := MYFS_MAX_BLOCKS_PER_FILE_eq
    refine ⟨0, by omega, by decide, 0, by omega, by decide, 0, by omega, ?_⟩
    show Hook.place _ 1 0 = _
    rw [Hook.place_eq, oneBlock_addr]
    decide
  · intro ⟨i, hi, hn, k, hk, hact, o, ho, hp⟩
    have hb : (oneBlock.file i).block k = 1 := by
      by_cases h0 : k = 0
      · exact if_pos h0
      · exact absurd (if_neg h0) hact
    rw [hb, Hook.place_eq, oneBlock_addr, Prod.mk.injEq] at hp
    dsimp only at hp
    omega

/-- With two drives: a byte of the block is restored, and a byte before it is not changed. -/
theorem restore_undoes_backup_oneBlock : ∃ s t,
    (backup ⟨1, 2, 1, 1⟩ oneBlock 0 fun _ _ => 7).Reach s ∧
      (restore ⟨1, 2, 1, 1⟩ oneBlock 0 (s.tool.ssd ++ []) fun _ _ => 0).Reach t ∧
      t.disk 0 1048576 = 7 ∧ t.disk 0 0 = 0 := by
  let cfg : Cfg := ⟨1, 2, 1, 1⟩
  have hfit : cfg.ND * cfg.N_CORE * QD ≤ 2 ^ 31 := by simp [cfg, QD_eq]
  obtain ⟨hfin, hback⟩ := @restore_undoes_backup cfg (by decide) (by decide) hfit oneBlock
    oneBlock_noGap 0 0
    (fun _ _ => 7) fun _ _ => 0
  obtain ⟨s0, hs0⟩ := reach_init cfg (appendNext oneBlock 0) [] fun _ _ => 7
  obtain ⟨s, hs, hend⟩ := hfin s0 hs0
  have hs := LTS.Reach.steps hs0 hs
  obtain ⟨hfin', hdisk⟩ := hback s hs hend []
  obtain ⟨t0, ht0⟩ := reach_init cfg (parseNext oneBlock 0) (s.tool.ssd ++ []) fun _ _ => 0
  obtain ⟨t, ht, hend'⟩ := hfin' t0 ht0
  have ht := LTS.Reach.steps ht0 ht
  exact ⟨s, t, hs, ht, (hdisk t ht hend' 0 1048576).1 oneBlock_held.1,
    (hdisk t ht hend' 0 0).2 oneBlock_held.2⟩

end Backup

import Staut.Lib.Cyclic
import Staut.Myfs.Ops
import Staut.Myfs.Proof.Fresh
import Mathlib.Algebra.BigOperators.Group.Finset.Basic
import Mathlib.Algebra.BigOperators.Group.Finset.Piecewise
import Mathlib.Algebra.Order.Group.Multiset
import Mathlib.Algebra.Order.BigOperators.Group.Finset

/-!
# Block ownership

Every block number below `NUM_BLOCKS - 1` is in exactly one place, an entry of the free ring's
window or a block of one slot, as long as each file's blocks are first written in index order and
the ring is not empty at an allocation (`InOrder`).

`Ring` is the part of the invariant that every push and pop keeps (`Ring.release`, `Ring.alloc`,
both from `held_setFile` and the window lemmas of `Cyclic`); `Owned` adds what each slot's table
looks like. A push never overruns the window: by `Ring` a slot that holds a block leaves the
window at most `NUM_BLOCKS - 2` entries.
-/

set_option autoImplicit false

namespace Myfs

open CSem Cyclic Run

theorem NUM_BLOCKS_pos : 0 < NUM_BLOCKS := by rw [NUM_BLOCKS_eq]; decide

/-! ## Who holds which block -/

/-- The free ring's entries, from the read index to the write index. -/
def Superblock.freeWindow (sb : Superblock) : List Int :=
  cycWindow sb.freeBlocks NUM_BLOCKS sb.freeBlocksRp
    (cycLen NUM_BLOCKS sb.freeBlocksRp sb.freeBlocksWp)

/-- The active blocks of a file. -/
def File.held (f : File) : Multiset Int :=
  ((Multiset.range MYFS_MAX_BLOCKS_PER_FILE).map f.block).filter (· ≠ INACTIVE_BLOCK)

/-- The active blocks of all slots. -/
def Superblock.held (sb : Superblock) : Multiset Int :=
  ∑ i ∈ Finset.range MYFS_MAX_FILES, (sb.file i).held

/-- Each block number once. -/
def allBlocks : Multiset Int := (Multiset.range (NUM_BLOCKS - 1)).map fun n : Nat => (n : Int)

theorem ne_inactive_of_mem_allBlocks {b : Int} (h : b ∈ allBlocks) : b ≠ INACTIVE_BLOCK := by
  obtain ⟨n, -, rfl⟩ := Multiset.mem_map.1 h
  unfold INACTIVE_BLOCK
  omega

theorem held_congr {f g : File} (h : ∀ j < MYFS_MAX_BLOCKS_PER_FILE, f.block j = g.block j) :
    f.held = g.held := by
  unfold File.held
  rw [Multiset.map_congr rfl fun j hj => h j (Multiset.mem_range.1 hj)]

theorem mem_held {f : File} {k : Nat} (hk : k < MYFS_MAX_BLOCKS_PER_FILE)
    (hb : f.block k ≠ INACTIVE_BLOCK) : f.block k ∈ f.held :=
  Multiset.mem_filter.2 ⟨Multiset.mem_map_of_mem _ (Multiset.mem_range.2 hk), hb⟩

/-- A block written into an inactive entry is held in addition. -/
theorem held_setBlock {f : File} {k : Nat} {b : Int} (hk : k < MYFS_MAX_BLOCKS_PER_FILE)
    (hf : f.block k = INACTIVE_BLOCK) (hb : b ≠ INACTIVE_BLOCK) :
    (f.setBlock k b).held = b ::ₘ f.held := by
  have hmem : k ∈ Multiset.range MYFS_MAX_BLOCKS_PER_FILE := Multiset.mem_range.2 hk
  have hrest : ((Multiset.range MYFS_MAX_BLOCKS_PER_FILE).erase k).map (f.setBlock k b).block =
      ((Multiset.range MYFS_MAX_BLOCKS_PER_FILE).erase k).map f.block := by
    refine Multiset.map_congr rfl fun j hj => ?_
    have hne : j ≠ k := fun h => by
      rw [h] at hj
      exact (Multiset.nodup_range _).notMem_erase hj
    rw [setBlock_block, if_neg hne]
  unfold File.held
  rw [← Multiset.cons_erase hmem, Multiset.map_cons, Multiset.map_cons, hrest, setBlock_block,
    if_pos rfl, Multiset.filter_cons_of_pos (p := (· ≠ INACTIVE_BLOCK)) _ hb,
    Multiset.filter_cons_of_neg _ (by simpa using hf)]

/-- Clearing an active entry gives its block up. -/
theorem held_clearBlock {f : File} {k : Nat} (hk : k < MYFS_MAX_BLOCKS_PER_FILE)
    (hf : f.block k ≠ INACTIVE_BLOCK) :
    f.held = f.block k ::ₘ (f.setBlock k INACTIVE_BLOCK).held := by
  have h := held_setBlock (f := f.setBlock k INACTIVE_BLOCK) hk (by simp) hf
  rw [← h]
  refine held_congr fun j _ => ?_
  by_cases hj : j = k <;> simp [hj]

/-- Replacing one slot's file exchanges what that slot holds. -/
theorem held_setFile (sb : Superblock) {i : Nat} (hi : i < MYFS_MAX_FILES) (f : File) :
    (sb.setFile i f).held + (sb.file i).held = sb.held + f.held := by
  have hmem : i ∈ Finset.range MYFS_MAX_FILES := Finset.mem_range.2 hi
  have hrest : ∑ k ∈ (Finset.range MYFS_MAX_FILES).erase i, ((sb.setFile i f).file k).held =
      ∑ k ∈ (Finset.range MYFS_MAX_FILES).erase i, (sb.file k).held :=
    Finset.sum_congr rfl fun k hk => by rw [setFile_file, if_neg (Finset.ne_of_mem_erase hk)]
  unfold Superblock.held
  rw [← Finset.add_sum_erase _ _ hmem, ← Finset.add_sum_erase _ (fun k => (sb.file k).held) hmem,
    hrest, setFile_file, if_pos rfl]
  ac_rfl

theorem held_file_le (sb : Superblock) {i : Nat} (hi : i < MYFS_MAX_FILES) :
    (sb.file i).held ≤ sb.held :=
  Finset.single_le_sum (fun _ _ => Multiset.zero_le _) (Finset.mem_range.2 hi)
    (f := fun k => (sb.file k).held)

/-! ## The ring -/

/-- The free window and the slots share out the block numbers. -/
structure Ring (sb : Superblock) : Prop where
  rp_lt : sb.freeBlocksRp < NUM_BLOCKS
  wp_lt : sb.freeBlocksWp < NUM_BLOCKS
  part : (sb.freeWindow : Multiset Int) + sb.held = allBlocks

theorem Ring.card {sb : Superblock} (h : Ring sb) :
    cycLen NUM_BLOCKS sb.freeBlocksRp sb.freeBlocksWp + sb.held.card = NUM_BLOCKS - 1 := by
  have := congrArg Multiset.card h.part
  simpa [Superblock.freeWindow, allBlocks] using this

/-- The blocks of a slot are block numbers. -/
theorem Ring.block_range {sb : Superblock} (h : Ring sb) {i k : Nat} (hi : i < MYFS_MAX_FILES)
    (hk : k < MYFS_MAX_BLOCKS_PER_FILE) (hb : (sb.file i).block k ≠ INACTIVE_BLOCK) :
    ∃ n : Nat, n < NUM_BLOCKS ∧ (sb.file i).block k = n := by
  have hm : (sb.file i).block k ∈ allBlocks := by
    rw [← h.part]
    exact Multiset.mem_add.2 (.inr (Multiset.mem_of_le (held_file_le sb hi) (mem_held hk hb)))
  obtain ⟨n, hn, he⟩ := Multiset.mem_map.1 hm
  have := Multiset.mem_range.1 hn
  exact ⟨n, by omega, he.symm⟩

/-- No block is held twice. -/
theorem Ring.block_inj {sb : Superblock} (h : Ring sb) {i k j l : Nat} (hi : i < MYFS_MAX_FILES)
    (hk : k < MYFS_MAX_BLOCKS_PER_FILE) (hj : j < MYFS_MAX_FILES)
    (hl : l < MYFS_MAX_BLOCKS_PER_FILE) (hb : (sb.file i).block k ≠ INACTIVE_BLOCK)
    (he : (sb.file i).block k = (sb.file j).block l) : i = j ∧ k = l := by
  have hall : allBlocks.Nodup := (Multiset.nodup_range _).map fun _ _ => Int.ofNat_inj.1
  have hnd : sb.held.Nodup :=
    Multiset.nodup_of_le (by rw [← h.part]; exact Multiset.le_add_left _ _) hall
  have hmi := mem_held hk hb
  have hmj := mem_held hl (he ▸ hb)
  rw [← he] at hmj
  by_cases hij : i = j
  · refine ⟨hij, ?_⟩
    subst hij
    have hf : (sb.file i).held.Nodup := Multiset.nodup_of_le (held_file_le sb hi) hnd
    unfold File.held at hf
    rw [Multiset.filter_map] at hf
    exact Multiset.inj_on_of_nodup_map hf _
      (Multiset.mem_filter.2 ⟨Multiset.mem_range.2 hk, hb⟩) _
      (Multiset.mem_filter.2 ⟨Multiset.mem_range.2 hl, by rw [Function.comp_apply, ← he]; exact hb⟩)
        he
  · -- two slots hold disjoint parts of the sum
    have hsum : (sb.file i).held + ∑ m ∈ (Finset.range MYFS_MAX_FILES).erase i, (sb.file m).held =
        sb.held := Finset.add_sum_erase _ (fun m => (sb.file m).held) (Finset.mem_range.2 hi)
    rw [← hsum, Multiset.nodup_add] at hnd
    have hle : (sb.file j).held ≤ ∑ m ∈ (Finset.range MYFS_MAX_FILES).erase i, (sb.file m).held :=
      Finset.single_le_sum (fun _ _ => Multiset.zero_le _)
        (Finset.mem_erase.2 ⟨Ne.symm hij, Finset.mem_range.2 hj⟩) (f := fun m => (sb.file m).held)
    exact absurd (Multiset.mem_of_le hle hmj) (Multiset.disjoint_left.1 hnd.2.2 hmi)

/-- A slot that only changes its name and count keeps the ring. -/
theorem Ring.setFile {sb : Superblock} (h : Ring sb) {i : Nat} (hi : i < MYFS_MAX_FILES) {f : File}
    (hf : f.held = (sb.file i).held) : Ring (sb.setFile i f) := by
  have hh := held_setFile sb hi f
  rw [hf, Multiset.add_left_inj] at hh
  exact ⟨h.rp_lt, h.wp_lt, by rw [hh]; exact h.part⟩

/-- A pop into an inactive entry. -/
theorem Ring.alloc {sb : Superblock} (h : Ring sb) {i k : Nat} (hi : i < MYFS_MAX_FILES)
    (hk : k < MYFS_MAX_BLOCKS_PER_FILE) (hf : (sb.file i).block k = INACTIVE_BLOCK)
    (hne : sb.freeBlocksRp ≠ sb.freeBlocksWp) :
    Ring (allocBlock sb i k) ∧ sb.freeBlocks sb.freeBlocksRp ≠ INACTIVE_BLOCK := by
  let b := sb.freeBlocks sb.freeBlocksRp
  let rp := (sb.freeBlocksRp + 1) % NUM_BLOCKS
  let rest := cycWindow sb.freeBlocks NUM_BLOCKS rp (cycLen NUM_BLOCKS rp sb.freeBlocksWp)
  have hw : sb.freeWindow = b :: rest := by
    unfold Superblock.freeWindow
    rw [cycLen_pop h.rp_lt h.wp_lt hne, cycWindow_succ _ _ h.rp_lt]
  have hb : b ≠ INACTIVE_BLOCK := by
    apply ne_inactive_of_mem_allBlocks
    rw [← h.part, hw]
    simp
  have hheld : (allocBlock sb i k).held = b ::ₘ sb.held := by
    have e : ({ (sb.file i).setBlock k b with
        nBlock := ((sb.file i).nBlock + 1) % 2 ^ 64 } : File).held = b ::ₘ (sb.file i).held :=
      held_setBlock hk hf hb
    have hh := held_setFile sb hi
      { (sb.file i).setBlock k b with nBlock := ((sb.file i).nBlock + 1) % 2 ^ 64 }
    rw [e, Multiset.add_cons, ← Multiset.cons_add, Multiset.add_left_inj] at hh
    exact hh
  refine ⟨⟨Nat.mod_lt _ NUM_BLOCKS_pos, h.wp_lt, ?_⟩, hb⟩
  have hp := h.part
  rw [hw, ← Multiset.cons_coe, Multiset.cons_add] at hp
  rw [hheld, Multiset.add_cons]
  exact hp

/-- A push of an active block: there is room, as the slot holds one. -/
theorem Ring.release_window {sb : Superblock} (h : Ring sb) {fd j : Nat} (hi : fd < MYFS_MAX_FILES)
    (hj : j < MYFS_MAX_BLOCKS_PER_FILE) (hf : (sb.file fd).block j ≠ INACTIVE_BLOCK) :
    (releaseBlock fd sb j).freeWindow = sb.freeWindow ++ [(sb.file fd).block j] := by
  have hroom : cycLen NUM_BLOCKS sb.freeBlocksRp sb.freeBlocksWp + 1 < NUM_BLOCKS := by
    have h1 := h.card
    have h2 := Multiset.card_le_card (held_file_le sb hi)
    rw [held_clearBlock hj hf, Multiset.card_cons] at h2
    have h3 := NUM_BLOCKS_eq
    omega
  show cycWindow (Function.update sb.freeBlocks sb.freeBlocksWp ((sb.file fd).block j)) NUM_BLOCKS
    sb.freeBlocksRp (cycLen NUM_BLOCKS sb.freeBlocksRp ((sb.freeBlocksWp + 1) % NUM_BLOCKS)) = _
  rw [cycLen_push h.rp_lt h.wp_lt hroom]
  nth_rewrite 1 [← add_cycLen h.rp_lt h.wp_lt]
  exact cycWindow_push _ _ (by omega)

theorem Ring.release {sb : Superblock} (h : Ring sb) {fd j : Nat} (hi : fd < MYFS_MAX_FILES)
    (hj : j < MYFS_MAX_BLOCKS_PER_FILE) (hf : (sb.file fd).block j ≠ INACTIVE_BLOCK) :
    Ring (releaseBlock fd sb j) := by
  let b := (sb.file fd).block j
  have hheld : sb.held = b ::ₘ (releaseBlock fd sb j).held := by
    have hh := held_setFile sb hi ((sb.file fd).setBlock j INACTIVE_BLOCK)
    rw [held_clearBlock hj hf, Multiset.add_cons, ← Multiset.cons_add, Multiset.add_left_inj] at hh
    exact hh.symm
  refine ⟨h.rp_lt, Nat.mod_lt _ NUM_BLOCKS_pos, ?_⟩
  have hp := h.part
  rw [hheld, Multiset.add_cons] at hp
  rw [h.release_window hi hj hf, ← hp, ← Multiset.coe_add,
    Multiset.add_comm (sb.freeWindow : Multiset Int), Multiset.add_assoc]
  exact Multiset.singleton_add b _

/-- `__myfs_unlink`'s loop over distinct active blocks. -/
theorem Ring.release_fold {fd : Nat} (hi : fd < MYFS_MAX_FILES) :
    ∀ (js : List Nat), js.Nodup → ∀ {sb : Superblock}, Ring sb →
      (∀ j ∈ js, j < MYFS_MAX_BLOCKS_PER_FILE ∧ (sb.file fd).block j ≠ INACTIVE_BLOCK) →
      Ring (js.foldl (releaseBlock fd) sb) ∧
        (js.foldl (releaseBlock fd) sb).freeWindow = sb.freeWindow ++ js.map (sb.file fd).block
  | [], _, _, h, _ => ⟨h, (List.append_nil _).symm⟩
  | j :: js, hnd, sb, h, hact => by
    obtain ⟨hj, hnd⟩ := List.nodup_cons.1 hnd
    have hj' := hact j List.mem_cons_self
    have hne : ∀ k ∈ js, (releaseBlock fd sb j |>.file fd).block k = (sb.file fd).block k := by
      intro k hk
      have hkj : k ≠ j := fun he => hj (he ▸ hk)
      rw [releaseBlock_file, if_pos rfl, setBlock_block, if_neg hkj]
    obtain ⟨h1, h2⟩ := release_fold hi js hnd (h.release hi hj'.1 hj'.2) fun k hk => by
      rw [hne k hk]
      exact hact k (List.mem_cons_of_mem _ hk)
    rw [List.foldl_cons]
    refine ⟨h1, ?_⟩
    rw [h2, h.release_window hi hj'.1 hj'.2, List.map_congr_left hne, List.append_assoc]
    rfl

/-! ## The slots -/

/-- A slot's table: in a named slot the active blocks are those below `n_block`, an unnamed slot
has none. -/
structure SlotOk (f : File) : Prop where
  active : f.name ≠ .empty → ∀ j < MYFS_MAX_BLOCKS_PER_FILE,
    (f.block j ≠ INACTIVE_BLOCK ↔ j < f.nBlock)
  bound : f.name ≠ .empty → f.nBlock ≤ MYFS_MAX_BLOCKS_PER_FILE
  unnamed : f.name = .empty → ∀ j < MYFS_MAX_BLOCKS_PER_FILE, f.block j = INACTIVE_BLOCK

/-- The ownership invariant. -/
structure Owned (sb : Superblock) : Prop where
  ring : Ring sb
  slot : ∀ i < MYFS_MAX_FILES, SlotOk (sb.file i)

theorem SlotOk.held_card {f : File} (h : SlotOk f) :
    f.held.card = if f.name = .empty then 0 else f.nBlock := by
  have hc : f.held.card = ((Multiset.range MYFS_MAX_BLOCKS_PER_FILE).filter
      fun j => f.block j ≠ INACTIVE_BLOCK).card := by
    unfold File.held
    rw [Multiset.filter_map, Multiset.card_map]
    rfl
  rw [hc]
  split
  · rename_i hn
    rw [Multiset.filter_eq_nil.2 fun j hj hne => hne (h.unnamed hn j (Multiset.mem_range.1 hj)),
      Multiset.card_zero]
  · rename_i hn
    rw [Multiset.filter_congr fun j hj => h.active hn j (Multiset.mem_range.1 hj),
      show (Multiset.range MYFS_MAX_BLOCKS_PER_FILE).filter (fun j => j < f.nBlock) =
        Multiset.range f.nBlock from ?_, Multiset.card_range]
    refine (Multiset.Nodup.ext ((Multiset.nodup_range _).filter _) (Multiset.nodup_range _)).2
      fun j => ?_
    have := h.bound hn
    simp only [Multiset.mem_filter, Multiset.mem_range]
    omega

/-- An unlinked slot is unnamed and empty. -/
theorem SlotOk.released {f : File} (h : SlotOk f) (hn : f.name ≠ .empty) : SlotOk f.released := by
  refine ⟨fun hne => absurd rfl hne, fun hne => absurd rfl hne, fun _ j hj => ?_⟩
  show (if j < f.nBlock then INACTIVE_BLOCK else f.block j) = INACTIVE_BLOCK
  split
  · rfl
  · rename_i hlt
    exact Classical.byContradiction fun hne => hlt ((h.active hn j hj).1 hne)

/-! ## The calls keep the invariant -/

theorem Owned.unlinkSlot {s : State} (h : Owned s.sb) {fd : Nat} (hi : fd < MYFS_MAX_FILES)
    (hn : (s.sb.file fd).name ≠ .empty) : Owned (myfsUnlinkSlot s fd).sb := by
  have hslot := h.slot fd hi
  have hring := Ring.release_fold hi (List.range (s.sb.file fd).nBlock) List.nodup_range h.ring
    (fun j hj => by
      have hlt := List.mem_range.1 hj
      have hb := hslot.bound hn
      exact ⟨by omega, (hslot.active hn j (by omega)).2 hlt⟩)
  refine ⟨hring.1.setFile hi rfl, fun i hi' => ?_⟩
  rw [file_unlinkSlot]
  split
  · exact hslot.released hn
  · exact h.slot i hi'

theorem Owned.tryUnlink {s : State} (h : Owned s.sb) {fd : Nat} (hi : fd < MYFS_MAX_FILES)
    (hn : (s.sb.file fd).name ≠ .empty) : Owned (myfsTryUnlink s fd).sb := by
  rw [sb_tryUnlink]
  split
  · exact h.unlinkSlot hi hn
  · exact h

theorem Owned.unlink {s : State} (h : Owned s.sb) {f : CStr} (hf : f ≠ .empty) :
    Owned (myfsUnlink s f).sb := by
  unfold myfsUnlink
  have key : ∀ (is : List Nat) (s : State), (∀ i ∈ is, i < MYFS_MAX_FILES) → Owned s.sb →
      Owned (is.foldl (unlinkIfMatch f) s).sb := by
    intro is
    induction is with
    | nil => exact fun _ _ h => h
    | cons i is ih =>
      intro s hlt h
      rw [List.foldl_cons]
      refine ih _ (fun k hk => hlt k (List.mem_cons_of_mem _ hk)) ?_
      unfold unlinkIfMatch
      split
      · rename_i hm
        exact h.tryUnlink (hlt i List.mem_cons_self) (named_of_nameMatches hf hm)
      · exact h
  exact key _ s (fun i hi => List.mem_range.1 hi) h

theorem Owned.open {s s' : State} (h : Owned s.sb) {f : CStr} {i : Nat}
    (ho : myfsOpen s f = .ok (i, s')) : Owned s'.sb := by
  obtain ⟨hi, ⟨-, -, rfl⟩ | ⟨-, hn, -, rfl⟩⟩ := myfsOpen_ok ho
  · exact h
  · have hun := (h.slot i hi).unnamed hn
    refine ⟨h.ring.setFile hi rfl, fun k hk => ?_⟩
    rw [setFlags_sb, setFile_file]
    split
    · exact ⟨fun _ j hj => by simp [hun j hj], fun _ => Nat.zero_le _, fun _ => hun⟩
    · exact h.slot k hk

/-- `free_blocks_rp != free_blocks_wp` and the file's lower blocks are written, at an
allocation of `myfs_get_lba`. -/
def AllocInOrder (s : State) (i offset : Nat) (write : Int) : Prop :=
  0 < write → (s.sb.file i).block (offset / MYFS_BLOCK_SIZE) = INACTIVE_BLOCK →
    s.sb.freeBlocksRp ≠ s.sb.freeBlocksWp ∧
      ∀ j < offset / MYFS_BLOCK_SIZE, (s.sb.file i).block j ≠ INACTIVE_BLOCK

theorem Owned.getLba {s s' : State} (h : Owned s.sb) {i offset : Nat} {write lba : Int}
    (hi : i < MYFS_MAX_FILES) (hn : (s.sb.file i).name ≠ .empty)
    (hb : offset / MYFS_BLOCK_SIZE < MYFS_MAX_BLOCKS_PER_FILE)
    (ho : AllocInOrder s i offset write) (hg : myfsGetLba s i offset write = .ok (lba, s')) :
    Owned s'.sb := by
  obtain ⟨k, hk, hk', -, -, ⟨-, rfl⟩ | ⟨hw, hin, rfl⟩⟩ := myfsGetLba_ok hg
  · exact h
  · rw [wrap32_iBlock hb] at hk'
    obtain rfl : offset / MYFS_BLOCK_SIZE = k := Int.ofNat_inj.1 hk'
    obtain ⟨hne, hlow⟩ := ho hw hin
    obtain ⟨hring, hact⟩ := h.ring.alloc hi hk hin hne
    have hs := h.slot i hi
    have hbd := hs.bound hn
    have hmax := MYFS_MAX_BLOCKS_PER_FILE_eq
    -- the lower blocks are written and this one is not: it is block `n_block`
    have hidx : offset / MYFS_BLOCK_SIZE = (s.sb.file i).nBlock := by
      have h1 : ¬ offset / MYFS_BLOCK_SIZE < (s.sb.file i).nBlock := fun hlt =>
        (hs.active hn _ hk).2 hlt hin
      have h2 : ¬ (s.sb.file i).nBlock < offset / MYFS_BLOCK_SIZE := fun hlt =>
        Nat.lt_irrefl _ ((hs.active hn _ (Nat.lt_trans hlt hk)).1 (hlow _ hlt))
      omega
    refine ⟨hring, fun m hm => ?_⟩
    show SlotOk ((allocBlock s.sb i (offset / MYFS_BLOCK_SIZE)).file m)
    rw [allocBlock_file]
    split
    · have hmod : ((s.sb.file i).nBlock + 1) % 2 ^ 64 = (s.sb.file i).nBlock + 1 :=
        Nat.mod_eq_of_lt (by omega)
      refine ⟨fun _ j hj => ?_, fun _ => ?_, fun he => absurd he hn⟩
      · simp only [setBlock_block, hmod, hidx]
        split
        · rename_i hj'
          exact ⟨fun _ => by omega, fun _ => hact⟩
        · rename_i hj'
          rw [hs.active hn j hj]
          omega
      · show ((s.sb.file i).nBlock + 1) % 2 ^ 64 ≤ _
        omega
    · exact h.slot m hm

theorem Owned.init (sb : Superblock) : Owned (myfsSuperblockInit sb) := by
  have hfile : ∀ i < MYFS_MAX_FILES, ∀ j < MYFS_MAX_BLOCKS_PER_FILE,
      ((myfsSuperblockInit sb).file i).block j = INACTIVE_BLOCK := by
    intro i hi j hj
    simp only [myfsSuperblockInit, if_pos hi, if_pos hj]
  have hname : ∀ i < MYFS_MAX_FILES, ((myfsSuperblockInit sb).file i).name = .empty := by
    intro i hi
    simp only [myfsSuperblockInit, if_pos hi]
  have hheld : (myfsSuperblockInit sb).held = 0 := by
    refine Finset.sum_eq_zero fun i hi => ?_
    unfold File.held
    rw [Multiset.filter_eq_nil]
    intro b hb hne
    obtain ⟨j, hj, rfl⟩ := Multiset.mem_map.1 hb
    exact hne (hfile i (Finset.mem_range.1 hi) j (Multiset.mem_range.1 hj))
  have hN := NUM_BLOCKS_eq
  refine ⟨⟨NUM_BLOCKS_pos, show NUM_BLOCKS - 1 < NUM_BLOCKS by omega, ?_⟩, fun i hi => ?_⟩
  · rw [hheld, Multiset.add_zero]
    show ((cycWindow _ NUM_BLOCKS 0 (cycLen NUM_BLOCKS 0 (NUM_BLOCKS - 1)) : List Int) :
      Multiset Int) = allBlocks
    rw [cycLen_of_lt (by omega) (by omega), Nat.sub_zero]
    unfold cycWindow allBlocks
    show _ = Multiset.map _ ((List.range (NUM_BLOCKS - 1) : List Nat) : Multiset Nat)
    rw [Multiset.map_coe]
    congr 1
    refine List.map_congr_left fun k hk => ?_
    have hk' := List.mem_range.1 hk
    simp only [myfsSuperblockInit, Nat.zero_add]
    rw [Nat.mod_eq_of_lt (by omega), if_pos hk']
  · exact ⟨fun hn => absurd (hname i hi) hn, fun hn => absurd (hname i hi) hn,
      fun _ => hfile i hi⟩

/-! ## Runs -/

/-- The calls of an orderly run: nonempty paths, I/O and unlinks on named slots, blocks inside the
table and first written in index order, no allocation from an empty ring. -/
def InOrder (s : State) : Op → Prop
  | .open f => f ≠ .empty
  | .unlink f => f ≠ .empty
  | .getLba i offset write => i < MYFS_MAX_FILES ∧ (s.sb.file i).name ≠ .empty ∧
      offset / MYFS_BLOCK_SIZE < MYFS_MAX_BLOCKS_PER_FILE ∧ AllocInOrder s i offset write
  | .unlinkFd fd => fd < MYFS_MAX_FILES ∧ (s.sb.file fd).name ≠ .empty
  | .close _ | .incrementRef _ | .decrementRef _ => True

/-- What a call can do. -/
inductive OpStep (s : State) : Op → State → Prop
  | open {f : CStr} {i : Nat} {s' : State} : myfsOpen s f = .ok (i, s') → OpStep s (.open f) s'
  | unlink (f : CStr) : OpStep s (.unlink f) (myfsUnlink s f)
  | getLba {i offset : Nat} {write lba : Int} {s' : State} :
      myfsGetLba s i offset write = .ok (lba, s') → OpStep s (.getLba i offset write) s'
  | unlinkFd (fd : Nat) : OpStep s (.unlinkFd fd) (myfsTryUnlink s fd)
  | files {op : Op} {s' : State} : s'.sb = s.sb → OpStep s op s'

theorem op_step {s s' : State} {op : Op} (hs : op.run s = .ok s') : OpStep s op s' := by
  cases op with
  | «open» f =>
    simp only [Op.run] at hs
    cases ho : myfsOpen s f with
    | error e => rw [ho] at hs; cases hs
    | ok r =>
      rw [ho] at hs
      cases hs
      exact .open ho
  | getLba i offset write =>
    simp only [Op.run] at hs
    cases hg : myfsGetLba s i offset write with
    | error e => rw [hg] at hs; cases hs
    | ok r =>
      rw [hg] at hs
      cases hs
      exact .getLba hg
  | unlink f =>
    cases hs
    exact .unlink f
  | unlinkFd fd =>
    cases hs
    exact .unlinkFd fd
  | close fd =>
    cases hs
    exact .files rfl
  | incrementRef i =>
    cases hs
    exact .files (incrementRef_sb s i)
  | decrementRef i =>
    cases hs
    exact .files (decrementRef_sb s i)

theorem Owned.step {s s' : State} {op : Op} (h : Owned s.sb) (hc : InOrder s op)
    (hs : op.run s = .ok s') : Owned s'.sb := by
  cases op_step hs with
  | «open» ho => exact h.open ho
  | unlink f => exact h.unlink hc
  | getLba hg =>
    obtain ⟨hi, hn, hb, ho⟩ := hc
    exact h.getLba hi hn hb ho hg
  | unlinkFd fd => exact h.tryUnlink hc.1 hc.2
  | files he =>
    rw [he]
    exact h

theorem owned_of_reach {s : State} (h : ops.ReachIf InOrder s) : Owned s.sb := by
  refine LTS.ReachIf.induct (P := fun s => Owned s.sb) ?_ ?_ h
  · rintro s ⟨sb, hsb⟩
    rw [hsb]
    exact Owned.init sb
  · exact fun s op s' ho hc hs => ho.step hc hs

theorem Owned.held_card {sb : Superblock} (h : Owned sb) :
    sb.held.card = ∑ i ∈ Finset.range MYFS_MAX_FILES,
      if (sb.file i).name = .empty then 0 else (sb.file i).nBlock := by
  unfold Superblock.held
  rw [Multiset.card_sum]
  exact Finset.sum_congr rfl fun i hi => (h.slot i (Finset.mem_range.1 hi)).held_card

theorem Owned.usedBlocks {sb : Superblock} (h : Owned sb)
    (hne : sb.freeBlocksRp ≠ sb.freeBlocksWp) : myfsUsedBlocks sb = (sb.held.card : Int) := by
  have hc := h.ring.card
  have h1 := h.ring.rp_lt
  have h2 := h.ring.wp_lt
  unfold myfsUsedBlocks
  rcases Nat.lt_or_gt_of_ne hne with hlt | hgt
  · rw [cycLen_of_lt hlt h2] at hc
    rw [if_pos (by omega)]
    omega
  · rw [cycLen_of_gt hgt h1] at hc
    rw [if_neg (by omega)]
    omega

/-- **Block ownership is a partition** in every state of every orderly run. -/
theorem blocks_partitioned {s : State} (h : ops.ReachIf InOrder s) :
    (s.sb.freeWindow : Multiset Int) + s.sb.held = allBlocks ∧
    (∀ i < MYFS_MAX_FILES, (s.sb.file i).name ≠ .empty → ∀ j < MYFS_MAX_BLOCKS_PER_FILE,
      ((s.sb.file i).block j ≠ INACTIVE_BLOCK ↔ j < (s.sb.file i).nBlock)) ∧
    (∀ i < MYFS_MAX_FILES, (s.sb.file i).name = .empty → ∀ j < MYFS_MAX_BLOCKS_PER_FILE,
      (s.sb.file i).block j = INACTIVE_BLOCK) ∧
    (s.sb.freeBlocksRp ≠ s.sb.freeBlocksWp → myfsUsedBlocks s.sb =
      ((∑ i ∈ (Finset.range MYFS_MAX_FILES).filter fun i => (s.sb.file i).name ≠ .empty,
        (s.sb.file i).nBlock : Nat) : Int)) := by
  have ho := owned_of_reach h
  refine ⟨ho.ring.part, fun i hi => (ho.slot i hi).active, fun i hi => (ho.slot i hi).unnamed,
    fun hne => ?_⟩
  rw [ho.usedBlocks hne, ho.held_card, Finset.sum_filter]
  congr 1
  refine Finset.sum_congr rfl fun i _ => ?_
  by_cases hn : (s.sb.file i).name = .empty <;> simp [hn]

/-- The partition after `myfs_open("a")` and the first write to block 0 of the new file. -/
theorem blocks_partitioned_after_write : ∃ s i, i < MYFS_MAX_FILES ∧ (s.sb.file i).nBlock = 1 ∧
    ops.ReachIf InOrder s ∧ (s.sb.freeWindow : Multiset Int) + s.sb.held = allBlocks := by
  have hM := MYFS_MAX_BLOCKS_PER_FILE_eq
  have hf : (⟨[97], by decide⟩ : CStr) ≠ .empty := by decide
  have h0 : 0 / MYFS_BLOCK_SIZE < MYFS_MAX_BLOCKS_PER_FILE := by rw [Nat.zero_div]; omega
  have hw : InOrder (openedFs ⟨[97], by decide⟩) (.getLba 0 0 1) := by
    refine ⟨MYFS_MAX_FILES_pos, ?_, h0, fun _ _ => ⟨(opened_free _).2, ?_⟩⟩
    · rw [opened_file MYFS_MAX_FILES_pos]
      exact hf
    · rw [Nat.zero_div]
      exact fun j hj => absurd hj (Nat.not_lt_zero j)
  obtain ⟨s, hr, hfile⟩ := reach_first_write hf (by rw [MYFS_MAX_NAMELEN_eq]; decide) h0
    (show InOrder freshFs (.open _) from hf) hw
  refine ⟨s, 0, MYFS_MAX_FILES_pos, ?_, hr, (blocks_partitioned hr).1⟩
  rw [hfile]

end Myfs

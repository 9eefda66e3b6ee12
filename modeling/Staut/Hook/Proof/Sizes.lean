import Staut.Hook.Writes
import Staut.Hook.Proof.Batch
import Staut.Myfs.Proof.Gaps

/-!
# What has been written can be read

The size of a file is the number of its blocks times their size, so it bounds what was written
exactly when the block indices that were written have no gap (`written_readable`).

`Going` is what holds of a call in progress: the chunks do not cross a block, so that everything
below `j` is backed by an allocated block, and a length that does not fit `j` is never reached.
-/

set_option autoImplicit false

namespace Hook

open CSem Run Myfs Nvme Segment

/-- The block that `myfs_get_lba` uses for an offset is allocated. -/
def Backed (f : File) (o : Nat) : Prop :=
  ∃ k ∈ f.active, wrap32 ((o / MYFS_BLOCK_SIZE : Nat) : Int) = (k : Int)

theorem Backed.mono {f g : File} (h : f.active ⊆ g.active) {o : Nat}
    (hb : Backed f o) : Backed g o := by
  obtain ⟨k, hk, he⟩ := hb
  exact ⟨k, h hk, he⟩

/-- A chunk lies in one block. -/
theorem chunk_block {y d blksz : Int} (hb : blksz = 512 ∨ blksz = 4096) (hy : blksz ∣ y)
    (h0 : 0 ≤ d) (hd : d < blksz) : u64 (y + d) / MYFS_BLOCK_SIZE = u64 y / MYFS_BLOCK_SIZE := by
  rw [MYFS_BLOCK_SIZE_eq]
  unfold u64
  obtain ⟨q, rfl⟩ := hy
  rcases hb with rfl | rfl
  · omega
  · omega

/-- A call in progress. -/
structure Going (i : Nat) (f : File) (c : IoCall) : Prop where
  kind : c.kind = .write
  file : c.hookfd = i
  blksz : c.blksz = 512 ∨ c.blksz = 4096
  pos : c.blksz ∣ c.pos
  j : c.blksz ∣ c.j
  ge : -2 ^ 31 ≤ c.j
  le : c.j ≤ 2 ^ 31 - c.blksz
  nonneg : c.len ≤ 2 ^ 31 - c.blksz → 0 ≤ c.j
  inner : ∀ n, c.pc = .inner n → c.j < c.len
  backed : c.len ≤ 2 ^ 31 - c.blksz → ∀ x, 0 ≤ x → x < c.j → Backed f (u64 (c.pos + x))

theorem Going.mono {i : Nat} {f g : File} {c : IoCall} (h : Going i f c)
    (hs : f.active ⊆ g.active) :
    Going i g c :=
  { h with backed := fun hl x h0 hx => (h.backed hl x h0 hx).mono hs }

/-- The steps that issue no request. -/
theorem Going.setPc {i : Nat} {f : File} {c : IoCall} (h : Going i f c) {pc : IoPc}
    (hin : ∀ n, pc = .inner n → c.j < c.len) : Going i f { c with pc := pc } :=
  { h with inner := hin }

theorem Going.start {i : Nat} {s fs : State} {r : Range} {buf coreId : Nat} {rid : Nat → Int}
    {c : IoCall} (h : writeImpl s i r.len r.pos buf coreId rid = .ok (fs, c)) :
    Going i (fs.sb.file i) c ∧ fs.sb = s.sb := by
  unfold writeImpl at h
  split at h
  · cases h
  · rename_i hpos
    cases h
    have hp : (512 : Int) ∣ r.pos := Int.dvd_of_tmod_eq_zero (not_not.1 hpos)
    obtain ⟨hb, hd⟩ : (blkszOf r.len r.pos = 512 ∨ blkszOf r.len r.pos = 4096) ∧
        blkszOf r.len r.pos ∣ r.pos := by
      unfold blkszOf
      split
      · exact ⟨.inl rfl, hp⟩
      · rename_i h
        exact ⟨.inr rfl, Int.dvd_of_tmod_eq_zero (not_not.1 (not_or.1 h).2)⟩
    refine ⟨⟨rfl, rfl, hb, hd, Int.dvd_zero _, ?_, ?_, fun _ => Int.le_refl 0, nofun,
      fun _ x h0 hx => ?_⟩, incrementRef_sb _ _⟩
    · show -2 ^ 31 ≤ (0 : Int)
      omega
    · show (0 : Int) ≤ 2 ^ 31 - blkszOf r.len r.pos
      omega
    · have : x < 0 := hx
      omega

/-- `j += blksz` in an `int`. -/
theorem advance_j {j blksz : Int} (hb : blksz = 512 ∨ blksz = 4096) (hd : blksz ∣ j)
    (h1 : -2 ^ 31 ≤ j) (h2 : j ≤ 2 ^ 31 - blksz) :
    blksz ∣ wrap32 (j + blksz) ∧ -2 ^ 31 ≤ wrap32 (j + blksz) ∧
      wrap32 (j + blksz) ≤ 2 ^ 31 - blksz ∧
      (j + blksz < 2 ^ 31 → wrap32 (j + blksz) = j + blksz) := by
  obtain ⟨q, rfl⟩ := hd
  rcases Int.lt_or_eq_of_le (show blksz * q + blksz ≤ 2 ^ 31 by omega) with hlt | heq
  · rw [wrap32_of_range (by omega) hlt]
    refine ⟨⟨q + 1, by rw [Int.mul_add, Int.mul_one]⟩, by omega, ?_, fun _ => rfl⟩
    rcases hb with rfl | rfl <;> omega
  · rw [heq]
    refine ⟨?_, by decide, ?_, fun h => by omega⟩
    · rcases hb with rfl | rfl <;> decide
    · rcases hb with rfl | rfl <;> decide

/-- A request: the chunk at `j` is backed afterwards. -/
theorem Going.issue {i n : Nat} {f : File} {c : IoCall} {rid : Int} (h : Going i f c)
    (hpc : c.pc = .inner n) (hb : Backed f (u64 (c.pos + c.j))) : Going i f (c.after n rid) := by
  have hcase := h.blksz
  obtain ⟨hd, hge, hle, hup⟩ := advance_j hcase h.j h.ge h.le
  have hnext : c.len ≤ 2 ^ 31 - c.blksz → wrap32 (c.j + c.blksz) = c.j + c.blksz := fun hl => by
    have := h.inner n hpc
    exact hup (by omega)
  refine ⟨h.kind, h.file, h.blksz, h.pos, hd, hge, hle, fun hl => ?_, fun m hm => ?_,
    fun hl x h0 hx => ?_⟩
  · show 0 ≤ wrap32 (c.j + c.blksz)
    have := h.nonneg hl
    rw [hnext hl]
    omega
  · have hm : (if c.kind = .write ∧ c.len ≤ wrap32 (c.j + c.blksz) then IoPc.wait n 0
      else .inner (n + 1)) = .inner m := hm
    split at hm
    · cases hm
    · rename_i hlt
      exact Int.lt_of_not_ge fun hle => hlt ⟨h.kind, hle⟩
  · have hx : x < wrap32 (c.j + c.blksz) := hx
    rw [hnext hl] at hx
    rcases Int.lt_or_le x c.j with hlt | hge
    · exact h.backed hl x h0 hlt
    · obtain ⟨k, hk, he⟩ := hb
      refine ⟨k, hk, ?_⟩
      have := chunk_block hcase (Int.dvd_add h.pos h.j) (d := x - c.j) (by omega) (by omega)
      rw [show c.pos + c.j + (x - c.j) = c.pos + x by omega] at this
      show wrap32 ((u64 (c.pos + x) / MYFS_BLOCK_SIZE : Nat) : Int) = k
      rw [this]
      exact he

/-! ## Runs -/

/-- Block `k` is used by an offset of a call in progress. -/
def Claims (c : IoCall) (k : Nat) : Prop :=
  ∃ x, x < c.len ∧ (c.len ≤ 2 ^ 31 - c.blksz → 0 ≤ x) ∧
    wrap32 ((u64 (c.pos + x) / MYFS_BLOCK_SIZE : Nat) : Int) = (k : Int)

/-- The count is right, what was written is backed, and every block has a writer. -/
structure WInv (i : Nat) (s : Writes) : Prop where
  count : (s.fs.sb.file i).nBlock = (s.fs.sb.file i).active.card
  going : ∀ t c, s.calls t = some c → Going i (s.fs.sb.file i) c
  backed : ∀ o, s.Written o → Backed (s.fs.sb.file i) o
  owner : ∀ k ∈ (s.fs.sb.file i).active,
    (∃ o, s.Written o ∧ wrap32 ((o / MYFS_BLOCK_SIZE : Nat) : Int) = (k : Int)) ∨
      ∃ t c, s.calls t = some c ∧ Claims c k

section
variable {cfg : Cfg} {i : Nat} {s : Writes}

@[simp] theorem setCall_calls (t : Nat) (c : IoCall) (u : Nat) :
    (s.setCall t c).calls u = if u = t then some c else s.calls u := Function.update_apply _ _ _ _

@[simp] theorem setCall_fs (t : Nat) (c : IoCall) : (s.setCall t c).fs = s.fs := rfl

@[simp] theorem setCall_written (t : Nat) (c : IoCall) (o : Nat) :
    (s.setCall t c).Written o ↔ s.Written o := Iff.rfl

/-- The call of one ULT goes on: the file may have gained a block for it. -/
theorem WInv.setCall (h : WInv i s) {fs : State} {t : Nat} {c : IoCall}
    (hc : (fs.sb.file i).nBlock = (fs.sb.file i).active.card)
    (hs : (s.fs.sb.file i).active ⊆ (fs.sb.file i).active) (hg : Going i (fs.sb.file i) c)
    (hold : ∀ c0, s.calls t = some c0 → ∀ k, Claims c0 k → Claims c k)
    (hnew : ∀ k ∈ (fs.sb.file i).active, k ∉ (s.fs.sb.file i).active → Claims c k) :
    WInv i ({ s with fs := fs }.setCall t c) := by
  refine ⟨hc, fun u c' hu => ?_, fun o ho => (h.backed o ho).mono hs, fun k hk => ?_⟩
  · rw [setCall_calls] at hu
    split at hu
    · cases hu
      exact hg
    · exact (h.going u c' hu).mono hs
  · by_cases hk0 : k ∈ (s.fs.sb.file i).active
    · rcases h.owner k hk0 with hw | ⟨u, c0, hu, hcl⟩
      · exact .inl hw
      · refine .inr ?_
        by_cases hut : u = t
        · exact ⟨t, c, by simp, hold c0 (hut ▸ hu) k hcl⟩
        · exact ⟨u, c0, by simpa [hut] using hu, hcl⟩
    · exact .inr ⟨t, c, by simp, hnew k hk hk0⟩

/-- The steps that leave the file alone. -/
theorem WInv.sameFile (h : WInv i s) {fs : State} {t : Nat} {c : IoCall}
    (hf : fs.sb.file i = s.fs.sb.file i) (hg : Going i (s.fs.sb.file i) c)
    (hold : ∀ c0, s.calls t = some c0 → ∀ k, Claims c0 k → Claims c k) :
    WInv i ({ s with fs := fs }.setCall t c) := by
  refine h.setCall (by rw [hf, h.count]) (by rw [hf]) (by rw [hf]; exact hg) hold fun k hk hn => ?_
  rw [hf] at hk
  exact absurd hk hn

/-- `myfs_get_lba` of a call: the block is there afterwards, and it is the only new one. -/
theorem getLba_active {fs fs' : State} {offset : Nat} {write lba : Int}
    (hc : (fs.sb.file i).nBlock = (fs.sb.file i).active.card)
    (h : myfsGetLba fs i offset write = .ok (lba, fs')) :
    (fs'.sb.file i).nBlock = (fs'.sb.file i).active.card ∧ Backed (fs'.sb.file i) offset ∧
      (fs.sb.file i).active ⊆ (fs'.sb.file i).active ∧
      ∀ k ∈ (fs'.sb.file i).active, k ∉ (fs.sb.file i).active →
        wrap32 ((offset / MYFS_BLOCK_SIZE : Nat) : Int) = (k : Int) := by
  obtain ⟨k, hk, hk', hact, -, ⟨-, rfl⟩ | ⟨-, hin, rfl⟩⟩ := myfsGetLba_ok h
  · exact ⟨hc, ⟨k, mem_active.2 ⟨hk, hact⟩, hk'⟩, Finset.Subset.refl _, fun _ hk hn => absurd hk hn⟩
  · have hne : fs.sb.freeBlocks fs.sb.freeBlocksRp ≠ INACTIVE_BLOCK := by
      simpa [allocBlock_file] using hact
    have hset : ((allocBlock fs.sb i k).file i).active = insert k (fs.sb.file i).active := by
      rw [allocBlock_file, if_pos rfl]
      exact active_setBlock hk hne
    have hnot : k ∉ (fs.sb.file i).active := fun hm => (mem_active.1 hm).2 hin
    have hle := active_card_le (fs.sb.file i)
    have hM := MYFS_MAX_BLOCKS_PER_FILE_eq
    refine ⟨?_, ⟨k, mem_active.2 ⟨hk, hact⟩, hk'⟩, ?_, fun l hl hn => ?_⟩
    · show ((allocBlock fs.sb i k).file i).nBlock = ((allocBlock fs.sb i k).file i).active.card
      rw [hset, Finset.card_insert_of_notMem hnot, allocBlock_file, if_pos rfl]
      show ((fs.sb.file i).nBlock + 1) % 2 ^ 64 = _
      rw [hc, Nat.mod_eq_of_lt (by omega)]
    · show _ ⊆ ((allocBlock fs.sb i k).file i).active
      rw [hset]
      exact Finset.subset_insert _ _
    · have hl : l ∈ ((allocBlock fs.sb i k).file i).active := hl
      rw [hset, Finset.mem_insert] at hl
      rw [hl.resolve_right hn]
      exact hk'

theorem WInv.step {s' : Writes} {l : WLabel} (h : WInv i s)
    (hs : WStep cfg i s l s') : WInv i s' := by
  cases hs with
  | @start t r buf coreId rid fs c ht hw =>
    obtain ⟨hg, hsb⟩ := Going.start hw
    rw [hsb] at hg
    exact h.sameFile (by rw [hsb]) hg fun c0 hc0 => by
      rw [ht] at hc0
      cases hc0
  | @tau t rid done c c' hc hn =>
    have hg := h.going t c hc
    have hstep : ∃ pc, c' = { c with pc := pc } ∧ ∀ n, pc = .inner n → c.j < c.len := by
      obtain ⟨-, hj, rfl⟩ | ⟨n, -, -, rfl⟩ | ⟨n, k, -, -, rfl⟩ := next_tau hn
      · exact ⟨_, rfl, fun _ _ => hj⟩
      · exact ⟨_, rfl, nofun⟩
      · exact ⟨_, rfl, nofun⟩
    obtain ⟨pc, rfl, hin⟩ := hstep
    exact h.sameFile rfl (hg.setPc hin) fun c0 hc0 k hk => by
      rw [hc] at hc0
      cases hc0
      exact hk
  | @req t offset rid lba write done c r cont fs hc hn hg =>
    have hgo := h.going t c hc
    obtain ⟨n, hpc, -, -, rfl, -, rfl⟩ := next_req hn
    rw [hgo.file] at hg
    obtain ⟨hcount, hb, hsub, hnew⟩ := getLba_active h.count hg
    refine h.setCall hcount hsub ((hgo.mono hsub).issue hpc hb) (fun c0 hc0 k hk => ?_)
      fun k hk hn => ?_
    · rw [hc] at hc0
      cases hc0
      exact hk
    · exact ⟨c.j, hgo.inner n hpc, hgo.nonneg, hnew k hk hn⟩
  | @check t rid n done c cont hc hn =>
    have hg := h.going t c hc
    obtain ⟨m, k, -, -, -, rfl⟩ := next_check hn
    refine h.sameFile rfl ?_ fun c0 hc0 l hl => ?_
    · cases done with
      | true => exact hg.setPc nofun
      | false => exact hg
    · rw [hc] at hc0
      cases hc0
      cases done with
      | true => exact hl
      | false => exact hl
  | @ret t rid done c hc hn =>
    have hg := h.going t c hc
    obtain ⟨-, hle⟩ := next_ret.1 hn
    have hlen : c.len ≤ 2 ^ 31 - c.blksz := hle.trans hg.le
    have hwritten : ∀ o, (∃ r ∈ s.done ++ [⟨c.pos, c.len⟩], r.Covers o) ↔
        s.Written o ∨ Range.Covers ⟨c.pos, c.len⟩ o := fun o => by
      simp [Writes.Written, or_and_right, exists_or]
    refine ⟨?_, fun u c' hu => ?_, fun o ho => ?_, fun k hk => ?_⟩
    · rw [decrementRef_sb]
      exact h.count
    · rw [decrementRef_sb]
      have hu : Function.update s.calls t none u = some c' := hu
      rw [Function.update_apply] at hu
      split at hu
      · cases hu
      · exact h.going u c' hu
    · rw [decrementRef_sb]
      rcases (hwritten o).1 ho with ho | ⟨x, h0, hx, rfl⟩
      · exact h.backed o ho
      · have hx : x < c.len := hx
        exact hg.backed hlen x h0 (by omega)
    · rw [decrementRef_sb] at hk
      rcases h.owner k hk with ⟨o, ho, he⟩ | ⟨u, c0, hu, hcl⟩
      · exact .inl ⟨o, (hwritten o).2 (.inl ho), he⟩
      · by_cases hut : u = t
        · rw [hut, hc] at hu
          cases hu
          obtain ⟨x, hx, h0, he⟩ := hcl
          exact .inl ⟨_, (hwritten _).2 (.inr ⟨x, h0 hlen, hx, rfl⟩), he⟩
        · refine .inr ⟨u, c0, ?_, hcl⟩
          show Function.update s.calls t none u = some c0
          rw [Function.update_of_ne hut]
          exact hu
  | @other fs hf =>
    refine ⟨by rw [hf, h.count], fun t c hc => ?_, fun o ho => ?_, fun k hk => ?_⟩
    · rw [hf]
      exact h.going t c hc
    · rw [hf]
      exact h.backed o ho
    · rw [hf] at hk
      exact h.owner k hk

theorem winv_of_reach (h : (writes cfg i).Reach s) : WInv i s := by
  refine LTS.ReachIf.induct (P := WInv i) ?_ ?_ h
  · rintro s ⟨hn, hb, hc, hd⟩
    have hempty : (s.fs.sb.file i).active = ∅ := active_eq_empty.2 hb
    refine ⟨by rw [hn, hempty]; rfl, fun t c ht => ?_, fun o ho => ?_, fun k hk => ?_⟩
    · rw [hc t] at ht
      cases ht
    · obtain ⟨r, hr, -⟩ := ho
      rw [hd] at hr
      cases hr
    · rw [hempty] at hk
      cases hk
  · exact fun s l s' hi _ hs => hi.step hs

/-! ## The size -/

theorem Backed.eq {f : File} {o : Nat} (h : Backed f o)
    (hlt : o / MYFS_BLOCK_SIZE < MYFS_MAX_BLOCKS_PER_FILE) :
    o / MYFS_BLOCK_SIZE ∈ f.active := by
  obtain ⟨k, hk, he⟩ := h
  rw [wrap32_iBlock hlt] at he
  rwa [Int.ofNat_inj.1 he]

theorem WInv.size (h : WInv i s) :
    myfsGetSize s.fs i = (s.fs.sb.file i).active.card * MYFS_BLOCK_SIZE := by
  have hle := active_card_le (s.fs.sb.file i)
  have hM := MYFS_MAX_BLOCKS_PER_FILE_eq
  have hB := MYFS_BLOCK_SIZE_eq
  unfold myfsGetSize
  rw [h.count, hB]
  exact Nat.mod_eq_of_lt (by omega)

/-- No offset was written beyond the table when the indices below it were written too. -/
theorem WInv.index_lt (h : WInv i s)
    (hg : ∀ o, s.Written o → ∀ k < o / MYFS_BLOCK_SIZE, ∃ o',
      s.Written o' ∧ o' / MYFS_BLOCK_SIZE = k)
    {o : Nat} (ho : s.Written o) : o / MYFS_BLOCK_SIZE < MYFS_MAX_BLOCKS_PER_FILE := by
  have hM := MYFS_MAX_BLOCKS_PER_FILE_eq
  -- index `MYFS_MAX_BLOCKS_PER_FILE` itself is outside the table
  have hno : ∀ o', s.Written o' → o' / MYFS_BLOCK_SIZE ≠ MYFS_MAX_BLOCKS_PER_FILE := by
    intro o' ho' he
    obtain ⟨k, hk, hw⟩ := h.backed o' ho'
    rw [he, hM, wrap32_of_range (by decide) (by decide)] at hw
    have := (mem_active.1 hk).1
    omega
  rcases Nat.lt_trichotomy (o / MYFS_BLOCK_SIZE) MYFS_MAX_BLOCKS_PER_FILE with hlt | heq | hgt
  · exact hlt
  · exact absurd heq (hno o ho)
  · obtain ⟨o', ho', he⟩ := hg o ho _ hgt
    exact absurd he (hno o' ho')

theorem WInv.size_iff (h : WInv i s) (hc : ∀ t, s.calls t = none) :
    (∀ o, s.Written o → o < myfsGetSize s.fs i) ↔ ∀ o, s.Written o → ∀ k < o / MYFS_BLOCK_SIZE,
      ∃ o', s.Written o' ∧ o' / MYFS_BLOCK_SIZE = k := by
  have hM := MYFS_MAX_BLOCKS_PER_FILE_eq
  have hB := MYFS_BLOCK_SIZE_eq
  have hBpos : 0 < MYFS_BLOCK_SIZE := by omega
  have hlow : ∀ o, o < myfsGetSize s.fs i ↔ o / MYFS_BLOCK_SIZE < (s.fs.sb.file i).active.card :=
    fun o => by rw [h.size, Nat.div_lt_iff_lt_mul hBpos]
  have howner : ∀ k ∈ (s.fs.sb.file i).active,
      ∃ o, s.Written o ∧ wrap32 ((o / MYFS_BLOCK_SIZE : Nat) : Int) = (k : Int) := by
    intro k hk
    refine (h.owner k hk).resolve_right ?_
    rintro ⟨t, c, ht, -⟩
    rw [hc t] at ht
    cases ht
  -- with all indices inside the table, the written ones are the active ones
  have hiff : (∀ o, s.Written o → o / MYFS_BLOCK_SIZE < MYFS_MAX_BLOCKS_PER_FILE) → ∀ k,
      k ∈ (s.fs.sb.file i).active ↔ ∃ o, s.Written o ∧ o / MYFS_BLOCK_SIZE = k := by
    intro hlt k
    constructor
    · intro hk
      obtain ⟨o, ho, he⟩ := howner k hk
      rw [wrap32_iBlock (hlt o ho)] at he
      exact ⟨o, ho, Int.ofNat_inj.1 he⟩
    · rintro ⟨o, ho, rfl⟩
      exact (h.backed o ho).eq (hlt o ho)
  constructor
  · intro hsize o ho k hk
    have hle := active_card_le (s.fs.sb.file i)
    have hlt : ∀ o, s.Written o → o / MYFS_BLOCK_SIZE < MYFS_MAX_BLOCKS_PER_FILE := fun o ho =>
      Nat.lt_of_lt_of_le ((hlow o).1 (hsize o ho)) hle
    have hgap : Gapless (s.fs.sb.file i).active := by
      refine lt_card_iff.1 fun n hn => ?_
      obtain ⟨o', ho', rfl⟩ := (hiff hlt n).1 hn
      exact (hlow o').1 (hsize o' ho')
    exact (hiff hlt k).1 (hgap _ ((hiff hlt _).2 ⟨o, ho, rfl⟩) k hk)
  · intro hg o ho
    have hlt : ∀ o, s.Written o → o / MYFS_BLOCK_SIZE < MYFS_MAX_BLOCKS_PER_FILE := fun o ho =>
      h.index_lt hg ho
    have hgap : Gapless (s.fs.sb.file i).active := by
      intro n hn k hk
      obtain ⟨o', ho', rfl⟩ := (hiff hlt n).1 hn
      exact (hiff hlt k).2 (hg o' ho' k hk)
    exact (hlow o).2 (lt_card_iff.2 hgap _ ((hiff hlt _).2 ⟨o, ho, rfl⟩))

/-- A read of what lies below the size keeps its length. -/
theorem WInv.whole (h : WInv i s) (hsize : ∀ o, s.Written o → o < myfsGetSize s.fs i) {r : Range}
    {buf coreId : Nat} {rid : Nat → Int} {fs : State} {c : IoCall} (h0 : 0 ≤ r.pos)
    (h1 : r.pos < 2 ^ 63) (h2 : 0 < r.len) (h3 : r.len < 2 ^ 63)
    (hcov : ∀ o, r.Covers o → s.Written o)
    (hr : readImpl s.fs i r.len r.pos buf coreId rid = .ok (fs, c)) : c.len = r.len := by
  have hM := MYFS_MAX_BLOCKS_PER_FILE_eq
  have hB := MYFS_BLOCK_SIZE_eq
  have hbound : myfsGetSize s.fs i < 2 ^ 63 := by
    have hle := active_card_le (s.fs.sb.file i)
    rw [h.size, hB]
    omega
  have hend : r.pos + r.len ≤ myfsGetSize s.fs i := by
    -- else the first offset from the size on is written
    apply Classical.byContradiction
    intro hgt
    obtain ⟨x, hx⟩ : ∃ x, x = max 0 ((myfsGetSize s.fs i : Int) - r.pos) := ⟨_, rfl⟩
    have hu : (u64 (r.pos + x) : Int) = r.pos + x := u64_of_range (by omega) (by omega)
    have := hsize _ (hcov _ ⟨x, by omega, by omega, rfl⟩)
    omega
  have hu : (u64 (r.pos + r.len) : Int) = r.pos + r.len := u64_of_range (by omega) (by omega)
  unfold readImpl at hr
  dsimp only at hr
  rw [incrementRef_size] at hr
  have hlen : (if u64 (r.pos + r.len) > myfsGetSize s.fs i then
      wrap64 ((myfsGetSize s.fs i : Int) - r.pos) else r.len) = r.len := if_neg (by omega)
  rw [hlen] at hr
  split at hr
  · cases hr
  · cases hr
    rfl

/-- **Every written byte is readable** exactly when the writes left no gap between the 2 MB blocks.
-/
theorem written_readable (h : (writes cfg i).Reach s) (hc : ∀ t, s.calls t = none) :
    Readable i s ↔ ∀ o, s.Written o → ∀ k < o / MYFS_BLOCK_SIZE,
      ∃ o', s.Written o' ∧ o' / MYFS_BLOCK_SIZE = k := by
  have hi := winv_of_reach h
  constructor
  · exact fun hr => (hi.size_iff hc).1 hr.size
  · intro hg
    have hsize := (hi.size_iff hc).2 hg
    exact ⟨hsize, fun r buf coreId rid fs c h0 h1 h2 h3 hcov hr =>
      hi.whole hsize h0 h1 h2 h3 hcov hr⟩

/-- The write of a sector, from its call to its return. -/
theorem reach_sector_write {s : Writes} (hr : (writes ⟨1, 1, 1, 1⟩ 0).Reach s)
    (hc : ∀ t, s.calls t = none) {pos : Nat} (hpos : pos % 512 = 0)
    (hk : pos / MYFS_BLOCK_SIZE < MYFS_MAX_BLOCKS_PER_FILE) {lba : Int} {fs : State}
    (hg : myfsGetLba (myfsIncrementRef s.fs 0).1 0 pos 1 = .ok (lba, fs)) :
    ∃ s', (writes ⟨1, 1, 1, 1⟩ 0).Reach s' ∧ (∀ t, s'.calls t = none) ∧
      s'.done = s.done ++ [⟨pos, 512⟩] ∧ s'.fs = myfsDecrementRef fs 0 := by
  let cfg : Cfg := ⟨1, 1, 1, 1⟩
  let c1 : IoCall := ⟨.write, 0, 512, pos, 0, 0, 512, 0, fun _ => 0, .inner 0⟩
  let c0 : IoCall := { c1 with pc := .outer }
  let s1 : Writes := { s with fs := (myfsIncrementRef s.fs 0).1 }.setCall 0 c0
  have h1 : (writes cfg 0).Reach s1 := hr.step trivial (.start (t := 0) (r := ⟨pos, 512⟩) (hc 0)
    (writeImpl_sector s.fs 0 (fun _ => 0) hpos))
  have htau : ∀ {s : Writes} {c c' : IoCall}, s.calls 0 = some c → c.next cfg = .tau c' →
      (writes cfg 0).step s (.resume 0 0 true) (s.setCall 0 c') := fun hc hn => .tau hc hn
  let s2 := s1.setCall 0 c1
  have h2 : (writes cfg 0).Reach s2 := h1.step trivial (htau (c := c0) (by simp [s1]) (by rfl))
  have hn : c1.next cfg = .req pos 1 (c1.request .write) (c1.after 0) := by
    show Eff.req (u64 ((pos : Int) + 0)) 1 (c1.request .write) (c1.after 0) = _
    rw [u64_offset hk]
  let s3 : Writes := { s2 with fs := fs }.setCall 0 (c1.after 0 0)
  have hs3 : (writes cfg 0).step s2 (.resume 0 0 true) s3 := by
    have hc : s2.calls 0 = some c1 := by simp [s2]
    exact WStep.req hc hn hg
  have h3 : (writes cfg 0).Reach s3 := h2.step trivial hs3
  have hn3 : (c1.after 0 0).next cfg = .tau { c1.after 0 0 with pc := .outer } := by rfl
  let c4 : IoCall := { c1.after 0 0 with pc := .outer }
  let s4 : Writes := s3.setCall 0 c4
  have h4 : (writes cfg 0).Reach s4 := h3.step trivial (htau (by simp [s3]) hn3)
  have hret : c4.next cfg = .ret :=
    next_ret.2 ⟨rfl, show (512 : Int) ≤ wrap32 (0 + 512) by decide⟩
  let s5 : Writes :=
    ⟨myfsDecrementRef fs 0, Function.update s4.calls 0 none, s.done ++ [⟨pos, 512⟩]⟩
  have hs5 : (writes cfg 0).step s4 (.resume 0 0 true) s5 := by
    have hc : s4.calls 0 = some c4 := by simp [s4]
    exact WStep.ret hc hret
  refine ⟨s5, h4.step trivial hs5, fun t => ?_, rfl, rfl⟩
  simp only [s5, s4, s3, s2, s1, Function.update_apply, setCall_calls]
  split
  · rfl
  · exact hc t

/-- The first write, of a sector of a new file. -/
theorem reach_one_write (pos : Nat) (hpos : pos % 512 = 0)
    (hk : pos / MYFS_BLOCK_SIZE < MYFS_MAX_BLOCKS_PER_FILE) :
    ∃ s, (writes ⟨1, 1, 1, 1⟩ 0).Reach s ∧ (∀ t, s.calls t = none) ∧
      s.done = [⟨pos, 512⟩] ∧ myfsGetSize s.fs 0 = MYFS_BLOCK_SIZE ∧
      s.fs.sb = allocBlock (openedFs ⟨[97], by decide⟩).sb 0 (pos / MYFS_BLOCK_SIZE) := by
  let f : CStr := ⟨[97], by decide⟩
  have hB := MYFS_BLOCK_SIZE_eq
  have h0 : (writes ⟨1, 1, 1, 1⟩ 0).Reach ⟨openedFs f, fun _ => none, []⟩ := by
    refine .init ⟨?_, fun k hk => ?_, fun _ => rfl, rfl⟩
    · rw [opened_file MYFS_MAX_FILES_pos]
    · rw [opened_file MYFS_MAX_FILES_pos]
      exact if_pos hk
  obtain ⟨fs, hg, -, hsb, hfile⟩ := opened_alloc (incrementRef_sb (openedFs f) 0) pos hk
  obtain ⟨s, hr, hc, hd, hfs⟩ := reach_sector_write h0 (fun _ => rfl) hpos hk hg
  refine ⟨s, hr, hc, hd, ?_, ?_⟩
  · unfold myfsGetSize
    rw [hfs, decrementRef_sb, hfile, Nat.one_mul, Nat.mod_eq_of_lt (by omega)]
  · rw [hfs, decrementRef_sb, hsb, incrementRef_sb]

/-- A sector at 2 MB is written before the first one: when both are there, both are readable. -/
theorem written_readable_gap : ∃ s, (writes ⟨1, 1, 1, 1⟩ 0).Reach s ∧
    s.done = [⟨2097152, 512⟩, ⟨0, 512⟩] ∧ Readable 0 s := by
  have hM := MYFS_MAX_BLOCKS_PER_FILE_eq
  have hB := MYFS_BLOCK_SIZE_eq
  have h1 : 2097152 / MYFS_BLOCK_SIZE = 1 := by rw [hB]
  obtain ⟨s1, hr1, hc1, hd1, -, hsb⟩ :=
    reach_one_write 2097152 (by decide) (by rw [h1, hM]; decide)
  have hsb1 : (myfsIncrementRef s1.fs 0).1.sb =
      allocBlock (openedFs ⟨[97], by decide⟩).sb 0 (2097152 / MYFS_BLOCK_SIZE) :=
    (incrementRef_sb s1.fs 0).trans hsb
  obtain ⟨lba, fs, hg⟩ := opened_alloc_next (rfl : (openedFs ⟨[97], by decide⟩).sb = _) hsb1 0
    (by rw [Nat.zero_div, hM]; decide) (by rw [Nat.zero_div, h1]; decide)
  obtain ⟨s, hr, hc, hd, -⟩ := reach_sector_write hr1 hc1 (Nat.zero_mod 512)
    (by rw [Nat.zero_div, hM]; decide) hg
  rw [hd1] at hd
  refine ⟨s, hr, hd, (written_readable hr hc).2 ?_⟩
  rintro o ⟨r, hm, x, h0, hx, rfl⟩ k hk
  have hlt : u64 (r.pos + x) < 2 * 2097152 := by
    rw [hd] at hm
    rcases List.mem_pair.1 hm with rfl | rfl
    · dsimp only at hx ⊢
      unfold u64
      omega
    · dsimp only at hx ⊢
      unfold u64
      omega
  obtain rfl : k = 0 := by
    rw [hB] at hk
    omega
  exact ⟨0, ⟨⟨0, 512⟩, by simp [hd], 0, by simp [u64]⟩, Nat.zero_div _⟩

/-- A sector is written at 2 MB of a new file: the file counts as 2 MB long, and a read of the
sector is cut to nothing. -/
theorem written_past_size : ∃ s, (writes ⟨1, 1, 1, 1⟩ 0).Reach s ∧ (∀ t, s.calls t = none) ∧
    s.Written 2097152 ∧ myfsGetSize s.fs 0 = 2097152 ∧ ¬ Readable 0 s ∧
    ∃ fs c, readImpl s.fs 0 512 2097152 0 0 (fun _ => 0) = .ok (fs, c) ∧ c.len = 0 := by
  have hM := MYFS_MAX_BLOCKS_PER_FILE_eq
  have hB := MYFS_BLOCK_SIZE_eq
  obtain ⟨s, hr, hc, hd, hsize, -⟩ := reach_one_write 2097152 (by decide) (by rw [hB, hM]; decide)
  rw [hB] at hsize
  have hw : s.Written 2097152 := ⟨⟨2097152, 512⟩, by simp [hd], 0, by simp [u64]⟩
  refine ⟨s, hr, hc, hw, hsize, fun h => ?_, ?_⟩
  · have := h.size _ hw
    omega
  · unfold readImpl
    dsimp only
    rw [incrementRef_size, hsize]
    exact ⟨_, _, rfl, rfl⟩

end

end Hook
